import Mathlib.Data.BitVec
import Mathlib.Logic.Function.Basic

/-!
`addr_to_pde` of `mm.c` beside the page walk of the processor. The walk takes bits 51
to 12 of CR3 and of each entry, `EMASK` keeps bits 55 to 10. The two agree exactly if
the other bits that `EMASK` keeps are zero, or if what lies at the displaced addresses
happens to lead back.
-/
namespace Bootcode.Mm

abbrev Word := BitVec 64
/-- The quadword at each address that is a multiple of eight. -/
abbrev Memory := Word → Word

def EMASK : Word := 0x00FFFFFFFFFFFC00

/-- The argument `uint64_t *pe[]`; a NULL pointer is `none`. -/
abbrev Slots := Option (Nat → Option Word)

def slot (pe : Slots) (i : Nat) : Option Word := pe.bind (· i)

/-- `*pe[i] = eaddr`, unless the pointer is NULL. -/
def put (mem : Memory) (p : Option Word) (eaddr : Word) : Memory :=
  match p with
  | some p => Function.update mem p eaddr
  | none => mem

/-- The rounds of the loop from `i` on; in each of them `left` is `levels - 1 - i`. -/
def rounds (addr : Word) (pe : Slots) (bit_len : Nat) (entry_mask : Word) :
    (left i : Nat) → Memory → (base eaddr : Word) → Memory × Word
  | 0, _, mem, _, eaddr => (mem,eaddr)
  | left + 1, i, mem, base, _ =>
    let entry_num := (addr >>> (left * bit_len)) &&& entry_mask
    let eaddr := (base &&& EMASK) + entry_num * 8
    let mem := put mem (slot pe i) eaddr
    rounds addr pe bit_len entry_mask left (i + 1) mem (mem eaddr) eaddr

/-- The memory after the call, and the pointer that it returns. -/
def addr_to_pde (mem : Memory) (cr3 addr : Word) (pe : Slots) :
    Memory × Word := rounds (addr >>> (12 + 9)) pe 9 0x1FF 3 0 mem cr3 0

/-- Bits 51 to 12: the table that CR3 or an entry points to. -/
def tableBase (e : Word) : Word := (e.extractLsb' 12 40).setWidth 64 <<< 12
/-- The nine bits of the address from `lo` on. -/
def index (addr : Word) (lo : Nat) : Word := (addr.extractLsb' lo 9).setWidth 64
/-- Where the entry for `addr` is in the table of `e`. -/
def lookUp (e addr : Word) (lo : Nat) : Word := tableBase e + 8 * index addr lo

def present (e : Word) : Bool := e.getLsbD 0
/-- The entry maps a large page. -/
def large (e : Word) : Bool := e.getLsbD 7

/-- The addresses of the entries that a walk reads. -/
structure Walk where
  pml4 : Word
  pdpt : Word
  pd : Word
  deriving DecidableEq

def Walk.entry (w : Walk) : Nat → Word
  | 0 => w.pml4
  | 1 => w.pdpt
  | _ => w.pd

/-- The walk down to the page directory, if it gets there. -/
def walk (mem : Memory) (cr3 addr : Word) : Option Walk :=
  let pml4 := lookUp cr3 addr 39
  let pdpt := lookUp (mem pml4) addr 30
  if present (mem pml4) && !large (mem pml4) && present (mem pdpt) && !large (mem pdpt) then
    some ⟨pml4,pdpt,lookUp (mem pdpt) addr 21⟩
  else none

/-- Each slot has memory of its own, and none is an entry that the walk reads. -/
structure Apart (pe : Slots) (w : Walk) : Prop where
  distinct : ∀ i < 3, ∀ j < 3, ∀ p, slot pe i = some p → slot pe j = some p → i = j
  outside : ∀ i < 3, ∀ p, slot pe i = some p → p ≠ w.pml4 ∧ p ≠ w.pdpt

/-- The call returns the address of the page directory entry and leaves those of all
    three entries in the slots. -/
structure Agrees (mem : Memory) (cr3 addr : Word) (pe : Slots) (w : Walk) : Prop where
  returned : (addr_to_pde mem cr3 addr pe).2 = w.pd
  stored : ∀ i < 3, ∀ p, slot pe i = some p → (addr_to_pde mem cr3 addr pe).1 p = w.entry i

/-- The bits that `EMASK` keeps and that are no part of an address: 55 to 52, 11 and 10. -/
def spare (e : Word) : Word := e &&& 0x00F0000000000C00

/-- To the code `v` points to the table that `e` points to. -/
def Leads (v e : Word) : Prop := v &&& EMASK = tableBase e

/-- The spare bits are zero on the whole path. -/
structure Clear (mem : Memory) (cr3 : Word) (w : Walk) : Prop where
  cr3 : spare cr3 = 0
  pml4 : spare (mem w.pml4) = 0
  pdpt : spare (mem w.pdpt) = 0

/-- The code reads another entry in place of the one in the PML4, in the PDPT or in both,
    no slot shows it, and it is back in the right table after that. -/
inductive Rejoins (mem : Memory) (cr3 addr : Word) (pe : Slots) (w : Walk) : Prop
  | pml4 (hidden : slot pe 0 = none) (back : Leads (mem (w.pml4 + spare cr3)) (mem w.pml4)) (clear : spare (mem w.pdpt) = 0)
  | pdpt (hidden : slot pe 1 = none) (clear : spare cr3 = 0)
      (back : Leads (put mem (slot pe 0) w.pml4 (w.pdpt + spare (mem w.pml4))) (mem w.pdpt))
  | both (hidden : slot pe 0 = none) (hidden' : slot pe 1 = none) {e : Word} (reads : e = mem (w.pml4 + spare cr3))
      (back : Leads (mem (lookUp e addr 30 + spare e)) (mem w.pdpt))

/-! ### The mask -/

theorem getLsbD_mask (i : Nat) : (0x000FFFFFFFFFF000 : Word).getLsbD i = decide (12 ≤ i ∧ i < 52) := by
  by_cases inside : i < 64
  · exact (by decide +kernel : ∀ i < 64, (0x000FFFFFFFFFF000 : Word).getLsbD i = decide (12 ≤ i ∧ i < 52)) i inside
  · rw [BitVec.getLsbD_of_ge _ _ (by omega)]
    simp
    omega

theorem tableBase_eq (e : Word) : tableBase e = e &&& 0x000FFFFFFFFFF000 := by
  apply BitVec.eq_of_getLsbD_eq
  intro i inside
  rw [tableBase,BitVec.getLsbD_shiftLeft,BitVec.getLsbD_setWidth,BitVec.getLsbD_extractLsb',BitVec.getLsbD_and,getLsbD_mask]
  by_cases low : i < 12
  · have below : ¬ 12 ≤ i := by omega
    simp [low,below]
  · have above : 12 ≤ i := by omega
    have field : i - 12 < 40 ↔ i < 52 := by omega
    have short : i - 12 < 64 := by omega
    simp [inside,low,above,field,short,Bool.and_comm]

/-- What `EMASK` keeps is the address of the table, displaced by the spare bits. -/
theorem and_emask (e : Word) : e &&& EMASK = tableBase e + spare e := by
  have apart : tableBase e &&& spare e = 0 := by
    rw [tableBase_eq,spare,BitVec.and_assoc,BitVec.and_comm _ (e &&& _),BitVec.and_assoc]
    simp
  rw [BitVec.add_eq_or_of_and_eq_zero _ _ apart,tableBase_eq,spare,← BitVec.and_or_distrib_left]
  rfl

theorem index_eq (addr : Word) (k : Nat) : (addr >>> (12 + 9)) >>> k &&& 0x1FF = index addr (21 + k) := by
  apply BitVec.eq_of_getLsbD_eq
  intro i inside
  have mask : (0x1FF : Word).getLsbD i = decide (i < 9) :=
    (by decide +kernel : ∀ i < 64, (0x1FF : Word).getLsbD i = decide (i < 9)) i inside
  rw [BitVec.getLsbD_and,BitVec.getLsbD_ushiftRight,BitVec.getLsbD_ushiftRight,mask,index,BitVec.getLsbD_setWidth,
    BitVec.getLsbD_extractLsb',show 12 + 9 + (k + i) = 21 + k + i by omega]
  by_cases low : i < 9
  · simp [low,inside]
  · simp [low]

/-- The address that a round of the loop computes. -/
theorem eaddr_eq (base addr : Word) (k : Nat) :
    (base &&& EMASK) + ((addr >>> (12 + 9)) >>> k &&& 0x1FF) * 8 = lookUp base addr (21 + k) + spare base := by
  rw [and_emask,index_eq,lookUp,BitVec.mul_comm,BitVec.add_assoc,BitVec.add_comm (spare base),BitVec.add_assoc]

/-- Where the code is, for a table that it takes from `v`, when the walk takes it from `e`. -/
theorem displaced (v e addr : Word) (lo : Nat) : lookUp v addr lo + spare v = lookUp e addr lo ↔ Leads v e := by
  rw [Leads,and_emask,lookUp,lookUp,add_right_comm]
  exact add_left_inj _

theorem leads_self (e : Word) : Leads e e ↔ spare e = 0 := by
  rw [Leads,and_emask]
  exact add_eq_left

section
variable {mem : Memory} {cr3 addr : Word} {pe : Slots} {w : Walk}

theorem put_self (p v : Word) : put mem (some p) v p = v := Function.update_self ..
theorem put_other {p : Option Word} {x : Word} (v : Word) (other : p ≠ some x) : put mem p v x = mem x := by
  cases p with
  | none => rfl
  | some p => exact Function.update_of_ne (fun same => other (by rw [same])) ..

/-- What the three rounds compute, and the memory after the first two. -/
structure Visits (mem : Memory) (cr3 addr : Word) (pe : Slots) (a0 a1 a2 : Word) (m0 m1 : Memory) : Prop where
  first : a0 = lookUp cr3 addr 39 + spare cr3
  mem0 : m0 = put mem (slot pe 0) a0
  second : a1 = lookUp (m0 a0) addr 30 + spare (m0 a0)
  mem1 : m1 = put m0 (slot pe 1) a1
  third : a2 = lookUp (m1 a1) addr 21 + spare (m1 a1)
  result : addr_to_pde mem cr3 addr pe = (put m1 (slot pe 2) a2,a2)

theorem visits (mem : Memory) (cr3 addr : Word) (pe : Slots) : ∃ a0 a1 a2 m0 m1, Visits mem cr3 addr pe a0 a1 a2 m0 m1 := by
  refine ⟨_,_,_,_,_,⟨rfl,rfl,rfl,rfl,rfl,?_⟩⟩
  simp only [addr_to_pde,rounds,eaddr_eq]

theorem walk_entries (walked : walk mem cr3 addr = some w) :
    w.pml4 = lookUp cr3 addr 39 ∧ w.pdpt = lookUp (mem w.pml4) addr 30 ∧ w.pd = lookUp (mem w.pdpt) addr 21 := by
  simp only [walk] at walked
  split at walked
  · cases walked
    exact ⟨rfl,rfl,rfl⟩
  · cases walked

/-- The slots show the addresses of the rounds. -/
theorem Visits.agrees {a0 a1 a2 : Word} {m0 m1 : Memory} (visits : Visits mem cr3 addr pe a0 a1 a2 m0 m1)
    (apart : Apart pe w) :
    Agrees mem cr3 addr pe w ↔ (slot pe 0 ≠ none → a0 = w.pml4) ∧ (slot pe 1 ≠ none → a1 = w.pdpt) ∧ a2 = w.pd := by
  obtain ⟨-,mem0,-,mem1,-,result⟩ := visits
  have other : ∀ {i j p}, i < 3 → j < 3 → i ≠ j → slot pe i = some p → slot pe j ≠ some p := fun lt lt' not mine yours =>
    not (apart.distinct _ lt _ lt' _ mine yours)
  -- A later round leaves what an earlier one has stored.
  have shown : ∀ p, (slot pe 0 = some p → put m1 (slot pe 2) a2 p = a0) ∧
    (slot pe 1 = some p → put m1 (slot pe 2) a2 p = a1) ∧
      (slot pe 2 = some p → put m1 (slot pe 2) a2 p = a2) := by
    intro p
    refine ⟨fun is => ?_,fun is => ?_,fun is => by rw [is,put_self]⟩
    · rw [put_other _ (other (by omega) (by omega) (by omega) is),mem1,
        put_other _ (other (by omega) (by omega) (by omega) is),mem0,is,
        put_self]
    · rw [put_other _ (other (by omega) (by omega) (by omega) is),mem1,is,put_self]
  constructor
  · rintro ⟨returned,stored⟩
    simp only [result] at returned stored
    refine ⟨fun some0 => ?_,fun some1 => ?_,returned⟩
    · obtain ⟨p,is⟩ := Option.ne_none_iff_exists'.mp some0
      rw [← (shown p).1 is]
      exact stored 0 (by omega) p is
    · obtain ⟨p,is⟩ := Option.ne_none_iff_exists'.mp some1
      rw [← (shown p).2.1 is]
      exact stored 1 (by omega) p is
  · rintro ⟨first,second,third⟩
    refine ⟨by rw [result]; exact third,fun i lt p is => ?_⟩
    rw [result]
    have some : slot pe i ≠ none := by simp [is]
    obtain rfl | rfl | rfl : i = 0 ∨ i = 1 ∨ i = 2 := by omega
    · exact ((shown p).1 is).trans (first some)
    · exact ((shown p).2.1 is).trans (second some)
    · exact ((shown p).2.2 is).trans third

/-- `addr_to_pde` agrees with the walk exactly if no spare bit is set on the path, or if it
    gets back to the right table unseen. -/
theorem addr_to_pde_iff (walked : walk mem cr3 addr = some w) (apart : Apart pe w) :
    Agrees mem cr3 addr pe w ↔ Clear mem cr3 w ∨ Rejoins mem cr3 addr pe w := by
  obtain ⟨a0,a1,a2,m0,m1,visits⟩ := visits mem cr3 addr pe
  obtain ⟨pml4,pdpt,pd⟩ := walk_entries walked
  rw [visits.agrees apart]
  obtain ⟨first,mem0,second,mem1,third,-⟩ := visits
  have outside : ∀ i < 3, slot pe i ≠ some w.pml4 ∧ slot pe i ≠ some w.pdpt := fun i lt =>
    ⟨fun is => (apart.outside i lt _ is).1 rfl,fun is => (apart.outside i lt _ is).2 rfl⟩
  have at0 : a0 = w.pml4 ↔ spare cr3 = 0 := by
    rw [first,pml4,displaced,leads_self]
  have read0 : a0 = w.pml4 → m0 a0 = mem w.pml4 := by
    intro same
    rw [same,mem0,put_other _ (outside 0 (by omega)).1]
  have at1 : a1 = w.pdpt ↔ Leads (m0 a0) (mem w.pml4) := by
    rw [second,pdpt,displaced]
  have read1 : a1 = w.pdpt → m1 a1 = mem w.pdpt := by
    intro same
    rw [same,mem1,put_other _ (outside 1 (by omega)).2,mem0,put_other _ (outside 0 (by omega)).2]
  have at2 : a2 = w.pd ↔ Leads (m1 a1) (mem w.pdpt) := by
    rw [third,pd,displaced]
  have hidden0 : slot pe 0 = none → m0 = mem := fun none => by rw [mem0,none]; rfl
  have hidden1 : slot pe 1 = none → m1 = m0 := fun none => by rw [mem1,none]; rfl
  constructor
  · rintro ⟨shown0,shown1,last⟩
    rw [at2] at last
    by_cases right0 : a0 = w.pml4
    · by_cases right1 : a1 = w.pdpt
      · refine .inl ⟨at0.mp right0,?_,?_⟩
        · rw [at1,read0 right0,leads_self] at right1
          exact right1
        · rw [read1 right1,leads_self] at last
          exact last
      · have none1 : slot pe 1 = none := not_not.mp fun some => right1 (shown1 some)
        refine .inr (.pdpt none1 (at0.mp right0) ?_)
        rw [hidden1 none1,second,read0 right0,← pdpt,mem0,right0] at last
        exact last
    · have none0 : slot pe 0 = none := not_not.mp fun some => right0 (shown0 some)
      rw [← pml4] at first
      by_cases right1 : a1 = w.pdpt
      · rw [read1 right1,leads_self] at last
        rw [at1,hidden0 none0,first] at right1
        exact .inr (.pml4 none0 right1 last)
      · have none1 : slot pe 1 = none := not_not.mp fun some => right1 (shown1 some)
        rw [hidden1 none1,second,hidden0 none0,first] at last
        exact .inr (.both none0 none1 rfl last)
  · rintro (⟨clear0,clear1,clear2⟩ | back)
    · have right0 := at0.mpr clear0
      have right1 : a1 = w.pdpt := by rw [at1,read0 right0,leads_self]; exact clear1
      have right2 : a2 = w.pd := by rw [at2,read1 right1,leads_self]; exact clear2
      exact ⟨fun _ => right0,fun _ => right1,right2⟩
    · cases back with
      | pml4 none0 back clear =>
        rw [← pml4] at first
        have right1 : a1 = w.pdpt := by rw [at1,hidden0 none0,first]; exact back
        have right2 : a2 = w.pd := by rw [at2,read1 right1,leads_self]; exact clear
        exact ⟨fun some => absurd none0 some,fun _ => right1,right2⟩
      | pdpt none1 clear back =>
        have right0 := at0.mpr clear
        have right2 : a2 = w.pd := by
          rw [at2,hidden1 none1,second,read0 right0,← pdpt,mem0,right0]
          exact back
        exact ⟨fun _ => right0,fun some => absurd none1 some,right2⟩
      | both none0 none1 reads back =>
        rw [← pml4] at first
        have right2 : a2 = w.pd := by
          rw [at2,hidden1 none1,second,hidden0 none0,first,← reads]
          exact back
        exact ⟨fun some => absurd none0 some,fun some => absurd none1 some,right2⟩

/-- With all three slots, agreement means that no spare bit is set on the path. -/
theorem agrees_iff_clear (walked : walk mem cr3 addr = some w) (apart : Apart pe w) (all : ∀ i < 3, slot pe i ≠ none) :
    Agrees mem cr3 addr pe w ↔ Clear mem cr3 w := by
  rw [addr_to_pde_iff walked apart]
  refine ⟨?_,.inl⟩
  rintro (clear | hidden | hidden | hidden)
  · exact clear
  · exact absurd hidden (all 0 (by omega))
  · exact absurd hidden (all 1 (by omega))
  · exact absurd hidden (all 0 (by omega))

end

/-- A PML4 at 0x1000, a PDPT at 0x2000 and a page directory at 0x3000; bit 10 of the entry
    in the PML4 is set or clear. -/
def tables (bit10 : Bool) : Memory := fun a =>
  if a = 0x1000 then (if bit10 then 0x2401 else 0x2001) else if a = 0x2000 then 0x3001 else 0

def path : Walk := ⟨0x1000,0x2000,0x3000⟩
/-- Slots at 0x8000, 0x8008 and 0x8010. -/
def slots : Slots := some fun i => some (0x8000 + 8 * BitVec.ofNat 64 i)

theorem slots_apart : Apart slots path where
  distinct i lt j lt' p mine yours := by
    cases mine
    simp only [slot,slots,Option.bind_some,Option.some.injEq] at yours
    bv_omega
  outside i lt p is := by
    cases is
    simp only [path]
    constructor <;> bv_omega

theorem addr_to_pde_clear : Agrees (tables false) 0x1000 0 slots path :=
  (addr_to_pde_iff (by decide +kernel) slots_apart).mpr (.inl ⟨by decide,by decide,by decide⟩)

/-- The bit displaces the read in the PDPT by 0x400. -/
theorem addr_to_pde_bit10 : ¬ ∀ mem cr3 addr pe w, walk mem cr3 addr = some w → Apart pe w → Agrees mem cr3 addr pe w := by
  intro agrees
  have returned := (agrees (tables true) 0x1000 0 slots path (by decide +kernel) slots_apart).returned
  exact absurd returned (by decide +kernel)

end Bootcode.Mm
