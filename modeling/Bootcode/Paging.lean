import Bootcode.Mm
import Bootcode.UserContext

/-!
The paging structures of `boot.S` and what the processor makes of them. Every vCPU
has a page of its own for the top level and begins with the same map; `jump2fn`
replaces the first entry of its own page by the table of the function, so that in
user mode an address means what the table of the vCPU's function says.
-/
namespace Bootcode.Paging
open Bootcode.Mm (Word Memory tableBase index lookUp present large tableBase_eq)
open Bootcode.SchedState hiding Word
open Bootcode.Interleave Bootcode.Sched Bootcode.Graph Bootcode.Roles

def PG_PRESENT : Word := 0x1
def PG_WRITABLE : Word := 0x2
def PG_USER : Word := 0x4
def PG_PCD : Word := 0x10
def PG_BIG : Word := 0x80
def PG_GLOBAL : Word := 0x100
def MAX_VCPUS : Nat := 64

/-- The labels of the section `.paging`, which begins at `org`. -/
def apic_page (org : Word) : Word := org
def shared_ro_page (org : Word) : Word := org + 0x1000
def templ_boot_p3 (org : Word) : Word := org + 0x2000
def boot_p4 (org : Word) : Word := org + 0x3000

/-- The quadwords behind each label. -/
def apicEntry (k : Nat) : Word := if k = 503 then 0xFEE00000 + PG_PRESENT + PG_WRITABLE + PG_BIG + PG_PCD + PG_GLOBAL else 0
def sharedEntry (_ : Nat) : Word := 0
def templEntry (org : Word) : Nat → Word
  | 0 => 0 + PG_PRESENT + PG_WRITABLE + PG_BIG
  | 1 => shared_ro_page org + PG_PRESENT + PG_WRITABLE + PG_USER
  | 3 => apic_page org + PG_PRESENT + PG_WRITABLE + PG_USER
  | _ => 0
def p4Entry (org : Word) (k : Nat) : Word := if k % 512 = 0 then templ_boot_p3 org + PG_PRESENT + PG_WRITABLE +
    PG_USER else 0

/-- Quadword `k` of a table. -/
def entryAt (table : Word) (k : Nat) : Word := table + BitVec.ofNat 64 (8 * k)

/-- The section as it is loaded. -/
structure Loaded (mem : Memory) (org : Word) : Prop where
  apic : ∀ k < 512, mem (entryAt (apic_page org) k) = apicEntry k
  shared : ∀ k < 512, mem (entryAt (shared_ro_page org) k) = sharedEntry k
  templ : ∀ k < 512, mem (entryAt (templ_boot_p3 org) k) = templEntry org k
  p4 : ∀ k < MAX_VCPUS * 512, mem (entryAt (boot_p4 org) k) = p4Entry org k

/-- The section on its own. -/
def paging (org : Word) : Memory := fun a =>
  let k := (a - org).toNat / 8
  if k < 512 then apicEntry k
  else if k < 1024 then sharedEntry (k - 512)
  else if k < 1536 then templEntry org (k - 1024)
  else p4Entry org (k - 1536)

/-- `movl $(boot_p4), %eax; imull $512, %ecx; leal (%eax,%ecx,8), %eax; movl %eax, %cr3`. -/
def resetCr3 (org : Word) (ecx : BitVec 32) : Word :=
  let eax := (boot_p4 org).setWidth 32
  let ecx := ecx * 512
  (eax + ecx * 8).setWidth 64

/-- What an address is mapped to. -/
structure Mapping where
  phys : Word
  writable : Bool
  user : Bool
  uncached : Bool
  deriving DecidableEq

def writable (e : Word) : Bool := e.getLsbD 1
def user (e : Word) : Bool := e.getLsbD 2
def uncached (e : Word) : Bool := e.getLsbD 4

/-- The page of `2 ^ bits` bytes that `e` points to, at the offset of the address. -/
def page (e : Word) (bits : Nat) (addr : Word) : Word :=
  (tableBase e >>> bits) <<< bits + BitVec.ofNat 64 (addr.toNat % 2 ^ bits)
def mapped (es : List Word) (e : Word) (bits : Nat) (addr : Word) : Mapping :=
  ⟨page e bits addr,(e :: es).all writable,(e :: es).all user,uncached e⟩

/-- The walk below the page map level 4 entry `e4`. -/
def below (mem : Memory) (e4 addr : Word) : Option Mapping :=
  let e3 := mem (lookUp e4 addr 30)
  let e2 := mem (lookUp e3 addr 21)
  let e1 := mem (lookUp e2 addr 12)
  if !present e4 || large e4 then none
  else if !present e3 then none
  else if large e3 then some (mapped [e4] e3 30 addr)
  else if !present e2 then none
  else if large e2 then some (mapped [e3,e4] e2 21 addr)
  else if !present e1 then none
  else some (mapped [e2,e3,e4] e1 12 addr)

/-- The addresses that the walk below `e4` reads at most. -/
def reads (mem : Memory) (e4 addr : Word) : List Word :=
  let e3 := mem (lookUp e4 addr 30)
  let e2 := mem (lookUp e3 addr 21)
  [lookUp e4 addr 30,lookUp e3 addr 21,lookUp e2 addr 12]

def canonical (addr : Word) : Bool := addr.toNat < 2 ^ 47 || 2 ^ 64 - 2 ^ 47 ≤ addr.toNat

/-- Four-level translation; `none` is a page fault or, of an address that is not
    canonical, a protection fault. -/
def translate (mem : Memory) (cr3 addr : Word) : Option Mapping :=
  if canonical addr then below mem (mem (lookUp cr3 addr 39)) addr else none

/-- A walk sees no store to what it does not read. -/
theorem below_congr {mem mem' : Memory} {e4 addr : Word} (same : ∀ a ∈ reads mem e4 addr, mem' a = mem a) :
    below mem' e4 addr = below mem e4 addr := by
  have one := same (lookUp e4 addr 30) (by simp [reads])
  have two := same (lookUp (mem (lookUp e4 addr 30)) addr 21) (by simp [reads])
  have three := same (lookUp (mem (lookUp (mem (lookUp e4 addr 30)) addr 21)) addr 12) (by simp [reads])
  unfold below
  simp only [one,two,three]

theorem tableBase_toNat (e : Word) : (tableBase e).toNat = e.toNat / 4096 % 2 ^ 40 * 4096 := by
  unfold tableBase
  rw [BitVec.toNat_shiftLeft,BitVec.toNat_setWidth,BitVec.extractLsb'_toNat,Nat.shiftRight_eq_div_pow,Nat.shiftLeft_eq]
  omega

theorem index_toNat (addr : Word) (lo : Nat) : (index addr lo).toNat = addr.toNat / 2 ^ lo % 512 := by
  unfold index
  rw [BitVec.toNat_setWidth,BitVec.extractLsb'_toNat,Nat.shiftRight_eq_div_pow]
  omega

theorem lookUp_eq (e addr : Word) (lo : Nat) : lookUp e addr lo = entryAt (tableBase e) (addr.toNat / 2 ^ lo % 512) := by
  unfold lookUp entryAt
  congr 1
  apply BitVec.eq_of_toNat_eq
  have low := Nat.mod_lt (addr.toNat / 2 ^ lo) (show 0 < 512 by omega)
  rw [BitVec.toNat_mul,index_toNat,BitVec.toNat_ofNat]
  rfl

/-- The first page holds the table of an entry with flags alone. -/
theorem lookUp_low {e : Word} (low : e.toNat < 4096) (addr : Word) (lo : Nat) : (lookUp e addr lo).toNat < 4096 := by
  have base := tableBase_toNat e
  have few := Nat.mod_lt (addr.toNat / 2 ^ lo) (show 0 < 512 by omega)
  rw [lookUp_eq,entryAt,BitVec.toNat_add,BitVec.toNat_ofNat,base]
  omega

/-- A table with flags added. -/
theorem tableBase_add {table flags : Word} (aligned : table.toNat % 4096 = 0) (room : table.toNat + 4096 ≤ 2 ^ 52)
    (few : flags.toNat < 4096) : tableBase (table + flags) = table := by
  apply BitVec.eq_of_toNat_eq
  rw [tableBase_toNat,BitVec.toNat_add]
  omega

/-! ### The map at boot -/

section
variable {mem : Memory} {org : Word}

/-- The section begins on a page and ends below 4 GiB, as its addresses are loaded into
    32-bit registers. -/
structure Placed (org : Word) : Prop where
  aligned : org.toNat % 4096 = 0
  room : org.toNat + 0x3000 + MAX_VCPUS * 4096 ≤ 2 ^ 32

theorem Placed.tables (placed : Placed org) :
    (apic_page org).toNat = org.toNat ∧ (shared_ro_page org).toNat = org.toNat + 0x1000 ∧
      (templ_boot_p3 org).toNat = org.toNat + 0x2000 ∧ (boot_p4 org).toNat = org.toNat + 0x3000 := by
  have room := placed.room
  unfold MAX_VCPUS at room
  unfold apic_page shared_ro_page templ_boot_p3 boot_p4
  refine ⟨rfl,?_,?_,?_⟩ <;> bv_omega

/-- Every vCPU has a page of its own for the top level. -/
theorem resetCr3_toNat (placed : Placed org) {id : Nat} (few : id < MAX_VCPUS) :
    (resetCr3 org (BitVec.ofNat 32 id)).toNat = org.toNat + 0x3000 + 4096 * id := by
  obtain ⟨-,-,-,top⟩ := placed.tables
  have room := placed.room
  unfold MAX_VCPUS at room few
  unfold resetCr3
  have words : (512 : BitVec 32).toNat = 512 ∧ (8 : BitVec 32).toNat = 8 := ⟨rfl,rfl⟩
  simp only [BitVec.toNat_setWidth,BitVec.toNat_add,BitVec.toNat_mul,BitVec.toNat_ofNat,top,words]
  omega

theorem tableBase_cr3 (placed : Placed org) {id : Nat} (few : id < MAX_VCPUS) :
    tableBase (resetCr3 org (BitVec.ofNat 32 id)) = resetCr3 org (BitVec.ofNat 32 id) := by
  have aligned := placed.aligned
  have room := placed.room
  unfold MAX_VCPUS at room few
  apply BitVec.eq_of_toNat_eq
  rw [tableBase_toNat,resetCr3_toNat placed few]
  omega

/-- Entry `k` of the top level of vCPU `id` is entry `512 * id + k` behind `boot_p4`. -/
theorem entryAt_cr3 (placed : Placed org) {id k : Nat} (few : id < MAX_VCPUS) :
    entryAt (resetCr3 org (BitVec.ofNat 32 id)) k = entryAt (boot_p4 org) (512 * id + k) := by
  obtain ⟨-,-,-,top⟩ := placed.tables
  have cr3 := resetCr3_toNat placed few
  apply BitVec.eq_of_toNat_eq
  unfold entryAt
  rw [BitVec.toNat_add,BitVec.toNat_add,BitVec.toNat_ofNat,BitVec.toNat_ofNat,cr3,top]
  omega

theorem p4_read (placed : Placed org) (loaded : Loaded mem org) {id : Nat} (few : id < MAX_VCPUS) (addr : Word) :
    mem (lookUp (resetCr3 org (BitVec.ofNat 32 id)) addr 39) =
      if addr.toNat / 2 ^ 39 % 512 = 0 then templ_boot_p3 org + PG_PRESENT + PG_WRITABLE + PG_USER else 0 := by
  have low := Nat.mod_lt (addr.toNat / 2 ^ 39) (show 0 < 512 by omega)
  rw [lookUp_eq,tableBase_cr3 placed few,entryAt_cr3 placed few,loaded.p4 _ (by unfold MAX_VCPUS at few ⊢; omega),p4Entry]
  congr 1
  rw [eq_iff_iff]
  omega

theorem table_flags (table : Word) : table + PG_PRESENT + PG_WRITABLE + PG_USER = table + 7 := by
  rw [BitVec.add_assoc,BitVec.add_assoc]
  rfl

/-- The flags of an entry are those added to the table. -/
theorem flag_add {table flags : Word} (aligned : table.toNat % 4096 = 0) {i : Nat} (flag : i < 12) :
    (table + flags).getLsbD i = flags.getLsbD i := by
  have same : (table + flags).setWidth 12 = flags.setWidth 12 := by
    apply BitVec.eq_of_toNat_eq
    rw [BitVec.toNat_setWidth,BitVec.toNat_setWidth,BitVec.toNat_add]
    omega
  have bit := congrArg (·.getLsbD i) same
  simpa [BitVec.getLsbD_setWidth,flag] using bit

/-- An entry for a table of the section. -/
theorem table_entry (table : Word) (aligned : table.toNat % 4096 = 0) (room : table.toNat + 4096 ≤ 2 ^ 52) :
    tableBase (table + 7) = table ∧ present (table + 7) = true ∧ large (table + 7) = false ∧
      writable (table + 7) = true ∧ user (table + 7) = true := by
  unfold present large writable user
  refine ⟨tableBase_add aligned room (by decide),?_,?_,?_,?_⟩ <;> rw [flag_add aligned (by omega)] <;> rfl

/-- A large page whose own flags are those of `e`. -/
theorem page_of_aligned {e addr : Word} {bits hi : Nat} (base : (tableBase e).toNat = hi * 2 ^ bits)
    (same : addr.toNat / 2 ^ bits = hi) : page e bits addr = addr := by
  apply BitVec.eq_of_toNat_eq
  have split := Nat.div_add_mod addr.toNat (2 ^ bits)
  have lt := addr.isLt
  have small : addr.toNat % 2 ^ bits ≤ addr.toNat := Nat.mod_le _ _
  have whole : (((tableBase e) >>> bits) <<< bits).toNat = hi * 2 ^ bits := by
    rw [BitVec.toNat_shiftLeft,BitVec.toNat_ushiftRight,Nat.shiftRight_eq_div_pow,Nat.shiftLeft_eq,base,
      Nat.mul_div_cancel _ (Nat.two_pow_pos bits),Nat.mod_eq_of_lt (base ▸ (tableBase e).isLt)]
  unfold page
  rw [BitVec.toNat_add,whole,BitVec.toNat_ofNat,Nat.mod_eq_of_lt (small.trans_lt lt),← same,Nat.mul_comm,split,
    Nat.mod_eq_of_lt lt]

/-- The map every vCPU boots with: the first gigabyte and the registers of the APIC, at
    their own addresses and for the kernel only. -/
def bootMap (addr : Word) : Option Mapping :=
  if addr.toNat < 2 ^ 30 then some ⟨addr,true,false,false⟩
  else if 0xFEE00000 ≤ addr.toNat ∧ addr.toNat < 0xFF000000 then some ⟨addr,true,false,true⟩
  else none

/-- The two large pages. -/
theorem templEntry_zero (org : Word) : templEntry org 0 = 0x83 := by
  simp [templEntry,PG_PRESENT,PG_WRITABLE,PG_BIG]
theorem apicEntry_registers : apicEntry 503 = 0xFEE00193 := by
  simp [apicEntry,PG_PRESENT,PG_WRITABLE,PG_BIG,PG_PCD,PG_GLOBAL]

/-- What is below the entry that all top levels share. -/
theorem below_templ (placed : Placed org) (loaded : Loaded mem org) {addr : Word} (low : addr.toNat < 2 ^ 39) :
    below mem (templ_boot_p3 org + 7) addr = bootMap addr := by
  obtain ⟨apic,shared,templ,-⟩ := placed.tables
  have aligned := placed.aligned
  have room := placed.room
  unfold MAX_VCPUS at room
  obtain ⟨base4,there4,small4,write4,user4⟩ := table_entry (templ_boot_p3 org) (by omega) (by omega)
  obtain ⟨baseA,thereA,smallA,writeA,userA⟩ := table_entry (apic_page org) (by omega) (by omega)
  obtain ⟨baseS,thereS,smallS,-⟩ := table_entry (shared_ro_page org) (by omega) (by omega)
  have index : addr.toNat / 2 ^ 30 % 512 = addr.toNat / 2 ^ 30 := Nat.mod_eq_of_lt (by omega)
  have e3 : mem (lookUp (templ_boot_p3 org + 7) addr 30) = templEntry org (addr.toNat / 2 ^ 30) := by
    rw [lookUp_eq,base4,index]
    exact loaded.templ _ (by omega)
  have few := Nat.mod_lt (addr.toNat / 2 ^ 21) (show 0 < 512 by omega)
  unfold below bootMap
  simp only [there4,small4,e3]
  obtain zero | one | three | other : addr.toNat / 2 ^ 30 = 0 ∨ addr.toNat / 2 ^ 30 = 1 ∨ addr.toNat / 2 ^ 30 = 3 ∨
      templEntry org (addr.toNat / 2 ^ 30) = 0 ∧ addr.toNat / 2 ^ 30 ≠ 0 ∧ addr.toNat / 2 ^ 30 ≠ 3 := by
    generalize addr.toNat / 2 ^ 30 = k
    match k with
    | 0 => exact .inl rfl
    | 1 => exact .inr (.inl rfl)
    | 2 => exact .inr (.inr (.inr ⟨rfl,by omega,by omega⟩))
    | 3 => exact .inr (.inr (.inl rfl))
    | k + 4 => exact .inr (.inr (.inr ⟨rfl,by omega,by omega⟩))
  · rw [zero,if_pos (show addr.toNat < 2 ^ 30 by omega)]
    rw [templEntry_zero]
    have base : (tableBase 0x83).toNat = 0 * 2 ^ 30 := by rw [tableBase_toNat]; rfl
    have flags : present 0x83 = true ∧ large 0x83 = true ∧ writable 0x83 = true ∧ user 0x83 = false ∧
      uncached 0x83 = false := by decide
    simp only [flags,mapped,page_of_aligned base zero,write4,List.all_cons,List.all_nil]
    rfl
  · have outside : ¬ (0xFEE00000 ≤ addr.toNat ∧ addr.toNat < 0xFF000000) := by omega
    rw [one,if_neg (show ¬ addr.toNat < 2 ^ 30 by omega),if_neg outside]
    have entry : templEntry org 1 = shared_ro_page org + 7 := table_flags _
    have e2 : mem (lookUp (shared_ro_page org + 7) addr 21) = 0 := by
      rw [lookUp_eq,baseS]
      exact loaded.shared _ few
    simp only [entry,thereS,smallS,e2]
    rfl
  · rw [three,if_neg (show ¬ addr.toNat < 2 ^ 30 by omega)]
    have entry : templEntry org 3 = apic_page org + 7 := table_flags _
    have e2 : mem (lookUp (apic_page org + 7) addr 21) = apicEntry (addr.toNat / 2 ^ 21 % 512) := by
      rw [lookUp_eq,baseA]
      exact loaded.apic _ few
    simp only [entry,thereA,smallA,e2]
    by_cases registers : addr.toNat / 2 ^ 21 % 512 = 503
    · have inside : 0xFEE00000 ≤ addr.toNat ∧ addr.toNat < 0xFF000000 := by omega
      rw [registers,if_pos inside]
      rw [apicEntry_registers]
      have base : (tableBase 0xFEE00193).toNat = 0x7F7 * 2 ^ 21 := by rw [tableBase_toNat]; rfl
      have flags : present 0xFEE00193 = true ∧ large 0xFEE00193 = true ∧ writable 0xFEE00193 = true ∧
          user 0xFEE00193 = false ∧ uncached 0xFEE00193 = true := by decide
      simp only [flags,mapped,page_of_aligned base (show addr.toNat / 2 ^ 21 = 0x7F7 by omega),writeA,write4,List.all_cons,
        List.all_nil]
      rfl
    · have outside : ¬ (0xFEE00000 ≤ addr.toNat ∧ addr.toNat < 0xFF000000) := by omega
      rw [if_neg outside]
      have nothing : apicEntry (addr.toNat / 2 ^ 21 % 512) = 0 := if_neg registers
      rw [nothing]
      rfl
  · obtain ⟨nothing,notZero,notThree⟩ := other
    have outside : ¬ (0xFEE00000 ≤ addr.toNat ∧ addr.toNat < 0xFF000000) := by omega
    rw [nothing,if_neg (show ¬ addr.toNat < 2 ^ 30 by omega),if_neg outside]
    rfl

/-- From whichever vCPU, and for every address, the map at boot is the same. -/
theorem boot_address_space (placed : Placed org) (loaded : Loaded mem org) {id : Nat} (few : id < MAX_VCPUS) (addr : Word) :
    translate mem (resetCr3 org (BitVec.ofNat 32 id)) addr = bootMap addr := by
  unfold translate
  rw [p4_read placed loaded few]
  have lt := addr.isLt
  by_cases first : addr.toNat < 2 ^ 39
  · have valid : canonical addr = true := by
      simp only [canonical,Bool.or_eq_true,decide_eq_true_eq]
      omega
    rw [if_pos valid,if_pos (show addr.toNat / 2 ^ 39 % 512 = 0 by omega),table_flags]
    exact below_templ placed loaded first
  · have nothing : bootMap addr = none := by
      unfold bootMap
      rw [if_neg (by omega),if_neg (by omega)]
    rw [nothing]
    by_cases valid : canonical addr = true
    · simp only [canonical,Bool.or_eq_true,decide_eq_true_eq] at valid
      rw [if_pos (by simpa [canonical] using valid),if_neg (show ¬ addr.toNat / 2 ^ 39 % 512 = 0 by omega)]
      rfl
    · exact if_neg valid

theorem paging_entry (placed : Placed org) {k : Nat} (few : k < 34304) :
    (entryAt org k - org).toNat / 8 = k := by
  have room := placed.room
  unfold MAX_VCPUS at room
  unfold entryAt
  have offset : (org + BitVec.ofNat 64 (8 * k) - org).toNat = 8 * k := by
    rw [BitVec.add_comm,BitVec.add_sub_cancel,BitVec.toNat_ofNat,Nat.mod_eq_of_lt (by omega)]
  rw [offset]
  omega

theorem entryAt_add (org : Word) {d : Word} {n : Nat} (offset : d.toNat = 8 * n) (k : Nat) :
    entryAt (org + d) k = entryAt org (n + k) := by
  unfold entryAt
  rw [BitVec.add_assoc,Nat.mul_add,BitVec.ofNat_add,← offset,BitVec.ofNat_toNat,BitVec.setWidth_eq]

theorem paging_loaded (placed : Placed org) : Loaded (paging org) org := by
  constructor
  · intro k lt
    show paging org (entryAt org k) = _
    unfold paging
    simp only [paging_entry placed (k := k) (by omega)]
    rw [if_pos lt]
  · intro k lt
    have place : entryAt (shared_ro_page org) k = entryAt org (512 + k) := entryAt_add org rfl k
    rw [place,paging]
    simp only [paging_entry placed (k := 512 + k) (by omega)]
    rw [if_neg (by omega),if_pos (by omega),Nat.add_sub_cancel_left]
  · intro k lt
    have place : entryAt (templ_boot_p3 org) k = entryAt org (1024 + k) := entryAt_add org rfl k
    rw [place,paging]
    simp only [paging_entry placed (k := 1024 + k) (by omega)]
    rw [if_neg (by omega),if_neg (by omega),if_pos (by omega),Nat.add_sub_cancel_left]
  · intro k lt
    have place : entryAt (boot_p4 org) k = entryAt org (1536 + k) := entryAt_add org rfl k
    unfold MAX_VCPUS at lt
    rw [place,paging]
    simp only [paging_entry placed (k := 1536 + k) (by omega)]
    rw [if_neg (by omega),if_neg (by omega),if_neg (by omega),Nat.add_sub_cancel_left]

theorem placed_page : Placed 0x86000 := ⟨by decide,by decide⟩

/-- vCPU 3 finds the APIC where it is, and nothing at 1 GiB. -/
theorem boot_address_space_apic :
    translate (paging 0x86000) (resetCr3 0x86000 3) 0xFEE00300 = some ⟨0xFEE00300,true,false,true⟩ ∧
      translate (paging 0x86000) (resetCr3 0x86000 3) 0x40000000 = none := by
  have few : 3 < MAX_VCPUS := by decide
  exact ⟨(boot_address_space placed_page (paging_loaded placed_page) few _).trans (by decide),
    (boot_address_space placed_page (paging_loaded placed_page) few _).trans (by decide)⟩

/-! ### Functions -/

/-- The memory in which the first entries of the top levels are `pg_tbls`. -/
def withTables (org : Word) (pg_tbls : Nat → Word) (mem : Memory) : Memory := fun a =>
  let d := (a - boot_p4 org).toNat
  if d % 4096 = 0 ∧ d / 4096 < MAX_VCPUS then pg_tbls (d / 4096) else mem a

theorem top_offset {id : Nat} (few : id < MAX_VCPUS) :
    (entryAt (boot_p4 org) (512 * id) - boot_p4 org).toNat = 4096 * id := by
  unfold MAX_VCPUS at few
  unfold entryAt
  rw [BitVec.add_comm,BitVec.add_sub_cancel,BitVec.toNat_ofNat]
  omega

theorem withTables_top (pg_tbls : Nat → Word) {id : Nat} (few : id < MAX_VCPUS) :
    withTables org pg_tbls mem (entryAt (boot_p4 org) (512 * id)) = pg_tbls id := by
  unfold withTables
  simp only [top_offset few]
  rw [Nat.mul_mod_right,Nat.mul_div_cancel_left id (by omega),if_pos ⟨rfl,few⟩]

/-- Outside the first entries of the top levels the memory is as it was. -/
theorem withTables_out (pg_tbls : Nat → Word) {a : Word} (out : ∀ j < MAX_VCPUS, a ≠ entryAt (boot_p4 org) (512 * j)) :
    withTables org pg_tbls mem a = mem a := by
  unfold withTables
  rw [if_neg]
  rintro ⟨aligned,few⟩
  apply out _ few
  have place : a = boot_p4 org + (a - boot_p4 org) := by rw [BitVec.add_comm,BitVec.sub_add_cancel]
  unfold entryAt
  rw [show 8 * (512 * ((a - boot_p4 org).toNat / 4096)) = (a - boot_p4 org).toNat by omega,BitVec.ofNat_toNat,
    BitVec.setWidth_eq,← place]

/-- The tables of an entry are laid over no top level of a vCPU, as far as the walk for
    the address goes. -/
def Apart (org : Word) (mem : Memory) (e addr : Word) : Prop :=
  ∀ a ∈ reads mem e addr, ∀ j < MAX_VCPUS, a ≠ entryAt (boot_p4 org) (512 * j)

theorem translate_own (placed : Placed org) (pg_tbls : Nat → Word) {id : Nat} (few : id < MAX_VCPUS) {addr : Word}
    (low : addr.toNat < 2 ^ 39) (apart : Apart org mem (pg_tbls id) addr) :
    translate (withTables org pg_tbls mem) (resetCr3 org (BitVec.ofNat 32 id)) addr = below mem (pg_tbls id) addr := by
  have valid : canonical addr = true := by
    simp only [canonical,Bool.or_eq_true,decide_eq_true_eq]
    omega
  unfold translate
  rw [if_pos valid,lookUp_eq,tableBase_cr3 placed few,show addr.toNat / 2 ^ 39 % 512 = 0 by omega,entryAt_cr3 placed few,
    Nat.add_zero,withTables_top _ few]
  exact below_congr fun a member => withTables_out pg_tbls (apart a member)

end

/-- In user mode every address below 512 GiB means what the page table of the vCPU's own
    function says, whatever the others run. -/
theorem user_address_space {p : Nat} {host : Metadata → Prop} (supply : ∀ d, host d → Valid d) (most : p ≤ MAX_VCPUS)
    {org : Word} (placed : Placed org) (mem : Memory) {s : Config (Fin p) Shared Vcpu}
    (reach : Reach (pool p host) (fun s a => Supplied host s a ∧ FreshTot s a) s) {i : Fin p} {fn : Nat} {ctx : UserCtx}
    (user : (s.loc i).pc = .user fn ctx) {addr : Word} (low : addr.toNat < 2 ^ 39)
    (apart : Apart org mem ((s.shared.tasks.metadata.func_info fn).pt_addr ||| 7) addr) :
    translate (withTables org s.shared.book.pg_tbls mem) (resetCr3 org (BitVec.ofNat 32 i.val)) addr =
      below mem ((s.shared.tasks.metadata.func_info fn).pt_addr ||| 7) addr := by
  have copied := UserContext.copied_reach supply reach i
  rw [user] at copied
  have table : s.shared.book.pg_tbls i.val = (s.shared.tasks.metadata.func_info fn).pt_addr ||| 7 := copied.2
  rw [← table] at apart ⊢
  exact translate_own placed s.shared.book.pg_tbls (i.isLt.trans_le most) low apart

/-- Node 0 of the edge runs on vCPU 0, with an empty table at address 0. -/
theorem user_address_space_edge : ∃ (s : Config (Fin 2) Shared Vcpu) (ctx : UserCtx), (s.loc 0).pc = .user 0 ctx ∧
    translate (withTables 0x86000 s.shared.book.pg_tbls fun _ => 0) (resetCr3 0x86000 0) 0x80000000 = none := by
  have supply : ∀ d, d = edge → Valid d := fun _ same => same ▸ edge_valid
  let P : Config (Fin 2) Shared Vcpu → Bool := fun s =>
    (match (s.loc 0).pc with | .user fn _ => fn == 0 | _ => false) && (s.shared.tasks.metadata.func_info 0).pt_addr == 0
  have ran : (exec (pool 2 (· = edge)) (Sched.boot 2 edge) (schedule 2 [(0,53)])).any P = true := by decide +kernel
  have first : (pool 2 (· = edge)).init (Sched.boot 2 edge) := boot_init rfl
  obtain ⟨s,reach,holds⟩ := exec_exists first schedule_supplied ran
  have constant : ∀ d, d = edge → d.num_nodes = 2 := fun _ same => by rw [same]; rfl
  obtain ⟨user,empty⟩ := Bool.and_eq_true_iff.mp holds
  have table : (s.shared.tasks.metadata.func_info 0).pt_addr = 0 := by simpa using empty
  cases pc : (s.loc 0).pc with
  | user fn ctx =>
    have zero : fn = 0 := by simpa [pc] using user
    subst zero
    have apart : Apart 0x86000 (fun _ => 0) ((s.shared.tasks.metadata.func_info 0).pt_addr ||| 7) 0x80000000 := by
      have small : ∀ a ∈ reads (fun _ => 0) (0 ||| 7) 0x80000000, a.toNat < 4096 := by
        intro a member
        simp only [reads,List.mem_cons,List.not_mem_nil,or_false] at member
        rcases member with rfl | rfl | rfl
        · exact lookUp_low (by decide) _ _
        · exact lookUp_low (by decide) _ _
        · exact lookUp_low (by decide) _ _
      rw [table]
      intro a member j few same
      have lt := small a member
      have top : (boot_p4 0x86000).toNat = 0x89000 := by decide
      unfold MAX_VCPUS at few
      rw [same,entryAt,BitVec.toNat_add,top,BitVec.toNat_ofNat] at lt
      omega
    have seen := user_address_space supply (by decide) placed_page (fun _ => 0)
      (fresh_of_constant supply constant reach).1 pc (by decide) apart
    refine ⟨s,ctx,pc,seen.trans ?_⟩
    rw [table]
    decide
  | _ => simp [pc] at user

end Bootcode.Paging
