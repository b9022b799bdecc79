import Bootcode.Flow
import Mathlib.Logic.Function.Basic
import Mathlib.Logic.Relation
import Mathlib.Data.BitVec

/-!
A part of the x86-64 instruction set over a memory of bytes: straight-line
operations, jumps and calls. Code is a list of instructions for each label; a
callee is whatever it does to the machine from its entry to its return. The
rules at the end are those of a stack: what pushes leave alone, and that pops
give back what pushes saved.
-/
namespace Bootcode.X86

abbrev Word := BitVec 64
abbrev Memory := Word → BitVec 8

/-- The little-endian value of `n` bytes. -/
def load (m : Memory) (a : Word) : (n : Nat) → BitVec (8 * n)
  | 0 => 0#0
  | n + 1 => load m (a + 1) n ++ m a
def store {n : Nat} (m : Memory) (a : Word) (v : BitVec (8 * n)) : Memory :=
  fun x => if (x - a).toNat < n then v.extractLsb' (8 * (x - a).toNat) 8 else m x

/-- The byte at `a` is one of the `n` from `lo` on, modulo the address space. -/
def Within (a lo : Word) (n : Nat) : Prop := (a - lo).toNat < n

instance (a lo : Word) (n : Nat) : Decidable (Within a lo n) := inferInstanceAs (Decidable (_ < _))

theorem store_of_not_within {n : Nat} {m : Memory} {a x : Word} (v : BitVec (8 * n)) (out : ¬ Within x a n) :
    store m a v x = m x := if_neg out

theorem getLsbD_load (m : Memory) (a : Word) (n i : Nat) :
    (load m a n).getLsbD i = (decide (i < 8 * n) && (m (a + BitVec.ofNat 64 (i / 8))).getLsbD (i % 8)) := by
  induction n generalizing a i with
  | zero => simp [load]
  | succ n ih =>
    have joined : (load m a (n + 1)).getLsbD i = if i < 8 then (m a).getLsbD i else (load m (a + 1) n).getLsbD (i - 8) :=
      BitVec.getLsbD_append
    rw [joined]
    split
    · rename_i low
      rw [Nat.div_eq_of_lt low,Nat.mod_eq_of_lt low]
      simp
      omega
    · rename_i high
      obtain ⟨j,rfl⟩ : ∃ j, i = j + 8 := ⟨i - 8,by omega⟩
      have next : a + 1 + BitVec.ofNat 64 (j / 8) = a + BitVec.ofNat 64 ((j + 8) / 8) := by
        rw [show (j + 8) / 8 = 1 + j / 8 by omega,BitVec.ofNat_add,BitVec.add_assoc]
        rfl
      have bound : decide (j < 8 * n) = decide (j + 8 < 8 * (n + 1)) := decide_eq_decide.mpr (by omega)
      rw [Nat.add_sub_cancel,ih,next,bound,Nat.add_mod_right]

theorem within_add (a : Word) {k n : Nat} (lt : k < n) (small : n ≤ 2 ^ 64) :
    (a + BitVec.ofNat 64 k - a).toNat = k ∧ Within (a + BitVec.ofNat 64 k) a n := by
  have offset : (a + BitVec.ofNat 64 k - a).toNat = k := by
    rw [BitVec.add_comm,BitVec.add_sub_cancel,BitVec.toNat_ofNat,Nat.mod_eq_of_lt (by omega)]
  exact ⟨offset,by unfold Within; omega⟩

/-- A load sees only its own bytes. -/
theorem load_congr {m m' : Memory} {a : Word} {n : Nat} (same : ∀ x, Within x a n → m' x = m x) (small : n ≤ 2 ^ 64) :
    load m' a n = load m a n := by
  apply BitVec.eq_of_getLsbD_eq
  intro i inside
  rw [getLsbD_load,getLsbD_load,same _ (within_add a (by omega) small).2]

@[simp] theorem load_store_same {n : Nat} (m : Memory) (a : Word) (v : BitVec (8 * n)) (small : n ≤ 2 ^ 64) :
    load (store m a v) a n = v := by
  apply BitVec.eq_of_getLsbD_eq
  intro i inside
  have offset := (within_add a (k := i / 8) (n := n) (by omega) small).1
  have byte : store m a v (a + BitVec.ofNat 64 (i / 8)) = v.extractLsb' (8 * (i / 8)) 8 := by
    rw [store,offset,if_pos (by omega)]
  rw [getLsbD_load,byte,BitVec.getLsbD_extractLsb',show 8 * (i / 8) + i % 8 = i by omega]
  simp [inside]
  omega

theorem load_store_apart {k n : Nat} {m : Memory} {a b : Word} {v : BitVec (8 * k)}
    (apart : ∀ x, Within x b n → ¬ Within x a k) (small : n ≤ 2 ^ 64) : load (store m a v) b n = load m b n :=
  load_congr (fun x inside => store_of_not_within v (apart x inside)) small

theorem within_offset {a x : Word} {k n : Nat} (small : k + n ≤ 2 ^ 64) :
    Within x (a + BitVec.ofNat 64 k) n ↔ k ≤ (x - a).toNat ∧ (x - a).toNat < k + n := by
  unfold Within
  constructor
  · intro lt
    bv_omega
  · rintro ⟨low,high⟩
    bv_omega

/-- A load determines its bytes. -/
theorem byte_of_load {m m' : Memory} {a x : Word} {n : Nat} (inside : Within x a n) (same : load m a n = load m' a n) :
    m x = m' x := by
  apply BitVec.eq_of_getLsbD_eq
  intro b lt
  have bit := congrArg (·.getLsbD (8 * (x - a).toNat + b)) same
  have place : a + BitVec.ofNat 64 ((8 * (x - a).toNat + b) / 8) = x := by
    rw [show (8 * (x - a).toNat + b) / 8 = (x - a).toNat by omega,BitVec.ofNat_toNat,BitVec.setWidth_eq]
    bv_omega
  have fits : 8 * (x - a).toNat + b < 8 * n := by
    unfold Within at inside
    omega
  simp only [getLsbD_load,place,decide_eq_true fits,Bool.true_and] at bit
  rwa [show (8 * (x - a).toNat + b) % 8 = b by omega] at bit

/-- An OR into `n` bytes, seen from `k` bytes around them. -/
theorem load_store_or (m : Memory) (a : Word) {d n k : Nat} (v : BitVec (8 * n)) (inside : d + n ≤ k) (small : k ≤ 2 ^ 64) :
    load (store m (a + BitVec.ofNat 64 d) (load m (a + BitVec.ofNat 64 d) n ||| v)) a k =
    load m a k ||| v.setWidth (8 * k) <<< (8 * d) := by
  apply BitVec.eq_of_getLsbD_eq
  intro i lt
  have byte : (a + BitVec.ofNat 64 (i / 8) - a).toNat = i / 8 := (within_add a (n := k) (by omega) small).1
  have window := within_offset (a := a) (x := a + BitVec.ofNat 64 (i / 8)) (k := d) (n := n) (by omega)
  rw [Within,byte] at window
  rw [getLsbD_load,BitVec.getLsbD_or,getLsbD_load,BitVec.getLsbD_shiftLeft,BitVec.getLsbD_setWidth,decide_eq_true lt,store]
  by_cases hit : d ≤ i / 8 ∧ i / 8 < d + n
  · have place : (a + BitVec.ofNat 64 (i / 8) - (a + BitVec.ofNat 64 d)).toNat = i / 8 - d := by bv_omega
    have bit : 8 * (i / 8 - d) + i % 8 = i - 8 * d := by omega
    have same : a + BitVec.ofNat 64 d + BitVec.ofNat 64 ((i - 8 * d) / 8) = a + BitVec.ofNat 64 (i / 8) := by
      rw [BitVec.add_assoc,← BitVec.ofNat_add,show d + (i - 8 * d) / 8 = i / 8 by omega]
    have fits : ¬ i < 8 * d ∧ i - 8 * d < 8 * n ∧ i - 8 * d < 8 * k ∧ i % 8 < 8 ∧ (i - 8 * d) % 8 = i % 8 := by omega
    rw [if_pos (window.mpr hit),place,BitVec.getLsbD_extractLsb',bit,BitVec.getLsbD_or,getLsbD_load,same]
    simp [fits]
  · have out : i < 8 * d ∨ 8 * n ≤ i - 8 * d := by omega
    have none : (!decide (i < 8 * d) && (decide (i - 8 * d < 8 * k) && v.getLsbD (i - 8 * d))) = false := by
      rcases out with low | high
      · simp [low]
      · simp [BitVec.getLsbD_of_ge v _ high]
    rw [if_neg fun is => hit (window.mp is)]
    simp only [Bool.true_and,none,Bool.or_false]

/-- An address is in one page only. -/
theorem page_unique {page page' x : Word} (aligned : page.toNat % 4096 = 0) (aligned' : page'.toNat % 4096 = 0)
    (inside : Within x page 4096) (inside' : Within x page' 4096) : page' = page := by
  apply BitVec.eq_of_toNat_eq
  unfold Within at inside inside'
  bv_omega

/-- The last word of the page that an address is in, by shifts. -/
theorem last_of_page {page a : Word} (aligned : page.toNat % 4096 = 0) (inside : Within a page 4096) :
    ((a >>> 12 + 1) <<< 12 : Word) + -8 = page + 4088 := by
  have offset : a.toNat = page.toNat + (a - page).toNat := by
    unfold Within at inside
    bv_omega
  have frame : (a >>> 12).toNat = page.toNat / 4096 := by
    unfold Within at inside
    rw [BitVec.toNat_ushiftRight,Nat.shiftRight_eq_div_pow,offset]
    omega
  have next : ((a >>> 12 + 1) <<< 12 : Word) = page + 4096 := by
    apply BitVec.eq_of_toNat_eq
    rw [BitVec.toNat_shiftLeft,BitVec.toNat_add,frame,Nat.shiftLeft_eq,BitVec.toNat_add]
    have one : (1 : Word).toNat = 1 := rfl
    have size : (4096 : Word).toNat = 4096 := rfl
    rw [one,size]
    omega
  rw [next]
  bv_omega

/-! ### Instructions -/

inductive Reg
  | rax | rbx | rcx | rdx | rsi | rdi | rbp | rsp | r8 | r9 | r10 | r11 | r12 | r13 | r14 | r15
  deriving DecidableEq

/-- The registers, the zero flag and the interrupt flag, and the memory. -/
structure State where
  regs : Reg → Word
  zf : Bool
  intr : Bool
  mem : Memory

namespace State
def set (s : State) (r : Reg) (v : Word) : State := { s with regs := Function.update s.regs r v }
def write (s : State) (a v : Word) : State := { s with mem := store (n := 8) s.mem a v }
def read (s : State) (a : Word) : Word := load s.mem a 8
def setZf (s : State) (b : Bool) : State := { s with zf := b }
def setIntr (s : State) (b : Bool) : State := { s with intr := b }

@[simp] theorem set_regs (s : State) (r : Reg) (v : Word) : (s.set r v).regs r = v := by simp [set]
theorem set_regs_ne (s : State) {r r' : Reg} (v : Word) (other : r' ≠ r) : (s.set r v).regs r' = s.regs r' := by
  simp [set,other]
@[simp] theorem set_mem (s : State) (r : Reg) (v : Word) : (s.set r v).mem = s.mem := rfl
@[simp] theorem write_regs (s : State) (a v : Word) : (s.write a v).regs = s.regs := rfl
@[simp] theorem read_write (s : State) (a v : Word) :
    (s.write a v).read a = v := load_store_same (n := 8) s.mem a v (by omega)
@[simp] theorem setZf_regs (s : State) (b : Bool) : (s.setZf b).regs = s.regs := rfl
@[simp] theorem setZf_mem (s : State) (b : Bool) : (s.setZf b).mem = s.mem := rfl
@[simp] theorem setZf_zf (s : State) (b : Bool) : (s.setZf b).zf = b := rfl
@[simp] theorem setIntr_regs (s : State) (b : Bool) : (s.setIntr b).regs = s.regs := rfl
@[simp] theorem setIntr_mem (s : State) (b : Bool) : (s.setIntr b).mem = s.mem := rfl
@[simp] theorem read_set (s : State) (r : Reg) (v a : Word) : (s.set r v).read a = s.read a := rfl
theorem set_regs_eq (s : State) (r r' : Reg) (v : Word) : (s.set r v).regs r' = if r' = r then v else s.regs r' := by
  by_cases same : r' = r
  · simp [same]
  · simp [same,set_regs_ne]

theorem write_mem (s : State) {a x : Word} (v : Word) (out : ¬ Within x a 8) : (s.write a v).mem x = s.mem x :=
  if_neg out
theorem read_congr {s t : State} {a : Word} (kept : ∀ x, Within x a 8 → t.mem x = s.mem x) : t.read a = s.read a :=
  load_congr kept (by omega)
theorem read_write_apart (s : State) {a b : Word} (v : Word) (apart : 8 ≤ (b - a).toNat ∧ 8 ≤ (a - b).toNat) :
    (s.write a v).read b = s.read b := by
  refine read_congr fun x inside => s.write_mem v ?_
  unfold Within at *
  bv_omega
end State

/-- `disp(base,index)`. -/
structure Addr where
  disp : Word
  base : Reg
  index : Option Reg := none

def Addr.ea (a : Addr) (regs : Reg → Word) : Word := a.disp + regs a.base + (a.index.map regs).getD 0

inductive Op
  | cli
  | nop
  | pushq (r : Reg)
  | popq (r : Reg)
  | movImm (imm : Word) (r : Reg)
  | movLoad (a : Addr) (r : Reg)
  | movImmStore (imm : Word) (a : Addr)
  | xchgq (r : Reg) (a : Addr)
  | leaq (a : Addr) (r : Reg)
  | addImm (imm : Word) (r : Reg)
  | cmpbImm (imm : BitVec 8) (a : Addr)

def Op.exec (s : State) : Op → State
  | .cli => s.setIntr false
  | .nop => s
  | .pushq r => (s.write (s.regs .rsp - 8) (s.regs r)).set .rsp (s.regs .rsp - 8)
  | .popq r => (s.set .rsp (s.regs .rsp + 8)).set r (s.read (s.regs .rsp))
  | .movImm imm r => s.set r imm
  | .movLoad a r => s.set r (s.read (a.ea s.regs))
  | .movImmStore imm a => s.write (a.ea s.regs) imm
  | .xchgq r a => (s.write (a.ea s.regs) (s.regs r)).set r (s.read (a.ea s.regs))
  | .leaq a r => s.set r (a.ea s.regs)
  | .addImm imm r => (s.set r (s.regs r + imm)).setZf (s.regs r + imm = 0)
  | .cmpbImm imm a => s.setZf (s.mem (a.ea s.regs) = imm)

def execs (ops : List Op) (s : State) : State := ops.foldl Op.exec s

@[simp] theorem execs_cons (o : Op) (ops : List Op) (s : State) : execs (o :: ops) s = execs ops (o.exec s) := rfl
@[simp] theorem execs_nil (s : State) : execs [] s = s := rfl

/-- `ra` is the address of the instruction after the call. -/
inductive Instr (L : Type)
  | op (o : Op)
  | jmp (l : L)
  | je (l : L)
  | call (l : L) (ra : Word)
  | iretq

/-- The instructions from the current one on, and the machine. -/
structure Cpu (L : Type) where
  todo : List (Instr L)
  state : State

section
variable {L : Type} (code : L → List (Instr L)) (callee : L → State → State)

def pushReturn (s : State) (ra : Word) : State := (s.write (s.regs .rsp - 8) ra).set .rsp (s.regs .rsp - 8)

/-- One instruction; a call runs its callee to the return, and `iretq` leaves. -/
def step : Cpu L → Option (Cpu L)
  | ⟨.op o :: rest,s⟩ => some ⟨rest,o.exec s⟩
  | ⟨.jmp l :: _,s⟩ => some ⟨code l,s⟩
  | ⟨.je l :: rest,s⟩ => some ⟨if s.zf then code l else rest,s⟩
  | ⟨.call l ra :: rest,s⟩ => some ⟨rest,callee l (pushReturn s ra)⟩
  | ⟨.iretq :: _,_⟩ => none
  | ⟨[],_⟩ => none

def Steps : Cpu L → Cpu L → Prop := Relation.ReflTransGen fun c c' => step code callee c = some c'

variable {code callee}

/-- The block rule: straight-line code runs to its end. -/
theorem steps_block (ops : List Op) (rest : List (Instr L)) (s : State) :
    Steps code callee ⟨ops.map .op ++ rest,s⟩ ⟨rest,execs ops s⟩ := by
  induction ops generalizing s with
  | nil => exact .refl
  | cons o ops ih => exact .head rfl (ih (o.exec s))

/-- Execution is deterministic: a run that has stopped is the end of every other. -/
theorem Steps.stop {c d e : Cpu L} (run : Steps code callee c d) (stopped : step code callee d = none)
    (other : Steps code callee c e) : Steps code callee e d := Flow.stop run stopped other

end

/-! ### The stack -/

theorem sub_ofNat (a : Word) {i j k : Nat} (sum : i + j = k) :
    a - BitVec.ofNat 64 i - BitVec.ofNat 64 j = a - BitVec.ofNat 64 k := by
  rw [sub_sub,← BitVec.ofNat_add,sum]
theorem toNat_sub_below {x lo : Word} {k : Nat} (small : (x - lo).toNat + k < 2 ^ 64) :
    (x - (lo - BitVec.ofNat 64 k)).toNat = (x - lo).toNat + k := by
  rw [sub_sub_eq_add_sub,← sub_add_eq_add_sub,BitVec.toNat_add,BitVec.toNat_ofNat,
    Nat.mod_eq_of_lt (by omega : k < 2 ^ 64),Nat.mod_eq_of_lt small]

/-- A region and the one right below it make one region. -/
theorem within_below {x top : Word} {k n : Nat} (small : k + n ≤ 2 ^ 64) (inside : Within x top n) :
    Within x (top - BitVec.ofNat 64 k) (k + n) ∧ ¬ Within x (top - BitVec.ofNat 64 k) k := by
  unfold Within at *
  rw [toNat_sub_below (by omega)]
  omega

theorem Within.mono {x lo : Word} {k n : Nat} (inside : Within x lo k) (le : k ≤ n) : Within x lo n :=
  Nat.lt_of_lt_of_le inside le

def save (rs : List Reg) : List Op := rs.map .pushq
def restore (rs : List Reg) : List Op := rs.reverse.map .popq

theorem push_exec (s : State) (r : Reg) :
    ((Op.pushq r).exec s).regs .rsp = s.regs .rsp - 8 ∧ (∀ r' ≠ .rsp, ((Op.pushq r).exec s).regs r' = s.regs r') ∧
      ((Op.pushq r).exec s).read (s.regs .rsp - 8) = s.regs r ∧
      ∀ x, ¬ Within x (s.regs .rsp - 8) 8 → ((Op.pushq r).exec s).mem x = s.mem x :=
  ⟨State.set_regs _ _ _,fun _ other => State.set_regs_ne _ _ other,State.read_write s _ _,
    fun _ out => store_of_not_within _ out⟩

theorem pop_exec (s : State) {r : Reg} (away : r ≠ .rsp) :
    ((Op.popq r).exec s).regs .rsp = s.regs .rsp + 8 ∧ ((Op.popq r).exec s).regs r = s.read (s.regs .rsp) ∧
      (∀ r' ≠ r, r' ≠ .rsp → ((Op.popq r).exec s).regs r' = s.regs r') ∧ ((Op.popq r).exec s).mem = s.mem := by
  simp only [Op.exec]
  refine ⟨?_,State.set_regs _ _ _,?_,rfl⟩
  · rw [State.set_regs_ne _ _ away.symm,State.set_regs]
  · intro r' other plain
    rw [State.set_regs_ne _ _ other,State.set_regs_ne _ _ plain]

/-- Pushes move `rsp` down and write only between its new and its old value. -/
theorem save_exec (rs : List Reg) (s : State) (small : 8 * rs.length ≤ 2 ^ 64) :
    (execs (save rs) s).regs .rsp = s.regs .rsp - BitVec.ofNat 64 (8 * rs.length) ∧
      (∀ r ≠ .rsp, (execs (save rs) s).regs r = s.regs r) ∧
      ∀ x, ¬ Within x (s.regs .rsp - BitVec.ofNat 64 (8 * rs.length)) (8 * rs.length) →
      (execs (save rs) s).mem x = s.mem x := by
  induction rs generalizing s with
  | nil => exact ⟨by simp [save,execs],fun _ _ => rfl,fun _ _ => rfl⟩
  | cons r rs ih =>
    rw [List.length_cons] at small
    obtain ⟨rsp,regs,-,mem⟩ := push_exec s r
    obtain ⟨rsp',regs',mem'⟩ := ih ((Op.pushq r).exec s) (by omega)
    have lower : s.regs .rsp - BitVec.ofNat 64 (8 * (r :: rs).length) = s.regs .rsp - 8 - BitVec.ofNat 64 (8 * rs.length) :=
      (sub_ofNat _ (i := 8) (by rw [List.length_cons]; omega)).symm
    rw [rsp] at rsp' mem'
    rw [lower]
    refine ⟨rsp',fun r' other => (regs' r' other).trans (regs r' other),?_⟩
    intro x out
    rw [List.length_cons,Nat.mul_succ] at out
    refine (mem' x fun inside => out (inside.mono (by omega))).trans (mem x fun inside => out ?_)
    exact (within_below (by omega) inside).1

theorem restore_zf (rs : List Reg) (s : State) : (execs (restore rs) s).zf = s.zf := by
  have pops : ∀ (l : List Reg) s, (execs (l.map .popq) s).zf = s.zf := by
    intro l
    induction l with
    | nil => exact fun _ => rfl
    | cons r l ih => exact fun s => ih ((Op.popq r).exec s)
  exact pops rs.reverse s

/-- Pops give back what pushes saved, whatever happened in between below the
    saved words and to the registers. -/
theorem restore_save (rs : List Reg) (s t : State) (away : .rsp ∉ rs) (small : 8 * rs.length ≤ 2 ^ 64)
    (rsp : t.regs .rsp = (execs (save rs) s).regs .rsp)
    (kept : ∀ x, Within x ((execs (save rs) s).regs .rsp) (8 * rs.length) → t.mem x = (execs (save rs) s).mem x) :
    (execs (restore rs) t).regs .rsp = s.regs .rsp ∧ (∀ r ∈ rs, (execs (restore rs) t).regs r = s.regs r) ∧
      (∀ r ∉ rs, r ≠ .rsp → (execs (restore rs) t).regs r = t.regs r) ∧ (execs (restore rs) t).mem = t.mem := by
  induction rs generalizing s with
  | nil => exact ⟨rsp,(by simp),fun _ _ _ => rfl,rfl⟩
  | cons r rs ih =>
    rw [List.length_cons] at small kept
    simp only [List.mem_cons,not_or] at away
    obtain ⟨rsp1,regs1,saved,-⟩ := push_exec s r
    obtain ⟨rsp2,-,mem2⟩ := save_exec rs ((Op.pushq r).exec s) (by omega)
    have bottom : (execs (save (r :: rs)) s).regs .rsp = s.regs .rsp - 8 - BitVec.ofNat 64 (8 * rs.length) := by
      rw [← rsp1]
      exact rsp2
    rw [rsp1] at rsp2 mem2
    obtain ⟨rsp3,back,others,mem3⟩ := ih ((Op.pushq r).exec s) away.2 (by omega) (rsp.trans rfl) fun x inside =>
      kept x (inside.mono (by omega))
    rw [rsp1] at rsp3
    -- The word of `r` lies above what the later pushes wrote.
    have word : t.read (s.regs .rsp - 8) = s.regs r := by
      rw [← saved]
      refine State.read_congr fun x inside => ?_
      have region := within_below (k := 8 * rs.length) (by omega) inside
      refine (kept x (bottom ▸ region.1)).trans (mem2 x region.2)
    have last : execs (restore (r :: rs)) t = (Op.popq r).exec (execs (restore rs) t) := by
      simp [restore,execs]
    have popped : (execs (restore rs) t).read (s.regs .rsp - 8) = s.regs r := by
      rw [← word]
      exact State.read_congr fun x _ => by rw [mem3]
    obtain ⟨rsp4,value,rest,mem4⟩ := pop_exec (execs (restore rs) t) (r := r) (Ne.symm away.1)
    rw [rsp3] at rsp4 value
    rw [last]
    refine ⟨?_,?_,?_,mem4.trans mem3⟩
    · rw [rsp4,BitVec.sub_add_cancel]
    · intro r' member
      by_cases same : r' = r
      · rw [same,value,popped]
      · have later : r' ∈ rs := (List.mem_cons.mp member).resolve_left same
        have plain : r' ≠ .rsp := fun is => away.2 (is ▸ later)
        rw [rest r' same plain,back r' later]
        exact regs1 r' plain
    · intro r' out plain
      simp only [List.mem_cons,not_or] at out
      rw [rest r' out.1 plain]
      exact others r' out.2 plain

end Bootcode.X86
