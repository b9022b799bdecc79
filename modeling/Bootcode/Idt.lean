import Bootcode.Flow
import Bootcode.Interrupt

/-!
The loop of `fill_idt` in `boot.S`: it ORs the address of each trampoline into the
gate of its vector. After it every gate decodes to its trampoline and is otherwise
as the template has it, and a second call changes nothing.
-/
namespace Bootcode.Idt
open Bootcode.X86 hiding step Steps
open Bootcode.Flow

def PRESENT : Nat := 1
def RING0 : Nat := 0
def RING3 : Nat := 3
def INTERRUPT_GATE : Nat := 0xe
def EXCEPTION_GATE : Nat := 0xf
def IST : Nat := 0x0
def NULL_DESC_64 : Nat := 0
def CODE_DESC_64 : Nat := 8

/-- A macro for a gate: four `.long`, the lowest one first. -/
def gate_64 (ring type offset : Nat) : BitVec 128 :=
  let long0 := offset &&& 0xFFFF ||| (CODE_DESC_64 - NULL_DESC_64) <<< 16
  let long1 := (offset &&& 0xFFFF0000) <<< 16 ||| PRESENT <<< 15 ||| ring <<< 13 ||| type <<< 8 ||| IST <<< 0
  let long2 := offset &&& 0xffffffff <<< 32
  BitVec.ofNat 32 0 ++ BitVec.ofNat 32 long2 ++ BitVec.ofNat 32 long1 ++ BitVec.ofNat 32 long0

def EXPT_GATE_64 (offset : Nat) : BitVec 128 := gate_64 RING0 EXCEPTION_GATE offset
def R3_INT_GATE_64 (offset : Nat) : BitVec 128 := gate_64 RING3 INTERRUPT_GATE offset

/-- `.rept 20` and `.rept 236`. -/
def template (i : Nat) : BitVec 128 := if i < 20 then EXPT_GATE_64 0 else R3_INT_GATE_64 0

/-- The place of gate `i`. -/
def gate (idt : Word) (i : Nat) : Word := idt + BitVec.ofNat 64 (16 * i)

/-- The memory has the template at `idt`. -/
def Initial (idt : Word) (mem : Memory) : Prop := ∀ i < 256, load mem (gate idt i) 16 = template i

abbrev Entry := List (Instr Interrupt.Label)

/-- The bytes that an instruction of a trampoline takes. -/
def size : Instr Interrupt.Label → Nat
  | .op (.pushq _) => 1
  | .op (.movImm _ _) => 7
  | .op (.xchgq _ _) => 4
  | .jmp _ => 5
  | _ => 0

def entry (int_num : Nat) : Entry := (Interrupt.IDT_TABLE_64 int_num).map .op ++ [.jmp .int_expt_handler_64]

/-- The macro from `start` to `start + more`. -/
def IDT_TABLE_64 (start : Nat) : (more : Nat) → List Entry
  | 0 => [entry start]
  | more + 1 => entry start :: IDT_TABLE_64 (start + 1) more

def int_expt_trampoline : List Entry := IDT_TABLE_64 0 (100 - 0) ++ IDT_TABLE_64 101 (201 - 101) ++
    IDT_TABLE_64 202 (255 - 202)

/-- The address of entry `i` when the first one is at `T`. -/
def trampoline (T : Word) (i : Nat) : Word := T + BitVec.ofNat 64 ((int_expt_trampoline.take i).flatten.map size).sum

theorem table_eq (start more : Nat) : IDT_TABLE_64 start more = (List.range' start (more + 1)).map entry := by
  induction more generalizing start with
  | zero => rw [IDT_TABLE_64,List.range'_one,List.map_singleton]
  | succ more ih => rw [IDT_TABLE_64,ih,← List.map_cons,← List.range'_succ]

theorem trampoline_eq : int_expt_trampoline = (List.range 256).map entry := by
  have joined : List.range' 0 101 ++ List.range' 101 101 ++ List.range' 202 54 = List.range 256 := by
    rw [List.range'_append_1,List.range'_append_1,List.range_eq_range']
  rw [int_expt_trampoline,table_eq,table_eq,table_eq,← List.map_append,← List.map_append,← joined]

theorem size_entries (is : List Nat) : (((is.map entry).flatten).map size).sum = 17 * is.length := by
  induction is with
  | nil => rfl
  | cons i is ih =>
    have one : ((entry i).map size).sum = 17 := rfl
    rw [List.map_cons,List.flatten_cons,List.map_append,List.sum_append,ih,one,List.length_cons]
    omega

/-- Entry `i` is the trampoline of vector `i`, 17 bytes after the one before. -/
theorem trampoline_at (T : Word) {i : Nat} (lt : i < 256) :
    int_expt_trampoline[i]? = some (entry i) ∧ trampoline T i = T + BitVec.ofNat 64 (17 * i) := by
  constructor
  · simp [trampoline_eq,lt]
  · rw [trampoline,trampoline_eq,← List.map_take,size_entries]
    simp [Nat.min_eq_left lt.le]

section
variable (r : Reg)

def alu (f : Word → Word) (s : State) : State := (s.set r (f (s.regs r))).setZf (f (s.regs r) = 0)
/-- On the lower half; the upper half becomes zero. -/
def alul (f : BitVec 32 → BitVec 32) (s : State) : State :=
  let v := f ((s.regs r).setWidth 32)
  (s.set r (v.setWidth 64)).setZf (v = 0)
/-- A value is ORed into the memory at `(%r)`. -/
def orMem (n : Nat) (v : State → BitVec (8 * n)) (s : State) : State :=
  let w := load s.mem (s.regs r) n ||| v s
  { s with mem := store s.mem (s.regs r) w, zf := w = 0 }

def addq (k : Word) : State → State := alu r (· + k)
def subq (k : Word) : State → State := alu r (· - k)
def shlq (k : Nat) : State → State := alu r (· <<< k)
def shrq (k : Nat) : State → State := alu r (· >>> k)
def addl (k : BitVec 32) : State → State := alul r (· + k)
def shll (k : Nat) : State → State := alul r (· <<< k)
def shrl (k : Nat) : State → State := alul r (· >>> k)
def cmpq (k : Word) (s : State) : State := s.setZf (s.regs r = k)
end

def movq (src dst : Reg) (s : State) : State := s.set dst (s.regs src)
def movl (src dst : Reg) (s : State) : State := s.set dst (((s.regs src).setWidth 32).setWidth 64)
def orl (src base : Reg) : State → State := orMem base 4 fun s => (s.regs src).setWidth 32
def orq (src base : Reg) : State → State := orMem base 8 fun s => s.regs src
def op (o : Op) (s : State) : State := o.exec s

inductive Label
  | loop1
  | halt1

abbrev Code := List (Line Label State)

/-- A round of `.loop1` after its test. -/
def round : List (State → State) :=
  [movl .rcx .rdx,shll .rdx 16,shrl .rdx 16,orl .rdx .rbx,addq .rbx 4,
   movq .rcx .rdx,shrq .rdx 16,shlq .rdx 16,orq .rdx .rbx,
   addl .rax 1,addq .rbx 12,addq .rcx 17]
def loop1 : Code := .op (cmpq .rax 256) :: .jcc State.zf .halt1 :: (round.map .op ++ [.jmp .loop1])
def halt1 : Code := [movq .rbp .rsp,op (.popq .rbp)].map .op ++ [.ret]

def code : Label → Code
  | .loop1 => loop1
  | .halt1 => halt1

/-- The frame and the registers of the loop. -/
def prologue (idt int_expt_trampoline : Word) : List (State → State) :=
  [op (.pushq .rbp),movq .rsp .rbp,subq .rsp 24,op (.movImm 0 .rax),op (.movImm idt .rbx),
    op (.movImm int_expt_trampoline .rcx)]

/-- The code of `fill_idt` with the addresses that the linker puts in. -/
def fill_idt (idt int_expt_trampoline : Word) : Code := (prologue idt int_expt_trampoline).map .op ++ loop1

/-! ### What is promised -/

structure Gate where
  offset : Word
  selector : BitVec 16
  ist : BitVec 3
  type : BitVec 4
  system : BitVec 1
  dpl : BitVec 2
  present : BitVec 1
  reserved : BitVec 32
  deriving DecidableEq

/-- The 64-bit format of a gate. -/
def decode (g : BitVec 128) : Gate where
  offset := g.extractLsb' 64 32 ++ g.extractLsb' 48 16 ++ g.extractLsb' 0 16
  selector := g.extractLsb' 16 16
  ist := g.extractLsb' 32 3
  type := g.extractLsb' 40 4
  system := g.extractLsb' 44 1
  dpl := g.extractLsb' 45 2
  present := g.extractLsb' 47 1
  reserved := g.extractLsb' 96 32

/-- The gate of vector `i`. -/
def filled (T : Word) (i : Nat) : Gate where
  offset := T + BitVec.ofNat 64 (17 * i)
  selector := 8
  ist := 0
  type := if i < 20 then 0xf else 0xe
  system := 0
  dpl := if i < 20 then 0 else 3
  present := 1
  reserved := 0

/-- What a round ORs into its gate, as one number. -/
def pieces (t : Word) : BitVec 128 :=
  ((t.setWidth 32 <<< 16) >>> 16).setWidth 128 ||| ((t >>> 16) <<< 16).setWidth 128 <<< 32

theorem getLsbD_pieces (t : Word) (i : Nat) :
    (pieces t).getLsbD i = if i < 16 then t.getLsbD i else if 48 ≤ i ∧ i < 96 then t.getLsbD (i - 32) else false := by
  unfold pieces
  rw [BitVec.getLsbD_or,BitVec.getLsbD_setWidth,BitVec.getLsbD_ushiftRight,BitVec.getLsbD_shiftLeft,BitVec.getLsbD_setWidth,
    BitVec.getLsbD_shiftLeft,BitVec.getLsbD_setWidth,BitVec.getLsbD_shiftLeft,BitVec.getLsbD_ushiftRight]
  by_cases low : i < 16
  · have fits : 16 + i < 32 ∧ i < 128 ∧ i < 32 := by omega
    simp [low,fits]
  · by_cases high : 48 ≤ i ∧ i < 96
    · have back : 16 + (i - 32 - 16) = i - 32 := by omega
      have fits : ¬ 16 + i < 32 ∧ i < 128 ∧ ¬ i < 32 ∧ i - 32 < 128 ∧ i - 32 < 64 ∧ ¬ i - 32 < 16 := by omega
      simp [low,high,fits,back]
    · by_cases below : i < 48
      · have fits : ¬ 16 + i < 32 ∧ (i < 32 ∨ i - 32 < 16) := by omega
        rcases fits with ⟨fits,near | near⟩ <;> simp [low,high,fits,near]
      · have fits : ¬ 16 + i < 32 ∧ ¬ i - 32 < 64 := by omega
        simp [low,high,fits]

/-- The pieces lie where the offset does, in its order. -/
theorem offset_pieces (t : Word) : (decode (pieces t)).offset = t := by
  apply BitVec.eq_of_getLsbD_eq
  intro i lt
  simp only [decode,BitVec.getLsbD_append,BitVec.getLsbD_extractLsb',getLsbD_pieces]
  by_cases low : i < 16
  · simp [low]
  · by_cases mid : i < 32
    · have back : 48 + (i - 16) - 32 = i := by omega
      have fits : i - 16 < 16 ∧ ¬ 48 + (i - 16) < 16 ∧ 48 + (i - 16) < 96 := by omega
      simp [low,back,fits]
    · have back : 64 + (i - 32) - 32 = i := by omega
      have fits : ¬ i - 16 < 16 ∧ i - 32 < 32 ∧ 16 ≤ 64 + (i - 32) ∧ 48 ≤ 64 + (i - 32) ∧ 64 + (i - 32) < 96 := by omega
      simp [low,back,fits,Nat.sub_sub]

theorem pieces_apart (t : Word) (lo n : Nat) (apart : 16 ≤ lo ∧ lo + n ≤ 48 ∨ 96 ≤ lo) :
    (pieces t).extractLsb' lo n = 0 := by
  apply BitVec.eq_of_getLsbD_eq
  intro i lt
  have out : ¬ lo + i < 16 ∧ ¬ (48 ≤ lo + i ∧ lo + i < 96) := by omega
  rw [BitVec.getLsbD_extractLsb',getLsbD_pieces,if_neg out.1,if_neg out.2]
  simp

/-- An address ORed into a gate without one. -/
theorem decode_or {g : BitVec 128} (none : (decode g).offset = 0) (t : Word) :
    decode (g ||| pieces t) = { decode g with offset := t } := by
  have offset : (decode (g ||| pieces t)).offset = (decode g).offset ||| (decode (pieces t)).offset := by
    simp only [decode,BitVec.extractLsb'_or,← BitVec.or_append]
  have value : (decode (g ||| pieces t)).offset = t := by
    rw [offset,none,offset_pieces]
    exact BitVec.zero_or
  have rest : { decode (g ||| pieces t) with offset := t } = { decode g with offset := t } := by
    have zero := pieces_apart t
    simp only [decode,BitVec.extractLsb'_or,zero 16 16 (by decide),zero 32 3 (by decide),zero 40 4 (by decide),
      zero 44 1 (by decide),zero 45 2 (by decide),zero 47 1 (by decide),zero 96 32 (by decide)]
    simp
  exact (congrArg (fun o => { decode (g ||| pieces t) with offset := o }) value).trans rest

theorem decode_template (T : Word) (i : Nat) : decode (template i) = { filled T i with offset := 0 } := by
  unfold template filled
  split <;> rfl

/-- The template with the address of trampoline `i`. -/
theorem decode_filled (T : Word) (i : Nat) : decode (template i ||| pieces (T + BitVec.ofNat 64 (17 * i))) =
    filled T i := by
  rw [decode_or (by rw [decode_template T]),decode_template T]
  rfl

theorem within_gate {idt x : Word} {i : Nat} (lt : i < 256) :
    Within x (gate idt i) 16 ↔ 16 * i ≤ (x - idt).toNat ∧ (x - idt).toNat < 16 * i + 16 := within_offset (by omega)

/-- The two ORs of a round. -/
def orGate (m : Memory) (a t : Word) : Memory :=
  let low := store (n := 4) m a (load m a 4 ||| (t.setWidth 32 <<< 16) >>> 16)
  store (n := 8) low (a + 4) (load low (a + 4) 8 ||| (t >>> 16) <<< 16)

theorem load_orGate (m : Memory) (a t : Word) : load (orGate m a t) a 16 = load m a 16 ||| pieces t := by
  have first := load_store_or m a (d := 0) (n := 4) (k := 16) ((t.setWidth 32 <<< 16) >>> 16) (by decide) (by decide)
  have second := fun m => load_store_or m a (d := 4) (n := 8) (k := 16) ((t >>> 16) <<< 16) (by decide) (by decide)
  rw [BitVec.add_zero,Nat.mul_zero,BitVec.shiftLeft_zero] at first
  exact (second _).trans (by rw [first,BitVec.or_assoc]; rfl)

theorem orGate_out (m : Memory) {a x : Word} (t : Word) (out : ¬ Within x a 16) : orGate m a t x = m x := by
  have low : ¬ Within x a 4 := fun inside => out (inside.mono (by decide))
  have high : ¬ Within x (a + BitVec.ofNat 64 4) 8 := by
    intro inside
    have window := (within_offset (by decide)).mp inside
    exact out (by unfold Within; omega)
  exact (store_of_not_within _ high).trans (store_of_not_within _ low)

/-- The registers and the memory after a round. -/
theorem round_exec (s : State) :
    let s' := round.foldl (fun s f => f s) s
    s'.regs .rax = ((s.regs .rax).setWidth 32 + 1#32).setWidth 64 ∧ s'.regs .rbx = s.regs .rbx + 16 ∧
      s'.regs .rcx = s.regs .rcx + 17 ∧ s'.regs .rsp = s.regs .rsp ∧ s'.regs .rbp = s.regs .rbp ∧
      s'.mem = orGate s.mem (s.regs .rbx) (s.regs .rcx) := by
  have low : ∀ v : BitVec 32, (v.setWidth 64).setWidth 32 = v := by simp
  simp only [round,List.foldl,movl,shll,shrl,orl,addq,movq,shrq,shlq,orq,addl,alu,alul,orMem,State.set_regs_eq,
    State.setZf_regs,State.setZf_mem,State.set_mem,reduceCtorEq,if_true,if_false,true_and,low]
  refine ⟨rfl,?_,rfl⟩
  rw [BitVec.add_assoc]
  rfl

/-! ### The loop -/

/-- The address that the rounds before `k` have put into gate `i`. -/
def piecesUpTo (T : Word) (k i : Nat) : BitVec 128 := if i < k then pieces (T + BitVec.ofNat 64 (17 * i)) else 0#128

/-- Before round `k` of a loop that was entered in state `s0`. -/
structure Filling (idt T : Word) (s0 : State) (k : Nat) (s : State) : Prop where
  counter : s.regs .rax = BitVec.ofNat 64 k
  place : s.regs .rbx = gate idt k
  offset : s.regs .rcx = T + BitVec.ofNat 64 (17 * k)
  frame : s.regs .rbp = s0.regs .rbp
  gates : ∀ i < 256, load s.mem (gate idt i) 16 = load s0.mem (gate idt i) 16 ||| piecesUpTo T k i
  rest : ∀ x, ¬ Within x idt 4096 → s.mem x = s0.mem x

theorem Filling.round {idt T : Word} {s0 s : State} {k : Nat} (lt : k < 256) (filling : Filling idt T s0 k s) :
    ∃ s', Steps code (loop1,s) (loop1,s') ∧ Filling idt T s0 (k + 1) s' := by
  obtain ⟨rax,rbx,rcx,-,rbp,mem⟩ := round_exec (cmpq .rax 256 s)
  have mem' : (Idt.round.foldl (fun s f => f s) (cmpq .rax 256 s)).mem =
      orGate s.mem (gate idt k) (T + BitVec.ofNat 64 (17 * k)) := by
    rw [← filling.place,← filling.offset]
    exact mem
  have goes : (cmpq .rax 256 s).zf = false := by
    have other : s.regs .rax ≠ 256 := by
      rw [filling.counter]
      bv_omega
    exact decide_eq_false other
  have ran : Steps code (loop1,s) (loop1,Idt.round.foldl (fun s f => f s) (cmpq .rax 256 s)) := by
    refine .head rfl (.head (b := (Idt.round.map .op ++ [.jmp .loop1],cmpq .rax 256 s)) ?_ ?_)
    · simp only [step,goes]
      rfl
    · exact (steps_block Idt.round [.jmp Label.loop1] _).tail rfl
  refine ⟨_,ran,?_,?_,?_,rbp.trans filling.frame,?_,?_⟩
  · have before : (cmpq .rax 256 s).regs .rax = BitVec.ofNat 64 k := filling.counter
    rw [rax,before]
    bv_omega
  · have before : (cmpq .rax 256 s).regs .rbx = gate idt k := filling.place
    rw [rbx,before,gate,BitVec.add_assoc]
    exact congrArg (idt + ·) (BitVec.ofNat_add (16 * k) 16).symm
  · have before : (cmpq .rax 256 s).regs .rcx = T + BitVec.ofNat 64 (17 * k) := filling.offset
    rw [rcx,before,BitVec.add_assoc]
    exact congrArg (T + ·) (BitVec.ofNat_add (17 * k) 17).symm
  · intro i inside
    have old := filling.gates i inside
    by_cases same : i = k
    · subst same
      have this : load (orGate s.mem (gate idt i) (T + BitVec.ofNat 64 (17 * i))) (gate idt i) 16 = _ := load_orGate _ _ _
      rw [mem']
      rw [this,old,piecesUpTo,if_neg (Nat.lt_irrefl i),BitVec.or_zero,piecesUpTo,if_pos (Nat.lt_succ_self i)]
    · have later : piecesUpTo T (k + 1) i = piecesUpTo T k i := by
        unfold piecesUpTo
        exact if_congr (by omega) rfl rfl
      rw [later,← old,mem']
      refine load_congr (fun x at_ => orGate_out _ _ fun here => ?_) (by decide)
      rw [within_gate inside] at at_
      rw [within_gate lt] at here
      omega
  · intro x out
    rw [← filling.rest x out,mem']
    refine orGate_out _ _ fun here => ?_
    rw [within_gate lt] at here
    exact out (by unfold Within; omega)

/-! ### The call -/

/-- The saved `%rbp` and the return address are not in the table. -/
def Clear (idt : Word) (s : State) : Prop := ∀ x, Within x (s.regs .rsp - 8) 16 → ¬ Within x idt 4096

/-- What a call does. -/
structure Called (idt T : Word) (s s' : State) : Prop where
  stack : s'.regs .rsp = s.regs .rsp ∧ s'.regs .rbp = s.regs .rbp ∧ s'.read (s.regs .rsp) = s.read (s.regs .rsp)
  gates : ∀ i < 256, load s'.mem (gate idt i) 16 = load s.mem (gate idt i) 16 ||| pieces (T + BitVec.ofNat 64 (17 * i))
  rest : ∀ x, ¬ Within x idt 4096 → ¬ Within x (s.regs .rsp - 8) 8 → s'.mem x = s.mem x

theorem prologue_exec (idt T : Word) (s : State) :
    let s0 := (prologue idt T).foldl (fun s f => f s) s
    s0.regs .rbp = s.regs .rsp - 8 ∧ s0.mem = (s.write (s.regs .rsp - 8) (s.regs .rbp)).mem ∧ Filling idt T s0 0 s0 := by
  simp only [prologue,List.foldl,op,Op.exec,movq,subq,alu]
  refine ⟨?_,rfl,?_,?_,?_,?_,?_,?_⟩
  · simp [State.set_regs_eq]
  · simp [State.set_regs_eq]
  · simp [State.set_regs_eq,gate]
  · simp [State.set_regs_eq]
  · rfl
  · intro i _
    exact BitVec.or_zero.symm
  · intro x _
    rfl

theorem epilogue_exec (s : State) :
    let s' := [movq .rbp .rsp,op (.popq .rbp)].foldl (fun s f => f s) s
    s'.regs .rsp = s.regs .rbp + 8 ∧ s'.regs .rbp = s.read (s.regs .rbp) ∧ s'.mem = s.mem := by
  simp only [List.foldl,op,Op.exec,movq]
  refine ⟨?_,?_,rfl⟩
  · simp [State.set_regs_eq]
  · simp

theorem fill_idt_called (idt T : Word) {s : State} (clear : Clear idt s) :
    ∃ s', Returns code (fill_idt idt T) s s' ∧ Called idt T s s' := by
  obtain ⟨frame,pushed,start⟩ := prologue_exec idt T s
  have entered : Steps code (fill_idt idt T,s) (loop1,_) := steps_block (prologue idt T) loop1 s
  generalize (prologue idt T).foldl (fun s f => f s) s = s0 at frame pushed start entered
  obtain ⟨s1,looped,done⟩ : ∃ s1, Steps code (loop1,s0) (loop1,s1) ∧ Filling idt T s0 256 s1 :=
    steps_loop (fun k s lt filling => filling.round lt) start
  have leaves : (cmpq .rax 256 s1).zf = true := by
    have all : s1.regs .rax = 256 := done.counter
    exact decide_eq_true all
  have out : Steps code (loop1,s1) (halt1,cmpq .rax 256 s1) := by
    refine .head rfl (.single ?_)
    simp only [step,leaves]
    rfl
  have last : Steps code (halt1,cmpq .rax 256 s1) ([.ret],_) := steps_block [movq .rbp .rsp,op (.popq .rbp)] [.ret] _
  obtain ⟨rsp,rbp,mem⟩ := epilogue_exec (cmpq .rax 256 s1)
  generalize [movq .rbp .rsp,op (.popq .rbp)].foldl (fun s f => f s) (cmpq .rax 256 s1) = s' at rsp rbp mem last
  have base : (cmpq .rax 256 s1).regs .rbp = s.regs .rsp - 8 := done.frame.trans frame
  -- Outside the table only the saved register has been written.
  have kept : ∀ x, ¬ Within x idt 4096 → s'.mem x = (s.write (s.regs .rsp - 8) (s.regs .rbp)).mem x := by
    intro x outside
    rw [mem,← pushed]
    exact done.rest x outside
  refine ⟨s',Steps.returns (entered.trans (looped.trans (out.trans last))),⟨?_,?_,?_⟩,?_,?_⟩
  · rw [rsp,base,BitVec.sub_add_cancel]
  · rw [rbp,base,← State.read_write s (s.regs .rsp - 8) (s.regs .rbp)]
    refine State.read_congr fun x inside => ?_
    rw [← kept x (clear x (inside.mono (by decide))),mem]
  · refine State.read_congr fun x inside => ?_
    have above : Within x (s.regs .rsp - 8) 16 ∧ ¬ Within x (s.regs .rsp - 8) 8 := by
      unfold Within at *
      bv_omega
    rw [kept x (clear x above.1),State.write_mem s _ above.2]
  · intro i inside
    have same : load s0.mem (gate idt i) 16 = load s.mem (gate idt i) 16 := by
      refine load_congr (fun x at_ => ?_) (by decide)
      rw [pushed]
      refine State.write_mem s _ fun saved => clear x (saved.mono (by decide)) ?_
      rw [within_gate inside] at at_
      unfold Within
      omega
    have filled := done.gates i inside
    rw [piecesUpTo,if_pos inside,same] at filled
    rw [mem]
    exact filled
  · intro x outside apart
    rw [kept x outside,State.write_mem s _ apart]

def SameTable (idt : Word) (m m' : Memory) : Prop := ∀ x, Within x idt 4096 → m x = m' x

theorem sameTable_of_gates {idt : Word} {m m' : Memory}
    (same : ∀ i < 256, load m (gate idt i) 16 = load m' (gate idt i) 16) :
    SameTable idt m m' := by
  intro x inside
  unfold Within at inside
  have lt : (x - idt).toNat / 16 < 256 := by omega
  refine byte_of_load ?_ (same _ lt)
  rw [within_gate lt]
  omega

/-- The table that a call has filled stays as it is in the next. -/
theorem fill_idt_again (idt T : Word) {s s' t : State} (called : Called idt T s s') (clear : Clear idt t)
    (same : SameTable idt t.mem s'.mem) : ∃ t', Returns code (fill_idt idt T) t t' ∧ SameTable idt t'.mem s'.mem := by
  obtain ⟨t',returns,again⟩ := fill_idt_called idt T clear
  refine ⟨t',returns,sameTable_of_gates fun i inside => ?_⟩
  have before : load t.mem (gate idt i) 16 = load s'.mem (gate idt i) 16 := by
    refine load_congr (fun x at_ => same x ?_) (by decide)
    rw [within_gate inside] at at_
    unfold Within
    omega
  rw [again.gates i inside,before,called.gates i inside,BitVec.or_assoc,BitVec.or_self]

/-- From the template every gate is filled with its trampoline; a second call leaves
    the table as it is. -/
theorem fill_idt_gates (idt T : Word) {s : State} (initial : Initial idt s.mem) (clear : Clear idt s) :
    ∃ s', Returns code (fill_idt idt T) s s' ∧
      (∀ i < 256, decode (load s'.mem (gate idt i) 16) = filled T i ∧
        int_expt_trampoline[i]? = some (entry i) ∧ trampoline T i = (filled T i).offset) ∧
      ∀ t, Clear idt t → SameTable idt t.mem s'.mem → ∃ t', Returns code (fill_idt idt T) t t' ∧
      SameTable idt t'.mem s'.mem := by
  obtain ⟨s',returns,called⟩ := fill_idt_called idt T clear
  refine ⟨s',returns,?_,fun t clear same => fill_idt_again idt T called clear same⟩
  intro i inside
  refine ⟨?_,trampoline_at T inside⟩
  rw [called.gates i inside,initial i inside]
  exact decode_filled T i

/-- A memory that has the template at `idt`. -/
def image (idt : Word) : Memory := fun x => (template ((x - idt).toNat / 16)).extractLsb' (8 * ((x - idt).toNat % 16)) 8

theorem initial_image (idt : Word) : Initial idt (image idt) := by
  intro i inside
  rw [← load_store_same (n := 16) (image idt) (gate idt i) (template i) (by decide)]
  refine load_congr (fun x at_ => ?_) (by decide)
  have window := (within_gate inside).mp at_
  have place : (x - gate idt i).toNat = (x - idt).toNat % 16 := by
    unfold gate
    bv_omega
  refine Eq.trans ?_ (if_pos at_).symm
  rw [place,image,show (x - idt).toNat / 16 = i by omega]

/-- A trampoline whose lower half carries into the upper one at gate 1. -/
theorem fill_idt_carry : ∃ s', Returns code (fill_idt 0x3000 0x1FFFFFFF8) ⟨fun _ => 0x9000,false,false,image 0x3000⟩ s' ∧
    decode (load s'.mem (gate 0x3000 1) 16) = ⟨0x200000009,8,0,0xf,0,0,1,0⟩ := by
  have clear : Clear 0x3000 ⟨fun _ => 0x9000,false,false,image 0x3000⟩ := by
    intro x stack table
    unfold Within at *
    simp only at stack
    bv_omega
  have value : filled 0x1FFFFFFF8 1 = ⟨0x200000009,8,0,0xf,0,0,1,0⟩ := by decide
  obtain ⟨s',returns,gates,-⟩ := fill_idt_gates 0x3000 0x1FFFFFFF8 (s := ⟨fun _ => 0x9000,false,false,image 0x3000⟩)
    (initial_image 0x3000) clear
  refine ⟨s',returns,?_⟩
  rw [← value]
  exact (gates 1 (by decide)).1

end Bootcode.Idt
