import Bootcode.X86

/-!
Interrupt entry and exit in `boot.S`: the trampoline of a vector, the handler
that brings both shapes of the CPU's frame into one, and the saved context
around `high_interrupt_handler`. The table `no_err_code` decides which shape a
vector has; for two vectors it disagrees with the architecture.
-/
namespace Bootcode.Interrupt
open Bootcode.X86

/-- Whether a vector comes without an error code: 24 entries, then `.fill 232, 1, 1`. -/
def no_err_code : List (BitVec 8) :=
  [1,1,1,1,1,1,1,1,
   0,1,0,0,0,0,0,1,
   1,0,1,1,1,0,1,1] ++ List.replicate 232 1

inductive Label
  | trampoline (int_num : Nat)
  | int_expt_handler_64
  | jmp2high_interrupt
  | high_interrupt_handler

/-- `disp(%rsp)`. -/
def stack (disp : Int) : Addr := { disp := BitVec.ofInt 64 disp, base := .rsp }

def SAVE_CONTEXT : List Op :=
  [.pushq .rax,.pushq .rcx,.pushq .rdx,.pushq .rsi,.pushq .rdi,.pushq .r8,.pushq .r9,.pushq .r10,.pushq .r11]
def RESTORE_CONTEXT : List Op :=
  [.popq .r11,.popq .r10,.popq .r9,.popq .r8,.popq .rdi,.popq .rsi,.popq .rdx,.popq .rcx,.popq .rax]

section
variable (table ra : Word)

/-- One entry of `int_expt_trampoline`, up to its jump. -/
def IDT_TABLE_64 (int_num : Nat) : List Op :=
  [.pushq .rax,.movImm (BitVec.ofNat 64 int_num) .rax,.xchgq .rax (stack 0)]
/-- `int_expt_handler_64` up to its branch. -/
def lookUp : List Op :=
  [.cli,.pushq .rax,.pushq .rbx,.movLoad (stack 16) .rbx,.movImm table .rax,
   .cmpbImm 0 { disp := 0, base := .rax, index := some .rbx },.popq .rbx,.popq .rax]
/-- The branch for a vector without an error code: a dummy goes below the vector. -/
def insertDummy : List Op :=
  [.xchgq .rax (stack (-16)),.movLoad (stack 0) .rax,.movImmStore 0xdead (stack 0),.pushq .rax,.xchgq .rax (stack (-8))]

/-- The code around the call. -/
def enter : List Op := SAVE_CONTEXT ++ [.leaq (stack 72) .rdi]
def leave : List Op := RESTORE_CONTEXT ++ [.addImm 16 .rsp,.nop,.nop]

def jmp2high_interrupt : List (Instr Label) :=
  enter.map .op ++ .call .high_interrupt_handler ra :: (leave.map .op ++ [.iretq])
def int_expt_handler_64 : List (Instr Label) :=
  (lookUp table).map .op ++ .je .jmp2high_interrupt :: (insertDummy.map .op ++ jmp2high_interrupt ra)

/-- The code, with `no_err_code` at `table` and the call returning to `ra`. -/
def code : Label → List (Instr Label)
  | .trampoline int_num => (IDT_TABLE_64 int_num).map .op ++ [.jmp .int_expt_handler_64]
  | .int_expt_handler_64 => int_expt_handler_64 table ra
  | .jmp2high_interrupt => jmp2high_interrupt ra
  | .high_interrupt_handler => []

end

/-! ### What is promised -/

/-- The vectors for which the CPU pushes an error code. -/
def pushesErrorCode (int_num : Nat) : Bool := [8,10,11,12,13,14,17,21,29,30].contains int_num

structure stack_frame_err_t where
  int_num : Word
  error_code : Word
  rip : Word
  cs : Word
  rflags : Word
  rsp : Word
  ss : Word

/-- The struct that `sf` points at. -/
def stack_frame_err_t.read (s : State) (sf : Word) : stack_frame_err_t :=
  ⟨s.read sf,s.read (sf + 8),s.read (sf + 16),s.read (sf + 24),s.read (sf + 32),s.read (sf + 40),s.read (sf + 48)⟩

/-- Where the CPU has pushed `rip` when the trampoline is entered. -/
def pushedRip (int_num : Nat) (s : State) : Word :=
  if pushesErrorCode int_num then s.regs .rsp + 8 else s.regs .rsp

/-- The callee-saved registers. -/
def calleeSaved : List Reg := [.rbx,.rbp,.r12,.r13,.r14,.r15]

/-- The handler obeys the C ABI: it pops its return address, keeps the callee-saved
    registers, and writes only its return address and the `depth` bytes below it. -/
structure Obeys (handler : State → State) (depth : Nat) : Prop where
  rsp : ∀ s, (handler s).regs .rsp = s.regs .rsp + 8
  saved : ∀ s, ∀ r ∈ calleeSaved, (handler s).regs r = s.regs r
  mem : ∀ s x, ¬ Within x (s.regs .rsp - BitVec.ofNat 64 depth) (depth + 8) → (handler s).mem x = s.mem x

/-- Entry and exit around the handler are transparent for an interrupt `int_num`
    that finds the machine in state `s`: the handler is called with the uniform
    frame, and `iretq` is executed on the pushed `rip` with all registers back and
    no byte changed but those below it. -/
def Transparent (table ra : Word) (handler : State → State) (depth int_num : Nat) (s : State) : Prop :=
  ∃ (rest : List (Instr Label)) (called back : State),
    Steps (code table ra) (fun _ => handler) ⟨code table ra (.trampoline int_num),s⟩
      ⟨.call .high_interrupt_handler ra :: rest,called⟩ ∧
    stack_frame_err_t.read called (called.regs .rdi) =
      { int_num := BitVec.ofNat 64 int_num
        error_code := if pushesErrorCode int_num then s.read (s.regs .rsp) else 0xdead
        rip := s.read (pushedRip int_num s)
        cs := s.read (pushedRip int_num s + 8)
        rflags := s.read (pushedRip int_num s + 16)
        rsp := s.read (pushedRip int_num s + 24)
        ss := s.read (pushedRip int_num s + 32) } ∧
    Steps (code table ra) (fun _ => handler) ⟨.call .high_interrupt_handler ra :: rest,called⟩ ⟨[.iretq],back⟩ ∧
    back.regs .rsp = pushedRip int_num s ∧ (∀ r ≠ .rsp, back.regs r = s.regs r) ∧
    ∀ x, ¬ Within x (pushedRip int_num s - BitVec.ofNat 64 (depth + 96)) (depth + 96) → back.mem x = s.mem x

section
variable {table ra : Word} {handler : State → State} {depth : Nat}

/-- The trampoline pushes the vector. -/
theorem trampoline_exec (int_num : Nat) (s : State) :
    (execs (IDT_TABLE_64 int_num) s).regs .rsp = s.regs .rsp - 8 ∧
      (∀ r ≠ .rsp, (execs (IDT_TABLE_64 int_num) s).regs r = s.regs r) ∧
      (execs (IDT_TABLE_64 int_num) s).read (s.regs .rsp - 8) = BitVec.ofNat 64 int_num ∧
      ∀ x, ¬ Within x (s.regs .rsp - 8) 8 → (execs (IDT_TABLE_64 int_num) s).mem x = s.mem x := by
  simp only [IDT_TABLE_64,execs_cons,execs_nil,Op.exec,stack,Addr.ea]
  refine ⟨?_,?_,?_,?_⟩
  · simp [State.set_regs_eq]
  · intro r other
    simp [State.set_regs_eq,other]
    split <;> simp [*]
  · simp [State.set_regs_eq]
  · intro x out
    simp only [BitVec.ofNat_eq_ofNat] at out
    simp [State.set_regs_eq,State.write_mem,out]

/-- What `int_expt_handler_64` does with the two registers it has saved. -/
def peek (table : Word) : List Op :=
  [.movLoad (stack 16) .rbx,.movImm table .rax,.cmpbImm 0 { disp := 0, base := .rax, index := some .rbx }]

theorem peek_exec (table : Word) (s : State) :
    (∀ r, r ≠ .rax → r ≠ .rbx → (execs (peek table) s).regs r = s.regs r) ∧ (execs (peek table) s).mem = s.mem ∧
      (execs (peek table) s).zf = decide (s.mem (table + s.read (s.regs .rsp + 16)) = 0) := by
  simp only [peek,execs_cons,execs_nil,Op.exec,stack,Addr.ea]
  refine ⟨?_,?_,?_⟩
  · intro r rax rbx
    simp [State.set_regs_eq,rax,rbx]
  · simp
  · simp [State.set_regs_eq,BitVec.add_comm]

/-- The table decides the branch; all else is as before but for two words below. -/
theorem lookUp_exec (table : Word) (s : State) :
    (execs (lookUp table) s).regs = s.regs ∧
      (execs (lookUp table) s).zf =
        decide ((execs (save [.rax,.rbx]) (s.setIntr false)).mem (table + s.read (s.regs .rsp)) = 0) ∧
      ∀ x, ¬ Within x (s.regs .rsp - 16) 16 → (execs (lookUp table) s).mem x = s.mem x := by
  have parts : execs (lookUp table) s =
      execs (restore [.rax,.rbx]) (execs (peek table) (execs (save [.rax,.rbx]) (s.setIntr false))) := rfl
  obtain ⟨rsp,regs,mem⟩ := save_exec [.rax,.rbx] (s.setIntr false) (by simp)
  obtain ⟨kept,same,zf⟩ := peek_exec table (execs (save [.rax,.rbx]) (s.setIntr false))
  have below : BitVec.ofNat 64 (8 * [Reg.rax,Reg.rbx].length) = 16 := rfl
  rw [below] at rsp mem
  have top : (execs (save [.rax,.rbx]) (s.setIntr false)).regs .rsp + 16 = s.regs .rsp := by
    rw [rsp]
    exact BitVec.sub_add_cancel _ _
  have vector : (execs (save [.rax,.rbx]) (s.setIntr false)).read (s.regs .rsp) = s.read (s.regs .rsp) :=
    State.read_congr fun x inside => mem x (within_below (k := 16) (by omega) inside).2
  rw [top,vector] at zf
  obtain ⟨rsp',back,others,mem'⟩ := restore_save [.rax,.rbx] (s.setIntr false) _ (by simp) (by simp)
    (kept .rsp (by simp) (by simp)) fun x _ => by rw [same]
  rw [parts]
  refine ⟨funext fun r => ?_,(restore_zf _ _).trans zf,?_⟩
  · by_cases pair : r ∈ [Reg.rax,Reg.rbx]
    · exact back r pair
    · by_cases pointer : r = .rsp
      · subst pointer
        exact rsp'
      · rw [others r pair pointer]
        simp only [List.mem_cons,List.not_mem_nil,or_false,not_or] at pair
        rw [kept r pair.1 pair.2]
        exact regs r pointer
  · intro x out
    rw [mem',same]
    exact mem x out

/-- The dummy goes between the vector and `rip`. -/
theorem insertDummy_exec (s : State) :
    (execs insertDummy s).regs .rsp = s.regs .rsp - 8 ∧ (∀ r ≠ .rsp, (execs insertDummy s).regs r = s.regs r) ∧
      (execs insertDummy s).read (s.regs .rsp - 8) = s.read (s.regs .rsp) ∧
      (execs insertDummy s).read (s.regs .rsp) = 0xdead ∧
      ∀ x, ¬ Within x (s.regs .rsp - 16) 24 → (execs insertDummy s).mem x = s.mem x := by
  have low : 18446744073709551600#64 + s.regs .rsp = s.regs .rsp - 16#64 := by bv_omega
  have low' : 18446744073709551608#64 + (s.regs .rsp - 8#64) = s.regs .rsp - 16#64 := by bv_omega
  simp only [insertDummy,execs_cons,execs_nil,Op.exec,stack,Addr.ea]
  refine ⟨?_,?_,?_,?_,?_⟩
  · simp [State.set_regs_eq]
  · intro r other
    simp [State.set_regs_eq,other,low,low']
    simp (disch := bv_omega) only [State.read_write_apart]
    simp only [State.read_set,State.read_write]
    split <;> simp [*]
  · simp (disch := bv_omega) [State.set_regs_eq,State.read_write_apart,low,low']
  · simp (disch := bv_omega) [State.set_regs_eq,State.read_write_apart,low,low']
  · intro x out
    unfold Within at out
    simp (disch := (unfold Within; bv_omega)) [State.set_regs_eq,State.write_mem,low,low']

/-- Where the code takes `rip` to be: its table decides. -/
def takenRip (int_num : Nat) (s : State) : Word :=
  if no_err_code.getD int_num 0 = 0 then s.regs .rsp + 8 else s.regs .rsp

/-- The table is in memory and apart from the words that the code pushes to read it. -/
structure TableAt (table : Word) (s : State) : Prop where
  loaded : ∀ i < 256, s.mem (table + BitVec.ofNat 64 i) = no_err_code.getD i 0
  apart : ∀ i < 256, ¬ Within (table + BitVec.ofNat 64 i) (s.regs .rsp - 24) 24

/-- At its branch the handler knows what the table says of the vector, and has all
    registers back. -/
theorem looks_up (ra : Word) (handler : State → State) {int_num : Nat} (lt : int_num < 256) {s : State}
    (placed : TableAt table s) :
    ∃ m, Steps (code table ra) (fun _ => handler) ⟨code table ra (.trampoline int_num),s⟩
        ⟨.je .jmp2high_interrupt :: (insertDummy.map .op ++ jmp2high_interrupt ra),m⟩ ∧
      m.zf = decide (no_err_code.getD int_num 0 = 0) ∧ m.regs .rsp = s.regs .rsp - 8 ∧
      (∀ r ≠ .rsp, m.regs r = s.regs r) ∧ m.read (s.regs .rsp - 8) = BitVec.ofNat 64 int_num ∧
      ∀ x, ¬ Within x (s.regs .rsp - 24) 24 → m.mem x = s.mem x := by
  obtain ⟨rsp1,regs1,vector,mem1⟩ := trampoline_exec int_num s
  obtain ⟨regs2,branch,mem2⟩ := lookUp_exec table (execs (IDT_TABLE_64 int_num) s)
  have start : Steps (code table ra) (fun _ => handler) ⟨code table ra (.trampoline int_num),s⟩
    ⟨.je .jmp2high_interrupt :: _,_⟩ :=
    (steps_block (IDT_TABLE_64 int_num) _ s).trans (.head rfl (steps_block (lookUp table) _ _))
  -- The entry of the table is still what was loaded.
  have entry : (execs (save [.rax,.rbx]) ((execs (IDT_TABLE_64 int_num) s).setIntr false)).mem
    (table + BitVec.ofNat 64 int_num) =
      no_err_code.getD int_num 0 := by
    obtain ⟨-,-,mem⟩ := save_exec [.rax,.rbx] ((execs (IDT_TABLE_64 int_num) s).setIntr false) (by simp)
    have out := placed.apart int_num lt
    unfold Within at *
    rw [mem _ ?_,State.setIntr_mem,mem1 _ ?_,placed.loaded int_num lt]
    · bv_omega
    · simp only [State.setIntr_regs,rsp1,List.length_cons,List.length_nil]
      bv_omega
  rw [rsp1] at branch mem2
  rw [vector,entry] at branch
  refine ⟨_,start,branch,?_,?_,?_,?_⟩
  · rw [regs2,rsp1]
  · intro r other
    rw [regs2,regs1 r other]
  · rw [← vector]
    apply State.read_congr
    intro x inside
    apply mem2
    unfold Within at *
    bv_omega
  · intro x out
    unfold Within at *
    rw [mem2 x (by bv_omega),mem1 x (by bv_omega)]

/-- Both branches arrive at `jmp2high_interrupt` with the vector and an error code,
    the CPU's or the dummy, below what the code takes for `rip`. -/
theorem arrives (ra : Word) (handler : State → State) {int_num : Nat} (lt : int_num < 256) {s : State}
    (placed : TableAt table s) :
    ∃ m, Steps (code table ra) (fun _ => handler) ⟨code table ra (.trampoline int_num),s⟩ ⟨jmp2high_interrupt ra,m⟩ ∧
      m.regs .rsp = takenRip int_num s - 16 ∧ (∀ r ≠ .rsp, m.regs r = s.regs r) ∧
      m.read (takenRip int_num s - 16) = BitVec.ofNat 64 int_num ∧
      m.read (takenRip int_num s - 8) =
        (if no_err_code.getD int_num 0 = 0 then s.read (s.regs .rsp) else 0xdead) ∧
      ∀ x, ¬ Within x (takenRip int_num s - 32) 32 → m.mem x = s.mem x := by
  obtain ⟨m,start,branch,rsp,regs,vector,far⟩ := looks_up ra handler lt placed
  by_cases pushed : no_err_code.getD int_num 0 = 0
  · have taken : takenRip int_num s = s.regs .rsp + 8 := if_pos pushed
    have at16 : s.regs .rsp + 8 - 16 = s.regs .rsp - 8 := by bv_omega
    have at8 : s.regs .rsp + 8 - 8 = s.regs .rsp := by bv_omega
    have at32 : s.regs .rsp + 8 - 32 = s.regs .rsp - 24 := by bv_omega
    simp only [pushed,decide_true] at branch
    rw [taken,at16,at8,at32,if_pos pushed]
    refine ⟨m,start.tail ?_,rsp,regs,vector,State.read_congr fun x inside => far x ?_,fun x out => far x ?_⟩
    · simp [step,branch,code]
    · unfold Within at *
      bv_omega
    · unfold Within at *
      bv_omega
  · have taken : takenRip int_num s = s.regs .rsp := if_neg pushed
    simp only [pushed,decide_false] at branch
    obtain ⟨rsp',regs',vector',dummy,mem'⟩ := insertDummy_exec m
    have at16 : s.regs .rsp - 8 - 8 = s.regs .rsp - 16 := by bv_omega
    rw [rsp,at16] at rsp' vector'
    rw [rsp] at dummy mem'
    rw [taken,if_neg pushed]
    have falls : Steps (code table ra) (fun _ => handler) _ ⟨insertDummy.map .op ++ jmp2high_interrupt ra,m⟩ :=
      start.tail (by simp [step,branch])
    have inserted := falls.trans (steps_block insertDummy (jmp2high_interrupt ra) m)
    refine ⟨execs insertDummy m,inserted,rsp',?_,vector'.trans vector,dummy,?_⟩
    · intro r other
      exact (regs' r other).trans (regs r other)
    · intro x out
      unfold Within at *
      rw [mem' x (by bv_omega),far x (by bv_omega)]

def callerSaved : List Reg := [.rax,.rcx,.rdx,.rsi,.rdi,.r8,.r9,.r10,.r11]

/-- The context is saved, and the handler is given what lies above it. -/
theorem enter_exec (m : State) :
    (execs enter m).regs .rsp = m.regs .rsp - 72 ∧ (execs enter m).regs .rdi = m.regs .rsp ∧
      (∀ r, r ≠ .rsp → r ≠ .rdi → (execs enter m).regs r = m.regs r) ∧
      (execs enter m).mem = (execs (save callerSaved) m).mem ∧
      ∀ x, ¬ Within x (m.regs .rsp - 72) 72 → (execs enter m).mem x = m.mem x := by
  obtain ⟨rsp,regs,mem⟩ := save_exec callerSaved m (by decide)
  have size : BitVec.ofNat 64 (8 * callerSaved.length) = 72 := rfl
  have nine : 8 * callerSaved.length = 72 := rfl
  rw [size] at rsp mem
  rw [nine] at mem
  have entered : execs enter m = (execs (save callerSaved) m).set .rdi (m.regs .rsp) := by
    have pointer : (stack 72).ea (execs (save callerSaved) m).regs = m.regs .rsp := by
      have offset : (stack 72).ea (execs (save callerSaved) m).regs = 72 + (m.regs .rsp - 72) := by
        simp [stack,Addr.ea,rsp]
      rw [offset,BitVec.add_comm,BitVec.sub_add_cancel]
    rw [← pointer]
    rfl
  rw [entered]
  refine ⟨?_,State.set_regs _ _ _,?_,rfl,mem⟩
  · rw [State.set_regs_ne _ _ (by simp),rsp]
  · intro r plain other
    rw [State.set_regs_ne _ _ other,regs r plain]

/-- A call of the handler, seen from outside. -/
theorem call_exec (ra : Word) (obeys : Obeys handler depth) (room : depth + 8 ≤ 2 ^ 64) (s : State) :
    (handler (pushReturn s ra)).regs .rsp = s.regs .rsp ∧
      (∀ r ∈ calleeSaved, (handler (pushReturn s ra)).regs r = s.regs r) ∧
      ∀ x, ¬ Within x (s.regs .rsp - BitVec.ofNat 64 (depth + 8)) (depth + 8) →
        (handler (pushReturn s ra)).mem x = s.mem x := by
  have rsp : (pushReturn s ra).regs .rsp = s.regs .rsp - 8 := State.set_regs _ _ _
  have lower : s.regs .rsp - 8 - BitVec.ofNat 64 depth = s.regs .rsp - BitVec.ofNat 64 (depth + 8) :=
    sub_ofNat _ (i := 8) (by omega)
  refine ⟨?_,?_,?_⟩
  · rw [obeys.rsp,rsp,BitVec.sub_add_cancel]
  · intro r saved
    have plain : r ≠ .rsp := fun same => by simp [same,calleeSaved] at saved
    rw [obeys.saved _ r saved]
    exact State.set_regs_ne _ _ plain
  · intro x out
    rw [obeys.mem _ x (by rw [rsp,lower]; exact out)]
    apply State.write_mem
    intro inside
    have region := (within_below (k := depth) (by omega) inside).1
    rw [lower] at region
    exact out region

/-- The context is restored, and the two lowest words above it are dropped. -/
theorem leave_exec (m t : State) (rsp : t.regs .rsp = m.regs .rsp - 72)
    (kept : ∀ x, Within x (m.regs .rsp - 72) 72 → t.mem x = (execs (save callerSaved) m).mem x) :
    (execs leave t).regs .rsp = m.regs .rsp + 16 ∧ (∀ r ∈ callerSaved, (execs leave t).regs r = m.regs r) ∧
      (∀ r ∉ callerSaved, r ≠ .rsp → (execs leave t).regs r = t.regs r) ∧ (execs leave t).mem = t.mem := by
  obtain ⟨bottom,-,-⟩ := save_exec callerSaved m (by decide)
  change _ = m.regs .rsp - 72 at bottom
  obtain ⟨rsp',back,others,mem⟩ := restore_save callerSaved m t (by decide) (by decide) (rsp.trans bottom.symm)
    fun x inside => kept x (bottom ▸ inside)
  have left : execs leave t = ((execs (restore callerSaved) t).set .rsp (m.regs .rsp + 16)).setZf
    (m.regs .rsp + 16 = 0) := by
    rw [← rsp']
    rfl
  rw [left,State.setZf_regs,State.setZf_mem,State.set_mem]
  refine ⟨State.set_regs _ _ _,?_,?_,mem⟩
  · intro r caller
    have plain : r ≠ .rsp := fun same => by simp [same,callerSaved] at caller
    rw [State.set_regs_ne _ _ plain]
    exact back r caller
  · intro r callee plain
    rw [State.set_regs_ne _ _ plain]
    exact others r callee plain

/-- From `jmp2high_interrupt` the handler is called on the words at `rsp`, and the
    machine comes back to `iretq` above the two lowest of them. -/
theorem calls (table ra : Word) (obeys : Obeys handler depth) (room : depth + 96 ≤ 2 ^ 64) (m : State) :
    ∃ rest called back, Steps (code table ra) (fun _ => handler) ⟨jmp2high_interrupt ra,m⟩
        ⟨.call .high_interrupt_handler ra :: rest,called⟩ ∧
      called.regs .rdi = m.regs .rsp ∧ called.regs .rsp = m.regs .rsp - 72 ∧
      (∀ x, ¬ Within x (m.regs .rsp - 72) 72 → called.mem x = m.mem x) ∧
      Steps (code table ra) (fun _ => handler) ⟨.call .high_interrupt_handler ra :: rest,called⟩ ⟨[.iretq],back⟩ ∧
      back.regs .rsp = m.regs .rsp + 16 ∧ (∀ r ≠ .rsp, back.regs r = m.regs r) ∧
      ∀ x, ¬ Within x (m.regs .rsp - BitVec.ofNat 64 (depth + 80)) (depth + 80) → back.mem x = m.mem x := by
  obtain ⟨rsp,rdi,regs,saved,mem⟩ := enter_exec m
  obtain ⟨rsp1,callee,mem1⟩ := call_exec ra obeys (by omega) (execs enter m)
  have lowest : m.regs .rsp - 72 - BitVec.ofNat 64 (depth + 8) = m.regs .rsp - BitVec.ofNat 64 (depth + 80) :=
    sub_ofNat _ (i := 72) (by omega)
  rw [rsp] at rsp1 mem1
  -- The handler and the return address stay below the saved words.
  have kept : ∀ x, Within x (m.regs .rsp - 72) 72 →
      (handler (pushReturn (execs enter m) ra)).mem x = (execs (save callerSaved) m).mem x := by
    intro x inside
    rw [mem1 x (within_below (by omega) inside).2,saved]
  obtain ⟨rsp2,back,others,mem2⟩ := leave_exec m _ rsp1 kept
  have returns : Steps (code table ra) (fun _ => handler)
      ⟨.call .high_interrupt_handler ra :: (leave.map .op ++ [.iretq]),execs enter m⟩ _ :=
        .head rfl (steps_block leave [.iretq] _)
  refine ⟨_,_,_,steps_block enter _ m,rdi,rsp,mem,returns,rsp2,?_,?_⟩
  · intro r plain
    by_cases caller : r ∈ callerSaved
    · exact back r caller
    · have kept : r ∈ calleeSaved := by cases r <;> simp [callerSaved,calleeSaved] at caller plain ⊢
      have away : r ≠ .rdi := fun same => by simp [same,callerSaved] at caller
      rw [others r caller plain,callee r kept,regs r plain away]
  · intro x out
    rw [mem2,mem1 x ?_,mem x ?_]
    · intro inside
      apply out
      rw [← lowest]
      exact (within_below (by omega) inside).1.mono (by omega)
    · intro inside
      rw [lowest] at inside
      exact out (inside.mono (by omega))

/-- What `.fill` adds to the table. -/
theorem no_err_code_high {int_num : Nat} (high : 24 ≤ int_num) (lt : int_num < 256) : no_err_code.getD int_num 0 = 1 := by
  have long : int_num - 24 < 232 := by omega
  rw [no_err_code,List.getD_eq_getElem?_getD,List.getElem?_append_right high,List.getElem?_replicate,if_pos (by exact long)]
  rfl

theorem pushesErrorCode_lt {int_num : Nat} (pushes : pushesErrorCode int_num = true) : int_num < 31 := by
  have all : ∀ k ∈ [8,10,11,12,13,14,17,21,29,30], k < 31 := by decide
  exact all int_num (List.contains_iff_mem.mp pushes)

/-- The table agrees with the architecture but for vectors 29 and 30. -/
theorem table_agrees : ∀ int_num < 256,
    (no_err_code.getD int_num 0 = 0 ↔ pushesErrorCode int_num = true) ↔ int_num ≠ 29 ∧ int_num ≠ 30 := by
  have low : ∀ int_num < 31,
      (no_err_code.getD int_num 0 = 0 ↔ pushesErrorCode int_num = true) ↔ int_num ≠ 29 ∧ int_num ≠ 30 := by
    decide +kernel
  intro int_num lt
  by_cases small : int_num < 31
  · exact low int_num small
  · have none : ¬ pushesErrorCode int_num = true := fun pushes => small (pushesErrorCode_lt pushes)
    rw [no_err_code_high (by omega) lt]
    refine iff_of_true (iff_of_false (by decide) none) ?_
    omega

theorem takenRip_eq {int_num : Nat} (lt : int_num < 256) (s : State) :
    takenRip int_num s = pushedRip int_num s ↔ int_num ≠ 29 ∧ int_num ≠ 30 := by
  rw [← table_agrees int_num lt]
  have apart : s.regs .rsp + 8 ≠ s.regs .rsp := by bv_omega
  unfold takenRip pushedRip
  split <;> rename_i table <;> split <;> rename_i pushes
  · exact ⟨fun _ => ⟨fun _ => pushes,fun _ => table⟩,fun _ => rfl⟩
  · exact ⟨fun same => absurd same apart,fun agree => absurd (agree.mp table) pushes⟩
  · exact ⟨fun same => absurd same.symm apart,fun agree => absurd (agree.mpr pushes) table⟩
  · exact ⟨fun _ => ⟨fun zero => absurd zero table,fun one => absurd one pushes⟩,fun _ => rfl⟩

/-- Where the code finds the pushed `rip`, the handler is called with the uniform frame,
    88 bytes below it, and the interrupted code goes on as it was. -/
theorem handed (obeys : Obeys handler depth) (room : depth + 96 ≤ 2 ^ 64) {int_num : Nat} (lt : int_num < 256) {s : State}
    (placed : TableAt table s) (rip : takenRip int_num s = pushedRip int_num s) :
    ∃ (rest : List (Instr Label)) (called back : State),
      Steps (code table ra) (fun _ => handler) ⟨code table ra (.trampoline int_num),s⟩
        ⟨.call .high_interrupt_handler ra :: rest,called⟩ ∧
      called.regs .rsp = pushedRip int_num s - 88 ∧
      (∀ x, ¬ Within x (pushedRip int_num s - 88) 88 → called.mem x = s.mem x) ∧
      stack_frame_err_t.read called (called.regs .rdi) =
        { int_num := BitVec.ofNat 64 int_num
          error_code := if pushesErrorCode int_num then s.read (s.regs .rsp) else 0xdead
          rip := s.read (pushedRip int_num s)
          cs := s.read (pushedRip int_num s + 8)
          rflags := s.read (pushedRip int_num s + 16)
          rsp := s.read (pushedRip int_num s + 24)
          ss := s.read (pushedRip int_num s + 32) } ∧
      Steps (code table ra) (fun _ => handler) ⟨.call .high_interrupt_handler ra :: rest,called⟩ ⟨[.iretq],back⟩ ∧
      back.regs .rsp = pushedRip int_num s ∧ (∀ r ≠ .rsp, back.regs r = s.regs r) ∧
      ∀ x, ¬ Within x (pushedRip int_num s - BitVec.ofNat 64 (depth + 96)) (depth + 96) → back.mem x = s.mem x := by
  obtain ⟨m,enters,rsp,regs,vector,error,mem⟩ := arrives ra handler lt placed
  obtain ⟨rest,called,back,calls,rdi,rsp1,mem1,returns,rsp2,regs2,mem2⟩ := calls table ra obeys room m
  have end_ : back.regs .rsp = takenRip int_num s := by
    rw [rsp2,rsp,BitVec.sub_add_cancel]
  have pushes := (table_agrees int_num lt).mpr ((takenRip_eq lt s).mp rip)
  rw [rsp] at rdi rsp1 mem1 mem2
  rw [rip] at rdi rsp1 mem1 mem2 vector error mem end_
  -- Below `rip` only the saved context and what lies under it has changed; above it nothing.
  have kept : ∀ a, (∀ x, Within x a 8 → ¬ Within x (pushedRip int_num s - 16 - 72) 72) → called.read a = m.read a :=
    fun a away => State.read_congr fun x inside => mem1 x (away x inside)
  have above : ∀ k : Word, k.toNat ≤ 32 → called.read (pushedRip int_num s + k) = s.read (pushedRip int_num s + k) :=
    fun k small => by
      refine (kept _ fun x inside => ?_).trans (State.read_congr fun x inside => mem x ?_) <;>
        unfold Within at * <;> bv_omega
  refine ⟨rest,called,back,enters.trans calls,rsp1.trans (by bv_omega),fun x out => ?_,?_,returns,end_,
    fun r other => (regs2 r other).trans (regs r other),?_⟩
  · rw [mem1 x,mem x] <;> unfold Within at * <;> bv_omega
  · rw [rdi]
    simp only [stack_frame_err_t.read,stack_frame_err_t.mk.injEq]
    generalize pushedRip int_num s = R at *
    refine ⟨?_,?_,?_,?_,?_,?_,?_⟩
    · rw [kept _ fun x inside => ?_,vector]
      unfold Within at *
      bv_omega
    · rw [show R - 16 + 8 = R - 8 by bv_omega,kept _ fun x inside => ?_,error]
      · simp only [pushes]
      · unfold Within at *
        bv_omega
    · rw [show R - 16 + 16 = R + 0 by bv_omega,above 0 (by decide),show R + 0 = R by bv_omega]
    · rw [show R - 16 + 24 = R + 8 by bv_omega,above 8 (by decide)]
    · rw [show R - 16 + 32 = R + 16 by bv_omega,above 16 (by decide)]
    · rw [show R - 16 + 40 = R + 24 by bv_omega,above 24 (by decide)]
    · rw [show R - 16 + 48 = R + 32 by bv_omega,above 32 (by decide)]
  · intro x out
    have deep : pushedRip int_num s - 16 - BitVec.ofNat 64 (depth + 80) =
      pushedRip int_num s - BitVec.ofNat 64 (depth + 96) :=
      sub_ofNat _ (i := 16) (by omega)
    have deep' : pushedRip int_num s - 32 - BitVec.ofNat 64 (depth + 64) =
      pushedRip int_num s - BitVec.ofNat 64 (depth + 96) :=
      sub_ofNat _ (i := 32) (by omega)
    rw [deep] at mem2
    rw [mem2 x fun inside => out (inside.mono (by omega)),mem x fun inside => out ?_]
    rw [← deep']
    exact (within_below (by omega) inside).1.mono (by omega)

/-- Entry and exit are transparent exactly where the code finds the pushed `rip`. -/
theorem transparent_iff (obeys : Obeys handler depth) (room : depth + 96 ≤ 2 ^ 64) {int_num : Nat} (lt : int_num < 256)
    {s : State} (placed : TableAt table s) :
    Transparent table ra handler depth int_num s ↔ takenRip int_num s = pushedRip int_num s := by
  constructor
  · obtain ⟨m,enters,rsp,-,-,-,-⟩ := arrives ra handler lt placed
    obtain ⟨rest,called,back,calls,-,-,-,returns,rsp2,-,-⟩ := calls table ra obeys room m
    have end_ : back.regs .rsp = takenRip int_num s := by
      rw [rsp2,rsp,BitVec.sub_add_cancel]
    rintro ⟨rest',called',back',calls',-,returns',rsp',-,-⟩
    have other := Steps.stop ((enters.trans calls).trans returns) rfl (calls'.trans returns')
    rcases Relation.ReflTransGen.cases_head other with same | ⟨_,moved,_⟩
    · simp only [Cpu.mk.injEq,true_and] at same
      rw [← end_,← rsp',same]
    · cases moved
  · intro rip
    obtain ⟨rest,called,back,enters,-,-,frame,returns⟩ := handed obeys room lt placed rip
    exact ⟨rest,called,back,enters,frame,returns⟩

/-- Entry and exit are transparent exactly for the vectors other than 29 and 30. -/
theorem interrupt_transparent (obeys : Obeys handler depth) (room : depth + 96 ≤ 2 ^ 64) {int_num : Nat}
    (lt : int_num < 256) {s : State} (placed : TableAt table s) :
    Transparent table ra handler depth int_num s ↔ int_num ≠ 29 ∧ int_num ≠ 30 :=
  (transparent_iff obeys room lt placed).trans (takenRip_eq lt s)

/-- A handler that returns at once. -/
def retq (s : State) : State := s.set .rsp (s.regs .rsp + 8)
/-- A machine with its stack at 0x1000 and the table at 0x2000. -/
def machine : State where
  regs r := if r = .rsp then 0x1000 else 0
  zf := false
  intr := true
  mem a := no_err_code.getD (a - 0x2000).toNat 0

theorem retq_obeys : Obeys retq 0 where
  rsp s := State.set_regs s _ _
  saved s r saved := by
    have away : r ≠ .rsp := fun same => by simp [same,calleeSaved] at saved
    exact State.set_regs_ne s _ away
  mem _ _ _ := rfl

theorem machine_table : TableAt 0x2000 machine where
  loaded i lt := by
    change no_err_code.getD (0x2000 + BitVec.ofNat 64 i - 0x2000).toNat 0 = _
    rw [(within_add 0x2000 (n := 256) lt (by omega)).1]
  apart i lt := by
    change ¬ (0x2000 + BitVec.ofNat 64 i - (0x1000 - 24)).toNat < 24
    bv_omega

/-- A page fault. -/
theorem interrupt_transparent_fault : Transparent 0x2000 0x3000 retq 0 14 machine :=
  (interrupt_transparent retq_obeys (by decide) (by decide) machine_table).mpr (by decide)

/-- Vector 29 comes with an error code, but its table entry says that it does not. -/
theorem error_code_missed :
    ¬ ∀ int_num < 256, ∀ handler, Obeys handler 0 → Transparent 0x2000 0x3000 handler 0 int_num machine := by
  intro transparent
  have called := transparent 29 (by decide) retq retq_obeys
  have rip := (transparent_iff retq_obeys (by decide) (by decide) machine_table).mp called
  exact absurd rip (by decide +kernel)

end
end Bootcode.Interrupt
