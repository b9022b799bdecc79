import Bootcode.Console
import Bootcode.Identity
import Bootcode.Interrupt
import Bootcode.PrintfInteger

/-!
What `interrupt.c` does with an interrupt. Vector 0x40 is the kick of another vCPU
and is only acknowledged; every other is reported on the serial port before the vCPU
exits to the host. A report can be read: the frame that the CPU pushed is in its
lines, and for a page fault the error code and CR2 once more. Every line is a call
of `printf_`, so that nothing is reported while the mutex of the serial port is taken.
-/
namespace Bootcode.Report
open Bootcode.Printf Bootcode.PrintfText Bootcode.PrintfIso Bootcode.PrintfInteger Bootcode.Interrupt
open Bootcode.X86 hiding Word
open Bootcode.Private (run)

abbrev Word := BitVec 64

/-! ### The code -/

def PIC1_CMD : Nat := 0x20
def PIC2_CMD : Nat := 0xA0
def PIC_EOI : Nat := 0x20
def PIC_REMAP : Word := 0x20

/-- What a handler does beside printing: a store to `apic->eoi`, `outb`, the instruction
    `hlt`, and `halt()`, the exit to the host through `PORT_HLT`. -/
inductive Act
  | eoi
  | outb (port val : Nat)
  | hlt
  | halt
  deriving DecidableEq

/-- The mutex of the serial port and what it has sent, and what has been done, the newest
    first. -/
structure Devices where
  mutex_printf : Word
  sent : List Char
  acts : List Act

def Devices.act (d : Devices) (a : Act) : Devices := { d with acts := a :: d.acts }

def pf_err_code : List String :=
  ["0:nopresent",
   "@R/W",
   "@S/U",
   "1:RSV, reserved field read 1, cond:cr4.pse,pae",
   "@D/I,cond:cr4,nxe,pae",
   "1:MPK Violation,cond:cr4.pke",
   "1:shadow stack access, cr4.cet",
   "1:rmp violation,cond:syscgf[securenestedpaging]"]

/-- What the handlers read beside the state at their call: the strings,
    `&pf_err_code[i][0]`, `kern_stack` and CR2. `frame` is how far below the `rsp` of the
    call the code of `get_id` finds it. -/
structure Machine where
  env : Env
  code_at : Nat → Word
  kern_stack : Word
  frame : Nat
  cr2 : Word

section
variable (m : Machine) (sf : stack_frame_err_t)

/-- `printf`; `none` where it reads what it may not, or where the mutex is taken and
    stays so. -/
def print (d : Devices) (format : List Char) (args : List Word) : Option Devices :=
  if d.mutex_printf = 0 then (printf m.env d.sent (format ++ [NUL]) ⟨args,[]⟩).toOption.map fun r => { d with sent := r.1 }
  else none

def null_func (d : Devices) : Option Devices := print m d "null_func\n".toList []
def test_ipi (d : Devices) : Option Devices := some (d.act .eoi)

/-- One round of the loop of `page_fault_handler`. -/
def faultBit (d : Devices) (i : Nat) : Option Devices :=
  match m.env.mem (m.code_at i) with
  | [] => none
  | c :: _ =>
    if sf.error_code &&& (1 : Word) <<< i ≠ 0 then
      if c ≠ '0' then print m d "Bit %d = 1: %s\n".toList [BitVec.ofNat 64 i,m.code_at i] else some d
    else if c = '0' then print m d "Bit %d = 0: %s\n".toList [BitVec.ofNat 64 i,m.code_at i] else some d
def page_fault_handler (d : Devices) : Option Devices := do
  let d ← print m d "Page Fault:\n".toList []
  let d ← (List.range 8).foldlM (faultBit m sf) d
  let d ← print m d "CR2 = %016llX\n".toList [m.cr2]
  print m d "\n".toList []

/-- `PIC_sendEOI(irq)` of `pic.c`. -/
def PIC_sendEOI (irq : BitVec 8) (d : Devices) : Devices :=
  let d := if irq.toNat ≥ 8 then d.act (.outb PIC2_CMD PIC_EOI) else d
  d.act (.outb PIC1_CMD PIC_EOI)
def pic_handler (d : Devices) : Option Devices := some (PIC_sendEOI ((sf.int_num - PIC_REMAP).setWidth 8) d)

def handler_0x80 (d : Devices) : Option Devices := print m d "0x80 handler\n".toList []
def handler_0x81 (d : Devices) : Option Devices := do
  let d ← print m d "Halting in 0x81 Handler\n".toList []
  return d.act .hlt
def handler_0x82 (d : Devices) : Option Devices := some d

/-- `int_func[int_num](sf)`, if the table has such an entry. -/
def int_func (int_num : Nat) (d : Devices) : Option Devices :=
  if int_num < 256 then
    match int_num with
    | 0x0e => page_fault_handler m sf d
    | 0x20 | 0x21 => pic_handler sf d
    | 0x40 => test_ipi d
    | 0x80 => handler_0x80 m d
    | 0x81 => handler_0x81 m d
    | 0x82 => handler_0x82 d
    | _ => null_func m d
  else none

/-- `get_id()` of a handler called in state `s`. -/
def get_id (s : State) : BitVec 8 :=
  (run Identity.get_id.asm s.mem ⟨Function.update s.regs .rsp (s.regs .rsp - BitVec.ofNat 64 m.frame),0,false,0,0,0⟩).elim 0
    fun r => Identity.get_id.ret (r.2.regs .rax)

/-- The argument is in `rdi`. -/
def high_interrupt_handler (s : State) (d : Devices) : Option Devices :=
  let sf := stack_frame_err_t.read s (s.regs .rdi)
  if sf.int_num = 0x40 then some (d.act .eoi)
  else do
    let my_id := get_id m s
    let d ← print m d "%08X %08X\n".toList [s.read m.kern_stack,s.read (m.kern_stack + 2048)]
    let d ← print m d "id         = %d\n".toList [my_id.setWidth 64]
    let d ← print m d "int_num    = %016llX\n".toList [sf.int_num]
    let d ← print m d "error_code = %016llX\n".toList [sf.error_code]
    let d ← print m d "rip        = %016llX\n".toList [sf.rip]
    let d ← print m d "cs         = %016llX\n".toList [sf.cs]
    let d ← print m d "rflags     = %016llX\n".toList [sf.rflags]
    let d ← print m d "rsp        = %016llX\n".toList [sf.rsp]
    let d ← print m d "ss         = %016llX\n".toList [sf.ss]
    let d ← int_func m sf sf.int_num.toNat d
    return d.act .halt

end

/-- The lines of a text that ends with a newline. -/
def lines : List Char → List (List Char)
  | [] => []
  | c :: cs =>
    if c = '\n' then [] :: lines cs
    else
      match lines cs with
      | [] => [[c]]
      | l :: ls => (c :: l) :: ls

def Inline (l : List Char) : Prop := ∀ c ∈ l, c ≠ NUL ∧ c ≠ '\n'

instance (l : List Char) : Decidable (Inline l) := List.decidableBAll _ l

theorem lines_append {l : List Char} (inline : Inline l) (cs : List Char) : lines (l ++ '\n' :: cs) = l :: lines cs := by
  induction l with
  | nil => rfl
  | cons c l ih =>
    rw [List.cons_append,lines,if_neg (inline c (.head _)).2,ih fun c member => inline c (.tail _ member)]

theorem lines_flatMap {ls : List (List Char)} (inline : ∀ l ∈ ls, Inline l) : lines (ls.flatMap (· ++ ['\n'])) = ls := by
  induction ls with
  | nil => rfl
  | cons l ls ih =>
    rw [List.flatMap_cons,List.append_assoc,List.singleton_append,lines_append (inline l (.head _)),
      ih fun l member => inline l (.tail _ member)]

/-- Whole lines are sent. -/
def Devices.sends (d : Devices) (ls : List (List Char)) : Devices := { d with sent := d.sent ++ ls.flatMap (· ++ ['\n']) }

@[simp] theorem Devices.sends_sends (d : Devices) (ls ls' : List (List Char)) :
    (d.sends ls).sends ls' = d.sends (ls ++ ls') := by
  simp [Devices.sends]
@[simp] theorem Devices.sends_nil (d : Devices) : d.sends [] = d := by simp [Devices.sends]
@[simp] theorem Devices.sends_mutex (d : Devices) (ls : List (List Char)) :
    (d.sends ls).mutex_printf = d.mutex_printf := rfl

section
variable (m : Machine) (d : Devices)

theorem print_line (free : d.mutex_printf = 0) {format l : List Char} {args : List Word}
    (said : text m.env (format ++ [NUL]) ⟨args,[]⟩ = .ok (l ++ ['\n'],⟨[],[]⟩)) (inline : Inline l) :
    print m d format args = some (d.sends [l]) := by
  have whole : (l ++ ['\n']).filter (· ≠ NUL) = l ++ ['\n'] := by
    refine List.filter_eq_self.mpr fun c member => ?_
    rcases List.mem_append.mp member with inside | last
    · simpa using (inline c inside).1
    · rw [List.mem_singleton.mp last]
      decide
  simp only [print,if_pos free,printf_sent,said,Except.map,whole]
  simp [Except.toOption,Devices.sends]

end

section
variable {m : Machine} {ι : Type} (id : ι → Nat) (i : ι) (log : List (ι × Console.Call)) {d : Devices}
    (format : List Char) (args : List Word)

/-- `print` is `printf_` on a vCPU that has the serial port to itself. -/
theorem print_alone {d' : Devices} (ran : print m d format args = some d') :
    Console.Alone m.env id i (⟨d.mutex_printf,d.sent,log⟩,⟨.idle,[⟨format ++ [NUL],⟨args,[]⟩⟩]⟩)
      (⟨d'.mutex_printf,d'.sent,(i,⟨format ++ [NUL],⟨args,[]⟩⟩) :: log⟩,⟨.idle,[]⟩) := by
  unfold print at ran
  split at ran
  · rename_i free
    cases said : printf m.env d.sent (format ++ [NUL]) ⟨args,[]⟩ with
    | error fault =>
      rw [said] at ran
      cases ran
    | ok r =>
      rw [said] at ran
      cases ran
      have sends : Console.Alone m.env id i (⟨d.mutex_printf,d.sent,log⟩,⟨.idle,[⟨format ++ [NUL],⟨args,[]⟩⟩]⟩) _ :=
        Console.alone_prints free said []
      rwa [← free] at sends
  · cases ran

/-- With the mutex taken it comes to nothing: the vCPU waits. -/
theorem print_waits (taken : d.mutex_printf ≠ 0) : print m d format args = none ∧
    ∀ c, Console.Alone m.env id i (⟨d.mutex_printf,d.sent,log⟩,⟨.idle,[⟨format ++ [NUL],⟨args,[]⟩⟩]⟩) c →
      c.1 = ⟨d.mutex_printf,d.sent,log⟩ :=
  ⟨if_neg taken,fun _ reach => (Console.alone_waits taken reach).1⟩

end

theorem Inline.append {l l' : List Char} (inline : Inline l) (inline' : Inline l') : Inline (l ++ l') := fun c member =>
  (List.mem_append.mp member).elim (inline c) (inline' c)

theorem inline_body {base : Nat} (two : 2 ≤ base) (most : base ≤ 16) (n : Nat) (uppercase : Bool) (precision : Option Nat) :
    Inline (iso_body n base uppercase precision) := by
  have all : ∀ u : Bool, ∀ d < 16, digit_char u d ≠ NUL ∧ digit_char u d ≠ '\n' := by decide
  intro c member
  rcases List.mem_append.mp member with zero | digit
  · rw [List.eq_of_mem_replicate zero]
    decide
  · split at digit
    · cases digit
    · obtain ⟨d,inside,rfl⟩ := List.mem_map.mp (List.mem_reverse.mp digit)
      exact all uppercase d ((digits_lt two inside).trans_le most)

/-- What may stand in a format before its directive. -/
def Label (label : List Char) : Prop := ∀ c ∈ label, c ≠ NUL ∧ c ≠ '\n' ∧ c ≠ '%'

instance (label : List Char) : Decidable (Label label) := List.decidableBAll _ label

theorem Label.inline {label : List Char} (plain : Label label) : Inline label := fun c member =>
  ⟨(plain c member).1,(plain c member).2.1⟩
theorem Label.text {label : List Char} (plain : Label label) (env : Env) (format : List Char) (va : VaList) :
    text env (label ++ format) va = (text env format va).map fun r => (label ++ r.1,r.2) :=
  text_label env (fun c member => ⟨(plain c member).1,(plain c member).2.2⟩) format va

/-- A word, and its low half, as they are printed. -/
def hex (x : Word) : List Char := iso_body x.toNat 16 true (some 16)
def half (x : Word) : List Char := iso_body (part false x) 16 true (some 8)

section
variable (m : Machine) (d : Devices) (free : d.mutex_printf = 0) (label : List Char) (plain : Label label)
include free plain

theorem print_label : print m d (label ++ "\n".toList) [] = some (d.sends [label]) := by
  refine print_line m d free ?_ plain.inline
  rw [List.append_assoc,plain.text]
  exact congrArg (Except.map fun r => (label ++ r.1,r.2)) (text_newline m.env)

theorem print_hex (x : Word) :
    print m d (label ++ "%016llX\n".toList) [x] = some (d.sends [label ++ hex x]) := by
  refine print_line m d free ?_ (plain.inline.append (inline_body (by decide) (by decide) _ _ _))
  rw [List.append_assoc,plain.text]
  have parsed : directive ("016llX\n".toList ++ [NUL]) ⟨[x],[]⟩ = .ok (zeroPadded true 16,"\n".toList ++ [NUL],⟨[x],[]⟩) := rfl
  have said := text_hex m.env (by omega) (by decide) parsed
  rw [text_newline] at said
  refine (congrArg (Except.map fun r => (label ++ r.1,r.2)) said).trans ?_
  simp [Except.map,part,hex]

theorem print_dec {x : Word} (small : x.toNat < 2 ^ 31) :
    print m d (label ++ "%d\n".toList) [x] = some (d.sends [label ++ iso_body x.toNat 10 false none]) := by
  refine print_line m d free ?_ (plain.inline.append (inline_body (by decide) (by decide) _ _ _))
  rw [List.append_assoc,plain.text]
  have parsed : directive ("d\n".toList ++ [NUL]) ⟨[x],[]⟩ = .ok (⟨{},0,0,'d'⟩,"\n".toList ++ [NUL],⟨[x],[]⟩) := rfl
  have said := text_dec m.env small parsed
  rw [text_newline] at said
  refine (congrArg (Except.map fun r => (label ++ r.1,r.2)) said).trans ?_
  simp [Except.map]

end

/-- The array `pf_err_code` is in memory. -/
def Strings (m : Machine) : Prop := ∀ i < 8, ∃ tail, m.env.mem (m.code_at i) = (pf_err_code.getD i "").toList ++ NUL :: tail

section
variable (m : Machine) (slots : Word × Word) (id : BitVec 8) (sf : stack_frame_err_t)

def frameLines : List (List Char) :=
  [half slots.1 ++ ' ' :: half slots.2,
   "id         = ".toList ++ iso_body id.toNat 10 false none,
   "int_num    = ".toList ++ hex sf.int_num,
   "error_code = ".toList ++ hex sf.error_code,
   "rip        = ".toList ++ hex sf.rip,
   "cs         = ".toList ++ hex sf.cs,
   "rflags     = ".toList ++ hex sf.rflags,
   "rsp        = ".toList ++ hex sf.rsp,
   "ss         = ".toList ++ hex sf.ss]

def faultLine (i : Nat) : List Char :=
  "Bit ".toList ++ iso_body i 10 false none ++ (if i = 0 then " = 0: " else " = 1: ").toList ++ (pf_err_code.getD i "").toList
def bitLines (i : Nat) : List (List Char) := if sf.error_code.getLsbD i = decide (i ≠ 0) then [faultLine i] else []
def faultLines : List (List Char) :=
  "Page Fault:".toList :: ((List.range 8).flatMap (bitLines sf) ++ ["CR2 = ".toList ++ hex m.cr2,[]])

variable {m slots id sf} (d : Devices) (free : d.mutex_printf = 0)

include free in
theorem print_halves (x y : Word) : print m d "%08X %08X\n".toList [x,y] = some (d.sends [half x ++ ' ' :: half y]) := by
  have space : Label [' '] := by decide
  have inline : Inline (half x ++ ([' '] ++ half y)) :=
    (inline_body (by decide) (by decide) _ _ _).append (space.inline.append (inline_body (by decide) (by decide) _ _ _))
  refine print_line m d free ?_ inline
  have first : directive ("08X %08X\n".toList ++ [NUL]) ⟨[x,y],[]⟩ =
      .ok (zeroPadded false 8," %08X\n".toList ++ [NUL],⟨[x,y],[]⟩) := rfl
  have second : directive ("08X\n".toList ++ [NUL]) ⟨[y],[]⟩ = .ok (zeroPadded false 8,"\n".toList ++ [NUL],⟨[y],[]⟩) := rfl
  have said := text_hex m.env (by omega) (by decide) second
  rw [text_newline] at said
  have behind : text m.env (" %08X\n".toList ++ [NUL]) ⟨[y],[]⟩ = .ok (' ' :: half y ++ ['\n'],⟨[],[]⟩) :=
    (space.text m.env ("%08X\n".toList ++ [NUL]) _).trans (congrArg (Except.map fun r => ([' '] ++ r.1,r.2)) said)
  have both := text_hex m.env (by omega) (by decide) first
  rw [behind] at both
  refine both.trans ?_
  simp [Except.map,half]

include free in
theorem high_interrupt_handler_eq {s : State} (frame : stack_frame_err_t.read s (s.regs .rdi) = sf)
    (unexpected : sf.int_num ≠ 0x40) :
    high_interrupt_handler m s d = (int_func m sf sf.int_num.toNat
      (d.sends (frameLines (s.read m.kern_stack,s.read (m.kern_stack + 2048)) (get_id m s) sf))).map (·.act .halt) := by
  have small : ((get_id m s).setWidth 64).toNat = (get_id m s).toNat := by
    have lt := (get_id m s).isLt
    rw [BitVec.toNat_setWidth]
    omega
  have id : ∀ d, d.mutex_printf = 0 → print m d "id         = %d\n".toList [(get_id m s).setWidth 64] = _ := fun d free =>
    print_dec m d free "id         = ".toList (by decide) (by omega)
  have int_num : ∀ d, d.mutex_printf = 0 → print m d "int_num    = %016llX\n".toList [sf.int_num] = _ := fun d free =>
    print_hex m d free "int_num    = ".toList (by decide) sf.int_num
  have error_code : ∀ d, d.mutex_printf = 0 → print m d "error_code = %016llX\n".toList [sf.error_code] = _ := fun d free =>
    print_hex m d free "error_code = ".toList (by decide) sf.error_code
  have rip : ∀ d, d.mutex_printf = 0 → print m d "rip        = %016llX\n".toList [sf.rip] = _ := fun d free =>
    print_hex m d free "rip        = ".toList (by decide) sf.rip
  have cs : ∀ d, d.mutex_printf = 0 → print m d "cs         = %016llX\n".toList [sf.cs] = _ := fun d free =>
    print_hex m d free "cs         = ".toList (by decide) sf.cs
  have rflags : ∀ d, d.mutex_printf = 0 → print m d "rflags     = %016llX\n".toList [sf.rflags] = _ := fun d free =>
    print_hex m d free "rflags     = ".toList (by decide) sf.rflags
  have rsp : ∀ d, d.mutex_printf = 0 → print m d "rsp        = %016llX\n".toList [sf.rsp] = _ := fun d free =>
    print_hex m d free "rsp        = ".toList (by decide) sf.rsp
  have ss : ∀ d, d.mutex_printf = 0 → print m d "ss         = %016llX\n".toList [sf.ss] = _ := fun d free =>
    print_hex m d free "ss         = ".toList (by decide) sf.ss
  have halves : ∀ d, d.mutex_printf = 0 → ∀ x y, print m d "%08X %08X\n".toList [x,y] = _ := fun d free => print_halves d free
  rw [small] at id
  rw [high_interrupt_handler]
  simp only [frame,if_neg unexpected,Option.bind_eq_bind,Option.bind_some,halves,id,int_num,error_code,rip,cs,rflags,rsp,ss,
    Devices.sends_mutex,free,Devices.sends_sends]
  exact Option.map_eq_bind.symm

include free in
/-- `"Bit %d = 0: %s\n"` and `"Bit %d = 1: %s\n"`. -/
theorem print_bit {v : List Char} (plain : Label v) {i : Nat} (small : i < 8) {p : Word} {s tail : List Char}
    (inline : Inline s) (string : m.env.mem p = s ++ NUL :: tail)
    (parsed : ∀ x, directive ('d' :: v ++ "%s\n".toList ++ [NUL]) ⟨[x,p],[]⟩ =
      .ok (⟨{},0,0,'d'⟩,v ++ ("%s\n".toList ++ [NUL]),⟨[x,p],[]⟩)) :
    print m d ("Bit %d".toList ++ v ++ "%s\n".toList) [BitVec.ofNat 64 i,p] =
      some (d.sends ["Bit ".toList ++ (iso_body i 10 false none ++ (v ++ s))]) := by
  have label : Label "Bit ".toList := by decide
  have number : (BitVec.ofNat 64 i).toNat = i := by
    rw [BitVec.toNat_ofNat]
    omega
  have digits : Inline (iso_body i 10 false none) := inline_body (by decide) (by decide) _ _ _
  refine print_line m d free ?_ (label.inline.append (digits.append (plain.inline.append inline)))
  -- The format from its end: the string, the number, and what is before it.
  have second : directive ("s\n".toList ++ [NUL]) ⟨[p],[]⟩ = .ok (⟨{},0,0,'s'⟩,"\n".toList ++ [NUL],⟨[p],[]⟩) := rfl
  have said := text_string m.env (fun member => (inline NUL member).1 rfl) string second
  rw [text_newline] at said
  have behind : text m.env (v ++ ("%s\n".toList ++ [NUL])) ⟨[p],[]⟩ = .ok (v ++ (s ++ ['\n']),⟨[],[]⟩) :=
    (plain.text m.env _ _).trans (congrArg (Except.map fun r => (v ++ r.1,r.2)) said)
  have told := text_dec m.env (by rw [number]; omega) (parsed (BitVec.ofNat 64 i))
  rw [behind,number] at told
  have whole := (label.text m.env ('%' :: ('d' :: v ++ "%s\n".toList ++ [NUL])) ⟨[BitVec.ofNat 64 i,p],[]⟩).trans
    (congrArg (Except.map fun r => ("Bit ".toList ++ r.1,r.2)) told)
  have format : "Bit %d".toList ++ v ++ "%s\n".toList ++ [NUL] = "Bit ".toList ++ '%' :: ('d' :: v ++ "%s\n".toList ++ [NUL]) := rfl
  rw [format,whole]
  simp [Except.map]

theorem and_bit (x : Word) {i : Nat} (small : i < 64) : x &&& (1 : Word) <<< i ≠ 0 ↔ x.getLsbD i = true := by
  have only : x &&& (1 : Word) <<< i = if x.getLsbD i then (1 : Word) <<< i else 0 := BitVec.and_twoPow x i
  have nonzero : (1 : Word) <<< i ≠ 0 := by
    intro same
    have lost := congrArg (·.getLsbD i) same
    simp [small] at lost
  by_cases set : x.getLsbD i = true
  · rw [only,if_pos set]
    exact iff_of_true nonzero set
  · rw [only,if_neg set]
    exact iff_of_false (fun some => some rfl) set

include free in
theorem faultBit_eq (strings : Strings m) {i : Nat} (small : i < 8) :
    faultBit m sf d i = some (d.sends (bitLines sf i)) := by
  have plain : ∀ i < 8, Inline (pf_err_code.getD i "").toList := by decide
  have first : ∀ i < 8, ∃ c s, (pf_err_code.getD i "").toList = c :: s ∧ (c = '0' ↔ i = 0) := by
    have all : ∀ i < 8, (pf_err_code.getD i "").toList = (pf_err_code.getD i "").toList.head! :: (pf_err_code.getD i "").toList.tail ∧
        ((pf_err_code.getD i "").toList.head! = '0' ↔ i = 0) := by decide
    exact fun i small => ⟨_,_,all i small⟩
  obtain ⟨tail,string⟩ := strings i small
  obtain ⟨c,s,head,zero⟩ := first i small
  have clear := print_bit (m := m) d free (v := " = 0: ".toList) (by decide) small (plain i small) string fun _ => rfl
  have set := print_bit (m := m) d free (v := " = 1: ".toList) (by decide) small (plain i small) string fun _ => rfl
  have format0 : "Bit %d".toList ++ " = 0: ".toList ++ "%s\n".toList = "Bit %d = 0: %s\n".toList := rfl
  have format1 : "Bit %d".toList ++ " = 1: ".toList ++ "%s\n".toList = "Bit %d = 1: %s\n".toList := rfl
  rw [format0] at clear
  rw [format1] at set
  have some : m.env.mem (m.code_at i) = c :: (s ++ NUL :: tail) := by rw [string,head,List.cons_append]
  unfold faultBit
  rw [some]
  simp only [clear,set,and_bit sf.error_code (show i < 64 by omega),bitLines,faultLine,zero,ne_eq]
  by_cases none : i = 0
  · cases sf.error_code.getLsbD i <;> simp [none]
  · cases sf.error_code.getLsbD i <;> simp [none]

include free in
theorem bits_eq (strings : Strings m) {is : List Nat} (small : ∀ i ∈ is, i < 8) :
    is.foldlM (faultBit m sf) d = some (d.sends (is.flatMap (bitLines sf))) := by
  induction is generalizing d with
  | nil => simp
  | cons i is ih =>
    rw [List.foldlM_cons,faultBit_eq d free strings (small i (.head _)),Option.bind_eq_bind,Option.bind_some,
      ih (d.sends _) free fun j member => small j (.tail _ member),Devices.sends_sends,List.flatMap_cons]

include free in
theorem page_fault_handler_eq (strings : Strings m) : page_fault_handler m sf d = some (d.sends (faultLines m sf)) := by
  have title : ∀ d, d.mutex_printf = 0 → print m d "Page Fault:\n".toList [] = _ := fun d free =>
    print_label m d free "Page Fault:".toList (by decide)
  have cr2 : ∀ d, d.mutex_printf = 0 → print m d "CR2 = %016llX\n".toList [m.cr2] = _ := fun d free =>
    print_hex m d free "CR2 = ".toList (by decide) m.cr2
  have empty : ∀ d, d.mutex_printf = 0 → print m d "\n".toList [] = _ := fun d free => print_label m d free [] (by decide)
  have bits : ∀ d, d.mutex_printf = 0 → (List.range 8).foldlM (faultBit m sf) d = _ := fun d free =>
    bits_eq d free strings fun i => List.mem_range.mp
  simp only [page_fault_handler,Option.bind_eq_bind,Option.bind_some,title,bits,cr2,empty,Devices.sends_mutex,
    free,Devices.sends_sends]
  simp [faultLines]

theorem inline_fault : ∀ l ∈ faultLines m sf, Inline l := by
  have plain : ∀ i < 8, Inline (pf_err_code.getD i "").toList := by decide
  have title : Label "Page Fault:".toList := by decide
  have bit : Label "Bit ".toList := by decide
  have value : ∀ i, Label (if i = 0 then " = 0: " else " = 1: ").toList := fun i => by split <;> decide
  have cr2 : Label "CR2 = ".toList := by decide
  have number : ∀ i, Inline (iso_body i 10 false none) := fun i => inline_body (by decide) (by decide) _ _ _
  intro l member
  simp only [faultLines,List.mem_cons,List.mem_append,List.mem_flatMap,List.mem_range,List.not_mem_nil,or_false] at member
  rcases member with rfl | ⟨i,small,inside⟩ | rfl | rfl
  · exact title.inline
  · unfold bitLines at inside
    split at inside
    · rw [List.mem_singleton.mp inside,faultLine]
      exact ((bit.inline.append (number i)).append (value i).inline).append (plain i small)
    · cases inside
  · exact cr2.inline.append (inline_body (by decide) (by decide) _ _ _)
  · exact nofun

/-- What the entries of `int_func` do beside printing. -/
def acknowledged (int_num : Nat) : List Act :=
  if int_num = 0x20 ∨ int_num = 0x21 then [.outb PIC1_CMD PIC_EOI] else if int_num = 0x81 then [.hlt] else []

include free in
theorem int_func_eq (strings : Strings m) {int_num : Nat} (lt : int_num < 256) (vector : sf.int_num.toNat = int_num)
    (unexpected : int_num ≠ 0x40) : ∃ ls, (∀ l ∈ ls, Inline l) ∧ (int_num = 14 → ls = faultLines m sf) ∧
      int_func m sf int_num d = some ⟨d.mutex_printf,(d.sends ls).sent,acknowledged int_num ++ d.acts⟩ := by
  have label : ∀ label, Label label → ∀ l ∈ [label], Inline l := fun label plain l member => by
    rw [List.mem_singleton.mp member]
    exact plain.inline
  have quiet : ∀ l ∈ ([] : List (List Char)), Inline l := nofun
  have pic : sf.int_num.toNat = 0x20 ∨ sf.int_num.toNat = 0x21 →
      pic_handler sf d = some ⟨d.mutex_printf,(d.sends []).sent,.outb PIC1_CMD PIC_EOI :: d.acts⟩ := by
    intro which
    have low : ¬ ((sf.int_num - PIC_REMAP).setWidth 8).toNat ≥ 8 := by
      have base : PIC_REMAP.toNat = 32 := rfl
      rw [BitVec.toNat_setWidth,BitVec.toNat_sub,base]
      omega
    rw [pic_handler,PIC_sendEOI,if_neg low,Devices.sends_nil]
    rfl
  unfold int_func
  rw [if_pos lt]
  split
  · exact ⟨faultLines m sf,inline_fault,fun _ => rfl,page_fault_handler_eq d free strings⟩
  · exact ⟨[],quiet,nofun,pic (.inl vector)⟩
  · exact ⟨[],quiet,nofun,pic (.inr vector)⟩
  · exact absurd rfl unexpected
  · exact ⟨["0x80 handler".toList],label _ (by decide),nofun,print_label m d free "0x80 handler".toList (by decide)⟩
  · refine ⟨["Halting in 0x81 Handler".toList],label _ (by decide),nofun,?_⟩
    have said : print m d "Halting in 0x81 Handler\n".toList [] = _ := print_label m d free "Halting in 0x81 Handler".toList (by decide)
    rw [handler_0x81,said]
    rfl
  · exact ⟨[],quiet,nofun,by rw [Devices.sends_nil]; rfl⟩
  · rename_i fault pic0 pic1 _ _ halting _
    refine ⟨["null_func".toList],label _ (by decide),fun same => absurd same fault,?_⟩
    have none : acknowledged int_num = [] := by
      rw [acknowledged,if_neg fun which => which.elim pic0 pic1,if_neg halting]
    rw [none]
    exact print_label m d free "null_func".toList (by decide)

end

/-! ### Reading a report -/

/-- The word in a line, behind so many characters. -/
def told (label : Nat) (l : List Char) : Word := BitVec.ofNat 64 (number 16 (l.drop label))
def readFrame (ls : List (List Char)) : stack_frame_err_t :=
  ⟨told 13 (ls.getD 2 []),told 13 (ls.getD 3 []),told 13 (ls.getD 4 []),told 13 (ls.getD 5 []),told 13 (ls.getD 6 []),
    told 13 (ls.getD 7 []),told 13 (ls.getD 8 [])⟩
def readId (ls : List (List Char)) : BitVec 8 := BitVec.ofNat 8 (number 10 ((ls.getD 1 []).drop 13))
/-- The first word of each of the two arrays, modulo 2^32. -/
def readStacks (ls : List (List Char)) : Nat × Nat := (number 16 ((ls.getD 0 []).take 8),number 16 ((ls.getD 0 []).drop 9))
/-- How the line of a bit begins: bit 0 is told when it is clear, the others when set. -/
def mark (i : Nat) : List Char := "Bit ".toList ++ digit_char false i :: (if i = 0 then " = 0: " else " = 1: ").toList
def readBit (ls : List (List Char)) (i : Nat) : Bool := (ls.drop 10).any ((mark i).isPrefixOf ·) == decide (i ≠ 0)
/-- CR2 is in the last line but one. -/
def readCr2 (ls : List (List Char)) : Word := told 6 (ls.reverse.getD 1 [])

/-- A report says what the vCPU found: two words of `kern_stack`, its number, the frame
    and CR2. -/
structure Reports (slots : Word × Word) (id : BitVec 8) (sf : stack_frame_err_t) (cr2 : Word) (said : List Char) :
    Prop where
  slots : readStacks (lines said) = (slots.1.toNat % 2 ^ 32,slots.2.toNat % 2 ^ 32)
  id : readId (lines said) = id
  frame : readFrame (lines said) = sf
  fault : sf.int_num = 14 → (∀ i < 8, readBit (lines said) i = sf.error_code.getLsbD i) ∧ readCr2 (lines said) = cr2

section
variable {m : Machine} {slots : Word × Word} {id : BitVec 8} {sf : stack_frame_err_t}

theorem told_hex {label : List Char} {k : Nat} (length : label.length = k) (x : Word) : told k (label ++ hex x) = x := by
  rw [told,← length,List.drop_left,hex,number_body (by omega) (by omega),BitVec.ofNat_toNat,BitVec.setWidth_eq]

theorem readFrame_lines (ls : List (List Char)) : readFrame (frameLines slots id sf ++ ls) = sf := by
  show stack_frame_err_t.mk (told 13 ("int_num    = ".toList ++ hex sf.int_num)) (told 13 ("error_code = ".toList ++ hex sf.error_code))
    (told 13 ("rip        = ".toList ++ hex sf.rip)) (told 13 ("cs         = ".toList ++ hex sf.cs))
    (told 13 ("rflags     = ".toList ++ hex sf.rflags)) (told 13 ("rsp        = ".toList ++ hex sf.rsp))
    (told 13 ("ss         = ".toList ++ hex sf.ss)) = sf
  simp (disch := decide) only [told_hex]

theorem readId_lines (ls : List (List Char)) : readId (frameLines slots id sf ++ ls) = id := by
  have line : number 10 (iso_body id.toNat 10 false none) = id.toNat := number_body (by omega) (by omega) ..
  show BitVec.ofNat 8 (number 10 (("id         = ".toList ++ iso_body id.toNat 10 false none).drop 13)) = id
  rw [List.drop_left' (by decide),line,BitVec.ofNat_toNat,BitVec.setWidth_eq]

theorem half_length (x : Word) : (half x).length = 8 := by
  have lt : part false x < 16 ^ 8 := by
    have lt := Nat.mod_lt x.toNat (show 0 < 2 ^ 32 by omega)
    exact lt
  have few : (digits 16 (part false x)).length ≤ 8 := by
    unfold digits
    split
    · decide
    · exact (Nat.digits_length_le_iff (by omega) _).mpr lt
  simp [half,iso_body]
  omega

theorem readStacks_lines (ls : List (List Char)) :
    readStacks (frameLines slots id sf ++ ls) = (slots.1.toNat % 2 ^ 32,slots.2.toNat % 2 ^ 32) := by
  have value : ∀ x, number 16 (half x) = x.toNat % 2 ^ 32 := fun x => number_body (by omega) (by omega) ..
  show (number 16 ((half slots.1 ++ ' ' :: half slots.2).take 8),
    number 16 ((half slots.1 ++ ' ' :: half slots.2).drop 9)) = _
  have first : (half slots.1 ++ ' ' :: half slots.2).take 8 = half slots.1 := List.take_left' (half_length _)
  have second : (half slots.1 ++ ' ' :: half slots.2).drop 9 = half slots.2 := by
    rw [List.append_cons]
    exact List.drop_left' (by simp [half_length])
  rw [first,second,value,value]

theorem mark_faultLine {i j : Nat} (small : i < 8) (small' : j < 8) :
    (mark i).isPrefixOf (faultLine j) = decide (i = j) := by
  have one : iso_body j 10 false none = [digit_char false j] := by
    have ds : digits 10 j = [j] := by
      unfold digits
      split
      · rename_i zero
        rw [zero]
      · rename_i nonzero
        exact Nat.digits_of_lt 10 j nonzero (by omega)
    simp [iso_body,ds]
  have all : ∀ i < 8, ∀ j < 8, (mark i).isPrefixOf ("Bit ".toList ++ [digit_char false j] ++
      (if j = 0 then " = 0: " else " = 1: ").toList ++ (pf_err_code.getD j "").toList) = decide (i = j) := by decide
  rw [faultLine,one]
  exact all i small j small'

theorem readBit_lines {i : Nat} (small : i < 8) : readBit (frameLines slots id sf ++ faultLines m sf) i =
    sf.error_code.getLsbD i := by
  have other : ∀ i < 8, (mark i).isPrefixOf [] = false ∧ ∀ l, (mark i).isPrefixOf ("CR2 = ".toList ++ l) = false := by
    intro i small
    exact ⟨rfl,fun l => rfl⟩
  have bits : ((List.range 8).flatMap (bitLines sf)).any ((mark i).isPrefixOf ·) =
      decide (sf.error_code.getLsbD i = decide (i ≠ 0)) := by
    rw [Bool.eq_iff_iff,List.any_eq_true,decide_eq_true_eq]
    constructor
    · rintro ⟨l,member,begins⟩
      obtain ⟨j,inside,member⟩ := List.mem_flatMap.mp member
      unfold bitLines at member
      split at member
      · rename_i told
        rw [List.mem_singleton.mp member,mark_faultLine small (List.mem_range.mp inside),decide_eq_true_eq] at begins
        rw [begins]
        exact told
      · cases member
    · intro told
      refine ⟨faultLine i,List.mem_flatMap.mpr ⟨i,List.mem_range.mpr small,?_⟩,?_⟩
      · rw [bitLines,if_pos told]
        exact .head _
      · rw [mark_faultLine small small,decide_eq_true rfl]
  have behind : (frameLines slots id sf ++ faultLines m sf).drop 10 =
      (List.range 8).flatMap (bitLines sf) ++ ["CR2 = ".toList ++ hex m.cr2,[]] := rfl
  rw [readBit,behind,List.any_append,bits]
  simp only [List.any_cons,List.any_nil,(other i small).1,(other i small).2,Bool.or_false]
  cases sf.error_code.getLsbD i <;> by_cases zero : i = 0 <;> simp [zero]

theorem readCr2_lines : readCr2 (frameLines slots id sf ++ faultLines m sf) = m.cr2 := by
  have last : (frameLines slots id sf ++ faultLines m sf).reverse.getD 1 [] = "CR2 = ".toList ++ hex m.cr2 := by
    simp [faultLines]
  rw [readCr2,last,told_hex (by decide)]

theorem inline_frame : ∀ l ∈ frameLines slots id sf, Inline l := by
  have word : ∀ {label}, Label label → ∀ x, Inline (label ++ hex x) := fun plain x =>
    plain.inline.append (inline_body (by decide) (by decide) _ _ _)
  have low : ∀ x, Inline (half x) := fun x => inline_body (by decide) (by decide) _ _ _
  have space : Label [' '] := by decide
  have id : Label "id         = ".toList := by decide
  intro l member
  simp only [frameLines,List.mem_cons,List.not_mem_nil,or_false] at member
  rcases member with rfl | rfl | rfl | rfl | rfl | rfl | rfl | rfl | rfl
  · exact (low _).append (space.inline.append (low _))
  · exact id.inline.append (inline_body (by decide) (by decide) _ _ _)
  all_goals exact word (by decide) _

/-- Every other vector is reported before the vCPU exits to the host. -/
theorem high_interrupt_handler_reports (strings : Strings m) {s : State}
    (frame : stack_frame_err_t.read s (s.regs .rdi) = sf)
    (lt : sf.int_num.toNat < 256) (unexpected : sf.int_num ≠ 0x40) {d : Devices} (free : d.mutex_printf = 0) :
    ∃ d' said, high_interrupt_handler m s d = some d' ∧ d'.mutex_printf = 0 ∧ d'.sent = d.sent ++ said ∧
      d'.acts = .halt :: (acknowledged sf.int_num.toNat ++ d.acts) ∧
      Reports (s.read m.kern_stack,s.read (m.kern_stack + 2048)) (get_id m s) sf m.cr2 said := by
  have other : sf.int_num.toNat ≠ 0x40 := fun same => unexpected (BitVec.eq_of_toNat_eq same)
  rw [high_interrupt_handler_eq d free frame unexpected]
  generalize (s.read m.kern_stack,s.read (m.kern_stack + 2048)) = slots
  generalize get_id m s = id
  obtain ⟨ls,inline,fault,ran⟩ := int_func_eq (d.sends (frameLines slots id sf)) free strings lt rfl other
  have whole : lines ((frameLines slots id sf ++ ls).flatMap (· ++ ['\n'])) = frameLines slots id sf ++ ls :=
    lines_flatMap fun l member => (List.mem_append.mp member).elim (inline_frame l) (inline l)
  rw [ran]
  refine ⟨_,(frameLines slots id sf ++ ls).flatMap (· ++ ['\n']),rfl,free,?_,rfl,?_⟩
  · simp [Devices.act,Devices.sends]
  · refine ⟨?_,?_,?_,fun page => ?_⟩
    · rw [whole,readStacks_lines]
    · rw [whole,readId_lines]
    · rw [whole,readFrame_lines]
    · rw [whole,fault (by rw [page]; rfl)]
      exact ⟨fun i small => readBit_lines small,readCr2_lines⟩

/-- It starts with a `printf`, which a taken mutex holds up. -/
theorem high_interrupt_handler_waits {s : State}
    (unexpected : (stack_frame_err_t.read s (s.regs .rdi)).int_num ≠ 0x40) {d : Devices}
    (taken : d.mutex_printf ≠ 0) : high_interrupt_handler m s d = none := by
  simp only [high_interrupt_handler,if_neg unexpected,print,if_neg taken]
  rfl

end

/-! ### From the CPU to the serial port -/

/-- What the CPU has pushed for an interrupt that finds the machine in state `s`. -/
def pushedFrame (int_num : Nat) (s : State) : stack_frame_err_t where
  int_num := BitVec.ofNat 64 int_num
  error_code := if pushesErrorCode int_num then s.read (s.regs .rsp) else 0xdead
  rip := s.read (pushedRip int_num s)
  cs := s.read (pushedRip int_num s + 8)
  rflags := s.read (pushedRip int_num s + 16)
  rsp := s.read (pushedRip int_num s + 24)
  ss := s.read (pushedRip int_num s + 32)

/-- The interrupt finds vCPU `id` on the page that `long_mode` has given it, with room for
    what the entry pushes and the frame of the handler; `kern_stack` is elsewhere. -/
structure OnStack (m : Machine) (page : Word) (pool id : BitVec 8) (int_num : Nat) (s : State) : Prop where
  aligned : page.toNat % 4096 = 0
  bottom : page.toNat + m.frame + 88 < (pushedRip int_num s).toNat
  top : (pushedRip int_num s).toNat ≤ page.toNat + 4088
  last : load s.mem (page + 4088) 8 = pool.setWidth 64 <<< 8 ||| id.setWidth 64
  apart : ∀ x, Within x page 4096 → ¬ Within x m.kern_stack 2056

section
variable {m : Machine} {page : Word} {pool id : BitVec 8} {int_num : Nat} {s called : State}
  (on : OnStack m page pool id int_num s) (mem : ∀ x, ¬ Within x (pushedRip int_num s - 88) 88 → called.mem x = s.mem x)
include on mem

/-- The handler looks up the number that `long_mode` has stored. -/
theorem get_id_called (rsp : called.regs .rsp = pushedRip int_num s - 88) : get_id m called = id := by
  obtain ⟨aligned,bottom,top,last,-⟩ := on
  have inside : Within (called.regs .rsp - BitVec.ofNat 64 m.frame - 1) page 4096 := by
    unfold Within
    rw [rsp]
    bv_omega
  have word : load called.mem (page + 4088) 8 = load s.mem (page + 4088) 8 := by
    refine load_congr (fun x member => mem x fun pushed => ?_) (by omega)
    unfold Within at member pushed
    bv_omega
  have place : Identity.lastWord (called.regs .rsp - BitVec.ofNat 64 m.frame - 1) = page + 4088 :=
    last_of_page aligned inside
  have looked := Identity.get_id_run called.mem
    ⟨Function.update called.regs .rsp (called.regs .rsp - BitVec.ofNat 64 m.frame),0,false,0,0,0⟩
  dsimp only at looked
  rw [Function.update_self,place,word,last,Option.map_eq_some_iff] at looked
  obtain ⟨r,ran,rax⟩ := looked
  rw [get_id,ran,Option.elim_some,rax,Identity.get_id_packed]

theorem kern_stack_called : called.read m.kern_stack = s.read m.kern_stack ∧
    called.read (m.kern_stack + 2048) = s.read (m.kern_stack + 2048) := by
  obtain ⟨aligned,bottom,top,-,apart⟩ := on
  have same : ∀ x, Within x m.kern_stack 2056 → called.mem x = s.mem x := fun x inside => mem x fun pushed => by
    refine apart x ?_ inside
    unfold Within at pushed ⊢
    bv_omega
  constructor <;> refine State.read_congr fun x inside => same x ?_ <;> unfold Within at inside ⊢ <;> bv_omega

end

/-- From the entry of its trampoline an interrupt comes to the handler. A kick it only
    acknowledges; otherwise it sends the number of the vCPU and the frame that the CPU has
    pushed if the mutex of the serial port is free, and waits for the mutex if it is not. -/
theorem interrupt_reported {table : Word} (ra : Word) {handler : State → State} {depth : Nat} (obeys : Obeys handler depth)
    (room : depth + 96 ≤ 2 ^ 64) {int_num : Nat} (lt : int_num < 256) (agrees : int_num ≠ 29 ∧ int_num ≠ 30) {s : State}
    (placed : TableAt table s) {m : Machine} (strings : Strings m) {page : Word} {pool id : BitVec 8}
    (on : OnStack m page pool id int_num s) (d : Devices) : ∃ rest called,
      Steps (code table ra) (fun _ => handler) ⟨code table ra (.trampoline int_num),s⟩
        ⟨.call .high_interrupt_handler ra :: rest,called⟩ ∧
      (int_num = 0x40 → high_interrupt_handler m called d = some (d.act .eoi)) ∧
      (int_num ≠ 0x40 → d.mutex_printf = 0 → ∃ d' said, high_interrupt_handler m called d = some d' ∧ d'.mutex_printf = 0 ∧
        d'.sent = d.sent ++ said ∧ d'.acts = .halt :: (acknowledged int_num ++ d.acts) ∧
        Reports (s.read m.kern_stack,s.read (m.kern_stack + 2048)) id (pushedFrame int_num s) m.cr2 said) ∧
      (int_num ≠ 0x40 → d.mutex_printf ≠ 0 → high_interrupt_handler m called d = none) := by
  obtain ⟨rest,called,-,enters,rsp,mem,frame,-⟩ := handed obeys room lt placed ((takenRip_eq lt s).mpr agrees)
  have same : stack_frame_err_t.read called (called.regs .rdi) = pushedFrame int_num s := frame
  have vector : (pushedFrame int_num s).int_num.toNat = int_num := by
    show (BitVec.ofNat 64 int_num).toNat = int_num
    rw [BitVec.toNat_ofNat]
    omega
  have other : int_num ≠ 0x40 → (pushedFrame int_num s).int_num ≠ 0x40 := fun unexpected same =>
    unexpected (vector.symm.trans (congrArg BitVec.toNat same))
  refine ⟨rest,called,enters,fun kick => ?_,fun unexpected free => ?_,fun unexpected taken => ?_⟩
  · have expected : (pushedFrame int_num s).int_num = 0x40 := BitVec.eq_of_toNat_eq (vector.trans kick)
    rw [high_interrupt_handler,same]
    exact if_pos expected
  · obtain ⟨d',said,ran,given,sent,acts,reports⟩ :=
      high_interrupt_handler_reports strings same (by omega) (other unexpected) free
    rw [vector] at acts
    rw [(kern_stack_called on mem).1,(kern_stack_called on mem).2,get_id_called on mem rsp] at reports
    exact ⟨d',said,ran,given,sent,acts,reports⟩
  · refine high_interrupt_handler_waits ?_ taken
    rw [same]
    exact other unexpected

/-- The strings, at small addresses. -/
def loaded : Machine where
  env := { silent with mem := fun p => (pf_err_code.getD p.toNat "").toList ++ [NUL] }
  code_at i := BitVec.ofNat 64 i
  kern_stack := 0x5000
  frame := 104
  cr2 := 0x1234

theorem loaded_strings : Strings loaded := by
  intro i small
  have back : (BitVec.ofNat 64 i).toNat = i := by
    rw [BitVec.toNat_ofNat]
    omega
  refine ⟨[],?_⟩
  show (pf_err_code.getD (BitVec.ofNat 64 i).toNat "").toList ++ [NUL] = _
  rw [back]

/-- vCPU 3 of 4 on the page at 0x4000, and the table at 0x2000. -/
def faulting : State := { machine.set .rsp 0x4f00 with mem := store (n := 8) machine.mem 0x4ff8 0x403 }

theorem faulting_table : TableAt 0x2000 faulting where
  loaded i lt := by
    have away : ¬ Within (0x2000 + BitVec.ofNat 64 i) 0x4ff8 8 := by
      unfold Within
      bv_omega
    exact (store_of_not_within (n := 8) _ away).trans (machine_table.loaded i lt)
  apart i lt := by
    change ¬ (0x2000 + BitVec.ofNat 64 i - (0x4f00 - 24)).toNat < 24
    bv_omega

theorem faulting_stack : OnStack loaded 0x4000 4 3 14 faulting where
  aligned := by decide
  bottom := by decide
  top := by decide
  last := load_store_same (n := 8) machine.mem 0x4ff8 0x403 (by omega)
  apart x inside := by
    unfold Within at *
    change ¬ (x - 0x5000).toNat < 2056
    bv_omega

/-- A page fault at 0x1234, with the mutex free and with the mutex taken. -/
theorem interrupt_reported_fault :
    (∃ d' : Devices, d'.acts = [.halt] ∧ readId (lines d'.sent) = 3 ∧ readFrame (lines d'.sent) = pushedFrame 14 faulting ∧
      readCr2 (lines d'.sent) = 0x1234) ∧
    ∃ called, high_interrupt_handler loaded called ⟨8,[],[]⟩ = none := by
  have reported := interrupt_reported 0x3000 retq_obeys (by decide) (show 14 < 256 by decide)
    (by decide) faulting_table loaded_strings
    faulting_stack
  obtain ⟨_,_,_,_,told,_⟩ := reported ⟨0,[],[]⟩
  obtain ⟨_,called,_,_,_,waits⟩ := reported ⟨8,[],[]⟩
  obtain ⟨d',said,_,_,sent,acts,reports⟩ := told (by decide) rfl
  rw [← show d'.sent = said from sent] at reports
  exact ⟨⟨d',acts,reports.id,reports.frame,(reports.fault rfl).2⟩,called,waits (by decide) (by decide)⟩

end Bootcode.Report
