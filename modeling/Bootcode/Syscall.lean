import Bootcode.Private

/-!
The system calls of any number of vCPUs, from `long_mode` on. A vCPU finds its slots
by `KERN_GS_BASE`, so it is right exactly if `long_mode` has written that MSR right;
then the entry keeps to the slots and the stack of its vCPU, and what the others do
at the same time does not matter.
-/
namespace Bootcode.Syscall
open Bootcode.X86 Bootcode.Interleave Bootcode.Private

def MSR_FS_BASE : Word := 0xC0000100
def MSR_KERN_GS_BASE : Word := 0xC0000102
def SHARED_RO_ADDR : Word := 0x40000000

/-- `DATA_DESC_64 - NULL_DESC_64`, and the base in that descriptor. -/
def dataSelector : Word := 16
def dataBase : Word := 0

section
variable (kern_stack tsc aux : Word)

/-- `rbx` gets the address of `kern_stack[id]`, which `r10` has in its low byte. -/
def findSlot : List Micro :=
  [rdtscp tsc aux,
   movq .rax .r15,
   subq 16 .rsp,
   movq .r11 .rax,
   shlq 8 .rax,
   orq .r10 .rax,
   movImm kern_stack .rbx,
   movl .rax .rcx,
   andq 0x00FF .rcx,
   leaq .rbx .rcx 8 .rbx]

/-- The stack goes to the slot, and the number of the vCPU to the end of its page. -/
def fillSlot : List Micro :=
  [movStore .rsp 0 .rbx,
   movq .rsp .rbp,
   shrq 12 .rbp,
   addq 1 .rbp,
   shlq 12 .rbp,
   movStore .rax (-8) .rbp,
   movq .rsp .rbp]

def setMsrs : List Micro :=
  [movImm dataSelector .rax,
   movSeg dataBase .ds,
   movSeg dataBase .es,
   movSeg dataBase .ss,
   movSeg dataBase .gs,
   movImm MSR_KERN_GS_BASE .rcx,
   movq .rbx .rax,
   wrmsr,
   movImm MSR_FS_BASE .rcx,
   movImm SHARED_RO_ADDR .rax,
   wrmsr]

/-- Up to the second `wrmsr`. -/
def long_mode : List Micro := findSlot kern_stack tsc aux ++ (fillSlot ++ setMsrs)

end

/-- `rsp` becomes that of the kernel. -/
def switchStack : List Micro := [swapgs,movStoreGs .rsp (256 * 8),movLoadGs 0 .rsp]

def saveUser : List Micro := [pushq .rbp,pushq .rcx,pushq .r11]

/-- Up to six arguments, where C expects them, and the number of the call. -/
def passArguments : List Micro :=
  [movq .rsp .rbp,
   movq .rdx .rcx,
   movq .r8 .rdx,
   movq .r9 .r8,
   movq .r10 .r9,
   cmpq 0x200 .rax]

/-- `__syscall_entry` once it is on the stack of the kernel, up to `jg`. -/
def onKernelStack : List Micro := pushqGs (256 * 8) ++ (swapgs :: (saveUser ++ passArguments))

set_option linter.style.nameCheck false in
def __syscall_entry : List Micro := switchStack ++ onKernelStack

def fin_syscall : List Micro := [popq .r11,popq .rcx,popq .rbp,popq .rsp]

/-- `n` vCPUs. The image has `kern_stack` below 4 GiB and `syscall_user_stack` behind it,
    `callq syscall_entry` returns to `ra`; `regs` are the registers at `long_mode`, with
    `r10` and `rsp` from the VMM, which gives each vCPU a page for its stack and room in
    it for what a system call pushes. -/
structure Setup (n : Nat) where
  kern_stack : Word
  ra : Word
  page : Fin n → Word
  regs : Fin n → Reg → Word
  tsc : Fin n → Word
  aux : Fin n → Word
  low : kern_stack.toNat + 4096 ≤ 2 ^ 32
  small : ∀ i, (regs i .r10).toNat % 256 < 64
  distinct : ∀ i j, (regs i .r10).toNat % 256 = (regs j .r10).toNat % 256 → i = j
  aligned : ∀ i, (page i).toNat % 4096 = 0
  pages : ∀ i j, page i = page j → i = j
  inside : ∀ i, 56 ≤ (regs i .rsp - page i).toNat ∧ (regs i .rsp - page i).toNat ≤ 4096
  apart : ∀ i x, Within x (page i) 4096 → ¬ Within x kern_stack 4096

section
variable {n : Nat} (p : Setup n) (i : Fin n)

def Setup.id : Nat := (p.regs i .r10).toNat % 256

/-- `&kern_stack[id]`, `&syscall_user_stack[id]`. -/
def Setup.kernSlot : Word := p.kern_stack + BitVec.ofNat 64 (8 * p.id i)
def Setup.userSlot : Word := p.kern_stack + BitVec.ofNat 64 (256 * 8 + 8 * p.id i)

/-- What `long_mode` stores in `kern_stack[id]`. -/
def Setup.top : Word := p.regs i .rsp - 16

/-- What belongs to vCPU `i`. -/
def Owns (x : Word) : Prop := Within x (p.kernSlot i) 8 ∨ Within x (p.userSlot i) 8 ∨ Within x (p.page i) 4096

instance (x : Word) : Decidable (Owns p i x) :=
  inferInstanceAs (Decidable (Within x (p.kernSlot i) 8 ∨ Within x (p.userSlot i) 8 ∨ Within x (p.page i) 4096))

end

inductive Pc
  | long_mode (todo : List Micro)
  | user
  | entry (todo : List Micro)
  | vmm
  | syscall_entry
  | fin (todo : List Micro)

/-- `called` has the registers as they were at the last `syscall`; no step depends on it. -/
structure Vcpu where
  pc : Pc
  core : Core
  called : Reg → Word

/-- One step of a vCPU: its next instruction, or what C code, the program of the user or
    the VMM does to the memory or, when it is done, has done to the registers. -/
inductive Input
  | run
  | poke (a : Word) (v : BitVec 8)
  | resume (regs : Reg → Word) (gsBase fsBase : Word)
  | leave

abbrev State (n : Nat) := Config (Fin n) Memory Vcpu

section
variable {n : Nat} (p : Setup n)

/-- How much of its stack is not in use. -/
def stackRoom (i : Fin n) (l : Vcpu) : Nat :=
  match l.pc with
  | .user => 4096
  | _ => min 4096 (l.core.regs .rsp - p.page i).toNat

def mayWrite (i : Fin n) (l : Vcpu) (x : Word) : Bool :=
  decide ((∀ j, ¬ Owns p j x) ∨ Within x (p.page i) (stackRoom p i l))

/-- What the C ABI promises of a function when it returns. -/
def abi (before after : Reg → Word) : Reg → Word
  | .rsp => before .rsp + 8
  | .rbx => before .rbx
  | .rbp => before .rbp
  | .r12 => before .r12
  | .r13 => before .r13
  | .r14 => before .r14
  | .r15 => before .r15
  | r => after r

def step (i : Fin n) (x : Input) (m : Memory) (l : Vcpu) : Option (Memory × Vcpu) :=
  match l.pc, x with
  | .long_mode (o :: rest), .run => (o.exec m l.core).map fun r => (r.1,{ l with pc := .long_mode rest, core := r.2 })
  | .long_mode [], .run => some (m,{ l with pc := .user })
  -- The user, with any registers, executes `syscall`.
  | .user, .resume regs gsBase fsBase =>
    some (m,{ l with pc := .entry __syscall_entry, core := { l.core with regs, gsBase, fsBase }, called := regs })
  | .entry (o :: rest), .run => (o.exec m l.core).map fun r => (r.1,{ l with pc := .entry rest, core := r.2 })
  | .entry [], .run =>
    if l.core.greater then
      ((pushImm p.ra).exec m l.core).map fun r => (r.1,{ l with pc := .syscall_entry, core := r.2 })
    else some (m,{ l with pc := .vmm })
  | .vmm, .resume regs _ _ =>
    some (m,{ l with pc := .fin fin_syscall, core := { l.core with regs := Function.update regs .rsp (l.core.regs .rsp) } })
  | .syscall_entry, .resume regs _ _ =>
    some (m,{ l with pc := .fin fin_syscall, core := { l.core with regs := abi l.core.regs regs } })
  -- It goes to user mode without returning.
  | .syscall_entry, .leave => some (m,{ l with pc := .user })
  | .fin (o :: rest), .run => (o.exec m l.core).map fun r => (r.1,{ l with pc := .fin rest, core := r.2 })
  | .fin [], .run => some (m,{ l with pc := .user })
  | .user, .poke a v | .vmm, .poke a v | .syscall_entry, .poke a v =>
    if mayWrite p i l a then some (Function.update m a v,l) else none
  | _, _ => none

def Setup.system : System (State n) (Fin n × Input) :=
  threads (fun s => ∀ i, (s.loc i).pc = .long_mode (long_mode p.kern_stack (p.tsc i) (p.aux i)) ∧
    (s.loc i).core.regs = p.regs i)
    (step p)

/-! ### What is promised -/

def inSyscall (l : Vcpu) : Bool :=
  match l.pc with
  | .long_mode _ | .user => false
  | _ => true

/-- Steps of one vCPU while the others rest. -/
def Alone (i : Fin n) : Memory × Vcpu → Memory × Vcpu → Prop :=
  Relation.ReflTransGen fun a b => ∃ x, step p i x a.1 a.2 = some b

/-- What holds of vCPU `i` at the end of `long_mode` and in its system calls: it has its
    own slot, the stack is switched to that of the kernel once that of the user is in the
    slot, and a call gets to `sysretq`, with the registers as they were. -/
structure Context (s : State n) (i : Fin n) : Prop where
  moves : ∃ x t, p.system.step s (i,x) = some t
  msrs : (s.loc i).pc = .long_mode [] →
    (s.loc i).core.kernGsBase = p.kernSlot i ∧ (s.loc i).core.fsBase = SHARED_RO_ADDR ∧
      load s.shared (p.kernSlot i) 8 = p.top i
  own : ∀ j, j ≠ i → ∀ x, Within x (p.userSlot i) 8 → ¬ Within x (p.userSlot j) 8
  switched : (s.loc i).pc = .entry onKernelStack →
    load s.shared (p.userSlot i) 8 = (s.loc i).called .rsp ∧ (s.loc i).core.regs .rsp = p.top i
  returns : inSyscall (s.loc i) = true →
    ∃ r, Alone p i (s.shared,s.loc i) r ∧ r.2.pc = .fin [] ∧ r.2.called = (s.loc i).called
  restored : (s.loc i).pc = .fin [] → ∀ r ∈ [Reg.rsp,.rbp,.rcx,.r11], (s.loc i).core.regs r = (s.loc i).called r

end

section
variable {n : Nat} {p : Setup n} {i : Fin n}

theorem kernSlot_low (p : Setup n) (i : Fin n) : (p.kernSlot i).toNat < 2 ^ 32 := by
  have low := p.low
  have small : p.id i < 64 := p.small i
  rw [Setup.kernSlot,BitVec.toNat_add,BitVec.toNat_ofNat]
  omega

theorem mem_kernSlot (p : Setup n) (i : Fin n) (x : Word) :
    Within x (p.kernSlot i) 8 ↔ (x - p.kern_stack).toNat / 8 = p.id i := by
  have small : p.id i < 64 := p.small i
  rw [Setup.kernSlot,within_offset (by omega)]
  omega

theorem mem_userSlot (p : Setup n) (i : Fin n) (x : Word) :
    Within x (p.userSlot i) 8 ↔ (x - p.kern_stack).toNat / 8 = 256 + p.id i := by
  have small : p.id i < 64 := p.small i
  rw [Setup.userSlot,within_offset (by omega)]
  omega

theorem page_of_kern {x : Word} (inside : Within x (p.page i) 4096) : 4096 ≤ (x - p.kern_stack).toNat :=
  Nat.not_lt.mp (p.apart i x inside)

theorem page_of_kernSlot {x : Word} (inside : Within x (p.kernSlot i) 8) : ¬ Within x (p.page i) 4096 := by
  have small : p.id i < 64 := p.small i
  rw [mem_kernSlot] at inside
  intro page
  have far := page_of_kern page
  omega

theorem userSlot_of_kernSlot {x : Word} (inside : Within x (p.kernSlot i) 8) : ¬ Within x (p.userSlot i) 8 := by
  rw [mem_kernSlot] at inside
  rw [mem_userSlot]
  have small : p.id i < 64 := p.small i
  omega

theorem top_bounds (p : Setup n) (i : Fin n) : 40 ≤ (p.top i - p.page i).toNat ∧ (p.top i - p.page i).toNat ≤ 4080 := by
  obtain ⟨low,high⟩ := p.inside i
  unfold Setup.top
  bv_omega

theorem page_of_pushed {x : Word} {k : Nat} (high : k ≤ 40) (inside : Within x (p.top i - BitVec.ofNat 64 k) k) :
    Within x (p.page i) 4096 := by
  obtain ⟨low,up⟩ := top_bounds p i
  generalize p.top i = top at *
  unfold Within at *
  bv_omega

/-- Pages do not overlap, and neither do slots. -/
theorem own_apart {j : Fin n} (other : j ≠ i) {x : Word} (mine : Owns p i x) : ¬ Owns p j x := by
  have small : p.id i < 64 := p.small i
  have small' : p.id j < 64 := p.small j
  have ids : p.id j ≠ p.id i := fun same => other (p.distinct j i same)
  have far := fun inside => page_of_kern (p := p) (i := i) (x := x) inside
  have far' := fun inside => page_of_kern (p := p) (i := j) (x := x) inside
  unfold Owns at *
  rw [mem_kernSlot,mem_userSlot] at *
  rcases mine with kern | user | page
  · rintro (kern' | user' | page')
    · omega
    · omega
    · have := far' page'
      omega
  · rintro (kern' | user' | page')
    · omega
    · omega
    · have := far' page'
      omega
  · have := far page
    rintro (kern' | user' | page')
    · omega
    · omega
    · have same := page_unique (p.aligned i) (p.aligned j) page page'
      exact other (p.pages j i same)

end

section
variable {n : Nat} {p : Setup n} {i : Fin n}

/-- What `long_mode` leaves to the system calls. -/
structure Base (p : Setup n) (i : Fin n) (m : Memory) (c : Core) : Prop where
  kernGsBase : c.kernGsBase = p.kernSlot i
  slot : load m (p.kernSlot i) 8 = p.top i

structure Booted (p : Setup n) (i : Fin n) (m : Memory) (c : Core) : Prop where
  base : Base p i m c
  fsBase : c.fsBase = SHARED_RO_ADDR

theorem toNat_and_255 (v : Word) : (v &&& 0x00FF).toNat = v.toNat % 256 := by
  rw [BitVec.toNat_and]
  exact Nat.and_two_pow_sub_one_eq_mod _ 8

/-- The number comes back out of the word that it is packed into. -/
theorem id_unpack (pool id : Word) :
    ((((pool <<< 8 ||| id).setWidth 32).setWidth 64 &&& 0x00FF : Word)) * 8 = BitVec.ofNat 64 (8 * (id.toNat % 256)) := by
  have low : (pool <<< 8 ||| id).toNat % 2 ^ 8 = id.toNat % 256 := by
    rw [BitVec.toNat_or,Nat.or_mod_two_pow,BitVec.toNat_shiftLeft,Nat.shiftLeft_eq]
    have zero : pool.toNat * 2 ^ 8 % 2 ^ 64 % 2 ^ 8 = 0 := by omega
    rw [zero,Nat.zero_or]
  apply BitVec.eq_of_toNat_eq
  rw [BitVec.toNat_mul,toNat_and_255,BitVec.toNat_setWidth,BitVec.toNat_setWidth,BitVec.toNat_ofNat]
  have eight : (8 : Word).toNat = 8 := rfl
  rw [eight]
  omega

theorem info_addr (p : Setup n) (i : Fin n) : ((p.top i >>> 12 + 1) <<< 12 : Word) + -8 = p.page i + 4088 := by
  obtain ⟨-,high⟩ := top_bounds p i
  apply last_of_page (p.aligned i)
  unfold Within
  omega

structure Found (p : Setup n) (i : Fin n) (c : Core) : Prop where
  rsp : c.regs .rsp = p.top i
  rbx : c.regs .rbx = p.kernSlot i
  rdx : c.regs .rdx = p.tsc i >>> 32

structure Filled (p : Setup n) (i : Fin n) (m : Memory) (c : Core) : Prop where
  slot : load m (p.kernSlot i) 8 = p.top i
  rbx : c.regs .rbx = p.kernSlot i
  rdx : c.regs .rdx = p.tsc i >>> 32

theorem finds (m : Memory) {c : Core} (start : c.regs = p.regs i) :
    Ends (Owns p i) (fun _ => Found p i) (findSlot p.kern_stack (p.tsc i) (p.aux i)) m c := by
  simp only [Ends,findSlot,Keeps,rdtscp,movq,alu,subq,shlq,orq,movImm,movl,andq,leaq,Option.some.injEq,exists_eq_left',
    reduceCtorEq,false_imp_iff,true_and,true_imp_iff]
  refine ⟨?_,?_,?_⟩
  · simp only [Core.set_regs,start,reduceCtorEq,if_true,if_false]
    rfl
  · simp only [Core.set_regs,start,reduceCtorEq,if_true,if_false,Setup.kernSlot,id_unpack]
    rfl
  · simp only [Core.set_regs,reduceCtorEq,if_true,if_false]

theorem fills (m : Memory) {c : Core} (found : Found p i c) : Ends (Owns p i) (Filled p i) fillSlot m c := by
  obtain ⟨rsp,rbx,rdx⟩ := found
  simp only [Ends,fillSlot,Keeps,movq,alu,shlq,shrq,movStore,addq,Option.some.injEq,exists_eq_left',reduceCtorEq,
    false_imp_iff,true_and,true_imp_iff,id,Core.set_regs,if_true,if_false,rsp,rbx,add_zero,info_addr]
  have info : ∀ x, Within x (p.page i + 4088) 8 → Within x (p.page i) 4096 := fun x inside => by
    unfold Within at *
    bv_omega
  refine ⟨fun x => .inl,fun x inside => .inr (.inr (info x inside)),?_,?_,?_⟩
  · rw [load_store_apart (fun x inside page => page_of_kernSlot inside (info x page)) (by omega)]
    exact load_store_same (n := 8) m _ _ (by omega)
  · simp only [Core.set_regs,reduceCtorEq,if_false,rbx]
  · simp only [Core.set_regs,reduceCtorEq,if_false,rdx]

theorem high_low (a tsc : Word) (low : a.toNat < 2 ^ 32) :
    ((tsc >>> 32).setWidth 32 ++ a.setWidth 32 : Word) = a ↔ tsc.toNat < 2 ^ 32 := by
  have value : ((tsc >>> 32).setWidth 32 ++ a.setWidth 32 : Word).toNat = tsc.toNat / 2 ^ 32 * 2 ^ 32 + a.toNat := by
    rw [BitVec.toNat_append,BitVec.toNat_setWidth,BitVec.toNat_setWidth,BitVec.toNat_ushiftRight,Nat.shiftRight_eq_div_pow,
      Nat.mod_eq_of_lt low,Nat.shiftLeft_eq,← Nat.shiftLeft_eq,← Nat.shiftLeft_add_eq_or_of_lt low,Nat.shiftLeft_eq]
    omega
  constructor
  · intro same
    rw [same] at value
    omega
  · intro small
    apply BitVec.eq_of_toNat_eq
    rw [value]
    omega

/-- What `wrmsr` writes for an address in `eax`. -/
def written (p : Setup n) (i : Fin n) (a : Word) : Word := (p.tsc i >>> 32).setWidth 32 ++ a.setWidth 32

structure Written (p : Setup n) (i : Fin n) (m : Memory) (c : Core) : Prop where
  slot : load m (p.kernSlot i) 8 = p.top i
  kern : c.kernGsBase = written p i (p.kernSlot i)
  fs : c.fsBase = written p i SHARED_RO_ADDR

theorem writeMsr_kern {c : Core} {v : Word} (ok : canonical v = true) :
    writeMsr c (MSR_KERN_GS_BASE.setWidth 32) v = some (c.setKernGsBase v) := by
  rw [writeMsr,if_pos ok]
  simp [MSR_KERN_GS_BASE]

theorem writeMsr_fs {c : Core} {v : Word} (ok : canonical v = true) :
    writeMsr c (MSR_FS_BASE.setWidth 32) v = some (c.setFsBase v) := by
  rw [writeMsr,if_pos ok]
  simp [MSR_FS_BASE]

theorem writeMsr_fault {c : Core} {msr : BitVec 32} {v : Word} (fault : ¬ canonical v = true) : writeMsr c msr v = none :=
  if_neg fault

theorem sets (m : Memory) {c : Core} (filled : Filled p i m c) (kern : canonical (written p i (p.kernSlot i)) = true)
    (fs : canonical (written p i SHARED_RO_ADDR) = true) : Ends (Owns p i) (Written p i) setMsrs m c := by
  obtain ⟨slot,rbx,rdx⟩ := filled
  simp only [Ends,setMsrs,Keeps,movImm,movSeg,movq,alu,wrmsr,Option.some.injEq,exists_eq_left',reduceCtorEq,false_imp_iff,
    true_and,true_imp_iff,Core.set_regs,Core.setGsBase_regs,if_true,if_false,rbx,rdx]
  refine ⟨_,writeMsr_kern kern,?_⟩
  simp only [Core.set_regs,Core.setGsBase_regs,Core.setKernGsBase_regs,reduceCtorEq,if_false,rdx]
  refine ⟨_,writeMsr_fs fs,slot,rfl,rfl⟩

theorem canonical_of_sets {m : Memory} {c : Core} (filled : Filled p i m c) (ran : (run setMsrs m c).isSome = true) :
    canonical (written p i (p.kernSlot i)) = true ∧ canonical (written p i SHARED_RO_ADDR) = true := by
  obtain ⟨slot,rbx,rdx⟩ := filled
  have fold : ∀ a, (BitVec.setWidth 32 (p.tsc i >>> 32) ++ BitVec.setWidth 32 a : Word) = written p i a := fun _ => rfl
  simp only [setMsrs,run,Micro.exec,movImm,movSeg,movq,alu,wrmsr,Option.map_some,Option.bind_some,Core.set_regs,
    Core.setGsBase_regs,reduceCtorEq,if_true,if_false,rbx,rdx,fold] at ran
  have kern : canonical (written p i (p.kernSlot i)) = true := by
    by_contra fault
    rw [writeMsr_fault fault] at ran
    cases ran
  rw [writeMsr_kern kern] at ran
  simp only [Option.map_some,Option.bind_some,Core.set_regs,Core.setGsBase_regs,Core.setKernGsBase_regs,
    reduceCtorEq,if_false,rdx,fold] at ran
  refine ⟨kern,?_⟩
  by_contra fault
  rw [writeMsr_fault fault] at ran
  cases ran

/-- With a small counter, `edx` is zero. -/
theorem written_eq (small : (p.tsc i).toNat < 2 ^ 32) :
    written p i (p.kernSlot i) = p.kernSlot i ∧ written p i SHARED_RO_ADDR = SHARED_RO_ADDR :=
  ⟨(high_low _ _ (kernSlot_low p i)).mpr small,(high_low _ _ (by decide)).mpr small⟩

theorem boots (small : (p.tsc i).toNat < 2 ^ 32) (m : Memory) {c : Core} (start : c.regs = p.regs i) :
    Ends (Owns p i) (Booted p i) (long_mode p.kern_stack (p.tsc i) (p.aux i)) m c := by
  obtain ⟨kern,fs⟩ := written_eq small
  have low := kernSlot_low p i
  refine (finds m start).append fun m c found => (fills m found).append fun m c filled => ?_
  refine (sets m filled ?_ ?_).mono ?_
  · rw [kern]
    unfold canonical
    simp
    omega
  · rw [fs]
    decide
  · rintro m c ⟨slot,kern',fs'⟩
    exact ⟨⟨kern'.trans kern,slot⟩,fs'.trans fs⟩

end

/-! ### A system call -/

section
variable {n : Nat} {p : Setup n} {i : Fin n}

structure Switched (p : Setup n) (i : Fin n) (called : Reg → Word) (m : Memory) (c : Core) : Prop where
  gsBase : c.gsBase = p.kernSlot i
  slot : load m (p.kernSlot i) 8 = p.top i
  user : load m (p.userSlot i) 8 = called .rsp
  rsp : c.regs .rsp = p.top i
  regs : ∀ r ≠ .rsp, c.regs r = called r

/-- The user's registers on the stack of the kernel. -/
structure Saved (p : Setup n) (i : Fin n) (called : Reg → Word) (m : Memory) : Prop where
  rsp : load m (p.top i - 8) 8 = called .rsp
  rbp : load m (p.top i - 16) 8 = called .rbp
  rcx : load m (p.top i - 24) 8 = called .rcx
  r11 : load m (p.top i - 32) 8 = called .r11

/-- At the end of the entry. -/
structure Entered (p : Setup n) (i : Fin n) (called : Reg → Word) (m : Memory) (c : Core) : Prop where
  base : Base p i m c
  saved : Saved p i called m
  rsp : c.regs .rsp = p.top i - 32

theorem userSlot_eq (p : Setup n) (i : Fin n) : p.kernSlot i + 256 * 8 = p.userSlot i := by
  rw [Setup.kernSlot,Setup.userSlot,BitVec.ofNat_add,BitVec.add_comm (BitVec.ofNat 64 (256 * 8)),← BitVec.add_assoc]
  rfl

theorem switches {called : Reg → Word} {m : Memory} {c : Core} (base : Base p i m c) (regs : c.regs = called) :
    Ends (Owns p i) (Switched p i called) switchStack m c := by
  obtain ⟨kernGsBase,slot⟩ := base
  subst regs
  have kept : load (store (n := 8) m (p.userSlot i) (c.regs .rsp)) (p.kernSlot i) 8 = p.top i := by
    rw [load_store_apart (fun x => userSlot_of_kernSlot) (by omega),slot]
  simp only [Ends,switchStack,Keeps,swapgs,movStoreGs,movLoadGs,id,Option.some.injEq,exists_eq_left',reduceCtorEq,
    false_imp_iff,true_and,true_imp_iff,Core.setKernGsBase_gsBase,Core.setGsBase_gsBase,Core.setKernGsBase_regs,
    Core.setGsBase_regs,kernGsBase,userSlot_eq,add_zero,kept]
  refine ⟨fun x => .inr ∘ .inl,fun x => .inl,?_,kept,load_store_same (n := 8) m _ _ (by omega),?_,?_⟩
  · simp
  · rw [Core.set_regs,if_pos rfl]
  · intro r other
    rw [Core.set_regs,if_neg other]
    rfl

theorem saves {called : Reg → Word} {m : Memory} {c : Core} (switched : Switched p i called m c) :
    Ends (Owns p i) (Entered p i called) onKernelStack m c := by
  obtain ⟨gsBase,slot,user,rsp,regs⟩ := switched
  have own : ∀ x, Within x (p.top i - 32) 32 → Owns p i x :=
    fun x inside => .inr (.inr (page_of_pushed (k := 32) (by omega) inside))
  have first : Ends (Owns p i) (fun m' c' => m' = store (n := 8) m (p.top i - 8) (called .rsp) ∧ c'.gsBase = p.kernSlot i ∧
      c'.regs .rsp = p.top i - 8 ∧ ∀ r ≠ .rsp, c'.regs r = called r) (pushqGs (256 * 8)) m c := by
    simp only [Ends,pushqGs,Keeps,reduceCtorEq,false_imp_iff,true_and,true_imp_iff,gsBase,userSlot_eq,user,Core.setTmp_regs,
      Core.setTmp_tmp,Core.set_gsBase,Core.setTmp_gsBase,rsp]
    refine ⟨fun x => .inr ∘ .inl,fun x inside => .inr (.inr (page_of_pushed (k := 8) (by omega) inside)),?_,?_⟩
    · rw [Core.set_regs,if_pos rfl]
    · intro r other
      rw [Core.set_regs,if_neg other]
      exact regs r other
  refine first.append ?_
  rintro m1 c1 ⟨stored,gs1,rsp1,regs1⟩
  refine ⟨nofun,_,rfl,?_⟩
  generalize entered : (c1.setGsBase c1.kernGsBase).setKernGsBase c1.gsBase = c2
  have rsp2 : c2.regs .rsp = p.top i - 8 := by rw [← entered]; exact rsp1
  have regs2 : ∀ r ≠ .rsp, c2.regs r = called r := by rw [← entered]; exact regs1
  have kern2 : c2.kernGsBase = p.kernSlot i := by rw [← entered]; exact gs1
  have lower : p.top i - 8 - BitVec.ofNat 64 (8 * [Reg.rbp,.rcx,.r11].length) = p.top i - 32 :=
    sub_ofNat _ (i := 8) (k := 32) rfl
  have pushed : Ends (Owns p i) (Pushed [.rbp,.rcx,.r11] m1 c2) saveUser m1 c2 := by
    refine Ends.pushes [.rbp,.rcx,.r11] (by decide) (by decide) ?_
    rw [rsp2,lower]
    exact fun x inside => own x (inside.mono (by decide))
  refine pushed.append ?_
  rintro m3 c3 ⟨rsp3,-,-,kern3,words,mem⟩
  rw [rsp2,lower] at rsp3 mem
  rw [rsp2] at words
  have apart : ∀ x, Within x (p.top i - 8) 8 → ¬ Within x (p.top i - 32) 24 := by
    rw [← lower]
    exact fun x inside => (within_below (k := 24) (by omega) inside).2
  have word : ∀ k r, [Reg.rbp,.rcx,.r11][k]? = some r → r ≠ .rsp →
      load m3 (p.top i - BitVec.ofNat 64 (8 * (k + 2))) 8 = called r := by
    intro k r at' plain
    have offset : p.top i - 8 - BitVec.ofNat 64 (8 * (k + 1)) = p.top i - BitVec.ofNat 64 (8 * (k + 2)) :=
      sub_ofNat _ (i := 8) (by omega)
    rw [← regs2 r plain,← words k r at',offset]
  simp only [Ends,passArguments,Keeps,movq,alu,cmpq,Option.some.injEq,exists_eq_left',reduceCtorEq,false_imp_iff,true_and,
    true_imp_iff]
  refine ⟨⟨kern3.trans kern2,?_⟩,⟨?_,word 0 .rbp rfl nofun,word 1 .rcx rfl nofun,word 2 .r11 rfl nofun⟩,?_⟩
  · have outside : ∀ x, Within x (p.kernSlot i) 8 → ¬ Within x (p.top i - 32) 24 := fun x mine inside =>
      page_of_kernSlot mine (page_of_pushed (k := 32) (by omega) (inside.mono (by omega)))
    have outside' : ∀ x, Within x (p.kernSlot i) 8 → ¬ Within x (p.top i - 8) 8 := fun x mine inside =>
      page_of_kernSlot mine (page_of_pushed (k := 8) (by omega) inside)
    rw [load_congr (fun x mine => mem x (outside x mine)) (by omega),stored,load_store_apart outside' (by omega),slot]
  · rw [load_congr (fun x inside => mem x (apart x inside)) (by omega),stored]
    exact load_store_same (n := 8) m _ _ (by omega)
  · simp only [Core.setGreater_regs,Core.set_regs,reduceCtorEq,if_false]
    exact rsp3

/-- At `sysretq`. -/
structure Restored (p : Setup n) (i : Fin n) (called : Reg → Word) (m : Memory) (c : Core) : Prop where
  base : Base p i m c
  regs : ∀ r ∈ [Reg.rsp,.rbp,.rcx,.r11], c.regs r = called r

theorem restores {called : Reg → Word} {m : Memory} {c : Core} (entered : Entered p i called m c) :
    Ends (Owns p i) (Restored p i called) fin_syscall m c := by
  obtain ⟨base,⟨rsp,rbp,rcx,r11⟩,stack⟩ := entered
  have own : ∀ k ≤ 32, 8 ≤ k → ∀ x, Within x (p.top i - BitVec.ofNat 64 k) 8 → Owns p i x := fun k high low x inside =>
    .inr (.inr (page_of_pushed (k := k) (by omega) (inside.mono low)))
  have up24 : p.top i - 32 + 8 = p.top i - 24 := by bv_omega
  have up16 : p.top i - 24 + 8 = p.top i - 16 := by bv_omega
  have up8 : p.top i - 16 + 8 = p.top i - 8 := by bv_omega
  simp only [Ends,fin_syscall,Keeps,popq,reduceCtorEq,false_imp_iff,true_and,true_imp_iff,Core.set_regs,if_true,
    if_false,stack,up24,up16,up8,rsp,rbp,rcx,r11]
  refine ⟨own 32 (by omega) (by omega),own 24 (by omega) (by omega),own 16 (by omega) (by omega),
    own 8 (by omega) (by omega),
    ⟨base.kernGsBase,base.slot⟩,?_⟩
  simp [Core.set_regs]

end

end Bootcode.Syscall
