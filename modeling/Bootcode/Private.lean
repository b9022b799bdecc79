import Bootcode.Interleave
import Bootcode.X86
import Mathlib.Tactic.Simps.Basic

/-!
Processors that share their memory: x86-64 instructions as single accesses to it
(`Micro`), and code that keeps to memory of its own (`Keeps`). Such code comes out as
if it ran alone, whatever the others do meanwhile (`Reach.apart`).
-/
namespace Bootcode.Private
open Bootcode.X86 Bootcode.Interleave

/-- What a processor has to itself. `tmp` has been loaded and not yet stored,
    `greater` is what `jg` tests. -/
structure Core where
  regs : Reg → Word
  tmp : Word
  greater : Bool
  gsBase : Word
  kernGsBase : Word
  fsBase : Word

namespace Core
variable (c : Core)

@[simps tmp greater gsBase kernGsBase fsBase]
def set (r : Reg) (v : Word) : Core := { c with regs := Function.update c.regs r v }
@[simps] def setTmp (v : Word) : Core := { c with tmp := v }
@[simps] def setGreater (b : Bool) : Core := { c with greater := b }
@[simps] def setGsBase (v : Word) : Core := { c with gsBase := v }
@[simps] def setKernGsBase (v : Word) : Core := { c with kernGsBase := v }
@[simps] def setFsBase (v : Word) : Core := { c with fsBase := v }

theorem set_regs (r r' : Reg) (v : Word) : (c.set r v).regs r' = if r' = r then v else c.regs r' := by
  by_cases same : r' = r
  · simp [set,same]
  · simp [set,same]
end Core

/-- At most one access to the memory, to a quadword. Work on registers may fault. -/
inductive Micro
  | reg (f : Core → Option Core)
  | load (a : Core → Word) (k : Core → Word → Core)
  | store (a v : Core → Word) (k : Core → Core)

def Micro.exec (m : Memory) (c : Core) : Micro → Option (Memory × Core)
  | .reg f => (f c).map fun c => (m,c)
  | .load a k => some (m,k c (X86.load m (a c) 8))
  | .store a v k => some (X86.store (n := 8) m (a c) (v c),k c)

/-- The code running alone. -/
def run : List Micro → Memory → Core → Option (Memory × Core)
  | [], m, c => some (m,c)
  | o :: rest, m, c => (o.exec m c).bind fun r => run rest r.1 r.2

theorem run_append (xs ys : List Micro) (m : Memory) (c : Core) :
    run (xs ++ ys) m c = (run xs m c).bind fun r => run ys r.1 r.2 := by
  induction xs generalizing m c with
  | nil => rfl
  | cons o rest ih =>
    simp only [List.cons_append,run,Option.bind_assoc]
    exact congrArg _ (funext fun r => ih r.1 r.2)

/-- An instruction on registers. -/
def alu (r : Reg) (f : (Reg → Word) → Word) : Micro := .reg fun c => some (c.set r (f c.regs))

def movImm (imm : Word) (r : Reg) : Micro := alu r fun _ => imm
def movq (src dst : Reg) : Micro := alu dst (· src)
def movl (src dst : Reg) : Micro := alu dst fun regs => ((regs src).setWidth 32).setWidth 64
def addq (imm : Word) (r : Reg) : Micro := alu r (· r + imm)
def subq (imm : Word) (r : Reg) : Micro := alu r (· r - imm)
def andq (imm : Word) (r : Reg) : Micro := alu r (· r &&& imm)
def orq (src dst : Reg) : Micro := alu dst fun regs => regs dst ||| regs src
def shlq (k : Nat) (r : Reg) : Micro := alu r (· r <<< k)
def shrq (k : Nat) (r : Reg) : Micro := alu r (· r >>> k)
def leaq (base index : Reg) (scale : Word) (dst : Reg) : Micro := alu dst fun regs => regs base + regs index * scale
def cmpq (imm : Word) (r : Reg) : Micro := .reg fun c => some (c.setGreater (imm.slt (c.regs r)))

def movStore (r : Reg) (disp : Word) (base : Reg) : Micro := .store (fun c => c.regs base + disp) (·.regs r) id
def pushq (r : Reg) : Micro := .store (·.regs .rsp - 8) (·.regs r) fun c => c.set .rsp (c.regs .rsp - 8)
def pushImm (v : Word) : Micro := .store (·.regs .rsp - 8) (fun _ => v) fun c => c.set .rsp (c.regs .rsp - 8)
def popq (r : Reg) : Micro := .load (·.regs .rsp) fun c v => (c.set .rsp (c.regs .rsp + 8)).set r v

/-! `%gs:disp`. -/

def movStoreGs (r : Reg) (disp : Word) : Micro := .store (·.gsBase + disp) (·.regs r) id
def movLoadGs (disp : Word) (r : Reg) : Micro := .load (·.gsBase + disp) fun c v => c.set r v
def pushqGs (disp : Word) : List Micro :=
  [.load (·.gsBase + disp) fun c v => c.setTmp v,
   .store (·.regs .rsp - 8) (·.tmp) fun c => c.set .rsp (c.regs .rsp - 8)]

inductive Seg
  | ds | es | ss | gs

/-- A segment register is loaded with a descriptor of the given base. -/
def movSeg (base : Word) : Seg → Micro
  | .gs => .reg fun c => some (c.setGsBase base)
  | _ => .reg some

def swapgs : Micro := .reg fun c => some ((c.setGsBase c.kernGsBase).setKernGsBase c.gsBase)

def canonical (a : Word) : Bool := a.toNat < 2 ^ 47 || 2 ^ 64 - 2 ^ 47 ≤ a.toNat

/-- An MSR that holds an address, other addresses fault. -/
def writeMsr (c : Core) (msr : BitVec 32) (v : Word) : Option Core :=
  if canonical v then
    if msr = 0xC0000100 then some (c.setFsBase v)
    else if msr = 0xC0000101 then some (c.setGsBase v)
    else if msr = 0xC0000102 then some (c.setKernGsBase v)
    else some c
  else none

/-- `edx:eax` goes to the MSR in `ecx`. -/
def wrmsr : Micro := .reg fun c =>
  writeMsr c ((c.regs .rcx).setWidth 32) ((c.regs .rdx).setWidth 32 ++ (c.regs .rax).setWidth 32)

/-- The counter in `edx:eax`. -/
def rdtscp (tsc aux : Word) : Micro := .reg fun c =>
  some (((c.set .rax ((tsc.setWidth 32).setWidth 64)).set .rdx (tsc >>> 32)).set .rcx aux)

section
variable {own : Word → Prop} {P : List Micro → Memory → Core → Prop}

/-- Running alone, the code touches only memory in `own` and does not fault; before each
    access and at the end it has `P`, which may depend on the code that is left. -/
def Keeps (own : Word → Prop) (P : List Micro → Memory → Core → Prop) : List Micro → Memory → Core → Prop
  | [], m, c => P [] m c
  | .reg f :: rest, m, c => P (.reg f :: rest) m c ∧ ∃ c', f c = some c' ∧ Keeps own P rest m c'
  | .load a k :: rest, m, c =>
    P (.load a k :: rest) m c ∧ (∀ x, Within x (a c) 8 → own x) ∧ Keeps own P rest m (k c (X86.load m (a c) 8))
  | .store a v k :: rest, m, c =>
    P (.store a v k :: rest) m c ∧ (∀ x, Within x (a c) 8 → own x) ∧
      Keeps own P rest (X86.store (n := 8) m (a c) (v c)) (k c)

/-- The access, if there is one, stays in `own`. -/
def Micro.Touches (own : Word → Prop) (c : Core) : Micro → Prop
  | .reg _ => True
  | .load a _ => ∀ x, Within x (a c) 8 → own x
  | .store a _ _ => ∀ x, Within x (a c) 8 → own x

theorem keeps_cons {o : Micro} {rest : List Micro} {m : Memory} {c : Core} :
    Keeps own P (o :: rest) m c ↔
      P (o :: rest) m c ∧ o.Touches own c ∧ ∃ m' c', o.exec m c = some (m',c') ∧ Keeps own P rest m' c' := by
  constructor
  · cases o with
    | reg f =>
      rintro ⟨now,c',ran,keeps⟩
      exact ⟨now,trivial,m,c',by simp [Micro.exec,ran],keeps⟩
    | load a k =>
      rintro ⟨now,within,keeps⟩
      exact ⟨now,within,_,_,rfl,keeps⟩
    | store a v k =>
      rintro ⟨now,within,keeps⟩
      exact ⟨now,within,_,_,rfl,keeps⟩
  · rintro ⟨now,within,m',c',exec,keeps⟩
    cases o with
    | reg f =>
      obtain ⟨c1,ran,same⟩ := Option.map_eq_some_iff.mp exec
      cases same
      exact ⟨now,c',ran,keeps⟩
    | load a k =>
      cases exec
      exact ⟨now,within,keeps⟩
    | store a v k =>
      cases exec
      exact ⟨now,within,keeps⟩

theorem Micro.Touches.other {o : Micro} {m m' : Memory} {c c' : Core} (touches : o.Touches own c)
    (exec : o.exec m c = some (m',c')) (x : Word) (out : ¬ own x) : m' x = m x := by
  cases o with
  | reg f =>
    obtain ⟨c1,-,same⟩ := Option.map_eq_some_iff.mp exec
    cases same
    rfl
  | load a k =>
    cases exec
    rfl
  | store a v k =>
    cases exec
    exact store_of_not_within _ fun inside => out (touches x inside)

/-- An access does the same in a memory that is the same in `own`. -/
theorem Micro.Touches.frame {o : Micro} {m m' m1 : Memory} {c c1 : Core} (touches : o.Touches own c)
    (same : ∀ x, own x → m' x = m x)
    (exec : o.exec m c = some (m1,c1)) : ∃ m2, o.exec m' c = some (m2,c1) ∧ ∀ x, own x → m2 x = m1 x := by
  cases o with
  | reg f =>
    obtain ⟨c2,ran,is⟩ := Option.map_eq_some_iff.mp exec
    cases is
    exact ⟨m',by simp [Micro.exec,ran],same⟩
  | load a k =>
    cases exec
    refine ⟨m',?_,same⟩
    simp only [Micro.exec,load_congr (fun x inside => same x (touches x inside)) (by omega : 8 ≤ 2 ^ 64)]
  | store a v k =>
    cases exec
    refine ⟨_,rfl,fun x mine => ?_⟩
    unfold X86.store
    rw [same x mine]

theorem Keeps.now {todo : List Micro} {m : Memory} {c : Core} (keeps : Keeps own P todo m c) : P todo m c := by
  cases todo with
  | nil => exact keeps
  | cons o rest => exact (keeps_cons.mp keeps).1

/-- The next access succeeds, and changes nothing that is not in `own`. -/
theorem Keeps.step {o : Micro} {rest : List Micro} {m : Memory} {c : Core} (keeps : Keeps own P (o :: rest) m c) :
    ∃ m' c', o.exec m c = some (m',c') ∧ Keeps own P rest m' c' ∧ ∀ x, ¬ own x → m' x = m x := by
  obtain ⟨-,touches,m',c',exec,keeps⟩ := keeps_cons.mp keeps
  exact ⟨m',c',exec,keeps,touches.other exec⟩

/-- What others do elsewhere makes no difference, if it makes none to `P`. -/
theorem Keeps.frame (stable : ∀ todo m m' c, (∀ x, own x → m' x = m x) → P todo m c → P todo m' c) {todo : List Micro}
    {m m' : Memory} {c : Core} (same : ∀ x, own x → m' x = m x) (keeps : Keeps own P todo m c) : Keeps own P todo m' c := by
  induction todo generalizing m m' c with
  | nil => exact stable _ _ _ _ same keeps
  | cons o rest ih =>
    obtain ⟨now,touches,m1,c1,exec,keeps⟩ := keeps_cons.mp keeps
    obtain ⟨m2,exec',same'⟩ := touches.frame same exec
    exact keeps_cons.mpr ⟨stable _ _ _ _ same now,touches,m2,c1,exec',ih same' keeps⟩

/-- What `P` implies while at most the given code is left. -/
theorem Keeps.mono {P' : List Micro → Memory → Core → Prop} {todo : List Micro} {m : Memory} {c : Core}
    (keeps : Keeps own P todo m c)
    (weaker : ∀ left m c, left.length ≤ todo.length → P left m c → P' left m c) : Keeps own P' todo m c := by
  induction todo generalizing m c with
  | nil => exact weaker _ _ _ le_rfl keeps
  | cons o rest ih =>
    obtain ⟨now,touches,m',c',exec,keeps⟩ := keeps_cons.mp keeps
    refine keeps_cons.mpr ⟨weaker _ _ _ le_rfl now,touches,m',c',exec,ih keeps ?_⟩
    exact fun left m c short => weaker left m c (Nat.le_trans short (Nat.le_succ rest.length))

/-- Code that keeps to its memory up to some point, and from there on. -/
theorem Keeps.append {Q : Memory → Core → Prop} {xs ys : List Micro} {m : Memory} {c : Core}
    (first : Keeps own (fun todo m c => (todo ≠ [] → P (todo ++ ys) m c) ∧ (todo = [] → Q m c)) xs m c)
    (later : ∀ m c, Q m c → Keeps own P ys m c) : Keeps own P (xs ++ ys) m c := by
  induction xs generalizing m c with
  | nil => exact later m c (first.2 rfl)
  | cons o rest ih =>
    obtain ⟨now,touches,m',c',exec,first⟩ := keeps_cons.mp first
    exact keeps_cons.mpr ⟨now.1 nofun,touches,m',c',exec,ih first⟩

/-- The code keeps to its memory and ends with `Q`. -/
def Ends (own : Word → Prop) (Q : Memory → Core → Prop) : List Micro → Memory → Core → Prop :=
  Keeps own fun todo m c => todo = [] → Q m c

section
variable {Q R : Memory → Core → Prop}

theorem Ends.mono {todo : List Micro} {m : Memory} {c : Core} (ends : Ends own Q todo m c) (weaker : ∀ m c, Q m c → R m c) :
    Ends own R todo m c :=
  Keeps.mono ends fun _ m c _ last none => weaker m c (last none)

/-- A condition that only the beginning and the end have to meet. -/
theorem Ends.keeps {o : Micro} {rest : List Micro} {m : Memory} {c : Core} (ends : Ends own Q (o :: rest) m c)
    (now : P (o :: rest) m c)
    (later : ∀ left m c, left.length ≤ rest.length → (left = [] → Q m c) → P left m c) : Keeps own P (o :: rest) m c := by
  obtain ⟨-,touches,m',c',exec,ends⟩ := keeps_cons.mp ends
  exact keeps_cons.mpr ⟨now,touches,m',c',exec,Keeps.mono ends later⟩

theorem Ends.append {xs ys : List Micro} {m : Memory} {c : Core} (first : Ends own Q xs m c)
    (later : ∀ m c, Q m c → Ends own R ys m c) : Ends own R (xs ++ ys) m c := by
  refine Keeps.append (Q := Q) (Keeps.mono first ?_) later
  intro left m c _ last
  exact ⟨fun more none => absurd (List.append_eq_nil_iff.mp none).1 more,last⟩

end

theorem Keeps.run {todo : List Micro} {m : Memory} {c : Core} (keeps : Keeps own P todo m c) :
    ∃ m' c', run todo m c = some (m',c') ∧ P [] m' c' := by
  induction todo generalizing m c with
  | nil => exact ⟨m,c,rfl,keeps⟩
  | cons o rest ih =>
    obtain ⟨m1,c1,ran,keeps,-⟩ := keeps.step
    obtain ⟨m2,c2,later,last⟩ := ih keeps
    exact ⟨m2,c2,by rw [Private.run,ran]; exact later,last⟩

/-- What pushes do to memory and registers. -/
structure Pushed (rs : List Reg) (m : Memory) (c : Core) (m' : Memory) (c' : Core) : Prop where
  rsp : c'.regs .rsp = c.regs .rsp - BitVec.ofNat 64 (8 * rs.length)
  regs : ∀ r ≠ .rsp, c'.regs r = c.regs r
  gsBase : c'.gsBase = c.gsBase
  kernGsBase : c'.kernGsBase = c.kernGsBase
  words : ∀ k r, rs[k]? = some r → X86.load m' (c.regs .rsp - BitVec.ofNat 64 (8 * (k + 1))) 8 = c.regs r
  mem : ∀ x, ¬ Within x (c.regs .rsp - BitVec.ofNat 64 (8 * rs.length)) (8 * rs.length) → m' x = m x

theorem Ends.pushes (rs : List Reg) (away : .rsp ∉ rs) (small : 8 * rs.length ≤ 2 ^ 64) {m : Memory} {c : Core}
    (room : ∀ x, Within x (c.regs .rsp - BitVec.ofNat 64 (8 * rs.length)) (8 * rs.length) → own x) :
    Ends own (Pushed rs m c) (rs.map pushq) m c := by
  induction rs generalizing m c with
  | nil => exact fun _ => ⟨by simp,fun _ _ => rfl,rfl,rfl,by simp,fun _ _ => rfl⟩
  | cons r rs ih =>
    simp only [List.mem_cons,not_or] at away
    simp only [List.length_cons,Nat.mul_succ] at small room
    have lower : c.regs .rsp - 8 - BitVec.ofNat 64 (8 * rs.length) = c.regs .rsp - BitVec.ofNat 64 (8 * rs.length + 8) :=
      sub_ofNat _ (i := 8) (by omega)
    have top : (c.set .rsp (c.regs .rsp - 8)).regs .rsp = c.regs .rsp - 8 := by rw [Core.set_regs,if_pos rfl]
    have others : ∀ r ≠ .rsp, (c.set .rsp (c.regs .rsp - 8)).regs r = c.regs r := fun r other => by
      rw [Core.set_regs,if_neg other]
    -- The word that is pushed first, and those below it.
    have word : ∀ x, Within x (c.regs .rsp - 8) 8 →
      Within x (c.regs .rsp - BitVec.ofNat 64 (8 * rs.length + 8)) (8 * rs.length + 8) ∧
        ¬ Within x (c.regs .rsp - BitVec.ofNat 64 (8 * rs.length + 8)) (8 * rs.length) := by
      rw [← lower]
      exact fun x => within_below (by omega)
    refine ⟨nofun,fun x inside => room x (word x inside).1,?_⟩
    refine (ih away.2 (by omega) ?_).mono ?_
    · rw [top,lower]
      exact fun x inside => room x (inside.mono (by omega))
    · rintro m' c' ⟨rsp,regs,gsBase,kernGsBase,words,mem⟩
      rw [top,lower] at rsp mem
      refine ⟨rsp,fun r other => (regs r other).trans (others r other),gsBase,kernGsBase,?_,?_⟩
      · rintro (_ | k) r' at'
        · cases at'
          change X86.load m' (c.regs .rsp - 8) 8 = c.regs r
          rw [load_congr (fun x inside => mem x (word x inside).2) (by omega)]
          exact load_store_same (n := 8) m _ _ (by omega)
        · have plain : r' ≠ .rsp := fun is => away.2 (is ▸ List.mem_of_getElem? at')
          have offset : c.regs .rsp - 8 - BitVec.ofNat 64 (8 * (k + 1)) = c.regs .rsp - BitVec.ofNat 64 (8 * (k + 1 + 1)) :=
            sub_ofNat _ (i := 8) (by omega)
          rw [← others r' plain,← offset,← top]
          exact words k r' at'
      · intro x out
        rw [List.length_cons,Nat.mul_succ] at out
        refine (mem x fun inside => out (inside.mono (by omega))).trans ?_
        exact store_of_not_within _ fun inside => out (word x inside).1

end

/-! ### Threads with memory of their own -/

/-- If each thread's invariant depends only on memory in its own region, and no step
    of a thread that has its invariant changes another's region, all have theirs. -/
theorem Reach.apart {ι A B Loc Inp : Type} [DecidableEq ι] {init : Config ι (A → B) Loc → Prop}
    {step : ι → Inp → (A → B) → Loc → Option ((A → B) × Loc)} (own : ι → A → Prop) (inv : ι → (A → B) → Loc → Prop)
    (start : ∀ s, init s → ∀ i, inv i s.shared (s.loc i))
    (frame : ∀ i m m' l, (∀ x, own i x → m' x = m x) → inv i m l → inv i m' l)
    (keep : ∀ i x m l m' l', inv i m l → step i x m l = some (m',l') →
      inv i m' l' ∧ ∀ j, j ≠ i → ∀ y, own j y → m' y = m y)
    {s : Config ι (A → B) Loc} (reach : Reachable (threads init step) s) : ∀ i, inv i s.shared (s.loc i) := by
  induction reach with
  | init first => exact start _ first
  | @step s t a _ _ moved ih =>
    obtain ⟨i,x⟩ := a
    obtain ⟨m',l',ran,rfl⟩ := threads_step moved
    obtain ⟨mine,rest⟩ := keep i x _ _ _ _ (ih i) ran
    intro j
    by_cases same : j = i
    · subst same
      simpa using mine
    · simpa [same] using frame j _ _ _ (rest j same) (ih j)

end Bootcode.Private
