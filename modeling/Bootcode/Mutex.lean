import Bootcode.Bits

/-!
`mutex_lock` and `mutex_unlock` among any number of vCPUs: the mutex word is the
bit of the vCPU that holds it, so that no two vCPUs with different numbers do.
-/
namespace Bootcode.Mutex
open Bootcode.Bits

abbrev Word := BitVec 64

/-- Before each access of `mutex_lock` to the word, and before its hypercall. -/
inductive LockPc
  | cmpxchg (retry_cntr : Nat)
  | bsf
  | vmmcall (rbx : Option Nat)
  deriving DecidableEq

def RETRY_COUNT : Nat := 3072

/-- One step of `mutex_lock` on vCPU `id`: the word, and where it goes on; with `none`
    it has the mutex. -/
def mutex_lock (id : Nat) : LockPc → Word → Word × Option LockPc
  | .cmpxchg retry_cntr, m =>
    if m = 0 then ((1 : Word) <<< id,none) else (m,some (if retry_cntr - 1 = 0 then .bsf else .cmpxchg (retry_cntr - 1)))
  | .bsf, m => (m,some (.vmmcall (bsf m)))
  | .vmmcall _, m => (m,some (.cmpxchg RETRY_COUNT))

def mutex_unlock (_ : Word) : Word := 0

/-- Whoever gets the mutex has found it free. -/
theorem mutex_lock_none {id : Nat} {k : LockPc} {m m' : Word} (ran : mutex_lock id k m = (m',none)) :
    m = 0 ∧ m' = (1 : Word) <<< id := by
  cases k with
  | cmpxchg retry_cntr =>
    rw [mutex_lock] at ran
    split at ran
    · rename_i zero
      cases ran
      exact ⟨zero,rfl⟩
    · cases ran
  | bsf => cases ran
  | vmmcall rbx => cases ran

theorem mutex_lock_some {id : Nat} {k k' : LockPc} {m m' : Word} (ran : mutex_lock id k m = (m',some k')) : m' = m := by
  cases k with
  | cmpxchg retry_cntr =>
    rw [mutex_lock] at ran
    split at ran <;> cases ran
    rfl
  | bsf => cases ran; rfl
  | vmmcall rbx => cases ran; rfl

theorem shiftLeft_inj {i j : Nat} (small : i < 64) (same : (1 : Word) <<< i = (1 : Word) <<< j) : i = j := by
  have bit : ((1 : Word) <<< i).getLsbD i = ((1 : Word) <<< j).getLsbD i := by rw [same]
  simp only [BitVec.getLsbD_shiftLeft,Nat.lt_irrefl,Nat.sub_self,small] at bit
  by_cases lt : i < j
  · simp [lt] at bit
  · simp [lt] at bit
    omega

theorem shiftLeft_ne_zero {i : Nat} (small : i < 64) : (1 : Word) <<< i ≠ 0 := by
  intro zero
  have bit : ((1 : Word) <<< i).getLsbD i = false := by rw [zero]; simp
  simp [small] at bit

section
variable {ι Loc : Type} {id : ι → Nat} {holds : Loc → Bool} {m m' : Word} {loc loc' : ι → Loc}

/-- A vCPU whose place `holds` the mutex has its bit in the word. -/
def Locks (id : ι → Nat) (holds : Loc → Bool) (m : Word) (loc : ι → Loc) : Prop :=
  ∀ i, holds (loc i) = true → m = (1 : Word) <<< id i

namespace Locks
variable (locks : Locks id holds m loc) {i j : ι}
include locks

/-- Mutual exclusion. -/
theorem unique (small : ∀ i, id i < 64) (distinct : Function.Injective id) (mine : holds (loc i) = true)
    (other : holds (loc j) = true) : i = j :=
  distinct (shiftLeft_inj (small i) ((locks i mine).symm.trans (locks j other)))

/-- Nobody holds a free mutex. -/
theorem free (small : ∀ i, id i < 64) (zero : m = 0) (j : ι) : holds (loc j) = false := by
  by_contra is
  have bit := locks j (by simpa using is)
  exact shiftLeft_ne_zero (small j) (bit.symm.trans zero)

/-- A step that neither takes the mutex nor gives it back. -/
theorem still (others : ∀ j, j ≠ i → loc' j = loc j) (word : m' = m) (same : holds (loc' i) = holds (loc i)) :
    Locks id holds m' loc' := by
  intro j is
  rw [word]
  by_cases mine : j = i
  · subst mine
    rw [same] at is
    exact locks j is
  · rw [others j mine] at is
    exact locks j is

/-- A step of `mutex_lock`. -/
theorem lock (small : ∀ i, id i < 64) {k : LockPc} {r : Option LockPc} (others : ∀ j, j ≠ i → loc' j = loc j)
    (ran : mutex_lock (id i) k m = (m',r)) (out : holds (loc i) = false) (taken : holds (loc' i) = r.isNone) :
    Locks id holds m' loc' := by
  cases r with
  | none =>
    obtain ⟨zero,bit⟩ := mutex_lock_none ran
    intro j is
    by_cases mine : j = i
    · subst mine
      exact bit
    · rw [others j mine,locks.free small zero j] at is
      cases is
  | some k' => exact locks.still others (mutex_lock_some ran) (by rw [taken,out]; rfl)

/-- The holder gives the mutex back. -/
theorem unlock (small : ∀ i, id i < 64) (distinct : Function.Injective id) (others : ∀ j, j ≠ i → loc' j = loc j)
    (mine : holds (loc i) = true) (gone : holds (loc' i) = false) : Locks id holds m' loc' := by
  intro j is
  by_cases same : j = i
  · rw [same,gone] at is
    cases is
  · rw [others j same] at is
    exact absurd (locks.unique small distinct is mine) same

end Locks
end
end Bootcode.Mutex
