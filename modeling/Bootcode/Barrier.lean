import Bootcode.Cond
import Bootcode.Interleave
import Mathlib.Data.Fintype.Card

/-!
`barrier()` on any number of vCPUs under sequential consistency, as it is compiled:
ATOMIC_DECQ does not say that it writes `barrier_word`, so the test behind it is made
on the value loaded before it, which is never zero. `barrier_cond` therefore stays at
1 from the first use on. That use is sound (`Phase` says who has come how far, and the
handshake of `Cond` leaves nobody asleep, `Shake`); in the second all vCPUs can go to
sleep for good.
-/
namespace Bootcode.Barrier
open Bootcode.Bits Bootcode.Tso Bootcode.Cond Bootcode.Interleave

/-- Before each access of `barrier`. `seen` is the value of `barrier_word` that the test
    behind ATOMIC_DECQ is made on: there is none before ATOMIC_INCQ. -/
inductive Pc
  | wait (seen : Option Word) (k : WaitPc)
  | count (seen : Option Word)
  | test
  | set (down : Bool) (k : SetPc)
  | load
  deriving DecidableEq

def val (b : Bool) : Word := if b then 1 else 0

/-- `barrier()` on vCPU `id` of a pool of `ncpus`; it goes on with `none` when it returns. -/
def barrier (ncpus retries id : Nat) (order : Bool) : Pc → Access Cell Word (Option Pc)
  | .wait seen k => (cond_wait retries id (val seen.isSome) k).map fun r => some (r.elim (.count seen) (.wait seen))
  -- ATOMIC_INCQ(barrier_word)
  | .count none => .rmw .barrier_word (· + 1) fun _ => some .test
  | .test =>
    .load .barrier_word fun x => some (if x = BitVec.ofNat 64 ncpus then .set false .st else .wait (some x) .btsIntent)
  | .set down k =>
    (cond_set order (val !down) k).map fun r => r.elim (if down then none else some .load) fun k => some (.set down k)
  -- The value is loaded again behind `cond_set(barrier_cond, 1)`, but not behind ATOMIC_DECQ.
  | .load => .load .barrier_word fun x => some (.count (some x))
  | .count (some x) => .rmw .barrier_word (· - 1) fun _ => if x = 0 then some (.set true .st) else none

/-- A vCPU's place in its current call, if it is in one, and the number of calls it
    has entered. -/
structure Vcpu where
  pc : Option Pc
  entered : Nat

/-- The order of a pair of loads, and whether a `hlt` returns without a kick. -/
structure Input where
  order : Bool := true
  spurious : Bool := false

/-- One step of a vCPU that calls `barrier()` up to `total` times. -/
def step (ncpus retries id total : Nat) (x : Input) (m : Machine Cell Word) (l : Vcpu) :
    Option (Machine Cell Word × Vcpu) :=
  match l.pc with
  | none => if l.entered < total then some (m,⟨some (.wait none .btsIntent),l.entered + 1⟩) else none
  | some pc => ((barrier ncpus retries id x.order pc).sc id x.spurious m).map fun r => (r.1,{ l with pc := r.2 })

/-- `n` vCPUs, the numbers they have and how often each calls `barrier()`. -/
structure Pool (n : Nat) where
  retries : Nat
  id : Fin n → Nat
  total : Fin n → Nat
  small : ∀ i, id i < 64
  distinct : Function.Injective id

abbrev State (n : Nat) := Config (Fin n) (Machine Cell Word) Vcpu

variable {n : Nat}

/-- From zero words, whatever wake tokens are pending. -/
def Pool.system (p : Pool n) : System (State n) (Fin n × Input) :=
  threads (fun s => (∀ a, s.shared.mem a = 0) ∧ ∀ i, s.loc i = ⟨none,0⟩) fun i => step n p.retries (p.id i) (p.total i)

theorem Pool.le (p : Pool n) : n ≤ 64 := by
  have into : Function.Injective fun i => (⟨p.id i,p.small i⟩ : Fin 64) := fun i j same => p.distinct (Fin.mk.inj same)
  simpa using Fintype.card_le_of_injective _ into

/-! ### The first use and what comes after it -/

/-- How many calls have returned. -/
def returned (l : Vcpu) : Nat := if l.pc.isSome then l.entered - 1 else l.entered

/-- The vCPU has counted itself in, and not out again. -/
def counted : Option Pc → Bool
  | some .test | some (.wait (some _) _) | some (.set false _) | some .load | some (.count (some _)) => true
  | _ => false
/-- The vCPU is about to store 1 to `barrier_cond`. -/
def ends : Option Pc → Bool
  | some (.set _ .st) => true
  | _ => false
/-- The same, or it is about to look at the count for that. -/
def looks (pc : Option Pc) : Bool := ends pc || pc == some .test

/-- Where a vCPU can be before and after the first store of 1 to `barrier_cond`. In the
    second call it does not come past the first `cond_wait`. -/
def Fits (opened : Bool) (l : Vcpu) : Prop :=
  match l.pc with
  | none => l.entered = opened.toNat
  | some (.wait none k) =>
    l.entered = opened.toNat + 1 ∧ (opened = true → k ≠ .btrIntent) ∧ (opened = false → stale k = false)
  | some (.wait (some x) k) => l.entered = 1 ∧ x ≠ 0 ∧ (k = .btrIntent → opened = true)
  | some (.count none) => l.entered = 1 ∧ opened = false
  | some (.count (some x)) => l.entered = 1 ∧ x ≠ 0 ∧ opened = true
  | some .test => l.entered = 1
  | some .load => l.entered = 1 ∧ opened = true
  | some (.set down k) => l.entered = 1 ∧ down = false ∧ (k ≠ .st → opened = true)

/-- `opened` says that somebody has stored 1 to `barrier_cond`, which is only done when
    all have counted themselves in. -/
structure Phase (s : State n) (opened : Bool) : Prop where
  c : s.shared.mem .c = val opened
  fits : ∀ i, Fits opened (s.loc i)
  all : opened = false → ∀ i, ends (s.loc i).pc = true → ∀ j, counted (s.loc j).pc = true
  seen : opened = false → Fin n → (∀ j, counted (s.loc j).pc = true) → ∃ i, looks (s.loc i).pc = true
  barrier_word : s.shared.mem .barrier_word = BitVec.ofNat 64 (tally (fun l => (counted l.pc).toNat) s.loc)

theorem val_inj {a b : Bool} : val a = val b ↔ a = b := by
  cases a <;> cases b <;> decide

theorem counted_le (loc : Fin n → Vcpu) : tally (fun l => (counted l.pc).toNat) loc ≤ n := by
  have each : tally (fun l => (counted l.pc).toNat) loc ≤ ∑ _j : Fin n, 1 := Finset.sum_le_sum fun j _ => Bool.toNat_le _
  simpa using each

/-- Who has counted himself in is where he may be after the store, too. -/
theorem Fits.counted {l : Vcpu} (fits : Fits false l) (is : counted l.pc = true) : Fits true l := by
  obtain ⟨pc,e⟩ := l
  cases pc with
  | none => cases is
  | some pc =>
    cases pc with
    | wait seen k =>
      cases seen with
      | none => cases is
      | some x => exact ⟨fits.1,fits.2.1,fun _ => rfl⟩
    | count seen =>
      cases seen with
      | none => cases is
      | some x => cases fits.2.2
    | test => exact fits
    | load => cases fits.2
    | set down k => exact ⟨fits.1,fits.2.1,fun _ => rfl⟩

/-- How many calls a vCPU has returned from, and entered. -/
theorem Fits.calls {opened : Bool} {l : Vcpu} (fits : Fits opened l) :
    returned l ≤ opened.toNat ∧ opened.toNat ≤ l.entered := by
  obtain ⟨pc,e⟩ := l
  have most := Bool.toNat_le opened
  cases pc with
  | none => exact ⟨fits.le,fits.ge⟩
  | some pc =>
    have entered : 1 ≤ e ∧ e ≤ opened.toNat + 1 := by
      cases pc with
      | wait seen k => cases seen <;> have is := fits.1 <;> dsimp only at is <;> omega
      | count seen => cases seen <;> have is := fits.1 <;> dsimp only at is <;> omega
      | test => have is : e = 1 := fits; omega
      | load | set down k => have is := fits.1; dsimp only at is; omega
    simp only [returned,Option.isSome_some,if_true]
    omega

namespace Phase
variable {s s' : State n} {opened : Bool} {i : Fin n}

/-- A step that counts nobody in or out and does not store to `barrier_cond`. -/
theorem still (phase : Phase s opened) (others : ∀ j, j ≠ i → s'.loc j = s.loc j) (c : s'.shared.mem .c = s.shared.mem .c)
    (word : s'.shared.mem .barrier_word = s.shared.mem .barrier_word) (fits : Fits opened (s'.loc i))
    (same : counted (s'.loc i).pc = counted (s.loc i).pc)
    (all : ends (s'.loc i).pc = true → opened = false → ∀ j, counted (s.loc j).pc = true)
    (seen : opened = false → (∀ j, counted (s.loc j).pc = true) → looks (s.loc i).pc = true → looks (s'.loc i).pc = true) :
    Phase s' opened := by
  have kept : ∀ j, counted (s'.loc j).pc = counted (s.loc j).pc := by
    intro j
    by_cases mine : j = i
    · rw [mine,same]
    · rw [others j mine]
  refine ⟨by rw [c,phase.c],?_,?_,?_,?_⟩
  · exact forall_of_others (P := fun _ l => Fits opened l) others fits fun j _ => phase.fits j
  · intro early j is
    simp only [kept]
    by_cases mine : j = i
    · subst mine
      exact all is early
    · rw [others j mine] at is
      exact phase.all early j is
  · intro early some full
    simp only [kept] at full
    exact exists_of_others (P := fun l => looks l.pc = true) others (seen early full) (phase.seen early some full)
  · rw [word,phase.barrier_word]
    simp only [tally,kept]

/-- The count is that of the whole pool when all have counted themselves in. -/
theorem full_iff (phase : Phase s opened) (few : n ≤ 64) :
    s.shared.mem .barrier_word = BitVec.ofNat 64 n ↔ ∀ j, counted (s.loc j).pc = true := by
  have most := counted_le s.loc
  have ones : ∑ _j : Fin n, 1 = n := by simp
  have full := Finset.sum_eq_sum_iff_of_le (s := Finset.univ) (f := fun j => (counted (s.loc j).pc).toNat) (g := fun _ => 1)
    fun j _ => Bool.toNat_le _
  rw [ones] at full
  rw [phase.barrier_word,← BitVec.toNat_inj,BitVec.toNat_ofNat,BitVec.toNat_ofNat,Nat.mod_eq_of_lt (by omega),
    Nat.mod_eq_of_lt (by omega)]
  simpa [tally] using full

/-- Who has counted himself in does not load a zero. -/
theorem word_ne_zero (phase : Phase s opened) (few : n ≤ 64) (mine : counted (s.loc i).pc = true) :
    s.shared.mem .barrier_word ≠ 0 := by
  have some := le_tally (fun l => (counted l.pc).toNat) s.loc i
  have most := counted_le s.loc
  rw [mine] at some
  rw [phase.barrier_word]
  intro none
  have value := congrArg BitVec.toNat none
  rw [BitVec.toNat_ofNat,Nat.mod_eq_of_lt (by omega)] at value
  simp at some value
  omega

/-- A step of one of the two waits. -/
theorem wait (phase : Phase s opened) {id e : Nat} {seen : Option Word} {k : WaitPc} {r : Option WaitPc}
    (others : ∀ j, j ≠ i → s'.loc j = s.loc j) (before : s.loc i = ⟨some (.wait seen k),e⟩)
    (after : s'.loc i = ⟨some (r.elim (.count seen) (.wait seen)),e⟩)
    (waits : Waits id (val seen.isSome) s.shared k s'.shared r) : Phase s' opened := by
  have fits := phase.fits i
  have c := phase.c
  rw [before] at fits
  refine phase.still others waits.c waits.barrier_word ?_ ?_ ?_ ?_
  · rw [after]
    cases seen with
    | none =>
      obtain ⟨entered,late,early⟩ := fits
      dsimp only at entered
      cases r with
      | none =>
        cases opened with
        | true => exact absurd (waits.returns rfl) (late rfl)
        | false => exact ⟨entered,rfl⟩
      | some k' =>
        refine ⟨entered,?_,?_⟩
        · rintro rfl rfl
          have zero := waits.leaves rfl
          rw [c,val_inj] at zero
          cases zero
        · rintro rfl
          by_contra stops
          obtain ⟨rfl,-,-⟩ := waits.halts c k' rfl (by simpa using stops)
          cases early rfl
    | some x =>
      obtain ⟨entered,some,left⟩ := fits
      cases r with
      | none => exact ⟨entered,some,left (waits.returns rfl)⟩
      | some k' =>
        refine ⟨entered,some,?_⟩
        rintro rfl
        have one := waits.leaves rfl
        rw [c,val_inj] at one
        exact one
  · rw [before,after]
    cases seen <;> cases r <;> rfl
  · rw [after]
    cases r <;> nofun
  · rw [before]
    intro _ _ is
    cases seen <;> cases is

/-- A vCPU counts itself in. -/
theorem up (phase : Phase s opened) {e : Nat} (others : ∀ j, j ≠ i → s'.loc j = s.loc j)
    (before : s.loc i = ⟨some (.count none),e⟩) (after : s'.loc i = ⟨some .test,e⟩)
    (shared : s'.shared = s.shared.set .barrier_word (s.shared.mem .barrier_word + 1)) : Phase s' opened := by
  have fits := phase.fits i
  rw [before] at fits
  have out : counted (s.loc i).pc = false := by rw [before]; rfl
  have inside : counted (s'.loc i).pc = true := by rw [after]; rfl
  refine ⟨?_,?_,?_,?_,?_⟩
  · rw [shared,Machine.set_of_ne _ _ (by simp),phase.c]
  · exact forall_of_others (P := fun _ l => Fits opened l) others (by rw [after]; exact fits.1) fun j _ => phase.fits j
  · intro early j is
    by_cases mine : j = i
    · rw [mine,after] at is
      cases is
    · rw [others j mine] at is
      have mine := phase.all early j is i
      rw [out] at mine
      cases mine
  · exact fun _ _ _ => ⟨i,by rw [after]; rfl⟩
  · have sum := tally_moved (fun l => (counted l.pc).toNat) others
    rw [out,inside] at sum
    rw [shared,Machine.set_self,phase.barrier_word,show tally (fun l => (counted l.pc).toNat) s'.loc = _ from sum,
      BitVec.ofNat_add]
    rfl

/-- A vCPU counts itself out. -/
theorem down (phase : Phase s opened) {x : Word} {e : Nat} (others : ∀ j, j ≠ i → s'.loc j = s.loc j)
    (before : s.loc i = ⟨some (.count (some x)),e⟩) (after : s'.loc i = ⟨if x = 0 then some (.set true .st) else none,e⟩)
    (shared : s'.shared = s.shared.set .barrier_word (s.shared.mem .barrier_word - 1)) : Phase s' opened := by
  have fits := phase.fits i
  rw [before] at fits
  obtain ⟨entered,some,rfl⟩ := fits
  rw [if_neg some] at after
  have inside : counted (s.loc i).pc = true := by rw [before]; rfl
  have out : counted (s'.loc i).pc = false := by rw [after]; rfl
  refine ⟨?_,?_,nofun,nofun,?_⟩
  · rw [shared,Machine.set_of_ne _ _ (by simp),phase.c]
  · exact forall_of_others (P := fun _ l => Fits true l) others (by rw [after]; exact entered) fun j _ => phase.fits j
  · have sum := tally_moved (fun l => (counted l.pc).toNat) others
    rw [out,inside] at sum
    rw [shared,Machine.set_self,phase.barrier_word,show tally (fun l => (counted l.pc).toNat) s.loc = _ from sum.symm,
      BitVec.ofNat_add]
    exact BitVec.add_sub_cancel _ _

/-- A vCPU stores 1 to `barrier_cond`, as the first or after others. -/
theorem store (phase : Phase s opened) {down : Bool} {e : Nat} (others : ∀ j, j ≠ i → s'.loc j = s.loc j)
    (before : s.loc i = ⟨some (.set down .st),e⟩) (after : s'.loc i = ⟨some (.set down .fence),e⟩)
    (shared : s'.shared = s.shared.set .c (val !down)) : Phase s' true := by
  have fits := phase.fits i
  rw [before] at fits
  obtain ⟨entered,rfl,-⟩ := fits
  have late : ∀ j, Fits true (s.loc j) := by
    intro j
    cases opened with
    | true => exact phase.fits j
    | false => exact (phase.fits j).counted (phase.all rfl i (by rw [before]; rfl) j)
  refine ⟨by rw [shared,Machine.set_self]; rfl,?_,nofun,nofun,?_⟩
  · exact forall_of_others (P := fun _ l => Fits true l) others (by rw [after]; exact ⟨entered,rfl,fun _ => rfl⟩)
      fun j _ => late j
  · have kept : ∀ j, counted (s'.loc j).pc = counted (s.loc j).pc := by
      intro j
      by_cases mine : j = i
      · rw [mine,before,after]
        rfl
      · rw [others j mine]
    rw [shared,Machine.set_of_ne _ _ (by simp),phase.barrier_word]
    simp only [tally,kept]

/-- Past its store a setter finds 1 in `barrier_cond`. -/
theorem c_of_past (phase : Phase s opened) {k : SetPc} (pc : (s.loc i).pc = some (.set false k)) (past : k ≠ .st) :
    s.shared.mem .c = val true := by
  have fits := phase.fits i
  rw [Fits,pc] at fits
  rw [phase.c,fits.2.2 past]

end Phase

inductive Moves (n id : Nat) : Machine Cell Word → Vcpu → Machine Cell Word → Vcpu → Prop
  | enter {m : Machine Cell Word} {e : Nat} : Moves n id m ⟨none,e⟩ m ⟨some (.wait none .btsIntent),e + 1⟩
  | wait {m m' : Machine Cell Word} {e : Nat} {seen : Option Word} {k : WaitPc} {r : Option WaitPc}
      (waits : Waits id (val seen.isSome) m k m' r) :
      Moves n id m ⟨some (.wait seen k),e⟩ m' ⟨some (r.elim (.count seen) (.wait seen)),e⟩
  | up {m : Machine Cell Word} {e : Nat} :
      Moves n id m ⟨some (.count none),e⟩ (m.set .barrier_word (m.mem .barrier_word + 1)) ⟨some .test,e⟩
  | all {m : Machine Cell Word} {e : Nat} (is : m.mem .barrier_word = BitVec.ofNat 64 n) :
      Moves n id m ⟨some .test,e⟩ m ⟨some (.set false .st),e⟩
  | some {m : Machine Cell Word} {e : Nat} (not : m.mem .barrier_word ≠ BitVec.ofNat 64 n) :
      Moves n id m ⟨some .test,e⟩ m ⟨some (.wait (some (m.mem .barrier_word)) .btsIntent),e⟩
  | store {m : Machine Cell Word} {e : Nat} (down : Bool) :
      Moves n id m ⟨some (.set down .st),e⟩ (m.set .c (val !down)) ⟨some (.set down .fence),e⟩
  | set {m m' : Machine Cell Word} {e : Nat} {down order spurious : Bool} {k : SetPc} {r : Option SetPc} (past : k ≠ .st)
      (ran : (cond_set order (val !down) k).sc id spurious m = some (m',r)) :
      Moves n id m ⟨some (.set down k),e⟩ m' ⟨r.elim (if down then none else some .load) fun k => some (.set down k),e⟩
  | load {m : Machine Cell Word} {e : Nat} : Moves n id m ⟨some .load,e⟩ m ⟨some (.count (some (m.mem .barrier_word))),e⟩
  | down {m : Machine Cell Word} {e : Nat} (x : Word) :
      Moves n id m ⟨some (.count (some x)),e⟩ (m.set .barrier_word (m.mem .barrier_word - 1))
        ⟨if x = 0 then some (.set true .st) else none,e⟩

/-- The bit of `intent_cpus` that a vCPU's place demands, and that of `waiting_cpus`. -/
def isInside : Option Pc → Bool
  | some (.wait _ k) => inside k
  | _ => false
def isAsleep : Option Pc → Bool
  | some (.wait _ k) => asleep k
  | _ => false

/-- No bit of `barrier_cond` is the vCPU's, and it is not past a store to it. -/
def aside : Option Pc → Bool
  | some (.wait _ k) => !inside k
  | some (.set _ k) => k == .st
  | _ => true

theorem of_aside {pc : Option Pc} (is : aside pc = true) : isInside pc = false ∧ isAsleep pc = false ∧
    (∀ x w, pc = some (.wait (some x) w) → stale w = false) ∧ ∀ k, pc = some (.set false k) → k = .st := by
  cases pc with
  | none => exact ⟨rfl,rfl,nofun,nofun⟩
  | some pc =>
    cases pc with
    | wait seen k =>
      cases k with
      | btsIntent => exact ⟨rfl,rfl,(fun _ _ same => by cases same; rfl),nofun⟩
      | _ => cases is
    | set down k => exact ⟨rfl,rfl,nofun,fun _ same => by cases same; simpa [aside] using is⟩
    | _ => exact ⟨rfl,rfl,nofun,nofun⟩

theorem step_moves {retries id total : Nat} {x : Input} {m m' : Machine Cell Word} {l l' : Vcpu} (small : id < 64)
    (intent : (m.mem .intent_cpus).getLsbD id = isInside l.pc) (waiting : (m.mem .waiting_cpus).getLsbD id = isAsleep l.pc)
    (moved : step n retries id total x m l = some (m',l')) :
    Moves n id m l m' l' ∧ (l'.entered ≤ total ∨ l'.entered = l.entered) := by
  obtain ⟨pc,e⟩ := l
  cases pc with
  | none =>
    simp only [step] at moved
    split at moved
    · rename_i more
      cases moved
      exact ⟨.enter,.inl more⟩
    · cases moved
  | some pc =>
    obtain ⟨⟨m1,next⟩,ran,same⟩ := Option.map_eq_some_iff.mp moved
    cases same
    refine ⟨?_,.inr rfl⟩
    cases pc with
    | wait seen k =>
      rw [barrier,sc_map] at ran
      obtain ⟨⟨m2,r⟩,waits,same⟩ := Option.map_eq_some_iff.mp ran
      cases same
      exact .wait (wait_step small intent waiting waits)
    | count seen =>
      cases seen with
      | none => cases ran; exact .up
      | some x => cases ran; exact .down x
    | test =>
      cases ran
      dsimp only
      by_cases is : m.mem .barrier_word = BitVec.ofNat 64 n
      · rw [if_pos is]
        exact .all is
      · rw [if_neg is]
        exact .some is
    | load => cases ran; exact .load
    | set down k =>
      rw [barrier,sc_map] at ran
      obtain ⟨⟨m2,r⟩,sets,same⟩ := Option.map_eq_some_iff.mp ran
      cases same
      by_cases st : k = .st
      · subst st
        cases sets
        exact .store down
      · exact .set st sets

/-- The words of `barrier_cond` say who waits; a setter past its store keeps its promise
    to the stale waiters for 1; and a stale waiter for 1 has a token or such a setter
    once 1 is stored. -/
structure Shake (p : Pool n) (s : State n) : Prop where
  intent : ∀ i, (s.shared.mem .intent_cpus).getLsbD (p.id i) = isInside (s.loc i).pc
  waiting : ∀ i, (s.shared.mem .waiting_cpus).getLsbD (p.id i) = isAsleep (s.loc i).pc
  promise : ∀ i k, (s.loc i).pc = some (.set false k) → k ≠ .st → ∀ j x w, (s.loc j).pc = some (.wait (some x) w) →
    stale w = true → Promise (p.id j) w (s.shared.token (p.id j)) k
  covered : ∀ j x w, (s.loc j).pc = some (.wait (some x) w) → stale w = true → s.shared.mem .c = val true →
    w = .hlt ∧ s.shared.token (p.id j) = true ∨ ∃ i k, (s.loc i).pc = some (.set false k) ∧ k ≠ .st

namespace Shake
variable {p : Pool n} {s s' : State n} {i : Fin n}

theorem start (first : p.system.init s) : Shake p s := by
  obtain ⟨mem,loc⟩ := first
  refine ⟨?_,?_,?_,?_⟩
  · intro i
    rw [mem,loc]
    simp [isInside]
  · intro i
    rw [mem,loc]
    simp [isAsleep]
  · intro i k pc
    rw [loc] at pc
    cases pc
  · intro j x w pc
    rw [loc] at pc
    cases pc

/-- A step outside `cond_wait` and `cond_set`. -/
theorem plain (shake : Shake p s) (others : ∀ j, j ≠ i → s'.loc j = s.loc j)
    (mem : ∀ a, a ≠ .barrier_word → s'.shared.mem a = s.shared.mem a) (token : s'.shared.token = s.shared.token)
    (was : aside (s.loc i).pc = true) (is : aside (s'.loc i).pc = true) : Shake p s' := by
  obtain ⟨inside,asleep,-,unset⟩ := of_aside was
  obtain ⟨inside',asleep',fresh,unset'⟩ := of_aside is
  have waiter_ne : ∀ {j x w}, (s'.loc j).pc = some (.wait (some x) w) → stale w = true → j ≠ i := by
    intro j x w pc waits mine
    rw [mine] at pc
    rw [fresh _ _ pc] at waits
    cases waits
  refine ⟨?_,?_,?_,?_⟩
  · rw [mem _ (by simp)]
    exact forall_of_others (P := fun j l => (s.shared.mem .intent_cpus).getLsbD (p.id j) = isInside l.pc) others
      (by rw [shake.intent,inside,inside']) fun j _ => shake.intent j
  · rw [mem _ (by simp)]
    exact forall_of_others (P := fun j l => (s.shared.mem .waiting_cpus).getLsbD (p.id j) = isAsleep l.pc) others
      (by rw [shake.waiting,asleep,asleep']) fun j _ => shake.waiting j
  · intro X k setter past j x w pc waits
    have away : X ≠ i := fun mine => past (unset' k (mine ▸ setter))
    rw [others j (waiter_ne pc waits)] at pc
    rw [others X away] at setter
    rw [token]
    exact shake.promise X k setter past j x w pc waits
  · intro j x w pc waits ended
    rw [others j (waiter_ne pc waits)] at pc
    rw [mem _ (by simp)] at ended
    rw [token]
    refine (shake.covered j x w pc waits ended).imp_right ?_
    rintro ⟨X,k,setter,past⟩
    have away : X ≠ i := fun mine => past (unset k (mine ▸ setter))
    exact ⟨X,k,by rw [others X away]; exact setter,past⟩

/-- A step of `cond_wait`. -/
theorem wait (shake : Shake p s) {opened : Bool} {e : Nat} (phase : Phase s opened)
    (others : ∀ j, j ≠ i → s'.loc j = s.loc j)
    {seen : Option Word} {k : WaitPc} {r : Option WaitPc} (before : s.loc i = ⟨some (.wait seen k),e⟩)
    (after : s'.loc i = ⟨some (r.elim (.count seen) (.wait seen)),e⟩)
    (waits : Waits (p.id i) (val seen.isSome) s.shared k s'.shared r) : Shake p s' := by
  have ids : ∀ {j}, j ≠ i → p.id j ≠ p.id i := fun other same => other (p.distinct same)
  -- A waiter for 1 that goes stale when 1 is stored has been so before.
  have halts : ∀ x w, (s'.loc i).pc = some (.wait (some x) w) → stale w = true → s.shared.mem .c = val true →
      seen = some x ∧ k = .btsWaiting ∧ w = .hlt ∧ s'.shared.token = s.shared.token := by
    intro x w pc is ended
    rw [after] at pc
    cases r with
    | none => cases pc
    | some k' =>
      cases pc
      exact ⟨rfl,waits.halts ended w rfl is⟩
  have setter_ne : ∀ {X k'}, (s'.loc X).pc = some (.set false k') → X ≠ i := by
    intro X k' pc mine
    rw [mine,after] at pc
    cases r <;> cases pc
  refine ⟨?_,?_,?_,?_⟩
  · refine forall_of_others (P := fun j l => (s'.shared.mem .intent_cpus).getLsbD (p.id j) = isInside l.pc) others ?_ ?_
    · rw [waits.intent,if_pos rfl,after]
      cases r <;> rfl
    · intro j other
      rw [waits.intent,if_neg (ids other)]
      exact shake.intent j
  · refine forall_of_others (P := fun j l => (s'.shared.mem .waiting_cpus).getLsbD (p.id j) = isAsleep l.pc) others ?_ ?_
    · rw [waits.waiting,if_pos rfl,after]
      cases r <;> rfl
    · intro j other
      rw [waits.waiting,if_neg (ids other)]
      exact shake.waiting j
  · intro X k' setter past j x w pc is
    rw [others X (setter_ne setter)] at setter
    by_cases mine : j = i
    · subst mine
      obtain ⟨rfl,rfl,rfl,token⟩ := halts x w pc is (phase.c_of_past setter past)
      rw [token]
      exact (shake.promise X k' setter past j x .btsWaiting (by rw [before]) rfl).halts
    · rw [others j mine] at pc
      rw [waits.token _ (ids mine)]
      exact shake.promise X k' setter past j x w pc is
  · intro j x w pc is ended
    rw [waits.c] at ended
    have kept : (∃ X k', (s.loc X).pc = some (.set false k') ∧ k' ≠ .st) →
        ∃ X k', (s'.loc X).pc = some (.set false k') ∧ k' ≠ .st := by
      rintro ⟨X,k',setter,past⟩
      have away : X ≠ i := fun mine => by rw [mine,before] at setter; cases setter
      exact ⟨X,k',by rw [others X away]; exact setter,past⟩
    by_cases mine : j = i
    · subst mine
      obtain ⟨rfl,rfl,rfl,-⟩ := halts x w pc is ended
      rcases shake.covered j x .btsWaiting (by rw [before]) rfl ended with ⟨asleep,-⟩ | setter
      · cases asleep
      · exact .inr (kept setter)
    · rw [others j mine] at pc
      rw [waits.token _ (ids mine)]
      exact (shake.covered j x w pc is ended).imp_right kept

/-- The store of `cond_set`: the setter has everything before it. -/
theorem store (shake : Shake p s) {e : Nat} (others : ∀ j, j ≠ i → s'.loc j = s.loc j)
    (before : s.loc i = ⟨some (.set false .st),e⟩) (after : s'.loc i = ⟨some (.set false .fence),e⟩)
    (shared : s'.shared = s.shared.set .c (val true)) : Shake p s' := by
  have waiter_ne : ∀ {j x w}, (s'.loc j).pc = some (.wait (some x) w) → j ≠ i := by
    intro j x w pc mine
    rw [mine,after] at pc
    cases pc
  refine ⟨?_,?_,?_,?_⟩
  · rw [shared,Machine.set_of_ne _ _ (by simp)]
    exact forall_of_others (P := fun j l => (s.shared.mem .intent_cpus).getLsbD (p.id j) = isInside l.pc) others
      (by rw [shake.intent,before,after]; rfl) fun j _ => shake.intent j
  · rw [shared,Machine.set_of_ne _ _ (by simp)]
    exact forall_of_others (P := fun j l => (s.shared.mem .waiting_cpus).getLsbD (p.id j) = isAsleep l.pc) others
      (by rw [shake.waiting,before,after]; rfl) fun j _ => shake.waiting j
  · intro X k setter past j x w pc is
    rw [others j (waiter_ne pc)] at pc
    rw [shared]
    by_cases mine : X = i
    · rw [mine,after] at setter
      cases setter
      trivial
    · rw [others X mine] at setter
      exact shake.promise X k setter past j x w pc is
  · exact fun j x w pc is ended => .inr ⟨i,.fence,by rw [after],by simp⟩

/-- A later step of `cond_set`. -/
theorem set (shake : Shake p s) {e : Nat} (others : ∀ j, j ≠ i → s'.loc j = s.loc j) {order spurious : Bool} {k : SetPc}
    {r : Option SetPc} (before : s.loc i = ⟨some (.set false k),e⟩)
    (after : s'.loc i = ⟨r.elim (some .load) fun k => some (.set false k),e⟩) (past : k ≠ .st)
    (ran : (cond_set order (val true) k).sc (p.id i) spurious s.shared = some (s'.shared,r)) : Shake p s' := by
  obtain ⟨effect,more⟩ := set_step ran
  rw [if_neg past] at effect
  obtain ⟨mem,notSt⟩ := effect
  have next : (r = none ∧ (s'.loc i).pc = some .load) ∨ ∃ k', r = some k' ∧ (s'.loc i).pc = some (.set false k') := by
    rw [after]
    cases r with
    | none => exact .inl ⟨rfl,rfl⟩
    | some k' => exact .inr ⟨k',rfl,rfl⟩
  have outside : isInside (s'.loc i).pc = false ∧ isAsleep (s'.loc i).pc = false := by
    rcases next with ⟨-,pc⟩ | ⟨k',-,pc⟩ <;> rw [pc] <;> exact ⟨rfl,rfl⟩
  have waiter_ne : ∀ {j x w}, (s'.loc j).pc = some (.wait (some x) w) → j ≠ i := by
    intro j x w pc mine
    subst mine
    rcases next with ⟨-,is⟩ | ⟨k',-,is⟩ <;> rw [is] at pc <;> cases pc
  -- What the setter knows of each waiter for 1 after the step.
  have kept : ∀ j x w, (s.loc j).pc = some (.wait (some x) w) → stale w = true →
    Kept (p.id j) w (s'.shared.token (p.id j)) r := by
    intro j x w pc is
    have promise := shake.promise i k (by rw [before]) past j x w pc is
    exact set_promise ran past is (by rw [shake.intent,pc]; rfl) (by rw [shake.waiting,pc]; rfl) promise
  refine ⟨?_,?_,?_,?_⟩
  · rw [mem]
    exact forall_of_others (P := fun j l => (s.shared.mem .intent_cpus).getLsbD (p.id j) = isInside l.pc) others
      (by rw [shake.intent,before,outside.1]; rfl) fun j _ => shake.intent j
  · rw [mem]
    exact forall_of_others (P := fun j l => (s.shared.mem .waiting_cpus).getLsbD (p.id j) = isAsleep l.pc) others
      (by rw [shake.waiting,before,outside.2]; rfl) fun j _ => shake.waiting j
  · intro X k' setter past' j x w pc is
    rw [others j (waiter_ne pc)] at pc
    by_cases mine : X = i
    · subst mine
      rcases next with ⟨-,other⟩ | ⟨k'',rfl,same⟩
      · rw [other] at setter
        cases setter
      · rw [same] at setter
        cases setter
        exact kept j x w pc is
    · rw [others X mine] at setter
      exact (shake.promise X k' setter past' j x w pc is).mono (more _)
  · intro j x w pc is ended
    rw [others j (waiter_ne pc)] at pc
    rw [mem] at ended
    rcases shake.covered j x w pc is ended with ⟨asleep,pending⟩ | ⟨X,k',setter,past'⟩
    · exact .inl ⟨asleep,more _ pending⟩
    · by_cases mine : X = i
      · subst mine
        rcases next with ⟨rfl,-⟩ | ⟨k'',rfl,same⟩
        · exact .inl (kept j x w pc is)
        · exact .inr ⟨X,k'',same,fun st => notSt (by rw [st])⟩
      · exact .inr ⟨X,k',by rw [others X mine]; exact setter,past'⟩

end Shake

/-- What holds in every state that a pool reaches. -/
structure Inv (p : Pool n) (s : State n) : Prop where
  phase : ∃ opened, Phase s opened
  shake : Shake p s
  limit : ∀ i, (s.loc i).entered ≤ p.total i

theorem Inv.start {p : Pool n} {s : State n} (first : p.system.init s) : Inv p s := by
  obtain ⟨mem,loc⟩ := first
  refine ⟨⟨false,by rw [mem]; rfl,fun i => by rw [loc]; rfl,fun _ i is => ?_,fun _ i full => ?_,?_⟩,.start ⟨mem,loc⟩,
    fun i => by rw [loc]; exact Nat.zero_le _⟩
  · rw [loc] at is
    cases is
  · have mine := full i
    rw [loc] at mine
    cases mine
  · have none : tally (fun l => (counted l.pc).toNat) s.loc = 0 := tally_eq_zero.mpr fun i => by rw [loc]; rfl
    rw [mem,none]
    rfl

theorem Inv.step {p : Pool n} {s s' : State n} {a : Fin n × Input} (inv : Inv p s) (moved : p.system.step s a = some s') :
    Inv p s' := by
  obtain ⟨i,x⟩ := a
  obtain ⟨m',l',ran,shared',after,others⟩ := threads_moved moved
  obtain ⟨moves,limit⟩ := step_moves (p.small i) (inv.shake.intent i) (inv.shake.waiting i) ran
  obtain ⟨opened,phase⟩ := inv.phase
  have shake := inv.shake
  have within : ∀ j, (s'.loc j).entered ≤ p.total j := by
    refine forall_of_others (P := fun j l => l.entered ≤ p.total j) others ?_ fun j _ => inv.limit j
    have old := inv.limit i
    rw [after]
    omega
  have fits := phase.fits i
  generalize before : s.loc i = l at moves fits
  cases moves with
  | @enter e =>
    refine ⟨⟨opened,phase.still others (by rw [shared']) (by rw [shared']) ?_ ?_ ?_ ?_⟩,?_,within⟩
    · rw [after]
      exact ⟨congrArg (· + 1) fits,by simp,fun _ => rfl⟩
    · rw [after,before]
      rfl
    · rw [after]
      nofun
    · rw [before]
      intro _ _ is
      cases is
    · exact shake.plain others (by simp [shared']) (by rw [shared']) (by rw [before]; rfl) (by rw [after]; rfl)
  | @wait _ e seen k r waits =>
    rw [← shared'] at waits
    exact ⟨⟨opened,phase.wait others before after waits⟩,shake.wait phase others before after waits,within⟩
  | @up e =>
    refine ⟨⟨opened,phase.up others before after shared'⟩,?_,within⟩
    refine shake.plain others (fun a other => ?_) (by rw [shared',Machine.set_token]) (by rw [before]; rfl)
      (by rw [after]; rfl)
    rw [shared',Machine.set_of_ne _ _ other]
  | @all e is =>
    refine ⟨⟨opened,phase.still others (by rw [shared']) (by rw [shared']) ?_ ?_ ?_ ?_⟩,?_,within⟩
    · rw [after]
      exact ⟨fits,rfl,fun past => absurd rfl past⟩
    · rw [after,before]
      rfl
    · exact fun _ _ => (phase.full_iff p.le).mp is
    · rw [after]
      exact fun _ _ _ => rfl
    · exact shake.plain others (by simp [shared']) (by rw [shared']) (by rw [before]; rfl) (by rw [after]; rfl)
  | @some e not =>
    have some := phase.word_ne_zero p.le (i := i) (by rw [before]; rfl)
    refine ⟨⟨opened,phase.still others (by rw [shared']) (by rw [shared']) ?_ ?_ ?_ ?_⟩,?_,within⟩
    · rw [after]
      exact ⟨fits,some,nofun⟩
    · rw [after,before]
      rfl
    · rw [after]
      nofun
    · intro _ full
      exact absurd ((phase.full_iff p.le).mpr full) not
    · exact shake.plain others (by simp [shared']) (by rw [shared']) (by rw [before]; rfl) (by rw [after]; rfl)
  | @store e down =>
    obtain ⟨-,rfl,-⟩ := fits
    exact ⟨⟨true,phase.store others before after shared'⟩,shake.store others before after shared',within⟩
  | @set _ e down order spurious k r past sets =>
    obtain ⟨entered,rfl,late⟩ := fits
    obtain rfl := late past
    rw [← shared'] at sets
    obtain ⟨mem,notSt⟩ := (if_neg past).mp (set_step sets).1
    refine ⟨⟨true,phase.still others (by rw [mem]) (by rw [mem]) ?_ ?_ ?_ nofun⟩,
      shake.set others before after past sets,within⟩
    · rw [after]
      cases r with
      | none => exact ⟨entered,rfl⟩
      | some k' => exact ⟨entered,rfl,fun _ => rfl⟩
    · rw [after,before]
      cases r <;> rfl
    · exact fun _ => nofun
  | @load e =>
    obtain ⟨entered,rfl⟩ := fits
    have some := phase.word_ne_zero p.le (i := i) (by rw [before]; rfl)
    refine ⟨⟨true,phase.still others (by rw [shared']) (by rw [shared']) ?_ ?_ (fun _ => nofun) nofun⟩,?_,within⟩
    · rw [after]
      exact ⟨entered,some,rfl⟩
    · rw [after,before]
      rfl
    · exact shake.plain others (by simp [shared']) (by rw [shared']) (by rw [before]; rfl) (by rw [after]; rfl)
  | @down e x =>
    have out := after
    rw [if_neg fits.2.1] at out
    refine ⟨⟨opened,phase.down others before after shared'⟩,?_,within⟩
    refine shake.plain others (fun a other => ?_) (by rw [shared',Machine.set_token]) (by rw [before]; rfl)
      (by rw [out]; rfl)
    rw [shared',Machine.set_of_ne _ _ other]

theorem inv_reach {p : Pool n} {s : State n} (reach : Reachable p.system s) : Inv p s :=
  reach.invariant (fun _ first => .start first) fun _ _ _ _ inv _ moved => inv.step moved

/-- The vCPU has made all its calls. -/
def Finished (p : Pool n) (s : State n) (i : Fin n) : Prop := (s.loc i).pc = none ∧ (s.loc i).entered = p.total i
/-- The vCPU is at the `hlt` of `cond_wait` and has no wake token. -/
def Blocked (p : Pool n) (s : State n) (i : Fin n) : Prop :=
  (∃ seen, (s.loc i).pc = some (.wait seen .hlt)) ∧ s.shared.token (p.id i) = false

/-- What `barrier()` is to promise: nobody returns from a call that somebody has not
    entered, the count stays within the pool, and vCPUs that all make the same number
    of calls are never all asleep before they have made them. -/
structure BarrierOk (p : Pool n) (s : State n) : Prop where
  together : ∀ i j, returned (s.loc i) ≤ (s.loc j).entered
  barrier_word : (s.shared.mem .barrier_word).toNat ≤ n
  live : (∀ i j, p.total i = p.total j) → (∃ i, ¬ Finished p s i) → ∃ i, ¬ Finished p s i ∧ ¬ Blocked p s i

theorem Phase.together {s : State n} {opened : Bool} (phase : Phase s opened) (i j : Fin n) :
    returned (s.loc i) ≤ (s.loc j).entered :=
  (phase.fits i).calls.1.trans (phase.fits j).calls.2

theorem Phase.word_le {s : State n} {opened : Bool} (phase : Phase s opened) : (s.shared.mem .barrier_word).toNat ≤ n := by
  rw [phase.barrier_word,BitVec.toNat_ofNat]
  exact (Nat.mod_le _ _).trans (counted_le s.loc)

/-- In the first use a sleeper without a token has counted himself in, and nobody has
    stored 1 yet. -/
theorem Inv.asleep_early {p : Pool n} {s : State n} {opened : Bool} (inv : Inv p s) (phase : Phase s opened)
    (once : ∀ i, p.total i ≤ 1) (all : ∀ i, ¬ Finished p s i → Blocked p s i) {j : Fin n} (blocked : Blocked p s j) :
    opened = false ∧ counted (s.loc j).pc = true := by
  obtain ⟨⟨seen,pc⟩,none⟩ := blocked
  have fits := phase.fits j
  have limit := (inv.limit j).trans (once j)
  rw [Fits,pc] at fits
  cases seen with
  | none =>
    obtain ⟨entered,-,early⟩ := fits
    cases opened with
    | true =>
      simp only [Bool.toNat_true] at entered
      omega
    | false => cases early rfl
  | some x =>
    refine ⟨?_,by rw [pc]; rfl⟩
    by_contra late
    have one : s.shared.mem .c = val true := by rw [phase.c,Bool.eq_true_of_not_eq_false late]
    rcases inv.shake.covered j x .hlt pc rfl one with ⟨-,pending⟩ | ⟨X,k,setter,-⟩
    · rw [none] at pending
      cases pending
    · -- The setter would be asleep, too.
      have unfinished : ¬ Finished p s X := fun finished => by rw [finished.1] at setter; cases setter
      obtain ⟨⟨seen',waits⟩,-⟩ := all X unfinished
      rw [setter] at waits
      cases waits

/-- The first use leaves nobody asleep. -/
theorem Inv.live {p : Pool n} {s : State n} (inv : Inv p s) (same : ∀ i j, p.total i = p.total j)
    (once : ∀ i, p.total i ≤ 1) (more : ∃ i, ¬ Finished p s i) : ∃ i, ¬ Finished p s i ∧ ¬ Blocked p s i := by
  obtain ⟨opened,phase⟩ := inv.phase
  by_contra stuck
  have all : ∀ i, ¬ Finished p s i → Blocked p s i := by
    intro i more
    by_contra awake
    exact stuck ⟨i,more,awake⟩
  obtain ⟨j,more⟩ := more
  obtain ⟨rfl,inside⟩ := inv.asleep_early phase once all (all j more)
  have entered : 1 ≤ p.total j := by
    obtain ⟨⟨seen,pc⟩,-⟩ := all j more
    have limit := inv.limit j
    have fits := phase.fits j
    rw [Fits,pc] at fits
    cases seen with
    | none => exact fits.1.ge.trans limit
    | some x => exact fits.1.ge.trans limit
  have unfinished : ∀ i, ¬ Finished p s i := by
    rintro i ⟨out,made⟩
    have fits := phase.fits i
    have alike := same i j
    rw [Fits,out] at fits
    simp only [Bool.toNat_false] at fits
    omega
  obtain ⟨i,about⟩ := phase.seen rfl j fun i => (inv.asleep_early phase once all (all i (unfinished i))).2
  obtain ⟨⟨seen,pc⟩,-⟩ := all i (unfinished i)
  rw [pc] at about
  cases seen <;> cases about

/-! ### The second use -/

section
variable (p : Pool n) (i : Fin n)

/-- vCPU `i` on its own. -/
abbrev Alone : Machine Cell Word × Vcpu → Machine Cell Word × Vcpu → Prop :=
  Relation.ReflTransGen fun a b => ∃ x, step n p.retries (p.id i) (p.total i) x a.1 a.2 = some b

variable {p i} {m : Machine Cell Word} {e : Nat} {seen : Option Word}

theorem enters (more : e < p.total i) : Alone p i (m,⟨none,e⟩) (m,⟨some (.wait none .btsIntent),e + 1⟩) :=
  .single ⟨{},if_pos more⟩

/-- Where `cond_wait` finds what it waits for it goes through. -/
theorem passes (there : m.mem .c = val seen.isSome) :
    Alone p i (m,⟨some (.wait seen .btsIntent),e⟩)
      (m.set .intent_cpus (btr (bts (m.mem .intent_cpus) (p.id i)) (p.id i)),⟨some (.count seen),e⟩) := by
  let m1 := m.set .intent_cpus (bts (m.mem .intent_cpus) (p.id i))
  have same : m1.mem .c = val seen.isSome := (Machine.set_of_ne _ _ (by simp)).trans there
  have last : m1.set .intent_cpus (btr (m1.mem .intent_cpus) (p.id i)) =
      m.set .intent_cpus (btr (bts (m.mem .intent_cpus) (p.id i)) (p.id i)) := by
    simp [m1,Machine.set]
  rw [← last]
  have found : step n p.retries (p.id i) (p.total i) {} m1 ⟨some (.wait seen (.cmp p.retries)),e⟩ =
      some (m1,⟨some (.wait seen .btrIntent),e⟩) := by
    simp [step,barrier,cond_wait,Access.map,Access.sc,same]
  exact .head ⟨{},rfl⟩ (.head ⟨{},found⟩ (.single ⟨{},rfl⟩))

/-- Where it does not it spins, and goes to sleep. -/
theorem sleeps (missing : m.mem .c ≠ val seen.isSome) :
    ∃ m', Alone p i (m,⟨some (.wait seen .btsIntent),e⟩) (m',⟨some (.wait seen .hlt),e⟩) ∧
      m'.mem .c = m.mem .c ∧ m'.token = m.token := by
  let m1 := m.set .intent_cpus (bts (m.mem .intent_cpus) (p.id i))
  have other : m1.mem .c ≠ val seen.isSome := by
    rw [Machine.set_of_ne _ _ (by simp)]
    exact missing
  have spins : ∀ retry_count, Alone p i (m1,⟨some (.wait seen (.cmp retry_count)),e⟩)
    (m1,⟨some (.wait seen .btsWaiting),e⟩) := by
    intro retry_count
    induction retry_count with
    | zero => exact .single ⟨{},by simp [step,barrier,cond_wait,Access.map,Access.sc,other]⟩
    | succ k ih => exact .head ⟨{},by simp [step,barrier,cond_wait,Access.map,Access.sc,other]⟩ ih
  refine ⟨m1.set .waiting_cpus (bts (m1.mem .waiting_cpus) (p.id i)),?_,?_,rfl⟩
  · exact .head ⟨{},rfl⟩ ((spins p.retries).tail ⟨{},rfl⟩)
  · rw [Machine.set_of_ne _ _ (by simp),Machine.set_of_ne _ _ (by simp)]

/-- While nobody sleeps or has been kicked, and `c` is what it is at the start. -/
structure Fresh (k : Nat) (m : Machine Cell Word) : Prop where
  intent_cpus : m.mem .intent_cpus = 0
  waiting_cpus : m.mem .waiting_cpus = 0
  c : m.mem .c = 0
  barrier_word : m.mem .barrier_word = BitVec.ofNat 64 k
  token : ∀ j, m.token j = false

/-- Once 1 is stored, and still nobody has been kicked. -/
def Opened (m : Machine Cell Word) : Prop := m.mem .c = 1 ∧ ∀ j, m.token j = false

theorem btr_bts (id : Nat) : btr (bts (0 : Word) id) id = 0 := by
  apply eq_zero_of_bits
  intro j
  by_cases same : id = j <;> simp [same]

/-- A vCPU counts itself in. -/
theorem comes (fresh : Fresh e m) (more : 1 ≤ p.total i) :
    ∃ m', Fresh (e + 1) m' ∧ Alone p i (m,⟨none,0⟩) (m',⟨some .test,1⟩) := by
  let m1 := m.set .intent_cpus (btr (bts (m.mem .intent_cpus) (p.id i)) (p.id i))
  refine ⟨m1.set .barrier_word (m1.mem .barrier_word + 1),⟨?_,?_,?_,?_,fresh.token⟩,?_⟩
  · rw [Machine.set_of_ne _ _ (by simp),Machine.set_self,fresh.intent_cpus,btr_bts]
  · rw [Machine.set_of_ne _ _ (by simp),Machine.set_of_ne _ _ (by simp),fresh.waiting_cpus]
  · rw [Machine.set_of_ne _ _ (by simp),Machine.set_of_ne _ _ (by simp),fresh.c]
  · rw [Machine.set_self,Machine.set_of_ne _ _ (by simp),fresh.barrier_word,BitVec.ofNat_add]
    rfl
  · exact ((enters more).trans (passes fresh.c)).tail ⟨{},rfl⟩

/-- Whoever has returned once goes to sleep in the next call. -/
theorem returns (opened : Opened m) (more : 2 ≤ p.total i) :
    ∃ m', Opened m' ∧ Alone p i (m,⟨none,1⟩) (m',⟨some (.wait none .hlt),2⟩) := by
  have missing : m.mem .c ≠ val (none : Option Word).isSome := by
    rw [opened.1]
    decide
  obtain ⟨m',ran,c,token⟩ := sleeps (p := p) (i := i) (e := 2) missing
  exact ⟨m',⟨c.trans opened.1,fun j => by rw [token]; exact opened.2 j⟩,(enters more).trans ran⟩

/-- The last one to count himself in finds nobody to wait for or to kick. -/
theorem lasts (fresh : Fresh n m) (more : n ≠ 0) (few : n ≤ 64) :
    ∃ m', Opened m' ∧ Alone p i (m,⟨some .test,1⟩) (m',⟨none,1⟩) := by
  let m1 := m.set .c 1
  have intent : m1.mem .intent_cpus = 0 := (Machine.set_of_ne _ _ (by simp)).trans fresh.intent_cpus
  have waiting : m1.mem .waiting_cpus = 0 := (Machine.set_of_ne _ _ (by simp)).trans fresh.waiting_cpus
  have word : m1.mem .barrier_word = BitVec.ofNat 64 n := (Machine.set_of_ne _ _ (by simp)).trans fresh.barrier_word
  have pos : BitVec.ofNat 64 n ≠ 0 := by
    intro zero
    have value := congrArg BitVec.toNat zero
    rw [BitVec.toNat_ofNat,Nat.mod_eq_of_lt (by omega)] at value
    exact more value
  have look : step n p.retries (p.id i) (p.total i) {} m ⟨some .test,1⟩ = some (m,⟨some (.set false .st),1⟩) := by
    simp [step,barrier,Access.sc,fresh.barrier_word]
  have first : step n p.retries (p.id i) (p.total i) {} m1 ⟨some (.set false (.first .test)),1⟩ =
      some (m1,⟨some (.set false (.second .test true 0)),1⟩) := by
    simp [step,barrier,cond_set,Access.map,Access.sc,intent]
  have second : step n p.retries (p.id i) (p.total i) {} m1 ⟨some (.set false (.second .test true 0)),1⟩ =
      some (m1,⟨some (.set false .snap),1⟩) := by
    simp [step,barrier,cond_set,Access.map,Access.sc,waiting,afterPair]
  have snap : step n p.retries (p.id i) (p.total i) {} m1 ⟨some (.set false .snap),1⟩ =
      some (m1,⟨some .load,1⟩) := by
    have none : kickNext 0#64 = none := by decide
    simp [step,barrier,cond_set,Access.map,Access.sc,waiting,none]
  have load : step n p.retries (p.id i) (p.total i) {} m1 ⟨some .load,1⟩ =
      some (m1,⟨some (.count (some (BitVec.ofNat 64 n))),1⟩) := by
    simp [step,barrier,Access.sc,word]
  have out : step n p.retries (p.id i) (p.total i) {} m1 ⟨some (.count (some (BitVec.ofNat 64 n))),1⟩ =
      some (m1.set .barrier_word (m1.mem .barrier_word - 1),⟨none,1⟩) := by
    simp only [step,barrier,Access.sc,Option.map_some,if_neg pos]
  refine ⟨m1.set .barrier_word (m1.mem .barrier_word - 1),⟨?_,fresh.token⟩,?_⟩
  · rw [Machine.set_of_ne _ _ (by simp),Machine.set_self]
  · have stored : Alone p i (m,⟨some .test,1⟩) (m1,⟨some (.set false (.first .test)),1⟩) :=
      .head ⟨{},look⟩ (.head ⟨{},rfl⟩ (.single ⟨{},rfl⟩))
    have seen : Alone p i (m,⟨some .test,1⟩) (m1,⟨some .load,1⟩) :=
      ((stored.tail ⟨{},first⟩).tail ⟨{},second⟩).tail ⟨{},snap⟩
    exact (seen.tail ⟨{},load⟩).tail ⟨{},out⟩

/-- A waiter for 1 goes through and leaves, on whatever it has loaded. -/
theorem leaves {x : Word} (opened : Opened m) (nonzero : x ≠ 0) :
    ∃ m', Opened m' ∧ Alone p i (m,⟨some (.wait (some x) .btsIntent),1⟩) (m',⟨none,1⟩) := by
  let m1 := m.set .intent_cpus (btr (bts (m.mem .intent_cpus) (p.id i)) (p.id i))
  have out : step n p.retries (p.id i) (p.total i) {} m1 ⟨some (.count (some x)),1⟩ =
      some (m1.set .barrier_word (m1.mem .barrier_word - 1),⟨none,1⟩) := by
    simp only [step,barrier,Access.sc,Option.map_some,if_neg nonzero]
  have through : Alone p i (m,⟨some (.wait (some x) .btsIntent),1⟩) (m1,⟨some (.count (some x)),1⟩) := passes opened.1
  refine ⟨m1.set .barrier_word (m1.mem .barrier_word - 1),⟨?_,opened.2⟩,through.tail ⟨{},out⟩⟩
  rw [Machine.set_of_ne _ _ (by simp),Machine.set_of_ne _ _ (by simp)]
  exact opened.1

/-- A vCPU that is not the last waits for 1. -/
theorem stays {k : Nat} (fresh : Fresh k m) (few : n ≤ 64) (more : 1 ≤ p.total i) (early : k + 1 < n) :
    ∃ m' x, Fresh (k + 1) m' ∧ x ≠ 0 ∧ Alone p i (m,⟨none,0⟩) (m',⟨some (.wait (some x) .btsIntent),1⟩) := by
  obtain ⟨m',fresh,ran⟩ := comes fresh more
  have value : (BitVec.ofNat 64 (k + 1)).toNat = k + 1 := by rw [BitVec.toNat_ofNat,Nat.mod_eq_of_lt (by omega)]
  have notAll : BitVec.ofNat 64 (k + 1) ≠ BitVec.ofNat 64 n := by
    intro same
    have both := congrArg BitVec.toNat same
    rw [value,BitVec.toNat_ofNat,Nat.mod_eq_of_lt (by omega)] at both
    omega
  have nonzero : BitVec.ofNat 64 (k + 1) ≠ 0 := by
    intro zero
    have both := congrArg BitVec.toNat zero
    rw [value] at both
    cases both
  refine ⟨m',_,fresh,nonzero,ran.tail ⟨{},?_⟩⟩
  simp only [step,barrier,Access.sc,fresh.barrier_word,if_neg notAll,Option.map_some]

end

/-- Whatever the pool, when all call `barrier()` twice they can all be asleep in the
    second call: one after another they count themselves in, the last one stores 1, and
    nobody takes it back. -/
theorem second_use (p : Pool n) (last : Fin n) (twice : ∀ i, 2 ≤ p.total i) :
    ∃ s, Reachable p.system s ∧ ∀ i, (s.loc i).pc = some (.wait none .hlt) ∧ s.shared.token (p.id i) = false := by
  have few := p.le
  have size : (Finset.univ.erase last).card + 1 = n := by
    rw [Finset.card_erase_of_mem (Finset.mem_univ last),Finset.card_univ,Fintype.card_fin]
    have pos := last.pos
    omega
  have once : ∀ i, 1 ≤ p.total i := fun i => (Nat.le_succ 1).trans (twice i)
  let start : State n := ⟨⟨fun _ => 0,fun _ => false⟩,fun _ => ⟨none,0⟩⟩
  have first : Reachable p.system start := .init ⟨fun _ => rfl,fun _ => rfl⟩
  -- All but the last count themselves in and wait.
  obtain ⟨s,reach,fresh,waits,rest⟩ := first.each (Q := Fresh) (A := fun l => l = ⟨none,0⟩)
    (B := fun l => ∃ x, x ≠ 0 ∧ l = ⟨some (.wait (some x) .btsIntent),1⟩) (Finset.univ.erase last)
    (by
      rintro i - k m l early fresh rfl
      obtain ⟨m',x,fresh,nonzero,ran⟩ := stays (p := p) (i := i) fresh few (once i) (by omega)
      exact ⟨_,ran,fresh,x,nonzero,rfl⟩)
    ⟨rfl,rfl,rfl,rfl,fun _ => rfl⟩ fun _ _ => rfl
  -- The last one ends the use, and goes to sleep in the next.
  have own : s.loc last = ⟨none,0⟩ := rest last (Finset.notMem_erase _ _)
  obtain ⟨m1,fresh,enters⟩ := comes (p := p) (i := last) fresh (once last)
  rw [size] at fresh
  obtain ⟨m2,opened,ends⟩ := lasts (p := p) (i := last) fresh (by omega) few
  obtain ⟨m3,opened,sleeps⟩ := returns (p := p) (i := last) opened (twice last)
  have reach := reach.alone (i := last) (r := (m3,⟨some (.wait none .hlt),2⟩))
    (by rw [own]; exact (enters.trans ends).trans sleeps)
  -- So do the others.
  obtain ⟨t,reach,opened,asleep,rest⟩ := reach.each (Q := fun _ => Opened)
    (A := fun l => ∃ x, x ≠ 0 ∧ l = ⟨some (.wait (some x) .btsIntent),1⟩) (B := fun l => l = ⟨some (.wait none .hlt),2⟩)
    (Finset.univ.erase last)
    (by
      rintro i - k m l - opened ⟨x,nonzero,rfl⟩
      obtain ⟨m1,opened,out⟩ := leaves (p := p) (i := i) opened nonzero
      obtain ⟨m2,opened,sleeps⟩ := returns (p := p) (i := i) opened (twice i)
      exact ⟨_,out.trans sleeps,opened,rfl⟩)
    opened (by
      intro i member
      dsimp only
      rw [Function.update_of_ne (Finset.ne_of_mem_erase member)]
      exact waits i member)
  refine ⟨t,reach,fun i => ⟨?_,opened.2 _⟩⟩
  by_cases same : i = last
  · rw [same,rest last (Finset.notMem_erase _ _)]
    dsimp only
    rw [Function.update_self]
  · rw [asleep i (Finset.mem_erase.mpr ⟨same,Finset.mem_univ i⟩)]

/-- `barrier()` does what it promises exactly in pools that use it at most once, as far
    as all vCPUs of the pool use it equally often. -/
theorem barrier_reusable_iff (p : Pool n) :
    (∀ s, Reachable p.system s → BarrierOk p s) ↔ ((∀ i j, p.total i = p.total j) → ∀ i, p.total i ≤ 1) := by
  constructor
  · intro all same i
    by_contra more
    obtain ⟨s,reach,asleep⟩ := second_use p i fun j => by
      rw [same j i]
      omega
    obtain ⟨j,-,awake⟩ := (all s reach).live same ⟨i,fun finished => by
      have pc := (asleep i).1
      rw [finished.1] at pc
      cases pc⟩
    exact awake ⟨⟨none,(asleep j).1⟩,(asleep j).2⟩
  · intro once s reach
    have inv := inv_reach reach
    obtain ⟨opened,phase⟩ := inv.phase
    exact ⟨phase.together,phase.word_le,fun same more => inv.live same (once same) more⟩

/-- Two vCPUs with numbers 0 and 1 that call `barrier()` twice. -/
def pair : Pool 2 := ⟨RETRY_COUNT,fun i => i.val,fun _ => 2,Bits.val_small,Bits.val_distinct⟩

/-- vCPU 0 counts itself in and goes to sleep, vCPU 1 wakes it and leaves, and sleeps in
    its second call; vCPU 0 leaves, and goes to sleep there, too. -/
theorem barrier_stuck : ¬ ∀ s, Reachable pair.system s → BarrierOk pair s := by
  intro ok
  let start : State 2 := ⟨⟨fun _ => 0,fun _ => false⟩,fun _ => ⟨none,0⟩⟩
  have first : pair.system.init start := ⟨fun _ => rfl,fun _ => rfl⟩
  let P : State 2 → Bool := fun s => decide (∀ i, (s.loc i).pc = some (.wait none .hlt) ∧ s.shared.token i.val = false)
  have ran : (exec pair.system start (List.replicate 41 (0,⟨true,false⟩) ++ List.replicate 50 (1,⟨true,false⟩) ++
      List.replicate 41 (0,⟨true,false⟩))).any P = true := by
    decide +kernel
  obtain ⟨s,reach,holds⟩ := exec_exists first (fun _ _ _ => trivial) ran
  have asleep : ∀ i, (s.loc i).pc = some (.wait none .hlt) ∧ s.shared.token i.val = false := of_decide_eq_true holds
  obtain ⟨j,-,awake⟩ := (ok s reach).live (fun _ _ => rfl) ⟨0,fun finished => by
    have pc := (asleep 0).1
    rw [finished.1] at pc
    cases pc⟩
  exact awake ⟨⟨none,(asleep j).1⟩,(asleep j).2⟩

end Bootcode.Barrier
