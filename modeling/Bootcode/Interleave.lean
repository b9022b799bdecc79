import Mathlib.Algebra.BigOperators.Group.Finset.Basic
import Mathlib.Algebra.BigOperators.Ring.Finset
import Mathlib.Algebra.Order.BigOperators.Group.Finset
import Mathlib.Data.Fintype.BigOperators
import Mathlib.Logic.Relation

/-!
Transition systems and the interleaving of threads over a shared state: the
states that runs reach, invariants of runs whose steps all satisfy a condition,
and sums over all threads (`tally`) with what one thread's step does to them.
-/
namespace Bootcode.Interleave
universe u v w
variable {σ : Type u} {α : Type v}

/-- A transition system: a label that is not enabled in a state has no step. -/
structure System (σ : Type u) (α : Type v) where
  init : σ → Prop
  step : σ → α → Option σ

/-- The states that runs reach when every step satisfies `good`. -/
inductive Reach (S : System σ α) (good : σ → α → Prop) : σ → Prop
  | init {s : σ} : S.init s → Reach S good s
  | step {s t : σ} {a : α} : Reach S good s → good s a → S.step s a = some t → Reach S good t

/-- The states that all runs reach. -/
abbrev Reachable (S : System σ α) : σ → Prop := Reach S (fun _ _ => True)

/-- A run, newest step first: the state and the label of every step, and the
    state it ends in. -/
inductive Run (S : System σ α) : List (σ × α) → σ → Prop
  | init {s : σ} : S.init s → Run S [] s
  | step {l : List (σ × α)} {s t : σ} {a : α} : Run S l s → S.step s a = some t → Run S ((s,a) :: l) t

variable {S : System σ α} {good : σ → α → Prop}

/-- An invariant holds at the start and is kept by every good step. -/
theorem Reach.invariant {inv : σ → Prop} (start : ∀ s, S.init s → inv s)
    (keep : ∀ s a t, Reach S good s → inv s → good s a → S.step s a = some t → inv t)
    {s : σ} (reach : Reach S good s) : inv s := by
  induction reach with
  | init first => exact start _ first
  | step before ok moved ih => exact keep _ _ _ before ih ok moved

theorem Reach.mono {weaker : σ → α → Prop} (sub : ∀ s a, good s a → weaker s a) {s : σ}
    (reach : Reach S good s) : Reach S weaker s := by
  induction reach with
  | init first => exact .init first
  | step _ ok moved ih => exact .step ih (sub _ _ ok) moved

/-- Good steps that are automatic in states that good steps reach may be dropped
    from the condition. -/
theorem Reach.strengthen {weaker : σ → α → Prop}
    (auto : ∀ s a t, Reach S good s → weaker s a → S.step s a = some t → good s a) {s : σ}
    (reach : Reach S weaker s) : Reach S good s := by
  induction reach with
  | init first => exact .init first
  | step _ ok moved ih => exact .step ih (auto _ _ _ ih ok moved) moved

theorem Run.reach {l : List (σ × α)} {s : σ} (run : Run S l s) (ok : ∀ x ∈ l, good x.1 x.2) : Reach S good s := by
  induction run with
  | init first => exact .init first
  | step _ moved ih => exact .step (ih fun x member => ok x (.tail _ member)) (ok _ (.head _)) moved

/-- Where every step from a state with `P` is decided by `ok`, all states of a run
    have `P` exactly when all its steps are `ok`. -/
theorem Run.all_iff {inv P : σ → Prop} {ok : σ → α → Prop} (start : ∀ s, S.init s → inv s ∧ P s)
    (keep : ∀ s a t, inv s → good s a → S.step s a = some t → inv t)
    (decides : ∀ s a t, inv s → good s a → P s → S.step s a = some t → (P t ↔ ok s a))
    {l : List (σ × α)} {s : σ} (run : Run S l s) (goods : ∀ x ∈ l, good x.1 x.2) :
    ((∀ x ∈ l, P x.1) ∧ P s) ↔ ∀ x ∈ l, ok x.1 x.2 := by
  have invs : ∀ {l s}, Run S l s → (∀ x ∈ l, good x.1 x.2) → inv s := fun run goods =>
    (run.reach goods).invariant (fun s first => (start s first).1)
      fun s a t _ before fine moved => keep s a t before fine moved
  induction run with
  | init first => simp [(start _ first).2]
  | @step l s t a run moved ih =>
    obtain ⟨fine,older⟩ := List.forall_mem_cons.mp goods
    have last := fun holds => decides s a t (invs run older) fine holds moved
    simp only [List.forall_mem_cons]
    constructor
    · rintro ⟨⟨holds,all⟩,after⟩
      exact ⟨(last holds).mp after,(ih older).mp ⟨all,holds⟩⟩
    · rintro ⟨now,rest⟩
      obtain ⟨all,holds⟩ := (ih older).mpr rest
      exact ⟨⟨holds,all⟩,(last holds).mpr now⟩

/-- The state that a list of labels leads to, if each is enabled in its turn. -/
def exec (S : System σ α) : σ → List α → Option σ
  | s, [] => some s
  | s, a :: rest => (S.step s a).bind (fun t => exec S t rest)

theorem exec_reach {s t : σ} (reach : Reach S good s) {as : List α} (ok : ∀ a ∈ as, ∀ s, good s a)
    (ran : exec S s as = some t) : Reach S good t := by
  induction as generalizing s with
  | nil => cases ran; exact reach
  | cons a rest ih =>
    obtain ⟨next,moved,ran⟩ := Option.bind_eq_some_iff.mp ran
    exact ih (.step reach (ok a (.head _) s) moved) (fun a member => ok a (.tail _ member)) ran

/-- The same as a run, with its labels. -/
theorem exec_run {l : List (σ × α)} {s t : σ} (run : Run S l s) {as : List α} (ran : exec S s as = some t) :
    ∃ l', Run S l' t ∧ l'.map Prod.snd = as.reverse ++ l.map Prod.snd := by
  induction as generalizing l s with
  | nil => cases ran; exact ⟨l,run,rfl⟩
  | cons a rest ih =>
    obtain ⟨next,moved,ran⟩ := Option.bind_eq_some_iff.mp ran
    obtain ⟨l',run,labels⟩ := ih (.step run moved) ran
    exact ⟨l',run,by simpa using labels⟩

/-- A run that ends in a state with `P` exhibits a reachable state with `P`. -/
theorem exec_exists {s : σ} (first : S.init s) {as : List α} (ok : ∀ a ∈ as, ∀ s, good s a) {P : σ → Bool}
    (holds : (exec S s as).any P = true) : ∃ t, Reach S good t ∧ P t = true := by
  obtain ⟨t,ran,holds⟩ := (Option.any_eq_true P _).mp holds
  exact ⟨t,exec_reach (.init first) ok ran,holds⟩

/-- The system whose steps are only the good ones, to run it with a check at every step. -/
def System.guard (S : System σ α) (good : σ → α → Bool) : System σ α :=
  { S with step := fun s a => if good s a then S.step s a else none }

theorem Reach.of_guard {check : σ → α → Bool} {s : σ} (reach : Reachable (S.guard check) s) :
    Reach S (fun s a => check s a = true) s := by
  induction reach with
  | init first => exact .init first
  | step _ _ moved ih =>
    simp only [System.guard] at moved
    split at moved
    · rename_i ok
      exact .step ih ok moved
    · cases moved

theorem Run.of_guard {check : σ → α → Bool} {l : List (σ × α)} {s : σ} (run : Run (S.guard check) l s) :
    Run S l s ∧ ∀ x ∈ l, check x.1 x.2 = true := by
  induction run with
  | init first => exact ⟨.init first,by simp⟩
  | step _ moved ih =>
    simp only [System.guard] at moved
    split at moved
    · rename_i ok
      exact ⟨.step ih.1 moved,List.forall_mem_cons.mpr ⟨ok,ih.2⟩⟩
    · cases moved

/-! ### Threads over a shared state -/

section Threads
variable {ι : Type u} {Sh Loc : Type v} {Inp : Type w} [DecidableEq ι]

/-- What all threads share, and what each has to itself. -/
structure Config (ι : Type u) (Sh Loc : Type v) where
  shared : Sh
  loc : ι → Loc

/-- One thread at a time takes one step on the shared state and its own. -/
def threads (init : Config ι Sh Loc → Prop) (step : ι → Inp → Sh → Loc → Option (Sh × Loc)) :
    System (Config ι Sh Loc) (ι × Inp) where
  init := init
  step s a := (step a.1 a.2 s.shared (s.loc a.1)).map
    fun r => ⟨r.1,Function.update s.loc a.1 r.2⟩

theorem threads_step {init : Config ι Sh Loc → Prop} {step : ι → Inp → Sh → Loc → Option (Sh × Loc)}
    {s t : Config ι Sh Loc} {i : ι} {x : Inp} (moved : (threads init step).step s (i,x) = some t) :
    ∃ sh l, step i x s.shared (s.loc i) = some (sh,l) ∧ t = ⟨sh,Function.update s.loc i l⟩ := by
  obtain ⟨⟨sh,l⟩,own,rfl⟩ := Option.map_eq_some_iff.mp moved
  exact ⟨sh,l,own,rfl⟩

/-- The same, with the shared state and the threads apart. -/
theorem threads_moved {init : Config ι Sh Loc → Prop} {step : ι → Inp → Sh → Loc → Option (Sh × Loc)}
    {s t : Config ι Sh Loc} {i : ι} {x : Inp} (moved : (threads init step).step s (i,x) = some t) :
    ∃ sh l, step i x s.shared (s.loc i) = some (sh,l) ∧ t.shared = sh ∧ t.loc i = l ∧ ∀ j, j ≠ i → t.loc j = s.loc j := by
  obtain ⟨sh,l,own,rfl⟩ := threads_step moved
  exact ⟨sh,l,own,rfl,Function.update_self ..,fun j other => Function.update_of_ne other ..⟩

/-- A run may go on with steps of one thread alone. -/
theorem Reach.alone {init : Config ι Sh Loc → Prop} {step : ι → Inp → Sh → Loc → Option (Sh × Loc)} {s : Config ι Sh Loc}
    (reach : Reachable (threads init step) s) {i : ι} {r : Sh × Loc}
    (ran : Relation.ReflTransGen (fun a b => ∃ x, step i x a.1 a.2 = some b) (s.shared,s.loc i) r) :
    Reachable (threads init step) ⟨r.1,Function.update s.loc i r.2⟩ := by
  induction ran with
  | refl => rwa [Function.update_eq_self]
  | @tail r r' _ moved ih =>
    obtain ⟨x,moved⟩ := moved
    have next : (threads init step).step ⟨r.1,Function.update s.loc i r.2⟩ (i,x) =
      some ⟨r'.1,Function.update s.loc i r'.2⟩ := by
      simp [threads,moved]
    exact .step ih trivial next

/-- Threads of a set that take their turns one after another, each alone: where a turn
    leads from `A` to `B` and moves the shared state on along `Q`, all of them get to `B`. -/
theorem Reach.each {init : Config ι Sh Loc → Prop} {step : ι → Inp → Sh → Loc → Option (Sh × Loc)} {Q : Nat → Sh → Prop}
    {A B : Loc → Prop} (S : Finset ι)
    (turn : ∀ i ∈ S, ∀ k sh l, k < S.card → Q k sh → A l →
      ∃ r, Relation.ReflTransGen (fun a b => ∃ x, step i x a.1 a.2 = some b) (sh,l) r ∧ Q (k + 1) r.1 ∧ B r.2)
    {s : Config ι Sh Loc} (reach : Reachable (threads init step) s) (first : Q 0 s.shared) (waits : ∀ i ∈ S, A (s.loc i)) :
    ∃ t, Reachable (threads init step) t ∧ Q S.card t.shared ∧ (∀ i ∈ S, B (t.loc i)) ∧ ∀ i, i ∉ S → t.loc i = s.loc i := by
  induction S using Finset.induction_on with
  | empty => exact ⟨s,reach,first,by simp,fun _ _ => rfl⟩
  | @insert i S new ih =>
    have more : (insert i S).card = S.card + 1 := Finset.card_insert_of_notMem new
    obtain ⟨t,reached,here,done,rest⟩ := ih
      (fun j member k sh l few => turn j (Finset.mem_insert_of_mem member) k sh l (by omega))
      fun j member => waits j (Finset.mem_insert_of_mem member)
    have own : A (t.loc i) := by
      rw [rest i new]
      exact waits i (Finset.mem_insert_self ..)
    obtain ⟨r,ran,next,arrived⟩ := turn i (Finset.mem_insert_self ..) S.card t.shared (t.loc i) (by omega) here own
    refine ⟨_,reached.alone ran,by rw [more]; exact next,?_,?_⟩
    · intro j member
      dsimp only
      by_cases same : j = i
      · rw [same,Function.update_self]
        exact arrived
      · rw [Function.update_of_ne same]
        exact done j (Finset.mem_of_mem_insert_of_ne member same)
    · intro j outside
      have away : j ≠ i := fun same => outside (same ▸ Finset.mem_insert_self ..)
      dsimp only
      rw [Function.update_of_ne away]
      exact rest j fun member => outside (Finset.mem_insert_of_mem member)

/-! A step of thread `v` leaves the others as they are. -/

omit [DecidableEq ι] in
theorem forall_of_others {P : ι → Loc → Prop} {loc loc' : ι → Loc} {v : ι} (others : ∀ i, i ≠ v → loc' i = loc i)
    (mine : P v (loc' v)) (rest : ∀ i, i ≠ v → P i (loc i)) : ∀ i, P i (loc' i) := by
  intro i
  by_cases same : i = v
  · subst same
    exact mine
  · rw [others i same]
    exact rest i same

omit [DecidableEq ι] in
theorem exists_of_others {P : Loc → Prop} {loc loc' : ι → Loc} {v : ι} (others : ∀ i, i ≠ v → loc' i = loc i)
    (keeps : P (loc v) → P (loc' v)) (one : ∃ i, P (loc i)) : ∃ i, P (loc' i) := by
  obtain ⟨i,holds⟩ := one
  by_cases same : i = v
  · subst same
    exact ⟨i,keeps holds⟩
  · exact ⟨i,by rw [others i same]; exact holds⟩

variable [Fintype ι]

/-- The sum of a weight over all threads. -/
def tally (weight : Loc → Nat) (loc : ι → Loc) : Nat := ∑ i, weight (loc i)

theorem tally_update (weight : Loc → Nat) (loc : ι → Loc) (i : ι) (l : Loc) :
    tally weight (Function.update loc i l) + weight (loc i) = tally weight loc + weight l := by
  have rest : ∑ j ∈ Finset.univ.erase i, weight (Function.update loc i l j) = ∑ j ∈ Finset.univ.erase i, weight (loc j) :=
    Finset.sum_congr rfl fun j other => by rw [Function.update_of_ne (Finset.ne_of_mem_erase other)]
  unfold tally
  rw [← Finset.add_sum_erase _ _ (Finset.mem_univ i),← Finset.add_sum_erase _ _ (Finset.mem_univ i),rest,
    Function.update_self]
  omega

/-- The same, where only thread `i` has moved. -/
theorem tally_moved (weight : Loc → Nat) {loc loc' : ι → Loc} {i : ι} (others : ∀ j, j ≠ i → loc' j = loc j) :
    tally weight loc' + weight (loc i) = tally weight loc + weight (loc' i) := by
  have moved : loc' = Function.update loc i (loc' i) := by
    funext j
    by_cases same : j = i
    · rw [same,Function.update_self]
    · rw [others j same,Function.update_of_ne same]
  calc tally weight loc' + weight (loc i)
    _ = tally weight (Function.update loc i (loc' i)) + weight (loc i) := by rw [← moved]
    _ = tally weight loc + weight (loc' i) := tally_update weight loc i (loc' i)

omit [DecidableEq ι] in
theorem le_tally (weight : Loc → Nat) (loc : ι → Loc) (i : ι) : weight (loc i) ≤ tally weight loc :=
  Finset.single_le_sum (f := fun i => weight (loc i)) (fun _ _ => Nat.zero_le _) (Finset.mem_univ i)

omit [DecidableEq ι] in
theorem tally_eq_zero {weight : Loc → Nat} {loc : ι → Loc} : tally weight loc = 0 ↔ ∀ i, weight (loc i) = 0 := by
  simp [tally,Finset.sum_eq_zero_iff]

omit [DecidableEq ι] in
theorem tally_le_mul {weight bound : Loc → Nat} {k : Nat} (le : ∀ l, weight l ≤ bound l * k) (loc : ι → Loc) :
    tally weight loc ≤ tally bound loc * k := by
  unfold tally
  rw [Finset.sum_mul]
  exact Finset.sum_le_sum fun i _ => le (loc i)

/-- All other threads contribute nothing. -/
theorem tally_eq_self {weight : Loc → Nat} {loc : ι → Loc} {i : ι} :
    tally weight loc = weight (loc i) ↔ ∀ j, j ≠ i → weight (loc j) = 0 := by
  unfold tally
  rw [← Finset.add_sum_erase _ _ (Finset.mem_univ i),Nat.add_eq_left,Finset.sum_eq_zero_iff]
  constructor
  · intro none j other
    exact none j (Finset.mem_erase.mpr ⟨other,Finset.mem_univ j⟩)
  · intro none j member
    exact none j (Finset.ne_of_mem_erase member)

/-- Two different threads contribute separately. -/
theorem add_le_tally (weight : Loc → Nat) (loc : ι → Loc) {i j : ι} (other : i ≠ j) :
    weight (loc i) + weight (loc j) ≤ tally weight loc := by
  have pair := Finset.sum_le_sum_of_subset (f := fun i => weight (loc i)) (Finset.subset_univ {i,j})
  rwa [Finset.sum_pair other] at pair

end Threads
end Bootcode.Interleave
