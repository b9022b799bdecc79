import Bootcode.Interleave

/-!
Potentials of transition systems. A number that pays for every step out of what it
was at first, what the history has earned and what the step is granted bounds the
length of a run. Where it falls until a goal is reached and some step is always
enabled, every order of the steps reaches the goal (`Within`).
-/
namespace Bootcode.Potential
open Bootcode.Interleave
universe u v
variable {σ : Type u} {α : Type v} {S : System σ α} {good ok : σ → α → Prop} {goal : σ → α → σ → Prop} {Φ : σ → Nat}

/-- Whatever steps are taken out of those that are `ok`, at most `k` of them come to
    one that is a goal, and until then some are enabled. -/
def Within (S : System σ α) (ok : σ → α → Prop) (goal : σ → α → σ → Prop) : Nat → σ → Prop
  | 0, _ => False
  | k + 1, s =>
    (∃ a t, ok s a ∧ S.step s a = some t) ∧ ∀ a t, ok s a → S.step s a = some t → goal s a t ∨ Within S ok goal k t

theorem within_of_falls (sub : ∀ s a, ok s a → good s a) (able : ∀ s, Reach S good s → ∃ a t, ok s a ∧ S.step s a = some t)
    (falls : ∀ s a t, Reach S good s → ok s a → S.step s a = some t → ¬ goal s a t → Φ t < Φ s) {k : Nat} {s : σ}
    (reach : Reach S good s) (small : Φ s < k) : Within S ok goal k s := by
  induction k generalizing s with
  | zero => omega
  | succ k ih =>
    refine ⟨able s reach,fun a t fine moved => ?_⟩
    by_cases done : goal s a t
    · exact .inl done
    · have less := falls s a t reach fine moved done
      exact .inr (ih (.step reach (sub s a fine) moved) (by omega))

/-- The length of a run is paid for by its start, by what it has earned and by what
    its steps were granted. -/
theorem length_le {earned : σ → Nat} {grant : σ → α → Nat} {bound : Nat} (start : ∀ s, S.init s → Φ s ≤ bound)
    (pays : ∀ s a t, Reach S good s → good s a → S.step s a = some t → Φ t + earned s + 1 ≤ Φ s + earned t + grant s a)
    {l : List (σ × α)} {s : σ} (run : Run S l s) (goods : ∀ x ∈ l, good x.1 x.2) :
    l.length + Φ s ≤ bound + earned s + (l.map fun x => grant x.1 x.2).sum := by
  induction run with
  | init first =>
    have most := start _ first
    simp only [List.length_nil,List.map_nil,List.sum_nil]
    omega
  | @step l s t a run moved ih =>
    obtain ⟨fine,older⟩ := List.forall_mem_cons.mp goods
    have before := ih older
    have paid := pays s a t (run.reach older) fine moved
    simp only [List.length_cons,List.map_cons,List.sum_cons]
    omega

theorem sum_change {n i : Nat} {f g : Nat → Nat} (inside : i < n) (agree : ∀ j, j ≠ i → g j = f j) :
    ∑ j ∈ Finset.range n, g j + f i = ∑ j ∈ Finset.range n, f j + g i := by
  have member : i ∈ Finset.range n := Finset.mem_range.mpr inside
  have rest : ∑ j ∈ (Finset.range n).erase i, g j = ∑ j ∈ (Finset.range n).erase i, f j :=
    Finset.sum_congr rfl fun j other => agree j (Finset.ne_of_mem_erase other)
  rw [← Finset.add_sum_erase _ _ member,← Finset.add_sum_erase _ _ member,rest]
  omega

theorem sum_raise {n i : Nat} {f g : Nat → Nat} (agree : ∀ j, j ≠ i → g j = f j) :
    ∑ j ∈ Finset.range n, g j ≤ ∑ j ∈ Finset.range n, f j + g i := by
  by_cases inside : i < n
  · have change := sum_change inside agree
    omega
  · have same : ∑ j ∈ Finset.range n, g j = ∑ j ∈ Finset.range n, f j :=
      Finset.sum_congr rfl fun j member => agree j (by have lt := Finset.mem_range.mp member; omega)
    omega

/-! ### Threads -/

section
variable {ι : Type u} {Sh Loc : Type v} [DecidableEq ι] [Fintype ι]

omit [DecidableEq ι] in
theorem tally_raise {weight weight' : Loc → Nat} {k : Nat} (raise : ∀ l, weight' l ≤ weight l + k) (loc : ι → Loc) :
    tally weight' loc ≤ tally weight loc + Fintype.card ι * k := by
  unfold tally
  calc ∑ i, weight' (loc i) ≤ ∑ i, (weight (loc i) + k) := Finset.sum_le_sum fun i _ => raise (loc i)
    _ = ∑ i, weight (loc i) + Fintype.card ι * k := by
      rw [Finset.sum_add_distrib,Finset.sum_const_nat fun _ _ => rfl,Finset.card_univ]

/-- What the threads have and what is kept in the shared state. -/
def total (weight : Sh → Loc → Nat) (store : Sh → Nat) (c : Config ι Sh Loc) : Nat :=
  tally (weight c.shared) c.loc + store c.shared

/-- A thread that moves pays for itself and for what it takes from each of the others. -/
theorem total_step (weight : Sh → Loc → Nat) (store : Sh → Nat) {c : Config ι Sh Loc} {i : ι} {sh : Sh} {l : Loc}
    {k x y : Nat} (raise : ∀ l, weight sh l ≤ weight c.shared l + k)
    (paid : weight sh l + store sh + Fintype.card ι * k + x ≤ weight sh (c.loc i) + store c.shared + y) :
    total weight store ⟨sh,Function.update c.loc i l⟩ + x ≤ total weight store c + y := by
  have mine := tally_update (weight sh) c.loc i l
  have others := tally_raise raise c.loc
  show tally (weight sh) (Function.update c.loc i l) + store sh + x ≤ tally (weight c.shared) c.loc + store c.shared + y
  omega

end
end Bootcode.Potential
