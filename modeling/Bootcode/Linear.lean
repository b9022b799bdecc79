import Mathlib.Data.List.Basic
import Mathlib.Data.List.Perm.Basic

/-!
Linearizable objects: calls with the times at which they begin and end, and orders
of them that a sequential object explains and that agree with real time.
-/
namespace Bootcode.Linear
variable {ι Op Res σ : Type}

/-- A completed call. -/
structure Call (ι Op Res : Type) where
  thread : ι
  op : Op
  res : Res
  called : Nat
  returned : Nat

/-- From one state to another each call returns what the sequential object returns. -/
inductive Legal (obj : σ → Op → σ × Res) : σ → List (Call ι Op Res) → σ → Prop
  | nil {s : σ} : Legal obj s [] s
  | cons {s t u : σ} {c : Call ι Op Res} {rest : List (Call ι Op Res)} :
      obj s c.op = (t,c.res) → Legal obj t rest u → Legal obj s (c :: rest) u

theorem Legal.append {obj : σ → Op → σ × Res} {s t u : σ} {l l' : List (Call ι Op Res)} (first : Legal obj s l t)
    (second : Legal obj t l' u) : Legal obj s (l ++ l') u := by
  induction first with
  | nil => exact second
  | cons returns _ ih => exact .cons returns (ih second)

/-- The order contains the calls, once each, puts no call before one that had returned
    when it began, and is legal. -/
structure Linearizes (obj : σ → Op → σ × Res) (s : σ) (calls order : List (Call ι Op Res)) (t : σ) : Prop where
  perm : order.Perm calls
  realTime : order.Pairwise fun a b => ¬ b.returned < a.called
  legal : Legal obj s order t

theorem Linearizes.nil (obj : σ → Op → σ × Res) (s : σ) : Linearizes (ι := ι) obj s [] [] s :=
  ⟨.nil,.nil,.nil⟩

/-- A call that takes effect as it returns comes last. -/
theorem Linearizes.complete {obj : σ → Op → σ × Res} {s t u : σ} {calls order : List (Call ι Op Res)}
    (before : Linearizes obj s calls order t) {c : Call ι Op Res} (returns : obj t c.op = (u,c.res))
    (earlier : ∀ a ∈ calls, a.called ≤ c.returned) : Linearizes obj s (c :: calls) (order ++ [c]) u := by
  refine ⟨?_,?_,before.legal.append (.cons returns .nil)⟩
  · exact (List.perm_append_singleton c order).trans (before.perm.cons c)
  · refine List.pairwise_append.mpr ⟨before.realTime,List.pairwise_singleton _ _,?_⟩
    intro a member b last
    obtain rfl := List.mem_singleton.mp last
    exact Nat.not_lt.mpr (earlier a (before.perm.mem_iff.mp member))

end Bootcode.Linear
