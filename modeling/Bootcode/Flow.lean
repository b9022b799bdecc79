import Mathlib.Logic.Relation

/-!
Code with labels over any machine: operations, jumps and a return. `steps_block`
runs straight-line code and `steps_loop` a loop with a known number of rounds;
execution is deterministic, so one run to the return is all of them.
-/
namespace Bootcode.Flow
universe u v

inductive Line (L : Type u) (σ : Type v)
  | op (f : σ → σ)
  | jmp (l : L)
  | jcc (test : σ → Bool) (l : L)
  | ret

variable {L : Type u} {σ : Type v}

section
variable (code : L → List (Line L σ))

/-- The lines from the current one on, and the machine; `ret` leaves. -/
def step : List (Line L σ) × σ → Option (List (Line L σ) × σ)
  | (.op f :: rest,s) => some (rest,f s)
  | (.jmp l :: _,s) => some (code l,s)
  | (.jcc test l :: rest,s) => some (if test s then code l else rest,s)
  | (.ret :: _,_) => none
  | ([],_) => none

def Steps : List (Line L σ) × σ → List (Line L σ) × σ → Prop := Relation.ReflTransGen fun c c' => step code c = some c'

/-- However far it has run, the code goes on to a return in `s'`. -/
def Returns (start : List (Line L σ)) (s s' : σ) : Prop :=
  ∃ rest, ∀ c, Steps code (start,s) c → Steps code c (.ret :: rest,s')

end

variable {code : L → List (Line L σ)}

/-- A deterministic run that has stopped is the end of every other. -/
theorem stop {α : Type u} {step : α → Option α} {c d e : α} (run : Relation.ReflTransGen (fun c c' => step c = some c') c d)
    (stopped : step d = none) (other : Relation.ReflTransGen (fun c c' => step c = some c') c e) :
    Relation.ReflTransGen (fun c c' => step c = some c') e d := by
  have unique : Relator.RightUnique fun c c' => step c = some c' :=
    fun _ _ _ one two => Option.some.inj (one.symm.trans two)
  rcases Relation.ReflTransGen.total_of_right_unique unique run other with ahead | behind
  · rcases Relation.ReflTransGen.cases_head ahead with rfl | ⟨_,moved,_⟩
    · exact .refl
    · rw [stopped] at moved
      cases moved
  · exact behind

theorem steps_block (fs : List (σ → σ)) (rest : List (Line L σ)) (s : σ) :
    Steps code (fs.map .op ++ rest,s) (rest,fs.foldl (fun s f => f s) s) := by
  induction fs generalizing s with
  | nil => exact .refl
  | cons f fs ih => exact .head rfl (ih (f s))

/-- A loop whose rounds keep an invariant that counts them. -/
theorem steps_loop {head : List (Line L σ)} {n : Nat} {inv : Nat → σ → Prop}
    (round : ∀ k s, k < n → inv k s → ∃ s', Steps code (head,s) (head,s') ∧ inv (k + 1) s') {s : σ} (start : inv 0 s) :
    ∃ s', Steps code (head,s) (head,s') ∧ inv n s' := by
  induction n with
  | zero => exact ⟨s,.refl,start⟩
  | succ n ih =>
    obtain ⟨s',ran,before⟩ := ih fun k s lt => round k s (by omega)
    obtain ⟨s'',once,after⟩ := round n s' (by omega) before
    exact ⟨s'',ran.trans once,after⟩

theorem Steps.returns {start rest : List (Line L σ)} {s s' : σ} (ran : Steps code (start,s) (.ret :: rest,s')) :
    Returns code start s s' := by
  exact ⟨rest,fun c other => stop ran rfl other⟩

end Bootcode.Flow
