import Bootcode.Interleave

/-!
A board on which items are offered and from which any number of threads take
them. Items are posted only on a bare board; a taken item stays marked until its
taker releases it. The board may also be wiped, and a thread that lost an item to
another may erase its mark: both are safe only where nobody has use of the item, but
never leave a mark that nobody will erase.
-/
namespace Bootcode.Board
open Bootcode.Interleave

structure Offers (Item : Type) where
  offered : Item → Bool
  marked : Item → Bool

variable {Item : Type} [DecidableEq Item]

/-- What one thread does to the board and to the item in its hand; `wipe` says
    whether it may clear the marks, and `lost` which single mark it may erase. -/
inductive Step (wipe : Prop) (lost : Item → Prop) : Offers Item → Option Item → Offers Item → Option Item → Prop
  | stay {b h} : Step wipe lost b h b h
  | post {b} (items : Item → Bool) (bare : ∀ i, b.offered i = false ∧ b.marked i = false) :
      Step wipe lost b none ⟨items,items⟩ none
  | take {b i} (there : b.offered i = true) :
      Step wipe lost b none { b with offered := Function.update b.offered i false } (some i)
  | release {b i} : Step wipe lost b (some i) { b with marked := Function.update b.marked i false } none
  | erase {b i} (may : lost i) : Step wipe lost b none { b with marked := Function.update b.marked i false } none
  | clearOffers {b} : Step wipe lost b none { b with offered := fun _ => false } none
  | clearMarks {b} (may : wipe) : Step wipe lost b none { b with marked := fun _ => false } none

def holds (i : Item) (h : Option Item) : Nat := if h = some i then 1 else 0

/-- What a thread is at: `erasing` is before it erases the mark of an item that it has
    not got, `wiping` between the clearing of the offers and that of the marks. -/
inductive Hand (Item : Type)
  | empty
  | item (i : Item)
  | erasing (i : Item)
  | wiping
  deriving DecidableEq

def Hand.held : Hand Item → Option Item
  | .item i => some i
  | _ => none

/-- A step with both ends of a wipe. -/
inductive Use : Offers Item → Hand Item → Offers Item → Hand Item → Prop
  | stay {b} : Use b .empty b .empty
  | hold {b i} : Use b (.item i) b (.item i)
  | lose {b i} : Use b .empty b (.erasing i)
  | post {b} (items : Item → Bool) (bare : ∀ i, b.offered i = false ∧ b.marked i = false) :
      Use b .empty ⟨items,items⟩ .empty
  | take {b i} (there : b.offered i = true) :
      Use b .empty { b with offered := Function.update b.offered i false } (.item i)
  | release {b i} : Use b (.item i) { b with marked := Function.update b.marked i false } .empty
  | erase {b i} : Use b (.erasing i) { b with marked := Function.update b.marked i false } .empty
  | prepare {b} : Use b .empty b .wiping
  | clearOffers {b} : Use b .empty { b with offered := fun _ => false } .wiping
  | clearMarks {b} : Use b .wiping { b with marked := fun _ => false } .empty

theorem Use.step {b b' : Offers Item} {h h' : Hand Item} (use : Use b h b' h') :
    Step (h = .wiping) (fun i => h = .erasing i) b h.held b' h'.held := by
  cases use with
  | stay | hold | lose | prepare => exact .stay
  | post items bare => exact .post items bare
  | take there => exact .take there
  | release => exact .release
  | erase => exact .erase rfl
  | clearOffers => exact .clearOffers
  | clearMarks => exact .clearMarks rfl

section
variable {ι : Type} [Fintype ι]

/-- An item is offered, or in one hand, or neither; and marked unless neither. -/
def Fair (b : Offers Item) (hand : ι → Option Item) : Prop :=
  ∀ i, (b.offered i).toNat + tally (holds i) hand ≤ (b.marked i).toNat

/-- Nobody can hold an item that another thread holds. -/
theorem Fair.exclusive {b : Offers Item} {hand : ι → Option Item} (fair : Fair b hand) [DecidableEq ι] {u v : ι} {i : Item}
    (mine : hand u = some i) (yours : hand v = some i) : u = v := by
  by_contra other
  have both := add_le_tally (holds i) hand other
  have one := fair i
  have most := Bool.toNat_le (b.marked i)
  have mine' : holds i (hand u) = 1 := if_pos mine
  have yours' : holds i (hand v) = 1 := if_pos yours
  omega

theorem Fair.step [DecidableEq ι] {wipe : Prop} {lost : Item → Prop} {b b' : Offers Item} {hand : ι → Option Item} {v : ι}
    {h h' : Option Item} (fair : Fair b hand) (own : hand v = h) (step : Step wipe lost b h b' h')
    (idle : wipe → ∀ i, b.offered i = false ∧ ∀ u, hand u ≠ some i)
    (unused : ∀ i, lost i → b.offered i = false ∧ ∀ u, hand u ≠ some i) : Fair b' (Function.update hand v h') := by
  have nobody : ∀ {i}, (∀ u, hand u ≠ some i) → tally (holds i) hand = 0 :=
    fun none => tally_eq_zero.mpr fun u => if_neg (none u)
  intro i
  have before := fair i
  have change := tally_update (holds i) hand v h'
  rw [own] at change
  cases step with
  | stay => omega
  | post items bare =>
    rw [(bare i).1,(bare i).2] at before
    simp only [holds,Bool.toNat_false] at before change ⊢
    omega
  | @take j there =>
    by_cases same : i = j
    · subst same
      simp only [holds,there,Bool.toNat_true,if_true,Function.update_self,Bool.toNat_false] at before change ⊢
      simp at change
      omega
    · have other : ¬ some j = some i := fun is => same (Option.some.inj is).symm
      simp only [holds,other,if_false,Function.update_of_ne same] at before change ⊢
      simp at change
      omega
  | @release j =>
    by_cases same : i = j
    · subst same
      have most := Bool.toNat_le (b.marked i)
      simp only [holds,if_true,Function.update_self,Bool.toNat_false] at before change ⊢
      simp at change
      omega
    · have other : ¬ some j = some i := fun is => same (Option.some.inj is).symm
      simp only [holds,other,if_false,Function.update_of_ne same] at before change ⊢
      simp at change
      omega
  | @erase j may =>
    by_cases same : i = j
    · subst same
      obtain ⟨none,out⟩ := unused i may
      have zero := nobody out
      simp only [none,Function.update_self,Bool.toNat_false]
      omega
    · simp only [Function.update_of_ne same]
      omega
  | clearOffers =>
    simp only [Bool.toNat_false]
    omega
  | clearMarks may =>
    obtain ⟨none,out⟩ := idle may i
    have zero := nobody out
    simp only [none,Bool.toNat_false]
    omega

end

/-! ### Marks that will be erased -/

section
variable {ι : Type}

/-- A marked item is offered or in somebody's hand, or somebody is about to clear the marks. -/
def Backed (b : Offers Item) (hand : ι → Hand Item) : Prop :=
  ∀ i, b.marked i = true → b.offered i = true ∨ (∃ u, hand u = .item i) ∨ ∃ u, hand u = .wiping

omit [DecidableEq Item] in
/-- While nobody uses the board, no mark is left when no item is. -/
theorem Backed.bare {b : Offers Item} {hand : ι → Hand Item} (backed : Backed b hand) (unused : ∀ u, hand u = .empty)
    (none : ∀ i, b.offered i = false) (i : Item) : b.marked i = false := by
  by_contra marked
  rcases backed i (by simpa using marked) with there | ⟨u,held⟩ | ⟨u,wiping⟩
  · rw [none i] at there
    cases there
  · rw [unused u] at held
    cases held
  · rw [unused u] at wiping
    cases wiping

theorem Backed.use [DecidableEq ι] {b b' : Offers Item} {hand : ι → Hand Item} {v : ι} {h h' : Hand Item}
    (backed : Backed b hand) (own : hand v = h) (use : Use b h b' h') : Backed b' (Function.update hand v h') := by
  -- Whoever else backs an item goes on backing it; the thread itself may stop.
  have kept : ∀ i, b.marked i = true → (h = .item i → h' = .item i) → (h = .wiping → h' = .wiping) →
      b.offered i = true ∨ (∃ u, Function.update hand v h' u = .item i) ∨ ∃ u, Function.update hand v h' u = .wiping := by
    intro i marked holds wipes
    have stays : ∀ {k : Hand Item}, (h = k → h' = k) → (∃ u, hand u = k) → ∃ u, Function.update hand v h' u = k := by
      rintro k keeps ⟨u,is⟩
      by_cases mine : u = v
      · subst mine
        exact ⟨u,by rw [Function.update_self]; exact keeps (own.symm.trans is)⟩
      · exact ⟨u,by rw [Function.update_of_ne mine,is]⟩
    exact (backed i marked).imp_right (Or.imp (stays holds) (stays wipes))
  have self : Function.update hand v h' v = h' := Function.update_self ..
  intro i marked
  cases use with
  | stay | hold => exact kept i marked (fun is => is) (fun is => is)
  | lose => exact kept i marked (fun is => by cases is) (fun is => by cases is)
  | post items bare => exact .inl marked
  | @take j there =>
    by_cases same : i = j
    · subst same
      exact .inr (.inl ⟨v,self⟩)
    · simp only [Function.update_of_ne same]
      exact kept i marked (fun is => by cases is) (fun is => by cases is)
  | @release j =>
    by_cases same : i = j
    · subst same
      simp only [Function.update_self] at marked
      cases marked
    · simp only [Function.update_of_ne same] at marked
      exact kept i marked (fun is => absurd (Hand.item.inj is).symm same) (fun is => by cases is)
  | @erase j =>
    by_cases same : i = j
    · subst same
      simp only [Function.update_self] at marked
      cases marked
    · simp only [Function.update_of_ne same] at marked
      exact kept i marked (fun is => by cases is) (fun is => by cases is)
  | prepare | clearOffers => exact .inr (.inr ⟨v,self⟩)
  | clearMarks => cases marked

end
end Bootcode.Board
