import Bootcode.Interleave

/-!
A counter that hands out granted tickets to any number of threads. A thread that
closes the gate stores how many tickets it grants; threads draw the counter down
without looking at the gate; whoever draws the last ticket opens the gate again.
Between grants the counter may drift below zero without bound.
-/
namespace Bootcode.Grants
open Bootcode.Interleave
set_option linter.unusedSimpArgs false

structure Gate where
  isOpen : Bool
  left : Int

/-- What a thread has in hand: a grant to store, the last ticket with the duty to
    open the gate, or a ticket. -/
inductive Hand
  | empty
  | granting (k : Int)
  | closing
  | ticket

inductive Event
  | grant (k : Int)
  | draw (old : Int)
  | use

inductive Step : Gate → Hand → Gate → Hand → Option Event → Prop
  | stay {g h} : Step g h g h none
  | close {g k} (open_ : g.isOpen = true) (pos : 0 < k) : Step g .empty { g with isOpen := false } (.granting k) none
  | grant {g k} : Step g (.granting k) { g with left := k } .empty (some (.grant k))
  | miss {g} (none : g.left ≤ 0) : Step g .empty { g with left := g.left - 1 } .empty (some (.draw g.left))
  | draw {g} (more : 1 < g.left) : Step g .empty { g with left := g.left - 1 } .ticket (some (.draw g.left))
  | last {g} (one : g.left = 1) : Step g .empty { g with left := g.left - 1 } .closing (some (.draw g.left))
  | reopen {g} : Step g .closing { g with isOpen := true } .ticket none
  | use {g} : Step g .ticket g .empty (some .use)
  | drop {g} : Step g .ticket g .empty none

namespace Hand
def grants : Hand → Nat
  | .granting _ => 1
  | _ => 0
def closes : Hand → Nat
  | .closing => 1
  | _ => 0
def tickets : Hand → Nat
  | .closing | .ticket => 1
  | _ => 0
end Hand

/-- The tickets drawn since the last grant. -/
def drawn : List Event → List Int
  | [] | .grant _ :: _ => []
  | .draw old :: rest => if 0 < old then old :: drawn rest else drawn rest
  | .use :: rest => drawn rest
/-- The size of the last grant, 0 before the first. -/
def lastGrant : List Event → Int
  | [] => 0
  | .grant k :: _ => k
  | _ :: rest => lastGrant rest
/-- The integers above `a` up to `b`. -/
def above (a b : Int) : List Int := (List.range (b - a).toNat).map fun (i : Nat) => a + 1 + (i : Int)
/-- At every grant, each ticket of the grant before has been drawn exactly once,
    from the last down to the first. -/
def Exhausted : List Event → Prop
  | [] => True
  | .grant _ :: rest => drawn rest = above 0 (lastGrant rest) ∧ Exhausted rest
  | _ :: rest => Exhausted rest
/-- The tickets drawn so far, the tickets granted and the tickets used. -/
def taken (h : List Event) : Nat := h.countP fun e => match e with | .draw old => 0 < old | _ => false
def granted : List Event → Int
  | [] => 0
  | .grant k :: rest => k + granted rest
  | _ :: rest => granted rest
def used (h : List Event) : Nat := h.countP fun e => match e with | .use => true | _ => false

theorem above_self (a : Int) : above a a = [] := by simp [above]
theorem above_pred {a b : Int} (le : a ≤ b) : above (a - 1) b = a :: above a b := by
  have length : (b - (a - 1)).toNat = (b - a).toNat + 1 := by omega
  rw [above,above,length,List.range_succ_eq_map,List.map_cons,List.map_map]
  congr 1
  · simp
  · refine List.map_congr_left fun i _ => ?_
    simp only [Function.comp,Nat.succ_eq_add_one,Nat.cast_add,Nat.cast_one]
    omega

/-! ### The four phases -/

inductive Phase
  | opened
  | granting
  | drawing
  | closing

section
variable {ι : Type} [Fintype ι]

/-- The gate is open; or it is closed, and a thread is to store its grant, or
    tickets are left, or whoever drew the last ticket is to open it. -/
def Phase.Holds (g : Gate) (hand : ι → Hand) : Phase → Prop
  | .opened => g.isOpen = true ∧ g.left ≤ 0 ∧ tally Hand.grants hand = 0
  | .granting => g.isOpen = false ∧ g.left ≤ 0 ∧ tally Hand.grants hand = 1
  | .drawing => g.isOpen = false ∧ 0 < g.left
  | .closing => g.isOpen = false ∧ g.left ≤ 0 ∧ tally Hand.closes hand = 1

structure Invariant (g : Gate) (hand : ι → Hand) (h : List Event) : Prop where
  opened : g.isOpen = true → g.left ≤ 0 ∧ tally Hand.grants hand = 0 ∧ tally Hand.closes hand = 0
  closed : g.isOpen = false → tally Hand.grants hand + tally Hand.closes hand + (if 0 < g.left then 1 else 0) = 1
  positive : ∀ v k, hand v = .granting k → 0 < k
  since : drawn h = above (max g.left 0) (lastGrant h)
  within : max g.left 0 ≤ lastGrant h
  exhausted : Exhausted h
  balance : taken h + max g.left 0 = granted h
  usage : used h + tally Hand.tickets hand ≤ taken h

namespace Invariant
variable {g g' : Gate} {hand : ι → Hand} {h : List Event}

/-- The phases exclude each other and one of them holds. -/
theorem phase (inv : Invariant g hand h) : ∃! q : Phase, q.Holds g hand := by
  cases is : g.isOpen with
  | true =>
    obtain ⟨none,grants,closes⟩ := inv.opened is
    refine ⟨.opened,⟨is,none,grants⟩,?_⟩
    intro q holds
    cases q with
    | opened => rfl
    | granting | drawing | closing => exact absurd (is.symm.trans holds.1) (by decide)
  | false =>
    have one := inv.closed is
    by_cases left : 0 < g.left
    · rw [if_pos left] at one
      refine ⟨.drawing,⟨is,left⟩,?_⟩
      intro q holds
      cases q with
      | drawing => rfl
      | opened => exact absurd (is.symm.trans holds.1) (by decide)
      | granting | closing => have none := holds.2.1; omega
    · rw [if_neg left] at one
      by_cases grants : tally Hand.grants hand = 1
      · refine ⟨.granting,⟨is,by omega,grants⟩,?_⟩
        intro q holds
        cases q with
        | granting => rfl
        | opened => exact absurd (is.symm.trans holds.1) (by decide)
        | drawing => exact absurd holds.2 left
        | closing => have closes := holds.2.2; omega
      · refine ⟨.closing,⟨is,by omega,by omega⟩,?_⟩
        intro q holds
        cases q with
        | closing => rfl
        | opened => exact absurd (is.symm.trans holds.1) (by decide)
        | granting => exact absurd holds.2.2 grants
        | drawing => exact absurd holds.2 left

/-- A thread that has a grant to store, or the gate to open, finds the gate closed
    and no ticket left, and is alone with its duty. -/
theorem closed_of_duty (inv : Invariant g hand h) {v : ι} (duty : (hand v).grants + (hand v).closes = 1) :
    g.isOpen = false ∧ g.left ≤ 0 ∧ tally Hand.grants hand + tally Hand.closes hand = 1 := by
  have grants := le_tally Hand.grants hand v
  have closes := le_tally Hand.closes hand v
  cases is : g.isOpen with
  | true =>
    have none := inv.opened is
    omega
  | false =>
    have one := inv.closed is
    by_cases left : 0 < g.left
    · rw [if_pos left] at one
      omega
    · rw [if_neg left] at one
      exact ⟨rfl,by omega,one⟩

/-- A grant never overwrites tickets that are left. -/
theorem grant_empty (inv : Invariant g hand h) {v : ι} {k : Int} (granting : hand v = .granting k) : g.left ≤ 0 :=
  (inv.closed_of_duty (v := v) (by rw [granting]; rfl)).2.1

/-- No more tickets are ever used than were granted. -/
theorem used_le (inv : Invariant g hand h) : (Grants.used h : Int) ≤ granted h := by
  have balance := inv.balance
  have usage := inv.usage
  omega

@[simp] theorem drawn_draw (old : Int) (h : List Event) :
    drawn (.draw old :: h) = if 0 < old then old :: drawn h else drawn h := rfl
@[simp] theorem taken_draw (old : Int) (h : List Event) : taken (.draw old :: h) = taken h + if 0 < old then 1 else 0 := by
  by_cases pos : 0 < old <;> simp [taken,pos]
@[simp] theorem used_draw (old : Int) (h : List Event) : used (.draw old :: h) = used h := by simp [used]
@[simp] theorem taken_use (h : List Event) : taken (.use :: h) = taken h := by simp [taken]
@[simp] theorem used_use (h : List Event) : used (.use :: h) = used h + 1 := by simp [used]

/-! A draw takes the next ticket off the last grant, or none when the counter is
    at or below zero. -/

theorem since_draw (inv : Invariant g hand h) :
    drawn (.draw g.left :: h) = above (max (g.left - 1) 0) (lastGrant h) := by
  have since := inv.since
  have within := inv.within
  rw [drawn_draw]
  by_cases pos : 0 < g.left
  · have top : max g.left 0 = g.left := by omega
    have next : max (g.left - 1) 0 = g.left - 1 := by omega
    rw [top] at since within
    rw [if_pos pos,next,above_pred within,since]
  · have zero : max (g.left - 1) 0 = max g.left 0 := by omega
    rw [if_neg pos,zero,since]

theorem balance_draw (inv : Invariant g hand h) :
    (taken (.draw g.left :: h) : Int) + max (g.left - 1) 0 = granted h := by
  have balance := inv.balance
  rw [taken_draw]
  by_cases pos : 0 < g.left
  · rw [if_pos pos]
    push_cast
    omega
  · rw [if_neg pos]
    omega

section
variable [DecidableEq ι] {v : ι} {h0 h1 : Hand} {e : Option Event}

theorem positive_step (inv : Invariant g hand h) (own : hand v = h0) (moved : Step g h0 g' h1 e) :
    ∀ u k, Function.update hand v h1 u = .granting k → 0 < k := by
  intro u k granting
  by_cases same : u = v
  · subst same
    rw [Function.update_self] at granting
    subst granting
    cases moved with
    | stay => exact inv.positive u k own
    | close _ pos => exact pos
  · rw [Function.update_of_ne same] at granting
    exact inv.positive u k granting

theorem opened_step (inv : Invariant g hand h) (own : hand v = h0) (moved : Step g h0 g' h1 e) :
    g'.isOpen = true → g'.left ≤ 0 ∧ tally Hand.grants (Function.update hand v h1) = 0 ∧
      tally Hand.closes (Function.update hand v h1) = 0 := by
  intro is
  have grants := tally_update Hand.grants hand v h1
  have closes := tally_update Hand.closes hand v h1
  rw [own] at grants closes
  cases moved with
  | stay | use | drop | miss | draw =>
    have before := inv.opened is
    simp only [Hand.grants,Hand.closes] at grants closes ⊢
    omega
  | close => cases is
  | grant =>
    have shut := (inv.closed_of_duty (v := v) (by rw [own]; rfl)).1
    exact absurd (shut.symm.trans is) (by decide)
  | last one =>
    have none := (inv.opened is).1
    omega
  | reopen =>
    have duty := inv.closed_of_duty (v := v) (by rw [own]; rfl)
    have mine := le_tally Hand.closes hand v
    rw [own] at mine
    simp only [Hand.grants,Hand.closes] at grants closes mine ⊢
    omega

theorem closed_step (inv : Invariant g hand h) (own : hand v = h0) (moved : Step g h0 g' h1 e) :
    g'.isOpen = false → tally Hand.grants (Function.update hand v h1) + tally Hand.closes (Function.update hand v h1) +
      (if 0 < g'.left then 1 else 0) = 1 := by
  intro is
  have grants := tally_update Hand.grants hand v h1
  have closes := tally_update Hand.closes hand v h1
  rw [own] at grants closes
  cases moved with
  | stay | use | drop =>
    have before := inv.closed is
    simp only [Hand.grants,Hand.closes] at grants closes
    omega
  | close open_ pos =>
    obtain ⟨none,noGrants,noCloses⟩ := inv.opened open_
    simp only [Hand.grants,Hand.closes] at grants closes
    rw [if_neg (by show ¬ 0 < g.left; omega)]
    omega
  | grant =>
    have pos := inv.positive v _ own
    have duty := inv.closed_of_duty (v := v) (by rw [own]; rfl)
    have mine := le_tally Hand.grants hand v
    rw [own] at mine
    simp only [Hand.grants,Hand.closes] at grants closes mine
    rw [if_pos pos]
    omega
  | miss none =>
    have before := inv.closed is
    simp only [Hand.grants,Hand.closes] at grants closes
    rw [if_neg (by omega)] at before
    rw [if_neg (by show ¬ 0 < g.left - 1; omega)]
    omega
  | draw more =>
    have before := inv.closed is
    simp only [Hand.grants,Hand.closes] at grants closes
    rw [if_pos (by omega)] at before
    rw [if_pos (by show 0 < g.left - 1; omega)]
    omega
  | last one =>
    have before := inv.closed is
    simp only [Hand.grants,Hand.closes] at grants closes
    rw [if_pos (by omega)] at before
    rw [if_neg (by show ¬ 0 < g.left - 1; omega)]
    omega
  | reopen => cases is

theorem usage_step (inv : Invariant g hand h) (own : hand v = h0) (moved : Step g h0 g' h1 e) :
    Grants.used (e.toList ++ h) + tally Hand.tickets (Function.update hand v h1) ≤ taken (e.toList ++ h) := by
  have usage := inv.usage
  have tickets := tally_update Hand.tickets hand v h1
  rw [own] at tickets
  cases moved with
  | miss | draw | last =>
    show Grants.used (.draw g.left :: h) + _ ≤ taken (.draw g.left :: h)
    rw [used_draw,taken_draw]
    simp only [Hand.tickets] at tickets
    split <;> omega
  | use =>
    show Grants.used (.use :: h) + _ ≤ taken (.use :: h)
    rw [used_use,taken_use]
    simp only [Hand.tickets] at tickets
    omega
  | stay | close | grant | reopen | drop =>
    simp only [Hand.tickets] at tickets
    show Grants.used h + _ ≤ taken h
    omega

/-- Every step of a thread keeps the invariant. -/
theorem step (inv : Invariant g hand h) (own : hand v = h0) (moved : Step g h0 g' h1 e) :
    Invariant g' (Function.update hand v h1) (e.toList ++ h) := by
  have opened := inv.opened_step own moved
  have closed := inv.closed_step own moved
  have positive := inv.positive_step own moved
  have usage := inv.usage_step own moved
  cases moved with
  | stay | close | reopen | drop => exact ⟨opened,closed,positive,inv.since,inv.within,inv.exhausted,inv.balance,usage⟩
  | use =>
    refine ⟨opened,closed,positive,inv.since,inv.within,inv.exhausted,?_,usage⟩
    show (taken (.use :: h) : Int) + max g.left 0 = granted h
    rw [taken_use]
    exact inv.balance
  | @grant k =>
    have pos : 0 < k := inv.positive v k own
    have none : g.left ≤ 0 := inv.grant_empty own
    have zero : max g.left 0 = 0 := by omega
    have top : max k 0 = k := by omega
    have since := inv.since
    have balance := inv.balance
    rw [zero] at since balance
    refine ⟨opened,closed,positive,?_,?_,⟨since,inv.exhausted⟩,?_,usage⟩
    · show [] = above (max k 0) k
      rw [top,above_self]
    · show max k 0 ≤ k
      omega
    · show (taken h : Int) + max k 0 = k + granted h
      omega
  | miss | draw | last =>
    have within := inv.within
    refine ⟨opened,closed,positive,inv.since_draw,?_,inv.exhausted,inv.balance_draw,usage⟩
    show max (g.left - 1) 0 ≤ lastGrant h
    omega

end

end Invariant
end
end Bootcode.Grants
