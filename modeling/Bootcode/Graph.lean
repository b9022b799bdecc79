import Mathlib.Data.Fintype.EquivFin
import Mathlib.Logic.Relation
import Mathlib.Order.WellFounded
import Mathlib.Algebra.BigOperators.Intervals
import Mathlib.Algebra.Order.BigOperators.Group.Finset
import Bootcode.SchedState

/-!
The task graph as the host encodes it in `metadata->dag`: `num_nodes`
in-degrees, one offset more, then the edge targets of node 0, of node 1, and so
on. `Valid` says that the table encodes an acyclic graph with one source; the
counts of edges that the scheduler's bookkeeping needs follow.
-/
namespace Bootcode.Graph
open Bootcode.SchedState

/-- In an acyclic relation between finitely many nodes, whatever does not hold of
    all nodes fails first at one whose predecessors satisfy it. -/
theorem exists_minimal {n : Nat} {r : Nat → Nat → Prop} (acyclic : ∀ g, ¬ Relation.TransGen r g g)
    (inside : ∀ g f, r g f → g < n) {P : Nat → Prop} {f : Nat} (lt : f < n) (not : ¬ P f) :
    ∃ f < n, ¬ P f ∧ ∀ g, r g f → P g := by
  let below : Fin n → Fin n → Prop := fun g f => Relation.TransGen r g f
  have : Std.Irrefl below := ⟨fun g => acyclic g⟩
  have : IsTrans (Fin n) below := ⟨fun _ _ _ => Relation.TransGen.trans⟩
  obtain ⟨m,fails,minimal⟩ := (Finite.wellFounded_of_trans_of_irrefl below).has_min {f | ¬ P f} ⟨⟨f,lt⟩,not⟩
  refine ⟨m,m.isLt,fails,?_⟩
  intro g edge
  by_contra bad
  exact minimal ⟨g,inside g m edge⟩ bad (.single edge)

section
variable (d : Metadata)

/-- Where the edge targets of node `g` begin and end. -/
def first (g : Nat) : Nat := d.dag (d.num_nodes + g) + 2 * d.num_nodes + 1
def last (g : Nat) : Nat := first d (g + 1)
/-- The edges from `g` to `f` that the table lists before index `k`. -/
def sent (g f k : Nat) : Nat := ∑ i ∈ Finset.Ico (first d g) (min k (last d g)), if d.dag i = f then 1 else 0
/-- The number of edges from `g` to `f`. -/
def mult (g f : Nat) : Nat := sent d g f (last d g)
/-- There is an edge from `g` to `f`. -/
def Edge (g f : Nat) : Prop := g < d.num_nodes ∧ 0 < mult d g f

/-- The table encodes an acyclic graph whose only source is `start_func`, and no
    index into it reaches 256. -/
structure Valid : Prop where
  start_lt : d.start_func < d.num_nodes
  fits : 2 * d.num_nodes + 1 + d.dag (2 * d.num_nodes) ≤ 255
  offset_zero : d.dag d.num_nodes = 0
  offset_le : ∀ g < d.num_nodes, d.dag (d.num_nodes + g) ≤ d.dag (d.num_nodes + g + 1)
  target_lt : ∀ i, 2 * d.num_nodes + 1 ≤ i → i < 2 * d.num_nodes + 1 + d.dag (2 * d.num_nodes) → d.dag i < d.num_nodes
  in_degree : ∀ f < d.num_nodes, d.dag f =
    ∑ i ∈ Finset.Ico (2 * d.num_nodes + 1) (2 * d.num_nodes + 1 + d.dag (2 * d.num_nodes)), if d.dag i = f then 1 else 0
  acyclic : ∀ g, ¬ Relation.TransGen (Edge d) g g
  source : ∀ f < d.num_nodes, d.dag f = 0 ↔ f = d.start_func
end

variable {d : Metadata}

theorem sent_le (g f k : Nat) : sent d g f k ≤ mult d g f := by
  unfold mult sent
  apply Finset.sum_le_sum_of_subset
  apply Finset.Ico_subset_Ico_right
  omega

@[simp] theorem sent_first (g f : Nat) : sent d g f (first d g) = 0 := by
  simp [sent]

theorem sent_succ {g f k : Nat} (low : first d g ≤ k) (high : k < last d g) :
    sent d g f (k + 1) = sent d g f k + if d.dag k = f then 1 else 0 := by
  have here : min (k + 1) (last d g) = k + 1 := by omega
  have there : min k (last d g) = k := by omega
  rw [sent,sent,here,there,Finset.sum_Ico_succ_top low]

theorem sent_last {g f k : Nat} (done : last d g ≤ k) : sent d g f k = mult d g f := by
  have here : min k (last d g) = min (last d g) (last d g) := by omega
  rw [mult,sent,sent,here]

namespace Valid
variable (valid : Valid d)
include valid

theorem num_nodes_lt : d.num_nodes < 128 := by
  have fits := valid.fits
  omega

theorem first_zero : first d 0 = 2 * d.num_nodes + 1 := by
  simp [first,valid.offset_zero]
theorem first_le_last {g : Nat} (lt : g < d.num_nodes) : first d g ≤ last d g := by
  have offset := valid.offset_le g lt
  simp only [first,last,← Nat.add_assoc]
  omega

omit valid in
theorem first_num_nodes : first d d.num_nodes = 2 * d.num_nodes + 1 + d.dag (2 * d.num_nodes) := by
  simp only [first,← Nat.two_mul]
  omega

omit valid in
theorem le_first (g : Nat) : 2 * d.num_nodes + 1 ≤ first d g := by
  unfold first
  omega

theorem first_le {g : Nat} (le : g ≤ d.num_nodes) : first d g ≤ 2 * d.num_nodes + 1 + d.dag (2 * d.num_nodes) := by
  induction le using Nat.decreasingInduction with
  | self => rw [first_num_nodes]
  | of_succ g lt ih => exact (valid.first_le_last lt).trans ih

theorem last_le {g : Nat} (lt : g < d.num_nodes) : last d g ≤ 255 :=
  (valid.first_le lt).trans valid.fits
theorem target {g k : Nat} (lt : g < d.num_nodes) (low : first d g ≤ k) (high : k < last d g) :
    d.dag k < d.num_nodes :=
  valid.target_lt k ((le_first g).trans low) (high.trans_le (valid.first_le lt))

/-- Every edge is listed under exactly one node. -/
theorem sum_mult {f : Nat} (lt : f < d.num_nodes) : ∑ g ∈ Finset.range d.num_nodes, mult d g f = d.dag f := by
  have upTo : ∀ m ≤ d.num_nodes, ∑ g ∈ Finset.range m, mult d g f =
      ∑ i ∈ Finset.Ico (first d 0) (first d m), if d.dag i = f then 1 else 0 := by
    intro m
    induction m with
    | zero => simp
    | succ m ih =>
      intro le
      have below : first d 0 ≤ first d m := by rw [valid.first_zero]; exact le_first m
      have grows : first d m ≤ first d (m + 1) := valid.first_le_last le
      rw [Finset.sum_range_succ,ih (by omega),mult,sent,Nat.min_self,last,Finset.sum_Ico_consecutive _ below grows]
  rw [upTo _ (Nat.le_refl _),valid.first_zero,first_num_nodes,← valid.in_degree f lt]

theorem dag_lt {f : Nat} (lt : f < d.num_nodes) : d.dag f < 256 := by
  have bound : d.dag f ≤ ∑ i ∈ Finset.Ico (2 * d.num_nodes + 1) (2 * d.num_nodes + 1 + d.dag (2 * d.num_nodes)), 1 := by
    rw [valid.in_degree f lt]
    exact Finset.sum_le_sum fun i _ => by split <;> omega
  have fits := valid.fits
  rw [← Finset.card_eq_sum_ones,Nat.card_Ico] at bound
  omega

end Valid

/-- A table whose edges all lead to larger nodes encodes an acyclic graph. -/
theorem acyclic_of_forward (forward : ∀ g < d.num_nodes, ∀ i ∈ Finset.Ico (first d g) (last d g), g < d.dag i) (g : Nat) :
    ¬ Relation.TransGen (Edge d) g g := by
  have grows : ∀ {g f}, Relation.TransGen (Edge d) g f → g < f := by
    have single : ∀ {g f}, Edge d g f → g < f := by
      rintro g f ⟨lt,pos⟩
      rw [mult,sent,Nat.min_self,Finset.sum_pos_iff] at pos
      obtain ⟨i,member,one⟩ := pos
      split at one
      · rename_i target
        exact target ▸ forward g lt i member
      · omega
    intro g f path
    induction path with
    | single edge => exact single edge
    | tail _ edge ih => exact ih.trans (single edge)
  exact fun path => Nat.lt_irrefl g (grows path)

/-- Metadata with the task graph of a table, and function images at 0. -/
def ofTable (num_nodes start_func : Nat) (table : List Nat) : Metadata where
  num_nodes := num_nodes
  start_func := start_func
  dag i := table.getD i 0
  func_info _ := ⟨0,0,0,0,0⟩

/-- One node. -/
def single : Metadata := ofTable 1 0 [0,0,0]
theorem single_valid : Valid single where
  start_lt := by decide
  fits := by decide
  offset_zero := by decide
  offset_le := by decide
  target_lt := by decide
  in_degree := by decide
  acyclic := acyclic_of_forward (by decide)
  source := by decide

/-- One edge from node 0 to node 1. -/
def edge : Metadata := ofTable 2 0 [0,1,0,1,1,1]
theorem edge_valid : Valid edge where
  start_lt := by decide
  fits := by decide
  offset_zero := by decide
  offset_le := by decide
  target_lt := by decide
  in_degree := by decide
  acyclic := acyclic_of_forward (by decide)
  source := by decide

/-- Edges from node 0 to nodes 1 and 2. -/
def fork : Metadata := ofTable 3 0 [0,1,1,0,2,2,2,1,2]
theorem fork_valid : Valid fork where
  start_lt := by decide
  fits := by decide
  offset_zero := by decide
  offset_le := by decide
  target_lt := by decide
  in_degree := by decide
  acyclic := acyclic_of_forward (by decide)
  source := by decide

/-- Edges from node 0 to nodes 1, 2 and 3. -/
def fan : Metadata := ofTable 4 0 [0,1,1,1,0,3,3,3,3,1,2,3]
theorem fan_valid : Valid fan where
  start_lt := by decide
  fits := by decide
  offset_zero := by decide
  offset_le := by decide
  target_lt := by decide
  in_degree := by decide
  acyclic := acyclic_of_forward (by decide)
  source := by decide

end Bootcode.Graph
