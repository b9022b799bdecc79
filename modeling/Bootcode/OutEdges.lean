import Mathlib.Data.BitVec
import Bootcode.Tasks

/-!
One call of `process_sched_dag` by itself: which entries of `metadata->dag` its
loop reads as out-edges, what counting these down does, and when they are the
out-edges of the finished function. The loop bounds are `uint8_t`, so a table
that reaches index 256 is read from a place 256 entries too low.
-/
namespace Bootcode.OutEdges
open Bootcode.Bits Bootcode.SchedState Bootcode.Sched Bootcode.Graph Bootcode.Tasks

/-- The table encodes an acyclic graph of at most 255 nodes. -/
structure Encoded (d : Metadata) : Prop where
  few : d.num_nodes ≤ 255
  offset_zero : d.dag d.num_nodes = 0
  offset_le : ∀ g < d.num_nodes, d.dag (d.num_nodes + g) ≤ d.dag (d.num_nodes + g + 1)
  target_lt : ∀ i, 2 * d.num_nodes + 1 ≤ i → i < 2 * d.num_nodes + 1 + d.dag (2 * d.num_nodes) → d.dag i < d.num_nodes
  in_degree : ∀ f < d.num_nodes, d.dag f =
    ∑ i ∈ Finset.Ico (2 * d.num_nodes + 1) (2 * d.num_nodes + 1 + d.dag (2 * d.num_nodes)), if d.dag i = f then 1 else 0
  acyclic : ∀ g, ¬ Relation.TransGen (Edge d) g g

/-- The call for `fn`, from a program counter on, returns in a state. -/
inductive Returns (fn : Nat) : Tasks → DagPc → Tasks → Prop
  | done {t t' : Tasks} {k : DagPc} : process_sched_dag fn t k = (t',none) → Returns fn t k t'
  | step {t t' t'' : Tasks} {k k' : DagPc} :
      process_sched_dag fn t k = (t',some k') → Returns fn t' k' t'' → Returns fn t k t''

theorem Returns.unique {fn : Nat} {t t' t'' : Tasks} {k : DagPc} (one : Returns fn t k t') (two : Returns fn t k t'') :
    t' = t'' := by
  induction one with
  | done ran =>
    cases two with
    | done other => rw [ran] at other; cases other; rfl
    | step other _ => rw [ran] at other; cases other
  | step ran _ ih =>
    cases two with
    | done other => rw [ran] at other; cases other
    | step other rest =>
      rw [ran] at other
      cases other
      exact ih rest

/-- One round of the loop: `lock decb` of the count of `v`, and `add_runnable_fn(v)`
    when that is zero. -/
def lower (t : Tasks) (v : Nat) : Tasks :=
  { t with dag_in_count := Function.update t.dag_in_count v (t.dag_in_count v - 1) }
def countDown (t : Tasks) (v : Nat) : Tasks :=
  if t.dag_in_count v - 1 = 0 then add_runnable_fn { lower t v with runnable_tasks := t.runnable_tasks + 1 } v
  else lower t v

theorem countDown_metadata (t : Tasks) (v : Nat) : (countDown t v).metadata = t.metadata := by
  unfold countDown
  split <;> rfl

theorem countDown_count (t : Tasks) (v w : Nat) :
    (countDown t v).dag_in_count w = if w = v then t.dag_in_count w - 1 else t.dag_in_count w := by
  have kept : (countDown t v).dag_in_count = Function.update t.dag_in_count v (t.dag_in_count v - 1) := by
    unfold countDown
    split <;> rfl
  rw [kept]
  by_cases same : w = v
  · subst same; simp
  · simp [same]

theorem countDown_runnable (t : Tasks) (v w : Nat) :
    runnable (countDown t v) w = (runnable t w || decide (w = v ∧ t.dag_in_count v = 1)) := by
  have last : t.dag_in_count v - 1 = 0 ↔ t.dag_in_count v = 1 := sub_eq_zero
  unfold countDown
  by_cases one : t.dag_in_count v = 1
  · rw [if_pos (last.mpr one),runnable_add]
    simp [one,runnable,lower]
  · rw [if_neg (fun zero => one (last.mp zero)),decide_eq_false fun is => one is.2,Bool.or_false]
    rfl

/-- Counting down a list of functions lowers each by its multiplicity. -/
theorem foldl_count (out : List Nat) (t : Tasks) (w : Nat) :
    (out.foldl countDown t).dag_in_count w = t.dag_in_count w - BitVec.ofNat 8 (out.count w) := by
  induction out generalizing t with
  | nil => simp
  | cons v rest ih =>
    rw [List.foldl_cons,ih,countDown_count]
    by_cases same : w = v
    · subst same
      rw [if_pos rfl,List.count_cons_self,BitVec.ofNat_add,sub_sub,add_comm]
      rfl
    · rw [if_neg same,List.count_cons_of_ne (Ne.symm same)]

/-- It makes runnable the functions whose count it brings to zero. -/
theorem foldl_runnable (out : List Nat) (t : Tasks) (w : Nat) (few : out.count w ≤ 255) :
    runnable (out.foldl countDown t) w =
      (runnable t w || decide (1 ≤ (t.dag_in_count w).toNat ∧ (t.dag_in_count w).toNat ≤ out.count w)) := by
  induction out generalizing t with
  | nil =>
    have none : ¬ (1 ≤ (t.dag_in_count w).toNat ∧ (t.dag_in_count w).toNat ≤ 0) := by omega
    rw [List.count_nil,List.foldl_nil,decide_eq_false none,Bool.or_false]
  | cons v rest ih =>
    by_cases same : w = v
    · subst same
      rw [List.count_cons_self] at few ⊢
      rw [List.foldl_cons,ih _ (by omega),countDown_runnable,countDown_count,if_pos rfl,Bool.or_assoc,← Bool.decide_or]
      congr 1
      rw [decide_eq_decide]
      have bound := (t.dag_in_count w).isLt
      have lower : (t.dag_in_count w - 1).toNat =
          if (t.dag_in_count w).toNat = 0 then 255 else (t.dag_in_count w).toNat - 1 := by
        split <;> bv_omega
      have one : t.dag_in_count w = 1 ↔ (t.dag_in_count w).toNat = 1 := by bv_omega
      simp only [true_and,lower,one]
      split <;> omega
    · rw [List.count_cons_of_ne (Ne.symm same)] at few ⊢
      rw [List.foldl_cons,ih _ few,countDown_runnable,countDown_count,if_neg same]
      simp [same]

/-- What the loop reads between two indices. -/
def window (d : Metadata) (i e : Nat) : List Nat := (List.range' i (e - i)).map fun j => d.dag j % 256

theorem window_done (d : Metadata) {i e : Nat} (done : e ≤ i) : window d i e = [] := by
  simp [window,Nat.sub_eq_zero_of_le done]
theorem window_succ (d : Metadata) {i e : Nat} (more : i < e) :
    window d i e = d.dag i % 256 :: window d (i + 1) e := by
  obtain ⟨m,len⟩ : ∃ m, e - i = m + 1 := ⟨e - i - 1,by omega⟩
  have rest : e - (i + 1) = m := by omega
  simp [window,len,rest,List.range'_succ]

/-- One round of the loop is one `countDown`. -/
theorem round_returns {fn i e : Nat} {t t' : Tasks} (more : i < e) (small : e < 256)
    (rest : Returns fn (countDown t (t.metadata.dag i % 256)) (.loop (i + 1) e) t') : Returns fn t (.loop i e) t' := by
  have next : (i + 1) % 256 = i + 1 := Nat.mod_eq_of_lt (by omega)
  have decides : process_sched_dag fn t (.loop i e) = (t,some (.dec i e (t.metadata.dag i % 256))) := by
    simp [process_sched_dag,more]
  refine .step decides ?_
  generalize t.metadata.dag i % 256 = v at rest
  unfold countDown at rest
  by_cases zero : t.dag_in_count v - 1 = 0
  · have releases : process_sched_dag fn t (.dec i e v) = (lower t v,some (.inc i e v)) := by
      simp only [process_sched_dag,zero,if_true,lower]
    have adds : process_sched_dag fn { lower t v with runnable_tasks := t.runnable_tasks + 1 } (.bts i e v) =
        (add_runnable_fn { lower t v with runnable_tasks := t.runnable_tasks + 1 } v,some (.loop (i + 1) e)) := by
      simp only [process_sched_dag,next]
    rw [if_pos zero] at rest
    exact .step releases (.step rfl (.step adds rest))
  · have goesOn : process_sched_dag fn t (.dec i e v) = (lower t v,some (.loop (i + 1) e)) := by
      simp only [process_sched_dag,zero,if_false,next,lower]
    rw [if_neg zero] at rest
    exact .step goesOn rest

theorem loop_returns (fn : Nat) {e : Nat} (small : e < 256) (m : Nat) :
    ∀ (t : Tasks) (i : Nat), e - i = m → Returns fn t (.loop i e) ((window t.metadata i e).foldl countDown t) := by
  induction m with
  | zero =>
    intro t i len
    rw [window_done _ (by omega)]
    refine .done ?_
    simp [process_sched_dag,show ¬ i < e by omega]
  | succ m ih =>
    intro t i len
    have more : i < e := by omega
    rw [window_succ _ more,List.foldl_cons]
    refine round_returns more small ?_
    have rest := ih (countDown t (t.metadata.dag i % 256)) (i + 1) (by omega)
    rwa [countDown_metadata] at rest

/-! ### The out-edges -/

/-- The entries that the call for `fn` counts down. -/
def visited (d : Metadata) (fn : Nat) : List Nat := window d (first d fn % 256) (last d fn % 256)
/-- The targets that the table lists for `fn`. -/
def targets (d : Metadata) (fn : Nat) : List Nat := (List.range' (first d fn) (last d fn - first d fn)).map d.dag

/-- The call counts down what it visits. -/
theorem call_returns {fn : Nat} (t : Tasks) (few : t.metadata.num_nodes ≤ 255) :
    Returns fn t .ldNodes ((visited t.metadata fn).foldl countDown t) := by
  have nodes : t.metadata.num_nodes % 256 = t.metadata.num_nodes := Nat.mod_eq_of_lt (by omega)
  have ldNodes : process_sched_dag fn t .ldNodes = (t,some (.ldFirst t.metadata.num_nodes)) := by
    simp [process_sched_dag,nodes]
  have ldFirst : process_sched_dag fn t (.ldFirst t.metadata.num_nodes) =
      (t,some (.ldLast t.metadata.num_nodes (first t.metadata fn % 256))) := rfl
  have ldLast : process_sched_dag fn t (.ldLast t.metadata.num_nodes (first t.metadata fn % 256)) =
      (t,some (.loop (first t.metadata fn % 256) (last t.metadata fn % 256))) := rfl
  refine .step ldNodes (.step ldFirst (.step ldLast ?_))
  exact loop_returns fn (Nat.mod_lt _ (by omega)) _ t _ rfl

theorem count_map (l : List Nat) (g : Nat → Nat) (f : Nat) :
    (l.map fun i => if g i = f then 1 else 0).sum = (l.map g).count f := by
  induction l with
  | nil => rfl
  | cons i rest ih =>
    rw [List.map_cons,List.sum_cons,ih,List.map_cons,List.count_cons,Nat.add_comm]
    simp

theorem count_targets (d : Metadata) (g f : Nat) : (targets d g).count f = mult d g f := by
  rw [mult,sent,Nat.min_self,targets,← count_map]
  rfl

variable {d : Metadata} {fn : Nat}

namespace Encoded
variable (encoded : Encoded d) (node : fn < d.num_nodes)
include encoded node

theorem first_le_last : first d fn ≤ last d fn := by
  have offset := encoded.offset_le fn node
  simp only [first,last,← Nat.add_assoc]
  omega

theorem last_le : last d fn ≤ 2 * d.num_nodes + 1 + d.dag (2 * d.num_nodes) := by
  have up : ∀ g ≤ d.num_nodes, d.dag (d.num_nodes + g) ≤ d.dag (2 * d.num_nodes) := by
    intro g le
    induction le using Nat.decreasingInduction with
    | self => rw [Nat.two_mul]
    | of_succ g lt ih => exact (encoded.offset_le g lt).trans ih
  have bound := up (fn + 1) node
  unfold last first
  omega

theorem target_lt_of_mem {v : Nat} (member : v ∈ targets d fn) : v < d.num_nodes := by
  obtain ⟨i,inside,rfl⟩ := List.mem_map.mp member
  have above := encoded.last_le node
  have order := encoded.first_le_last node
  rw [List.mem_range'_1] at inside
  refine encoded.target_lt i ?_ (by omega)
  have low : 2 * d.num_nodes + 1 ≤ first d fn := by unfold first; omega
  omega

/-- Below index 256 the call visits the out-edges. -/
theorem visited_eq (fits : last d fn ≤ 255) : visited d fn = targets d fn := by
  have order := encoded.first_le_last node
  rw [visited,Nat.mod_eq_of_lt (by omega),Nat.mod_eq_of_lt (by omega),window,targets]
  refine List.map_congr_left fun i inside => Nat.mod_eq_of_lt ?_
  have lt := encoded.target_lt_of_mem node (List.mem_map.mpr ⟨i,inside,rfl⟩)
  have few := encoded.few
  omega

end Encoded

/-- The tables that the scheduler can work with are among these. -/
theorem Encoded.of_valid (valid : Valid d) : Encoded d where
  few := by have few := valid.num_nodes_lt; omega
  offset_zero := valid.offset_zero
  offset_le := valid.offset_le
  target_lt := valid.target_lt
  in_degree := valid.in_degree
  acyclic := valid.acyclic

theorem visited_count_le (d : Metadata) (fn v : Nat) : (visited d fn).count v ≤ 255 := by
  have length : (visited d fn).length ≤ 255 := by
    have bound := Nat.mod_lt (last d fn) (show 0 < 256 by omega)
    simp only [visited,window,List.length_map,List.length_range']
    omega
  exact List.count_le_length.trans length

/-- What the call is to do: count every function down by the edges to it, and make
    runnable those whose count that brings to zero. -/
structure Processes (fn : Nat) (t t' : Tasks) : Prop where
  counts : ∀ v, (t'.dag_in_count v).toNat + mult t.metadata fn v = (t.dag_in_count v).toNat
  runnable : ∀ v, runnable t' v = (runnable t v || decide (0 < mult t.metadata fn v ∧ t'.dag_in_count v = 0))

/-- The entries that the call visits are the out-edges of `fn`: the table lists
    them below index 256, or it happens to hold the same targets at the reduced indices. -/
def Reaches (d : Metadata) (fn : Nat) : Prop := last d fn ≤ 255 ∨ (visited d fn).Perm (targets d fn)

theorem Encoded.reaches_iff (encoded : Encoded d) (node : fn < d.num_nodes) :
    Reaches d fn ↔ ∀ v, (visited d fn).count v = mult d fn v := by
  simp only [← count_targets,← List.perm_iff_count]
  constructor
  · rintro (fits | same)
    · rw [encoded.visited_eq node fits]
    · exact same
  · exact .inr

/-- A lower count that differs by less than 256 was lowered by the difference. -/
theorem lowered_iff {c : BitVec 8} {k m : Nat} (few : k ≤ 255) (enough : m ≤ c.toNat) :
    (c - BitVec.ofNat 8 k).toNat + m = c.toNat ↔ k = m := by
  have bound := c.isLt
  have small : (BitVec.ofNat 8 k).toNat = k := by rw [BitVec.toNat_ofNat,Nat.mod_eq_of_lt (by omega)]
  by_cases le : k ≤ c.toNat
  · rw [BitVec.toNat_sub_of_le (by rw [BitVec.le_def,small]; exact le),small]
    omega
  · rw [BitVec.toNat_sub,small]
    omega

/-- The call does its work exactly when what it visits are the out-edges of `fn`. -/
theorem processes_iff {t : Tasks} (encoded : Encoded t.metadata) (node : fn < t.metadata.num_nodes)
    (enough : ∀ v, mult t.metadata fn v ≤ (t.dag_in_count v).toNat) :
    ∃ t', Returns fn t .ldNodes t' ∧ (Processes fn t t' ↔ Reaches t.metadata fn) := by
  refine ⟨_,call_returns t encoded.few,?_⟩
  rw [encoded.reaches_iff node]
  have counts : ∀ v, _ := fun v => foldl_count (visited t.metadata fn) t v
  have few := visited_count_le t.metadata fn
  constructor
  · intro holds v
    have lower := holds.counts v
    rw [counts] at lower
    exact (lowered_iff (few v) (enough v)).mp lower
  · intro same
    have lower : ∀ v, (((visited t.metadata fn).foldl countDown t).dag_in_count v).toNat + mult t.metadata fn v =
        (t.dag_in_count v).toNat := by
      intro v
      rw [counts]
      exact (lowered_iff (few v) (enough v)).mpr (same v)
    refine ⟨lower,?_⟩
    intro v
    rw [foldl_runnable _ t v (few v),same]
    congr 1
    rw [decide_eq_decide]
    have zero : ((visited t.metadata fn).foldl countDown t).dag_in_count v = 0 ↔
        (((visited t.metadata fn).foldl countDown t).dag_in_count v).toNat = 0 := by bv_omega
    have some := lower v
    have most := enough v
    rw [zero]
    omega

/-- Node 0 of one edge, whose target waits for it alone. -/
def edgeTasks : Tasks := ⟨edge,fun v => if v = 1 then 1 else 0,fun _ => 0,0,0⟩

theorem processes_iff_edge : ∃ t', Returns 0 edgeTasks .ldNodes t' ∧ (Processes 0 edgeTasks t' ↔ Reaches edge 0) := by
  refine processes_iff (t := edgeTasks) (.of_valid edge_valid) (by decide) ?_
  intro v
  by_cases one : v = 1
  · subst one
    decide
  · have none : mult edge 0 v = 0 := by
      rw [← count_targets]
      exact List.count_eq_zero.mpr (by simpa [targets,edge,ofTable,first,last] using one)
    exact none.trans_le (Nat.zero_le _)

/-- 128 nodes and one edge, from node 0 to node 2: its target is at index 257. -/
def wide : Metadata where
  num_nodes := 128
  start_func := 0
  dag i := if i = 2 then 1 else if i ≤ 128 then 0 else if i ≤ 256 then 1 else 2
  func_info _ := ⟨0,0,0,0,0⟩

theorem wide_encoded : Encoded wide where
  few := by decide
  offset_zero := by decide
  offset_le := by decide
  target_lt := by
    intro i low high
    have high : i < 258 := high
    have at' : i = 257 := by simp only [wide] at low; omega
    subst at'
    decide
  in_degree := by
    intro f lt
    show wide.dag f = ∑ i ∈ Finset.Ico 257 258, if wide.dag i = f then 1 else 0
    rw [show Finset.Ico 257 258 = {257} from rfl,Finset.sum_singleton]
    revert f
    decide
  acyclic := acyclic_of_forward (by decide)

def wideTasks : Tasks := ⟨wide,fun v => if v = 2 then 1 else 0,fun _ => 0,0,0⟩

/-- The call for node 0 counts down node 0, whose number it reads at index 1. -/
theorem edge_dropped : ¬ ∀ (fn : Nat) (t : Tasks), Encoded t.metadata → fn < t.metadata.num_nodes →
    (∀ v, mult t.metadata fn v ≤ (t.dag_in_count v).toNat) → ∃ t', Returns fn t .ldNodes t' ∧ Processes fn t t' := by
  intro lowers
  have single : ∀ v, mult wide 0 v = if v = 2 then 1 else 0 := by
    intro v
    rw [← count_targets,show targets wide 0 = [2] by decide,List.count_cons,List.count_nil,Nat.zero_add]
    by_cases two : v = 2
    · subst two; rfl
    · simp [two,Ne.symm two]
  have enough : ∀ v, mult wide 0 v ≤ (wideTasks.dag_in_count v).toNat := by
    intro v
    rw [single]
    by_cases two : v = 2 <;> simp [wideTasks,two]
  obtain ⟨t',returns,does⟩ := lowers 0 wideTasks wide_encoded (by decide) enough
  have visits : visited wide 0 = [0] := by decide
  have same := returns.unique (call_returns wideTasks wide_encoded.few)
  have lower := does.counts 2
  rw [same,show wideTasks.metadata = wide from rfl,visits,single] at lower
  exact absurd lower (by decide)

end Bootcode.OutEdges
