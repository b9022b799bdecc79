import Bootcode.Graph
import Bootcode.Sched

/-!
The life of a task, with everything else a vCPU does forgotten. A vCPU plays a
`Role`; `TaskStep` is what one step may do to the counts, the bitmap and the
role; and `TaskInv` ties the two together over all vCPUs and the history of the
current epoch: a node whose in-degree has been counted down is exactly one of
being added, runnable, claimed, running, finishing and counted.
-/
namespace Bootcode.Tasks
open Bootcode.Bits Bootcode.SchedState Bootcode.Interleave Bootcode.Sched Bootcode.Graph
set_option linter.unusedSimpArgs false

/-- `fn` is in the runnable bitmap. -/
def runnable (t : Tasks) (fn : Nat) : Bool := (t.bm_run_fn (fn / 64)).getLsbD (fn % 64)
/-- The number of functions in the runnable bitmap. -/
def runnableCount (t : Tasks) : Nat := ∑ idx ∈ Finset.range 4, popcnt (t.bm_run_fn idx)
/-- The `lock btr` of `get_work` on the bit of `fn`. -/
def claim (t : Tasks) (fn : Nat) : Tasks :=
  { t with bm_run_fn := Function.update t.bm_run_fn (fn / 64) (btr (t.bm_run_fn (fn / 64)) (fn % 64)) }

theorem runnable_add (t : Tasks) (fn f : Nat) :
    runnable (add_runnable_fn t fn) f = (runnable t f || decide (f = fn)) := by
  have bit : f % 64 < 64 := Nat.mod_lt f (by omega)
  by_cases word : f / 64 = fn / 64
  · have same : f = fn ↔ fn % 64 = f % 64 := by omega
    simp only [runnable,add_runnable_fn,word,Function.update_self,getLsbD_bts,same,bit,and_true]
  · have other : f ≠ fn := fun same => word (by rw [same])
    simp [runnable,add_runnable_fn,word,other]

theorem runnable_claim (t : Tasks) (fn f : Nat) :
    runnable (claim t fn) f = (runnable t f && !decide (f = fn)) := by
  by_cases word : f / 64 = fn / 64
  · have same : f = fn ↔ fn % 64 = f % 64 := by omega
    simp only [runnable,claim,word,Function.update_self,getLsbD_btr,same]
  · have other : f ≠ fn := fun same => word (by rw [same])
    simp [runnable,claim,word,other]

/-- A changed word changes the count of runnable functions by its own. -/
theorem runnableCount_update (t : Tasks) {idx : Nat} (lt : idx < 4) (w : Word) :
    runnableCount { t with bm_run_fn := Function.update t.bm_run_fn idx w } + popcnt (t.bm_run_fn idx) =
      runnableCount t + popcnt w := by
  have member : idx ∈ Finset.range 4 := Finset.mem_range.mpr lt
  have rest : ∑ i ∈ (Finset.range 4).erase idx, popcnt (Function.update t.bm_run_fn idx w i) =
      ∑ i ∈ (Finset.range 4).erase idx, popcnt (t.bm_run_fn i) :=
    Finset.sum_congr rfl fun i other => by rw [Function.update_of_ne (Finset.ne_of_mem_erase other)]
  simp only [runnableCount]
  rw [← Finset.add_sum_erase _ _ member,← Finset.add_sum_erase _ _ member,rest,Function.update_self]
  omega

theorem runnableCount_add {t : Tasks} {fn : Nat} (lt : fn < MAX_FUNC) (clear : runnable t fn = false) :
    runnableCount (add_runnable_fn t fn) = runnableCount t + 1 := by
  have word : fn / 64 < 4 := by unfold MAX_FUNC at lt; omega
  have change := runnableCount_update t word (bts (t.bm_run_fn (fn / 64)) (fn % 64))
  rw [popcnt_bts (Nat.mod_lt fn (by omega)) clear] at change
  unfold add_runnable_fn
  omega

theorem runnableCount_claim {t : Tasks} {fn : Nat} (lt : fn < MAX_FUNC) (set : runnable t fn = true) :
    runnableCount (claim t fn) + 1 = runnableCount t := by
  have word : fn / 64 < 4 := by unfold MAX_FUNC at lt; omega
  have change := runnableCount_update t word (btr (t.bm_run_fn (fn / 64)) (fn % 64))
  have fewer := popcnt_btr set
  unfold claim
  omega

def isDispatch (fn : Nat) : Ev → Bool
  | .dispatch _ f => f = fn
  | _ => false
def isFinish (fn : Nat) : Ev → Bool
  | .finish _ f => f = fn
  | _ => false
def isCounted (fn : Nat) : Ev → Bool
  | .counted _ f => f = fn
  | _ => false

/-- How many events of the current epoch satisfy `p`: those after the last
    `turnover` of a history, newest first. -/
def inEpoch (p : Ev → Bool) : List Ev → Nat
  | [] => 0
  | .turnover _ :: _ => 0
  | e :: rest => inEpoch p rest + (p e).toNat

/-- An epoch has begun. -/
def begun (log : List Ev) : Bool := log.any fun e => match e with | .turnover _ => true | _ => false

/-- In the current epoch every function was dispatched after all functions with
    an edge to it had finished. -/
def Ordered (d : Metadata) : List Ev → Prop
  | [] => True
  | .turnover _ :: _ => True
  | .dispatch _ fn :: rest => (∀ g, Edge d g fn → 0 < inEpoch (isFinish g) rest) ∧ Ordered d rest
  | _ :: rest => Ordered d rest

/-- Events that say nothing about tasks. -/
def Silent : Ev → Prop
  | .turnover _ | .dispatch _ _ | .finish _ _ | .counted _ _ => False
  | _ => True

theorem ordered_of_none {d : Metadata} {log : List Ev} (none : ∀ fn, inEpoch (isDispatch fn) log = 0) :
    Ordered d log := by
  induction log with
  | nil => trivial
  | cons e rest ih =>
    cases e with
    | turnover id => trivial
    | dispatch id fn =>
      have one := none fn
      simp [inEpoch,isDispatch] at one
    | _ => exact ih fun fn => by simpa [inEpoch,isDispatch] using none fn

/-! ### Roles -/

/-- What a vCPU does to the task graph. `i` is the index of the next edge. -/
inductive Role
  | idle
  | prep
  | copy (i : Nat)
  | seed
  | seedInc (fn : Nat)
  | seedBts (fn : Nat)
  | won (fn : Nat)
  | ready (fn : Nat)
  | user (fn : Nat)
  | back (fn : Nat)
  | relax (fn i : Nat)
  | addInc (fn i out_fn : Nat)
  | addBts (fn i out_fn : Nat)
  | done (fn : Nat)

namespace Role

/-- The role owns function `fn`, from the claim of its bit to its count. -/
def owns (fn : Nat) : Role → Nat
  | .won f | .ready f | .user f | .back f | .relax f _ | .addInc f _ _ | .addBts f _ _ | .done f => if f = fn then 1 else 0
  | _ => 0
/-- The role has found `fn` runnable and has not yet set its bit. -/
def adds (fn : Nat) : Role → Nat
  | .seedInc f | .seedBts f | .addInc _ _ f | .addBts _ _ f => if f = fn then 1 else 0
  | _ => 0
/-- The role owns a dispatched `fn`. -/
def ran (fn : Nat) : Role → Nat
  | .user f | .back f | .relax f _ | .addInc f _ _ | .addBts f _ _ | .done f => if f = fn then 1 else 0
  | _ => 0
/-- The role owns a finished `fn`. -/
def finished (fn : Nat) : Role → Nat
  | .back f | .relax f _ | .addInc f _ _ | .addBts f _ _ | .done f => if f = fn then 1 else 0
  | _ => 0
/-- The edges from `g` to `fn` that the role has counted down. -/
def relaxed (d : Metadata) (g fn : Nat) : Role → Nat
  | .relax f i => if f = g then sent d g fn i else 0
  | .addInc f i _ | .addBts f i _ => if f = g then sent d g fn (i + 1) else 0
  | .done f => if f = g then mult d g fn else 0
  | _ => 0
/-- The role prepares the next epoch. -/
def prepares : Role → Nat
  | .prep | .copy _ | .seed => 1
  | _ => 0
/-- The role has counted a function in `runnable_tasks` before setting its bit. -/
def ahead : Role → Nat
  | .seedBts _ | .addBts _ _ _ => 1
  | _ => 0
/-- The role has cleared a bit before counting down `runnable_tasks`. -/
def behind : Role → Nat
  | .won _ => 1
  | _ => 0

theorem ran_le_owns (fn : Nat) (r : Role) : r.ran fn ≤ r.owns fn := by
  cases r <;> simp [ran,owns]
theorem finished_le_owns (fn : Nat) (r : Role) : r.finished fn ≤ r.owns fn := by
  cases r <;> simp [finished,owns]
theorem relaxed_le (d : Metadata) (g fn : Nat) (r : Role) : r.relaxed d g fn ≤ r.owns g * mult d g fn := by
  cases r <;> simp only [relaxed,owns] <;> try split
  all_goals simp [sent_le]

theorem relaxed_le_finished (d : Metadata) (g fn : Nat) (r : Role) : r.relaxed d g fn ≤ r.finished g * mult d g fn := by
  cases r <;> simp only [relaxed,finished] <;> try split
  all_goals simp [sent_le]

end Role

/-- What one step of a vCPU does to the tasks and its role, and the event it
    adds to the history. -/
inductive TaskStep (host : Metadata → Prop) : Tasks → Role → Tasks → Role → Option Ev → Prop
  | stay {t r e} (silent : ∀ ev ∈ e, Silent ev) : TaskStep host t r t r e
  | turnover {t} (id : Nat) (all : t.num_fin_fn = BitVec.ofNat 64 t.metadata.num_nodes) :
      TaskStep host t .idle { t with num_fin_fn := 0 } .prep (some (.turnover id))
  | install {t d} (supplied : host d) : TaskStep host t .prep { t with metadata := d } .prep none
  | recover {t} : TaskStep host t .prep { t with runnable_tasks := 0 } .prep none
  | copy {t} : TaskStep host t .prep t (.copy 0) none
  | copied {t i} (lt : i < t.metadata.num_nodes) :
      TaskStep host t (.copy i)
        { t with dag_in_count := Function.update t.dag_in_count i (BitVec.ofNat 8 (t.metadata.dag i)) } (.copy (i + 1)) none
  | copiedAll {t i} (all : t.metadata.num_nodes ≤ i) : TaskStep host t (.copy i) t .seed none
  | seed {t} : TaskStep host t .seed t (.seedInc t.metadata.start_func) none
  | seedInc {t fn} : TaskStep host t (.seedInc fn) { t with runnable_tasks := t.runnable_tasks + 1 } (.seedBts fn) none
  | seedBts {t fn} : TaskStep host t (.seedBts fn) (add_runnable_fn t fn) .idle none
  | claim {t fn} (set : runnable t fn = true) : TaskStep host t .idle (claim t fn) (.won fn) none
  | won {t fn} : TaskStep host t (.won fn) { t with runnable_tasks := t.runnable_tasks - 1 } (.ready fn) none
  | dispatch {t fn} (id : Nat) : TaskStep host t (.ready fn) t (.user fn) (some (.dispatch id fn))
  | finish {t fn} (id : Nat) : TaskStep host t (.user fn) t (.back fn) (some (.finish id fn))
  | enter {t fn} (lt : fn < t.metadata.num_nodes) : TaskStep host t (.back fn) t (.relax fn (first t.metadata fn)) none
  | relax {t fn i} (lt : fn < t.metadata.num_nodes) (low : first t.metadata fn ≤ i) (high : i < last t.metadata fn)
      (more : t.dag_in_count (t.metadata.dag i) - 1 ≠ 0) :
      TaskStep host t (.relax fn i)
        { t with dag_in_count := Function.update t.dag_in_count (t.metadata.dag i) (t.dag_in_count (t.metadata.dag i) - 1) }
        (.relax fn (i + 1)) none
  | release {t fn i} (lt : fn < t.metadata.num_nodes) (low : first t.metadata fn ≤ i) (high : i < last t.metadata fn)
      (zero : t.dag_in_count (t.metadata.dag i) - 1 = 0) :
      TaskStep host t (.relax fn i)
        { t with dag_in_count := Function.update t.dag_in_count (t.metadata.dag i) (t.dag_in_count (t.metadata.dag i) - 1) }
        (.addInc fn i (t.metadata.dag i)) none
  | addInc {t fn i out_fn} :
      TaskStep host t (.addInc fn i out_fn) { t with runnable_tasks := t.runnable_tasks + 1 } (.addBts fn i out_fn) none
  | addBts {t fn i out_fn} : TaskStep host t (.addBts fn i out_fn) (add_runnable_fn t out_fn) (.relax fn (i + 1)) none
  | done {t fn i} (all : last t.metadata fn ≤ i) : TaskStep host t (.relax fn i) t (.done fn) none
  | count {t fn} (id : Nat) (lt : fn < t.metadata.num_nodes) :
      TaskStep host t (.done fn) { t with num_fin_fn := t.num_fin_fn + 1 } .idle (some (.counted id fn))

/-! ### The invariant -/

section
variable {ι : Type} [Fintype ι]

/-- In how many places `fn` is: being added, runnable, owned or counted. -/
def load (t : Tasks) (r : ι → Role) (log : List Ev) (fn : Nat) : Nat :=
  tally (Role.owns fn) r + tally (Role.adds fn) r + (runnable t fn).toNat + inEpoch (isCounted fn) log
/-- How often `fn` has been counted down for an edge from `g`. -/
def downs (t : Tasks) (r : ι → Role) (log : List Ev) (g fn : Nat) : Nat :=
  tally (Role.relaxed t.metadata g fn) r + inEpoch (isCounted g) log * mult t.metadata g fn

/-- Outside an epoch no task is anywhere; inside one, a node is in exactly one
    place once its count is zero, and in none before. -/
structure TaskInv (t : Tasks) (r : ι → Role) (log : List Ev) : Prop where
  valid : Valid t.metadata
  preparing : tally Role.prepares r ≤ 1
  unbegun : begun log = false → tally Role.prepares r = 0 ∧ t.num_fin_fn = BitVec.ofNat 64 t.metadata.num_nodes
  quiet : begun log = false ∨ 0 < tally Role.prepares r → ∀ fn, load t r log fn = 0
  active : begun log = true → tally Role.prepares r = 0 →
    ∀ fn, load t r log fn = if fn < t.metadata.num_nodes ∧ t.dag_in_count fn = 0 then 1 else 0
  counts : begun log = true → tally Role.prepares r = 0 → ∀ fn < t.metadata.num_nodes,
    (t.dag_in_count fn).toNat + ∑ g ∈ Finset.range t.metadata.num_nodes, downs t r log g fn = t.metadata.dag fn
  copied : ∀ v i, r v = .copy i → ∀ f < i, t.dag_in_count f = BitVec.ofNat 8 (t.metadata.dag f)
  copiedAll : ∀ v, r v = .seed → ∀ f < t.metadata.num_nodes, t.dag_in_count f = BitVec.ofNat 8 (t.metadata.dag f)
  num_fin_fn : begun log = true →
    t.num_fin_fn = BitVec.ofNat 64 (∑ g ∈ Finset.range t.metadata.num_nodes, inEpoch (isCounted g) log)
  runnable_tasks : t.runnable_tasks = BitVec.ofNat 64 (runnableCount t + tally Role.ahead r + tally Role.behind r)
  dispatched : ∀ fn, inEpoch (isDispatch fn) log = tally (Role.ran fn) r + inEpoch (isCounted fn) log
  finished : ∀ fn, inEpoch (isFinish fn) log = tally (Role.finished fn) r + inEpoch (isCounted fn) log
  ordered : Ordered t.metadata log

namespace TaskInv
variable {t : Tasks} {r : ι → Role} {log : List Ev}

theorem load_le (inv : TaskInv t r log) (fn : Nat) : load t r log fn ≤ 1 := by
  by_cases is : begun log = false ∨ 0 < tally Role.prepares r
  · rw [inv.quiet is fn]; omega
  · have started : begun log = true := by simpa using (not_or.mp is).1
    rw [inv.active started (by omega) fn]
    split <;> omega

/-- A function that is anywhere is a node whose count is zero, in an epoch. -/
theorem of_load (inv : TaskInv t r log) {fn : Nat} (pos : 0 < load t r log fn) :
    begun log = true ∧ tally Role.prepares r = 0 ∧ fn < t.metadata.num_nodes ∧ t.dag_in_count fn = 0 ∧
    load t r log fn = 1 := by
  by_cases is : begun log = false ∨ 0 < tally Role.prepares r
  · have none := inv.quiet is fn
    omega
  · have started : begun log = true := by simpa using (not_or.mp is).1
    have none : tally Role.prepares r = 0 := by omega
    have one := inv.active started none fn
    split at one
    · rename_i node
      exact ⟨started,none,node.1,node.2,one⟩
    · omega

theorem of_owns (inv : TaskInv t r log) {v : ι} {fn : Nat} (owns : (r v).owns fn = 1) :
    begun log = true ∧ tally Role.prepares r = 0 ∧ fn < t.metadata.num_nodes ∧ t.dag_in_count fn = 0 ∧
    load t r log fn = 1 := by
  have some := le_tally (Role.owns fn) r v
  exact inv.of_load (by unfold load; omega)

theorem of_adds (inv : TaskInv t r log) {v : ι} {fn : Nat} (adds : (r v).adds fn = 1) :
    begun log = true ∧ tally Role.prepares r = 0 ∧ fn < t.metadata.num_nodes ∧ t.dag_in_count fn = 0 ∧
    load t r log fn = 1 := by
  have some := le_tally (Role.adds fn) r v
  exact inv.of_load (by unfold load; omega)

theorem of_runnable (inv : TaskInv t r log) {fn : Nat} (set : runnable t fn = true) :
    begun log = true ∧ tally Role.prepares r = 0 ∧ fn < t.metadata.num_nodes ∧ t.dag_in_count fn = 0 ∧
    load t r log fn = 1 :=
  inv.of_load (by unfold load; rw [set]; simp)

theorem downs_le (inv : TaskInv t r log) (g fn : Nat) : downs t r log g fn ≤ mult t.metadata g fn := by
  have owned := tally_le_mul (Role.relaxed_le t.metadata g fn) r
  have one := inv.load_le g
  have both : tally (Role.owns g) r + inEpoch (isCounted g) log ≤ 1 := by unfold load at one; omega
  have scaled := Nat.mul_le_mul_right (mult t.metadata g fn) both
  rw [Nat.add_mul,Nat.one_mul] at scaled
  unfold downs
  omega

/-- A node whose count is zero has been counted down for every edge to it. -/
theorem downs_eq (inv : TaskInv t r log) (started : begun log = true) (none : tally Role.prepares r = 0) {fn : Nat}
    (lt : fn < t.metadata.num_nodes) (zero : t.dag_in_count fn = 0) {g : Nat} (node : g < t.metadata.num_nodes) :
    downs t r log g fn = mult t.metadata g fn := by
  have total := inv.counts started none fn lt
  rw [zero,← inv.valid.sum_mult lt] at total
  have each : ∀ g ∈ Finset.range t.metadata.num_nodes, downs t r log g fn ≤ mult t.metadata g fn :=
    fun g _ => inv.downs_le g fn
  exact (Finset.sum_eq_sum_iff_of_le each).mp (by simpa using total) g (Finset.mem_range.mpr node)

/-- Every predecessor of a node whose count is zero has finished. -/
theorem predecessor_finished (inv : TaskInv t r log) (started : begun log = true) (none : tally Role.prepares r = 0)
    {g fn : Nat} (lt : fn < t.metadata.num_nodes) (zero : t.dag_in_count fn = 0) (edge : Edge t.metadata g fn) :
    0 < inEpoch (isFinish g) log := by
  have all := inv.downs_eq started none lt zero edge.1
  have some := tally_le_mul (Role.relaxed_le_finished t.metadata g fn) r
  rw [inv.finished g]
  by_contra no
  have fin : tally (Role.finished g) r = 0 := by omega
  have cnt : inEpoch (isCounted g) log = 0 := by omega
  rw [fin,Nat.zero_mul] at some
  have pos := edge.2
  unfold downs at all
  rw [cnt,Nat.zero_mul] at all
  omega

theorem counted_le (inv : TaskInv t r log) (g : Nat) : inEpoch (isCounted g) log ≤ 1 := by
  have one := inv.load_le g
  unfold load at one
  omega

/-- When `num_fin_fn` reaches `num_nodes`, every node of the epoch has been
    counted and no task is anywhere else. -/
theorem all_counted (inv : TaskInv t r log) (all : t.num_fin_fn = BitVec.ofNat 64 t.metadata.num_nodes) :
    tally Role.prepares r = 0 ∧
      (begun log = true → ∀ fn < t.metadata.num_nodes, inEpoch (isCounted fn) log = 1) ∧
      ∀ fn, tally (Role.owns fn) r = 0 ∧ tally (Role.adds fn) r = 0 ∧ runnable t fn = false := by
  have few := inv.valid.num_nodes_lt
  have some := inv.valid.start_lt
  cases started : begun log with
  | false =>
    refine ⟨(inv.unbegun started).1,by simp,?_⟩
    intro fn
    have none := inv.quiet (.inl started) fn
    unfold load at none
    refine ⟨by omega,by omega,?_⟩
    cases bit : runnable t fn with
    | false => rfl
    | true => rw [bit] at none; simp at none
  | true =>
    have bound : ∑ g ∈ Finset.range t.metadata.num_nodes, inEpoch (isCounted g) log ≤
        ∑ g ∈ Finset.range t.metadata.num_nodes, 1 := Finset.sum_le_sum fun g _ => inv.counted_le g
    have ones : ∑ g ∈ Finset.range t.metadata.num_nodes, 1 = t.metadata.num_nodes := by
      rw [← Finset.card_eq_sum_ones,Finset.card_range]
    have sum : ∑ g ∈ Finset.range t.metadata.num_nodes, inEpoch (isCounted g) log = t.metadata.num_nodes := by
      have same := congrArg BitVec.toNat ((inv.num_fin_fn started).symm.trans all)
      simp only [BitVec.toNat_ofNat] at same
      omega
    have each : ∀ fn < t.metadata.num_nodes, inEpoch (isCounted fn) log = 1 := fun fn lt =>
      (Finset.sum_eq_sum_iff_of_le (fun g _ => inv.counted_le g)).mp (sum.trans ones.symm) fn (Finset.mem_range.mpr lt)
    have none : tally Role.prepares r = 0 := by
      by_contra busy
      have zero := inv.quiet (.inr (Nat.pos_of_ne_zero busy)) t.metadata.start_func
      have one := each _ some
      unfold load at zero
      omega
    refine ⟨none,fun _ => each,?_⟩
    intro fn
    have here := inv.active started none fn
    have gone : tally (Role.owns fn) r + tally (Role.adds fn) r + (runnable t fn).toNat = 0 := by
      unfold load at here
      by_cases lt : fn < t.metadata.num_nodes
      · have one := each fn lt
        split at here <;> omega
      · simp only [lt,false_and,if_false] at here
        omega
    refine ⟨by omega,by omega,?_⟩
    cases bit : runnable t fn with
    | false => rfl
    | true => rw [bit] at gone; simp at gone

end TaskInv
end
end Bootcode.Tasks
