import Bootcode.Epochs
import Bootcode.Executor

/-!
The pool executes its task graphs: with the scheduler's bookkeeping forgotten,
every run of the vCPUs is a run of the executor, in which a function has started
once it is dispatched and has finished once it is back in `sched`. At boot the
graph counts as executed, which is what `scheduler_init_post` tells the first
CAS by setting `num_fin_fn` to `num_nodes`.
-/
namespace Bootcode.Refinement
open Bootcode.Bits Bootcode.SchedState Bootcode.Interleave Bootcode.Sched Bootcode.Graph Bootcode.Tasks Bootcode.TaskSteps
open Bootcode.SchedSteps Bootcode.Roles Bootcode.Epochs
open Bootcode.Executor (TaskGraph Act Executes Topological Rested)
set_option linter.unusedSimpArgs false

section
variable {p : Nat} {host : Metadata → Prop}

/-! ### What an observer sees -/

def graphOf (d : Metadata) : TaskGraph Nat where
  tasks := {fn | fn < d.num_nodes}
  edge := Edge d

def supplies (host : Metadata → Prop) (graph : TaskGraph Nat) : Prop := ∃ d, host d ∧ graphOf d = graph

def since (d : Metadata) (log : List Ev) (happened : Nat → Ev → Bool) : Set Nat :=
  {fn | if begun log then 0 < inEpoch (happened fn) log else fn < d.num_nodes}

def runs : Role → Option Nat
  | .user fn => some fn
  | _ => none

/-- The pool as an executor. -/
def view (t : Tasks) (r : Fin p → Role) (log : List Ev) : Executor.State (Fin p) Nat where
  graph := graphOf t.metadata
  started := since t.metadata log isDispatch
  finished := since t.metadata log isFinish
  running i := runs (r i)

def visible : Ev → Bool
  | .turnover _ | .dispatch _ _ | .finish _ _ => true
  | _ => false

/-- The event that an act of the executor is seen as; a new graph is not seen. -/
def shows : Act (Fin p) Nat → Option Ev
  | .turnover i => some (.turnover i.val)
  | .supply _ => none
  | .start i fn => some (.dispatch i.val fn)
  | .finish i fn => some (.finish i.val fn)

/-- A visible event carries the number of the vCPU that steps. -/
def workedBy (id : Nat) : Ev → Prop
  | .turnover i | .dispatch i _ | .finish i _ => i = id
  | _ => True

theorem sched_worker {id : Nat} {x : Input} {s s' : Shared} {v v' : Vcpu} (moved : sched id x s v = some (s',v'))
    {e : Option Ev} (logs : s'.log = e.toList ++ s.log) : ∀ ev ∈ e, workedBy id ev := by
  have only : ∀ {o : Option Ev}, s'.log = o.toList ++ s.log → (∀ ev ∈ o, workedBy id ev) → ∀ ev ∈ e, workedBy id ev := by
    intro o same known ev member
    have equal := List.append_cancel_right (logs.symm.trans same)
    exact known ev (Option.mem_toList.mp (equal ▸ Option.mem_toList.mpr member))
  obtain ⟨pc,current,t1⟩ := v
  cases pc with
  | boot k =>
    obtain ⟨r,-,same⟩ := Option.map_eq_some_iff.mp moved
    cases same
    exact only (o := none) rfl (by simp)
  | enter k => cases k <;> cases moved <;> exact only (o := none) rfl (by simp)
  | fin fn k => cases moved; exact only (o := none) rfl (by simp)
  | dag fn k => cases moved; exact only (o := none) rfl (by simp)
  | clrCurrent fn => cases moved; exact only (o := none) rfl (by simp)
  | wake fn k =>
    cases moved
    refine only rfl fun ev logs => ?_
    rcases wake_event logs with ⟨_,rfl⟩ | ⟨_,rfl⟩ | ⟨_,rfl⟩ <;> trivial
  | incFin fn => cases moved; exact only (o := some (.counted id fn)) rfl (by simp [workedBy])
  | scan k => cases moved; exact only (o := none) rfl (by simp)
  | noWork k =>
    cases moved
    refine only rfl fun ev logs => ?_
    cases k <;> simp only [noWork] at logs
    · cases logs
    · cases logs
    · split at logs <;> cases logs
      rfl
  | reset k =>
    cases moved
    refine only rfl fun ev logs => ?_
    cases k <;> simp only [reset] at logs <;> try cases logs
    · trivial
    · split at logs <;> cases logs
  | halt k =>
    obtain ⟨⟨w,b,t,next,o⟩,slept,same⟩ := Option.map_eq_some_iff.mp moved
    cases same
    refine only rfl fun ev logs => ?_
    cases k <;> simp [haltPath] at slept <;> grind [workedBy]
  | work fn k =>
    cases moved
    refine only rfl fun ev logs => ?_
    cases k <;> simp only [jump2fn] at logs <;> cases logs
    rfl
  | user fn ctx => cases moved; exact only (o := some (.finish id fn)) rfl (by simp [workedBy])

theorem visible_of_silent {ev : Ev} (silent : Silent ev) : visible ev = false := by
  cases ev <;> first | rfl | exact silent.elim

theorem begun_hidden {e : Option Ev} (hidden : ∀ ev ∈ e, visible ev = false) (log : List Ev) :
    begun (e.toList ++ log) = begun log := by
  cases e with
  | none => rfl
  | some ev =>
    have none := hidden ev rfl
    cases ev <;> first | rfl | cases none

theorem inEpoch_hidden {q : Ev → Bool} (deaf : ∀ ev, visible ev = false → q ev = false) {e : Option Ev}
    (hidden : ∀ ev ∈ e, visible ev = false) (log : List Ev) : inEpoch q (e.toList ++ log) = inEpoch q log := by
  cases e with
  | none => rfl
  | some ev =>
    have none := hidden ev rfl
    have quiet := deaf ev none
    cases ev <;> simp_all [inEpoch,visible]

theorem since_hidden (d : Metadata) {happened : Nat → Ev → Bool}
    (deaf : ∀ fn ev, visible ev = false → happened fn ev = false)
    {e : Option Ev} (hidden : ∀ ev ∈ e, visible ev = false) (log : List Ev) :
    since d (e.toList ++ log) happened = since d log happened := by
  ext fn
  simp only [since,Set.mem_ofPred_eq,begun_hidden hidden,inEpoch_hidden (deaf fn) hidden]

theorem dispatch_hidden (fn : Nat) (ev : Ev) (hidden : visible ev = false) : isDispatch fn ev = false := by
  cases ev <;> first | rfl | cases hidden
theorem finish_hidden (fn : Nat) (ev : Ev) (hidden : visible ev = false) : isFinish fn ev = false := by
  cases ev <;> first | rfl | cases hidden

variable {t t' : Tasks} {r : Fin p → Role} {r1 : Role} {log : List Ev} {v : Fin p} {e : Option Ev}

theorem running_update (r : Fin p → Role) (v : Fin p) (r1 : Role) :
    (fun i => runs (Function.update r v r1 i)) = Function.update (fun i => runs (r i)) v (runs r1) :=
  Function.comp_update runs r v r1

/-- A step that shows nothing and leaves the graph and the user function alone is not
    seen. -/
theorem view_same (metadata : t'.metadata = t.metadata) (same : runs r1 = runs (r v))
    (hidden : ∀ ev ∈ e, visible ev = false) :
    view t' (Function.update r v r1) (e.toList ++ log) = view t r log := by
  unfold view
  rw [running_update,same,Function.update_eq_self,metadata,since_hidden _ dispatch_hidden hidden,
    since_hidden _ finish_hidden hidden]

theorem since_dispatch (d : Metadata) (started : begun log = true) (id fn : Nat) :
    since d (.dispatch id fn :: log) isDispatch = insert fn (since d log isDispatch) ∧
      since d (.dispatch id fn :: log) isFinish = since d log isFinish := by
  have still : begun (.dispatch id fn :: log) = true := started
  constructor
  · ext f
    simp only [since,still,started,if_true,Set.mem_ofPred_eq,Set.mem_insert_iff,inEpoch_dispatch,isDispatch]
    by_cases same : fn = f
    · simp [same]
    · simp [same,Ne.symm same]
  · ext f
    simp only [since,still,started,if_true,Set.mem_ofPred_eq,inEpoch_dispatch,isFinish]
    simp

theorem since_finish (d : Metadata) (started : begun log = true) (id fn : Nat) :
    since d (.finish id fn :: log) isFinish = insert fn (since d log isFinish) ∧
      since d (.finish id fn :: log) isDispatch = since d log isDispatch := by
  have still : begun (.finish id fn :: log) = true := started
  constructor
  · ext f
    simp only [since,still,started,if_true,Set.mem_ofPred_eq,Set.mem_insert_iff,inEpoch_finish,isFinish]
    by_cases same : fn = f
    · simp [same]
    · simp [same,Ne.symm same]
  · ext f
    simp only [since,still,started,if_true,Set.mem_ofPred_eq,inEpoch_finish,isDispatch]
    simp

theorem since_turnover (d : Metadata) (id : Nat) (happened : Nat → Ev → Bool) :
    since d (.turnover id :: log) happened = ∅ := by
  ext fn
  simp [since,begun]

theorem step_turnover (inv : TaskInv t r log) (role : r v = .idle)
    (all : t.num_fin_fn = BitVec.ofNat 64 t.metadata.num_nodes) :
    Executor.Step (supplies host) (view t r log) (.turnover v)
      (view { t with num_fin_fn := 0 } (Function.update r v .prep) (.turnover v.val :: log)) := by
  obtain ⟨-,each,gone⟩ := inv.all_counted all
  have after : view { t with num_fin_fn := 0 } (Function.update r v .prep) (.turnover v.val :: log) =
      { view t r log with started := ∅, finished := ∅ } := by
    unfold view
    rw [running_update,since_turnover,since_turnover]
    congr 1
    rw [show runs .prep = runs (r v) by rw [role]; rfl]
    exact Function.update_eq_self v _
  rw [after]
  refine .turnover v ?_ fun w => ?_
  · intro fn lt
    show if begun log then 0 < inEpoch (isFinish fn) log else fn < t.metadata.num_nodes
    split
    · rename_i started
      have counted := each started fn lt
      have some := inv.finished fn
      omega
    · exact lt
  · show runs (r w) = none
    cases is : r w with
    | user fn =>
      have none := tally_eq_zero.mp (gone fn).1 w
      simp [is,Role.owns] at none
    | _ => rfl

theorem step_install (inv : TaskInv t r log) (role : r v = .prep) {d : Metadata} (supplied : host d) :
    Executor.Step (supplies host) (view t r log) (.supply (graphOf d))
      (view { t with metadata := d } (Function.update r v .prep) log) := by
  obtain ⟨started,-,nowhere⟩ := of_prepares (v := v) inv (by simp [role,Role.prepares])
  have unused : ∀ (d : Metadata) fn, ¬ fn ∈ since d log isDispatch ∧ ¬ fn ∈ since d log isFinish := by
    intro d fn
    have zero := nowhere fn
    have ran : tally (Role.ran fn) r ≤ tally (Role.owns fn) r := Finset.sum_le_sum fun i _ => Role.ran_le_owns fn (r i)
    have done : tally (Role.finished fn) r ≤ tally (Role.owns fn) r :=
      Finset.sum_le_sum fun i _ => Role.finished_le_owns fn (r i)
    have dispatched := inv.dispatched fn
    have finished := inv.finished fn
    unfold load at zero
    simp only [since,started,if_true,Set.mem_ofPred_eq]
    omega
  have empty : ∀ d, since d log isDispatch = ∅ ∧ since d log isFinish = ∅ := fun d =>
    ⟨Set.eq_empty_iff_forall_notMem.mpr fun fn => (unused d fn).1,
      Set.eq_empty_iff_forall_notMem.mpr fun fn => (unused d fn).2⟩
  have after : view { t with metadata := d } (Function.update r v .prep) log =
    { view t r log with graph := graphOf d } := by
    unfold view
    rw [running_update,show runs .prep = runs (r v) by rw [role],Function.update_eq_self]
    simp only [(empty _).1,(empty _).2]
  rw [after]
  exact .supply ⟨d,supplied,rfl⟩ (empty _).1

theorem ready_undispatched (inv : TaskInv t r log) {fn : Nat} (role : r v = .ready fn) :
    inEpoch (isDispatch fn) log = 0 := by
  obtain ⟨-,-,-,-,one⟩ := inv.of_owns (show (r v).owns fn = 1 by simp [role,Role.owns])
  have fewer : tally (Role.ran fn) r < tally (Role.owns fn) r :=
    Finset.sum_lt_sum (fun i _ => Role.ran_le_owns fn (r i)) ⟨v,Finset.mem_univ v,by simp [role,Role.ran,Role.owns]⟩
  have dispatched := inv.dispatched fn
  unfold load at one
  omega

theorem step_dispatch (inv : TaskInv t r log) {fn : Nat} (role : r v = .ready fn) :
    Executor.Step (supplies host) (view t r log) (.start v fn)
      (view t (Function.update r v (.user fn)) (.dispatch v.val fn :: log)) := by
  obtain ⟨started,rested,lt,zero,-⟩ := inv.of_owns (show (r v).owns fn = 1 by simp [role,Role.owns])
  obtain ⟨now,kept⟩ := since_dispatch t.metadata started v.val fn
  have after : view t (Function.update r v (.user fn)) (.dispatch v.val fn :: log) = { view t r log with
      started := insert fn (view t r log).started, running := Function.update (view t r log).running v (some fn) } := by
    unfold view
    rw [running_update,now,kept]
    rfl
  rw [after]
  refine .start ?_ lt ?_ fun g edge => ?_
  · show runs (r v) = none
    rw [role]
    rfl
  · have unstarted := ready_undispatched inv role
    show ¬ if begun log then 0 < inEpoch (isDispatch fn) log else fn < t.metadata.num_nodes
    rw [if_pos started]
    omega
  · show if begun log then 0 < inEpoch (isFinish g) log else g < t.metadata.num_nodes
    rw [if_pos started]
    exact inv.predecessor_finished started rested lt zero edge

theorem step_finish (inv : TaskInv t r log) {fn : Nat} (role : r v = .user fn) :
    Executor.Step (supplies host) (view t r log) (.finish v fn)
      (view t (Function.update r v (.back fn)) (.finish v.val fn :: log)) := by
  obtain ⟨started,-⟩ := inv.of_owns (show (r v).owns fn = 1 by simp [role,Role.owns])
  obtain ⟨now,kept⟩ := since_finish t.metadata started v.val fn
  have after : view t (Function.update r v (.back fn)) (.finish v.val fn :: log) = { view t r log with
      finished := insert fn (view t r log).finished, running := Function.update (view t r log).running v none } := by
    unfold view
    rw [running_update,now,kept]
    rfl
  rw [after]
  exact .finish (show runs (r v) = some fn by rw [role]; rfl)

/-- Every step of a task's life is a step of the executor that shows the same event, or
    is not seen. -/
theorem view_step (inv : TaskInv t r log) {r0 : Role} (role : r v = r0) (step : TaskStep host t r0 t' r1 e)
    (mine : ∀ ev ∈ e, workedBy v.val ev) :
    (view t' (Function.update r v r1) (e.toList ++ log) = view t r log ∧ ∀ ev ∈ e, visible ev = false) ∨
      ∃ act, Executor.Step (supplies host) (view t r log) act (view t' (Function.update r v r1) (e.toList ++ log)) ∧
        shows act = e := by
  have unseen : ∀ {t' : Tasks} {r1 : Role} {e : Option Ev}, t'.metadata = t.metadata → runs r1 = runs r0 →
      (∀ ev ∈ e, visible ev = false) →
      view t' (Function.update r v r1) (e.toList ++ log) = view t r log ∧ ∀ ev ∈ e, visible ev = false :=
    fun metadata same hidden => ⟨view_same metadata (by rw [same,role]) hidden,hidden⟩
  cases step with
  | stay silent => exact .inl (unseen rfl rfl fun ev member => visible_of_silent (silent ev member))
  | turnover id all =>
    obtain rfl : id = v.val := mine _ rfl
    exact .inr ⟨_,step_turnover inv role all,rfl⟩
  | install supplied => exact .inr ⟨_,step_install inv role supplied,rfl⟩
  | dispatch id =>
    obtain rfl : id = v.val := mine _ rfl
    exact .inr ⟨_,step_dispatch inv role,rfl⟩
  | finish id =>
    obtain rfl : id = v.val := mine _ rfl
    exact .inr ⟨_,step_finish inv role,rfl⟩
  | count id lt => exact .inl (unseen rfl rfl (by rintro ev ⟨⟩; rfl))
  | _ => exact .inl (unseen rfl rfl (by simp))

theorem view_rested {s : Config (Fin p) Shared Vcpu} (first : (pool p host).init s) :
    Rested (supplies host) (view s.shared.tasks (roles s) s.shared.log) := by
  obtain ⟨d,dag_in_count,book,t,supplied,rfl⟩ := first
  constructor
  · exact ⟨d,supplied,rfl⟩
  · rfl
  · rfl
  · intro w
    show runs (role (bootVcpu w.val)) = none
    unfold bootVcpu
    by_cases zero : w.val = 0 <;> simp [zero,role,runs]

/-- Every run of the pool is a run of the executor with the same visible events. -/
theorem pool_executes (supply : ∀ d, host d → Valid d) {s : Config (Fin p) Shared Vcpu}
    (reach : Reach (pool p host) (fun s a => Supplied host s a ∧ FreshTot s a) s) :
    ∃ acts, Executes (supplies host) acts (view s.shared.tasks (roles s) s.shared.log) ∧
      acts.filterMap shows = s.shared.log.filter visible := by
  induction reach with
  | init first =>
    refine ⟨[],.rested (view_rested first),?_⟩
    obtain ⟨d,dag_in_count,book,t,-,rfl⟩ := first
    rfl
  | @step s s' a before good moved ih =>
    obtain ⟨acts,run,seen⟩ := ih
    have core := core_reach supply before
    obtain ⟨-,e,lives,log⟩ := core.step supply good.1 good.2 moved
    obtain ⟨sh,l,ran,rfl⟩ := pool_step moved
    have mine := sched_worker ran log
    rw [roles_update,Function.update_self] at lives
    rw [roles_update,log]
    rcases view_step core.tasks rfl lives mine with ⟨same,hidden⟩ | ⟨act,step,shown⟩
    · refine ⟨acts,same ▸ run,?_⟩
      have nothing : e.toList.filter visible = [] := List.filter_eq_nil_iff.mpr fun ev member => by
        rw [hidden ev (Option.mem_toList.mp member)]
        decide
      rw [List.filter_append,nothing,seen,List.nil_append]
    · refine ⟨act :: acts,.step run step,?_⟩
      rw [List.filter_append,← seen,← shown]
      cases act <;> rfl

/-- The functions dispatched in the current epoch, newest first. -/
def epoch : List Ev → List Nat
  | [] => []
  | .turnover _ :: _ => []
  | .dispatch _ fn :: rest => fn :: epoch rest
  | _ :: rest => epoch rest

theorem epoch_visible (log : List Ev) : epoch (log.filter visible) = epoch log ∧
    begun (log.filter visible) = begun log := by
  induction log with
  | nil => exact ⟨rfl,rfl⟩
  | cons ev log ih =>
    cases ev <;> simp_all [List.filter_cons,visible,epoch,begun]

theorem order_shows (acts : List (Act (Fin p) Nat)) :
    Executor.order acts = epoch (acts.filterMap shows) ∧ Executor.begun acts = begun (acts.filterMap shows) := by
  induction acts with
  | nil => exact ⟨rfl,rfl⟩
  | cons act acts ih =>
    cases act with
    | turnover i => exact ⟨rfl,rfl⟩
    | supply graph => exact ih
    | start i fn => exact ⟨congrArg (fn :: ·) ih.1,ih.2⟩
    | finish i fn => exact ih

theorem running_user {r : Fin p → Role} {v : Fin p} {fn : Nat} : runs (r v) = some fn ↔ r v = .user fn := by
  cases is : r v <;> simp [runs]

/-- Every run of the pool is a run of the executor with the same visible events. So no
    function runs on two vCPUs, the functions of an epoch are dispatched in a topological
    order of its graph, and the CAS that ends the epoch finds all of them dispatched. -/
theorem pool_refines_executor (supply : ∀ d, host d → Valid d) {s : Config (Fin p) Shared Vcpu}
    (reach : Reach (pool p host) (fun s a => Supplied host s a ∧ FreshTot s a) s) :
    (∃ acts, Executes (supplies host) acts (view s.shared.tasks (roles s) s.shared.log) ∧
      acts.filterMap shows = s.shared.log.filter visible) ∧
    (∀ i j fn, roles s i = .user fn → roles s j = .user fn → i = j) ∧
    (begun s.shared.log = true → Topological (Edge s.shared.tasks.metadata) (epoch s.shared.log) ∧
      (∀ fn ∈ epoch s.shared.log, fn < s.shared.tasks.metadata.num_nodes) ∧
      ∀ a s', Supplied host s a → FreshTot s a → (pool p host).step s a = some s' → Turns s a.1 s' →
        ∀ fn < s.shared.tasks.metadata.num_nodes, fn ∈ epoch s.shared.log) := by
  obtain ⟨acts,run,seen⟩ := pool_executes supply reach
  have core := core_reach supply reach
  have sound := run.sound
  have nonempty : ∀ graph, supplies host graph → graph.tasks.Nonempty := by
    rintro _ ⟨d,supplied,rfl⟩
    exact ⟨d.start_func,(supply d supplied).start_lt⟩
  obtain ⟨same,when⟩ := order_shows acts
  rw [seen,(epoch_visible s.shared.log).1] at same
  rw [seen,(epoch_visible s.shared.log).2] at when
  refine ⟨⟨acts,run,seen⟩,?_,fun started => ?_⟩
  · intro i j fn here there
    exact sound.alone i j fn (running_user.mpr here) (running_user.mpr there)
  · obtain ⟨iff,sorted⟩ := (run.ordered nonempty).2 (when.trans started)
    rw [same] at iff sorted
    refine ⟨sorted,fun fn member => sound.member ((iff fn).mp member),?_⟩
    intro a s' supplied fresh moved turns fn lt
    obtain ⟨all,-⟩ := turns_all supply core supplied fresh moved turns
    obtain ⟨-,each,-⟩ := core.tasks.all_counted all
    have counted := each started fn lt
    have finished := core.tasks.finished fn
    refine (iff fn).mpr (sound.finished ?_)
    show if begun s.shared.log then 0 < inEpoch (isFinish fn) s.shared.log else fn < s.shared.tasks.metadata.num_nodes
    rw [if_pos started]
    omega

/-- The run of one edge up to the CAS that ends its epoch: node 0, then node 1. -/
theorem pool_refines_executor_edge : ∃ s : Config (Fin 2) Shared Vcpu, epoch s.shared.log = [1,0] ∧
    ∃ acts, Executes (supplies (· = edge)) acts (view s.shared.tasks (roles s) s.shared.log) ∧
      acts.filterMap shows = s.shared.log.filter visible := by
  have supply : ∀ d, d = edge → Valid d := fun _ same => same ▸ edge_valid
  let P : Config (Fin 2) Shared Vcpu → Bool := fun s => epoch s.shared.log == [1,0]
  have ran : (exec (pool 2 (· = edge)) (boot 2 edge) (schedule 2 [(0,118)])).any P = true := by decide +kernel
  have first : (pool 2 (· = edge)).init (boot 2 edge) := boot_init rfl
  obtain ⟨s,reach,holds⟩ := exec_exists first schedule_supplied ran
  have constant : ∀ d, d = edge → d.num_nodes = 2 := fun _ same => by rw [same]; rfl
  exact ⟨s,by simpa [P] using holds,(pool_refines_executor supply (fresh_of_constant supply constant reach).1).1⟩

/-! ### Nothing gets lost -/

/-- The vCPU has claimed `fn`, or is about to set its bit. -/
def inHand (r : Role) (fn : Nat) : Prop := r.owns fn = 1 ∨ r.adds fn = 1

/-- Once all predecessors of a node have been counted, its own count is zero. -/
theorem released (inv : TaskInv t r log) (started : begun log = true) (rested : tally Role.prepares r = 0) {fn : Nat}
    (lt : fn < t.metadata.num_nodes) (all : ∀ g, Edge t.metadata g fn → inEpoch (isCounted g) log = 1) :
    t.dag_in_count fn = 0 := by
  have total := inv.counts started rested fn lt
  have each : ∀ g ∈ Finset.range t.metadata.num_nodes, mult t.metadata g fn ≤ downs t r log g fn := by
    intro g node
    unfold downs
    rcases Nat.eq_zero_or_pos (mult t.metadata g fn) with none | pos
    · rw [none]
      exact Nat.zero_le _
    · rw [all g ⟨Finset.mem_range.mp node,pos⟩,Nat.one_mul]
      exact Nat.le_add_left _ _
  have sum := Finset.sum_le_sum each
  rw [inv.valid.sum_mult lt] at sum
  have zero : (t.dag_in_count fn).toNat = 0 := by omega
  exact BitVec.eq_of_toNat_eq zero

theorem inHand_of_tally {fn : Nat} (some : 0 < tally (Role.owns fn) r + tally (Role.adds fn) r) : ∃ v, inHand (r v) fn := by
  by_contra none
  have nobody : ∀ v, (r v).owns fn = 0 ∧ (r v).adds fn = 0 := by
    intro v
    have owned : (r v).owns fn ≤ 1 := by cases r v <;> simp [Role.owns] <;> split <;> omega
    have added : (r v).adds fn ≤ 1 := by cases r v <;> simp [Role.adds] <;> split <;> omega
    have free : ¬ inHand (r v) fn := fun held => none ⟨v,held⟩
    unfold inHand at free
    omega
  rw [tally_eq_zero.mpr fun v => (nobody v).1,tally_eq_zero.mpr fun v => (nobody v).2] at some
  cases some

/-- In an epoch no function waits for nothing: it, or one it depends on, is runnable or in
    the hands of a vCPU, with all its own predecessors counted. -/
theorem never_stuck (supply : ∀ d, host d → Valid d) {s : Config (Fin p) Shared Vcpu}
    (reach : Reach (pool p host) (fun s a => Supplied host s a ∧ FreshTot s a) s) (started : begun s.shared.log = true)
    (rested : tally Role.prepares (roles s) = 0) {fn : Nat} (lt : fn < s.shared.tasks.metadata.num_nodes)
    (left : inEpoch (isCounted fn) s.shared.log = 0) :
    ∃ g < s.shared.tasks.metadata.num_nodes, Relation.ReflTransGen (Edge s.shared.tasks.metadata) g fn ∧
      inEpoch (isCounted g) s.shared.log = 0 ∧
      (∀ h, Edge s.shared.tasks.metadata h g → inEpoch (isCounted h) s.shared.log = 1) ∧
      (runnable s.shared.tasks g = true ∨ ∃ v, inHand (roles s v) g) := by
  have inv := (core_reach supply reach).tasks
  obtain ⟨g,node,fails,before⟩ := exists_minimal inv.valid.acyclic (fun g f edge => edge.1) lt
    (P := fun g => Relation.ReflTransGen (Edge s.shared.tasks.metadata) g fn → inEpoch (isCounted g) s.shared.log = 1)
    (fun counted => absurd (counted .refl) (by omega))
  obtain ⟨path,uncounted⟩ := Classical.not_imp.mp fails
  have most := inv.counted_le g
  have all : ∀ h, Edge s.shared.tasks.metadata h g → inEpoch (isCounted h) s.shared.log = 1 :=
    fun h edge => before h edge (.head edge path)
  have zero := released inv started rested node all
  have one := inv.active started rested g
  rw [if_pos ⟨node,zero⟩] at one
  refine ⟨g,node,path,by omega,all,?_⟩
  cases bit : runnable s.shared.tasks g with
  | true => exact .inl rfl
  | false =>
    unfold load at one
    rw [bit] at one
    exact .inr (inHand_of_tally (by simp at one; omega))

/-- While node 0 of the edge runs, node 1 waits for it. -/
theorem never_stuck_edge : ∃ s : Config (Fin 2) Shared Vcpu, roles s 0 = .user 0 ∧
    ∃ g < s.shared.tasks.metadata.num_nodes, Relation.ReflTransGen (Edge s.shared.tasks.metadata) g 1 ∧
      (runnable s.shared.tasks g = true ∨ ∃ v, inHand (roles s v) g) := by
  have supply : ∀ d, d = edge → Valid d := fun _ same => same ▸ edge_valid
  let P : Config (Fin 2) Shared Vcpu → Bool := fun s => (runs (roles s 0) == some 0) && begun s.shared.log &&
    (tally Role.prepares (roles s) == 0 && decide (1 < s.shared.tasks.metadata.num_nodes) &&
      inEpoch (isCounted 1) s.shared.log == 0)
  have ran : (exec (pool 2 (· = edge)) (boot 2 edge) (schedule 2 [(0,53)])).any P = true := by decide +kernel
  have first : (pool 2 (· = edge)).init (boot 2 edge) := boot_init rfl
  obtain ⟨s,reach,holds⟩ := exec_exists first schedule_supplied ran
  simp only [P,Bool.and_eq_true,beq_iff_eq,decide_eq_true_eq] at holds
  obtain ⟨⟨user,started⟩,⟨rested,lt⟩,left⟩ := holds
  have constant : ∀ d, d = edge → d.num_nodes = 2 := fun _ same => by rw [same]; rfl
  obtain ⟨g,node,path,-,-,moving⟩ := never_stuck supply (fresh_of_constant supply constant reach).1 started rested lt left
  exact ⟨s,running_user.mp user,g,node,path,moving⟩

end
end Bootcode.Refinement
