import Bootcode.Roles

/-!
What holds of whole epochs: every node of the task graph is dispatched once and
after its predecessors, and an epoch ends only when nothing of it is left.
-/
namespace Bootcode.Epochs
open Bootcode.Bits Bootcode.SchedState Bootcode.Interleave Bootcode.Sched Bootcode.Graph Bootcode.Tasks Bootcode.TaskSteps
open Bootcode.SchedSteps Bootcode.Roles
set_option linter.unusedSimpArgs false

section
variable {p : Nat} {host : Metadata → Prop}

/-- The vCPU's CAS on `num_fin_fn` succeeds in this step. -/
def Turns (s : Config (Fin p) Shared Vcpu) (v : Fin p) (s' : Config (Fin p) Shared Vcpu) : Prop :=
  s'.shared.log = .turnover v.val :: s.shared.log

instance (s : Config (Fin p) Shared Vcpu) (v : Fin p) (s' : Config (Fin p) Shared Vcpu) : Decidable (Turns s v s') :=
  inferInstanceAs (Decidable (_ = _))

/-- In the current epoch only nodes were dispatched, each at most once and after
    its predecessors had finished; and a good step that ends the epoch finds each
    dispatched exactly once. -/
structure ExactlyOnce (host : Metadata → Prop) (good : Config (Fin p) Shared Vcpu → Fin p × Input → Prop)
    (s : Config (Fin p) Shared Vcpu) : Prop where
  atMost : ∀ fn, inEpoch (isDispatch fn) s.shared.log ≤ 1
  nodes : ∀ fn, 0 < inEpoch (isDispatch fn) s.shared.log → fn < s.shared.tasks.metadata.num_nodes
  ordered : Ordered s.shared.tasks.metadata s.shared.log
  completed : begun s.shared.log = true → ∀ a s', good s a → (pool p host).step s a = some s' → Turns s a.1 s' →
    ∀ fn < s.shared.tasks.metadata.num_nodes, inEpoch (isDispatch fn) s.shared.log = 1

/-- An event is the one that a step adds to the history. -/
theorem event_of_log {e : Option Ev} {ev : Ev} {log : List Ev} (same : ev :: log = e.toList ++ log) : e = some ev := by
  cases e with
  | none => exact absurd (congrArg List.length same) (by simp)
  | some e' => simp at same; rw [same]

/-- A CAS succeeds only when `num_fin_fn` has reached `num_nodes`. -/
theorem turns_all {s s' : Config (Fin p) Shared Vcpu} {a : Fin p × Input} (supply : ∀ d, host d → Valid d) (core : Core s)
    (supplied : Supplied host s a) (fresh : FreshTot s a) (moved : (pool p host).step s a = some s')
    (turns : Turns s a.1 s') :
    s.shared.tasks.num_fin_fn = BitVec.ofNat 64 s.shared.tasks.metadata.num_nodes ∧ roles s a.1 = .idle ∧
      roles s' a.1 = .prep ∧ s'.shared.tasks = { s.shared.tasks with num_fin_fn := 0 } := by
  obtain ⟨-,e,lives,log⟩ := core.step supply supplied fresh moved
  have event := event_of_log (turns.symm.trans log)
  subst event
  generalize before : roles s a.1 = r0 at lives
  generalize after : roles s' a.1 = r1 at lives
  generalize now : s'.shared.tasks = t' at lives
  cases lives with
  | stay silent => exact absurd (silent _ rfl) (by simp [Silent])
  | turnover id all => exact ⟨all,rfl,rfl,rfl⟩

/-- Where every epoch CAS that succeeds compares against the current
    `metadata->num_nodes`, every node of every epoch is dispatched exactly once
    and after its predecessors. -/
theorem dispatched_exactly_once (supply : ∀ d, host d → Valid d) {s : Config (Fin p) Shared Vcpu}
    (reach : Reach (pool p host) (fun s a => Supplied host s a ∧ FreshTot s a) s) :
    ExactlyOnce host (fun s a => Supplied host s a ∧ FreshTot s a) s := by
  have core := core_reach supply reach
  have ran_le : ∀ fn, tally (Role.ran fn) (roles s) ≤ tally (Role.owns fn) (roles s) := fun fn =>
    Finset.sum_le_sum fun i _ => Role.ran_le_owns fn (roles s i)
  have within : ∀ fn, inEpoch (isDispatch fn) s.shared.log ≤ load s.shared.tasks (roles s) s.shared.log fn := by
    intro fn
    have some := core.tasks.dispatched fn
    have part := ran_le fn
    unfold load
    omega
  refine ⟨fun fn => (within fn).trans (core.tasks.load_le fn),?_,core.tasks.ordered,?_⟩
  · intro fn pos
    exact (core.tasks.of_load (pos.trans_le (within fn))).2.2.1
  · intro started a s' good moved turns fn lt
    obtain ⟨all,-⟩ := turns_all supply core good.1 good.2 moved turns
    obtain ⟨-,each,gone⟩ := core.tasks.all_counted all
    have one := each started fn lt
    have none := (gone fn).1
    have some := core.tasks.dispatched fn
    have part := ran_le fn
    omega

/-- The run of one edge up to the CAS that ends its epoch. -/
theorem dispatched_exactly_once_edge : ∃ s : Config (Fin 2) Shared Vcpu,
    (inEpoch (isDispatch 0) s.shared.log = 1 ∧ inEpoch (isDispatch 1) s.shared.log = 1) ∧
      ExactlyOnce (· = edge) (fun s a => Supplied (· = edge) s a ∧ FreshTot s a) s := by
  have supply : ∀ d, d = edge → Valid d := fun _ same => same ▸ edge_valid
  let P : Config (Fin 2) Shared Vcpu → Bool := fun s =>
    inEpoch (isDispatch 0) s.shared.log == 1 && inEpoch (isDispatch 1) s.shared.log == 1
  have ran : (exec (pool 2 (· = edge)) (boot 2 edge) (schedule 2 [(0,118)])).any P = true := by decide +kernel
  have first : (pool 2 (· = edge)).init (boot 2 edge) := boot_init rfl
  obtain ⟨s,reach,holds⟩ := exec_exists first schedule_supplied ran
  have constant : ∀ d, d = edge → d.num_nodes = 2 := fun _ same => by rw [same]; rfl
  exact ⟨s,by simpa [P] using holds,dispatched_exactly_once supply (fresh_of_constant supply constant reach).1⟩

/-- A vCPU that loads `num_nodes` of a one-node graph, and stalls while the epoch
    ends and the host installs a graph of two, ends the next epoch after one. -/
def staleRun : List (Fin 2 × Input) :=
  (1,{ intr := true }) :: schedule 2 [(1,19),(0,19)] ++ (0,{ host := some edge }) :: schedule 50 [(0,57)]

theorem stale_epoch : ¬ ∀ (p : Nat) (host : Metadata → Prop), (∀ d, host d → Valid d) →
    ∀ s, Reach (pool p host) (Supplied host) s → ExactlyOnce host (Supplied host) s := by
  intro once
  have ok : ∀ a ∈ staleRun, ∀ s, Supplied (p := 2) Valid s a := by
    intro a member s d installed
    simp only [staleRun,List.cons_append,List.mem_cons,List.mem_append] at member
    rcases member with rfl | early | rfl | late
    · cases installed
    · exact schedule_supplied a early s d installed
    · cases installed
      exact edge_valid
    · exact schedule_supplied a late s d installed
  let P : Config (Fin 2) Shared Vcpu → Bool := fun s =>
    begun s.shared.log && decide (1 < s.shared.tasks.metadata.num_nodes) && inEpoch (isDispatch 1) s.shared.log == 0 &&
      ((pool 2 Valid).step s (1,{})).any fun s' => decide (Turns s 1 s')
  have ran : (exec (pool 2 Valid) (boot 2 single) staleRun).any P = true := by decide +kernel
  obtain ⟨s,reach,holds⟩ := exec_exists (boot_init single_valid) ok ran
  simp only [P,Bool.and_eq_true,decide_eq_true_eq,beq_iff_eq] at holds
  obtain ⟨⟨⟨started,node⟩,none⟩,turns⟩ := holds
  obtain ⟨s',moved,turned⟩ := (Option.any_eq_true _ _).mp turns
  have one := (once 2 Valid (fun _ valid => valid) s reach).completed started (1,{}) s' (fun _ h => by cases h) moved
    (of_decide_eq_true turned) 1 node
  omega

/-! ### The end of an epoch -/

/-- Nothing of the current epoch is left. -/
structure Quiescent (s : Config (Fin p) Shared Vcpu) : Prop where
  finished : ∀ fn < s.shared.tasks.metadata.num_nodes,
    inEpoch (isFinish fn) s.shared.log = 1 ∧ inEpoch (isCounted fn) s.shared.log = 1
  bm_run_fn : ∀ idx, s.shared.tasks.bm_run_fn idx = 0
  runnable_tasks : s.shared.tasks.runnable_tasks = 0
  current : ∀ i, (s.loc i).current = NULL_FUNC
  dag_in_count : ∀ fn < s.shared.tasks.metadata.num_nodes, s.shared.tasks.dag_in_count fn = 0
  outside : ∀ i fn, (∀ k, (s.loc i).pc ≠ .dag fn k) ∧ (∀ k, (s.loc i).pc ≠ .work fn k)

theorem current_of_idle {v : Vcpu} (ok : CurrentOk v) (idle : role v = .idle) : v.current = NULL_FUNC := by
  obtain ⟨pc,current,t1⟩ := v
  cases pc with
  | enter k =>
    by_contra own
    simp [role,own] at idle
  | dag fn k | work fn k => cases k <;> cases idle
  | fin fn k | clrCurrent fn | user fn ctx => cases idle
  | _ => exact ok

/-- At the end of an epoch nothing of it is left. -/
theorem quiescent {s : Config (Fin p) Shared Vcpu} (core : Core s) (started : begun s.shared.log = true)
    (all : s.shared.tasks.num_fin_fn = BitVec.ofNat 64 s.shared.tasks.metadata.num_nodes) : Quiescent s := by
  obtain ⟨none,each,gone⟩ := core.tasks.all_counted all
  have idle : ∀ i, role (s.loc i) = .idle := idle_of_gone none gone
  obtain ⟨empty,ahead,behind⟩ := counted_nothing gone
  refine ⟨fun fn lt => ⟨?_,each started fn lt⟩,bm_run_fn_zero fun fn => (gone fn).2.2,?_,?_,?_,fun i fn => ⟨?_,?_⟩⟩
  · have one := each started fn lt
    have own := (gone fn).1
    have some := core.tasks.finished fn
    have part : tally (Role.finished fn) (roles s) ≤ tally (Role.owns fn) (roles s) :=
      Finset.sum_le_sum fun i _ => Role.finished_le_owns fn (roles s i)
    omega
  · rw [core.tasks.runnable_tasks,empty,ahead,behind]
    rfl
  · exact fun i => current_of_idle (core.ok i).current (idle i)
  · intro fn lt
    have one := each started fn lt
    exact (core.tasks.of_load (by unfold load; omega)).2.2.2.1
  · intro k pc
    have rest := idle i
    cases k <;> simp [role,pc] at rest
  · intro k pc
    have rest := idle i
    cases k <;> simp [role,pc] at rest

/-- The vCPU has ended an epoch and not yet told the host. -/
def owes (v : Vcpu) : Nat :=
  match v.pc with
  | .reset .ldStart | .reset .tscTot | .reset (.ldTot _) | .reset (.stTot _) | .reset .ldInp | .reset (.stInp _)
  | .reset .outw => 1
  | _ => 0

def turnovers (log : List Ev) : Nat := log.countP fun e => match e with | .turnover _ => true | _ => false
/-- How often `MSG_WAITING_FOR_WORK` has been sent. -/
def waitings (log : List Ev) : Nat := log.countP fun e => match e with | .waiting _ => true | _ => false

/-- A step that logs a turnover owes a message, and one that logs a message pays. -/
theorem sched_owes {id : Nat} {x : Input} {s s' : Shared} {v v' : Vcpu} (moved : sched id x s v = some (s',v')) :
    turnovers s'.log + waitings s.log + owes v = turnovers s.log + waitings s'.log + owes v' := by
  obtain ⟨pc,current,t1⟩ := v
  cases pc with
  | boot k =>
    obtain ⟨⟨w,next⟩,woke,same⟩ := Option.map_eq_some_iff.mp moved
    cases same
    cases k <;> simp [wake_up_event] at woke <;> grind [owes]
  | enter k => cases k <;> cases moved <;> simp [owes,goWake,afterWake]; grind
  | fin fn k => cases k <;> cases moved <;> simp [owes,finished]
  | dag fn k => cases k <;> cases moved <;> simp [owes,process_sched_dag]; all_goals grind
  | clrCurrent fn => cases moved; simp [owes,goWake,afterWake]; grind
  | wake fn k =>
    cases moved
    have away : ∀ e : Option Ev, (∀ ev ∈ e, (∃ tmp, ev = .grant tmp) ∨ (∃ old, ev = .draw old) ∨
      ∃ c, ev = .firstKick id c) →
        turnovers (e.toList ++ s.log) = turnovers s.log ∧ waitings (e.toList ++ s.log) = waitings s.log := by
      rintro (_ | ev) kinds
      · exact ⟨rfl,rfl⟩
      · rcases kinds ev rfl with ⟨_,rfl⟩ | ⟨_,rfl⟩ | ⟨_,rfl⟩ <;> simp [turnovers,waitings]
    obtain ⟨turned,waited⟩ :=
      away (wake_up_task id x.tsc s.tasks.runnable_tasks s.wakes k).2.2 fun ev logs => wake_event logs
    simp only [turned,waited]
    cases next : (wake_up_task id x.tsc s.tasks.runnable_tasks s.wakes k).2.1 with
    | none => simp [next,owes,afterWake]; grind
    | some k' => simp [next,owes]
  | incFin fn => cases moved; simp [owes,turnovers,waitings]
  | scan k => cases moved; cases k <;> simp [owes,get_work]; all_goals grind
  | noWork k => cases moved; cases k <;> simp [owes,noWork,turnovers,waitings]; grind
  | reset k => cases moved; cases k <;> simp [owes,reset,turnovers,waitings]; all_goals grind
  | halt k =>
    obtain ⟨⟨w,b,t,next,e⟩,slept,same⟩ := Option.map_eq_some_iff.mp moved
    cases same
    cases k <;> simp [haltPath] at slept <;> grind [owes,turnovers,waitings]
  | work fn k => cases moved; cases k <;> simp [owes,jump2fn,turnovers,waitings]
  | user fn ctx => cases moved; simp [owes,turnovers,waitings]

/-- Messages answer turnovers one to one, save for the vCPU that still owes one. -/
theorem turnovers_eq {good : Config (Fin p) Shared Vcpu → Fin p × Input → Prop} {s : Config (Fin p) Shared Vcpu}
    (reach : Reach (pool p host) good s) :
    turnovers s.shared.log = waitings s.shared.log + tally owes s.loc := by
  induction reach with
  | init first =>
    obtain ⟨d,dag_in_count,book,t,-,rfl⟩ := first
    have none : tally owes (Sched.start p d dag_in_count book t).loc = 0 := tally_eq_zero.mpr fun i => by
      by_cases zero : i.val = 0 <;> simp [Sched.start,bootVcpu,zero,owes]
    rw [none]
    rfl
  | @step s s' a _ _ moved same =>
    obtain ⟨sh,l,ran,rfl⟩ := pool_step moved
    have paid := sched_owes ran
    have total := tally_update owes s.loc a.1 l
    show turnovers sh.log = waitings sh.log + tally owes (Function.update s.loc a.1 l)
    omega

/-- The reset stays a reset until its `add_runnable_fn(start_func)`. -/
theorem reset_next {id : Nat} {x : Input} {s s' : Shared} {v v' : Vcpu} {k : ResetPc} (pc : v.pc = .reset k)
    (ok : PcOk s.tasks.metadata v) (moved : sched id x s v = some (s',v')) :
    (∃ k', v'.pc = .reset k') ∨ k = .bts s.tasks.metadata.start_func := by
  obtain ⟨before,current,t1⟩ := v
  cases pc
  have locals := ok.locals
  cases moved
  cases k with
  | bts fn => exact .inr (congrArg _ locals)
  | exit => cases installed : x.host <;> simp [Sched.reset,installed]
  | _ => exact .inl ⟨_,rfl⟩

/-- What the epoch protocol promises of a state: a CAS that succeeds after the
    first finds nothing left of the epoch and starts a reset; a reset goes on to
    its `add_runnable_fn(start_func)` and meanwhile no other vCPU's CAS succeeds
    and none writes what it writes; one message answers each turnover. -/
structure EpochOk (host : Metadata → Prop) (s : Config (Fin p) Shared Vcpu) : Prop where
  turnover : ∀ a s', Supplied host s a → (pool p host).step s a = some s' → Turns s a.1 s' →
    (begun s.shared.log = true → Quiescent s) ∧ ∃ k, (s'.loc a.1).pc = .reset k
  reset : ∀ i k, (s.loc i).pc = .reset k → ∀ a s', Supplied host s a → (pool p host).step s a = some s' →
    if a.1 = i then (∃ k', (s'.loc i).pc = .reset k') ∨ k = .bts s.shared.tasks.metadata.start_func
    else ¬ Turns s a.1 s' ∧ s'.shared.tasks.dag_in_count = s.shared.tasks.dag_in_count ∧
      s'.shared.tasks.bm_run_fn = s.shared.tasks.bm_run_fn
  messages : turnovers s.shared.log = waitings s.shared.log + tally owes s.loc ∧ tally owes s.loc ≤ 1

theorem pc_of_prep {v : Vcpu} (preparing : role v = .prep) : ∃ k, v.pc = .reset k := by
  obtain ⟨pc,current,t1⟩ := v
  cases pc with
  | reset k => exact ⟨k,rfl⟩
  | dag fn k | work fn k => cases k <;> cases preparing
  | enter k => by_cases null : current = NULL_FUNC <;> simp [role,null] at preparing
  | wake fn k => by_cases null : fn = NULL_FUNC <;> simp [role,null] at preparing
  | _ => cases preparing

theorem resets_of_pc {v : Vcpu} {k : ResetPc} (pc : v.pc = .reset k) : resets (role v) = true := by
  cases k <;> simp [role,resets,pc]

theorem owes_le_prepares (v : Vcpu) : owes v ≤ (role v).prepares := by
  obtain ⟨pc,current,t1⟩ := v
  cases pc with
  | reset k => cases k <;> simp [owes,role,Role.prepares]
  | _ => simp [owes]

/-- The epoch protocol on a host whose task graphs all have the same number of nodes. -/
theorem epoch_turnover {n : Nat} (supply : ∀ d, host d → Valid d) (constant : ∀ d, host d → d.num_nodes = n)
    {s : Config (Fin p) Shared Vcpu} (reach : Reach (pool p host) (Supplied host) s) : EpochOk host s := by
  obtain ⟨freshly,fresh⟩ := fresh_of_constant supply constant reach
  have core := core_reach supply freshly
  refine ⟨?_,?_,turnovers_eq reach,?_⟩
  · intro a s' supplied moved turns
    obtain ⟨all,-,preparing,-⟩ := turns_all supply core supplied (fresh a) moved turns
    exact ⟨fun started => quiescent core started all,pc_of_prep preparing⟩
  · intro i k pc a s' supplied moved
    split
    · rename_i same
      subst same
      obtain ⟨sh,l,ran,rfl⟩ := pool_step moved
      simp only [Function.update_self]
      exact reset_next pc (core.ok a.1) ran
    · rename_i other
      obtain ⟨-,e,lives,log⟩ := core.step supply supplied (fresh a) moved
      obtain ⟨kept,-,silent⟩ := core.solo.others core.tasks (resets_of_pc pc) (Ne.symm other) rfl lives
      rw [kept]
      refine ⟨?_,rfl,rfl⟩
      intro turns
      rw [event_of_log (turns.symm.trans log)] at silent
      exact silent _ rfl
  · exact (Finset.sum_le_sum fun i _ => owes_le_prepares (s.loc i)).trans core.tasks.preparing

/-- The run of one edge up to the CAS that ends its epoch, and that CAS. -/
theorem epoch_turnover_edge : ∃ s s' : Config (Fin 2) Shared Vcpu, begun s.shared.log = true ∧
    (pool 2 (· = edge)).step s (0,{}) = some s' ∧ Turns s 0 s' ∧ EpochOk (· = edge) s := by
  let P : Config (Fin 2) Shared Vcpu → Bool := fun s =>
    begun s.shared.log && ((pool 2 (· = edge)).step s (0,{})).any fun s' => decide (Turns s 0 s')
  have ran : (exec (pool 2 (· = edge)) (boot 2 edge) (schedule 2 [(0,118)])).any P = true := by decide +kernel
  have first : (pool 2 (· = edge)).init (boot 2 edge) := boot_init rfl
  obtain ⟨s,reach,holds⟩ := exec_exists first schedule_supplied ran
  simp only [P,Bool.and_eq_true] at holds
  obtain ⟨started,turns⟩ := holds
  obtain ⟨s',moved,turned⟩ := (Option.any_eq_true _ _).mp turns
  have supply : ∀ d, d = edge → Valid d := fun _ same => same ▸ edge_valid
  have constant : ∀ d, d = edge → d.num_nodes = 2 := fun _ same => by rw [same]; rfl
  exact ⟨s,s',started,moved,of_decide_eq_true turned,epoch_turnover supply constant reach⟩

end
end Bootcode.Epochs
