import Bootcode.SchedSteps
import Bootcode.TaskSteps

/-!
The refinement between `sched` and the life of tasks: the role a vCPU plays at
each program counter, what its locals hold there (`PcOk`), and that every step
of `sched` is a `TaskStep`. `Core` collects what then holds in every state that
a run reaches whose epoch CASes compare against the current `num_nodes`.
-/
namespace Bootcode.Roles
open Bootcode.Bits Bootcode.SchedState Bootcode.Interleave Bootcode.Sched Bootcode.SchedSteps Bootcode.Graph Bootcode.Tasks
open Bootcode.TaskSteps
set_option linter.unusedSimpArgs false

/-- The role of a vCPU. -/
def role (v : Vcpu) : Role :=
  match v.pc with
  | .enter _ => if v.current = NULL_FUNC then .idle else .back v.current
  | .fin fn _ | .dag fn .ldNodes | .dag fn (.ldFirst _) | .dag fn (.ldLast _ _) => .back fn
  | .dag fn (.loop i _) | .dag fn (.dec i _ _) => .relax fn i
  | .dag fn (.inc i _ out_fn) => .addInc fn i out_fn
  | .dag fn (.bts i _ out_fn) => .addBts fn i out_fn
  | .clrCurrent fn | .incFin fn => .done fn
  | .wake fn _ => if fn = NULL_FUNC then .idle else .done fn
  | .reset (.ldDag i _) | .reset (.stCount i _ _) => .copy i
  | .reset .ldStartFunc => .seed
  | .reset (.inc fn) => .seedInc fn
  | .reset (.bts fn) => .seedBts fn
  | .reset _ => .prep
  | .work fn .decFree | .work fn .decRunnable => .won fn
  | .work fn _ => .ready fn
  | .user fn _ => .user fn
  | .boot _ | .scan _ | .noWork _ | .halt _ => .idle

/-- The slot of `metadata->current` at each program counter. -/
def CurrentOk (v : Vcpu) : Prop :=
  match v.pc with
  | .enter _ => True
  | .fin fn _ | .dag fn _ | .clrCurrent fn | .user fn _ => v.current = fn
  | .work _ .decFree | .work _ .decRunnable | .work _ .tsc | .work _ (.addTs _) | .work _ .incN | .work _ .stCurrent =>
    v.current = NULL_FUNC
  | .work fn _ => v.current = fn % 256
  | .boot _ | .wake _ _ | .incFin _ | .scan _ | .noWork _ | .reset _ | .halt _ => v.current = NULL_FUNC

/-- What the locals of `process_sched_dag`, of `get_work` and of the `memcpy` of
    the epoch reset hold while the metadata is `d`. -/
def LocalsOk (d : Metadata) : Pc → Prop
  | .dag _ (.ldFirst num_nodes) => num_nodes = d.num_nodes
  | .dag fn (.ldLast num_nodes s) => num_nodes = d.num_nodes ∧ s = first d fn
  | .dag fn (.loop i e) => first d fn ≤ i ∧ e = last d fn
  | .dag fn (.dec i e out_fn) | .dag fn (.inc i e out_fn) | .dag fn (.bts i e out_fn) =>
    first d fn ≤ i ∧ e = last d fn ∧ i < e ∧ out_fn = d.dag i
  | .reset (.ldDag i len) => len = d.num_nodes ∧ i ≤ len
  | .reset (.stCount i len count) => len = d.num_nodes ∧ i < len ∧ count = d.dag i
  | .reset (.inc fn) | .reset (.bts fn) => fn = d.start_func
  | .scan (.bsf idx) => idx < 4
  | .scan (.btr idx rax) => idx < 4 ∧ rax < 64
  | _ => True

/-- What holds of a vCPU by itself. -/
structure PcOk (d : Metadata) (v : Vcpu) : Prop where
  current : CurrentOk v
  locals : LocalsOk d v.pc

/-- New metadata concerns only a vCPU that owns a function or prepares an epoch. -/
theorem PcOk.install {d : Metadata} {v : Vcpu} (ok : PcOk d v) (owns : ∀ fn, (role v).owns fn = 0)
    (adds : ∀ fn, (role v).adds fn = 0) (rests : (role v).prepares = 0) (d' : Metadata) : PcOk d' v := by
  refine ⟨ok.current,?_⟩
  obtain ⟨pc,current,t1⟩ := v
  have locals := ok.locals
  cases pc with
  | dag fn k =>
    have none := owns fn
    cases k <;> simp [role,Role.owns] at none
  | reset k =>
    cases k with
    | inc fn | bts fn => have none := adds fn; simp [role,Role.adds] at none
    | _ => trivial
  | scan k => cases k <;> exact locals
  | _ => trivial

/-- What a step of one vCPU does as a step of the life of tasks. -/
def Simulates (host : Metadata → Prop) (s : Shared) (v : Vcpu) (s' : Shared) (v' : Vcpu) : Prop :=
  ∃ e, TaskStep host s.tasks (role v) s'.tasks (role v') e ∧ s'.log = e.toList ++ s.log ∧ PcOk s'.tasks.metadata v'

section
variable {host : Metadata → Prop} {id : Nat} {x : Input} {s s' : Shared} {v v' : Vcpu}

theorem simulates_stay {e : Option Ev} (silent : ∀ ev ∈ e, Silent ev) (tasks : s'.tasks = s.tasks) (same : role v' = role v)
    (log : s'.log = e.toList ++ s.log) (ok : PcOk s.tasks.metadata v') : Simulates host s v s' v' := by
  refine ⟨e,?_,log,tasks ▸ ok⟩
  rw [tasks,same]
  exact .stay silent

theorem simulates_still (tasks : s'.tasks = s.tasks) (same : role v' = role v) (log : s'.log = s.log)
    (ok : PcOk s.tasks.metadata v') : Simulates host s v s' v' :=
  simulates_stay (e := none) (by simp) tasks same log ok

/-- What `wake_up_task` logs. -/
theorem wake_event {id : Nat} {tsc runnable_tasks : Word} {w : Wakes} {k : WakePc} {ev : Ev}
    (logs : ev ∈ (wake_up_task id tsc runnable_tasks w k).2.2) :
    (∃ tmp, ev = .grant tmp) ∨ (∃ old, ev = .draw old) ∨ ∃ cpuid, ev = .firstKick id cpuid := by
  cases k <;> simp only [wake_up_task] at logs
  all_goals (try split at logs) <;> simp at logs <;> simp [← logs]

theorem wake_silent (id : Nat) (tsc runnable_tasks : Word) (w : Wakes) (k : WakePc) :
    ∀ ev ∈ (wake_up_task id tsc runnable_tasks w k).2.2, Silent ev := by
  intro ev logs
  rcases wake_event logs with ⟨_,rfl⟩ | ⟨_,rfl⟩ | ⟨_,rfl⟩ <;> trivial

theorem role_afterWake {fn current : Nat} {t1 : Word} :
    role ⟨afterWake fn,current,t1⟩ = if fn = NULL_FUNC then .idle else .done fn := by
  by_cases null : fn = NULL_FUNC <;> simp [afterWake,role,null]

theorem ok_afterWake {d : Metadata} {fn : Nat} {t1 : Word} : PcOk d ⟨afterWake fn,NULL_FUNC,t1⟩ := by
  unfold afterWake
  split
  · exact ⟨rfl,trivial⟩
  · exact ⟨rfl,Nat.zero_lt_succ 3⟩

theorem role_goWake {w : Wakes} {fn current : Nat} {t1 : Word} :
    role ⟨goWake w fn,current,t1⟩ = if fn = NULL_FUNC then .idle else .done fn := by
  by_cases one : w.vcpu_pool_sz = 1
  · simp only [goWake,one,ne_eq,not_true,if_false]; exact role_afterWake
  · simp [goWake,one,role]

theorem ok_goWake {d : Metadata} {w : Wakes} {fn : Nat} {t1 : Word} : PcOk d ⟨goWake w fn,NULL_FUNC,t1⟩ := by
  by_cases one : w.vcpu_pool_sz = 1
  · simp only [goWake,one,ne_eq,not_true,if_false]; exact ok_afterWake
  · simp only [goWake,one,ne_eq,not_false_eq_true,if_true]; exact ⟨rfl,trivial⟩

/-- The three ways `sched` reaches a fresh scan or sleep. -/
theorem boot_step {k : BootPc} {current : Nat} {t1 : Word} (ok : PcOk s.tasks.metadata ⟨.boot k,current,t1⟩)
    (moved : sched id x s ⟨.boot k,current,t1⟩ = some (s',v')) : Simulates host s ⟨.boot k,current,t1⟩ s' v' := by
  have null : current = NULL_FUNC := ok.current
  obtain ⟨⟨w,pc⟩,woke,same⟩ := Option.map_eq_some_iff.mp moved
  simp only [Prod.mk.injEq] at same
  obtain ⟨rfl,rfl⟩ := same
  subst null
  have next : pc = .boot .btrInactive ∨ pc = .boot .btrKicked ∨ pc = .boot .incFree ∨ pc = .enter .tsc := by
    cases k <;> simp only [wake_up_event,Option.map_eq_some_iff,Option.some.injEq,Prod.mk.injEq] at woke
    · obtain ⟨_,-,-,rfl⟩ := woke; simp
    · simp [← woke.2]
    · rw [← woke.2]; split <;> simp
    · simp [← woke.2]
  rcases next with rfl | rfl | rfl | rfl <;> exact simulates_still rfl rfl rfl ⟨by simp [CurrentOk],trivial⟩

theorem enter_step {k : EnterPc} {current : Nat} {t1 : Word}
    (moved : sched id x s ⟨.enter k,current,t1⟩ = some (s',v')) : Simulates host s ⟨.enter k,current,t1⟩ s' v' := by
  cases k with
  | tsc =>
    cases moved
    exact simulates_still rfl rfl rfl ⟨trivial,trivial⟩
  | ldCurrent =>
    cases moved
    by_cases null : current = NULL_FUNC
    · subst null
      simp only [ne_eq,not_true,if_false]
      exact simulates_still rfl (by rw [role_goWake]; rfl) rfl ok_goWake
    · simp only [ne_eq,null,not_false_eq_true,if_true]
      exact simulates_still rfl (by simp [role,null]) rfl ⟨rfl,trivial⟩

theorem fin_step {fn current : Nat} {k : FinPc} {t1 : Word} (ok : PcOk s.tasks.metadata ⟨.fin fn k,current,t1⟩)
    (moved : sched id x s ⟨.fin fn k,current,t1⟩ = some (s',v')) : Simulates host s ⟨.fin fn k,current,t1⟩ s' v' := by
  have own : current = fn := ok.current
  cases moved
  cases k <;> exact simulates_still rfl rfl rfl ⟨own,trivial⟩

theorem dag_step {fn current : Nat} {k : DagPc} {t1 : Word} (valid : Valid s.tasks.metadata)
    (lt : fn < s.tasks.metadata.num_nodes) (ok : PcOk s.tasks.metadata ⟨.dag fn k,current,t1⟩)
    (moved : sched id x s ⟨.dag fn k,current,t1⟩ = some (s',v')) : Simulates host s ⟨.dag fn k,current,t1⟩ s' v' := by
  have own : current = fn := ok.current
  have locals := ok.locals
  have few := valid.num_nodes_lt
  have most := valid.last_le lt
  have order := valid.first_le_last lt
  subst own
  cases moved
  cases k with
  | ldNodes =>
    exact simulates_still rfl rfl rfl ⟨rfl,Nat.mod_eq_of_lt (by omega)⟩
  | ldFirst num_nodes =>
    obtain rfl : num_nodes = s.tasks.metadata.num_nodes := locals
    refine simulates_still rfl rfl rfl ⟨rfl,rfl,?_⟩
    show (first s.tasks.metadata current) % 256 = _
    exact Nat.mod_eq_of_lt (by omega)
  | ldLast num_nodes i =>
    obtain ⟨rfl,rfl⟩ : num_nodes = s.tasks.metadata.num_nodes ∧ i = first s.tasks.metadata current := locals
    have e : (s.tasks.metadata.dag (s.tasks.metadata.num_nodes + current + 1) + 2 * s.tasks.metadata.num_nodes + 1) % 256 =
        last s.tasks.metadata current := Nat.mod_eq_of_lt (by simp only [last,first,← Nat.add_assoc] at most; omega)
    refine ⟨none,?_,rfl,⟨rfl,Nat.le_refl _,e⟩⟩
    exact .enter lt
  | loop i e =>
    obtain ⟨low,rfl⟩ : first s.tasks.metadata current ≤ i ∧ e = last s.tasks.metadata current := locals
    by_cases more : i < last s.tasks.metadata current
    · have target := valid.target lt low more
      simp only [process_sched_dag,more,if_true,Nat.mod_eq_of_lt (show s.tasks.metadata.dag i < 256 by omega)]
      exact simulates_still rfl rfl rfl ⟨rfl,low,rfl,more,rfl⟩
    · simp only [process_sched_dag,more,if_false]
      refine ⟨none,?_,rfl,⟨rfl,trivial⟩⟩
      exact .done (by omega)
  | dec i e out_fn =>
    obtain ⟨low,rfl,more,rfl⟩ := locals
    have next : (i + 1) % 256 = i + 1 := Nat.mod_eq_of_lt (by omega)
    by_cases zero : s.tasks.dag_in_count (s.tasks.metadata.dag i) - 1 = 0
    · simp only [process_sched_dag,zero,if_true]
      refine ⟨none,?_,rfl,⟨rfl,low,rfl,more,rfl⟩⟩
      have moved : TaskStep host s.tasks (.relax current i) _ (.addInc current i _) none := .release lt low more zero
      rwa [zero] at moved
    · simp only [process_sched_dag,zero,if_false,next]
      refine ⟨none,?_,rfl,⟨rfl,Nat.le_succ_of_le low,rfl⟩⟩
      exact .relax lt low more zero
  | inc i e out_fn =>
    refine ⟨none,?_,rfl,⟨rfl,locals⟩⟩
    exact .addInc
  | bts i e out_fn =>
    obtain ⟨low,rfl,more,rfl⟩ := locals
    have next : (i + 1) % 256 = i + 1 := Nat.mod_eq_of_lt (by omega)
    simp only [process_sched_dag,next]
    refine ⟨none,?_,rfl,⟨rfl,Nat.le_succ_of_le low,rfl⟩⟩
    exact .addBts

theorem clrCurrent_step {fn current : Nat} {t1 : Word} (node : fn ≠ NULL_FUNC)
    (moved : sched id x s ⟨.clrCurrent fn,current,t1⟩ = some (s',v')) :
    Simulates host s ⟨.clrCurrent fn,current,t1⟩ s' v' := by
  cases moved
  refine simulates_still rfl ?_ rfl ok_goWake
  rw [role_goWake,if_neg node]
  rfl

theorem wake_step {fn current : Nat} {k : WakePc} {t1 : Word} (ok : PcOk s.tasks.metadata ⟨.wake fn k,current,t1⟩)
    (moved : sched id x s ⟨.wake fn k,current,t1⟩ = some (s',v')) : Simulates host s ⟨.wake fn k,current,t1⟩ s' v' := by
  obtain rfl : current = NULL_FUNC := ok.current
  cases moved
  refine simulates_stay (wake_silent id x.tsc s.tasks.runnable_tasks s.wakes k) rfl ?_ rfl ?_
  · cases (wake_up_task id x.tsc s.tasks.runnable_tasks s.wakes k).2.1 with
    | none => exact role_afterWake
    | some next => rfl
  · cases (wake_up_task id x.tsc s.tasks.runnable_tasks s.wakes k).2.1 with
    | none => exact ok_afterWake
    | some next => exact ⟨rfl,trivial⟩

theorem incFin_step {fn current : Nat} {t1 : Word} (lt : fn < s.tasks.metadata.num_nodes)
    (ok : PcOk s.tasks.metadata ⟨.incFin fn,current,t1⟩)
    (moved : sched id x s ⟨.incFin fn,current,t1⟩ = some (s',v')) : Simulates host s ⟨.incFin fn,current,t1⟩ s' v' := by
  obtain rfl : current = NULL_FUNC := ok.current
  cases moved
  refine ⟨some (.counted id fn),?_,rfl,⟨rfl,Nat.zero_lt_succ 3⟩⟩
  exact .count id lt

theorem scan_step {k : ScanPc} {current : Nat} {t1 : Word} (ok : PcOk s.tasks.metadata ⟨.scan k,current,t1⟩)
    (moved : sched id x s ⟨.scan k,current,t1⟩ = some (s',v')) : Simulates host s ⟨.scan k,current,t1⟩ s' v' := by
  obtain rfl : current = NULL_FUNC := ok.current
  have locals := ok.locals
  cases moved
  cases k with
  | bsf idx =>
    have lt : idx < 4 := locals
    cases found : Bits.bsf (s.tasks.bm_run_fn idx) with
    | some rax =>
      simp only [get_work,found]
      exact simulates_still rfl rfl rfl ⟨rfl,lt,(bsf_some found).2⟩
    | none =>
      simp only [get_work,found]
      by_cases last : idx = 3
      · simp only [last,if_true]
        exact simulates_still rfl rfl rfl ⟨rfl,trivial⟩
      · simp only [last,if_false]
        exact simulates_still rfl rfl rfl ⟨rfl,by simp only [LocalsOk]; omega⟩
  | btr idx rax =>
    obtain ⟨lt,bit⟩ : idx < 4 ∧ rax < 64 := locals
    have word : (64 * idx + rax) / 64 = idx := by omega
    have place : (64 * idx + rax) % 64 = rax := by omega
    cases set : (s.tasks.bm_run_fn idx).getLsbD rax with
    | true =>
      simp only [get_work,set,if_true]
      refine ⟨none,?_,rfl,⟨rfl,trivial⟩⟩
      have took : TaskStep host s.tasks .idle (claim s.tasks (64 * idx + rax)) (.won (64 * idx + rax)) none :=
        .claim (by rw [runnable,word,place,set])
      rw [claim,word,place] at took
      exact took
    | false =>
      simp only [get_work,set,btr_eq_self set,Function.update_eq_self]
      exact simulates_still rfl rfl rfl ⟨rfl,lt⟩

theorem noWork_step {k : NoWorkPc} {current : Nat} {t1 : Word}
    (fresh : ∀ tot_fn, k = .cas tot_fn → s.tasks.num_fin_fn = BitVec.ofNat 64 tot_fn → tot_fn = s.tasks.metadata.num_nodes)
    (ok : PcOk s.tasks.metadata ⟨.noWork k,current,t1⟩)
    (moved : sched id x s ⟨.noWork k,current,t1⟩ = some (s',v')) : Simulates host s ⟨.noWork k,current,t1⟩ s' v' := by
  obtain rfl : current = NULL_FUNC := ok.current
  cases moved
  cases k with
  | decFree => exact simulates_still rfl rfl rfl ⟨rfl,trivial⟩
  | ldTot => exact simulates_still rfl rfl rfl ⟨rfl,trivial⟩
  | cas tot_fn =>
    by_cases all : s.tasks.num_fin_fn = BitVec.ofNat 64 tot_fn
    · obtain rfl := fresh tot_fn rfl all
      simp only [noWork,CAS,all,if_true]
      refine ⟨some (.turnover id),?_,rfl,⟨rfl,trivial⟩⟩
      exact .turnover id all
    · simp only [noWork,CAS,all,if_false]
      exact simulates_still rfl rfl rfl ⟨rfl,trivial⟩

theorem reset_step {k : ResetPc} {current : Nat} {t1 : Word} (supplied : ∀ d ∈ x.host, host d)
    (ok : PcOk s.tasks.metadata ⟨.reset k,current,t1⟩)
    (moved : sched id x s ⟨.reset k,current,t1⟩ = some (s',v')) : Simulates host s ⟨.reset k,current,t1⟩ s' v' := by
  obtain rfl : current = NULL_FUNC := ok.current
  have locals := ok.locals
  cases moved
  cases k with
  | ldStart =>
    by_cases first : s.book.dag_start_tsc = 0
    · simp only [reset,first,ne_eq,not_true,if_false]
      exact simulates_still rfl rfl rfl ⟨rfl,trivial⟩
    · simp only [reset,first,ne_eq,not_false_eq_true,if_true]
      exact simulates_still rfl rfl rfl ⟨rfl,trivial⟩
  | outw => exact simulates_stay (by simp [reset,Silent]) rfl rfl rfl ⟨rfl,trivial⟩
  | exit =>
    cases installed : x.host with
    | none =>
      simp only [reset,installed]
      exact simulates_still rfl rfl rfl ⟨rfl,trivial⟩
    | some d =>
      simp only [reset,installed]
      exact ⟨none,.install (supplied d installed),rfl,⟨rfl,trivial⟩⟩
  | ldKicked =>
    by_cases none : s.wakes.bm_kicked_vcpus = 0
    · simp only [reset,none,if_true]
      exact simulates_still rfl rfl rfl ⟨rfl,trivial⟩
    · simp only [reset,none,if_false]
      exact simulates_still rfl rfl rfl ⟨rfl,trivial⟩
  | popcnt =>
    simp only [reset]
    split <;> exact simulates_still rfl rfl rfl ⟨rfl,trivial⟩
  | stRunnable => exact ⟨none,.recover,rfl,⟨rfl,trivial⟩⟩
  | ldNodes => exact ⟨none,.copy,rfl,⟨rfl,⟨rfl,Nat.zero_le _⟩⟩⟩
  | ldDag i len =>
    obtain ⟨rfl,le⟩ : len = s.tasks.metadata.num_nodes ∧ i ≤ len := locals
    by_cases more : i < s.tasks.metadata.num_nodes
    · simp only [reset,more,if_true]
      exact simulates_still rfl rfl rfl ⟨rfl,rfl,more,rfl⟩
    · simp only [reset,more,if_false]
      exact ⟨none,.copiedAll (by omega),rfl,⟨rfl,trivial⟩⟩
  | stCount i len count =>
    obtain ⟨rfl,lt,rfl⟩ : len = s.tasks.metadata.num_nodes ∧ i < len ∧ count = s.tasks.metadata.dag i := locals
    exact ⟨none,.copied lt,rfl,⟨rfl,rfl,lt⟩⟩
  | ldStartFunc => exact ⟨none,.seed,rfl,⟨rfl,rfl⟩⟩
  | inc fn => exact ⟨none,.seedInc,rfl,⟨rfl,locals⟩⟩
  | bts fn => exact ⟨none,.seedBts,rfl,⟨rfl,Nat.zero_lt_succ 3⟩⟩
  | _ => exact simulates_still rfl rfl rfl ⟨rfl,trivial⟩

theorem halt_step {k : HaltPc} {current : Nat} {t1 : Word} (ok : PcOk s.tasks.metadata ⟨.halt k,current,t1⟩)
    (moved : sched id x s ⟨.halt k,current,t1⟩ = some (s',v')) : Simulates host s ⟨.halt k,current,t1⟩ s' v' := by
  obtain rfl : current = NULL_FUNC := ok.current
  obtain ⟨⟨w,b,t,pc,e⟩,slept,same⟩ := Option.map_eq_some_iff.mp moved
  simp only [Prod.mk.injEq] at same
  obtain ⟨rfl,rfl⟩ := same
  have next : (∀ ev ∈ e, Silent ev) ∧ ((∃ k, pc = .halt k) ∨ pc = .scan (.bsf 0)) := by
    cases k <;> simp only [haltPath,Option.map_eq_some_iff,Option.some.injEq,Prod.mk.injEq] at slept
    case hlt => obtain ⟨_,-,-,-,-,rfl,rfl⟩ := slept; simp
    all_goals
      obtain ⟨-,-,-,rfl,rfl⟩ := slept
      refine ⟨by simp [Silent],?_⟩
      first | simp | (split <;> simp)
  obtain ⟨silent,⟨k,rfl⟩ | rfl⟩ := next
  · exact simulates_stay silent rfl rfl rfl ⟨rfl,trivial⟩
  · exact simulates_stay silent rfl rfl rfl ⟨rfl,Nat.zero_lt_succ 3⟩

theorem work_step {fn current : Nat} {k : WorkPc} {t1 : Word} (small : fn < 256)
    (ok : PcOk s.tasks.metadata ⟨.work fn k,current,t1⟩)
    (moved : sched id x s ⟨.work fn k,current,t1⟩ = some (s',v')) : Simulates host s ⟨.work fn k,current,t1⟩ s' v' := by
  have own := ok.current
  have same : fn % 256 = fn := Nat.mod_eq_of_lt small
  cases moved
  cases k with
  | decRunnable => exact ⟨none,.won,rfl,⟨own,trivial⟩⟩
  | jump info =>
    obtain rfl : current = fn % 256 := own
    simp only [jump2fn,same]
    exact ⟨some (.dispatch id fn),.dispatch id,rfl,⟨rfl,trivial⟩⟩
  | stCurrent => exact simulates_still rfl rfl rfl ⟨rfl,trivial⟩
  | _ => exact simulates_still rfl rfl rfl ⟨own,trivial⟩

theorem user_step {fn current : Nat} {ctx : UserCtx} {t1 : Word} (node : fn ≠ NULL_FUNC)
    (ok : PcOk s.tasks.metadata ⟨.user fn ctx,current,t1⟩)
    (moved : sched id x s ⟨.user fn ctx,current,t1⟩ = some (s',v')) : Simulates host s ⟨.user fn ctx,current,t1⟩ s' v' := by
  obtain rfl : current = fn := ok.current
  cases moved
  refine ⟨some (.finish id current),?_,rfl,⟨trivial,trivial⟩⟩
  have back : role ⟨.enter .tsc,current,t1⟩ = .back current := if_neg node
  rw [back]
  exact .finish id

/-- Every step of `sched` is a step of the life of tasks. -/
theorem sched_step (valid : Valid s.tasks.metadata) (owned : ∀ fn, (role v).owns fn = 1 → fn < s.tasks.metadata.num_nodes)
    (supplied : ∀ d ∈ x.host, host d)
    (fresh : ∀ tot_fn, v.pc = .noWork (.cas tot_fn) → s.tasks.num_fin_fn = BitVec.ofNat 64 tot_fn →
      tot_fn = s.tasks.metadata.num_nodes)
    (ok : PcOk s.tasks.metadata v) (moved : sched id x s v = some (s',v')) : Simulates host s v s' v' := by
  have few := valid.num_nodes_lt
  have small : ∀ fn, (role v).owns fn = 1 → fn < 256 ∧ fn ≠ NULL_FUNC := by
    intro fn owns
    have lt := owned fn owns
    unfold NULL_FUNC
    omega
  obtain ⟨pc,current,t1⟩ := v
  cases pc with
  | boot k => exact boot_step ok moved
  | enter k => exact enter_step moved
  | fin fn k => exact fin_step ok moved
  | dag fn k => exact dag_step valid (owned fn (by cases k <;> simp [role,Role.owns])) ok moved
  | clrCurrent fn => exact clrCurrent_step (small fn (by simp [role,Role.owns])).2 moved
  | wake fn k => exact wake_step ok moved
  | incFin fn => exact incFin_step (owned fn (by simp [role,Role.owns])) ok moved
  | scan k => exact scan_step ok moved
  | noWork k => exact noWork_step (fun tot_fn is => fresh tot_fn (by rw [is])) ok moved
  | reset k => exact reset_step supplied ok moved
  | halt k => exact halt_step ok moved
  | work fn k => exact work_step (small fn (by cases k <;> simp [role,Role.owns])).1 ok moved
  | user fn ctx => exact user_step (small fn (by simp [role,Role.owns])).2 ok moved

end

/-! ### Runs -/

section
variable {p : Nat} {host : Metadata → Prop}

/-- The roles of a pool. -/
def roles (s : Config (Fin p) Shared Vcpu) : Fin p → Role := fun i => role (s.loc i)

/-- What holds in every state of a run: the life of tasks, and each vCPU by itself. -/
structure Core (s : Config (Fin p) Shared Vcpu) : Prop where
  tasks : TaskInv s.shared.tasks (roles s) s.shared.log
  solo : Solo s.shared.tasks (roles s)
  ok : ∀ i, PcOk s.shared.tasks.metadata (s.loc i)

/-- An epoch CAS that is about to succeed compares against the current
    `metadata->num_nodes`. -/
def FreshTot (s : Config (Fin p) Shared Vcpu) (a : Fin p × Input) : Prop :=
  ∀ tot_fn, (s.loc a.1).pc = .noWork (.cas tot_fn) → s.shared.tasks.num_fin_fn = BitVec.ofNat 64 tot_fn →
    tot_fn = s.shared.tasks.metadata.num_nodes

theorem roles_update (s : Config (Fin p) Shared Vcpu) (sh : Shared) (v : Fin p) (l : Vcpu) :
    roles ⟨sh,Function.update s.loc v l⟩ = Function.update (roles s) v (role l) :=
  Function.comp_update role s.loc v l

theorem Core.start {s : Config (Fin p) Shared Vcpu} (supply : ∀ d, host d → Valid d) (first : (pool p host).init s) :
    Core s := by
  obtain ⟨d,dag_in_count,book,t,supplied,rfl⟩ := first
  have idle : ∀ i : Fin p, role (bootVcpu i.val) = .idle := by
    intro i
    unfold bootVcpu role
    by_cases zero : i.val = 0 <;> simp [zero]
  have none : ∀ w : Role → Nat, w .idle = 0 → tally w (roles (Sched.start p d dag_in_count book t)) = 0 := fun w zero =>
    tally_eq_zero.mpr fun i => by simp only [roles,Sched.start,idle,zero]
  have empty : ∀ fn, runnable (Sched.start p d dag_in_count book t).shared.tasks fn = false := by
    intro fn
    simp [Sched.start,scheduler_init_post,scheduler_init_pre,image,runnable]
  have nowhere : ∀ fn, load (Sched.start p d dag_in_count book t).shared.tasks (roles (Sched.start p d dag_in_count book t))
      (Sched.start p d dag_in_count book t).shared.log fn = 0 := by
    intro fn
    simp only [load,none (Role.owns fn) rfl,none (Role.adds fn) rfl,empty]
    rfl
  refine ⟨?_,?_,?_⟩
  · exact {
      valid := supply d supplied
      preparing := by rw [none Role.prepares rfl]; omega
      unbegun := fun _ => ⟨none Role.prepares rfl,rfl⟩
      quiet := fun _ => nowhere
      active := fun started => by cases started
      counts := fun started => by cases started
      copied := fun v i copying => by simp only [roles,Sched.start,idle] at copying; cases copying
      copiedAll := fun v copying => by simp only [roles,Sched.start,idle] at copying; cases copying
      num_fin_fn := fun started => by cases started
      runnable_tasks := by
        rw [(counted_nothing (gone_of_load nowhere)).1,none Role.ahead rfl,none Role.behind rfl]
        rfl
      dispatched := fun fn => by rw [none (Role.ran fn) rfl]; rfl
      finished := fun fn => by rw [none (Role.finished fn) rfl]; rfl
      ordered := trivial }
  · intro v busy
    simp only [roles,Sched.start,idle,resets] at busy
    cases busy
  · intro i
    show PcOk d (bootVcpu i.val)
    by_cases zero : i.val = 0 <;> simp only [bootVcpu,zero,if_true,if_false]
    · exact ⟨trivial,trivial⟩
    · exact ⟨rfl,trivial⟩

/-- Every step whose CAS is fresh keeps `Core`; it is a step of the life of tasks. -/
theorem Core.step {s s' : Config (Fin p) Shared Vcpu} {a : Fin p × Input} (supply : ∀ d, host d → Valid d)
    (core : Core s) (supplied : Supplied host s a) (fresh : FreshTot s a) (moved : (pool p host).step s a = some s') :
    Core s' ∧ ∃ e, TaskStep host s.shared.tasks (roles s a.1) s'.shared.tasks (roles s' a.1) e ∧
      s'.shared.log = e.toList ++ s.shared.log := by
  obtain ⟨sh,l,ran,rfl⟩ := pool_step moved
  have owned : ∀ fn, (role (s.loc a.1)).owns fn = 1 → fn < s.shared.tasks.metadata.num_nodes := fun fn owns =>
    (core.tasks.of_owns (show (roles s a.1).owns fn = 1 from owns)).2.2.1
  have sim : Simulates host s.shared (s.loc a.1) sh l := sched_step core.tasks.valid owned supplied fresh (core.ok a.1) ran
  obtain ⟨e,lives,log,ok⟩ := sim
  have inv := step_inv supply core.tasks (v := a.1) rfl lives
  rw [← log] at inv
  refine ⟨⟨?_,?_,?_⟩,e,?_,log⟩
  · rw [roles_update]
    exact inv
  · rw [roles_update]
    exact core.solo.step core.tasks rfl lives
  · refine forall_of_others (P := fun _ v => PcOk sh.tasks.metadata v) (v := a.1)
      (fun i other => Function.update_of_ne other _ _)
      (by simpa using ok) fun i other => ?_
    rcases metadata_step lives with kept | ⟨preparing,-⟩
    · rw [kept]
      exact core.ok i
    · obtain ⟨-,alone,nowhere⟩ := of_prepares (v := a.1) core.tasks (by simp [roles,preparing,Role.prepares])
      have pair := add_le_tally Role.prepares (roles s) other
      rw [show roles s a.1 = .prep from preparing,alone] at pair
      change (roles s i).prepares + 1 ≤ 1 at pair
      have gone := gone_of_load nowhere
      exact (core.ok i).install (fun fn => tally_eq_zero.mp (gone fn).1 i) (fun fn => tally_eq_zero.mp (gone fn).2.1 i)
        (show (roles s i).prepares = 0 by omega) _
  · rw [roles_update,Function.update_self]
    exact lives

/-- `Core` holds in every state of every run whose epoch CASes are fresh. -/
theorem core_reach {s : Config (Fin p) Shared Vcpu} (supply : ∀ d, host d → Valid d)
    (reach : Reach (pool p host) (fun s a => Supplied host s a ∧ FreshTot s a) s) : Core s :=
  reach.invariant (fun _ first => Core.start supply first)
    (fun _ _ _ _ core good moved => (core.step supply good.1 good.2 moved).1)

/-- The CAS on `num_fin_fn` compares against what `num_nodes` was at the load. -/
theorem cas_step {id : Nat} {x : Input} {s s' : Shared} {v v' : Vcpu} {tot_fn : Nat}
    (moved : sched id x s v = some (s',v')) (pc : v'.pc = .noWork (.cas tot_fn)) : tot_fn = s.tasks.metadata.num_nodes := by
  obtain ⟨before,current,t1⟩ := v
  cases before with
  | boot k =>
    obtain ⟨⟨w,next⟩,woke,same⟩ := Option.map_eq_some_iff.mp moved
    cases same
    cases k <;> simp [wake_up_event] at woke <;> grind
  | enter k => cases k <;> cases moved <;> simp [goWake,afterWake] at pc; grind
  | fin fn k => cases k <;> cases moved <;> simp [finished] at pc
  | dag fn k => cases k <;> cases moved <;> simp [process_sched_dag] at pc; grind
  | clrCurrent fn => cases moved; simp [goWake,afterWake] at pc; grind
  | wake fn k =>
    cases moved
    cases next : (wake_up_task id x.tsc s.tasks.runnable_tasks s.wakes k).2.1 with
    | none => simp [next,afterWake] at pc; grind
    | some k' => simp [next] at pc
  | incFin fn => cases moved; simp at pc
  | scan k => cases moved; cases k <;> simp [get_work] at pc <;> grind
  | noWork k => cases moved; cases k <;> simp [noWork] at pc <;> grind
  | reset k => cases moved; cases k <;> simp [reset] at pc; all_goals grind
  | halt k =>
    obtain ⟨⟨w,b,t,next,e⟩,slept,same⟩ := Option.map_eq_some_iff.mp moved
    cases same
    cases k <;> simp [haltPath] at slept <;> grind
  | work fn k => cases moved; cases k <;> simp [jump2fn] at pc
  | user fn ctx => cases moved; simp at pc

/-- The metadata is always what the host supplied. -/
theorem host_metadata (supply : ∀ d, host d → Valid d) {s : Config (Fin p) Shared Vcpu}
    (reach : Reach (pool p host) (fun s a => Supplied host s a ∧ FreshTot s a) s) : host s.shared.tasks.metadata := by
  induction reach with
  | init first =>
    obtain ⟨d,dag_in_count,book,t,supplied,rfl⟩ := first
    exact supplied
  | step before good moved ih =>
    obtain ⟨-,e,lives,-⟩ := (core_reach supply before).step supply good.1 good.2 moved
    rcases metadata_step lives with same | ⟨-,-,supplied⟩
    · rw [same]
      exact ih
    · exact supplied

/-- A host whose task graphs all have the same number of nodes keeps every loaded
    `tot_fn` current. -/
theorem tot_fn_constant {n : Nat} (supply : ∀ d, host d → Valid d) (constant : ∀ d, host d → d.num_nodes = n)
    {s : Config (Fin p) Shared Vcpu} (reach : Reach (pool p host) (fun s a => Supplied host s a ∧ FreshTot s a) s) :
    ∀ i tot_fn, (s.loc i).pc = .noWork (.cas tot_fn) → tot_fn = n := by
  induction reach with
  | init first =>
    obtain ⟨d,dag_in_count,book,t,supplied,rfl⟩ := first
    intro i tot_fn pc
    by_cases zero : i.val = 0 <;> simp [Sched.start,bootVcpu,zero] at pc
  | @step s s' a before good moved ih =>
    obtain ⟨sh,ran,-,others⟩ := pool_frame moved
    refine forall_of_others (P := fun _ v => ∀ tot_fn, v.pc = .noWork (.cas tot_fn) → tot_fn = n) others ?_ fun i _ => ih i
    intro tot_fn pc
    rw [cas_step ran pc,constant _ (host_metadata supply before)]

theorem fresh_of_constant {n : Nat} (supply : ∀ d, host d → Valid d) (constant : ∀ d, host d → d.num_nodes = n)
    {s : Config (Fin p) Shared Vcpu} (reach : Reach (pool p host) (Supplied host) s) :
    Reach (pool p host) (fun s a => Supplied host s a ∧ FreshTot s a) s ∧ ∀ a, FreshTot s a := by
  have fresh : ∀ s, Reach (pool p host) (fun s a => Supplied host s a ∧ FreshTot s a) s → ∀ a, FreshTot s a := by
    intro s reach a tot_fn pc _
    rw [tot_fn_constant supply constant reach a.1 tot_fn pc,constant _ (host_metadata supply reach)]
  have good : Reach (pool p host) (fun s a => Supplied host s a ∧ FreshTot s a) s :=
    reach.strengthen fun s a _ before supplied _ => ⟨supplied,fresh s before a⟩
  exact ⟨good,fresh s good⟩

/-- The same for every step of a run. -/
theorem run_fresh {n : Nat} (supply : ∀ d, host d → Valid d) (constant : ∀ d, host d → d.num_nodes = n)
    {l : List (Config (Fin p) Shared Vcpu × (Fin p × Input))} {s : Config (Fin p) Shared Vcpu} (run : Run (pool p host) l s)
    (supplied : ∀ x ∈ l, Supplied host x.1 x.2) : ∀ x ∈ l, Supplied host x.1 x.2 ∧ FreshTot x.1 x.2 := by
  induction run with
  | init first => simp
  | @step l s s' a before moved ih =>
    have earlier : ∀ x ∈ l, Supplied host x.1 x.2 := fun x member => supplied x (.tail _ member)
    have reach : Reach (pool p host) (Supplied host) s := before.reach earlier
    intro x member
    rcases List.mem_cons.mp member with rfl | older
    · exact ⟨supplied _ (.head _),(fresh_of_constant supply constant reach).2 a⟩
    · exact ih earlier x older

end
end Bootcode.Roles
