import Bootcode.Epochs

/-!
The pool never falls asleep as a whole. Whoever makes a function runnable scans
the bitmap again before it sleeps, and whoever completes an epoch compares
`num_fin_fn` once more; so while a task is left some vCPU is awake to find it.
-/
namespace Bootcode.Awake
open Bootcode.Bits Bootcode.SchedState Bootcode.Interleave Bootcode.Sched Bootcode.Graph Bootcode.Tasks Bootcode.TaskSteps
open Bootcode.SchedSteps Bootcode.Roles
set_option linter.unusedSimpArgs false

/-- In the boot `hlt`, or on the halt path up to the return of its `hlt`. -/
def dozes : Pc → Bool
  | .boot .hlt | .halt .tsc | .halt (.stHlt _) | .halt .ldHlt | .halt (.addTs _) | .halt .incN | .halt .bts
  | .halt .hlt => true
  | _ => false
/-- Neither dozing nor between a scan of the bitmap and the decision to doze. -/
def busy : Pc → Bool
  | .scan _ | .noWork _ => false
  | pc => !dozes pc
/-- The vCPU looks at word `w` of the bitmap before it dozes. -/
def scans (w : Nat) : Pc → Bool
  | .scan (.bsf idx) | .scan (.btr idx _) => idx ≤ w
  | pc => busy pc
/-- The vCPU compares `num_fin_fn` with `n` before it dozes. -/
def compares (n : Nat) : Pc → Bool
  | .scan _ | .noWork .decFree | .noWork .ldTot => true
  | .noWork (.cas tot_fn) => tot_fn = n
  | pc => busy pc

section
variable {id : Nat} {x : Input} {s s' : Shared} {v v' : Vcpu}

theorem scans_of_busy {pc : Pc} (is : busy pc = true ∨ pc = .scan (.bsf 0)) (w : Nat) : scans w pc = true := by
  rcases is with is | rfl
  · cases pc with
    | scan k | noWork k => cases is
    | _ => exact is
  · simp [scans]

theorem compares_of_busy {pc : Pc} (is : busy pc = true ∨ pc = .scan (.bsf 0)) (n : Nat) : compares n pc = true := by
  rcases is with is | rfl
  · cases pc with
    | scan k | noWork k => cases is
    | _ => exact is
  · rfl

theorem busy_afterWake (fn : Nat) : busy (afterWake fn) = true ∨ afterWake fn = .scan (.bsf 0) := by
  unfold afterWake
  split
  · exact .inl rfl
  · exact .inr rfl

theorem busy_goWake (w : Wakes) (fn : Nat) : busy (goWake w fn) = true ∨ goWake w fn = .scan (.bsf 0) := by
  unfold goWake
  split
  · exact .inl rfl
  · exact busy_afterWake fn

/-- A busy vCPU stays busy until it scans the bitmap from its first word. -/
theorem busy_step (moved : sched id x s v = some (s',v')) (is : busy v.pc = true) :
    busy v'.pc = true ∨ v'.pc = .scan (.bsf 0) := by
  obtain ⟨pc,current,t1⟩ := v
  cases pc with
  | boot k =>
    obtain ⟨⟨w,next⟩,woke,same⟩ := Option.map_eq_some_iff.mp moved
    cases same
    cases k with
    | hlt => cases is
    | btrKicked =>
      simp only [wake_up_event,Option.some.injEq,Prod.mk.injEq] at woke
      obtain ⟨-,rfl⟩ := woke
      split <;> exact .inl rfl
    | btrInactive | incFree => cases woke; exact .inl rfl
  | enter k =>
    cases k with
    | tsc => cases moved; exact .inl rfl
    | ldCurrent =>
      cases moved
      simp only
      split
      · exact .inl rfl
      · exact busy_goWake _ _
  | fin fn k => cases moved; cases k <;> exact .inl rfl
  | dag fn k =>
    cases moved
    left
    cases next : (process_sched_dag fn s.tasks k).2 <;> simp [next,busy,dozes]
  | clrCurrent fn => cases moved; exact busy_goWake _ _
  | wake fn k =>
    cases moved
    cases next : (wake_up_task id x.tsc s.tasks.runnable_tasks s.wakes k).2.1 with
    | none => simp only [next]; exact busy_afterWake fn
    | some k' => simp only [next]; exact .inl rfl
  | incFin fn => cases moved; exact .inr rfl
  | scan k => cases is
  | noWork k => cases is
  | reset k =>
    cases moved
    cases k with
    | bts fn => exact .inr rfl
    | exit => cases installed : x.host <;> simp [reset,installed,busy,dozes]
    | _ => exact .inl rfl
  | halt k =>
    obtain ⟨⟨w,b,t,next,e⟩,slept,same⟩ := Option.map_eq_some_iff.mp moved
    cases same
    cases k with
    | btrKicked =>
      simp only [haltPath,Option.some.injEq,Prod.mk.injEq] at slept
      obtain ⟨-,-,-,rfl,-⟩ := slept
      split <;> exact .inl rfl
    | btrInactive | incFree => cases slept; exact .inl rfl
    | tscOut => cases slept; exact .inr rfl
    | _ => cases is
  | work fn k => cases moved; cases k <;> exact .inl rfl
  | user fn ctx => cases moved; exact .inl rfl

/-- A vCPU stops scanning for a word only when it has found the word empty. -/
theorem scans_step {w : Nat} (lt : w < 4) (moved : sched id x s v = some (s',v')) (scan : scans w v.pc = true) :
    scans w v'.pc = true ∨ s.tasks.bm_run_fn w = 0 ∧ s'.tasks = s.tasks := by
  by_cases is : busy v.pc = true
  · exact .inl (scans_of_busy (busy_step moved is) w)
  obtain ⟨pc,current,t1⟩ := v
  cases pc with
  | scan k =>
    cases moved
    cases k with
    | bsf idx =>
      have le : idx ≤ w := by simpa [scans] using scan
      cases found : Bits.bsf (s.tasks.bm_run_fn idx) with
      | some rax => simp [get_work,found,scans,le]
      | none =>
        by_cases here : idx = w
        · subst here
          refine .inr ⟨eq_zero_of_bits (bsf_none found),?_⟩
          simp [get_work,found]
        · left
          have more : idx ≠ 3 := by omega
          simp [get_work,found,more,scans]
          omega
    | btr idx rax =>
      have le : idx ≤ w := by simpa [scans] using scan
      left
      cases set : (s.tasks.bm_run_fn idx).getLsbD rax <;> simp [get_work,set,scans,busy,dozes,le]
  | noWork k => cases scan
  | _ => exact absurd scan is

/-- A vCPU stops comparing only by a CAS that succeeds. -/
theorem compares_step (moved : sched id x s v = some (s',v')) (due : compares s.tasks.metadata.num_nodes v.pc = true) :
    compares s.tasks.metadata.num_nodes v'.pc = true ∨
      (s.tasks.num_fin_fn = BitVec.ofNat 64 s.tasks.metadata.num_nodes → s'.tasks.num_fin_fn = 0) := by
  by_cases is : busy v.pc = true
  · exact .inl (compares_of_busy (busy_step moved is) _)
  obtain ⟨pc,current,t1⟩ := v
  cases pc with
  | scan k =>
    left
    cases moved
    cases (get_work s.tasks k).2 <;> rfl
  | noWork k =>
    cases k with
    | decFree => cases moved; exact .inl rfl
    | ldTot => cases moved; exact .inl (decide_eq_true rfl)
    | cas tot_fn =>
      right
      intro all
      have same : tot_fn = s.tasks.metadata.num_nodes := of_decide_eq_true due
      cases moved
      simp [noWork,CAS,all,same]
  | _ => exact absurd due is

/-- A vCPU that makes a function runnable scans again before it dozes. -/
theorem scans_added (moved : sched id x s v = some (s',v')) :
    (∀ w, scans w v'.pc = true) ∨ ∀ fn, runnable s'.tasks fn = true → runnable s.tasks fn = true := by
  by_cases is : busy v.pc = true
  · exact .inl (scans_of_busy (busy_step moved is))
  right
  intro fn set
  obtain ⟨pc,current,t1⟩ := v
  cases pc with
  | scan k =>
    cases moved
    cases k with
    | bsf idx => cases found : Bits.bsf (s.tasks.bm_run_fn idx) <;> simpa [get_work,found] using set
    | btr idx rax =>
      by_cases word : fn / 64 = idx
      · simp only [runnable,get_work,word,Function.update_self,getLsbD_btr,Bool.and_eq_true] at set
        rw [runnable,word]
        exact set.1
      · simpa [runnable,get_work,Function.update_of_ne word] using set
  | noWork k => cases moved; cases k <;> exact set
  | boot k =>
    obtain ⟨⟨w,next⟩,woke,same⟩ := Option.map_eq_some_iff.mp moved
    cases same
    exact set
  | halt k =>
    obtain ⟨⟨w,b,t,next,e⟩,slept,same⟩ := Option.map_eq_some_iff.mp moved
    cases same
    exact set
  | _ => exact absurd rfl is

/-- Only a vCPU that then compares again moves `num_fin_fn` to another value than 0. -/
theorem compares_counted (moved : sched id x s v = some (s',v')) :
    (∀ n, compares n v'.pc = true) ∨ s'.tasks.num_fin_fn = s.tasks.num_fin_fn ∨ s'.tasks.num_fin_fn = 0 := by
  by_cases is : busy v.pc = true
  · exact .inl (compares_of_busy (busy_step moved is))
  right
  obtain ⟨pc,current,t1⟩ := v
  cases pc with
  | scan k =>
    cases moved
    cases k with
    | bsf idx => cases found : Bits.bsf (s.tasks.bm_run_fn idx) <;> simp [get_work,found]
    | btr idx rax => exact .inl rfl
  | noWork k =>
    cases moved
    cases k with
    | cas tot_fn =>
      simp only [noWork,CAS]
      split
      · exact .inr rfl
      · exact .inl rfl
    | _ => exact .inl rfl
  | boot k =>
    obtain ⟨⟨w,next⟩,woke,same⟩ := Option.map_eq_some_iff.mp moved
    cases same
    exact .inl rfl
  | halt k =>
    obtain ⟨⟨w,b,t,next,e⟩,slept,same⟩ := Option.map_eq_some_iff.mp moved
    cases same
    exact .inl rfl
  | _ => exact absurd rfl is

end

section
variable {p : Nat} {host : Metadata → Prop}

/-- Somebody will find each runnable function, and somebody will find the epoch
    complete when it is. -/
structure Watched (s : Config (Fin p) Shared Vcpu) : Prop where
  task : ∀ fn, runnable s.shared.tasks fn = true → ∃ i, scans (fn / 64) (s.loc i).pc = true
  epoch : s.shared.tasks.num_fin_fn = BitVec.ofNat 64 s.shared.tasks.metadata.num_nodes →
    ∃ i, compares s.shared.tasks.metadata.num_nodes (s.loc i).pc = true

theorem num_nodes_ne_zero {d : Metadata} (valid : Valid d) : BitVec.ofNat 64 d.num_nodes ≠ 0 := by
  intro zero
  have few := valid.num_nodes_lt
  have some := valid.start_lt
  have bits := congrArg BitVec.toNat zero
  simp only [BitVec.toNat_ofNat,BitVec.ofNat_eq_ofNat] at bits
  omega

theorem Watched.start {s : Config (Fin p) Shared Vcpu} (pos : 0 < p) (first : (pool p host).init s) : Watched s := by
  obtain ⟨d,dag_in_count,book,t,supplied,rfl⟩ := first
  refine ⟨?_,fun _ => ⟨⟨0,pos⟩,rfl⟩⟩
  intro fn set
  simp [Sched.start,scheduler_init_post,scheduler_init_pre,image,runnable] at set

theorem Watched.step {s s' : Config (Fin p) Shared Vcpu} {a : Fin p × Input} (supply : ∀ d, host d → Valid d)
    (core : Core s) (watched : Watched s) (supplied : Supplied host s a) (fresh : FreshTot s a)
    (moved : (pool p host).step s a = some s') : Watched s' := by
  obtain ⟨core',e,lives,-⟩ := core.step supply supplied fresh moved
  obtain ⟨sh,l,ran,rfl⟩ := pool_step moved
  have stays : ∀ Q : Pc → Bool, (∃ i, Q (s.loc i).pc = true) → (Q (s.loc a.1).pc = true → Q l.pc = true) →
      ∃ i, Q (Function.update s.loc a.1 l i).pc = true := by
    intro Q marked keeps
    refine exists_of_others (P := fun v : Vcpu => Q v.pc = true) (v := a.1)
      (fun i other => Function.update_of_ne other _ _) ?_ marked
    rw [Function.update_self]
    exact keeps
  constructor
  · intro fn set
    have lt : fn / 64 < 4 := by
      have node := (core'.tasks.of_runnable set).2.2.1
      have few := core'.tasks.valid.num_nodes_lt
      omega
    rcases scans_added ran with again | old
    · exact ⟨a.1,by simpa using again (fn / 64)⟩
    · refine stays _ (watched.task fn (old fn set)) fun scan => ?_
      rcases scans_step lt ran scan with again | ⟨empty,same⟩
      · exact again
      · have before := old fn set
        rw [runnable,empty] at before
        simp at before
  · intro all
    rcases compares_counted ran with again | kept | zero
    · exact ⟨a.1,by simpa using again _⟩
    · change sh.tasks.num_fin_fn = BitVec.ofNat 64 sh.tasks.metadata.num_nodes at all
      rcases metadata_step lives with same | ⟨preparing,-⟩
      · change sh.tasks.metadata = s.shared.tasks.metadata at same
        rw [same] at all
        show ∃ i, compares sh.tasks.metadata.num_nodes (Function.update s.loc a.1 l i).pc = true
        rw [same]
        refine stays _ (watched.epoch (kept ▸ all)) fun due => ?_
        rcases compares_step ran due with again | reset
        · exact again
        · have zero := kept.symm.trans (reset (kept ▸ all))
          rw [kept,zero] at all
          exact absurd all.symm (num_nodes_ne_zero core.tasks.valid)
      · have zero := (core.solo a.1 (by rw [preparing]; rfl)).2.1
        rw [kept,zero] at all
        exact absurd all.symm (num_nodes_ne_zero core'.tasks.valid)
    · exact absurd (all.symm.trans zero) (num_nodes_ne_zero core'.tasks.valid)

theorem of_dozes {v : Vcpu} (sleepy : dozes v.pc = true) :
    role v = .idle ∧ (∀ w, scans w v.pc = false) ∧ ∀ n, compares n v.pc = false := by
  obtain ⟨pc,current,t1⟩ := v
  cases pc with
  | boot k => cases k <;> first | exact ⟨rfl,fun _ => rfl,fun _ => rfl⟩ | cases sleepy
  | halt k => cases k <;> first | exact ⟨rfl,fun _ => rfl,fun _ => rfl⟩ | cases sleepy
  | _ => cases sleepy

/-- Where every vCPU plays no part, an epoch that is not complete has a runnable
    function: the first node, in the order of the edges, that is not counted. -/
theorem runnable_of_idle {s : Config (Fin p) Shared Vcpu} (core : Core s) (idle : ∀ i, roles s i = .idle)
    (unfinished : s.shared.tasks.num_fin_fn ≠ BitVec.ofNat 64 s.shared.tasks.metadata.num_nodes) :
    ∃ fn, runnable s.shared.tasks fn = true := by
  have none : ∀ w : Role → Nat, w .idle = 0 → tally w (roles s) = 0 := fun w zero =>
    tally_eq_zero.mpr fun i => by rw [idle i]; exact zero
  have rests := none Role.prepares rfl
  have started : begun s.shared.log = true := by
    cases began : begun s.shared.log with
    | true => rfl
    | false => exact absurd (core.tasks.unbegun began).2 unfinished
  have uncounted : ∃ fn < s.shared.tasks.metadata.num_nodes, ¬ inEpoch (isCounted fn) s.shared.log = 1 := by
    by_contra all
    push Not at all
    refine unfinished ?_
    rw [core.tasks.num_fin_fn started,Finset.sum_congr rfl fun g member => all g (Finset.mem_range.mp member),
      ← Finset.card_eq_sum_ones,Finset.card_range]
  obtain ⟨f,lt,not⟩ := uncounted
  obtain ⟨fn,node,missing,before⟩ := exists_minimal (P := fun g => inEpoch (isCounted g) s.shared.log = 1)
    core.tasks.valid.acyclic (fun g f edge => edge.1) lt not
  refine ⟨fn,?_⟩
  have each : ∀ g ∈ Finset.range s.shared.tasks.metadata.num_nodes,
      downs s.shared.tasks (roles s) s.shared.log g fn = mult s.shared.tasks.metadata g fn := by
    intro g member
    have most := core.tasks.downs_le g fn
    by_cases edge : Edge s.shared.tasks.metadata g fn
    · rw [downs,before g edge,none (Role.relaxed s.shared.tasks.metadata g fn) rfl]
      omega
    · have no : ¬ 0 < mult s.shared.tasks.metadata g fn := fun pos => edge ⟨Finset.mem_range.mp member,pos⟩
      omega
  have total := core.tasks.counts started rests fn node
  rw [Finset.sum_congr rfl each,core.tasks.valid.sum_mult node] at total
  have zero : s.shared.tasks.dag_in_count fn = 0 := BitVec.eq_of_toNat_eq (by simpa using total)
  have one := core.tasks.active started rests fn
  rw [if_pos ⟨node,zero⟩,load,none (Role.owns fn) rfl,none (Role.adds fn) rfl] at one
  have most := core.tasks.counted_le fn
  cases bit : runnable s.shared.tasks fn with
  | true => rfl
  | false => rw [bit] at one; simp at one; omega

/-- In every reachable state some vCPU is neither in its boot `hlt` nor on the
    halt path of `sched` up to the return of its `hlt`. -/
theorem pool_awake {n : Nat} (pos : 0 < p) (supply : ∀ d, host d → Valid d) (constant : ∀ d, host d → d.num_nodes = n)
    {s : Config (Fin p) Shared Vcpu} (reach : Reach (pool p host) (Supplied host) s) : ∃ i, dozes (s.loc i).pc = false := by
  obtain ⟨freshly,-⟩ := fresh_of_constant supply constant reach
  have core := core_reach supply freshly
  have watched : Watched s := freshly.invariant (fun _ first => Watched.start pos first)
    (fun _ _ _ before watched good moved => watched.step supply (core_reach supply before) good.1 good.2 moved)
  by_contra asleep
  have sleepy : ∀ i, dozes (s.loc i).pc = true := by simpa using asleep
  by_cases all : s.shared.tasks.num_fin_fn = BitVec.ofNat 64 s.shared.tasks.metadata.num_nodes
  · obtain ⟨i,due⟩ := watched.epoch all
    rw [(of_dozes (sleepy i)).2.2] at due
    cases due
  · obtain ⟨fn,set⟩ := runnable_of_idle core (fun i => (of_dozes (sleepy i)).1) all
    obtain ⟨i,scan⟩ := watched.task fn set
    rw [(of_dozes (sleepy i)).2.1] at scan
    cases scan

/-- vCPU 1 is still in its boot `hlt` when vCPU 0 comes to end the epoch. -/
theorem pool_awake_edge : ∃ s : Config (Fin 2) Shared Vcpu,
    dozes (s.loc 1).pc = true ∧ begun s.shared.log = true ∧ ∃ i, dozes (s.loc i).pc = false := by
  let P : Config (Fin 2) Shared Vcpu → Bool := fun s => dozes (s.loc 1).pc && begun s.shared.log
  have ran : (exec (pool 2 (· = edge)) (boot 2 edge) (schedule 2 [(0,118)])).any P = true := by decide +kernel
  have first : (pool 2 (· = edge)).init (boot 2 edge) := boot_init rfl
  obtain ⟨s,reach,holds⟩ := exec_exists first schedule_supplied ran
  obtain ⟨sleepy,started⟩ : dozes (s.loc 1).pc = true ∧ begun s.shared.log = true := by simpa [P] using holds
  have supply : ∀ d, d = edge → Valid d := fun _ same => same ▸ edge_valid
  have constant : ∀ d, d = edge → d.num_nodes = 2 := fun _ same => by rw [same]; rfl
  exact ⟨s,sleepy,started,pool_awake (by decide) supply constant reach⟩

/-! ### Work conservation -/

end
end Bootcode.Awake
