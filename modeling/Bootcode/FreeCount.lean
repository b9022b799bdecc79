import Bootcode.Roles

/-!
What `num_free_vcpu` counts: the vCPUs that are searching for work, the bits of
`bm_kicked_vcpus`, and the wakers that have yet to set such a bit. Every update
but three keeps the sum; `free_accounted` says when those three do. Here the pool
also boots: vCPU 0 initialises while other vCPUs may already leave their `hlt`.
-/
namespace Bootcode.FreeCount
open Bootcode.Bits Bootcode.SchedState Bootcode.Interleave Bootcode.Sched Bootcode.SchedSteps Bootcode.Graph Bootcode.Tasks
open Bootcode.Roles Bootcode.TaskSteps
set_option linter.unusedSimpArgs false

/-- vCPU 0 before `scheduler_init_pre`, between the two initialisations, and in `sched`. -/
inductive Phase
  | pre
  | post
  | up
  deriving DecidableEq

structure Machine (p : Nat) where
  phase : Phase
  config : Config (Fin p) Shared Vcpu

inductive Label (p : Nat)
  | init_pre
  | init_post (t : Word)
  | vcpu (a : Fin p × Input)

/-- A pool of `p` vCPUs from the state of the image on. vCPU 0 initialises before
    it enters `sched`; any other vCPU may be past its boot `hlt` by then. -/
def machine (p : Nat) (d : Metadata) : System (Machine p) (Label p) where
  init m := ∃ dag_in_count book, m = ⟨.pre,⟨image d dag_in_count book,fun i => bootVcpu i.val⟩⟩
  step m
    | .init_pre =>
      if m.phase = .pre then some ⟨.post,{ m.config with shared := scheduler_init_pre p m.config.shared }⟩ else none
    | .init_post t =>
      if m.phase = .post then some ⟨.up,{ m.config with shared := scheduler_init_post p t m.config.shared }⟩ else none
    | .vcpu a =>
      if a.1.val = 0 ∧ m.phase ≠ .up then none else ((pool p (· = d)).step m.config a).map (Machine.mk m.phase)

/-- The host keeps the task graph `d`. -/
def Label.keeps {p : Nat} (d : Metadata) : Label p → Prop
  | .vcpu a => ∀ d' ∈ a.2.host, d' = d
  | _ => True

/-- The vCPU is counted as searching for work. -/
def searching (v : Vcpu) : Nat :=
  match v.pc with
  | .enter _ => if v.current = NULL_FUNC then 1 else 0
  | .fin _ .incFree => 0
  | .fin _ _ | .dag _ _ | .clrCurrent _ | .wake _ _ | .incFin _ | .scan _ => 1
  | .noWork .decFree => 1
  | .noWork _ => 0
  | .reset .ldStart | .reset .tscTot | .reset (.ldTot _) | .reset (.stTot _) | .reset .ldInp | .reset (.stInp _)
  | .reset .outw | .reset .exit | .reset .incFree => 0
  | .reset _ => 1
  | .halt .tscOut => 1
  | .halt _ => 0
  | .work _ .decFree => 1
  | .work _ _ | .user _ _ | .boot _ => 0

/-- A waker between its `ATOMIC_INCQ_M(num_free_vcpu)` and its `bts` of `bm_kicked_vcpus`. -/
def promises (v : Vcpu) : Nat :=
  match v.pc with
  | .wake _ (.tsc _) | .wake _ (.stKick _ _) | .wake _ (.bts _) => 1
  | _ => 0

section
variable {p : Nat}

/-- What `num_free_vcpu` should be. -/
def counted (s : Config (Fin p) Shared Vcpu) : Nat :=
  tally searching s.loc + popcnt s.shared.wakes.bm_kicked_vcpus + tally promises s.loc

/-- From `scheduler_init_pre` on, `num_free_vcpu` is what it should be. -/
def Accounted (m : Machine p) : Prop :=
  m.phase ≠ .pre → m.config.shared.wakes.num_free_vcpu.toNat = counted m.config

/-- The three updates that do not look at what they count: a `bts` of
    `bm_kicked_vcpus` finds the bit clear, and the stores `num_free_vcpu = 1` of the
    epoch reset and of `scheduler_init_pre` find nobody else counted. -/
def StepOk (m : Machine p) : Label p → Prop
  | .init_pre => ∀ i : Fin p, i.val ≠ 0 → searching (m.config.loc i) = 0 ∧ promises (m.config.loc i) = 0
  | .init_post _ => True
  | .vcpu a => m.phase ≠ .pre →
    match (m.config.loc a.1).pc with
    | .wake _ (.bts cpuid) => m.config.shared.wakes.bm_kicked_vcpus.getLsbD cpuid = false
    | .reset .stFree => m.config.shared.wakes.bm_kicked_vcpus = 0 ∧
        ∀ i, i ≠ a.1 → searching (m.config.loc i) = 0 ∧ promises (m.config.loc i) = 0
    | _ => True

end

/-! ### One vCPU -/

/-- What one vCPU and the bitmap contribute. -/
def own (w : Wakes) (v : Vcpu) : Nat := searching v + popcnt w.bm_kicked_vcpus + promises v

/-- The id that a vCPU is about to take or has taken from `ss_reflective_bm`. -/
def target : Pc → Option Nat
  | .wake _ (.btr cpuid) | .wake _ (.ldHlt cpuid) | .wake _ (.ldKick cpuid _) | .wake _ (.incFree cpuid) | .wake _ (.tsc cpuid)
  | .wake _ (.stKick cpuid _) | .wake _ (.bts cpuid) | .wake _ (.kick cpuid) | .wake _ (.rel cpuid)
  | .wake _ (.skip cpuid) => some cpuid
  | _ => none

/-- What a step does to `num_free_vcpu` and to what its vCPU contributes. -/
inductive Counts : Wakes → Vcpu → Wakes → Vcpu → Prop
  | keep {w v w' v'} (free : w'.num_free_vcpu = w.num_free_vcpu) (same : own w' v' = own w v) : Counts w v w' v'
  | inc {w v w' v'} (free : w'.num_free_vcpu = w.num_free_vcpu + 1) (more : own w' v' = own w v + 1) : Counts w v w' v'
  | dec {w v w' v'} (free : w'.num_free_vcpu = w.num_free_vcpu - 1) (less : own w' v' + 1 = own w v) : Counts w v w' v'

section
variable {id : Nat} {x : Input} {s s' : Shared} {v v' : Vcpu}

theorem searching_afterWake (fn current : Nat) (t1 : Word) :
    searching ⟨afterWake fn,current,t1⟩ = 1 ∧ promises ⟨afterWake fn,current,t1⟩ = 0 := by
  unfold afterWake
  split <;> exact ⟨rfl,rfl⟩

theorem searching_goWake (w : Wakes) (fn current : Nat) (t1 : Word) :
    searching ⟨goWake w fn,current,t1⟩ = 1 ∧ promises ⟨goWake w fn,current,t1⟩ = 0 := by
  unfold goWake
  split
  · exact ⟨rfl,rfl⟩
  · exact searching_afterWake fn current t1

theorem own_of (w : Wakes) (one : searching v = 1 ∧ promises v = 0) : own w v = 1 + popcnt w.bm_kicked_vcpus := by
  rw [own,one.1,one.2,Nat.add_zero]
theorem target_calm {pc : Pc} (is : calm pc = true) : target pc = none := by
  cases pc with
  | wake fn k => cases k <;> first | rfl | cases is
  | _ => rfl

/-- `lock btr` of `bm_kicked_vcpus` after a `hlt`: the vCPU takes over the count of
    its bit, or finds it clear and counts itself next. -/
theorem btrKicked_counts (id : Nat) (w : Wakes) :
    popcnt (btrKicked id w).1.bm_kicked_vcpus + (if (btrKicked id w).2 then 1 else 0) = popcnt w.bm_kicked_vcpus := by
  by_cases set : w.bm_kicked_vcpus.getLsbD id = true
  · simp only [btrKicked,set,if_true]
    exact popcnt_btr set
  · have clear : w.bm_kicked_vcpus.getLsbD id = false := by simpa using set
    simp only [btrKicked,clear,btr_eq_self clear]
    rfl

/-- A step inside `wake_up_task` other than the `bts` of `bm_kicked_vcpus`. -/
theorem wake_counts {tsc runnable_tasks : Word} {w : Wakes} {fn current : Nat} {t1 : Word} {k : WakePc}
    (away : ∀ cpuid, k ≠ .bts cpuid) :
    Counts w ⟨.wake fn k,current,t1⟩ (wake_up_task id tsc runnable_tasks w k).1
      ⟨((wake_up_task id tsc runnable_tasks w k).2.1.map (Pc.wake fn)).getD (afterWake fn),current,t1⟩ := by
  have out := searching_afterWake fn current t1
  cases k with
  | bts cpuid => exact absurd rfl (away cpuid)
  | incFree cpuid => exact .inc rfl (by simp [wake_up_task,own,searching,promises])
  | bsf =>
    simp only [wake_up_task]
    split
    · exact .keep rfl rfl
    · exact .keep rfl (own_of w out)
  | bsf1 =>
    simp only [wake_up_task]
    split <;> exact .keep rfl rfl
  | ldKick cpuid hlt =>
    simp only [wake_up_task]
    split <;> exact .keep rfl rfl
  | xadd =>
    simp only [wake_up_task]
    refine .keep rfl ?_
    split
    · split <;> rfl
    · exact own_of _ out
  | btr1 cpuid | ldKick1 cpuid t | ldFree runnable | casSig tmp | btr cpuid =>
    simp only [wake_up_task]
    refine .keep rfl ?_
    split <;> rfl
  | _ => exact .keep rfl rfl

/-- Every step but the `bts` of `bm_kicked_vcpus` and the recovery store keeps
    `num_free_vcpu` in step with what its vCPU contributes. -/
theorem counts_step (current : CurrentOk v) (node : ∀ fn ctx, v.pc = .user fn ctx → fn ≠ NULL_FUNC)
    (away : ∀ fn cpuid, v.pc ≠ .wake fn (.bts cpuid)) (plain : v.pc ≠ .reset .stFree)
    (moved : sched id x s v = some (s',v')) : Counts s.wakes v s'.wakes v' := by
  obtain ⟨pc,slot,t1⟩ := v
  cases pc with
  | boot k =>
    obtain rfl : slot = NULL_FUNC := current
    obtain ⟨⟨w,next⟩,woke,same⟩ := Option.map_eq_some_iff.mp moved
    cases same
    cases k with
    | hlt =>
      obtain ⟨w',slept,same⟩ := Option.map_eq_some_iff.mp woke
      cases same
      rcases hlt_some slept with ⟨rfl,-⟩ | ⟨rfl,-⟩ <;> exact .keep rfl rfl
    | btrInactive => cases woke; exact .keep rfl rfl
    | btrKicked =>
      cases woke
      refine .keep rfl ?_
      have bit := btrKicked_counts id s.wakes
      split <;> rename_i found <;> simp [found] at bit <;> simp [own,searching,promises] <;> omega
    | incFree => cases woke; exact .inc rfl (by simp [incFree,own,searching,promises]; omega)
  | enter k =>
    cases k with
    | tsc => cases moved; exact .keep rfl rfl
    | ldCurrent =>
      cases moved
      refine .keep rfl ?_
      by_cases null : slot = NULL_FUNC
      · subst null
        exact own_of s.wakes (searching_goWake s.wakes NULL_FUNC NULL_FUNC t1)
      · simp [own,null,searching,promises]
  | fin fn k =>
    cases moved
    cases k with
    | incFree => exact .inc rfl (by simp [finished,incFree,own,searching,promises]; omega)
    | _ => exact .keep rfl rfl
  | dag fn k =>
    cases moved
    refine .keep rfl ?_
    cases next : (process_sched_dag fn s.tasks k).2 <;> simp [next,own,searching,promises]
  | clrCurrent fn =>
    cases moved
    exact .keep rfl (own_of s.wakes (searching_goWake s.wakes fn NULL_FUNC t1))
  | wake fn k => cases moved; exact wake_counts fun cpuid same => away fn cpuid (by rw [same])
  | incFin fn => cases moved; exact .keep rfl rfl
  | scan k =>
    cases moved
    refine .keep rfl ?_
    cases next : (get_work s.tasks k).2 <;> simp [next,own,searching,promises]
  | noWork k =>
    cases moved
    cases k with
    | decFree => exact .dec rfl (by simp [noWork,decFree,own,searching,promises]; omega)
    | ldTot => exact .keep rfl rfl
    | cas tot_fn =>
      refine .keep rfl ?_
      simp only [noWork]
      split <;> rfl
  | reset k =>
    cases moved
    cases k with
    | ldStart | ldKicked | popcnt | ldDag =>
      refine .keep rfl ?_
      simp only [reset]
      split <;> rfl
    | exit => cases installed : x.host <;> simp only [reset,installed] <;> exact .keep rfl rfl
    | incFree => exact .inc rfl (by simp [reset,incFree,own,searching,promises]; omega)
    | stFree => exact absurd rfl plain
    | _ => exact .keep rfl rfl
  | halt k =>
    obtain ⟨⟨w,b,t,next,e⟩,slept,same⟩ := Option.map_eq_some_iff.mp moved
    cases same
    cases k with
    | hlt =>
      obtain ⟨w',woke,same⟩ := Option.map_eq_some_iff.mp slept
      cases same
      rcases hlt_some woke with ⟨rfl,-⟩ | ⟨rfl,-⟩ <;> exact .keep rfl rfl
    | btrKicked =>
      cases slept
      refine .keep rfl ?_
      have bit := btrKicked_counts id s.wakes
      split <;> rename_i found <;> simp [found] at bit <;> simp [own,searching,promises] <;> omega
    | incFree => cases slept; exact .inc rfl (by simp [incFree,own,searching,promises]; omega)
    | _ => cases slept; exact .keep rfl rfl
  | work fn k =>
    cases moved
    cases k with
    | decFree => exact .dec rfl (by simp [jump2fn,decFree,own,searching,promises]; omega)
    | _ => exact .keep rfl rfl
  | user fn ctx =>
    obtain rfl : slot = fn := current
    have other := node slot ctx rfl
    cases moved
    exact .keep rfl (by simp [own,other,searching,promises])

/-- The recovery store. -/
theorem stFree_step (pc : v.pc = .reset .stFree) (moved : sched id x s v = some (s',v')) :
    s'.wakes.num_free_vcpu = 1 ∧ own s'.wakes v' = own s.wakes v := by
  obtain ⟨before,slot,t1⟩ := v
  cases pc
  cases moved
  exact ⟨rfl,rfl⟩

/-- The `bts` of `bm_kicked_vcpus` turns a promise into a bit, or into nothing when
    the bit is set already. -/
theorem bts_step {fn cpuid : Nat} (pc : v.pc = .wake fn (.bts cpuid)) (low : cpuid < 64)
    (moved : sched id x s v = some (s',v')) :
    s'.wakes.num_free_vcpu = s.wakes.num_free_vcpu ∧
      own s'.wakes v' + (s.wakes.bm_kicked_vcpus.getLsbD cpuid).toNat = own s.wakes v := by
  obtain ⟨before,slot,t1⟩ := v
  cases pc
  cases moved
  refine ⟨rfl,?_⟩
  simp only [wake_up_task,own,searching,promises,Option.map_some,Option.getD_some]
  cases bit : s.wakes.bm_kicked_vcpus.getLsbD cpuid with
  | true =>
    have change := popcnt_change (x := s.wakes.bm_kicked_vcpus) (y := bts s.wakes.bm_kicked_vcpus cpuid) low
      (by intro j other; simp [other.symm])
    simp only [getLsbD_bts,bit,Bool.true_or] at change
    simp only [Bool.toNat_true] at change ⊢
    omega
  | false =>
    have change := popcnt_bts low bit
    simp only [Bool.toNat_false]
    omega

/-- An id that a vCPU has in hand came out of a `bsf`. -/
theorem target_step (low : ∀ c, target v.pc = some c → c < 64) (moved : sched id x s v = some (s',v')) :
    ∀ c, target v'.pc = some c → c < 64 := by
  by_cases inWake : ∃ fn k, v.pc = .wake fn k
  · obtain ⟨fn,k,pc⟩ := inWake
    obtain ⟨-,after,-⟩ := inside_wake moved pc
    rw [pc] at low
    rw [after]
    have out : target (afterWake fn) = none := target_calm (calm_afterWake fn)
    cases k with
    | bsf =>
      simp only [wake_up_task]
      split
      · rename_i c found
        intro c' is
        cases is
        exact (bsf_some found).2
      · simp [out]
    | bsf1 | btr1 c | ldKick1 c t | ldFree runnable | casSig tmp =>
      simp only [wake_up_task]
      split <;> simp [target]
    | xadd =>
      simp only [wake_up_task]
      split
      · split <;> simp [target]
      · simp [out]
    | btr c | ldKick c t =>
      have old := low c rfl
      simp only [wake_up_task]
      split <;> simp [target,old]
    | ldHlt c | incFree c | tsc c | stKick c t | bts c | kick c =>
      have old := low c rfl
      simp [wake_up_task,target,old]
    | _ => simp [wake_up_task,target]
  · obtain ⟨e,effect,-⟩ := outside_wake moved (by simpa using inWake)
    have none_ : target v'.pc = none := by
      generalize v.pc = pc,v'.pc = pc',s.wakes = w,s'.wakes = w' at effect
      cases effect with
      | calm before after => exact target_calm after
      | wipe wiped => cases wiped <;> rfl
      | timed before after =>
        cases pc' with
        | wake fn k => cases k <;> cases after
        | _ => rfl
      | _ => rfl
    simp [none_]

end

section
variable {p : Nat} {d : Metadata}

/-- What holds of each vCPU by itself, with one task graph from the image on. -/
structure Local (d : Metadata) (s : Config (Fin p) Shared Vcpu) : Prop where
  metadata : s.shared.tasks.metadata = d
  ok : ∀ i, PcOk d (s.loc i)
  owns : ∀ i fn, (role (s.loc i)).owns fn = 1 → fn < d.num_nodes
  adds : ∀ i fn, (role (s.loc i)).adds fn = 1 → fn < d.num_nodes
  runnable : ∀ fn, runnable s.shared.tasks fn = true → fn < d.num_nodes
  tot : ∀ i tot_fn, (s.loc i).pc = .noWork (.cas tot_fn) → tot_fn = d.num_nodes
  target : ∀ i c, target (s.loc i).pc = some c → c < 64

/-- Only nodes of the graph come up. -/
theorem nodes_step {host : Metadata → Prop} {t t' : Tasks} {r r' : Role} {e : Option Ev} (valid : Valid t.metadata)
    (owns : ∀ fn, r.owns fn = 1 → fn < t.metadata.num_nodes) (adds : ∀ fn, r.adds fn = 1 → fn < t.metadata.num_nodes)
    (inside : ∀ fn, runnable t fn = true → fn < t.metadata.num_nodes) (step : TaskStep host t r t' r' e) :
    (∀ fn, r'.owns fn = 1 → fn < t.metadata.num_nodes) ∧ (∀ fn, r'.adds fn = 1 → fn < t.metadata.num_nodes) ∧
      ∀ fn, runnable t' fn = true → fn < t.metadata.num_nodes := by
  cases step with
  | seed => exact ⟨owns,by simpa [Role.adds] using valid.start_lt,inside⟩
  | seedBts | addBts =>
    have out := adds _ (if_pos rfl)
    refine ⟨owns,by simp [Role.adds],?_⟩
    intro f set
    rw [runnable_add,Bool.or_eq_true,decide_eq_true_eq] at set
    rcases set with old | rfl
    · exact inside f old
    · exact out
  | claim set =>
    refine ⟨by simpa [Role.owns] using inside _ set,adds,?_⟩
    intro f still
    rw [runnable_claim,Bool.and_eq_true] at still
    exact inside f still.1
  | release lt low high zero => exact ⟨owns,by simpa [Role.adds] using valid.target lt low high,inside⟩
  | turnover | install | recover | copy | copied | copiedAll | count =>
    exact ⟨by simp [Role.owns],by simp [Role.adds],inside⟩
  | done => exact ⟨owns,by simp [Role.adds],inside⟩
  | _ => exact ⟨owns,adds,inside⟩

theorem Local.step {s s' : Config (Fin p) Shared Vcpu} {a : Fin p × Input} (valid : Valid d) (known : Local d s)
    (keeps : ∀ d' ∈ a.2.host, d' = d) (moved : (pool p (· = d)).step s a = some s') : Local d s' := by
  obtain ⟨sh,ran,shared,others⟩ := pool_frame moved
  have tasks : s'.shared.tasks = sh.tasks := by rw [shared]
  have same := known.metadata
  have sim : Simulates (· = d) s.shared (s.loc a.1) sh (s'.loc a.1) := sched_step (same ▸ valid)
    (same ▸ known.owns a.1) keeps (fun tot_fn pc _ => same ▸ known.tot a.1 tot_fn pc) (same ▸ known.ok a.1) ran
  obtain ⟨e,lives,-,ok⟩ := sim
  rw [← tasks] at lives ok
  have kept : s'.shared.tasks.metadata = d := by
    rcases metadata_step lives with old | ⟨-,-,supplied⟩
    · exact old.trans same
    · exact supplied
  obtain ⟨owns,adds,inside⟩ := nodes_step (same ▸ valid) (same ▸ known.owns a.1) (same ▸ known.adds a.1)
    (same ▸ known.runnable) lives
  rw [same] at owns adds inside
  have each : ∀ {P : Vcpu → Prop}, (∀ i, P (s.loc i)) → P (s'.loc a.1) → ∀ i, P (s'.loc i) :=
    fun old new => forall_of_others (P := fun _ v => _) others new fun i _ => old i
  exact {
    metadata := kept
    ok := each known.ok (kept ▸ ok)
    owns := each (P := fun v => ∀ fn, (role v).owns fn = 1 → fn < d.num_nodes) known.owns owns
    adds := each (P := fun v => ∀ fn, (role v).adds fn = 1 → fn < d.num_nodes) known.adds adds
    runnable := inside
    tot := each (P := fun v => ∀ tot_fn, v.pc = .noWork (.cas tot_fn) → tot_fn = d.num_nodes) known.tot
      fun tot_fn pc => same ▸ cas_step ran pc
    target := each (P := fun v => ∀ c, FreeCount.target v.pc = some c → c < 64) known.target
      (target_step (known.target a.1) ran) }

theorem searching_le (v : Vcpu) : searching v ≤ 1 := by
  unfold searching
  split <;> first | omega | (split <;> omega)

theorem promises_le (v : Vcpu) : promises v ≤ 1 := by
  unfold promises
  split <;> omega

/-- The sum is far from overflowing. -/
theorem counted_lt (most : p ≤ 63) (s : Config (Fin p) Shared Vcpu) : counted s + 1 < 2 ^ 64 := by
  have all : ∀ w : Vcpu → Nat, (∀ v, w v ≤ 1) → tally w s.loc ≤ p := by
    intro w le
    have each : tally w s.loc ≤ tally (fun _ => 1) s.loc * 1 := tally_le_mul (fun v => le v) s.loc
    simpa [tally] using each
  have searchers := all searching searching_le
  have promised := all promises promises_le
  have bits := popcnt_le s.shared.wakes.bm_kicked_vcpus
  unfold counted
  omega

/-- The sum changes as the contribution of the vCPU that moves. -/
theorem counted_step {s s' : Config (Fin p) Shared Vcpu} {a : Fin p × Input} (moved : (pool p (· = d)).step s a = some s') :
    counted s' + own s.shared.wakes (s.loc a.1) = counted s + own s'.shared.wakes (s'.loc a.1) := by
  obtain ⟨sh,l,-,rfl⟩ := pool_step moved
  have searchers := tally_update searching s.loc a.1 l
  have promised := tally_update promises s.loc a.1 l
  simp only [counted,own,Function.update_self]
  omega

/-- Only vCPU `i` is counted. -/
theorem counted_one {s : Config (Fin p) Shared Vcpu} {i : Fin p} (one : searching (s.loc i) = 1)
    (none : promises (s.loc i) = 0) : counted s = 1 ↔ s.shared.wakes.bm_kicked_vcpus = 0 ∧
      ∀ j, j ≠ i → searching (s.loc j) = 0 ∧ promises (s.loc j) = 0 := by
  have searchers : tally searching s.loc = searching (s.loc i) ↔ _ := tally_eq_self
  have promised : tally promises s.loc = promises (s.loc i) ↔ _ := tally_eq_self
  have least := le_tally searching s.loc i
  rw [one] at searchers least
  rw [none] at promised
  constructor
  · intro sum
    unfold counted at sum
    have alone := searchers.mp (by omega)
    have silent := promised.mp (by omega)
    exact ⟨eq_zero_of_popcnt (by omega),fun j other => ⟨alone j other,silent j other⟩⟩
  · rintro ⟨zero,others⟩
    unfold counted
    rw [searchers.mpr fun j other => (others j other).1,promised.mpr fun j other => (others j other).2,zero]
    simp

/-- The recovery store keeps the account exactly when its vCPU is the only one counted. -/
theorem stFree_accounted {s s' : Config (Fin p) Shared Vcpu} {a : Fin p × Input} (store : (s.loc a.1).pc = .reset .stFree)
    (moved : (pool p (· = d)).step s a = some s') :
    s'.shared.wakes.num_free_vcpu.toNat = counted s' ↔ counted s = 1 := by
  have sum := counted_step moved
  obtain ⟨sh,ran,shared,-⟩ := pool_frame moved
  obtain ⟨one,same⟩ := stFree_step store ran
  rw [show sh.wakes = s'.shared.wakes by rw [shared]] at one same
  rw [one,show counted s' = counted s by omega]
  exact eq_comm

/-- The `bts` of `bm_kicked_vcpus` keeps the account exactly when it finds the bit clear. -/
theorem bts_accounted {s s' : Config (Fin p) Shared Vcpu} {a : Fin p × Input} {fn cpuid : Nat}
    (pc : (s.loc a.1).pc = .wake fn (.bts cpuid)) (low : cpuid < 64) (free : s.shared.wakes.num_free_vcpu.toNat = counted s)
    (moved : (pool p (· = d)).step s a = some s') :
    s'.shared.wakes.num_free_vcpu.toNat = counted s' ↔ s.shared.wakes.bm_kicked_vcpus.getLsbD cpuid = false := by
  have sum := counted_step moved
  obtain ⟨sh,ran,shared,-⟩ := pool_frame moved
  obtain ⟨kept,change⟩ := bts_step pc low ran
  rw [show sh.wakes = s'.shared.wakes by rw [shared]] at kept change
  rw [kept,free]
  cases set : s.shared.wakes.bm_kicked_vcpus.getLsbD cpuid <;> simp [set] at change ⊢ <;> omega

/-- Every other step counts up or down by one, together with what it counts. -/
theorem counts_accounted {s s' : Config (Fin p) Shared Vcpu} {a : Fin p × Input} (most : p ≤ 63)
    (counts : Counts s.shared.wakes (s.loc a.1) s'.shared.wakes (s'.loc a.1))
    (free : s.shared.wakes.num_free_vcpu.toNat = counted s) (moved : (pool p (· = d)).step s a = some s') :
    s'.shared.wakes.num_free_vcpu.toNat = counted s' := by
  have sum := counted_step moved
  have small := counted_lt most s
  have one : (1 : Word).toNat = 1 := rfl
  cases counts with
  | keep kept same =>
    rw [kept,free]
    omega
  | inc kept more =>
    rw [kept,BitVec.toNat_add,free,one,Nat.mod_eq_of_lt small]
    omega
  | dec kept less =>
    have enough : (1 : Word) ≤ s.shared.wakes.num_free_vcpu := by
      rw [BitVec.le_def,free]
      omega
    rw [kept,BitVec.toNat_sub_of_le enough,free]
    omega

/-- A step of a vCPU keeps the account exactly when it is `StepOk`. -/
theorem vcpu_accounted {s s' : Config (Fin p) Shared Vcpu} {a : Fin p × Input} {phase : Phase} (most : p ≤ 63)
    (valid : Valid d) (known : Local d s) (after : phase ≠ .pre) (account : Accounted ⟨phase,s⟩)
    (moved : (pool p (· = d)).step s a = some s') : Accounted ⟨phase,s'⟩ ↔ StepOk ⟨phase,s⟩ (.vcpu a) := by
  have free : s.shared.wakes.num_free_vcpu.toNat = counted s := account after
  have goal : Accounted ⟨phase,s'⟩ ↔ s'.shared.wakes.num_free_vcpu.toNat = counted s' :=
    ⟨fun holds => holds after,fun holds _ => holds⟩
  rw [goal]
  by_cases store : (s.loc a.1).pc = .reset .stFree
  · have alone := counted_one (s := s) (i := a.1) (by simp [searching,store]) (by simp [promises,store])
    have asked : StepOk ⟨phase,s⟩ (.vcpu a) ↔ counted s = 1 := by simp [StepOk,store,after,alone]
    rw [asked]
    exact stFree_accounted store moved
  by_cases bit : ∃ fn cpuid, (s.loc a.1).pc = .wake fn (.bts cpuid)
  · obtain ⟨fn,cpuid,pc⟩ := bit
    have asked : StepOk ⟨phase,s⟩ (.vcpu a) ↔ s.shared.wakes.bm_kicked_vcpus.getLsbD cpuid = false := by
      simp [StepOk,pc,after]
    rw [asked]
    exact bts_accounted pc (known.target a.1 cpuid (by rw [pc]; rfl)) free moved
  · have fine : StepOk ⟨phase,s⟩ (.vcpu a) := by
      intro _
      split
      · rename_i fn cpuid pc
        exact absurd ⟨fn,cpuid,pc⟩ bit
      · rename_i pc
        exact absurd pc store
      · trivial
    have node : ∀ fn ctx, (s.loc a.1).pc = .user fn ctx → fn ≠ NULL_FUNC := by
      intro fn ctx pc null
      have lt := known.owns a.1 fn (by simp [role,pc,Role.owns])
      have few := valid.num_nodes_lt
      unfold NULL_FUNC at null
      omega
    obtain ⟨sh,ran,shared,-⟩ := pool_frame moved
    have counts := counts_step (known.ok a.1).current node (fun fn cpuid pc => bit ⟨fn,cpuid,pc⟩) store ran
    rw [show sh.wakes = s'.shared.wakes by rw [shared]] at counts
    exact ⟨fun _ => fine,fun _ => counts_accounted most counts free moved⟩

/-! ### Runs of the machine -/

/-- What holds in every state: each vCPU by itself, and vCPU 0 waits until it has
    initialised. -/
structure MachineInv (d : Metadata) (m : Machine p) : Prop where
  known : Local d m.config
  waits : m.phase ≠ .up → ∀ i : Fin p, i.val = 0 → m.config.loc i = bootVcpu 0

theorem MachineInv.start {m : Machine p} (first : (machine p d).init m) : MachineInv d m := by
  obtain ⟨dag_in_count,book,rfl⟩ := first
  have idle : ∀ i : Fin p, role (bootVcpu i.val) = .idle ∧ target (bootVcpu i.val).pc = none ∧
      (∀ tot_fn, (bootVcpu i.val).pc ≠ .noWork (.cas tot_fn)) ∧ PcOk d (bootVcpu i.val) := by
    intro i
    by_cases zero : i.val = 0 <;> simp only [bootVcpu,zero,if_true,if_false]
    · exact ⟨rfl,rfl,(by simp),⟨trivial,trivial⟩⟩
    · exact ⟨rfl,rfl,(by simp),⟨rfl,trivial⟩⟩
  refine ⟨?_,fun _ i zero => by simp only [zero]⟩
  exact {
    metadata := rfl
    ok := fun i => (idle i).2.2.2
    owns := fun i fn one => by simp [(idle i).1,Role.owns] at one
    adds := fun i fn one => by simp [(idle i).1,Role.adds] at one
    runnable := fun fn set => by simp [image,Tasks.runnable] at set
    tot := fun i tot_fn pc => absurd pc ((idle i).2.2.1 tot_fn)
    target := fun i c is => by simp [(idle i).2.1] at is }

/-- The initialisations touch nothing that `Local` speaks of. -/
theorem Local.init {s : Config (Fin p) Shared Vcpu} {sh : Shared} (known : Local d s)
    (metadata : sh.tasks.metadata = s.shared.tasks.metadata) (bits : sh.tasks.bm_run_fn = s.shared.tasks.bm_run_fn) :
    Local d { s with shared := sh } where
  metadata := metadata.trans known.metadata
  ok := known.ok
  owns := known.owns
  adds := known.adds
  runnable fn set := known.runnable fn (by simpa only [Tasks.runnable,bits] using set)
  tot := known.tot
  target := known.target

theorem MachineInv.step {m m' : Machine p} {a : Label p} (valid : Valid d) (inv : MachineInv d m) (keeps : a.keeps d)
    (moved : (machine p d).step m a = some m') : MachineInv d m' := by
  cases a with
  | init_pre =>
    obtain ⟨phase,rfl⟩ : m.phase = .pre ∧ _ = m' := by simpa [machine] using moved
    exact ⟨inv.known.init rfl rfl,fun _ => inv.waits (by rw [phase]; simp)⟩
  | init_post t =>
    obtain ⟨phase,rfl⟩ : m.phase = .post ∧ _ = m' := by simpa [machine] using moved
    exact ⟨inv.known.init rfl rfl,fun down => absurd rfl down⟩
  | vcpu a =>
    obtain ⟨awake,s,ran,rfl⟩ : ¬ (a.1.val = 0 ∧ m.phase ≠ .up) ∧
      ∃ s, (pool p (· = d)).step m.config a = some s ∧ _ = m' := by simpa [machine] using moved
    refine ⟨inv.known.step valid keeps ran,?_⟩
    intro down i zero
    obtain ⟨-,-,-,others⟩ := pool_frame ran
    have other : i ≠ a.1 := fun same => awake ⟨same ▸ zero,down⟩
    exact (others i other).trans (inv.waits down i zero)

/-- Every step keeps the account exactly when it is `StepOk`. -/
theorem step_accounted {m m' : Machine p} {a : Label p} (pos : 0 < p) (most : p ≤ 63) (valid : Valid d)
    (inv : MachineInv d m) (account : Accounted m) (moved : (machine p d).step m a = some m') :
    Accounted m' ↔ StepOk m a := by
  cases a with
  | init_pre =>
    obtain ⟨phase,rfl⟩ : m.phase = .pre ∧ _ = m' := by simpa [machine] using moved
    have boots := inv.waits (by rw [phase]; simp) ⟨0,pos⟩ rfl
    have alone := counted_one (s := { m.config with shared := scheduler_init_pre p m.config.shared }) (i := ⟨0,pos⟩)
      (by simp only [boots]; rfl) (by simp only [boots]; rfl)
    constructor
    · intro account i other
      exact (alone.mp (account (by simp)).symm).2 i fun same => other (Fin.ext_iff.mp same)
    · intro fine _
      exact (alone.mpr ⟨rfl,fun i other => fine i fun zero => other (Fin.ext zero)⟩).symm
  | init_post t =>
    obtain ⟨phase,rfl⟩ : m.phase = .post ∧ _ = m' := by simpa [machine] using moved
    exact ⟨fun _ => trivial,fun _ _ => account (by rw [phase]; simp)⟩
  | vcpu a =>
    obtain ⟨-,s,ran,rfl⟩ : ¬ (a.1.val = 0 ∧ m.phase ≠ .up) ∧
      ∃ s, (pool p (· = d)).step m.config a = some s ∧ _ = m' := by simpa [machine] using moved
    by_cases before : m.phase = .pre
    · exact ⟨fun _ after => absurd before after,fun _ after => absurd before after⟩
    · exact vcpu_accounted most valid inv.known before account ran

/-- In a run, `num_free_vcpu` is always what it should be exactly when every step
    is `StepOk`. -/
theorem free_accounted (pos : 0 < p) (most : p ≤ 63) (valid : Valid d) {l : List (Machine p × Label p)} {m : Machine p}
    (run : Run (machine p d) l m) (keeps : ∀ x ∈ l, x.2.keeps d) :
    ((∀ x ∈ l, Accounted x.1) ∧ Accounted m) ↔ ∀ x ∈ l, StepOk x.1 x.2 := by
  have start : ∀ m, (machine p d).init m → MachineInv d m ∧ Accounted m := by
    intro m first
    refine ⟨.start first,?_⟩
    obtain ⟨_,_,rfl⟩ := first
    simp [Accounted]
  have keep : ∀ (m : Machine p) (a : Label p) m', MachineInv d m → a.keeps d → (machine p d).step m a = some m' →
      MachineInv d m' := fun _ _ _ inv keeps moved => inv.step valid keeps moved
  have decides : ∀ (m : Machine p) (a : Label p) m', MachineInv d m → a.keeps d → Accounted m →
      (machine p d).step m a = some m' → (Accounted m' ↔ StepOk m a) :=
    fun _ _ _ inv _ account moved => step_accounted pos most valid inv account moved
  exact run.all_iff start keep decides keeps

/-- The image on a page that is zero outside `metadata`. -/
def imaged (p : Nat) (metadata : Metadata) : Machine p :=
  ⟨.pre,⟨image metadata (fun _ => 0) ⟨fun _ => 0,fun _ => 0,0,0,0,0,0,fun _ => 0⟩,fun i => bootVcpu i.val⟩⟩
/-- Both initialisations, then the steps of a schedule. -/
def booting {p : Nat} (steps : List (Fin p × Input)) : List (Label p) :=
  .init_pre :: .init_post 1 :: steps.map .vcpu

theorem booting_keeps {steps : List (Fin p × Input)} (alone : ∀ a ∈ steps, a.2.host = none) :
    ∀ a ∈ booting steps, a.keeps d := by
  intro a member
  cases a with
  | vcpu a =>
    obtain ⟨b,inside,same⟩ : ∃ b ∈ steps, Label.vcpu b = .vcpu a := by simpa [booting] using member
    cases same
    intro d' installed
    rw [alone a inside] at installed
    cases installed
  | _ => trivial

/-- vCPU 0 passes the recovery store, runs node 0 and kicks vCPU 1 before it runs node 1. -/
theorem free_accounted_fork : ∃ (l : List (Machine 2 × Label 2)) (m : Machine 2), Run (machine 2 fork) l m ∧ m.phase = .up ∧
    m.config.shared.wakes.bm_kicked_vcpus = 2 ∧ (((∀ x ∈ l, Accounted x.1) ∧ Accounted m) ↔ ∀ x ∈ l, StepOk x.1 x.2) := by
  let P : Machine 2 → Bool := fun m => decide (m.phase = .up) && decide (m.config.shared.wakes.bm_kicked_vcpus = 2)
  have ran : (exec (machine 2 fork) (imaged 2 fork) (booting (schedule 2 [(0,111)]))).any P = true := by decide +kernel
  obtain ⟨m,ran,holds⟩ := (Option.any_eq_true _ _).mp ran
  simp only [P,Bool.and_eq_true,decide_eq_true_eq] at holds
  have first : (machine 2 fork).init (imaged 2 fork) := ⟨_,_,rfl⟩
  obtain ⟨l,run,labels⟩ := exec_run (.init first) ran
  have keeps : ∀ x ∈ l, x.2.keeps fork := by
    intro x member
    have label : x.2 ∈ l.map Prod.snd := List.mem_map_of_mem member
    rw [labels,List.map_nil,List.append_nil,List.mem_reverse] at label
    exact booting_keeps (fun a inside => (schedule_input inside).1) x.2 label
  exact ⟨l,m,run,holds.1,holds.2,free_accounted (by decide) (by decide) fork_valid run keeps⟩

/-- vCPU 1 leaves its boot `hlt` and counts itself between vCPU 0's two reads and
    its recovery store. -/
theorem recovery_store : ¬ ∀ m, Reach (machine 2 edge) (fun _ a => a.keeps edge) m → Accounted m := by
  intro accounted
  let P : Machine 2 → Bool := fun m =>
    decide (m.phase ≠ .pre) && decide (m.config.shared.wakes.num_free_vcpu.toNat ≠ counted m.config)
  have ran : (exec (machine 2 edge) (imaged 2 edge)
      (booting (schedule 2 [(0,29)] ++ (1,{ intr := true }) :: schedule 31 [(1,3),(0,1)]))).any P = true := by decide +kernel
  have first : (machine 2 edge).init (imaged 2 edge) := ⟨_,_,rfl⟩
  have alone : ∀ a ∈ schedule 2 [((0 : Fin 2),29)] ++ (1,{ intr := true }) :: schedule 31 [((1 : Fin 2),3),(0,1)],
    a.2.host = none := by
    intro a member
    rcases List.mem_append.mp member with old | new
    · exact (schedule_input old).1
    · rcases List.mem_cons.mp new with rfl | later
      · rfl
      · exact (schedule_input later).1
  obtain ⟨m,reach,holds⟩ := exec_exists first (fun a member _ => booting_keeps alone a member) ran
  simp only [P,Bool.and_eq_true,decide_eq_true_eq] at holds
  exact holds.2 (accounted m reach holds.1)

end
end Bootcode.FreeCount
