import Bootcode.Awake
import Bootcode.Potential

/-!
Every epoch ends, whichever vCPUs take the steps. A program counter is worth what
the vCPU may still do before its `hlt`; so are a pending wake-up, a bit of a
snapshot, a runnable function and a function that still waits for others. Each step
pays for the next out of that, except the CAS that ends the epoch, a spurious
wake-up and an intervention of the host. A user function is taken to return.
-/
namespace Bootcode.EpochBound
open Bootcode.Bits Bootcode.SchedState Bootcode.Interleave Bootcode.Sched Bootcode.Graph Bootcode.Tasks Bootcode.TaskSteps
open Bootcode.SchedSteps Bootcode.Roles Bootcode.Epochs Bootcode.Awake Bootcode.Potential
set_option linter.unusedSimpArgs false

/-- A wake-up from a `hlt` to the next. -/
def tokenCost : Nat := 27
/-- A lost race for a bit: another look, or a turn with the index that was lost. -/
def raceCost : Nat := 36
/-- The kick of one vCPU, and that all others may have found the same bit. -/
def bitCost (p : Nat) : Nat := raceCost * p + 40
/-- One function, from its bit in the bitmap to the search that follows it; its
    `wake_up_task` may kick each vCPU twice. -/
def taskCost (p : Nat) : Nat := 128 * bitCost p + raceCost * p + 826

def haltCost : HaltPc → Nat
  | .tsc => 6
  | .stHlt _ => 5
  | .ldHlt => 4
  | .addTs _ => 3
  | .incN => 2
  | .bts => 1
  | .hlt => 0
  | .btrInactive => 26
  | .btrKicked => 25
  | .incFree => 24
  | .tscOut => 23

def noWorkCost : NoWorkPc → Nat
  | .decFree => 9
  | .ldTot => 8
  | .cas _ => 7

/-- A `btr` that loses the race is followed by another `bsf`. -/
def scanCost : ScanPc → Nat
  | .bsf idx => 10 + 3 * (4 - idx)
  | .btr idx _ => 9 + 3 * (4 - idx)

def wakeCost (p : Nat) : WakePc → Nat
  | .ldKicked => 128 * bitCost p + 37
  | .dcas1 _ => 128 * bitCost p + 36
  | .bsf1 none => 64 * bitCost p + 35
  | .bsf1 (some _) => 64 * bitCost p + 69
  | .btr1 _ => 64 * bitCost p + 34
  | .tsc1 _ _ => 64 * bitCost p + 68
  | .ldKick1 _ _ _ => 64 * bitCost p + 67
  | .tsc2 _ _ => 64 * bitCost p + 66
  | .stKick1 _ _ _ => 64 * bitCost p + 65
  | .kick1 _ _ => 64 * bitCost p + 64
  | .rel1 _ _ => 64 * bitCost p + 36
  | .ldRunnable => 64 * bitCost p + 33
  | .ldFree _ => 64 * bitCost p + 32
  | .casSig _ => 64 * bitCost p + 31
  | .stWakeNum _ => 64 * bitCost p + 30
  | .ldInactive => 64 * bitCost p + 29
  | .dcas _ => 64 * bitCost p + 28
  | .xadd => 27
  | .stSig => 26
  | .bsf => 25
  | .btr _ => 24
  | .ldHlt _ => 62
  | .ldKick _ _ => 61
  | .incFree _ => 60
  | .tsc _ => 59
  | .stKick _ _ => 58
  | .bts _ => 57
  | .kick _ => 56
  | .rel _ => 28
  | .skip _ => 26

def dagCost (p : Nat) : DagPc → Nat
  | .ldNodes => 128 * bitCost p + 807
  | .ldFirst _ => 128 * bitCost p + 806
  | .ldLast _ _ => 128 * bitCost p + 805
  | .loop i e => 128 * bitCost p + 39 + 3 * (e - i)
  | .dec i e _ => 128 * bitCost p + 38 + 3 * (e - i)
  | .inc i e _ => taskCost p + 128 * bitCost p + 38 + 3 * (e - i)
  | .bts i e _ => taskCost p + 128 * bitCost p + 37 + 3 * (e - i)

def finCost (p : Nat) : FinPc → Nat
  | .incFree => 128 * bitCost p + 811
  | .tsc => 128 * bitCost p + 810
  | .ldTime _ => 128 * bitCost p + 809
  | .stTime _ => 128 * bitCost p + 808

def enterCost (p : Nat) : EnterPc → Nat
  | .tsc => 128 * bitCost p + 813
  | .ldCurrent => 128 * bitCost p + 812

def bootCost (p : Nat) : BootPc → Nat
  | .hlt => 128 * bitCost p + 817
  | .btrInactive => 128 * bitCost p + 816
  | .btrKicked => 128 * bitCost p + 815
  | .incFree => 128 * bitCost p + 814

def workCost (p : Nat) : WorkPc → Nat
  | .decFree => 128 * bitCost p + 825
  | .decRunnable => 128 * bitCost p + 824
  | .tsc => 128 * bitCost p + 823
  | .addTs _ => 128 * bitCost p + 822
  | .incN => 128 * bitCost p + 821
  | .stCurrent => 128 * bitCost p + 820
  | .ldInfo => 128 * bitCost p + 819
  | .stPg _ => 128 * bitCost p + 818
  | .tscFn _ => 128 * bitCost p + 817
  | .stFn _ _ => 128 * bitCost p + 816
  | .jump _ => 128 * bitCost p + 815

/-- The epoch reset pays for the counts that its `memcpy` stores. -/
def countsCost (p : Nat) : Nat := 256 * (taskCost p + 3)

def resetCost (p : Nat) : ResetPc → Nat
  | .ldStart => taskCost p + countsCost p + 46
  | .tscTot => taskCost p + countsCost p + 45
  | .ldTot _ => taskCost p + countsCost p + 44
  | .stTot _ => taskCost p + countsCost p + 43
  | .ldInp => taskCost p + countsCost p + 42
  | .stInp _ => taskCost p + countsCost p + 41
  | .outw => taskCost p + countsCost p + 40
  | .exit => taskCost p + countsCost p + 39
  | .incFree => taskCost p + countsCost p + 38
  | .tsc => taskCost p + countsCost p + 37
  | .stStart _ => taskCost p + countsCost p + 36
  | .clr0 => taskCost p + countsCost p + 35
  | .clr1 => taskCost p + countsCost p + 34
  | .clr10 => taskCost p + countsCost p + 33
  | .clr11 => taskCost p + countsCost p + 32
  | .ldKicked => taskCost p + countsCost p + 31
  | .popcnt => taskCost p + countsCost p + 30
  | .stFree => taskCost p + countsCost p + 29
  | .stRunnable => taskCost p + countsCost p + 28
  | .ldNodes => taskCost p + countsCost p + 27
  | .ldDag i len => taskCost p + 26 + (len - i) * (taskCost p + 3)
  | .stCount i len _ => taskCost p + 25 + (len - i) * (taskCost p + 3)
  | .ldStartFunc => taskCost p + 25
  | .inc _ => taskCost p + 24
  | .bts _ => taskCost p + 23

def cost (p : Nat) : Pc → Nat
  | .boot k => bootCost p k
  | .enter k => enterCost p k
  | .fin _ k => finCost p k
  | .dag _ k => dagCost p k
  | .clrCurrent _ => 128 * bitCost p + 38
  | .wake _ k => wakeCost p k
  | .incFin _ => 23
  | .scan k => scanCost k
  | .noWork k => noWorkCost k
  | .reset k => resetCost p k
  | .halt k => haltCost k
  | .work _ k => workCost p k
  | .user _ _ => 128 * bitCost p + 814

/-- A vCPU that is about to claim a bit that is gone has to look again. -/
def missing (x : Word) (i : Nat) : Nat := if x.getLsbD i then 0 else raceCost
def stale (s : Shared) : Pc → Nat
  | .scan (.btr idx rax) => missing (s.tasks.bm_run_fn idx) rax
  | .wake _ (.btr1 cpuid) => missing s.wakes.ss_reflective_bm1.word0 cpuid
  | .wake _ (.btr cpuid) => missing s.wakes.ss_reflective_bm.word0 cpuid
  | _ => 0

/-- The pending wake-ups, and the functions that wait for others. -/
def tokens (w : Wakes) : Nat := ∑ id ∈ Finset.range 64, (w.token id).toNat
def waiting (t : Tasks) : Nat := ∑ fn ∈ Finset.range 256, if t.dag_in_count fn = 0 then 0 else 1

def store (p : Nat) (s : Shared) : Nat :=
  tokenCost * tokens s.wakes + bitCost p * popcnt s.wakes.ss_reflective_bm1.word0 +
    bitCost p * popcnt s.wakes.ss_reflective_bm.word0 + taskCost p * runnableCount s.tasks +
      (taskCost p + 1) * waiting s.tasks

/-- What the environment grants: spurious wake-ups, and what the host does in its exit. -/
def grant (x : Input) (pc : Pc) : Nat := (if blocked pc ∧ x.intr = true then tokenCost else 0) +
    if x.host.isSome then 1 else 0

/-- What an epoch earns. -/
def epochCost (p : Nat) : Nat := taskCost p + countsCost p + 46

/-- The step is paid for by the vCPU that takes it. -/
def Pays (p : Nat) (x : Input) (s : Shared) (v : Vcpu) (s' : Shared) (v' : Vcpu) : Prop :=
  ∃ k, (∀ pc, stale s' pc ≤ stale s pc + k) ∧
    cost p v'.pc + stale s' v'.pc + store p s' + p * k + (epochCost p * turnovers s.log + 1) ≤
      cost p v.pc + stale s' v.pc + store p s + (epochCost p * turnovers s'.log + grant x v.pc)

section
variable {p id : Nat} {x : Input} {s s' : Shared} {v v' : Vcpu}

theorem turnovers_le (e : Option Ev) (log : List Ev) : turnovers log ≤ turnovers (e.toList ++ log) := by
  unfold turnovers
  rw [List.countP_append]
  omega

theorem missing_le (x : Word) (i : Nat) : missing x i ≤ raceCost := by
  unfold missing
  split <;> omega

theorem missing_mono {x y : Word} {i : Nat} (grows : x.getLsbD i = true → y.getLsbD i = true) :
    missing y i ≤ missing x i := by
  unfold missing
  split
  · omega
  · rename_i clear
    rw [if_neg fun set => clear (grows set)]

theorem stale_le (s : Shared) (pc : Pc) : stale s pc ≤ raceCost := by
  cases pc with
  | scan k | wake fn k => cases k <;> first | exact missing_le _ _ | exact Nat.zero_le raceCost
  | _ => exact Nat.zero_le raceCost

/-- A word that only gains bits makes no vCPU look again. -/
theorem stale_mono (run : ∀ idx i, (s.tasks.bm_run_fn idx).getLsbD i = true → (s'.tasks.bm_run_fn idx).getLsbD i = true)
    (one : ∀ i, s.wakes.ss_reflective_bm1.word0.getLsbD i = true → s'.wakes.ss_reflective_bm1.word0.getLsbD i = true)
    (two : ∀ i, s.wakes.ss_reflective_bm.word0.getLsbD i = true →
      s'.wakes.ss_reflective_bm.word0.getLsbD i = true) (pc : Pc) :
    stale s' pc ≤ stale s pc := by
  cases pc with
  | scan k => cases k <;> first | exact missing_mono (run _ _) | exact Nat.le_refl 0
  | wake fn k => cases k <;> first | exact missing_mono (one _) | exact missing_mono (two _) | exact Nat.le_refl 0
  | _ => exact Nat.le_refl 0

/-- Nothing changes that others wait for or that is stored. -/
structure Same (s s' : Shared) : Prop where
  token : s'.wakes.token = s.wakes.token
  one : s'.wakes.ss_reflective_bm1.word0 = s.wakes.ss_reflective_bm1.word0
  two : s'.wakes.ss_reflective_bm.word0 = s.wakes.ss_reflective_bm.word0
  run : s'.tasks.bm_run_fn = s.tasks.bm_run_fn
  counts : s'.tasks.dag_in_count = s.tasks.dag_in_count

theorem Same.stale (same : Same s s') (pc : Pc) : stale s' pc = stale s pc := by
  unfold EpochBound.stale
  rw [same.run,same.one,same.two]

theorem Same.store (same : Same s s') : store p s' = store p s := by
  unfold EpochBound.store tokens waiting runnableCount
  rw [same.token,same.one,same.two,same.run,same.counts]

theorem pays_same {e : Option Ev} (same : Same s s') (log : s'.log = e.toList ++ s.log)
    (less : cost p v'.pc + stale s v'.pc + 1 ≤ cost p v.pc + stale s v.pc + grant x v.pc) : Pays p x s v s' v' := by
  have later := Nat.mul_le_mul_left (epochCost p) (turnovers_le e s.log)
  refine ⟨0,fun pc => (same.stale pc).le,?_⟩
  rw [same.stale,same.stale,same.store,log]
  omega

/-- A step that adds to what is stored. -/
theorem pays_grow {e : Option Ev} {c : Nat} (grows : ∀ pc, stale s' pc ≤ stale s pc) (log : s'.log = e.toList ++ s.log)
    (stored : store p s' ≤ store p s + c) (calm : ∀ s, stale s v'.pc = 0) (less : cost p v'.pc + c + 1 ≤ cost p v.pc) :
    Pays p x s v s' v' := by
  have later := Nat.mul_le_mul_left (epochCost p) (turnovers_le e s.log)
  refine ⟨0,grows,?_⟩
  rw [calm,log]
  omega

/-- A step that lives on what is stored. -/
theorem pays_spend {e : Option Ev} {c : Nat} (grows : ∀ pc, stale s' pc ≤ stale s pc) (log : s'.log = e.toList ++ s.log)
    (stored : store p s' + c ≤ store p s) (calm : ∀ s, stale s v'.pc = 0) (less : cost p v'.pc + 1 ≤ cost p v.pc + c) :
    Pays p x s v s' v' := by
  have later := Nat.mul_le_mul_left (epochCost p) (turnovers_le e s.log)
  refine ⟨0,grows,?_⟩
  rw [calm,log]
  omega

/-- A step that takes something from what is stored, for which the others have to look again. -/
theorem pays_take {e : Option Ev} {c : Nat} (log : s'.log = e.toList ++ s.log) (stored : store p s' + c ≤ store p s)
    (calm : ∀ s, stale s v'.pc = 0) (less : cost p v'.pc + raceCost * p + 1 ≤ cost p v.pc + c) : Pays p x s v s' v' := by
  have later := Nat.mul_le_mul_left (epochCost p) (turnovers_le e s.log)
  refine ⟨raceCost,fun pc => (stale_le s' pc).trans (Nat.le_add_left raceCost _),?_⟩
  rw [calm,log,Nat.mul_comm p]
  omega

/-- The CAS that ends an epoch. -/
theorem pays_turnover (same : Same s s') (log : s'.log = .turnover id :: s.log)
    (less : cost p v'.pc + stale s v'.pc + 1 ≤ cost p v.pc + stale s v.pc + epochCost p) : Pays p x s v s' v' := by
  have one : turnovers (.turnover id :: s.log) = turnovers s.log + 1 := List.countP_cons_of_pos rfl
  refine ⟨0,fun pc => (same.stale pc).le,?_⟩
  rw [same.stale,same.stale,same.store,log,one,Nat.mul_add]
  omega

theorem cost_afterWake (p fn : Nat) : cost p (afterWake fn) ≤ 23 ∧ stale s (afterWake fn) = 0 := by
  unfold afterWake
  split
  · exact ⟨Nat.le_refl 23,rfl⟩
  · exact ⟨by simp [cost,scanCost],rfl⟩

theorem cost_goWake (p fn : Nat) (w : Wakes) : cost p (goWake w fn) ≤ 128 * bitCost p + 37 ∧ stale s (goWake w fn) = 0 := by
  unfold goWake
  split
  · exact ⟨Nat.le_refl _,rfl⟩
  · obtain ⟨few,calm⟩ := cost_afterWake (s := s) p fn
    exact ⟨by omega,calm⟩

/-! ### Wake-ups -/

theorem tokens_kick (w : Wakes) (cpuid : Nat) : tokens (w.kick cpuid) ≤ tokens w + 1 := by
  have most := sum_raise (n := 64) (i := cpuid) (f := fun id => (w.token id).toNat)
    (g := fun id => ((w.kick cpuid).token id).toNat)
    fun j other => by simp only [Wakes.kick,Function.update_of_ne other]
  simpa [tokens,Wakes.kick] using most

/-- A `hlt` returns by consuming a wake-up or spuriously. -/
theorem tokens_hlt {intr : Bool} {w w' : Wakes} (small : id < 64) (woke : hlt id intr w = some w') :
    (intr = true ∧ w' = w) ∨ tokens w' + 1 = tokens w ∧ w' = { w with token := Function.update w.token id false } := by
  unfold hlt at woke
  split at woke
  · rename_i spurious
    exact .inl ⟨spurious,(Option.some.inj woke).symm⟩
  · split at woke
    · rename_i pending
      have same := (Option.some.inj woke).symm
      subst same
      have change :=
        sum_change (f := fun i => (w.token i).toNat) (g := fun i => (Function.update w.token id false i).toNat) small
        fun j other => by simp only [Function.update_of_ne other]
      simp only [Function.update_self,pending,Bool.toNat_true,Bool.toNat_false] at change
      have fewer : tokens { w with token := Function.update w.token id false } + 1 = tokens w := by
        unfold tokens
        omega
      exact .inr ⟨fewer,rfl⟩
    · cases woke

/-- The return of a `hlt`. -/
theorem pays_hlt {w : Wakes} (small : id < 64) (stopped : blocked v.pc = true) (woke : hlt id x.intr s.wakes = some w)
    (wakes : s'.wakes = w) (tasks : s'.tasks = s.tasks) (log : s'.log = s.log) (calm : ∀ s, stale s v'.pc = 0)
    (rested : ∀ s, stale s v.pc = 0) (less : cost p v'.pc + 1 ≤ cost p v.pc + tokenCost) : Pays p x s v s' v' := by
  rcases tokens_hlt small woke with ⟨spurious,same⟩ | ⟨fewer,same⟩
  · subst same
    refine pays_same (e := none) ⟨by rw [wakes],by rw [wakes],by rw [wakes],by rw [tasks],by rw [tasks]⟩ log ?_
    rw [calm,rested,grant,if_pos ⟨stopped,spurious⟩]
    omega
  · have stored : store p s' + tokenCost = store p s := by
      unfold store
      rw [wakes,tasks,← fewer,Nat.mul_add,same]
      dsimp only
      omega
    refine ⟨0,stale_mono (fun _ _ set => by rw [tasks]; exact set) (fun _ set => by rw [wakes,same]; exact set)
      fun _ set => by rw [wakes,same]; exact set,?_⟩
    rw [calm,rested,log]
    omega

theorem boot_pays {k : BootPc} {current : Nat} {t1 : Word} (small : id < 64)
    (moved : sched id x s ⟨.boot k,current,t1⟩ = some (s',v')) : Pays p x s ⟨.boot k,current,t1⟩ s' v' := by
  obtain ⟨⟨w,next⟩,woke,same⟩ := Option.map_eq_some_iff.mp moved
  cases same
  cases k with
  | hlt =>
    obtain ⟨w',returns,same⟩ := Option.map_eq_some_iff.mp woke
    cases same
    exact pays_hlt small rfl returns rfl rfl rfl (fun _ => rfl) (fun _ => rfl) (by simp only [cost,bootCost]; omega)
  | btrInactive =>
    cases woke; exact pays_same (e := none) ⟨rfl,rfl,rfl,rfl,rfl⟩ rfl (by simp only [cost,bootCost,stale]; omega)
  | btrKicked =>
    cases woke
    refine pays_same (e := none) ⟨rfl,rfl,rfl,rfl,rfl⟩ rfl ?_
    dsimp only
    split <;> simp only [cost,bootCost,enterCost,stale] <;> omega
  | incFree =>
    cases woke; exact pays_same (e := none) ⟨rfl,rfl,rfl,rfl,rfl⟩ rfl (by simp only [cost,bootCost,enterCost,stale]; omega)

theorem halt_pays {k : HaltPc} {current : Nat} {t1 : Word} (small : id < 64)
    (moved : sched id x s ⟨.halt k,current,t1⟩ = some (s',v')) : Pays p x s ⟨.halt k,current,t1⟩ s' v' := by
  obtain ⟨⟨w,b,t,next,e⟩,slept,same⟩ := Option.map_eq_some_iff.mp moved
  cases same
  cases k with
  | hlt =>
    obtain ⟨w',returns,same⟩ := Option.map_eq_some_iff.mp slept
    cases same
    exact pays_hlt small rfl returns rfl rfl rfl (fun _ => rfl) (fun _ => rfl)
      (by simp only [cost,haltCost,tokenCost]; omega)
  | btrKicked =>
    cases slept
    refine pays_same (e := none) ⟨rfl,rfl,rfl,rfl,rfl⟩ rfl ?_
    dsimp only
    split <;> simp only [cost,haltCost,stale] <;> omega
  | tscOut =>
    cases slept; exact pays_same (e := none) ⟨rfl,rfl,rfl,rfl,rfl⟩ rfl (by simp only [cost,haltCost,scanCost,stale]; omega)
  | stHlt t =>
    cases slept; exact pays_same (e := some _) ⟨rfl,rfl,rfl,rfl,rfl⟩ rfl (by simp only [cost,haltCost,stale]; omega)
  | _ => cases slept; exact pays_same (e := none) ⟨rfl,rfl,rfl,rfl,rfl⟩ rfl (by simp only [cost,haltCost,stale]; omega)

theorem noWork_pays {k : NoWorkPc} {current : Nat} {t1 : Word}
    (moved : sched id x s ⟨.noWork k,current,t1⟩ = some (s',v')) :
    Pays p x s ⟨.noWork k,current,t1⟩ s' v' := by
  cases moved
  cases k with
  | cas tot_fn =>
    simp only [noWork]
    by_cases all : (CAS s.tasks.num_fin_fn (BitVec.ofNat 64 tot_fn) 0).2 = BitVec.ofNat 64 tot_fn
    · rw [if_pos all,if_pos all]
      exact pays_turnover ⟨rfl,rfl,rfl,rfl,rfl⟩ rfl (by simp only [cost,noWorkCost,resetCost,epochCost,stale]; omega)
    · rw [if_neg all,if_neg all]
      exact pays_same (e := none) ⟨rfl,rfl,rfl,rfl,rfl⟩ rfl (by simp only [cost,noWorkCost,haltCost,stale]; omega)
  | _ => exact pays_same (e := none) ⟨rfl,rfl,rfl,rfl,rfl⟩ rfl (by simp only [noWork,cost,noWorkCost,stale]; omega)

theorem pays_kick {e : Option Ev} {cpuid : Nat} (wakes : s'.wakes = s.wakes.kick cpuid) (tasks : s'.tasks = s.tasks)
    (log : s'.log = e.toList ++ s.log) (calm : ∀ s, stale s v'.pc = 0) (less : cost p v'.pc + tokenCost + 1 ≤ cost p v.pc) :
    Pays p x s v s' v' := by
  have more := Nat.mul_le_mul_left tokenCost (tokens_kick s.wakes cpuid)
  rw [Nat.mul_add,Nat.mul_one] at more
  refine pays_grow (stale_mono (fun _ _ set => by rw [tasks]; exact set) (fun _ set => by rw [wakes]; exact set)
    fun _ set => by rw [wakes]; exact set) log ?_ calm less
  unfold store
  rw [wakes,tasks]
  show _ + bitCost p * popcnt s.wakes.ss_reflective_bm1.word0 + bitCost p * popcnt s.wakes.ss_reflective_bm.word0 +
    _ + _ ≤ _
  omega

/-- A `btr` of a snapshot clears a bit that is set, or changes nothing. -/
theorem take_store {w : Snap} {cpuid : Nat} (set : w.word0.getLsbD cpuid = true) :
    bitCost p * popcnt (w.take cpuid).word0 + bitCost p = bitCost p * popcnt w.word0 := by
  rw [← popcnt_btr set,Nat.mul_add,Nat.mul_one]
  rfl

theorem take_clear {w : Snap} {cpuid : Nat} (clear : w.word0.getLsbD cpuid = false) : w.take cpuid = w := by
  unfold Snap.take
  rw [btr_eq_self clear]

theorem dcas_store (p : Nat) (w : Snap) (bm : Word) :
    bitCost p * popcnt (DCAS w ⟨0,0⟩ ⟨bm,bm⟩).word0 ≤ bitCost p * popcnt w.word0 + 64 * bitCost p := by
  have most := Nat.mul_le_mul_left (bitCost p) (popcnt_le bm)
  unfold DCAS
  split
  · dsimp only
    omega
  · omega

theorem dcas_mono {w : Snap} {bm : Word} {i : Nat} (set : w.word0.getLsbD i = true) :
    (DCAS w ⟨0,0⟩ ⟨bm,bm⟩).word0.getLsbD i = true := by
  unfold DCAS
  split
  · rename_i empty
    rw [empty] at set
    simp at set
  · exact set

/-- What is stored when only the snapshots change. -/
theorem store_snaps (token : s'.wakes.token = s.wakes.token) (tasks : s'.tasks = s.tasks) :
    store p s' + bitCost p * popcnt s.wakes.ss_reflective_bm1.word0 + bitCost p * popcnt s.wakes.ss_reflective_bm.word0 =
      store p s + bitCost p * popcnt s'.wakes.ss_reflective_bm1.word0 +
      bitCost p * popcnt s'.wakes.ss_reflective_bm.word0 := by
  unfold store tokens
  rw [token,tasks]
  omega

theorem snaps_take {e : Option Ev} (token : s'.wakes.token = s.wakes.token) (tasks : s'.tasks = s.tasks)
    (log : s'.log = e.toList ++ s.log)
    (fewer : bitCost p * popcnt s'.wakes.ss_reflective_bm1.word0 + bitCost p * popcnt s'.wakes.ss_reflective_bm.word0 +
      bitCost p ≤
      bitCost p * popcnt s.wakes.ss_reflective_bm1.word0 + bitCost p * popcnt s.wakes.ss_reflective_bm.word0)
    (calm : ∀ s, stale s v'.pc = 0) (less : cost p v'.pc + raceCost * p + 1 ≤ cost p v.pc + bitCost p) :
    Pays p x s v s' v' := by
  have change := store_snaps (p := p) token tasks
  exact pays_take log (by omega) calm less

theorem snaps_grow {e : Option Ev} (token : s'.wakes.token = s.wakes.token) (tasks : s'.tasks = s.tasks)
    (log : s'.log = e.toList ++ s.log) (grows : ∀ pc, stale s' pc ≤ stale s pc)
    (more : bitCost p * popcnt s'.wakes.ss_reflective_bm1.word0 + bitCost p * popcnt s'.wakes.ss_reflective_bm.word0 ≤
      bitCost p * popcnt s.wakes.ss_reflective_bm1.word0 + bitCost p * popcnt s.wakes.ss_reflective_bm.word0 +
      64 * bitCost p)
    (calm : ∀ s, stale s v'.pc = 0) (less : cost p v'.pc + 64 * bitCost p + 1 ≤ cost p v.pc) : Pays p x s v s' v' := by
  have change := store_snaps (p := p) token tasks
  exact pays_grow grows log (by omega) calm less

theorem wake_pays {fn current : Nat} {k : WakePc} {t1 : Word}
    (moved : sched id x s ⟨.wake fn k,current,t1⟩ = some (s',v')) :
    Pays p x s ⟨.wake fn k,current,t1⟩ s' v' := by
  have cheap : bitCost p = 36 * p + 40 := rfl
  obtain ⟨few,calm⟩ := cost_afterWake (s := s) p fn
  cases moved
  cases k with
  | bsf1 rax =>
    simp only [wake_up_task]
    cases found : Bits.bsf s.wakes.ss_reflective_bm1.word0 with
    | none =>
      cases rax with
      | none =>
        refine pays_same (e := none) ⟨rfl,rfl,rfl,rfl,rfl⟩ rfl ?_
        simp only [cost,wakeCost,stale,Option.map_some,Option.getD_some]
        omega
      | some lost =>
        refine pays_same (e := none) ⟨rfl,rfl,rfl,rfl,rfl⟩ rfl ?_
        simp only [cost,wakeCost,stale,Option.map_some,Option.getD_some]
        omega
    | some cpuid =>
      refine pays_same (e := none) ⟨rfl,rfl,rfl,rfl,rfl⟩ rfl ?_
      cases rax with
      | none =>
        simp only [cost,wakeCost,stale,missing,(bsf_some found).1,if_true,Option.map_some,Option.getD_some]
        omega
      | some lost =>
        simp only [cost,wakeCost,stale,missing,(bsf_some found).1,if_true,Option.map_some,Option.getD_some]
        omega
  | bsf =>
    simp only [wake_up_task]
    cases found : Bits.bsf s.wakes.ss_reflective_bm.word0 with
    | none =>
      refine pays_same (e := none) ⟨rfl,rfl,rfl,rfl,rfl⟩ rfl ?_
      show cost p (afterWake fn) + stale s (afterWake fn) + 1 ≤ 25 + 0 + _
      omega
    | some cpuid =>
      refine pays_same (e := none) ⟨rfl,rfl,rfl,rfl,rfl⟩ rfl ?_
      simp only [cost,wakeCost,stale,missing,(bsf_some found).1,if_true,Option.map_some,Option.getD_some]
      omega
  | btr1 cpuid =>
    simp only [wake_up_task]
    cases bit : s.wakes.ss_reflective_bm1.word0.getLsbD cpuid with
    | true =>
      have fewer := take_store (p := p) bit
      refine snaps_take (e := none) rfl rfl rfl (by dsimp only; omega) (fun _ => rfl) ?_
      simp only [cost,wakeCost,raceCost,if_true,Option.map_some,Option.getD_some]
      omega
    | false =>
      rw [take_clear bit]
      refine pays_same (e := none) ⟨rfl,rfl,rfl,rfl,rfl⟩ rfl ?_
      simp only [cost,wakeCost,raceCost,stale,missing,bit,Bool.false_eq_true,if_false,Option.map_some,Option.getD_some]
      omega
  | btr cpuid =>
    simp only [wake_up_task]
    cases bit : s.wakes.ss_reflective_bm.word0.getLsbD cpuid with
    | true =>
      have fewer := take_store (p := p) bit
      refine snaps_take (e := none) rfl rfl rfl (by dsimp only; omega) (fun _ => rfl) ?_
      simp only [cost,wakeCost,raceCost,if_true,Option.map_some,Option.getD_some]
      omega
    | false =>
      rw [take_clear bit]
      refine pays_same (e := none) ⟨rfl,rfl,rfl,rfl,rfl⟩ rfl ?_
      simp only [cost,wakeCost,raceCost,stale,missing,bit,Bool.false_eq_true,if_false,Option.map_some,Option.getD_some]
      omega
  | dcas1 bm =>
    have more := dcas_store p s.wakes.ss_reflective_bm1 bm
    refine snaps_grow (e := none) rfl rfl rfl
      (stale_mono (fun _ _ set => set) (fun _ set => dcas_mono set) fun _ set => set)
      (by dsimp only [wake_up_task]; omega) (fun _ => rfl) ?_
    simp only [wake_up_task,cost,wakeCost,Option.map_some,Option.getD_some]
    omega
  | dcas bm =>
    have more := dcas_store p s.wakes.ss_reflective_bm bm
    refine snaps_grow (e := none) rfl rfl rfl
      (stale_mono (fun _ _ set => set) (fun _ set => set) fun _ set => dcas_mono set)
      (by dsimp only [wake_up_task]; omega) (fun _ => rfl) ?_
    simp only [wake_up_task,cost,wakeCost,Option.map_some,Option.getD_some]
    omega
  | kick1 cpuid =>
    refine pays_kick (e := none) rfl rfl rfl (fun _ => rfl) ?_
    simp only [wake_up_task,cost,wakeCost,tokenCost,Option.map_some,Option.getD_some]
    omega
  | kick cpuid =>
    refine pays_kick (e := none) rfl rfl rfl (fun _ => rfl) ?_
    simp only [wake_up_task,cost,wakeCost,tokenCost,Option.map_some,Option.getD_some]
    omega
  | ldKick1 cpuid t | ldFree runnable | casSig tmp =>
    refine pays_same (e := none) ⟨rfl,rfl,rfl,rfl,rfl⟩ rfl ?_
    simp only [wake_up_task,Option.map_some,Option.getD_some]
    split <;> simp only [cost,wakeCost,stale] <;> omega
  | xadd =>
    refine pays_same (e := some _) ⟨rfl,rfl,rfl,rfl,rfl⟩ rfl ?_
    simp only [wake_up_task]
    split
    · split <;> simp only [cost,wakeCost,stale,Option.map_some,Option.getD_some] <;> omega
    · show cost p (afterWake fn) + stale s (afterWake fn) + 1 ≤ 27 + 0 + _
      omega
  | ldKick cpuid hlt =>
    simp only [wake_up_task]
    split
    · exact pays_same (e := some _) ⟨rfl,rfl,rfl,rfl,rfl⟩ rfl
        (by simp only [cost,wakeCost,stale,Option.map_some,Option.getD_some]; omega)
    · exact pays_same (e := none) ⟨rfl,rfl,rfl,rfl,rfl⟩ rfl
        (by simp only [cost,wakeCost,stale,Option.map_some,Option.getD_some]; omega)
  | stWakeNum tmp =>
    refine pays_same (e := some _) ⟨rfl,rfl,rfl,rfl,rfl⟩ rfl ?_
    simp only [wake_up_task,cost,wakeCost,stale,Option.map_some,Option.getD_some]
    omega
  | _ =>
    refine pays_same (e := none) ⟨rfl,rfl,rfl,rfl,rfl⟩ rfl ?_
    simp only [wake_up_task,cost,wakeCost,stale,Option.map_some,Option.getD_some]
    omega

/-! ### Tasks -/

theorem runnableCount_btr {t : Tasks} {idx rax : Nat} (inside : idx < 4) (bit : (t.bm_run_fn idx).getLsbD rax = true) :
    runnableCount { t with bm_run_fn := Function.update t.bm_run_fn idx (btr (t.bm_run_fn idx) rax) } + 1 =
    runnableCount t := by
  have change := runnableCount_update t inside (btr (t.bm_run_fn idx) rax)
  have bits := popcnt_btr bit
  omega

theorem runnableCount_le (t : Tasks) (fn : Nat) : runnableCount (add_runnable_fn t fn) ≤ runnableCount t + 1 := by
  by_cases inside : fn / 64 < 4
  · cases bit : runnable t fn with
    | true =>
      have same : bts (t.bm_run_fn (fn / 64)) (fn % 64) = t.bm_run_fn (fn / 64) := by
        apply BitVec.eq_of_getLsbD_eq
        intro i lt
        rw [getLsbD_bts]
        by_cases here : fn % 64 = i
        · subst here
          have set : (t.bm_run_fn (fn / 64)).getLsbD (fn % 64) = true := bit
          simp [set]
        · simp [here]
      have there : add_runnable_fn t fn = t := by rw [add_runnable_fn,same,Function.update_eq_self]
      rw [there]
      omega
    | false => exact (runnableCount_add (by unfold MAX_FUNC; omega) bit).le
  · have same : runnableCount (add_runnable_fn t fn) = runnableCount t := Finset.sum_congr rfl fun idx member => by
      have other : idx ≠ fn / 64 := by have lt := Finset.mem_range.mp member; omega
      simp only [add_runnable_fn,Function.update_of_ne other]
    omega

/-- What is stored when only the tasks change. -/
theorem store_tasks (wakes : s'.wakes = s.wakes) :
    store p s' + taskCost p * runnableCount s.tasks + (taskCost p + 1) * waiting s.tasks =
      store p s + taskCost p * runnableCount s'.tasks + (taskCost p + 1) * waiting s'.tasks := by
  unfold store
  rw [wakes]
  omega

/-- `add_runnable_fn`. -/
theorem pays_add {fn : Nat} (wakes : s'.wakes = s.wakes) (tasks : s'.tasks = add_runnable_fn s.tasks fn)
    (log : s'.log = s.log) (calm : ∀ s, stale s v'.pc = 0) (less : cost p v'.pc + taskCost p + 1 ≤ cost p v.pc) :
    Pays p x s v s' v' := by
  have change := store_tasks (p := p) wakes
  have more := Nat.mul_le_mul_left (taskCost p) (runnableCount_le s.tasks fn)
  rw [tasks,show waiting (add_runnable_fn s.tasks fn) = waiting s.tasks from rfl] at change
  rw [Nat.mul_add,Nat.mul_one] at more
  refine pays_grow (e := none) (stale_mono (fun idx i set => ?_) (fun _ set => by rw [wakes]; exact set)
    fun _ set => by rw [wakes]; exact set) log (by omega) calm less
  rw [tasks]
  simp only [add_runnable_fn]
  by_cases here : idx = fn / 64
  · subst here
    simp [set]
  · rw [Function.update_of_ne here]
    exact set

theorem scan_pays {k : ScanPc} {current : Nat} {t1 : Word} (locals : LocalsOk s.tasks.metadata (.scan k))
    (moved : sched id x s ⟨.scan k,current,t1⟩ = some (s',v')) : Pays p x s ⟨.scan k,current,t1⟩ s' v' := by
  have cheap : bitCost p = 36 * p + 40 := rfl
  have dear : taskCost p = 128 * bitCost p + 36 * p + 826 := rfl
  cases moved
  cases k with
  | bsf idx =>
    have inside : idx < 4 := locals
    simp only [get_work]
    cases found : Bits.bsf (s.tasks.bm_run_fn idx) with
    | none =>
      by_cases last : idx = 3
      · simp only [last,if_true]
        exact pays_same (e := none) ⟨rfl,rfl,rfl,rfl,rfl⟩ rfl (by simp only [cost,scanCost,noWorkCost,stale]; omega)
      · simp only [last,if_false]
        exact pays_same (e := none) ⟨rfl,rfl,rfl,rfl,rfl⟩ rfl (by simp only [cost,scanCost,stale]; omega)
    | some rax =>
      refine pays_same (e := none) ⟨rfl,rfl,rfl,rfl,rfl⟩ rfl ?_
      simp only [cost,scanCost,stale,missing,(bsf_some found).1,if_true]
      omega
  | btr idx rax =>
    obtain ⟨inside,-⟩ := locals
    simp only [get_work]
    cases bit : (s.tasks.bm_run_fn idx).getLsbD rax with
    | true =>
      refine pays_take (e := none) rfl (c := taskCost p) ?_ (fun _ => rfl)
        (by simp only [cost,scanCost,workCost,raceCost,if_true]; omega)
      unfold store
      rw [← runnableCount_btr inside bit,Nat.mul_add,Nat.mul_one]
      dsimp only [waiting]
      omega
    | false =>
      rw [btr_eq_self bit,Function.update_eq_self]
      refine pays_same (e := none) ⟨rfl,rfl,rfl,rfl,rfl⟩ rfl ?_
      simp only [cost,scanCost,raceCost,stale,missing,bit,Bool.false_eq_true,if_false]
      omega

/-- A count that is stored. -/
theorem waiting_store (t : Tasks) (fn : Nat) (count : BitVec 8) :
    waiting { t with dag_in_count := Function.update t.dag_in_count fn count } ≤ waiting t + 1 := by
  have most := sum_raise (n := 256) (i := fn) (f := fun fn => if t.dag_in_count fn = 0 then 0 else 1)
    (g := fun f => if Function.update t.dag_in_count fn count f = 0 then 0 else 1)
      fun j other => by simp only [Function.update_of_ne other]
  simp only [Function.update_self] at most
  unfold waiting
  dsimp only
  split at most <;> omega

/-- A count that is counted down. -/
theorem waiting_dec {t : Tasks} {fn : Nat} (inside : fn < 256) (pos : t.dag_in_count fn ≠ 0) :
    waiting { t with dag_in_count := Function.update t.dag_in_count fn (t.dag_in_count fn - 1) } +
      (if t.dag_in_count fn - 1 = 0 then 1 else 0) = waiting t := by
  have change := sum_change (f := fun fn => if t.dag_in_count fn = 0 then 0 else 1)
    (g := fun f => if Function.update t.dag_in_count fn (t.dag_in_count fn - 1) f = 0 then 0 else 1) inside
    fun j other => by simp only [Function.update_of_ne other]
  simp only [Function.update_self,if_neg pos] at change
  unfold waiting
  dsimp only
  split at change
  · rename_i zero
    rw [if_pos zero]
    omega
  · rename_i more
    rw [if_neg more]
    omega

theorem dag_pays {fn current : Nat} {k : DagPc} {t1 : Word} (locals : LocalsOk s.tasks.metadata (.dag fn k))
    (small : last s.tasks.metadata fn ≤ 255)
    (target : ∀ i, i < last s.tasks.metadata fn → first s.tasks.metadata fn ≤ i → s.tasks.metadata.dag i < 256)
    (counts : ∀ i e out_fn, k = .dec i e out_fn → s.tasks.dag_in_count out_fn ≠ 0)
    (moved : sched id x s ⟨.dag fn k,current,t1⟩ = some (s',v')) : Pays p x s ⟨.dag fn k,current,t1⟩ s' v' := by
  have dear : taskCost p = 128 * bitCost p + 36 * p + 826 := rfl
  cases moved
  cases k with
  | ldNodes | ldFirst num_nodes =>
    refine pays_same (e := none) ⟨rfl,rfl,rfl,rfl,rfl⟩ rfl ?_
    simp only [process_sched_dag,cost,dagCost,stale,Option.map_some,Option.getD_some]
    omega
  | ldLast num_nodes first =>
    refine pays_same (e := none) ⟨rfl,rfl,rfl,rfl,rfl⟩ rfl ?_
    simp only [process_sched_dag,cost,dagCost,stale,Option.map_some,Option.getD_some]
    omega
  | loop i e =>
    by_cases more : i < e
    · simp only [process_sched_dag,more,if_true]
      exact pays_same (e := none) ⟨rfl,rfl,rfl,rfl,rfl⟩ rfl
        (by simp only [cost,dagCost,stale,Option.map_some,Option.getD_some]; omega)
    · simp only [process_sched_dag,more,if_false]
      exact pays_same (e := none) ⟨rfl,rfl,rfl,rfl,rfl⟩ rfl
        (by simp only [cost,dagCost,stale,Option.map_none,Option.getD_none]; omega)
  | dec i e out_fn =>
    obtain ⟨low,rfl,lt,rfl⟩ := locals
    have fewer := waiting_dec (target i lt low) (counts _ _ _ rfl)
    have next : (i + 1) % 256 = i + 1 := by omega
    simp only [process_sched_dag,next]
    by_cases zero : s.tasks.dag_in_count (s.tasks.metadata.dag i) - 1 = 0
    · rw [if_pos zero] at fewer ⊢
      refine pays_spend (e := none) (c := taskCost p + 1) (fun pc => Nat.le_refl _) rfl ?_ (fun _ => rfl) ?_
      · unfold store
        rw [← fewer,Nat.mul_add,Nat.mul_one]
        dsimp only [runnableCount]
        omega
      · simp only [cost,dagCost,Option.map_some,Option.getD_some]
        omega
    · rw [if_neg zero,Nat.add_zero] at fewer
      rw [if_neg zero]
      refine pays_spend (e := none) (c := 0) (fun pc => Nat.le_refl _) rfl ?_ (fun _ => rfl) ?_
      · unfold store
        rw [← fewer]
        dsimp only [runnableCount]
        omega
      · simp only [cost,dagCost,Option.map_some,Option.getD_some]
        omega
  | inc i e out_fn =>
    refine pays_same (e := none) ⟨rfl,rfl,rfl,rfl,rfl⟩ rfl ?_
    simp only [process_sched_dag,cost,dagCost,stale,Option.map_some,Option.getD_some]
    omega
  | bts i e out_fn =>
    obtain ⟨low,rfl,lt,rfl⟩ := locals
    have next : (i + 1) % 256 = i + 1 := by omega
    refine pays_add rfl rfl rfl (fun _ => rfl) ?_
    simp only [process_sched_dag,next,cost,dagCost,Option.map_some,Option.getD_some]
    omega

/-- The wiping of a snapshot takes away its bits, if it has any. -/
theorem wiped_store {x : Word} (some : popcnt x ≠ 0) :
    bitCost p * popcnt (0 : Word) + bitCost p ≤ bitCost p * popcnt x := by
  have one := Nat.mul_le_mul_left (bitCost p) (Nat.one_le_iff_ne_zero.mpr some)
  rw [show popcnt (0 : Word) = 0 from popcnt_zero]
  omega

theorem reset_pays {k : ResetPc} {current : Nat} {t1 : Word} (locals : LocalsOk s.tasks.metadata (.reset k))
    (few : s.tasks.metadata.num_nodes ≤ 256) (moved : sched id x s ⟨.reset k,current,t1⟩ = some (s',v')) :
    Pays p x s ⟨.reset k,current,t1⟩ s' v' := by
  have cheap : bitCost p = 36 * p + 40 := rfl
  cases moved
  cases k with
  | ldStart | ldKicked | popcnt =>
    refine pays_same (e := none) ⟨rfl,rfl,rfl,rfl,rfl⟩ rfl ?_
    simp only [Sched.reset]
    split <;> simp only [cost,resetCost,stale] <;> omega
  | exit =>
    cases host : x.host with
    | none =>
      simp only [Sched.reset,host]
      exact pays_same (e := none) ⟨rfl,rfl,rfl,rfl,rfl⟩ rfl (by simp only [cost,resetCost,stale]; omega)
    | some d =>
      simp only [Sched.reset,host]
      refine pays_same (e := none) ⟨rfl,rfl,rfl,rfl,rfl⟩ rfl ?_
      simp only [cost,resetCost,stale,grant,host,Option.isSome_some,if_true]
      omega
  | outw => exact pays_same (e := some _) ⟨rfl,rfl,rfl,rfl,rfl⟩ rfl (by simp only [Sched.reset,cost,resetCost,stale]; omega)
  | clr0 =>
    by_cases empty : popcnt s.wakes.ss_reflective_bm.word0 = 0
    · refine pays_same (e := none) ⟨rfl,rfl,(eq_zero_of_popcnt empty).symm,rfl,rfl⟩ rfl ?_
      simp only [Sched.reset,cost,resetCost,stale]
      omega
    · have fewer := wiped_store (p := p) empty
      refine snaps_take (e := none) rfl rfl rfl (by dsimp only [Sched.reset]; omega) (fun _ => rfl) ?_
      simp only [Sched.reset,cost,resetCost,raceCost]
      omega
  | clr10 =>
    by_cases empty : popcnt s.wakes.ss_reflective_bm1.word0 = 0
    · refine pays_same (e := none) ⟨rfl,(eq_zero_of_popcnt empty).symm,rfl,rfl,rfl⟩ rfl ?_
      simp only [Sched.reset,cost,resetCost,stale]
      omega
    · have fewer := wiped_store (p := p) empty
      refine snaps_take (e := none) rfl rfl rfl (by dsimp only [Sched.reset]; omega) (fun _ => rfl) ?_
      simp only [Sched.reset,cost,resetCost,raceCost]
      omega
  | ldNodes =>
    have most := Nat.mul_le_mul_right (taskCost p + 3) few
    refine pays_same (e := none) ⟨rfl,rfl,rfl,rfl,rfl⟩ rfl ?_
    simp only [Sched.reset,cost,resetCost,countsCost,stale,Nat.sub_zero]
    omega
  | ldDag i len =>
    refine pays_same (e := none) ⟨rfl,rfl,rfl,rfl,rfl⟩ rfl ?_
    simp only [Sched.reset]
    split <;> simp only [cost,resetCost,stale] <;> omega
  | stCount i len count =>
    obtain ⟨-,lt,-⟩ := locals
    have more := Nat.mul_le_mul_left (taskCost p + 1) (waiting_store s.tasks i (BitVec.ofNat 8 count))
    rw [Nat.mul_add,Nat.mul_one] at more
    have left : len - i = len - (i + 1) + 1 := by omega
    refine pays_grow (e := none) (c := taskCost p + 1) (fun pc => Nat.le_refl _) rfl ?_ (fun _ => rfl) ?_
    · unfold store
      dsimp only [Sched.reset,runnableCount]
      omega
    · simp only [Sched.reset,cost,resetCost,left,Nat.add_mul,Nat.one_mul]
      omega
  | bts fn => exact pays_add rfl rfl rfl (fun _ => rfl) (by simp only [Sched.reset,cost,resetCost,scanCost]; omega)
  | _ => exact pays_same (e := none) ⟨rfl,rfl,rfl,rfl,rfl⟩ rfl (by simp only [Sched.reset,cost,resetCost,stale]; omega)

theorem sched_pays (small : id < 64) (valid : Valid s.tasks.metadata) (locals : LocalsOk s.tasks.metadata v.pc)
    (owned : ∀ fn, (role v).owns fn = 1 → fn < s.tasks.metadata.num_nodes)
    (counts : ∀ fn i e out_fn, v.pc = .dag fn (.dec i e out_fn) → s.tasks.dag_in_count out_fn ≠ 0)
    (moved : sched id x s v = some (s',v')) : Pays p x s v s' v' := by
  have few := valid.num_nodes_lt
  obtain ⟨pc,current,t1⟩ := v
  cases pc with
  | boot k => exact boot_pays small moved
  | enter k =>
    cases k with
    | tsc => cases moved; exact pays_same (e := none) ⟨rfl,rfl,rfl,rfl,rfl⟩ rfl (by simp only [cost,enterCost,stale]; omega)
    | ldCurrent =>
      cases moved
      refine pays_same (e := none) ⟨rfl,rfl,rfl,rfl,rfl⟩ rfl ?_
      dsimp only
      split
      · simp only [cost,enterCost,finCost,stale]
        omega
      · obtain ⟨little,calm⟩ := cost_goWake (s := s) p current s.wakes
        rw [calm]
        show _ + 0 + 1 ≤ 128 * bitCost p + 812 + 0 + _
        omega
  | fin fn k =>
    cases moved
    cases k <;> exact pays_same (e := none) ⟨rfl,rfl,rfl,rfl,rfl⟩ rfl
      (by simp only [finished,cost,finCost,dagCost,stale]; omega)
  | dag fn k =>
    have node : fn < s.tasks.metadata.num_nodes := owned fn (by cases k <;> simp [role,Role.owns])
    refine dag_pays locals (valid.last_le node) (fun i high low => ?_)
      (fun i e out_fn is => counts fn i e out_fn (by rw [is])) moved
    have target := valid.target node low high
    omega
  | clrCurrent fn =>
    cases moved
    obtain ⟨little,calm⟩ := cost_goWake (s := s) p fn s.wakes
    refine pays_same (e := none) ⟨rfl,rfl,rfl,rfl,rfl⟩ rfl ?_
    rw [calm]
    show cost p (goWake s.wakes fn) + 0 + 1 ≤ 128 * bitCost p + 38 + 0 + _
    omega
  | wake fn k => exact wake_pays moved
  | incFin fn =>
    cases moved; exact pays_same (e := some _) ⟨rfl,rfl,rfl,rfl,rfl⟩ rfl (by simp only [cost,scanCost,stale]; omega)
  | scan k => exact scan_pays locals moved
  | noWork k => exact noWork_pays moved
  | reset k => exact reset_pays locals (by omega) moved
  | halt k => exact halt_pays small moved
  | work fn k =>
    cases moved
    cases k with
    | jump info =>
      exact pays_same (e := some _) ⟨rfl,rfl,rfl,rfl,rfl⟩ rfl (by simp only [jump2fn,cost,workCost,stale]; omega)
    | _ => exact pays_same (e := none) ⟨rfl,rfl,rfl,rfl,rfl⟩ rfl (by simp only [jump2fn,cost,workCost,stale]; omega)
  | user fn ctx =>
    cases moved; exact pays_same (e := some _) ⟨rfl,rfl,rfl,rfl,rfl⟩ rfl (by simp only [cost,enterCost,stale]; omega)

end

/-! ### Runs -/

section
variable {p : Nat} {host : Metadata → Prop}

def need (p : Nat) (s : Shared) (v : Vcpu) : Nat := cost p v.pc + stale s v.pc
/-- What the pool may still do before its epoch ends. -/
def potential {p : Nat} : Config (Fin p) Shared Vcpu → Nat := total (need p) (store p)

theorem pool_pays {s s' : Config (Fin p) Shared Vcpu} {a : Fin p × Input} (most : p ≤ 64) (core : Core s)
    (moved : (pool p host).step s a = some s') :
    potential s' + epochCost p * turnovers s.shared.log + 1 ≤
      potential s + epochCost p * turnovers s'.shared.log + grant a.2 (s.loc a.1).pc := by
  obtain ⟨sh,l,ran,rfl⟩ := pool_step moved
  have owned : ∀ fn, (role (s.loc a.1)).owns fn = 1 → fn < s.shared.tasks.metadata.num_nodes := fun fn owns =>
    (core.tasks.of_owns (show (roles s a.1).owns fn = 1 from owns)).2.2.1
  have counts : ∀ fn i e out_fn, (s.loc a.1).pc = .dag fn (.dec i e out_fn) → s.shared.tasks.dag_in_count out_fn ≠ 0 := by
    intro fn i e out_fn pc
    have locals := (core.ok a.1).locals
    rw [pc] at locals
    obtain ⟨low,rfl,high,rfl⟩ := locals
    exact count_pos core.tasks (v := a.1) (show role (s.loc a.1) = .relax fn i by simp only [role,pc]) low high
  have small : a.1.val < 64 := by omega
  have own : Pays p a.2 s.shared (s.loc a.1) sh l := sched_pays small core.tasks.valid (core.ok a.1).locals owned counts ran
  have paid : Pays p a.2 s.shared (s.loc a.1)
      { sh with clock := if (s.loc a.1).pc.readsTsc then a.2.tsc else s.shared.clock } l := own
  generalize ({ sh with clock := if (s.loc a.1).pc.readsTsc then a.2.tsc else s.shared.clock } : Shared) = now at paid ⊢
  obtain ⟨k,raise,mine⟩ := paid
  have later : ∀ v, need p now v ≤ need p s.shared v + k :=
    fun v => (Nat.add_le_add_left (raise v.pc) _).trans (Nat.add_assoc ..).ge
  have whole := total_step (need p) (store p) (c := s) (i := a.1) (l := l) later (by rw [Fintype.card_fin]; exact mine)
  show total (need p) (store p) _ + _ + 1 ≤ total (need p) (store p) s + epochCost p * turnovers now.log + _
  omega

/-- No vCPU needs more than for a whole epoch. -/
theorem cost_le {d : Metadata} {pc : Pc} (valid : Valid d) (locals : LocalsOk d pc)
    (node : ∀ fn k, pc = .dag fn k → fn < d.num_nodes) :
    cost p pc ≤ epochCost p := by
  have few := valid.num_nodes_lt
  have cheap : countsCost p = 256 * (taskCost p + 3) := rfl
  have dear : taskCost p = 128 * bitCost p + 36 * p + 826 := rfl
  unfold epochCost
  cases pc with
  | boot k => cases k <;> simp only [cost,bootCost] <;> omega
  | enter k => cases k <;> simp only [cost,enterCost] <;> omega
  | fin fn k => cases k <;> simp only [cost,finCost] <;> omega
  | dag fn k =>
    have short := valid.last_le (node fn k rfl)
    cases k with
    | loop i e =>
      obtain ⟨low,rfl⟩ := locals
      simp only [cost,dagCost]
      omega
    | dec i e out_fn | inc i e out_fn | bts i e out_fn =>
      obtain ⟨low,rfl,-,-⟩ := locals
      simp only [cost,dagCost]
      omega
    | _ => simp only [cost,dagCost]; omega
  | wake fn k =>
    cases k with
    | bsf1 rax => cases rax <;> simp only [cost,wakeCost] <;> omega
    | _ => simp only [cost,wakeCost]; omega
  | scan k => cases k <;> simp only [cost,scanCost] <;> omega
  | noWork k => cases k <;> simp only [cost,noWorkCost] <;> omega
  | reset k =>
    cases k with
    | ldDag i len =>
      obtain ⟨rfl,le⟩ := locals
      have part := Nat.mul_le_mul_right (taskCost p + 3) (show d.num_nodes - i ≤ 256 by omega)
      simp only [cost,resetCost]
      omega
    | stCount i len count =>
      obtain ⟨rfl,le,-⟩ := locals
      have part := Nat.mul_le_mul_right (taskCost p + 3) (show d.num_nodes - i ≤ 256 by omega)
      simp only [cost,resetCost]
      omega
    | _ => simp only [cost,resetCost]; omega
  | halt k => cases k <;> simp only [cost,haltCost] <;> omega
  | work fn k => cases k <;> simp only [cost,workCost] <;> omega
  | clrCurrent fn | incFin fn | user fn ctx => simp only [cost]; omega

/-- A bound on what a pool may do in one epoch. -/
def budget (p : Nat) : Nat :=
  p * (epochCost p + raceCost) + 64 * tokenCost + 128 * bitCost p + 256 * taskCost p + 256 * (taskCost p + 1)

theorem potential_le {s : Config (Fin p) Shared Vcpu} (core : Core s) : potential s ≤ budget p := by
  have each : ∀ i ∈ Finset.univ, need p s.shared (s.loc i) ≤ epochCost p + raceCost := by
    intro i _
    refine Nat.add_le_add (cost_le core.tasks.valid (core.ok i).locals fun fn k pc => ?_) (stale_le ..)
    have owns : (roles s i).owns fn = 1 := by cases k <;> simp [roles,role,pc,Role.owns]
    exact (core.tasks.of_owns owns).2.2.1
  have all := Finset.sum_le_card_nsmul Finset.univ (fun i => need p s.shared (s.loc i)) (epochCost p + raceCost) each
  rw [Finset.card_univ,Fintype.card_fin,Nat.nsmul_eq_mul] at all
  have awake : tokens s.shared.wakes ≤ 64 := by
    have most := Finset.sum_le_card_nsmul (Finset.range 64) (fun id => (s.shared.wakes.token id).toNat) 1
      fun id _ => Bool.toNat_le _
    simpa [tokens] using most
  have run : runnableCount s.shared.tasks ≤ 256 := by
    have most := Finset.sum_le_card_nsmul (Finset.range 4) (fun idx => popcnt (s.shared.tasks.bm_run_fn idx)) 64
      fun idx _ => popcnt_le _
    simpa [runnableCount] using most
  have wait : waiting s.shared.tasks ≤ 256 := by
    have most :=
      Finset.sum_le_card_nsmul (Finset.range 256) (fun fn => if s.shared.tasks.dag_in_count fn = 0 then 0 else 1) 1
      fun fn _ => by split <;> omega
    simpa [waiting] using most
  have a := Nat.mul_le_mul_left tokenCost awake
  have b := Nat.mul_le_mul_left (bitCost p) (popcnt_le s.shared.wakes.ss_reflective_bm1.word0)
  have c := Nat.mul_le_mul_left (bitCost p) (popcnt_le s.shared.wakes.ss_reflective_bm.word0)
  have d := Nat.mul_le_mul_left (taskCost p) run
  have e := Nat.mul_le_mul_left (taskCost p + 1) wait
  show tally (need p s.shared) s.loc + store p s.shared ≤ budget p
  unfold tally store budget
  omega

/-- A step of `sched` either ends an epoch or leaves their number alone. -/
theorem turns_or_kept {id : Nat} {x : Input} {s s' : Shared} {v v' : Vcpu} (moved : sched id x s v = some (s',v')) :
    s'.log = .turnover id :: s.log ∨ turnovers s'.log = turnovers s.log := by
  obtain ⟨pc,current,t1⟩ := v
  cases pc with
  | boot k =>
    obtain ⟨⟨w,next⟩,woke,same⟩ := Option.map_eq_some_iff.mp moved
    cases same
    exact .inr rfl
  | enter k => cases k <;> cases moved <;> exact .inr rfl
  | wake fn k =>
    cases moved
    refine .inr ?_
    have quiet := wake_silent id x.tsc s.tasks.runnable_tasks s.wakes k
    generalize (wake_up_task id x.tsc s.tasks.runnable_tasks s.wakes k).2.2 = e at quiet
    cases e with
    | none => rfl
    | some ev =>
      have deaf := quiet ev rfl
      cases ev <;> first | exact deaf.elim | rfl
  | noWork k =>
    cases moved
    cases k with
    | cas tot_fn =>
      simp only [noWork]
      split
      · exact .inl rfl
      · exact .inr rfl
    | _ => exact .inr rfl
  | reset k =>
    cases moved
    cases k with
    | exit => cases host : x.host <;> simp [Sched.reset,host]
    | _ => exact .inr rfl
  | halt k =>
    obtain ⟨⟨w,b,t,next,e⟩,slept,same⟩ := Option.map_eq_some_iff.mp moved
    cases same
    cases k with
    | hlt =>
      obtain ⟨w',-,same⟩ := Option.map_eq_some_iff.mp slept
      cases same
      exact .inr rfl
    | _ => cases slept; exact .inr rfl
  | work fn k => cases moved; cases k <;> exact .inr rfl
  | _ => cases moved; exact .inr rfl

/-- Whoever does not doze can go on. -/
theorem sched_moves (id : Nat) (s : Shared) {v : Vcpu} (awake : dozes v.pc = false) : ∃ r, sched id {} s v = some r := by
  obtain ⟨pc,current,t1⟩ := v
  cases pc with
  | boot k => cases k <;> first | exact ⟨_,rfl⟩ | cases awake
  | enter k => cases k <;> exact ⟨_,rfl⟩
  | halt k => cases k <;> first | exact ⟨_,rfl⟩ | cases awake
  | _ => exact ⟨_,rfl⟩

/-- While anything is left somebody is awake to do it. -/
theorem someone_awake {s : Config (Fin p) Shared Vcpu} (core : Core s) (watched : Watched s) :
    ∃ i, dozes (s.loc i).pc = false := by
  by_contra asleep
  have sleepy : ∀ i, dozes (s.loc i).pc = true := by simpa using asleep
  have unfinished : s.shared.tasks.num_fin_fn ≠ BitVec.ofNat 64 s.shared.tasks.metadata.num_nodes := by
    intro all
    obtain ⟨i,due⟩ := watched.epoch all
    rw [(of_dozes (sleepy i)).2.2] at due
    cases due
  obtain ⟨fn,set⟩ := runnable_of_idle core (fun i => (of_dozes (sleepy i)).1) unfinished
  obtain ⟨i,scan⟩ := watched.task fn set
  rw [(of_dozes (sleepy i)).2.1] at scan
  cases scan

/-- The vCPU ends the epoch, and leaves nothing of it. -/
structure Ends (s : Config (Fin p) Shared Vcpu) (a : Fin p × Input) (t : Config (Fin p) Shared Vcpu) : Prop where
  turns : Turns s a.1 t
  quiescent : begun s.shared.log = true → Quiescent s

/-- No spurious wake-up, and the host lets the vCPU go on. -/
def Undisturbed (_ : Config (Fin p) Shared Vcpu) (a : Fin p × Input) : Prop := a.2.intr = false ∧ a.2.host = none

/-- Every epoch ends: whichever vCPUs take the steps, as long as some vCPU does, one
    of the next `budget p + 1` is the CAS that ends it. -/
theorem epoch_ends {n : Nat} (pos : 0 < p) (most : p ≤ 64) (supply : ∀ d, host d → Valid d)
    (constant : ∀ d, host d → d.num_nodes = n) {s : Config (Fin p) Shared Vcpu}
    (reach : Reach (pool p host) (Supplied host) s) :
    Within (pool p host) Undisturbed Ends (budget p + 1) s := by
  have core : ∀ {s}, Reach (pool p host) (Supplied host) s → Core s := fun reach =>
    core_reach supply (fresh_of_constant supply constant reach).1
  have kind : ∀ (s : Config (Fin p) Shared Vcpu) a, Undisturbed s a → Supplied host s a := by
    intro s a calm d installed
    rw [calm.2] at installed
    cases installed
  refine within_of_falls (Φ := potential) kind ?_ ?_ reach (Nat.lt_succ_of_le (potential_le (core reach)))
  · intro s reach
    have watched : Watched s :=
      (fresh_of_constant supply constant reach).1.invariant (fun _ first => Watched.start pos first)
      fun _ _ _ before watched good moved => watched.step supply (core_reach supply before) good.1 good.2 moved
    obtain ⟨i,awake⟩ := someone_awake (core reach) watched
    obtain ⟨r,moves⟩ := sched_moves i.val s.shared awake
    obtain ⟨t,stepped⟩ : ∃ t, (pool p host).step s (i,{}) = some t := by
      show ∃ t, ((sched i.val {} s.shared (s.loc i)).map _).map _ = some t
      rw [moves]
      exact ⟨_,rfl⟩
    exact ⟨(i,{}),t,⟨rfl,rfl⟩,stepped⟩
  · intro s a t reach calm moved goes
    have paid := pool_pays most (core reach) moved
    have none : grant a.2 (s.loc a.1).pc = 0 := by simp [grant,calm.1,calm.2]
    obtain ⟨sh,l,ran,rfl⟩ := pool_step moved
    rcases turns_or_kept ran with turns | kept
    · exfalso
      obtain ⟨all,-⟩ :=
        turns_all supply (core reach) (kind s a calm) ((fresh_of_constant supply constant reach).2 a) moved turns
      exact goes ⟨turns,fun started => quiescent (core reach) started all⟩
    · rw [none] at paid
      change _ + _ * turnovers s.shared.log + 1 ≤ _ + _ * turnovers sh.log + 0 at paid
      rw [kept] at paid
      omega

/-- Two vCPUs run one edge. -/
theorem epoch_ends_edge : Within (pool 2 (· = edge)) Undisturbed Ends (budget 2 + 1) (boot 2 edge) := by
  have supply : ∀ d, d = edge → Valid d := fun _ same => same ▸ edge_valid
  have constant : ∀ d, d = edge → d.num_nodes = 2 := fun _ same => by rw [same]; rfl
  exact epoch_ends (by decide) (by decide) supply constant (.init (boot_init rfl))

/-- The vCPU returns from a `hlt` though nobody has kicked it, or the host installs
    new metadata. -/
def spurious (x : Config (Fin p) Shared Vcpu × (Fin p × Input)) : Bool := blocked (x.1.loc x.2.1).pc && x.2.2.intr
def installs (x : Config (Fin p) Shared Vcpu × (Fin p × Input)) : Bool := x.2.2.host.isSome

theorem grants (l : List (Config (Fin p) Shared Vcpu × (Fin p × Input))) :
    (l.map fun x => grant x.2.2 (x.1.loc x.2.1).pc).sum = tokenCost * l.countP spurious + l.countP installs := by
  induction l with
  | nil => rfl
  | cons x l ih =>
    have here : grant x.2.2 (x.1.loc x.2.1).pc = tokenCost * (spurious x).toNat + (installs x).toNat := by
      unfold grant spurious installs
      cases blocked (x.1.loc x.2.1).pc <;> cases x.2.2.intr <;> cases x.2.2.host.isSome <;> rfl
    rw [List.map_cons,List.sum_cons,ih,here,List.countP_cons,List.countP_cons]
    cases spurious x <;> cases installs x <;> simp [Nat.mul_add] <;> omega

/-- All that a pool ever does: a bounded number of steps for each epoch that it has
    ended, for each spurious wake-up, and one for each intervention of the host. -/
theorem steps_bounded (most : p ≤ 64) (supply : ∀ d, host d → Valid d)
    {l : List (Config (Fin p) Shared Vcpu × (Fin p × Input))}
    {s : Config (Fin p) Shared Vcpu} (run : Run (pool p host) l s)
    (good : ∀ x ∈ l, Supplied host x.1 x.2 ∧ FreshTot x.1 x.2) :
    l.length ≤ budget p + epochCost p * turnovers s.shared.log + tokenCost * l.countP spurious + l.countP installs := by
  have pays : ∀ s a t, Reach (pool p host) (fun s a => Supplied host s a ∧ FreshTot s a) s → Supplied host s a ∧
    FreshTot s a →
      (pool p host).step s a = some t → potential t + epochCost p * turnovers s.shared.log + 1 ≤
        potential s + epochCost p * turnovers t.shared.log + grant a.2 (s.loc a.1).pc :=
    fun s a t reach _ moved => pool_pays most (core_reach supply reach) moved
  have whole := length_le (fun s first => potential_le (Core.start supply first)) pays run good
  rw [grants] at whole
  omega

/-- vCPU 0 runs both nodes of the edge and begins the second epoch. -/
theorem steps_bounded_edge : ∃ (l : List (Config (Fin 2) Shared Vcpu × (Fin 2 × Input))) (s : Config (Fin 2) Shared Vcpu),
    (l.length = 126 ∧ turnovers s.shared.log = 2) ∧
      l.length ≤ budget 2 + epochCost 2 * turnovers s.shared.log + tokenCost * l.countP spurious + l.countP installs := by
  have supply : ∀ d, d = edge → Valid d := fun _ same => same ▸ edge_valid
  have constant : ∀ d, d = edge → d.num_nodes = 2 := fun _ same => by rw [same]; rfl
  let P : Config (Fin 2) Shared Vcpu → Bool := fun s => decide (turnovers s.shared.log = 2)
  have ran : (exec (pool 2 (· = edge)) (boot 2 edge) (schedule 2 [(0,126)])).any P = true := by decide +kernel
  obtain ⟨s,ran,is⟩ := (Option.any_eq_true P _).mp ran
  have first : Run (pool 2 (· = edge)) [] (boot 2 edge) := .init (boot_init rfl)
  obtain ⟨l,run,labels⟩ := exec_run first ran
  have size : (schedule 2 [((0 : Fin 2),126)]).length = 126 := by decide +kernel
  have long := congrArg List.length labels
  rw [List.length_map,List.length_append,List.length_reverse,size] at long
  have supplied : ∀ x ∈ l, Supplied (· = edge) x.1 x.2 := by
    intro x member
    have label : x.2 ∈ schedule 2 [(0,126)] := by
      have among := List.mem_map_of_mem (f := Prod.snd) member
      rw [labels] at among
      simpa using among
    exact schedule_supplied x.2 label x.1
  have count : l.length = 126 := by simpa using long
  exact ⟨l,s,⟨count,of_decide_eq_true is⟩,steps_bounded (by decide) supply run (run_fresh supply constant run supplied)⟩

end
end Bootcode.EpochBound
