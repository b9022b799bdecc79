import Bootcode.Graph
import Bootcode.Startup

/-!
A blocked vCPU can be kicked. While a vCPU sleeps, its `hlt_ts` is younger than its
`kick_ts`, or its wake token is pending, or somebody who has read the time stamp for
its `kick_ts` has yet to kick it. Only the late stores of `scheduler_init_post` can
put the `hlt_ts` of a sleeping vCPU back.
-/
namespace Bootcode.Kicks
open Bootcode.Bits Bootcode.SchedState Bootcode.Interleave Bootcode.Sched Bootcode.SchedSteps Bootcode.Graph Bootcode.Startup
set_option linter.unusedSimpArgs false

/-- Between reading the TSC for `kick_ts[c]` and the hypercall that kicks `c`. -/
def kicking (c : Nat) : Pc → Bool
  | .wake _ (.stKick cpuid _) | .wake _ (.bts cpuid) | .wake _ (.kick cpuid) | .wake _ (.stKick1 cpuid _ _)
  | .wake _ (.kick1 cpuid _) => cpuid = c
  | _ => false
/-- The time stamp that a vCPU about to store its `kick_ts` holds. -/
def held : Pc → Option Word
  | .wake _ (.stKick _ t) | .wake _ (.stKick1 _ _ t) => some t
  | _ => none
/-- The `hlt_ts` that a vCPU `id` which goes to sleep has stored or is about to store. -/
def stamp (hlt_ts : Nat → Word) (id : Nat) : Pc → Option Word
  | .halt (.stHlt t) => some t
  | .boot .hlt | .halt .ldHlt | .halt (.addTs _) | .halt .incN | .halt .bts | .halt .hlt => some (hlt_ts id)
  | _ => none

/-- In the `hlt` of the halt path, not in the boot `hlt`. -/
def halted : Pc → Bool
  | .halt .hlt => true
  | _ => false

section
variable {id : Nat} {x : Input} {w w' : Wakes} {pc pc' : Pc} {e : Option Ev}

theorem halted_iff : halted pc = true ↔ pc = .halt .hlt := by
  constructor
  · intro holds
    cases pc with
    | halt k => cases k <;> first | rfl | cases holds
    | _ => cases holds
  · rintro rfl
    rfl

theorem blocked_iff : blocked pc = true ↔ pc = .boot .hlt ∨ pc = .halt .hlt := by
  constructor
  · intro stopped
    cases pc with
    | boot k => cases k <;> first | exact .inl rfl | cases stopped
    | halt k => cases k <;> first | exact .inr rfl | cases stopped
    | _ => cases stopped
  · rintro (rfl | rfl) <;> rfl

theorem stamp_congr {hlt_ts hlt_ts' : Nat → Word} (same : hlt_ts' id = hlt_ts id) (pc : Pc) :
    stamp hlt_ts' id pc = stamp hlt_ts id pc := by
  unfold stamp
  split <;> simp [same]

theorem of_calm (is : calm pc = true) (c : Nat) (hlt_ts : Nat → Word) (id : Nat) :
    kicking c pc = false ∧ held pc = none ∧ stamp hlt_ts id pc = none ∧ blocked pc = false := by
  cases pc with
  | wake fn k => cases k <;> first | exact ⟨rfl,rfl,rfl,rfl⟩ | cases is
  | boot k => cases k <;> first | exact ⟨rfl,rfl,rfl,rfl⟩ | cases is
  | halt k => cases k <;> first | exact ⟨rfl,rfl,rfl,rfl⟩ | cases is
  | _ => exact ⟨rfl,rfl,rfl,rfl⟩

theorem of_timed (is : timed pc = true) (c : Nat) (hlt_ts : Nat → Word) (id : Nat) :
    kicking c pc = false ∧ held pc = none ∧ stamp hlt_ts id pc = some (hlt_ts id) ∧ blocked pc = false := by
  cases pc with
  | halt k => cases k <;> first | exact ⟨rfl,rfl,rfl,rfl⟩ | cases is
  | _ => cases is

/-- Outside `wake_up_task` a vCPU changes only its own entries. -/
theorem outside (effect : Effect id x pc w pc' w' e) :
    w'.kick_ts = w.kick_ts ∧ (∀ c, kicking c pc = false ∧ kicking c pc' = false) ∧ held pc' = none ∧
      ∀ c, c ≠ id → w'.hlt_ts c = w.hlt_ts c ∧ w'.token c = w.token c ∧
        w'.bm_inactive_vcpus.getLsbD c = w.bm_inactive_vcpus.getLsbD c := by
  cases effect with
  | calm before after same other =>
    refine ⟨by rw [same],fun c => ⟨(of_calm before c w.hlt_ts id).1,(of_calm after c w.hlt_ts id).1⟩,
      (of_calm after 0 w.hlt_ts id).2.1,fun c _ => ?_⟩
    rw [same]
    exact ⟨rfl,rfl,rfl⟩
  | wipe wiped => cases wiped <;> exact ⟨rfl,fun _ => ⟨rfl,rfl⟩,rfl,fun _ _ => ⟨rfl,rfl,rfl⟩⟩
  | tsc => exact ⟨rfl,fun _ => ⟨rfl,rfl⟩,rfl,fun _ _ => ⟨rfl,rfl,rfl⟩⟩
  | stHlt t => exact ⟨rfl,fun _ => ⟨rfl,rfl⟩,rfl,fun c other => ⟨Function.update_of_ne other _ _,rfl,rfl⟩⟩
  | timed before after =>
    exact ⟨rfl,fun c => ⟨(of_timed before c w.hlt_ts id).1,(of_timed after c w.hlt_ts id).1⟩,
      (of_timed after 0 w.hlt_ts id).2.1,fun _ _ => ⟨rfl,rfl,rfl⟩⟩
  | bts => exact ⟨rfl,fun _ => ⟨rfl,rfl⟩,rfl,fun c other => ⟨rfl,rfl,by simp [other.symm]⟩⟩
  | hlt woke | bootHlt woke =>
    rcases hlt_some woke with ⟨rfl,-⟩ | ⟨rfl,-⟩
    · exact ⟨rfl,fun _ => ⟨rfl,rfl⟩,rfl,fun _ _ => ⟨rfl,rfl,rfl⟩⟩
    · exact ⟨rfl,fun _ => ⟨rfl,rfl⟩,rfl,fun c other => ⟨rfl,Function.update_of_ne other _ _,rfl⟩⟩
  | btr | bootBtr => exact ⟨rfl,fun _ => ⟨rfl,rfl⟩,rfl,fun c other => ⟨rfl,rfl,by simp [btrInactive,other.symm]⟩⟩

/-- Outside `wake_up_task` a vCPU that goes to sleep or sleeps has just read its
    stamp, or keeps it; and it sleeps only with its bit of `bm_inactive_vcpus` set. -/
theorem outside_own (effect : Effect id x pc w pc' w' e) (lt : id < 64) :
    (∀ t, stamp w'.hlt_ts id pc' = some t →
      pc.readsTsc = true ∧ t = x.tsc ∨ stamp w.hlt_ts id pc = some t ∧ pc ≠ .boot .hlt ∧ w'.token id = w.token id) ∧
    (blocked pc' = true → w'.bm_inactive_vcpus.getLsbD id = true) := by
  cases effect with
  | calm before after same other =>
    have rest := of_calm after 0 w'.hlt_ts id
    exact ⟨(fun t is => by rw [rest.2.2.1] at is; cases is),(fun is => by rw [rest.2.2.2] at is; cases is)⟩
  | wipe wiped => exact ⟨(fun t is => by cases is),(fun is => by cases is)⟩
  | tsc => exact ⟨fun t is => .inl ⟨rfl,(Option.some.inj is).symm⟩,(fun is => by cases is)⟩
  | stHlt t =>
    refine ⟨fun t' is => .inr ⟨?_,by simp,rfl⟩,(fun is => by cases is)⟩
    simpa [stamp] using is
  | timed before after =>
    have old := of_timed before 0 w.hlt_ts id
    have new := of_timed after 0 w.hlt_ts id
    refine ⟨fun t is => .inr ⟨?_,fun at_ => (by rw [at_] at before; cases before),rfl⟩,
      (fun is => by rw [new.2.2.2] at is; cases is)⟩
    rw [old.2.2.1,← new.2.2.1]
    exact is
  | bts => exact ⟨fun t is => .inr ⟨is,by simp,rfl⟩,fun _ => by simp [lt]⟩
  | hlt woke | bootHlt woke => exact ⟨(fun t is => by cases is),(fun is => by cases is)⟩
  | btr | bootBtr => exact ⟨(fun t is => by cases is),(fun is => by cases is)⟩

/-- Outside `wake_up_task` a vCPU stores only its own `hlt_ts`, with the stamp that it has read. -/
theorem outside_stamps (effect : Effect id x pc w pc' w' e) :
    ((∃ t, pc = .halt (.stHlt t) ∧ w'.hlt_ts = Function.update w.hlt_ts id t) ∨ w'.hlt_ts = w.hlt_ts) ∧
      ∀ t, pc' = .halt (.stHlt t) → pc.readsTsc = true ∧ t = x.tsc := by
  cases effect with
  | calm before after same =>
    refine ⟨.inr (by rw [same]),fun t is => ?_⟩
    rw [is] at after
    cases after
  | wipe wiped => cases wiped <;> exact ⟨.inr rfl,fun t is => by cases is⟩
  | tsc => exact ⟨.inr rfl,fun t is => by cases is; exact ⟨rfl,rfl⟩⟩
  | stHlt t => exact ⟨.inl ⟨t,rfl,rfl⟩,fun t is => by cases is⟩
  | timed before after =>
    refine ⟨.inr rfl,fun t is => ?_⟩
    rw [is] at after
    cases after
  | hlt woke | bootHlt woke => rcases hlt_some woke with ⟨rfl,-⟩ | ⟨rfl,-⟩ <;> exact ⟨.inr rfl,fun t is => by cases is⟩
  | bts | btr | bootBtr => exact ⟨.inr rfl,fun t is => by cases is⟩

/-- What follows a step of `wake_up_task`. -/
def next (fn : Nat) (k : Option WakePc) : Pc := (k.map (Pc.wake fn)).getD (afterWake fn)

theorem of_next (fn : Nat) (k : Option WakePc) (hlt_ts : Nat → Word) (id : Nat) :
    stamp hlt_ts id (next fn k) = none ∧ blocked (next fn k) = false := by
  cases k with
  | none => exact (of_calm (calm_afterWake fn) 0 hlt_ts id).2.2
  | some k => exact ⟨rfl,rfl⟩

theorem held_none (fn : Nat) : held (next fn none) = none := (of_calm (calm_afterWake fn) 0 (fun _ => 0) 0).2.1

/-- Inside `wake_up_task` nobody's `hlt_ts` or bit changes, tokens are only set, and
    whoever changes `kick_ts[c]` is kicking `c` until it sets the token of `c`. -/
theorem inside (id : Nat) (tsc runnable_tasks : Word) (w : Wakes) (fn : Nat) (k : WakePc) :
    let r := wake_up_task id tsc runnable_tasks w k
    r.1.hlt_ts = w.hlt_ts ∧ r.1.bm_inactive_vcpus = w.bm_inactive_vcpus ∧
      ∀ c, (w.token c = true → r.1.token c = true) ∧
        (kicking c (.wake fn k) = true → kicking c (next fn r.2.1) = true ∨ r.1.token c = true) ∧
        (r.1.kick_ts c = w.kick_ts c ∨ kicking c (next fn r.2.1) = true ∧ held (.wake fn k) = some (r.1.kick_ts c)) := by
  cases k with
  | stKick cpuid t | stKick1 cpuid won t =>
    refine ⟨rfl,rfl,fun c => ⟨fun set => set,fun kicks => .inl kicks,?_⟩⟩
    by_cases same : c = cpuid
    · subst same
      exact .inr ⟨by simp [wake_up_task,next,kicking],by simp [wake_up_task,held]⟩
    · exact .inl (Function.update_of_ne same _ _)
  | kick cpuid | kick1 cpuid won =>
    refine ⟨rfl,rfl,fun c => ⟨fun set => ?_,fun kicks => .inr ?_,.inl rfl⟩⟩
    · by_cases same : c = cpuid
      · simp [wake_up_task,Wakes.kick,same]
      · simpa [wake_up_task,Wakes.kick,Function.update_of_ne same] using set
    · have same : cpuid = c := of_decide_eq_true kicks
      simp [wake_up_task,Wakes.kick,same]
  | bts cpuid => exact ⟨rfl,rfl,fun c => ⟨fun set => set,fun kicks => .inl kicks,.inl rfl⟩⟩
  | bsf1 rax | bsf =>
    simp only [wake_up_task]
    split <;> exact ⟨rfl,rfl,fun c => ⟨fun set => set,(fun kicks => by cases kicks),.inl rfl⟩⟩
  | ldKick cpuid hlt =>
    simp only [wake_up_task]
    split <;> exact ⟨rfl,rfl,fun c => ⟨fun set => set,(fun kicks => by cases kicks),.inl rfl⟩⟩
  | _ => exact ⟨rfl,rfl,fun c => ⟨fun set => set,(fun kicks => by cases kicks),.inl rfl⟩⟩

/-- A vCPU holds a time stamp for a `kick_ts` only right after it has read it. -/
theorem held_next (id : Nat) (tsc runnable_tasks : Word) (w : Wakes) (fn : Nat) (k : WakePc) {t : Word}
    (holds : held (next fn (wake_up_task id tsc runnable_tasks w k).2.1) = some t) :
    (Pc.wake fn k).readsTsc = true ∧ t = tsc := by
  have away : ∀ k', held (next fn (some k')) = some t → (∃ c, k' = .stKick c t) ∨ ∃ c won, k' = .stKick1 c won t := by
    intro k' holds
    cases k' with
    | stKick c t' | stKick1 c won t' => cases holds; simp
    | _ => cases holds
  cases out : (wake_up_task id tsc runnable_tasks w k).2.1 with
  | none => rw [out,held_none] at holds; cases holds
  | some k' =>
    rw [out] at holds
    rcases away k' holds with ⟨c,rfl⟩ | ⟨c,won,rfl⟩ <;> cases k <;> simp [wake_up_task] at out <;> grind [Pc.readsTsc]

end

/-- What a vCPU in `wake_up_task` has in hand for a kick of `c`. -/
def about (c : Nat) : Pc → Bool
  | .wake _ (.dcas1 bm) => bm.getLsbD c
  | .wake _ (.bsf1 (some cpuid)) | .wake _ (.btr1 cpuid) | .wake _ (.tsc1 cpuid _) | .wake _ (.ldKick1 cpuid _ _)
  | .wake _ (.tsc2 cpuid _) | .wake _ (.stKick1 cpuid _ _) | .wake _ (.kick1 cpuid _) | .wake _ (.rel1 cpuid _)
  | .wake _ (.incFree cpuid) | .wake _ (.tsc cpuid) | .wake _ (.stKick cpuid _) | .wake _ (.bts cpuid)
  | .wake _ (.kick cpuid) => cpuid = c
  | .wake _ (.ldKick cpuid hlt) => cpuid = c ∧ hlt ≠ 0
  | _ => false

structure Untried (w : Wakes) (c : Nat) : Prop where
  kick_ts : w.kick_ts c = 0
  kicked : w.bm_kicked_vcpus.getLsbD c = false
  listed : w.ss_reflective_bm1.word0.getLsbD c = false

section
variable {id : Nat} {x : Input} {w w' : Wakes} {pc pc' : Pc} {e : Option Ev} {c : Nat}

theorem about_calm (is : calm pc = true) : about c pc = false := by
  cases pc with
  | wake fn k => cases k <;> first | rfl | cases is
  | _ => rfl

/-- Nobody kicks a vCPU without an `hlt_ts`. -/
theorem inside_untried (id : Nat) (tsc runnable_tasks : Word) {fn : Nat} {k : WakePc}
    (unstamped : w.hlt_ts c = 0) (untried : Untried w c) (apart : about c (.wake fn k) = false) :
    Untried (wake_up_task id tsc runnable_tasks w k).1 c ∧
      about c (next fn (wake_up_task id tsc runnable_tasks w k).2.1) = false := by
  obtain ⟨kick_ts,kicked,listed⟩ := untried
  have same : Untried w c := ⟨kick_ts,kicked,listed⟩
  have out : about c (afterWake fn) = false := about_calm (calm_afterWake fn)
  cases k with
  | ldKicked => exact ⟨same,kicked⟩
  | dcas1 bm =>
    refine ⟨⟨kick_ts,kicked,?_⟩,rfl⟩
    simp only [wake_up_task,DCAS]
    split
    · exact apart
    · exact listed
  | bsf1 rax =>
    simp only [wake_up_task]
    split
    · rename_i cpuid found
      refine ⟨same,?_⟩
      have other : cpuid ≠ c := fun is => by
        have there := (bsf_some found).1
        rw [is,listed] at there
        cases there
      simpa [next,about] using other
    · exact ⟨same,apart⟩
    · exact ⟨same,rfl⟩
  | btr1 cpuid =>
    refine ⟨⟨kick_ts,kicked,by simp [wake_up_task,Snap.take,listed]⟩,?_⟩
    simp only [wake_up_task]
    split <;> exact apart
  | stKick1 cpuid won t | stKick cpuid t =>
    have other : c ≠ cpuid := Ne.symm (of_decide_eq_false apart)
    exact ⟨⟨(Function.update_of_ne other _ _).trans kick_ts,kicked,listed⟩,apart⟩
  | bts cpuid =>
    have other : cpuid ≠ c := of_decide_eq_false apart
    exact ⟨⟨kick_ts,by simp [wake_up_task,other,kicked],listed⟩,apart⟩
  | ldHlt cpuid =>
    refine ⟨same,?_⟩
    by_cases here : cpuid = c
    · subst here
      simp [wake_up_task,next,about,unstamped]
    · simp [wake_up_task,next,about,here]
  | ldKick cpuid hlt =>
    simp only [wake_up_task]
    split
    · rename_i young
      refine ⟨same,decide_eq_false fun here => ?_⟩
      subst here
      have zero : hlt = 0 := by simpa [about] using apart
      rw [zero,kick_ts] at young
      exact absurd young (Nat.lt_irrefl _)
    · exact ⟨same,rfl⟩
  | ldKick1 cpuid won t =>
    simp only [wake_up_task]
    split <;> exact ⟨same,apart⟩
  | ldFree runnable | casSig tmp =>
    simp only [wake_up_task]
    split <;> exact ⟨⟨kick_ts,kicked,listed⟩,rfl⟩
  | btr cpuid =>
    simp only [wake_up_task]
    split <;> exact ⟨⟨kick_ts,kicked,listed⟩,rfl⟩
  | bsf =>
    simp only [wake_up_task]
    split
    · exact ⟨same,rfl⟩
    · exact ⟨same,out⟩
  | xadd =>
    simp only [wake_up_task]
    split
    · split <;> exact ⟨⟨kick_ts,kicked,listed⟩,rfl⟩
    · exact ⟨⟨kick_ts,kicked,listed⟩,out⟩
  | tsc1 | tsc2 | kick1 | incFree | tsc => exact ⟨⟨kick_ts,kicked,listed⟩,apart⟩
  | _ => exact ⟨⟨kick_ts,kicked,listed⟩,rfl⟩

theorem outside_untried (effect : Effect id x pc w pc' w' e) (untried : Untried w c) :
    Untried w' c ∧ about c pc' = false := by
  obtain ⟨kick_ts,kicked,listed⟩ := untried
  cases effect with
  | calm before after same other fewer =>
    refine ⟨⟨by rw [same]; exact kick_ts,?_,by rw [same]; exact listed⟩,about_calm after⟩
    by_contra set
    rw [fewer c (by simpa using set)] at kicked
    cases kicked
  | wipe wiped => cases wiped <;> exact ⟨⟨kick_ts,kicked,by first | exact listed | simp⟩,rfl⟩
  | timed before after =>
    refine ⟨⟨kick_ts,kicked,listed⟩,?_⟩
    cases pc' with
    | wake fn k => cases after
    | _ => rfl
  | hlt woke | bootHlt woke =>
    rcases hlt_some woke with ⟨rfl,-⟩ | ⟨rfl,-⟩ <;> exact ⟨⟨kick_ts,kicked,listed⟩,rfl⟩
  | _ => exact ⟨⟨kick_ts,kicked,listed⟩,rfl⟩

end

section
variable {p : Nat} {host : Metadata → Prop}

/-! ### The pool from the image on -/

/-- A vCPU at its boot `hlt` has been there before, and nobody has stamped it. -/
theorem boot_kept {s s' : Config (Fin p) Shared Vcpu} {a : Fin p × Input}
    (moved : (pool p host).step s a = some s') {c : Fin p} (boots : (s'.loc c).pc = .boot .hlt) :
    (s.loc c).pc = .boot .hlt ∧ s'.shared.wakes.hlt_ts c.val = s.shared.wakes.hlt_ts c.val := by
  obtain ⟨sh,ran,shared,others⟩ := pool_frame moved
  rw [shared]
  by_cases inWake : ∃ fn k, (s.loc a.1).pc = .wake fn k
  · obtain ⟨fn,k,pc⟩ := inWake
    obtain ⟨wakes,after,-⟩ := inside_wake ran pc
    have other : c ≠ a.1 := by
      rintro rfl
      have awake :=
        (of_next fn (wake_up_task a.1.val a.2.tsc s.shared.tasks.runnable_tasks s.shared.wakes k).2.1 (fun _ => 0) 0).2
      rw [← show (s'.loc a.1).pc = next fn _ from after,boots] at awake
      cases awake
    rw [others c other] at boots
    exact ⟨boots,by rw [wakes,(inside a.1.val _ _ _ fn k).1]⟩
  · obtain ⟨e,effect,-⟩ := outside_wake ran (by simpa using inWake)
    have other : c ≠ a.1 := by
      rintro rfl
      generalize (s.loc a.1).pc = pc,(s'.loc a.1).pc = pc',s.shared.wakes = w,sh.wakes = w' at effect boots
      subst boots
      cases effect with
      | calm before after => cases after
      | timed before after => cases after
    rw [others c other] at boots
    exact ⟨boots,((outside effect).2.2.2 c.val fun is => other (Fin.ext is)).1⟩

/-- vCPU 0 has not entered `sched`, and a vCPU that has never left its boot `hlt` has no
    `hlt_ts` until vCPU 0 stores one. -/
structure Booting (m : Machine p) : Prop where
  waits : m.init ≠ .sched → ∀ i : Fin p, i.val = 0 → m.config.loc i = bootVcpu 0
  unstamped : ∀ c : Fin p, (m.config.loc c).pc = .boot .hlt → ¬ stamped m.init c.val →
    m.config.shared.wakes.hlt_ts c.val = 0
  inside : ∀ t i, m.init = .stHlt t i → i < p

theorem Booting.step {m m' : Machine p} {a : Fin p × Input} (boots : Booting m)
    (moved : (startup p host).step m a = some m') :
    Booting m' := by
  rcases startup_cases moved with ⟨-,sh,ran,config⟩ | ⟨up,init,ran⟩
  · have before : m.init ≠ .sched := fun is => by rw [is] at ran; cases ran
    have waits := boots.waits before
    refine ⟨fun _ => by rw [config]; exact waits,?_,fun t i => init_inside ran⟩
    rw [config]
    intro c asleep unstamped
    have low : 1 ≤ c.val := by
      by_contra zero
      rw [show m.config.loc c = bootVcpu 0 from waits c (by omega)] at asleep
      cases asleep
    rcases init_wakes ran with ⟨t,i,pc,rfl,next⟩ | ⟨-,hlt_ts,same⟩
    · have later : ¬ c.val < i + 1 := by
        intro lt
        apply unstamped
        rw [next]
        split
        · exact lt
        · trivial
      have old := boots.unstamped c asleep (by rw [pc]; exact fun lt => later (Nat.lt_succ_of_lt lt))
      exact (Function.update_of_ne (by omega) _ _).trans old
    · rw [hlt_ts]
      exact boots.unstamped c asleep fun is => unstamped ((same c.val low c.isLt).mpr is)
  · rw [← init] at up
    constructor
    · intro down i zero
      have other : i ≠ a.1 := fun mine => down (up (mine ▸ zero))
      obtain ⟨-,-,-,others⟩ := pool_frame ran
      rw [others i other]
      exact boots.waits (init ▸ down) i zero
    · intro c asleep unstamped
      obtain ⟨before,same⟩ := boot_kept ran asleep
      rw [same]
      exact boots.unstamped c before (init ▸ unstamped)
    · exact init ▸ boots.inside

theorem booting_reach {good : Machine p → Fin p × Input → Prop} {m : Machine p} (reach : Reach (startup p host) good m) :
    Booting m := by
  apply reach.invariant
  · rintro m ⟨d,dag_in_count,book,-,rfl⟩
    exact ⟨fun _ i zero => by simp only [zero],fun c _ _ => rfl,nofun⟩
  · exact fun m a m' _ boots _ moved => boots.step moved

structure KickInv (k : InitPc) (s : Config (Fin p) Shared Vcpu) : Prop where
  kicks : ∀ c, (s.shared.wakes.kick_ts c).toNat ≤ s.shared.clock.toNat
  held : ∀ i t, held (s.loc i).pc = some t → t.toNat ≤ s.shared.clock.toNat
  fresh : ∀ (c : Fin p) t, stamp s.shared.wakes.hlt_ts c.val (s.loc c).pc = some t →
    ((s.loc c).pc = .boot .hlt → stamped k c.val) → (s.shared.wakes.kick_ts c.val).toNat < t.toNat ∨
      s.shared.wakes.token c.val = true ∨ ∃ i, kicking c.val (s.loc i).pc = true
  inactive : marked k → ∀ c : Fin p, blocked (s.loc c).pc = true → s.shared.wakes.bm_inactive_vcpus.getLsbD c.val = true
  untried : ∀ c, s.shared.wakes.hlt_ts c = 0 → Untried s.shared.wakes c ∧ ∀ i, about c (s.loc i).pc = false
  positive : ∀ i t, (s.loc i).pc = .halt (.stHlt t) → t ≠ 0
  inHand : ∀ t, inHand k = some t → t ≠ 0

/-- A vCPU in `wake_up_task` stores into `kick_ts[c]` only while it is kicking `c`. -/
theorem KickInv.step_inside {k : InitPc} {s s' : Config (Fin p) Shared Vcpu} {a : Fin p × Input} {fn : Nat} {w : WakePc}
    (inv : KickInv k s) (ticks : Ticking s a) (moved : (pool p host).step s a = some s')
    (pc : (s.loc a.1).pc = .wake fn w) :
    KickInv k s' := by
  have later := clock_le ticks moved
  obtain ⟨sh,ran,shared,others⟩ := pool_frame moved
  have wakes' : s'.shared.wakes = sh.wakes := by rw [shared]
  obtain ⟨wakes,after,-⟩ := inside_wake ran pc
  obtain ⟨hlt_ts,bits,each⟩ := inside a.1.val a.2.tsc s.shared.tasks.runnable_tasks s.shared.wakes fn w
  change (s'.loc a.1).pc = next fn _ at after
  rw [← wakes,← wakes'] at hlt_ts bits each
  simp only [← after] at each
  have rest := of_next fn (wake_up_task a.1.val a.2.tsc s.shared.tasks.runnable_tasks s.shared.wakes w).2.1
    s'.shared.wakes.hlt_ts a.1.val
  rw [← after] at rest
  have awake : ∀ {t}, stamp s'.shared.wakes.hlt_ts a.1.val (s'.loc a.1).pc ≠ some t :=
    fun is => by rw [rest.1] at is; cases is
  constructor
  · intro c
    apply Nat.le_trans _ later
    rcases (each c).2.2 with same | ⟨-,own⟩
    · rw [same]
      exact inv.kicks c
    · exact inv.held a.1 _ (pc ▸ own)
  · intro i t is
    by_cases same : i = a.1
    · subst same
      rw [after] at is
      obtain ⟨reads,rfl⟩ := held_next _ _ _ _ _ _ is
      rw [shared,pc]
      simp only [reads,if_true]
      exact Nat.le_refl _
    · rw [others i same] at is
      exact (inv.held i t is).trans later
  · intro c t is
    have other : c ≠ a.1 := by
      rintro rfl
      exact awake is
    rw [others c other,hlt_ts] at is
    rw [others c other]
    intro boot
    rcases inv.fresh c t is boot with older | set | ⟨i,kicks⟩
    · rcases (each c.val).2.2 with kept | ⟨kicks,-⟩
      · exact .inl (by rw [kept]; exact older)
      · exact .inr (.inr ⟨a.1,kicks⟩)
    · exact .inr (.inl ((each c.val).1 set))
    · by_cases mine : i = a.1
      · subst mine
        rw [pc] at kicks
        rcases (each c.val).2.1 kicks with kicks | set
        · exact .inr (.inr ⟨a.1,kicks⟩)
        · exact .inr (.inl set)
      · exact .inr (.inr ⟨i,by rw [others i mine]; exact kicks⟩)
  · intro marks c is
    have other : c ≠ a.1 := by
      rintro rfl
      rw [rest.2] at is
      cases is
    rw [others c other] at is
    rw [bits]
    exact inv.inactive marks c is
  · intro c none_
    rw [hlt_ts] at none_
    obtain ⟨untried,apart⟩ := inv.untried c none_
    obtain ⟨untried',apart'⟩ :=
      inside_untried a.1.val a.2.tsc s.shared.tasks.runnable_tasks none_ untried (pc ▸ apart a.1)
    rw [wakes',wakes]
    exact ⟨untried',
      forall_of_others (P := fun _ v => about c v.pc = false) others (by rw [after]; exact apart') fun i _ => apart i⟩
  · refine forall_of_others (P := fun _ v => ∀ t, v.pc = .halt (.stHlt t) → t ≠ 0) others ?_ fun i _ => inv.positive i
    intro t is
    rw [is] at awake
    exact absurd rfl awake
  · exact inv.inHand

/-- Elsewhere a vCPU at most renews its own `hlt_ts` with the time stamp that it has read. -/
theorem KickInv.step_outside {k : InitPc} {s s' : Config (Fin p) Shared Vcpu} {a : Fin p × Input} (most : p ≤ 63)
    (inv : KickInv k s) (ticks : Ticking s a) (moved : (pool p host).step s a = some s')
    (out : ∀ fn w, (s.loc a.1).pc ≠ .wake fn w) : KickInv k s' := by
  have later := clock_le ticks moved
  obtain ⟨sh,ran,shared,others⟩ := pool_frame moved
  have wakes' : s'.shared.wakes = sh.wakes := by rw [shared]
  obtain ⟨e,effect,-⟩ := outside_wake ran out
  rw [← wakes'] at effect
  obtain ⟨kick_ts,kicks,held,frame⟩ := outside effect
  obtain ⟨own,sleeps⟩ := outside_own effect (by omega)
  obtain ⟨stores,stamps⟩ := outside_stamps effect
  have stays : ∀ c, (∃ i, kicking c (s.loc i).pc = true) → ∃ i, kicking c (s'.loc i).pc = true := by
    intro c
    apply exists_of_others (P := fun v => kicking c v.pc = true) others
    intro is
    rw [(kicks c).1] at is
    cases is
  constructor
  · intro c
    rw [kick_ts]
    exact (inv.kicks c).trans later
  · refine forall_of_others (P := fun _ v => ∀ t, Kicks.held v.pc = some t → t.toNat ≤ s'.shared.clock.toNat) others ?_ ?_
    · intro t is
      rw [held] at is
      cases is
    · intro i _ t is
      exact (inv.held i t is).trans later
  · intro c t is
    rw [kick_ts]
    by_cases same : c = a.1
    · subst same
      intro _
      rcases own t is with ⟨reads,rfl⟩ | ⟨old,past,token⟩
      · exact .inl ((inv.kicks a.1.val).trans_lt (ticks reads))
      · rw [token]
        exact (inv.fresh a.1 t old fun boot => absurd boot past).imp_right (.imp_right (stays _))
    · obtain ⟨hlt,token,-⟩ := frame c.val (fun is => same (Fin.ext is))
      rw [others c same,stamp_congr hlt] at is
      rw [token,others c same]
      exact fun boot => (inv.fresh c t is boot).imp_right (.imp_right (stays _))
  · intro marks
    refine forall_of_others (P := fun (c : Fin p) v => blocked v.pc = true →
      s'.shared.wakes.bm_inactive_vcpus.getLsbD c.val = true) others sleeps ?_
    intro c other is
    rw [(frame c.val (fun is => other (Fin.ext is))).2.2]
    exact inv.inactive marks c is
  · intro c none_
    have old : s.shared.wakes.hlt_ts c = 0 := by
      rcases stores with ⟨t,pc,hlt⟩ | hlt
      · rw [hlt] at none_
        by_cases mine : c = a.1.val
        · subst mine
          rw [Function.update_self] at none_
          exact absurd none_ (inv.positive a.1 t pc)
        · rwa [Function.update_of_ne mine] at none_
      · rwa [hlt] at none_
    obtain ⟨untried,apart⟩ := inv.untried c old
    obtain ⟨untried',apart'⟩ := outside_untried effect untried
    exact ⟨untried',forall_of_others (P := fun _ v => about c v.pc = false) others apart' fun i _ => apart i⟩
  · refine forall_of_others (P := fun _ v => ∀ t, v.pc = .halt (.stHlt t) → t ≠ 0) others ?_ fun i _ => inv.positive i
    intro t is
    obtain ⟨reads,rfl⟩ := stamps t is
    have later := ticks reads
    rintro zero
    rw [zero] at later
    exact absurd later (Nat.not_lt_zero _)
  · exact inv.inHand

theorem KickInv.step {k : InitPc} {s s' : Config (Fin p) Shared Vcpu} {a : Fin p × Input} (most : p ≤ 63)
    (inv : KickInv k s) (ticks : Ticking s a) (moved : (pool p host).step s a = some s') : KickInv k s' := by
  by_cases inWake : ∃ fn w, (s.loc a.1).pc = .wake fn w
  · obtain ⟨fn,w,pc⟩ := inWake
    exact inv.step_inside ticks moved pc
  · exact inv.step_outside most ticks moved (by simpa using inWake)

/-- From the store of its own `hlt_ts` to the return of its `hlt`. -/
def dozing (pc : Pc) : Bool := timed pc || halted pc

/-- When `scheduler_init_post` stores `hlt_ts[i] = t` over one that vCPU `i` has stored
    itself and relies on, `t` is still larger than `kick_ts[i]`. -/
def StampOk (m : Machine p) (a : Fin p × Input) : Prop :=
  a.1.val = 0 → ∀ t i, m.init = .stHlt t i → ∀ c : Fin p, c.val = i → dozing (m.config.loc c).pc = true →
    (m.config.shared.wakes.kick_ts i).toNat < t.toNat

/-- The stamp of a vCPU that has left its boot `hlt` and does not doze is none of `hlt_ts`. -/
theorem stamp_awake {pc : Pc} (awake : dozing pc = false) (left : pc ≠ .boot .hlt) (hlt_ts hlt_ts' : Nat → Word)
    (id : Nat) :
    stamp hlt_ts' id pc = stamp hlt_ts id pc := by
  cases pc with
  | boot k => cases k <;> first | rfl | exact absurd rfl left
  | halt k => cases k <;> first | rfl | cases awake
  | _ => rfl

theorem stamp_dozing {pc : Pc} (dozes : dozing pc = true) (hlt_ts : Nat → Word) (id : Nat) :
    stamp hlt_ts id pc = some (hlt_ts id) := by
  cases pc with
  | halt k => cases k <;> first | rfl | cases dozes
  | boot k => cases k <;> first | rfl | cases dozes
  | _ => cases dozes

/-- A stamp of the initialisation is later than any kick of a vCPU that has not left its
    boot `hlt`, and by `StampOk` than those of one that relies on it. -/
theorem KickInv.init_fresh {m m' : Machine p} {a : Fin p × Input} {sh : Shared} (boots : Booting m)
    (inv : KickInv m.init m.config) (ok : StampOk m a) (zero : a.1.val = 0)
    (ran : scheduler_init p a.2.tsc m.config.shared m.init = some (sh,m'.init)) {c : Fin p} {t : Word}
    (is : stamp sh.wakes.hlt_ts c.val (m.config.loc c).pc = some t)
    (boot : (m.config.loc c).pc = .boot .hlt → stamped m'.init c.val) :
    (sh.wakes.kick_ts c.val).toNat < t.toNat ∨ sh.wakes.token c.val = true ∨
      ∃ i, kicking c.val (m.config.loc i).pc = true := by
  have waits := boots.waits fun is => by rw [is] at ran; cases ran
  obtain ⟨⟨kick_ts,token,-⟩,-⟩ := init_frame ran
  rw [kick_ts,token]
  rcases init_wakes ran with ⟨u,i,pc,stored,next⟩ | ⟨-,hlt_ts,same⟩
  · by_cases mine : c.val = i
    · by_cases asleep : (m.config.loc c).pc = .boot .hlt
      · have old := boots.unstamped c asleep (by rw [pc,mine]; exact Nat.lt_irrefl i)
        have new : u = t := by
          rw [asleep,stored] at is
          simpa [stamp,mine] using is
        have pos : u.toNat ≠ 0 := fun none_ => inv.inHand u (by rw [pc]; rfl) (BitVec.eq_of_toNat_eq none_)
        rw [(inv.untried c old).1.kick_ts,← new]
        exact .inl (Nat.pos_of_ne_zero pos)
      · cases dozes : dozing (m.config.loc c).pc with
        | false =>
          rw [stamp_awake dozes asleep m.config.shared.wakes.hlt_ts] at is
          exact inv.fresh c t is fun at_ => absurd at_ asleep
        | true =>
          have new : u = t := by
            rw [stamp_dozing dozes,stored] at is
            simpa [mine] using is
          rw [← new,mine]
          exact .inl (ok zero u i pc c mine dozes)
    · have kept : sh.wakes.hlt_ts c.val = m.config.shared.wakes.hlt_ts c.val := by
        rw [stored]
        exact Function.update_of_ne mine _ _
      rw [stamp_congr kept] at is
      refine inv.fresh c t is fun asleep => ?_
      have before := boot asleep
      rw [next] at before
      rw [pc]
      have lt : c.val < i + 1 := by
        split at before
        · exact before
        · omega
      exact Nat.lt_of_le_of_ne (Nat.le_of_lt_succ lt) mine
  · rw [stamp_congr (by rw [hlt_ts])] at is
    refine inv.fresh c t is fun asleep => (same c ?_ c.isLt).mp (boot asleep)
    by_contra first
    rw [waits c (by omega)] at asleep
    cases asleep

theorem KickInv.init {m m' : Machine p} {a : Fin p × Input} {sh : Shared} (most : p ≤ 63) (boots : Booting m)
    (inv : KickInv m.init m.config) (ticks : Ticks m a) (ok : StampOk m a) (zero : a.1.val = 0)
    (ran : scheduler_init p a.2.tsc m.config.shared m.init = some (sh,m'.init)) :
    KickInv m'.init { m.config with shared := sh } := by
  have waits := boots.waits fun is => by rw [is] at ran; cases ran
  obtain ⟨⟨kick_ts,-,listed,-,-,kicked⟩,-,hand,bits⟩ := init_frame ran
  have later := init_clock_le ticks zero ran
  constructor
  · intro c
    rw [kick_ts]
    exact (inv.kicks c).trans later
  · exact fun i t is => (inv.held i t is).trans later
  · exact fun c t is boot => inv.init_fresh boots ok zero ran is boot
  · intro marks c asleep
    rcases bits marks with ⟨old,same⟩ | new
    · have other : c.val ≠ 0 := by
        intro first
        dsimp only at asleep
        rw [waits c first] at asleep
        cases asleep
      exact (same c.val other).trans (inv.inactive old c asleep)
    · show sh.wakes.bm_inactive_vcpus.getLsbD c.val = true
      rw [new]
      exact (getLsbD_pool most).trans (decide_eq_true c.isLt)
  · intro c none_
    have old : m.config.shared.wakes.hlt_ts c = 0 := by
      rcases init_wakes ran with ⟨u,i,pc,rfl,next⟩ | ⟨-,hlt_ts,-⟩
      · by_cases mine : c = i
        · subst mine
          exact absurd ((Function.update_self ..).symm.trans none_) (inv.inHand u (by rw [pc]; rfl))
        · exact (Function.update_of_ne mine _ _).symm.trans none_
      · exact hlt_ts ▸ none_
    obtain ⟨⟨tried,set,offered⟩,apart⟩ := inv.untried c old
    refine ⟨⟨kick_ts ▸ tried,?_,listed ▸ offered⟩,apart⟩
    by_contra is
    rw [kicked c (by simpa using is)] at set
    cases set
  · exact inv.positive
  · intro t is
    rcases hand t is with old | ⟨now,rfl⟩
    · exact inv.inHand t old
    · intro none_
      have after := ticks.init zero now
      rw [none_] at after
      exact absurd after (Nat.not_lt_zero _)

theorem kick_reach (most : p ≤ 63) {m : Machine p}
    (reach : Reach (startup p host) (fun m a => Ticks m a ∧ StampOk m a) m) : KickInv m.init m.config := by
  apply reach.invariant
  · rintro m ⟨d,dag_in_count,book,-,rfl⟩
    have pcs : ∀ i : Fin p, (bootVcpu i.val).pc = .enter .tsc ∨ (bootVcpu i.val).pc = .boot .hlt := by
      intro i
      by_cases zero : i.val = 0 <;> simp [bootVcpu,zero]
    refine ⟨fun c => Nat.zero_le _,?_,?_,nofun,?_,?_,nofun⟩
    · intro i t is
      rcases pcs i with pc | pc <;> dsimp only at is <;> rw [pc] at is <;> cases is
    · intro c t is boot
      rcases pcs c with pc | pc <;> dsimp only at is boot
      · rw [pc] at is
        cases is
      · exact absurd (boot pc) id
    · refine fun c _ => ⟨⟨rfl,by simp [image],by simp [image]⟩,fun i => ?_⟩
      rcases pcs i with pc | pc <;> dsimp only <;> rw [pc] <;> rfl
    · intro i t is
      rcases pcs i with pc | pc <;> dsimp only at is <;> rw [pc] at is <;> cases is
  · intro m a m' before inv ok moved
    rcases startup_cases moved with ⟨zero,sh,ran,config⟩ | ⟨up,init,ran⟩
    · rw [config]
      exact inv.init most (booting_reach before) ok.1 ok.2 zero ran
    · rw [init]
      exact inv.step most (ok.1.pool up) ran

/-- What is promised of a vCPU that is blocked with no wake token pending. -/
def Kickable (s : Config (Fin p) Shared Vcpu) : Prop :=
  ∀ c : Fin p, blocked (s.loc c).pc = true → s.shared.wakes.token c.val = false →
    s.shared.wakes.bm_inactive_vcpus.getLsbD c.val = true ∧
      ((s.shared.wakes.kick_ts c.val).toNat < (s.shared.wakes.hlt_ts c.val).toNat ∨
        ∃ i, kicking c.val (s.loc i).pc = true)

/-- With a TSC that strictly increases, a blocked vCPU can always be kicked once the
    scheduler is initialised, unless that put back the stamp of a vCPU that dozed. -/
theorem blocked_kickable (most : p ≤ 63) {m : Machine p}
    (reach : Reach (startup p host) (fun m a => Ticks m a ∧ StampOk m a) m) (up : m.init = .sched) : Kickable m.config := by
  have inv := kick_reach most reach
  rw [up] at inv
  intro c stopped silent
  refine ⟨inv.inactive trivial c stopped,?_⟩
  have stamped : stamp m.config.shared.wakes.hlt_ts c.val (m.config.loc c).pc =
    some (m.config.shared.wakes.hlt_ts c.val) := by
    rcases blocked_iff.mp stopped with pc | pc <;> rw [pc] <;> rfl
  rcases inv.fresh c _ stamped fun _ => trivial with older | pending | kicks
  · exact .inl older
  · rw [silent] at pending
    cases pending
  · exact .inr kicks

/-- vCPU 1 leaves its boot `hlt` before its stamp is stored, loses the epoch to vCPU 0 and halts. -/
theorem blocked_kickable_halt : ∃ m : Machine 2, m.init = .sched ∧
    (m.config.loc 1).pc = .halt .hlt ∧ m.config.shared.wakes.token 1 = false ∧ Kickable m.config := by
  let check : Machine 2 → Fin 2 × Input → Bool := fun m a => decide (Ticks m a) &&
    match m.init with
    | .stHlt t i => decide (∀ c : Fin 2, c.val = i → dozing (m.config.loc c).pc = true →
        (m.config.shared.wakes.kick_ts i).toNat < t.toNat)
    | _ => true
  let S := (startup 2 (· = single)).guard check
  let P : Machine 2 → Bool := fun m =>
    decide (m.init = .sched) && halted (m.config.loc 1).pc && !m.config.shared.wakes.token 1
  have ran : (exec S (imaged 2 single)
      (schedule 1 [(0,12)] ++ (1,{ intr := true }) :: schedule 13 [(1,3),(0,23),(1,23)])).any P = true := by decide +kernel
  have first : S.init (imaged 2 single) := imaged_init rfl
  obtain ⟨m,reach,holds⟩ := exec_exists first (fun _ _ _ => trivial) ran
  have good : Reach (startup 2 (· = single)) (fun m a => Ticks m a ∧ StampOk m a) m := by
    refine (Reach.of_guard reach).mono fun m a ok => ?_
    simp only [check,Bool.and_eq_true] at ok
    refine ⟨of_decide_eq_true ok.1,fun _ t i pc => ?_⟩
    rw [pc] at ok
    exact of_decide_eq_true ok.2
  simp only [P,Bool.and_eq_true,Bool.not_eq_true',decide_eq_true_eq] at holds
  obtain ⟨⟨up,asleep⟩,silent⟩ := holds
  exact ⟨m,up,halted_iff.mp asleep,silent,blocked_kickable (by decide) good up⟩

/-- vCPU 1 leaves its boot `hlt` and halts before vCPU 0 stores its stamp. vCPU 2 wins
    the epoch, kicks it and leaves it no work, and it halts again; then the late store
    makes it look as if it had been kicked since. -/
theorem stamp_put_back : ¬ ∀ m, Reach (startup 3 (· = fan)) Ticks m → m.init = .sched → Kickable m.config := by
  intro kickable
  let S := (startup 3 (· = fan)).guard fun m a => decide (Ticks m a)
  let P : Machine 3 → Bool := fun m => decide (m.init = .sched) && halted (m.config.loc 1).pc &&
    !m.config.shared.wakes.token 1 && decide (m.config.shared.wakes.hlt_ts 1 ≤ m.config.shared.wakes.kick_ts 1) &&
    decide (∀ i, kicking 1 (m.config.loc i).pc = false)
  have ran : (exec S (imaged 3 fan) (schedule 1 [(0,13)] ++ (1,{ intr := true }) :: schedule 15 [(1,26),(0,1)] ++
      (2,{ intr := true }) :: schedule 44 [(2,196),(1,17),(0,3)])).any P = true := by decide +kernel
  have first : S.init (imaged 3 fan) := imaged_init rfl
  obtain ⟨m,reach,holds⟩ := exec_exists first (fun _ _ _ => trivial) ran
  have ticks : Reach (startup 3 (· = fan)) Ticks m := (Reach.of_guard reach).mono fun _ _ ok => of_decide_eq_true ok
  simp only [P,Bool.and_eq_true,Bool.not_eq_true',decide_eq_true_eq] at holds
  obtain ⟨⟨⟨⟨up,asleep⟩,silent⟩,older⟩,nobody⟩ := holds
  obtain ⟨-,young | ⟨i,kicks⟩⟩ := kickable m ticks up 1 (by rw [halted_iff.mp asleep]; rfl) silent
  · exact absurd young (Nat.not_lt.mpr older)
  · have none_ := nobody i
    rw [show (1 : Nat) = ((1 : Fin 3) : Nat) from rfl,kicks] at none_
    cases none_

end
end Bootcode.Kicks
