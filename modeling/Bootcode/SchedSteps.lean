import Bootcode.Sched

/-!
What a step of `sched` outside `wake_up_task` does to the wake-up state: most of
it is left alone, and the rest is one of a few effects of the halt path, of the
boot `hlt` and of the epoch reset.
-/
namespace Bootcode.SchedSteps
open Bootcode.Bits Bootcode.SchedState Bootcode.Interleave Bootcode.Sched
set_option linter.unusedSimpArgs false

/-- Not inside `wake_up_task`, nor from the halt path's time stamp to the `btr` of
    `bm_inactive_vcpus` after the `hlt`. -/
def calm : Pc → Bool
  | .wake _ .ldKicked => true
  | .wake _ _ | .boot .hlt | .boot .btrInactive | .halt (.stHlt _) | .halt .ldHlt | .halt (.addTs _) | .halt .incN | .halt .bts
  | .halt .hlt | .halt .btrInactive => false
  | _ => true
/-- Stopped at a `hlt`. -/
def blocked : Pc → Bool
  | .boot .hlt | .halt .hlt => true
  | _ => false
/-- Between the store of `hlt_ts` and the `bts` of `bm_inactive_vcpus`. -/
def timed : Pc → Bool
  | .halt .ldHlt | .halt (.addTs _) | .halt .incN | .halt .bts => true
  | _ => false

/-- Only `num_free_vcpu` and `bm_kicked_vcpus` differ. -/
def Untouched (w w' : Wakes) : Prop :=
  w' = { w with num_free_vcpu := w'.num_free_vcpu, bm_kicked_vcpus := w'.bm_kicked_vcpus }

/-- Events of `wake_up_task` and of the halt path. -/
def ofWakes : Ev → Prop
  | .grant _ | .draw _ | .halted _ | .firstKick _ _ => True
  | _ => False

/-- A store of the epoch reset to a snapshot. -/
inductive Wipe (w : Wakes) : ResetPc → ResetPc → Wakes → Prop
  | clr0 : Wipe w .clr0 .clr1 { w with ss_reflective_bm := { w.ss_reflective_bm with word0 := 0 } }
  | clr1 : Wipe w .clr1 .clr10 { w with ss_reflective_bm := { w.ss_reflective_bm with word1 := 0 } }
  | clr10 : Wipe w .clr10 .clr11 { w with ss_reflective_bm1 := { w.ss_reflective_bm1 with word0 := 0 } }
  | clr11 : Wipe w .clr11 .ldKicked { w with ss_reflective_bm1 := { w.ss_reflective_bm1 with word1 := 0 } }

inductive Effect (id : Nat) (x : Input) : Pc → Wakes → Pc → Wakes → Option Ev → Prop
  | calm {pc w pc' w' e} (before : calm pc = true) (after : calm pc' = true) (same : Untouched w w')
      (other : ∀ ev ∈ e, ¬ ofWakes ev)
      (fewer : ∀ c, w'.bm_kicked_vcpus.getLsbD c = true → w.bm_kicked_vcpus.getLsbD c = true) : Effect id x pc w pc' w' e
  | wipe {w w' k k'} (wiped : Wipe w k k' w') : Effect id x (.reset k) w (.reset k') w' none
  | tsc {w} : Effect id x (.halt .tsc) w (.halt (.stHlt x.tsc)) w none
  | stHlt {w} (t : Word) :
      Effect id x (.halt (.stHlt t)) w (.halt .ldHlt) { w with hlt_ts := Function.update w.hlt_ts id t } (some (.halted id))
  | timed {pc w pc'} (before : timed pc = true) (after : timed pc' = true) : Effect id x pc w pc' w none
  | bts {w} : Effect id x (.halt .bts) w (.halt .hlt) { w with bm_inactive_vcpus := bts w.bm_inactive_vcpus id } none
  | hlt {w w'} (woke : hlt id x.intr w = some w') : Effect id x (.halt .hlt) w (.halt .btrInactive) w' none
  | bootHlt {w w'} (woke : hlt id x.intr w = some w') : Effect id x (.boot .hlt) w (.boot .btrInactive) w' none
  | btr {w} : Effect id x (.halt .btrInactive) w (.halt .btrKicked) (btrInactive id w) none
  | bootBtr {w} : Effect id x (.boot .btrInactive) w (.boot .btrKicked) (btrInactive id w) none

section
variable {id : Nat} {x : Input} {s s' : Shared} {v v' : Vcpu}

/-- A `hlt` returns spuriously or by consuming the vCPU's token. -/
theorem hlt_some {intr : Bool} {w w' : Wakes} (woke : hlt id intr w = some w') :
    w' = w ∧ intr = true ∨ w' = { w with token := Function.update w.token id false } ∧ w.token id = true := by
  unfold hlt at woke
  split at woke
  · rename_i spurious
    exact .inl ⟨(Option.some.inj woke).symm,spurious⟩
  · split at woke
    · rename_i pending
      exact .inr ⟨(Option.some.inj woke).symm,pending⟩
    · cases woke

theorem calm_afterWake (fn : Nat) : calm (afterWake fn) = true := by
  unfold afterWake
  split <;> rfl

theorem calm_goWake (w : Wakes) (fn : Nat) : calm (goWake w fn) = true := by
  unfold goWake
  split
  · rfl
  · exact calm_afterWake fn

/-- The effect of a step outside `wake_up_task`. -/
theorem outside_wake (moved : sched id x s v = some (s',v')) (out : ∀ fn k, v.pc ≠ .wake fn k) :
    ∃ e, Effect id x v.pc s.wakes v'.pc s'.wakes e ∧ s'.log = e.toList ++ s.log := by
  have none_ : ∀ ev ∈ (none : Option Ev), ¬ ofWakes ev := by simp
  have less : ∀ c, (btr s.wakes.bm_kicked_vcpus id).getLsbD c = true → s.wakes.bm_kicked_vcpus.getLsbD c = true := by
    intro c set
    rw [getLsbD_btr,Bool.and_eq_true] at set
    exact set.1
  obtain ⟨pc,current,t1⟩ := v
  cases pc with
  | boot k =>
    obtain ⟨⟨w,next⟩,woke,same⟩ := Option.map_eq_some_iff.mp moved
    cases same
    cases k with
    | hlt =>
      obtain ⟨w',slept,same⟩ := Option.map_eq_some_iff.mp woke
      cases same
      exact ⟨none,.bootHlt slept,rfl⟩
    | btrInactive => cases woke; exact ⟨none,.bootBtr,rfl⟩
    | btrKicked =>
      simp only [wake_up_event,Option.some.injEq,Prod.mk.injEq] at woke
      obtain ⟨rfl,rfl⟩ := woke
      exact ⟨none,.calm rfl (by split <;> rfl) rfl none_ less,rfl⟩
    | incFree => cases woke; exact ⟨none,.calm rfl rfl rfl none_ (fun _ set => set),rfl⟩
  | enter k =>
    cases k with
    | tsc => cases moved; exact ⟨none,.calm rfl rfl rfl none_ (fun _ set => set),rfl⟩
    | ldCurrent =>
      cases moved
      refine ⟨none,.calm rfl ?_ rfl none_ (fun _ set => set),rfl⟩
      simp only
      split
      · rfl
      · exact calm_goWake _ _
  | fin fn k => cases moved; cases k <;> exact ⟨none,.calm rfl rfl rfl none_ (fun _ set => set),rfl⟩
  | dag fn k =>
    cases moved
    refine ⟨none,.calm rfl ?_ rfl none_ (fun _ set => set),rfl⟩
    cases next : (process_sched_dag fn s.tasks k).2 <;> simp [next,calm]
  | clrCurrent fn => cases moved; exact ⟨none,.calm rfl (calm_goWake _ _) rfl none_ (fun _ set => set),rfl⟩
  | wake fn k => exact absurd rfl (out fn k)
  | incFin fn => cases moved; exact ⟨some (.counted id fn),.calm rfl rfl rfl (by simp [ofWakes]) (fun _ set => set),rfl⟩
  | scan k =>
    cases moved
    refine ⟨none,.calm rfl ?_ rfl none_ (fun _ set => set),rfl⟩
    cases next : (get_work s.tasks k).2 <;> simp [next,calm]
  | noWork k =>
    cases moved
    cases k with
    | cas tot_fn =>
      refine ⟨_,.calm rfl ?_ rfl ?_ (fun _ set => set),rfl⟩
      · simp only [noWork]
        split <;> rfl
      · simp only [noWork]
        split <;> simp [ofWakes]
    | _ => exact ⟨none,.calm rfl rfl rfl none_ (fun _ set => set),rfl⟩
  | reset k =>
    cases moved
    cases k with
    | clr0 => exact ⟨none,.wipe .clr0,rfl⟩
    | clr1 => exact ⟨none,.wipe .clr1,rfl⟩
    | clr10 => exact ⟨none,.wipe .clr10,rfl⟩
    | clr11 => exact ⟨none,.wipe .clr11,rfl⟩
    | outw => exact ⟨some (.waiting id),.calm rfl rfl rfl (by simp [ofWakes]) (fun _ set => set),rfl⟩
    | exit =>
      cases installed : x.host <;> simp only [reset,installed]
        <;> exact ⟨none,.calm rfl rfl rfl none_ (fun _ set => set),rfl⟩
    | _ => exact ⟨none,.calm rfl rfl rfl none_ (fun _ set => set),rfl⟩
  | halt k =>
    obtain ⟨⟨w,b,t,next,e⟩,slept,same⟩ := Option.map_eq_some_iff.mp moved
    cases same
    cases k with
    | tsc => cases slept; exact ⟨none,.tsc,rfl⟩
    | stHlt t => cases slept; exact ⟨some (.halted id),.stHlt t,rfl⟩
    | ldHlt | addTs t | incN => cases slept; exact ⟨none,.timed rfl rfl,rfl⟩
    | bts => cases slept; exact ⟨none,.bts,rfl⟩
    | hlt =>
      obtain ⟨w',woke,same⟩ := Option.map_eq_some_iff.mp slept
      cases same
      exact ⟨none,.hlt woke,rfl⟩
    | btrInactive => cases slept; exact ⟨none,.btr,rfl⟩
    | btrKicked =>
      simp only [haltPath,Option.some.injEq,Prod.mk.injEq] at slept
      obtain ⟨rfl,-,-,rfl,rfl⟩ := slept
      exact ⟨none,.calm rfl (by split <;> rfl) rfl none_ less,rfl⟩
    | incFree | tscOut => cases slept; exact ⟨none,.calm rfl rfl rfl none_ (fun _ set => set),rfl⟩
  | work fn k =>
    cases moved
    cases k with
    | jump info => exact ⟨some (.dispatch id (fn % 256)),.calm rfl rfl rfl (by simp [ofWakes]) (fun _ set => set),rfl⟩
    | _ => exact ⟨none,.calm rfl rfl rfl none_ (fun _ set => set),rfl⟩
  | user fn ctx => cases moved; exact ⟨some (.finish id fn),.calm rfl rfl rfl (by simp [ofWakes]) (fun _ set => set),rfl⟩

/-- A step inside `wake_up_task`. -/
theorem inside_wake {fn : Nat} {k : WakePc} (moved : sched id x s v = some (s',v')) (pc : v.pc = .wake fn k) :
    s'.wakes = (wake_up_task id x.tsc s.tasks.runnable_tasks s.wakes k).1 ∧
      v'.pc = ((wake_up_task id x.tsc s.tasks.runnable_tasks s.wakes k).2.1.map (Pc.wake fn)).getD (afterWake fn) ∧
      s'.log = (wake_up_task id x.tsc s.tasks.runnable_tasks s.wakes k).2.2.toList ++ s.log := by
  obtain ⟨before,current,t1⟩ := v
  cases pc
  cases moved
  exact ⟨rfl,rfl,rfl⟩

end

/-- A step of a pool is a step of `sched` on one vCPU, up to the clock. -/
theorem pool_step {p : Nat} {host : Metadata → Prop} {s s' : Config (Fin p) Shared Vcpu} {a : Fin p × Input}
    (moved : (pool p host).step s a = some s') :
    ∃ sh l, sched a.1.val a.2 s.shared (s.loc a.1) = some (sh,l) ∧
      s' = ⟨{ sh with clock := if (s.loc a.1).pc.readsTsc then a.2.tsc else s.shared.clock },
        Function.update s.loc a.1 l⟩ := by
  obtain ⟨sh,l,own,rfl⟩ := threads_step (x := a.2) moved
  obtain ⟨⟨sh,l⟩,ran,same⟩ := Option.map_eq_some_iff.mp own
  cases same
  exact ⟨sh,l,ran,rfl⟩

/-- The same, without the update: the vCPU's own part, and that of the others. -/
theorem pool_frame {p : Nat} {host : Metadata → Prop} {s s' : Config (Fin p) Shared Vcpu} {a : Fin p × Input}
    (moved : (pool p host).step s a = some s') :
    ∃ sh, sched a.1.val a.2 s.shared (s.loc a.1) = some (sh,s'.loc a.1) ∧
      s'.shared = { sh with clock := if (s.loc a.1).pc.readsTsc then a.2.tsc else s.shared.clock } ∧
      ∀ i, i ≠ a.1 → s'.loc i = s.loc i := by
  obtain ⟨sh,l,ran,rfl⟩ := pool_step moved
  exact ⟨sh,by rw [ran]; simp,rfl,fun i other => Function.update_of_ne other _ _⟩

end Bootcode.SchedSteps
