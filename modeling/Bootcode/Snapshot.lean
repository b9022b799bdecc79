import Bootcode.Holders

/-!
No id is left behind in word 1 of a wake-up snapshot: whatever the interleaving,
its bit is offered in word 0, or somebody holds the id, or an epoch reset is about
to clear the word. So a snapshot that nobody uses is zero, and the next `DCAS`
replaces it.
-/
namespace Bootcode.Snapshot
open Bootcode.Bits Bootcode.SchedState Bootcode.Interleave Bootcode.Sched Bootcode.SchedSteps Bootcode.Graph Bootcode.Board
open Bootcode.Holders Relation

/-- The bitmap of the `DCAS` that a vCPU is at. -/
def installs : Loop → Pc → Option Word
  | .rekick, .wake _ (.dcas1 bm) => some bm
  | .kick, .wake _ (.dcas bm) => some bm
  | _, _ => none
/-- Inside the loop of `wake_up_task` over the array, or the epoch reset. -/
def inside : Loop → Pc → Bool
  | _, .reset _ => true
  | .rekick, .wake _ (.bsf1 _) | .rekick, .wake _ (.btr1 _) | .rekick, .wake _ (.tsc1 _ _) | .rekick,
      .wake _ (.ldKick1 _ _ _)
  | .rekick, .wake _ (.tsc2 _ _) | .rekick, .wake _ (.stKick1 _ _ _) | .rekick, .wake _ (.kick1 _ _)
  | .rekick, .wake _ (.rel1 _ _) => true
  | .kick, .wake _ .xadd | .kick, .wake _ .stSig | .kick, .wake _ .bsf | .kick, .wake _ (.btr _) => true
  | l, pc => (l.holding pc).isSome

section
variable {p : Nat} {host : Metadata → Prop}

/-- A step without a `DCAS` on the array. -/
def Quiet (host : Metadata → Prop) (l : Loop) (s t : Config (Fin p) Shared Vcpu) : Prop :=
  ∃ a, (pool p host).step s a = some t ∧ installs l (s.loc a.1).pc = none

/-- What is promised of an array. -/
structure SnapshotOk (host : Metadata → Prop) (l : Loop) (s : Config (Fin p) Shared Vcpu) : Prop where
  accounted : ∀ c, (l.snap s.shared.wakes).word1.getLsbD c = true →
    (l.snap s.shared.wakes).word0.getLsbD c = true ∨ (∃ i, l.holding (s.loc i).pc = some c) ∨ ∃ i,
      (s.loc i).pc = .reset l.wipes
  bare : (∀ i, inside l (s.loc i).pc = false) → (l.snap s.shared.wakes).word0 = 0 → (l.snap s.shared.wakes).word1 = 0
  installed : (∀ i, inside l (s.loc i).pc = false) → (l.snap s.shared.wakes).word0 = 0 →
    ∀ t, ReflTransGen (Quiet host l) s t → ∀ a bm t', installs l (t.loc a.1).pc = some bm →
      (pool p host).step t a = some t' → l.snap t'.shared.wakes = ⟨bm,bm⟩

/-- Where each vCPU is in its use of the array. -/
def uses (l : Loop) (s : Config (Fin p) Shared Vcpu) : Fin p → Hand Nat := fun i => l.hand (s.loc i).pc

theorem backed_start {s : Config (Fin p) Shared Vcpu} (first : (pool p host).init s) (l : Loop) :
    Backed (offers (l.snap s.shared.wakes)) (uses l s) := by
  obtain ⟨d,dag_in_count,book,t,-,rfl⟩ := first
  intro c marked
  cases l <;> simp [offers,Loop.snap,Sched.start,scheduler_init_post,scheduler_init_pre,image] at marked

theorem backed_step {s s' : Config (Fin p) Shared Vcpu} {a : Fin p × Input} (l : Loop)
    (backed : Backed (offers (l.snap s.shared.wakes)) (uses l s)) (moved : (pool p host).step s a = some s') :
    Backed (offers (l.snap s'.shared.wakes)) (uses l s') := by
  obtain ⟨sh,v,ran,rfl⟩ := pool_step moved
  have kept := backed.use (v := a.1) rfl (sched_use l ran)
  have same : uses l ⟨sh,Function.update s.loc a.1 v⟩ = Function.update (uses l s) a.1 (l.hand v.pc) :=
    Function.comp_update (fun v : Vcpu => l.hand v.pc) s.loc a.1 v
  exact same ▸ kept

theorem backed_reach {s : Config (Fin p) Shared Vcpu} (reach : Reachable (pool p host) s) (l : Loop) :
    Backed (offers (l.snap s.shared.wakes)) (uses l s) := by
  apply reach.invariant
  · intro s first
    exact backed_start first l
  · intro s a t _ backed _ moved
    exact backed_step l backed moved

theorem holding_of_item {l : Loop} {pc : Pc} {c : Nat} (item : l.hand pc = .item c) : l.holding pc = some c :=
  congrArg Hand.held item

/-- Whoever is outside has nothing to do with the array. -/
theorem hand_outside {l : Loop} {pc : Pc} (out : inside l pc = false) : l.hand pc = .empty := by
  cases is : l.hand pc with
  | empty => rfl
  | item c =>
    have holds : inside l pc = true := by
      unfold inside
      split <;> first | rfl | rw [holding_of_item is]; rfl
    rw [holds] at out
    cases out
  | erasing c =>
    obtain ⟨rfl,fn,rfl⟩ := erasing_iff.mp is
    cases out
  | wiping =>
    obtain rfl := (hand_wiping l pc).mp is
    cases l <;> cases out

theorem take_zero (c : Nat) : Snap.take ⟨0,0⟩ c = ⟨0,0⟩ :=
  congrArg (Snap.mk · 0) (btr_eq_self (by simp))
theorem release_zero (c : Nat) : Snap.release ⟨0,0⟩ c = ⟨0,0⟩ :=
  congrArg (Snap.mk 0) (btr_eq_self (by simp))

variable {id : Nat} {x : Input} {s s' : Shared} {v v' : Vcpu}

theorem wake_zero {l : Loop} {fn : Nat} {k : WakePc} (quiet : installs l (.wake fn k) = none)
    (tsc runnable_tasks : Word) {w : Wakes}
    (zero : l.snap w = ⟨0,0⟩) : l.snap (wake_up_task id tsc runnable_tasks w k).1 = ⟨0,0⟩ := by
  cases k with
  | dcas1 bm | dcas bm => cases l <;> first | exact zero | cases quiet
  | btr1 c | btr c => cases l <;> first | exact zero | exact (congrArg (Snap.take · c) zero).trans (take_zero c)
  | rel1 c won | rel c | skip c =>
    cases l <;> first | exact zero | exact (congrArg (Snap.release · c) zero).trans (release_zero c)
  | bsf1 rax | bsf | ldKick c hlt =>
    simp only [wake_up_task]
    split <;> exact zero
  | _ => cases l <;> exact zero

theorem sched_zero {l : Loop} (quiet : installs l v.pc = none) (moved : sched id x s v = some (s',v'))
    (zero : l.snap s.wakes = ⟨0,0⟩) : l.snap s'.wakes = ⟨0,0⟩ := by
  by_cases inWake : ∃ fn k, v.pc = .wake fn k
  · obtain ⟨fn,k,pc⟩ := inWake
    obtain ⟨wakes,-,-⟩ := inside_wake moved pc
    rw [pc] at quiet
    rw [wakes]
    exact wake_zero quiet _ _ zero
  · obtain ⟨e,effect,-⟩ := outside_wake moved (by simpa using inWake)
    generalize v.pc = pc,v'.pc = pc',s.wakes = w,s'.wakes = w' at effect zero
    cases effect with
    | calm before after same other =>
      rw [same]
      cases l <;> exact zero
    | wipe wiped =>
      have words : (l.snap w).word0 = 0 ∧ (l.snap w).word1 = 0 := by rw [zero]; exact ⟨rfl,rfl⟩
      obtain ⟨word0,word1⟩ := words
      cases wiped <;> cases l <;> first | exact zero | exact congrArg (Snap.mk 0) word1 | exact congrArg (Snap.mk · 0) word0
    | hlt woke | bootHlt woke => rcases hlt_some woke with ⟨rfl,-⟩ | ⟨rfl,-⟩ <;> cases l <;> exact zero
    | _ => cases l <;> exact zero

/-- A `DCAS` on a bare array installs its bitmap. -/
theorem sched_installs {l : Loop} {bm : Word} (at_ : installs l v.pc = some bm) (moved : sched id x s v = some (s',v'))
    (zero : l.snap s.wakes = ⟨0,0⟩) : l.snap s'.wakes = ⟨bm,bm⟩ := by
  obtain ⟨pc,current,t1⟩ := v
  cases pc with
  | wake fn k =>
    obtain ⟨wakes,-,-⟩ := inside_wake moved rfl
    rw [wakes]
    cases k with
    | dcas1 bm' =>
      cases l with
      | rekick =>
        obtain rfl : bm' = bm := Option.some.inj at_
        exact if_pos zero
      | kick => cases at_
    | dcas bm' =>
      cases l with
      | rekick => cases at_
      | kick =>
        obtain rfl : bm' = bm := Option.some.inj at_
        exact if_pos zero
    | _ => cases l <;> cases at_
  | _ => cases l <;> cases at_

theorem quiet_zero {l : Loop} {s t : Config (Fin p) Shared Vcpu} (ran : ReflTransGen (Quiet host l) s t)
    (zero : l.snap s.shared.wakes = ⟨0,0⟩) : l.snap t.shared.wakes = ⟨0,0⟩ := by
  induction ran with
  | refl => exact zero
  | tail _ last ih =>
    obtain ⟨a,moved,quiet⟩ := last
    obtain ⟨sh,v,ran,rfl⟩ := pool_step moved
    have kept : l.snap sh.wakes = ⟨0,0⟩ := sched_zero quiet ran ih
    exact kept

/-- In every reachable state each id marked in a snapshot is offered, or held, or
    about to be wiped; and while nobody uses a snapshot that offers nothing it is
    zero, and the next `DCAS` replaces it. -/
theorem snapshot_never_wedges (p : Nat) (host : Metadata → Prop) {s : Config (Fin p) Shared Vcpu}
    (reach : Reachable (pool p host) s) (l : Loop) : SnapshotOk host l s := by
  have backed := backed_reach reach l
  have bare : (∀ i, inside l (s.loc i).pc = false) → (l.snap s.shared.wakes).word0 = 0 →
    (l.snap s.shared.wakes).word1 = 0 := by
    intro out none
    apply BitVec.eq_of_getLsbD_eq
    intro c _
    exact (backed.bare (fun i => hand_outside (out i)) (fun c => by simp [offers,none]) c).trans BitVec.getLsbD_zero.symm
  refine ⟨?_,bare,?_⟩
  · intro c marked
    refine (backed c marked).imp_right (Or.imp ?_ ?_)
    · rintro ⟨i,item⟩
      exact ⟨i,holding_of_item item⟩
    · rintro ⟨i,wiping⟩
      exact ⟨i,(hand_wiping l _).mp wiping⟩
  · intro out none t ran a bm t' at_ moved
    have zero : l.snap s.shared.wakes = ⟨0,0⟩ := congrArg₂ Snap.mk none (bare out none)
    obtain ⟨sh,v,stepped,rfl⟩ := pool_step moved
    have fresh : l.snap sh.wakes = ⟨bm,bm⟩ := sched_installs at_ stepped (quiet_zero ran zero)
    exact fresh

/-- vCPU 0 holds vCPU 1, whose bit is set in word 1 alone. -/
theorem snapshot_held : ∃ s : Config (Fin 3) Shared Vcpu, (s.shared.wakes.ss_reflective_bm.word1.getLsbD 1 = true ∧
    s.shared.wakes.ss_reflective_bm.word0.getLsbD 1 = false) ∧ SnapshotOk (· = fan) .kick s := by
  let P : Config (Fin 3) Shared Vcpu → Bool := fun s =>
    decide (s.shared.wakes.ss_reflective_bm.word1.getLsbD 1 = true ∧
      s.shared.wakes.ss_reflective_bm.word0.getLsbD 1 = false)
  have ran : (exec (pool 3 (· = fan)) (boot 3 fan) (schedule 2 [(0,100)])).any P = true := by decide +kernel
  have first : (pool 3 (· = fan)).init (boot 3 fan) := boot_init rfl
  obtain ⟨s,reach,held⟩ := exec_exists first (fun _ _ _ => trivial) ran
  exact ⟨s,of_decide_eq_true held,snapshot_never_wedges 3 (· = fan) reach .kick⟩

end
end Bootcode.Snapshot
