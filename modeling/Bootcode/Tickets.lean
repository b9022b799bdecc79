import Bootcode.Grants
import Bootcode.Graph
import Bootcode.SchedSteps

/-!
The tickets of `wake_up_task`: `wake_num_vcpu` is the counter of `Grants`, and
`sig_wake_num_vcpu_is_0` its gate. Each step of `sched` is a step of `Grants`, for
any number of vCPUs and whatever the metadata holds.
-/
namespace Bootcode.Tickets
open Bootcode.Bits Bootcode.SchedState Bootcode.Interleave Bootcode.Sched Bootcode.SchedSteps Bootcode.Grants Bootcode.Graph
set_option linter.unusedSimpArgs false

/-- What a vCPU has in hand at each program counter of `wake_up_task`. -/
def hand : Pc → Hand
  | .wake _ (.stWakeNum tmp) => .granting tmp
  | .wake _ .stSig => .closing
  | .wake _ .bsf | .wake _ (.btr _) | .wake _ (.ldHlt _) | .wake _ (.ldKick _ _) | .wake _ (.skip _) => .ticket
  | _ => .empty
def gate (w : Wakes) : Gate := ⟨w.sig_wake_num_vcpu_is_0 = 1,w.wake_num_vcpu⟩
def event : Ev → Option Event
  | .grant tmp => some (.grant tmp)
  | .draw old => some (.draw old)
  | .firstKick _ _ => some .use
  | _ => none
/-- The history of grants, draws and first kicks. -/
def history (log : List Ev) : List Event := log.filterMap event

/-- A vCPU only tries to grant a positive number. -/
def WantsSome : Pc → Prop
  | .wake _ (.casSig tmp) => 0 < tmp
  | _ => True

section
variable {id : Nat} {x : Input} {s s' : Shared} {v v' : Vcpu}

theorem hand_afterWake (fn : Nat) : hand (afterWake fn) = .empty ∧ WantsSome (afterWake fn) := by
  unfold afterWake
  split <;> exact ⟨rfl,trivial⟩

theorem hand_of_calm {pc : Pc} (is : calm pc = true) : hand pc = .empty ∧ WantsSome pc := by
  cases pc with
  | wake fn k => cases k <;> first | exact ⟨rfl,trivial⟩ | cases is
  | _ => exact ⟨rfl,trivial⟩

/-- Outside `wake_up_task` nothing happens to tickets. -/
theorem outside {w w' : Wakes} {pc pc' : Pc} {e : Option Ev} (effect : Effect id x pc w pc' w' e) :
    hand pc = .empty ∧ hand pc' = .empty ∧ WantsSome pc' ∧ w'.sig_wake_num_vcpu_is_0 = w.sig_wake_num_vcpu_is_0 ∧
      w'.wake_num_vcpu = w.wake_num_vcpu ∧ ∀ ev ∈ e, event ev = none := by
  cases effect with
  | calm before after same other =>
    refine ⟨(hand_of_calm before).1,(hand_of_calm after).1,(hand_of_calm after).2,by rw [same],by rw [same],?_⟩
    intro ev member
    have no := other ev member
    cases ev <;> first | rfl | exact absurd trivial no
  | wipe wiped => cases wiped <;> exact ⟨rfl,rfl,trivial,rfl,rfl,by simp⟩
  | hlt woke | bootHlt woke =>
    rcases hlt_some woke with ⟨rfl,-⟩ | ⟨rfl,-⟩ <;> exact ⟨rfl,rfl,trivial,rfl,rfl,by simp⟩
  | @timed pc w pc' before after =>
    have rest : ∀ pc : Pc, timed pc = true → hand pc = .empty ∧ WantsSome pc := by
      intro pc is
      cases pc <;> first | exact ⟨rfl,trivial⟩ | cases is
    exact ⟨(rest _ before).1,(rest _ after).1,(rest _ after).2,rfl,rfl,by simp⟩
  | stHlt t => exact ⟨rfl,rfl,trivial,rfl,rfl,by simp [event]⟩
  | _ => exact ⟨rfl,rfl,trivial,rfl,rfl,by simp⟩

/-- The gate is 0 or 1. -/
def SigOk (w : Wakes) : Prop := w.sig_wake_num_vcpu_is_0 = 1 ∨ w.sig_wake_num_vcpu_is_0 = 0

theorem wake_xadd (id : Nat) (tsc runnable_tasks : Word) (w : Wakes) :
    wake_up_task id tsc runnable_tasks w .xadd =
      ({ w with wake_num_vcpu := w.wake_num_vcpu - 1 },
        if 0 < w.wake_num_vcpu then if w.wake_num_vcpu = 1 then some .stSig else some .bsf else none,
        some (.draw w.wake_num_vcpu)) := rfl

/-- Inside `wake_up_task` a step is one of `Grants`. -/
theorem inside (id : Nat) (tsc runnable_tasks : Word) {w : Wakes} {fn : Nat} {k : WakePc} (sig : SigOk w)
    (wants : WantsSome (.wake fn k)) :
    let r := wake_up_task id tsc runnable_tasks w k
    let next := (r.2.1.map (Pc.wake fn)).getD (afterWake fn)
    Step (gate w) (hand (.wake fn k)) (gate r.1) (hand next) (r.2.2.bind event) ∧ SigOk r.1 ∧ WantsSome next := by
  cases k with
  | bsf1 =>
    simp only [wake_up_task]
    split <;> exact ⟨.stay,sig,trivial⟩
  | btr1 cpuid =>
    simp only [wake_up_task]
    split <;> exact ⟨.stay,sig,trivial⟩
  | ldKick1 cpuid t =>
    simp only [wake_up_task]
    split <;> exact ⟨.stay,sig,trivial⟩
  | ldFree runnable =>
    simp only [wake_up_task]
    split
    · rename_i pos
      exact ⟨.stay,sig,pos⟩
    · exact ⟨.stay,sig,trivial⟩
  | casSig tmp =>
    by_cases is : w.sig_wake_num_vcpu_is_0 = 1
    · simp only [wake_up_task,CAS,is,if_true]
      exact ⟨.close (decide_eq_true is) wants,.inr rfl,trivial⟩
    · simp only [wake_up_task,CAS,is,if_false]
      exact ⟨.stay,sig,trivial⟩
  | stWakeNum tmp => exact ⟨.grant,sig,trivial⟩
  | xadd =>
    simp only [wake_xadd]
    by_cases pos : 0 < w.wake_num_vcpu
    · by_cases one : w.wake_num_vcpu = 1
      · rw [if_pos pos,if_pos one]
        exact ⟨.last one,sig,trivial⟩
      · rw [if_pos pos,if_neg one]
        exact ⟨.draw (show 1 < w.wake_num_vcpu by omega),sig,trivial⟩
    · obtain ⟨empty,wants⟩ := hand_afterWake fn
      rw [if_neg pos]
      refine ⟨?_,sig,wants⟩
      show Step (gate w) .empty _ (hand (afterWake fn)) _
      rw [empty]
      exact .miss (show w.wake_num_vcpu ≤ 0 by omega)
  | stSig => exact ⟨.reopen,.inl rfl,trivial⟩
  | bsf =>
    simp only [wake_up_task]
    split
    · exact ⟨.stay,sig,trivial⟩
    · obtain ⟨empty,wants⟩ := hand_afterWake fn
      refine ⟨?_,sig,wants⟩
      show Step (gate w) .ticket (gate w) (hand (afterWake fn)) none
      rw [empty]
      exact .drop
  | btr cpuid =>
    simp only [wake_up_task]
    split <;> exact ⟨.stay,sig,trivial⟩
  | ldKick cpuid hlt =>
    simp only [wake_up_task]
    split
    · exact ⟨.use,sig,trivial⟩
    · exact ⟨.stay,sig,trivial⟩
  | _ => exact ⟨.stay,sig,trivial⟩

theorem history_append (e : Option Ev) (log : List Ev) :
    history (e.toList ++ log) = (e.bind event).toList ++ history log := by
  cases e with
  | none => rfl
  | some ev => cases is : event ev <;> simp [history,is]

end

section
variable {p : Nat} {host : Metadata → Prop}

def hands (s : Config (Fin p) Shared Vcpu) : Fin p → Hand := fun i => hand (s.loc i).pc

structure TicketInv (s : Config (Fin p) Shared Vcpu) : Prop where
  grants : Grants.Invariant (gate s.shared.wakes) (hands s) (history s.shared.log)
  sig : SigOk s.shared.wakes
  wants : ∀ i, WantsSome (s.loc i).pc

theorem TicketInv.start {s : Config (Fin p) Shared Vcpu} (first : (pool p host).init s) : TicketInv s := by
  obtain ⟨d,dag_in_count,book,t,-,rfl⟩ := first
  have empty : ∀ i, hands (Sched.start p d dag_in_count book t) i = .empty := by
    intro i
    by_cases zero : i.val = 0 <;> simp [hands,Sched.start,bootVcpu,zero,hand]
  have none : ∀ w : Hand → Nat, w .empty = 0 → tally w (hands (Sched.start p d dag_in_count book t)) = 0 := fun w zero =>
    tally_eq_zero.mpr fun i => by rw [empty]; exact zero
  refine ⟨?_,.inl rfl,?_⟩
  · refine ⟨fun _ => ⟨Int.le_refl _,none _ rfl,none _ rfl⟩,(fun shut => by cases shut),?_,rfl,Int.le_refl _,trivial,rfl,?_⟩
    · intro v k granting
      rw [empty] at granting
      cases granting
    · rw [none _ rfl]
      exact Nat.le_refl _
  · intro i
    by_cases zero : i.val = 0 <;> simp [Sched.start,bootVcpu,zero,WantsSome]

theorem TicketInv.step {s s' : Config (Fin p) Shared Vcpu} {a : Fin p × Input} (inv : TicketInv s)
    (moved : (pool p host).step s a = some s') : TicketInv s' := by
  obtain ⟨sh,l,ran,rfl⟩ := pool_step moved
  have lifts : ∀ e : Option Ev, Grants.Step (gate s.shared.wakes) (hand (s.loc a.1).pc) (gate sh.wakes)
    (hand l.pc) (e.bind event) →
      sh.log = e.toList ++ s.shared.log → SigOk sh.wakes → WantsSome l.pc →
      TicketInv (⟨{ sh with clock := if (s.loc a.1).pc.readsTsc then a.2.tsc else s.shared.clock },
        Function.update s.loc a.1 l⟩ : Config (Fin p) Shared Vcpu) := by
    intro e step log sig wants
    refine ⟨?_,sig,?_⟩
    · have next := inv.grants.step (v := a.1) rfl step
      rw [← history_append,← log] at next
      have same : hands ⟨{ sh with clock := if (s.loc a.1).pc.readsTsc then a.2.tsc else s.shared.clock },
          Function.update s.loc a.1 l⟩ = Function.update (hands s) a.1 (hand l.pc) :=
        Function.comp_update (fun v : Vcpu => hand v.pc) s.loc a.1 l
      rw [same]
      exact next
    · exact forall_of_others (P := fun _ (v : Vcpu) => WantsSome v.pc) (v := a.1)
        (fun i other => Function.update_of_ne other _ _)
        (by simpa using wants) fun i _ => inv.wants i
  by_cases inWake : ∃ fn k, (s.loc a.1).pc = .wake fn k
  · obtain ⟨fn,k,pc⟩ := inWake
    obtain ⟨wakes,next,log⟩ := inside_wake ran pc
    have wants := inv.wants a.1
    rw [pc] at wants
    obtain ⟨step,sig,wants⟩ := inside a.1.val a.2.tsc s.shared.tasks.runnable_tasks inv.sig wants
    rw [← wakes,← next,← pc] at step
    rw [← wakes] at sig
    rw [← next] at wants
    exact lifts _ step log sig wants
  · obtain ⟨e,effect,log⟩ := outside_wake ran (by simpa using inWake)
    obtain ⟨before,after,wants,sig,num,other⟩ := outside effect
    have none : e.bind event = none := by
      cases e with
      | none => rfl
      | some ev => exact other ev rfl
    refine lifts e ?_ log ?_ wants
    · have same : gate sh.wakes = gate s.shared.wakes := by rw [gate,gate,sig,num]
      rw [before,after,same,none]
      exact .stay
    · rw [SigOk,sig]
      exact inv.sig

/-- Where the protocol of the tickets stands. -/
def InPhase (s : Config (Fin p) Shared Vcpu) : Phase → Prop
  | .opened =>
    s.shared.wakes.sig_wake_num_vcpu_is_0 = 1 ∧ s.shared.wakes.wake_num_vcpu ≤ 0 ∧ tally Hand.grants (hands s) = 0
  | .granting =>
    s.shared.wakes.sig_wake_num_vcpu_is_0 = 0 ∧ s.shared.wakes.wake_num_vcpu ≤ 0 ∧ tally Hand.grants (hands s) = 1
  | .drawing => s.shared.wakes.sig_wake_num_vcpu_is_0 = 0 ∧ 0 < s.shared.wakes.wake_num_vcpu
  | .closing =>
    s.shared.wakes.sig_wake_num_vcpu_is_0 = 0 ∧ s.shared.wakes.wake_num_vcpu ≤ 0 ∧ tally Hand.closes (hands s) = 1

theorem inPhase_iff {s : Config (Fin p) Shared Vcpu} (sig : SigOk s.shared.wakes) (q : Phase) :
    InPhase s q ↔ q.Holds (gate s.shared.wakes) (hands s) := by
  have zero : s.shared.wakes.sig_wake_num_vcpu_is_0 = 0 ↔ decide (s.shared.wakes.sig_wake_num_vcpu_is_0 = 1) = false := by
    rcases sig with one | none
    · simp [one]
    · simp [none]
  have one : s.shared.wakes.sig_wake_num_vcpu_is_0 = 1 ↔
    decide (s.shared.wakes.sig_wake_num_vcpu_is_0 = 1) = true := by simp
  cases q with
  | opened => exact and_congr one Iff.rfl
  | granting | drawing | closing => exact and_congr zero Iff.rfl

/-- What the tickets promise of a state. -/
structure TicketsOk (s : Config (Fin p) Shared Vcpu) : Prop where
  store : ∀ i fn tmp, (s.loc i).pc = .wake fn (.stWakeNum tmp) → s.shared.wakes.wake_num_vcpu ≤ 0
  phase : ∃! q, InPhase s q
  exhausted : Exhausted (history s.shared.log)
  kicks : (used (history s.shared.log) : Int) ≤ granted (history s.shared.log)

/-- The protocol holds for any number of vCPUs in every reachable state. -/
theorem ticket_protocol {s : Config (Fin p) Shared Vcpu} (reach : Reachable (pool p host) s) : TicketsOk s := by
  have inv : TicketInv s :=
    reach.invariant (fun _ first => TicketInv.start first) (fun _ _ _ _ inv _ moved => inv.step moved)
  refine ⟨?_,?_,inv.grants.exhausted,inv.grants.used_le⟩
  · intro i fn tmp pc
    exact inv.grants.grant_empty (v := i) (k := tmp) (by simp [hands,pc,hand])
  · simp only [inPhase_iff inv.sig]
    exact inv.grants.phase

/-- vCPU 0 finishes node 0 of the fork, grants one ticket and spends it on vCPU 1. -/
theorem ticket_protocol_fork : ∃ s : Config (Fin 2) Shared Vcpu,
    (used (history s.shared.log) = 1 ∧ granted (history s.shared.log) = 1) ∧ TicketsOk s := by
  let P : Config (Fin 2) Shared Vcpu → Bool := fun s =>
    used (history s.shared.log) == 1 && granted (history s.shared.log) == 1
  have ran : (exec (pool 2 (· = fork)) (boot 2 fork) (schedule 2 [(0,111)])).any P = true := by decide +kernel
  have first : (pool 2 (· = fork)).init (boot 2 fork) := boot_init rfl
  obtain ⟨s,reach,holds⟩ := exec_exists first (fun _ _ _ => trivial) ran
  exact ⟨s,by simpa [P] using holds,ticket_protocol reach⟩

end
end Bootcode.Tickets
