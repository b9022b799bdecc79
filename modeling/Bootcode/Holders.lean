import Bootcode.Board
import Bootcode.Kicks
import Bootcode.Roles

/-!
Who holds an id of `ss_reflective_bm` or `ss_reflective_bm1`, and how often a
sleeping vCPU is first-kicked. Both arrays are boards: the `DCAS` posts a bitmap,
`e_bsf` takes an id and the `btr` of word 1 releases it. The epoch reset wipes
them, and only that can put an id into two hands.
-/
namespace Bootcode.Holders
open Bootcode.Bits Bootcode.SchedState Bootcode.Interleave Bootcode.Sched Bootcode.SchedSteps Bootcode.Graph Bootcode.Board
open Bootcode.Kicks Bootcode.Tasks Bootcode.TaskSteps Bootcode.Roles Bootcode.Startup
set_option linter.unusedSimpArgs false

/-- `ss_reflective_bm1` of the re-kick loop, and `ss_reflective_bm` of the first-kick loop. -/
inductive Loop
  | rekick
  | kick

namespace Loop
def snap : Loop → Wakes → Snap
  | .rekick, w => w.ss_reflective_bm1
  | .kick, w => w.ss_reflective_bm
/-- The store of the epoch reset that clears word 1. -/
def wipes : Loop → ResetPc
  | .rekick => .clr11
  | .kick => .clr1
/-- Where a vCPU is in its use of the array. -/
def hand : Loop → Pc → Hand Nat
  | .rekick, .wake _ (.tsc1 cpuid true) | .rekick, .wake _ (.ldKick1 cpuid true _) | .rekick, .wake _ (.tsc2 cpuid true)
  | .rekick, .wake _ (.stKick1 cpuid true _) | .rekick, .wake _ (.kick1 cpuid true)
  | .rekick, .wake _ (.rel1 cpuid true) => .item cpuid
  | .rekick, .wake _ (.rel1 cpuid false) => .erasing cpuid
  | .kick, .wake _ (.ldHlt cpuid) | .kick, .wake _ (.ldKick cpuid _) | .kick, .wake _ (.incFree cpuid)
  | .kick, .wake _ (.tsc cpuid) | .kick, .wake _ (.stKick cpuid _) | .kick, .wake _ (.bts cpuid)
  | .kick, .wake _ (.kick cpuid) | .kick, .wake _ (.rel cpuid) | .kick, .wake _ (.skip cpuid) => .item cpuid
  | .rekick, .reset .clr11 | .kick, .reset .clr1 => .wiping
  | _, _ => .empty
/-- The id that a vCPU holds, from the `btr` of `e_bsf` that took it to its `btr` of word 1. -/
def holding (l : Loop) (pc : Pc) : Option Nat := (l.hand pc).held
end Loop

/-- An array as a board: word 0 offers ids, word 1 marks them. -/
def offers (s : Snap) : Offers Nat := ⟨s.word0.getLsbD,s.word1.getLsbD⟩

theorem getLsbD_btr_update {n : Nat} (x : BitVec n) (i : Nat) : (btr x i).getLsbD = Function.update x.getLsbD i false := by
  funext j
  by_cases same : j = i
  · simp [same]
  · rw [getLsbD_btr,Function.update_of_ne same]
    simp [Ne.symm same]

theorem offers_take (s : Snap) (i : Nat) :
    offers (s.take i) = { offers s with offered := Function.update (offers s).offered i false } := by
  simp only [offers,Snap.take,getLsbD_btr_update]

theorem offers_release (s : Snap) (i : Nat) :
    offers (s.release i) = { offers s with marked := Function.update (offers s).marked i false } := by
  simp only [offers,Snap.release,getLsbD_btr_update]

/-- A `DCAS` from `zero` posts its bitmap, or does nothing. -/
theorem dcas_post (s : Snap) (bm : Word) : Use (offers s) .empty (offers (DCAS s ⟨0,0⟩ ⟨bm,bm⟩)) .empty := by
  unfold DCAS
  split
  · rename_i bare
    subst bare
    exact .post bm.getLsbD fun i => ⟨by simp [offers],by simp [offers]⟩
  · exact .stay

/-- The `btr` of `e_bsf` takes an id, or finds that somebody else has. -/
theorem btr_take (s : Snap) (i : Nat) :
    Use (offers s) .empty (offers (s.take i)) (if s.word0.getLsbD i then .item i else .empty) := by
  by_cases there : s.word0.getLsbD i = true
  · rw [if_pos there,offers_take]
    exact .take there
  · have gone : s.take i = s := by rw [Snap.take,btr_eq_self (by simpa using there)]
    rw [if_neg there,gone]
    exact .stay

theorem hand_wiping (l : Loop) (pc : Pc) : l.hand pc = .wiping ↔ pc = .reset l.wipes := by
  constructor
  · intro is
    cases pc with
    | reset k => cases l <;> cases k <;> first | rfl | cases is
    | wake fn k =>
      cases l <;> cases k <;> first | cases is | (rename_i won; cases won <;> cases is) |
        (rename_i won _; cases won <;> cases is)
    | _ => cases l <;> cases is
  · rintro rfl
    cases l <;> rfl

theorem hand_calm (l : Loop) {pc : Pc} (is : calm pc = true) (out : pc ≠ .reset l.wipes) : l.hand pc = .empty := by
  cases pc with
  | wake fn k => cases k <;> first | (cases l <;> rfl) | cases is
  | reset k => cases l <;> cases k <;> first | rfl | exact absurd rfl out
  | _ => cases l <;> rfl

theorem hand_timed (l : Loop) {pc : Pc} (is : timed pc = true) : l.hand pc = .empty := by
  cases pc with
  | halt k => cases l <;> rfl
  | _ => cases is

section
variable {id : Nat} {x : Input} {s s' : Shared} {v v' : Vcpu}

/-- A step of `wake_up_task` on either board. -/
theorem wake_use (l : Loop) (id : Nat) (tsc runnable_tasks : Word) (w : Wakes) (fn : Nat) (k : WakePc) :
    Use (offers (l.snap w)) (l.hand (.wake fn k)) (offers (l.snap (wake_up_task id tsc runnable_tasks w k).1))
      (l.hand (((wake_up_task id tsc runnable_tasks w k).2.1.map (Pc.wake fn)).getD (afterWake fn))) := by
  have out : l.hand (afterWake fn) = .empty := by
    refine hand_calm l (calm_afterWake fn) ?_
    unfold afterWake
    split <;> simp
  cases k with
  | dcas1 bm =>
    cases l with
    | rekick => exact dcas_post _ bm
    | kick => exact .stay
  | dcas bm =>
    cases l with
    | rekick => exact .stay
    | kick => exact dcas_post _ bm
  | btr1 c =>
    cases l with
    | rekick =>
      have taken := btr_take w.ss_reflective_bm1 c
      by_cases set : w.ss_reflective_bm1.word0.getLsbD c = true <;>
        simpa [wake_up_task,Loop.hand,Loop.snap,set] using taken
    | kick => by_cases set : w.ss_reflective_bm1.word0.getLsbD c = true <;> simp only [wake_up_task,set] <;> exact .stay
  | btr c =>
    cases l with
    | rekick => by_cases set : w.ss_reflective_bm.word0.getLsbD c = true <;> simp only [wake_up_task,set] <;> exact .stay
    | kick =>
      have taken := btr_take w.ss_reflective_bm c
      by_cases set : w.ss_reflective_bm.word0.getLsbD c = true <;>
        simpa [wake_up_task,Loop.hand,Loop.snap,set] using taken
  | rel1 c won =>
    cases l with
    | rekick =>
      simp only [wake_up_task,Loop.snap,offers_release]
      cases won with
      | true => exact .release
      | false => exact .erase
    | kick => exact .stay
  | bsf1 rax =>
    simp only [wake_up_task]
    split
    · cases l <;> exact .stay
    · -- With the bitmap empty, the vCPU goes on with the index that it lost.
      cases l <;> exact .stay
    · cases l <;> exact .stay
  | ldKick1 c won t =>
    simp only [wake_up_task]
    split <;> cases l <;> cases won <;> first | exact .stay | exact .hold | exact .lose
  | tsc1 c won | tsc2 c won | stKick1 c won t | kick1 c won =>
    cases l <;> cases won <;> first | exact .stay | exact .hold | exact .lose
  | rel c | skip c =>
    cases l with
    | rekick => exact .stay
    | kick =>
      simp only [wake_up_task,Loop.snap,offers_release]
      exact .release
  | ldFree runnable | casSig tmp | ldKick c t =>
    simp only [wake_up_task]
    split <;> cases l <;> first | exact .stay | exact .hold
  | bsf =>
    simp only [wake_up_task]
    split
    · cases l <;> exact .stay
    · simp only [Option.map_none,Option.getD_none,out]
      cases l <;> exact .stay
  | xadd =>
    simp only [wake_up_task]
    split
    · split <;> cases l <;> exact .stay
    · simp only [Option.map_none,Option.getD_none,out]
      cases l <;> exact .stay
  | _ => cases l <;> first | exact .stay | exact .hold

/-- A step of `sched` on either board. -/
theorem sched_use (l : Loop) (moved : sched id x s v = some (s',v')) :
    Use (offers (l.snap s.wakes)) (l.hand v.pc) (offers (l.snap s'.wakes)) (l.hand v'.pc) := by
  have cleared : ∀ w : Wakes, offers ⟨0,(l.snap w).word1⟩ = { offers (l.snap w) with offered := fun _ => false } ∧
      offers ⟨(l.snap w).word0,0⟩ = { offers (l.snap w) with marked := fun _ => false } := by
    intro w
    constructor <;> simp only [offers] <;> congr 1 <;> funext i <;> simp
  by_cases inWake : ∃ fn k, v.pc = .wake fn k
  · obtain ⟨fn,k,pc⟩ := inWake
    obtain ⟨wakes,after,-⟩ := inside_wake moved pc
    rw [wakes,after,pc]
    exact wake_use l id x.tsc s.tasks.runnable_tasks s.wakes fn k
  · by_cases wipes : v.pc = .reset l.wipes
    · obtain ⟨pc,current,t1⟩ := v
      cases wipes
      cases l <;> cases moved <;> exact (cleared s.wakes).2 ▸ .clearMarks
    · obtain ⟨e,effect,-⟩ := outside_wake moved (by simpa using inWake)
      generalize v.pc = pc,v'.pc = pc',s.wakes = w,s'.wakes = w' at effect wipes
      cases effect with
      | calm before after same other =>
        have unchanged : l.snap w' = l.snap w := by rw [same]; cases l <;> rfl
        rw [hand_calm l before wipes,unchanged]
        by_cases next : pc' = .reset l.wipes
        · rw [(hand_wiping l pc').mpr next]
          exact .prepare
        · rw [hand_calm l after next]
          exact .stay
      | wipe wiped =>
        cases wiped with
        | clr0 | clr10 => cases l <;> first | exact .stay | exact (cleared w).1 ▸ .clearOffers
        | clr1 | clr11 => cases l <;> first | exact .stay | exact absurd rfl wipes
      | timed before after =>
        rw [hand_timed l before,hand_timed l after]
        exact .stay
      | hlt woke | bootHlt woke => rcases hlt_some woke with ⟨rfl,-⟩ | ⟨rfl,-⟩ <;> cases l <;> exact .stay
      | _ => cases l <;> exact .stay

/-- The same for the ids that are held; only the epoch reset clears all marks. -/
theorem sched_board (l : Loop) (moved : sched id x s v = some (s',v')) :
    Step (v.pc = .reset l.wipes) (fun c => l.hand v.pc = .erasing c) (offers (l.snap s.wakes)) (l.holding v.pc)
      (offers (l.snap s'.wakes)) (l.holding v'.pc) :=
  propext (hand_wiping l v.pc) ▸ (sched_use l moved).step

end

/-! ### Exclusive claims -/

section
variable {p : Nat} {host : Metadata → Prop}

/-- The id that each vCPU holds. -/
def hands (l : Loop) (s : Config (Fin p) Shared Vcpu) : Fin p → Option Nat := fun i => l.holding (s.loc i).pc

/-- When the epoch reset clears word 1 of an array, its word 0 is zero and nobody
    holds an id of it. -/
def WipeOk (s : Config (Fin p) Shared Vcpu) (a : Fin p × Input) : Prop :=
  ∀ l : Loop, (s.loc a.1).pc = .reset l.wipes → (l.snap s.shared.wakes).word0 = 0 ∧ ∀ i, hands l s i = none
/-- When a vCPU that has lost the race for an id clears its bit of word 1, the id is
    not offered and nobody holds it. -/
def EraseOk (s : Config (Fin p) Shared Vcpu) (a : Fin p × Input) : Prop :=
  ∀ fn cpuid, (s.loc a.1).pc = .wake fn (.rel1 cpuid false) →
    s.shared.wakes.ss_reflective_bm1.word0.getLsbD cpuid = false ∧ ∀ i, hands .rekick s i ≠ some cpuid
/-- Both. -/
def ClearOk (s : Config (Fin p) Shared Vcpu) (a : Fin p × Input) : Prop := WipeOk s a ∧ EraseOk s a

/-- No id of an array is held twice. -/
def Exclusive (s : Config (Fin p) Shared Vcpu) : Prop :=
  ∀ (l : Loop) (c : Nat) (i j : Fin p), hands l s i = some c → hands l s j = some c → i = j

theorem fair_start {m : Machine p} (first : (startup p host).init m) (l : Loop) :
    Fair (offers (l.snap m.config.shared.wakes)) (hands l m.config) := by
  obtain ⟨d,dag_in_count,book,-,rfl⟩ := first
  intro c
  have none : tally (holds c) (hands l ⟨image d dag_in_count book,fun i : Fin p => bootVcpu i.val⟩) = 0 :=
    tally_eq_zero.mpr fun i => by
    by_cases zero : i.val = 0 <;> cases l <;> simp [hands,bootVcpu,zero,Loop.holding,Loop.hand,Hand.held,holds]
  rw [none]
  cases l <;> simp [offers,Loop.snap,image]

/-- Where a vCPU is about to erase an id that it has not got. -/
theorem erasing_iff {l : Loop} {pc : Pc} {c : Nat} :
    l.hand pc = .erasing c ↔ l = .rekick ∧ ∃ fn, pc = .wake fn (.rel1 c false) := by
  constructor
  · intro is
    cases pc with
    | wake fn k =>
      cases l <;> cases k <;> first | cases is | (rename_i won; cases won <;> cases is) |
        (rename_i won _; cases won <;> cases is)
      exact ⟨rfl,fn,rfl⟩
    | reset k => cases l <;> cases k <;> cases is
    | _ => cases l <;> cases is
  · rintro ⟨rfl,fn,rfl⟩
    rfl

theorem fair_step {s s' : Config (Fin p) Shared Vcpu} {a : Fin p × Input} (l : Loop)
    (fair : Fair (offers (l.snap s.shared.wakes)) (hands l s)) (ok : ClearOk s a)
    (moved : (pool p host).step s a = some s') : Fair (offers (l.snap s'.shared.wakes)) (hands l s') := by
  obtain ⟨wipe,erase⟩ := ok
  obtain ⟨sh,v,ran,rfl⟩ := pool_step moved
  have kept := fair.step (v := a.1) rfl (sched_board l ran)
    (fun resets c => by
      obtain ⟨zero,nobody⟩ := wipe l resets
      exact ⟨by simp [offers,zero],fun u => by rw [nobody u]; simp⟩)
    (fun c erases => by
      obtain ⟨rfl,fn,pc⟩ := erasing_iff.mp erases
      exact erase fn c pc)
  have same : hands l ⟨sh,Function.update s.loc a.1 v⟩ = Function.update (hands l s) a.1 (l.holding v.pc) :=
    Function.comp_update (fun v : Vcpu => l.holding v.pc) s.loc a.1 v
  exact same ▸ kept

/-- While every step meets `ClearOk`, both arrays are fair boards. -/
theorem fair_reach {good : Machine p → Fin p × Input → Prop} (sub : ∀ m a, good m a → ClearOk m.config a)
    {m : Machine p} (reach : Reach (startup p host) good m) (l : Loop) :
    Fair (offers (l.snap m.config.shared.wakes)) (hands l m.config) := by
  refine reach.invariant (fun _ first => fair_start first l) ?_
  intro m a m' _ fair ok moved
  rcases startup_cases moved with ⟨-,sh,ran,config⟩ | ⟨-,-,ran⟩
  · rw [config]
    have same : l.snap sh.wakes = l.snap m.config.shared.wakes := by
      cases l
      · exact (init_frame ran).1.listed
      · exact (init_frame ran).1.posted
    exact same ▸ fair
  · exact fair_step l fair (sub m a ok) ran

theorem exclusive_of_fair {s : Config (Fin p) Shared Vcpu}
    (fair : ∀ l : Loop, Fair (offers (l.snap s.shared.wakes)) (hands l s)) : Exclusive s :=
  fun l _ _ _ mine yours => (fair l).exclusive mine yours

/-! ### One first kick for one halt -/

/-- `c` has been first-kicked since it last halted. -/
def kickedSince (c : Nat) : List Ev → Bool
  | [] => false
  | .firstKick _ cpuid :: rest => if cpuid = c then true else kickedSince c rest
  | .halted id :: rest => if id = c then false else kickedSince c rest
  | _ :: rest => kickedSince c rest
/-- Between any two first kicks of `c` it halted. -/
def Once (c : Nat) : List Ev → Prop
  | [] => True
  | .firstKick _ cpuid :: rest => (cpuid = c → kickedSince c rest = false) ∧ Once c rest
  | _ :: rest => Once c rest

/-- A re-kick does not put `kick_ts[cpuid]` back before a halt that `cpuid` has
    been kicked for. -/
def RekickOk (s : Config (Fin p) Shared Vcpu) (a : Fin p × Input) : Prop :=
  ∀ fn cpuid won t, (s.loc a.1).pc = .wake fn (.stKick1 cpuid won t) →
    (s.shared.wakes.hlt_ts cpuid).toNat ≤ (s.shared.wakes.kick_ts cpuid).toNat →
    (s.shared.wakes.hlt_ts cpuid).toNat ≤ t.toNat

/-- Between the decision for a first kick of `c` and the store of `kick_ts[c]`. -/
def decided (c : Nat) : Pc → Bool
  | .wake _ (.incFree cpuid) | .wake _ (.tsc cpuid) | .wake _ (.stKick cpuid _) => cpuid = c
  | _ => false

theorem holding_of_decided {c : Nat} {pc : Pc} (is : decided c pc = true) : Loop.kick.holding pc = some c := by
  cases pc with
  | wake fn k =>
    cases k with
    | incFree cpuid | tsc cpuid | stKick cpuid t => exact congrArg some (of_decide_eq_true is)
    | _ => cases is
  | _ => cases is

/-- An event that is neither a halt nor a first kick. -/
def plain : Ev → Bool
  | .firstKick _ _ | .halted _ => false
  | _ => true

theorem kicked_plain {e : Option Ev} (other : ∀ ev ∈ e, plain ev = true) (c : Nat) (log : List Ev) :
    kickedSince c (e.toList ++ log) = kickedSince c log ∧ (Once c log → Once c (e.toList ++ log)) := by
  cases e with
  | none => exact ⟨rfl,fun once => once⟩
  | some ev =>
    have is := other ev rfl
    cases ev with
    | firstKick | halted => cases is
    | _ => exact ⟨rfl,fun once => once⟩

/-- What the locals of vCPU `i` say: a stamp it has read for its `hlt_ts`, an
    `hlt_ts` it has loaded, and a stamp it has read for a first kick. -/
structure Own (sh : Shared) (i : Nat) (pc : Pc) : Prop where
  read : ∀ t, pc = .halt (.stHlt t) → (sh.wakes.hlt_ts i).toNat ≤ t.toNat ∧ t.toNat ≤ sh.clock.toNat
  loaded : ∀ fn c hlt, pc = .wake fn (.ldKick c hlt) → hlt.toNat ≤ (sh.wakes.hlt_ts c).toNat
  held : ∀ fn c t, pc = .wake fn (.stKick c t) → kickedSince c sh.log = true → (sh.wakes.hlt_ts c).toNat ≤ t.toNat

/-- What keeps a vCPU from a second first kick: once it is kicked, its `kick_ts`
    is not before its `hlt_ts`, or somebody is about to store one that is not. -/
structure OnceInv (s : Config (Fin p) Shared Vcpu) : Prop where
  stamps : ∀ c, (s.shared.wakes.hlt_ts c).toNat ≤ s.shared.clock.toNat
  own : ∀ i, Own s.shared i.val (s.loc i).pc
  kicked : ∀ c, kickedSince c s.shared.log = true →
    (s.shared.wakes.hlt_ts c).toNat ≤ (s.shared.wakes.kick_ts c).toNat ∨ ∃ i, decided c (s.loc i).pc = true
  unstamped : ∀ c, s.shared.wakes.hlt_ts c = 0 → kickedSince c s.shared.log = false
  once : ∀ c, Once c s.shared.log

theorem own_calm {sh : Shared} {i : Nat} {pc : Pc} (is : calm pc = true) : Own sh i pc := by
  refine ⟨fun t at_ => ?_,fun fn c hlt at_ => ?_,fun fn c t at_ => ?_⟩ <;> rw [at_] at is <;> cases is
theorem decided_calm {pc : Pc} (is : calm pc = true) (c : Nat) : decided c pc = false := by
  cases pc with
  | wake fn k => cases k <;> first | rfl | cases is
  | _ => rfl

/-- `Own` is kept while the stamps only grow and those of the kicked stay. -/
theorem Own.rise {sh sh' : Shared} {i : Nat} {pc : Pc} (own : Own sh i pc)
    (mine : ∀ t, pc = .halt (.stHlt t) → sh'.wakes.hlt_ts i = sh.wakes.hlt_ts i)
    (grows : ∀ c, (sh.wakes.hlt_ts c).toNat ≤ (sh'.wakes.hlt_ts c).toNat) (later : sh.clock.toNat ≤ sh'.clock.toNat)
    (since : ∀ fn c t, pc = .wake fn (.stKick c t) → kickedSince c sh'.log = true →
      kickedSince c sh.log = true ∧ sh'.wakes.hlt_ts c = sh.wakes.hlt_ts c) : Own sh' i pc := by
  constructor
  · intro t at_
    rw [mine t at_]
    exact ⟨(own.read t at_).1,(own.read t at_).2.trans later⟩
  · exact fun fn c h at_ => (own.loaded fn c h at_).trans (grows c)
  · intro fn c t at_ is
    obtain ⟨was,same⟩ := since fn c t at_ is
    rw [same]
    exact own.held fn c t at_ was

/-- It speaks of the shared state only through the stamps, the clock and the halts. -/
theorem Own.mono {sh sh' : Shared} {i : Nat} {pc : Pc} (own : Own sh i pc) (hlt : sh'.wakes.hlt_ts = sh.wakes.hlt_ts)
    (later : sh.clock.toNat ≤ sh'.clock.toNat) (log : ∀ c, kickedSince c sh'.log = kickedSince c sh.log) :
    Own sh' i pc :=
  own.rise (fun _ _ => by rw [hlt]) (fun c => by rw [hlt]) later fun _ c _ _ is => ⟨log c ▸ is,by rw [hlt]⟩

section
variable {s s' : Config (Fin p) Shared Vcpu} {i : Fin p}

/-- Whoever is decided stays so, but for the vCPU that moves. -/
theorem decided_moved (others : ∀ j, j ≠ i → s'.loc j = s.loc j) {c : Nat}
    (keeps : decided c (s.loc i).pc = true → decided c (s'.loc i).pc = true) (about : ∃ j, decided c (s.loc j).pc = true) :
    ∃ j, decided c (s'.loc j).pc = true :=
  exists_of_others (P := fun v => decided c v.pc = true) others keeps about

/-- A step that stores no stamp, and neither halts nor first-kicks. -/
theorem OnceInv.still (inv : OnceInv s) (others : ∀ j, j ≠ i → s'.loc j = s.loc j)
    (hlt : s'.shared.wakes.hlt_ts = s.shared.wakes.hlt_ts) (kick : s'.shared.wakes.kick_ts = s.shared.wakes.kick_ts)
    (later : s.shared.clock.toNat ≤ s'.shared.clock.toNat) {e : Option Ev} (other : ∀ ev ∈ e, plain ev = true)
    (log : s'.shared.log = e.toList ++ s.shared.log)
    (keeps : ∀ c, decided c (s.loc i).pc = true → decided c (s'.loc i).pc = true)
    (own : Own s'.shared i.val (s'.loc i).pc) : OnceInv s' := by
  have since : ∀ c, kickedSince c s'.shared.log = kickedSince c s.shared.log := by
    intro c
    rw [log]
    exact (kicked_plain other c _).1
  constructor
  · intro c
    rw [hlt]
    exact (inv.stamps c).trans later
  · exact forall_of_others (P := fun j v => Own s'.shared j.val v.pc) others own fun j _ => (inv.own j).mono hlt later since
  · intro c is
    rw [hlt,kick]
    exact (inv.kicked c (since c ▸ is)).imp_right (decided_moved others (keeps c))
  · intro c
    rw [hlt,since]
    exact inv.unstamped c
  · intro c
    rw [log]
    exact (kicked_plain other c _).2 (inv.once c)

/-- The store of `kick_ts[cpuid]`, by a first kick or by a re-kick. -/
theorem OnceInv.store {cpuid : Nat} {t : Word} (inv : OnceInv s) (others : ∀ j, j ≠ i → s'.loc j = s.loc j)
    (hlt : s'.shared.wakes.hlt_ts = s.shared.wakes.hlt_ts)
    (kick : s'.shared.wakes.kick_ts = Function.update s.shared.wakes.kick_ts cpuid t)
    (later : s.shared.clock.toNat ≤ s'.shared.clock.toNat) (log : s'.shared.log = s.shared.log)
    (after : kickedSince cpuid s.shared.log = true →
      (s.shared.wakes.hlt_ts cpuid).toNat ≤ t.toNat ∨ ∃ j, j ≠ i ∧ decided cpuid (s.loc j).pc = true)
    (away : ∀ c, c ≠ cpuid → decided c (s.loc i).pc = false)
    (own : Own s'.shared i.val (s'.loc i).pc) : OnceInv s' := by
  constructor
  · intro c
    rw [hlt]
    exact (inv.stamps c).trans later
  · exact forall_of_others (P := fun j v => Own s'.shared j.val v.pc) others own
      fun j _ => (inv.own j).mono hlt later fun c => by rw [log]
  · intro c is
    rw [log] at is
    rw [hlt,kick]
    by_cases same : c = cpuid
    · subst same
      rw [Function.update_self]
      apply (after is).imp_right
      rintro ⟨j,other,about⟩
      exact ⟨j,by rw [others j other]; exact about⟩
    · rw [Function.update_of_ne same]
      refine (inv.kicked c is).imp_right (decided_moved others fun about => ?_)
      rw [away c same] at about
      cases about
  · intro c
    rw [hlt,log]
    exact inv.unstamped c
  · intro c
    rw [log]
    exact inv.once c

/-- Steps of `wake_up_task` that store no `kick_ts` and decide no first kick. -/
theorem wake_still (id : Nat) (tsc runnable_tasks : Word) (w : Wakes) (fn : Nat) {k : WakePc}
    (first : ∀ c t, k ≠ .stKick c t) (again : ∀ c won t, k ≠ .stKick1 c won t) (decides : ∀ c hlt, k ≠ .ldKick c hlt) :
    (wake_up_task id tsc runnable_tasks w k).1.kick_ts = w.kick_ts ∧
      (∀ ev ∈ (wake_up_task id tsc runnable_tasks w k).2.2, plain ev = true) ∧
      ∀ c, decided c (.wake fn k) = true → decided c (next fn (wake_up_task id tsc runnable_tasks w k).2.1) = true := by
  cases k with
  | stKick c t => exact absurd rfl (first c t)
  | stKick1 c won t => exact absurd rfl (again c won t)
  | ldKick c hlt => exact absurd rfl (decides c hlt)
  | bsf1 rax | bsf =>
    simp only [wake_up_task]
    split <;> exact ⟨rfl,(by simp),fun c is => by cases is⟩
  | incFree c => exact ⟨rfl,(by simp [wake_up_task]),fun c is => is⟩
  | tsc c => exact ⟨rfl,(by simp [wake_up_task]),fun c is => is⟩
  | stWakeNum | xadd => exact ⟨rfl,(by simp [wake_up_task,plain]),fun c is => by cases is⟩
  | _ => exact ⟨rfl,(by simp [wake_up_task]),fun c is => by cases is⟩

/-- Where the locals that `Own` speaks of come from. -/
theorem wake_own {id : Nat} {tsc runnable_tasks : Word} {w : Wakes} {fn : Nat} {k : WakePc} {pc : Pc}
    (after : pc = next fn (wake_up_task id tsc runnable_tasks w k).2.1) :
    (∀ t, pc ≠ .halt (.stHlt t)) ∧ (∀ fn' c hlt, pc = .wake fn' (.ldKick c hlt) → k = .ldHlt c ∧ hlt = w.hlt_ts c) ∧
      ∀ fn' c t, pc = .wake fn' (.stKick c t) → k = .tsc c ∧ t = tsc := by
  cases out : (wake_up_task id tsc runnable_tasks w k).2.1 with
  | none =>
    rw [out] at after
    have is : calm pc = true := after ▸ calm_afterWake fn
    refine ⟨fun t at_ => ?_,fun fn' c hlt at_ => ?_,fun fn' c t at_ => ?_⟩ <;> rw [at_] at is <;> cases is
  | some k' =>
    rw [out] at after
    subst after
    refine ⟨fun t at_ => (by cases at_),?_,?_⟩
    · intro fn' c hlt at_
      cases at_
      cases k <;> simp [wake_up_task] at out <;> grind
    · intro fn' c t at_
      cases at_
      cases k <;> simp [wake_up_task] at out <;> grind

/-- The store of `hlt_ts`. -/
theorem OnceInv.halt {t : Word} (inv : OnceInv s) (pc : (s.loc i).pc = .halt (.stHlt t))
    (others : ∀ j, j ≠ i → s'.loc j = s.loc j) (next : (s'.loc i).pc = .halt .ldHlt)
    (hlt : s'.shared.wakes.hlt_ts = Function.update s.shared.wakes.hlt_ts i.val t)
    (kick : s'.shared.wakes.kick_ts = s.shared.wakes.kick_ts) (later : s.shared.clock.toNat ≤ s'.shared.clock.toNat)
    (log : s'.shared.log = .halted i.val :: s.shared.log) : OnceInv s' := by
  obtain ⟨grows,bound⟩ := (inv.own i).read t pc
  have younger : ∀ c, (s.shared.wakes.hlt_ts c).toNat ≤ (s'.shared.wakes.hlt_ts c).toNat := by
    intro c
    rw [hlt]
    by_cases same : c = i.val
    · subst same
      rw [Function.update_self]
      exact grows
    · rw [Function.update_of_ne same]
  have since : ∀ c, kickedSince c s'.shared.log = true → kickedSince c s.shared.log = true ∧
      s'.shared.wakes.hlt_ts c = s.shared.wakes.hlt_ts c := by
    intro c is
    rw [log] at is
    by_cases same : i.val = c
    · simp [kickedSince,same] at is
    · rw [hlt,Function.update_of_ne (Ne.symm same)]
      simp only [kickedSince,same,if_false] at is
      exact ⟨is,rfl⟩
  constructor
  · intro c
    rw [hlt]
    by_cases same : c = i.val
    · subst same
      rw [Function.update_self]
      exact bound.trans later
    · rw [Function.update_of_ne same]
      exact (inv.stamps c).trans later
  · refine forall_of_others (P := fun j v => Own s'.shared j.val v.pc) others ?_ ?_
    · rw [next]
      exact ⟨(fun t is => by cases is),(fun fn c h is => by cases is),(fun fn c t is => by cases is)⟩
    · intro j other
      refine (inv.own j).rise (fun u _ => ?_) younger later fun _ c _ _ => since c
      rw [hlt,Function.update_of_ne fun is => other (Fin.ext is)]
  · intro c is
    rw [(since c is).2,kick]
    refine (inv.kicked c (since c is).1).imp_right (decided_moved others fun about => ?_)
    rw [pc] at about
    cases about
  · intro c none_
    by_contra is
    obtain ⟨was,same⟩ := since c (by simpa using is)
    rw [inv.unstamped c (same ▸ none_)] at was
    cases was
  · intro c
    rw [log]
    exact inv.once c

/-- The decision for a first kick: `cpuid` has halted since the last one. -/
theorem OnceInv.first {fn cpuid : Nat} {hlt : Word} (inv : OnceInv s) (exclusive : Exclusive s)
    (pc : (s.loc i).pc = .wake fn (.ldKick cpuid hlt)) (others : ∀ j, j ≠ i → s'.loc j = s.loc j)
    (next : (s'.loc i).pc = .wake fn (.incFree cpuid)) (wakes : s'.shared.wakes = s.shared.wakes)
    (later : s.shared.clock.toNat ≤ s'.shared.clock.toNat) (log : s'.shared.log = .firstKick i.val cpuid :: s.shared.log)
    (young : (s.shared.wakes.kick_ts cpuid).toNat < hlt.toNat) : OnceInv s' := by
  have mine : hands .kick s i = some cpuid := by simp [hands,pc,Loop.holding,Loop.hand,Hand.held]
  have alone : ∀ j, hands .kick s j = some cpuid → j = i := fun j yours => exclusive .kick cpuid j i yours mine
  have due : kickedSince cpuid s.shared.log = false := by
    by_contra kicked
    rcases inv.kicked cpuid (by simpa using kicked) with stored | ⟨j,about⟩
    · have bound := (inv.own i).loaded fn cpuid hlt pc
      omega
    · have same := alone j (holding_of_decided about)
      rw [same,pc] at about
      cases about
  have since : ∀ c, c ≠ cpuid → kickedSince c s'.shared.log = kickedSince c s.shared.log := by
    intro c other
    rw [log]
    simp [kickedSince,Ne.symm other]
  constructor
  · intro c
    rw [wakes]
    exact (inv.stamps c).trans later
  · refine forall_of_others (P := fun j v => Own s'.shared j.val v.pc) others ?_ ?_
    · rw [next]
      exact ⟨(fun t is => by cases is),(fun fn c h is => by cases is),(fun fn c t is => by cases is)⟩
    · intro j apart
      refine (inv.own j).rise (fun _ _ => by rw [wakes]) (fun c => by rw [wakes]) later fun fn c u is kicked => ?_
      have other : c ≠ cpuid := fun at_ => apart (alone j (by simp [hands,is,Loop.holding,Loop.hand,Hand.held,at_]))
      exact ⟨since c other ▸ kicked,by rw [wakes]⟩
  · intro c is
    by_cases same : c = cpuid
    · subst same
      exact .inr ⟨i,by simp [next,decided]⟩
    · rw [wakes]
      refine (inv.kicked c (since c same ▸ is)).imp_right (decided_moved others fun about => ?_)
      rw [pc] at about
      cases about
  · intro c none_
    rw [wakes] at none_
    by_cases same : c = cpuid
    · subst same
      have bound := (inv.own i).loaded fn c hlt pc
      rw [none_] at bound
      exact absurd (Nat.lt_of_lt_of_le young bound) (Nat.not_lt_zero _)
    · rw [since c same]
      exact inv.unstamped c none_
  · intro c
    rw [log]
    exact ⟨fun at_ => at_ ▸ due,inv.once c⟩

/-- Outside `wake_up_task` only the halt path stores a stamp. -/
theorem outside_still {id : Nat} {x : Input} {pc pc' : Pc} {w w' : Wakes} {e : Option Ev}
    (effect : Effect id x pc w pc' w' e) :
    (∀ c, decided c pc = false) ∧
      ((∃ t, pc = .halt (.stHlt t) ∧ pc' = .halt .ldHlt ∧ w'.hlt_ts = Function.update w.hlt_ts id t ∧ e = some (.halted id)) ∨
        w'.hlt_ts = w.hlt_ts ∧ (∀ ev ∈ e, plain ev = true) ∧
        (∀ t, pc' = .halt (.stHlt t) → pc.readsTsc = true ∧ t = x.tsc) ∧
          ∀ fn k, pc' = .wake fn k → k = .ldKicked) := by
  cases effect with
  | calm before after same other =>
    refine ⟨decided_calm before,.inr ⟨by rw [same],fun ev logs => ?_,fun t at_ => ?_,fun fn k at_ => ?_⟩⟩
    · have not := other ev logs
      cases ev <;> first | rfl | exact absurd trivial not
    · rw [at_] at after
      cases after
    · rw [at_] at after
      cases k <;> first | rfl | cases after
  | wipe wiped =>
    cases wiped <;>
      exact ⟨fun _ => rfl,.inr ⟨rfl,(by simp),(fun t at_ => by cases at_),fun fn k at_ => by cases at_⟩⟩
  | stHlt t => exact ⟨fun _ => rfl,.inl ⟨t,rfl,rfl,rfl,rfl⟩⟩
  | tsc =>
    exact ⟨fun _ => rfl,.inr ⟨rfl,(by simp),(fun t at_ => by cases at_; exact ⟨rfl,rfl⟩),fun fn k at_ => by cases at_⟩⟩
  | timed before after =>
    have away : ∀ c, decided c pc = false := by
      intro c
      cases pc with
      | wake fn k => cases before
      | _ => rfl
    refine ⟨away,.inr ⟨rfl,(by simp),fun t at_ => ?_,fun fn k at_ => ?_⟩⟩ <;> rw [at_] at after <;> cases after
  | hlt woke | bootHlt woke =>
    refine ⟨fun _ => rfl,.inr ⟨?_,(by simp),(fun t at_ => by cases at_),fun fn k at_ => by cases at_⟩⟩
    rcases hlt_some woke with ⟨rfl,-⟩ | ⟨rfl,-⟩ <;> rfl
  | bts | btr | bootBtr =>
    exact ⟨fun _ => rfl,.inr ⟨rfl,(by simp),(fun t at_ => by cases at_),fun fn k at_ => by cases at_⟩⟩

end

/-- When `scheduler_init_post` stores `hlt_ts[i]`, vCPU `i` has not stored one itself
    and has none in hand. -/
def LateOk (m : Machine p) (a : Fin p × Input) : Prop :=
  a.1.val = 0 → ∀ t i, m.init = .stHlt t i → m.config.shared.wakes.hlt_ts i = 0 ∧
    ∀ c : Fin p, c.val = i → ∀ t', (m.config.loc c).pc ≠ .halt (.stHlt t')

theorem OnceInv.step_inside {s s' : Config (Fin p) Shared Vcpu} {a : Fin p × Input} {fn : Nat} {k : WakePc}
    (inv : OnceInv s)
    (exclusive : Exclusive s) (ticks : Ticking s a) (rekick : RekickOk s a) (moved : (pool p host).step s a = some s')
    (pc : (s.loc a.1).pc = .wake fn k) : OnceInv s' := by
  have later := clock_le ticks moved
  obtain ⟨sh,ran,shared,others⟩ := pool_frame moved
  obtain ⟨wakes,after,log⟩ := inside_wake ran pc
  rw [show sh.wakes = s'.shared.wakes by rw [shared]] at wakes
  rw [show sh.log = s'.shared.log by rw [shared]] at log
  change (s'.loc a.1).pc = next fn _ at after
  obtain ⟨hlt_ts,-,-⟩ := inside a.1.val a.2.tsc s.shared.tasks.runnable_tasks s.shared.wakes fn k
  rw [← wakes] at hlt_ts
  have own : Own s'.shared a.1.val (s'.loc a.1).pc := by
    obtain ⟨awake,loads,reads⟩ := wake_own after
    constructor
    · intro t at_
      exact absurd at_ (awake t)
    · intro fn' c hlt at_
      rw [hlt_ts,(loads fn' c hlt at_).2]
    · intro fn' c t at_ _
      obtain ⟨rfl,rfl⟩ := reads fn' c t at_
      rw [hlt_ts]
      exact (inv.stamps c).trans (ticks (by rw [pc]; rfl)).le
  by_cases store : ∃ c t, k = .stKick c t
  · obtain ⟨c,t,rfl⟩ := store
    have kick : s'.shared.wakes.kick_ts = Function.update s.shared.wakes.kick_ts c t := by rw [wakes]; rfl
    exact inv.store others hlt_ts kick later log (fun since => .inl ((inv.own a.1).held fn c t pc since))
      (fun c' other => by rw [pc]; simp [decided,other.symm]) own
  by_cases again : ∃ c won t, k = .stKick1 c won t
  · obtain ⟨c,won,t,rfl⟩ := again
    have kick : s'.shared.wakes.kick_ts = Function.update s.shared.wakes.kick_ts c t := by rw [wakes]; rfl
    refine inv.store others hlt_ts kick later log (fun since => ?_) (fun c' _ => by rw [pc]; rfl) own
    rcases inv.kicked c since with stored | ⟨j,about⟩
    · exact .inl (rekick fn c won t pc stored)
    · refine .inr ⟨j,fun at_ => ?_,about⟩
      rw [at_,pc] at about
      cases about
  by_cases decides : ∃ c hlt, k = .ldKick c hlt
  · obtain ⟨c,hlt,rfl⟩ := decides
    by_cases young : hlt.toNat > (s.shared.wakes.kick_ts c).toNat
    · simp only [wake_up_task,young,if_true] at wakes after log
      exact inv.first exclusive pc others after wakes later log young
    · simp only [wake_up_task,young,if_false] at wakes after log
      exact inv.still (e := none) others hlt_ts (by rw [wakes]) later (by simp) log
        (fun c' is => by rw [pc] at is; cases is) own
  · obtain ⟨kick,other,keeps⟩ := wake_still a.1.val a.2.tsc s.shared.tasks.runnable_tasks s.shared.wakes fn
      (fun c t is => store ⟨c,t,is⟩) (fun c won t is => again ⟨c,won,t,is⟩) (fun c hlt is => decides ⟨c,hlt,is⟩)
    exact inv.still others hlt_ts (by rw [wakes,kick]) later other log
      (fun c is => by rw [after]; exact keeps c (pc ▸ is)) own

theorem OnceInv.step_outside {s s' : Config (Fin p) Shared Vcpu} {a : Fin p × Input} (inv : OnceInv s) (ticks : Ticking s a)
    (moved : (pool p host).step s a = some s') (out : ∀ fn k, (s.loc a.1).pc ≠ .wake fn k) : OnceInv s' := by
  have later := clock_le ticks moved
  obtain ⟨sh,ran,shared,others⟩ := pool_frame moved
  obtain ⟨e,effect,log⟩ := outside_wake ran out
  rw [show sh.wakes = s'.shared.wakes by rw [shared]] at effect
  rw [show sh.log = s'.shared.log by rw [shared]] at log
  obtain ⟨kick,-,-,-⟩ := outside effect
  obtain ⟨away,⟨t,pc,after,hlt,rfl⟩ | ⟨hlt,other,reads,enters⟩⟩ := outside_still effect
  · exact inv.halt pc others after hlt kick later log
  · apply inv.still others hlt kick later other log
    · intro c is
      rw [away c] at is
      cases is
    · constructor
      · intro t at_
        obtain ⟨reads,rfl⟩ := reads t at_
        have clock : s'.shared.clock = a.2.tsc := by rw [shared,reads]; rfl
        rw [hlt,clock]
        exact ⟨(inv.stamps _).trans (ticks reads).le,Nat.le_refl _⟩
      · intro fn c hlt at_
        cases enters fn _ at_
      · intro fn c t at_
        cases enters fn _ at_

theorem OnceInv.step {s s' : Config (Fin p) Shared Vcpu} {a : Fin p × Input} (inv : OnceInv s) (exclusive : Exclusive s)
    (ticks : Ticking s a) (rekick : RekickOk s a) (moved : (pool p host).step s a = some s') : OnceInv s' := by
  by_cases inWake : ∃ fn k, (s.loc a.1).pc = .wake fn k
  · obtain ⟨fn,k,pc⟩ := inWake
    exact inv.step_inside exclusive ticks rekick moved pc
  · exact inv.step_outside ticks moved (by simpa using inWake)

theorem OnceInv.start {m : Machine p} (first : (startup p host).init m) : OnceInv m.config := by
  obtain ⟨d,dag_in_count,book,-,rfl⟩ := first
  refine ⟨fun c => Nat.zero_le _,fun i => ?_,fun c kicked => absurd kicked Bool.false_ne_true,fun c _ => rfl,
    fun c => trivial⟩
  by_cases zero : i.val = 0 <;> simp only [bootVcpu,zero,if_true,if_false]
  · exact own_calm rfl
  · refine ⟨fun t at_ => ?_,fun fn c hlt at_ => ?_,fun fn c t at_ => ?_⟩ <;> cases at_

/-- The initialisation gives a vCPU its first stamp. -/
theorem OnceInv.init {m m' : Machine p} {a : Fin p × Input} {sh : Shared} (inv : OnceInv m.config)
    (hand : ∀ t, inHand m.init = some t → t.toNat ≤ m.config.shared.clock.toNat) (ticks : Ticks m a) (late : LateOk m a)
    (zero : a.1.val = 0) (ran : scheduler_init p a.2.tsc m.config.shared m.init = some (sh,m'.init)) :
    OnceInv { m.config with shared := sh } := by
  obtain ⟨⟨kick_ts,-,-,-,log,-⟩,-,-,-⟩ := init_frame ran
  have later := init_clock_le ticks zero ran
  rcases init_wakes ran with ⟨u,i,pc,stored,-⟩ | ⟨-,hlt_ts,-⟩
  · have hlt : sh.wakes.hlt_ts = Function.update m.config.shared.wakes.hlt_ts i u := by rw [stored]
    obtain ⟨old,empty⟩ := late zero u i pc
    have never := inv.unstamped i old
    have kept : ∀ {c}, kickedSince c m.config.shared.log = true → sh.wakes.hlt_ts c = m.config.shared.wakes.hlt_ts c := by
      intro c is
      have other : c ≠ i := fun same => by rw [same,never] at is; cases is
      rw [hlt,Function.update_of_ne other]
    refine ⟨?_,?_,?_,?_,fun c => by rw [log]; exact inv.once c⟩
    · intro c
      dsimp only
      rw [hlt]
      by_cases same : c = i
      · subst same
        rw [Function.update_self]
        exact (hand u (by rw [pc]; rfl)).trans later
      · rw [Function.update_of_ne same]
        exact (inv.stamps c).trans later
    · intro j
      refine (inv.own j).rise (fun t at_ => ?_) (fun c => ?_) later fun _ c _ _ is => ?_
      · have other : j.val ≠ i := fun same => empty j same t at_
        rw [hlt,Function.update_of_ne other]
      · rw [hlt]
        by_cases same : c = i
        · rw [same,old]
          exact Nat.zero_le _
        · rw [Function.update_of_ne same]
      · rw [log] at is
        exact ⟨is,kept is⟩
    · intro c is
      dsimp only at is ⊢
      rw [log] at is
      rw [kept is,kick_ts]
      exact inv.kicked c is
    · intro c none_
      dsimp only at none_ ⊢
      rw [log]
      by_cases same : c = i
      · rw [same]
        exact never
      · rw [hlt,Function.update_of_ne same] at none_
        exact inv.unstamped c none_
  · exact inv.still (i := a.1) (e := none) (fun _ _ => rfl) hlt_ts kick_ts later (by simp) log
      (fun _ is => is) ((inv.own a.1).mono hlt_ts later fun c => by rw [log])

/-- No id is held twice while every step meets `ClearOk`; and no vCPU is first-kicked
    twice for one halt while besides the TSC increases and no stamp is put back. -/
theorem ids_exclusive (p : Nat) (host : Metadata → Prop) :
    (∀ m, Reach (startup p host) (fun m a => ClearOk m.config a) m → Exclusive m.config) ∧
      ∀ m, Reach (startup p host) (fun m a => ClearOk m.config a ∧ RekickOk m.config a ∧ LateOk m a ∧ Ticks m a) m →
        ∀ c, Once c m.config.shared.log := by
  have alone : ∀ {good : Machine p → Fin p × Input → Prop} {m}, (∀ m a, good m a → ClearOk m.config a) →
      Reach (startup p host) good m → Exclusive m.config := fun sub reach => exclusive_of_fair (fair_reach sub reach)
  refine ⟨fun m reach => alone (fun _ _ ok => ok) reach,?_⟩
  intro m reach c
  have inv : OnceInv m.config := by
    refine reach.invariant (fun _ first => OnceInv.start first) ?_
    intro m a m' before inv ok moved
    obtain ⟨clear,rekick,late,ticks⟩ := ok
    rcases startup_cases moved with ⟨zero,sh,ran,config⟩ | ⟨up,-,ran⟩
    · rw [config]
      exact inv.init (hand_reach (fun _ _ ok => ok.2.2.2) before) ticks late zero ran
    · exact inv.step (alone (fun _ _ ok => ok.1) before) (ticks.pool up) rekick ran
  exact inv.once c

/-- During an epoch reset only a vCPU on its first pass is inside `wake_up_task`. -/
theorem lingers_first {n : Nat} (supply : ∀ d, host d → Valid d) (constant : ∀ d, host d → d.num_nodes = n)
    {s : Config (Fin p) Shared Vcpu} (reach : Reach (pool p host) (Supplied host) s) {i j : Fin p} {k : ResetPc} {fn : Nat}
    {k' : WakePc} (resetting : (s.loc i).pc = .reset k) (inside : (s.loc j).pc = .wake fn k') : fn = NULL_FUNC := by
  obtain ⟨freshly,-⟩ := fresh_of_constant supply constant reach
  have busy : resets (roles s i) = true := by cases k <;> simp [roles,role,resets,resetting]
  have other : j ≠ i := by
    intro same
    rw [same,resetting] at inside
    cases inside
  have idle := ((core_reach supply freshly).solo i busy).1 j other
  by_contra finishing
  simp [roles,role,inside,finishing] at idle

/-- vCPU 0 holds vCPU 1 for its first kick. -/
theorem ids_exclusive_fan : ∃ m : Machine 3,
    hands .kick m.config 0 = some 1 ∧ Exclusive m.config ∧ ∀ c, Once c m.config.shared.log := by
  let check : Machine 3 → Fin 3 × Input → Bool := fun m a => decide (Ticks m a) &&
    (match m.init with
      | .stHlt _ i =>
        decide (m.config.shared.wakes.hlt_ts i = 0 ∧ ∀ c : Fin 3, c.val = i → blocked (m.config.loc c).pc = true)
      | _ => true) &&
    match (m.config.loc a.1).pc with
    | .reset .clr1 => decide (m.config.shared.wakes.ss_reflective_bm.word0 = 0 ∧ ∀ i, hands .kick m.config i = none)
    | .reset .clr11 => decide (m.config.shared.wakes.ss_reflective_bm1.word0 = 0 ∧ ∀ i, hands .rekick m.config i = none)
    | .wake _ (.stKick1 _ _ _) | .wake _ (.rel1 _ false) => false
    | _ => true
  let S := (startup 3 (· = fan)).guard check
  have ran : (exec S (imaged 3 fan) (schedule 1 [(0,117)])).any
    (fun m => decide (hands .kick m.config 0 = some 1)) = true := by
    decide +kernel
  have first : S.init (imaged 3 fan) := imaged_init rfl
  obtain ⟨m,reach,held⟩ := exec_exists first (fun _ _ _ => trivial) ran
  have good : ∀ m a, check m a = true → ClearOk m.config a ∧ RekickOk m.config a ∧ LateOk m a ∧ Ticks m a := by
    intro m a ok
    simp only [check,Bool.and_eq_true] at ok
    obtain ⟨⟨ticks,late⟩,rest⟩ := ok
    refine ⟨⟨?_,?_⟩,?_,?_,of_decide_eq_true ticks⟩
    · intro l resets
      cases l <;> simp only [Loop.wipes] at resets <;> rw [resets] at rest <;> exact of_decide_eq_true rest
    · intro fn cpuid pc
      rw [pc] at rest
      cases rest
    · intro fn cpuid won t pc
      rw [pc] at rest
      cases rest
    · intro _ t i pc
      rw [pc] at late
      obtain ⟨none_,awake⟩ := of_decide_eq_true late
      refine ⟨none_,fun c same t' at_ => ?_⟩
      have asleep := awake c same
      rw [at_] at asleep
      cases asleep
  have checked := (Reach.of_guard reach).mono good
  obtain ⟨exclusive,once⟩ := ids_exclusive 3 (· = fan)
  exact ⟨m,of_decide_eq_true held,exclusive m (checked.mono fun _ _ ok => ok.1),once m checked⟩

/-- Both vCPU 0 and vCPU 1 have taken 2 out of `ss_reflective_bm1`. -/
def bothHold (m : Machine 3) : Bool := decide (hands .rekick m.config 0 = some 2) &&
    decide (hands .rekick m.config 1 = some 2)

theorem held_of_schedule {turns : List (Fin 3 × Nat)}
    (ran : (exec (startup 3 (· = fan)) (imaged 3 fan) (schedule 1 turns)).any bothHold = true) :
    ∃ m, Reach (startup 3 (· = fan)) (fun m a => Supplied (· = fan) m.config a ∧ a.2.intr = false) m ∧
    ¬ Exclusive m.config := by
  have ok : ∀ a ∈ schedule 1 turns, ∀ m : Machine 3, Supplied (· = fan) m.config a ∧ a.2.intr = false :=
    fun a member m => ⟨schedule_supplied a member m.config,(schedule_input member).2⟩
  have first : (startup 3 (· = fan)).init (imaged 3 fan) := imaged_init rfl
  obtain ⟨m,reach,holds⟩ := exec_exists first ok ran
  simp only [bothHold,Bool.and_eq_true,decide_eq_true_eq] at holds
  refine ⟨m,reach,fun exclusive => ?_⟩
  have same := exclusive .rekick 2 0 1 holds.1 holds.2
  cases same

/-- vCPU 1, kicked awake, takes 2 out of `ss_reflective_bm1` and stalls; vCPU 0 runs
    the epoch to its end, wipes both arrays, and takes 2 out of the next snapshot. -/
theorem held_twice : ¬ ∀ host : Metadata → Prop, (∀ d, host d → Valid d) →
    ∀ m, Reach (startup 3 host) (fun m a => Supplied host m.config a ∧ a.2.intr = false) m →
      Exclusive m.config ∧ ∀ c, Once c m.config.shared.log := by
  intro exclusive
  have ran : (exec (startup 3 (· = fan)) (imaged 3 fan) (schedule 1 [(0,129),(1,9),(0,182)])).any bothHold = true := by
    decide +kernel
  obtain ⟨m,reach,both⟩ := held_of_schedule ran
  exact both (exclusive (· = fan) (fun _ same => same ▸ fan_valid) m reach).1

/-- Within one epoch: vCPUs 0 and 1 both find 2 in `ss_reflective_bm1`, vCPU 1 takes it,
    and vCPU 0 goes on as if it had, frees it, and takes it out of the next snapshot. -/
theorem lost_twice : ∃ m, Reach (startup 3 (· = fan)) (fun m a => Supplied (· = fan) m.config a ∧ a.2.intr = false) m ∧
    ¬ Exclusive m.config := by
  have ran : (exec (startup 3 (· = fan)) (imaged 3 fan) (schedule 1 [(0,129),(1,8),(0,31),(1,1),(0,41)])).any bothHold = true := by
    decide +kernel
  exact held_of_schedule ran

end
end Bootcode.Holders
