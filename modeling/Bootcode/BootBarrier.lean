import Bootcode.Descriptors
import Bootcode.Graph
import Bootcode.Sched

/-!
How `main` brings up a pool: every vCPU runs `init_boot` and clears its bit of
`barrier_bm`, and vCPU 0, which takes the bits above the pool out of the word,
waits until it is empty before it initialises the scheduler. For the full 64 vCPUs
the mask of the pool is empty, and vCPU 0 waits for nobody.
-/
namespace Bootcode.BootBarrier
open Bootcode.Bits Bootcode.Bytes Bootcode.Mutex Bootcode.Interleave Bootcode.InitBoot Bootcode.Descriptors

def MAX_CPUS : Nat := 64
def MSG_BOOTED : Nat := 2

/-- Before each access of `main`. -/
inductive Pc
  | init_boot
  | andPool
  | btr
  | test
  | bsf
  | vmmcall (preempted_cpu : Option Nat)
  | scheduler_init_pre
  | outw
  | scheduler_init_post
  | hlt
  | wake_up_event

structure Vcpu where
  pc : Pc
  boot : InitBoot.Vcpu

/-- The memory of `init_boot`, the barrier, what the scheduler shares, and the messages
    that have gone out on `PORT_MSG`. -/
structure Machine where
  boot : InitBoot.Machine
  barrier_bm : Word
  sched : SchedState.Shared
  port_msg : List Nat

/-- One step of `main` on vCPU `id`; `wakes` is whether a `hlt` returns. x86 takes the
    shift count modulo 64. -/
def main (b : Image) (pool_sz id : Nat) (wakes : Bool) (m : Machine) (l : Vcpu) : Option (Machine × Vcpu) :=
  match l.pc with
  | .init_boot =>
    match l.boot.pc with
    | .done => some (m,{ l with pc := if id = 0 then .andPool else .btr })
    | _ => (InitBoot.init_boot b id m.boot l.boot).map fun r => ({ m with boot := r.1 },{ l with boot := r.2 })
  | .andPool => some ({ m with barrier_bm := m.barrier_bm &&& (((1 : Word) <<< (pool_sz % 64)) - 1) },{ l with pc := .btr })
  | .btr => some ({ m with barrier_bm := Bits.btr m.barrier_bm id },{ l with pc := if id = 0 then .test else .hlt })
  | .test => some (m,{ l with pc := if m.barrier_bm ≠ 0 then .bsf else .scheduler_init_pre })
  | .bsf => some (m,{ l with pc := .vmmcall (Bits.bsf m.barrier_bm) })
  | .vmmcall _ => some (m,{ l with pc := .test })
  | .scheduler_init_pre => some ({ m with sched := Sched.scheduler_init_pre pool_sz m.sched },{ l with pc := .outw })
  | .outw => some ({ m with port_msg := MSG_BOOTED :: m.port_msg },{ l with pc := .scheduler_init_post })
  | .scheduler_init_post => none
  | .hlt => if wakes then some (m,{ l with pc := .wake_up_event }) else none
  | .wake_up_event => none

abbrev State (p : Nat) := Config (Fin p) Machine Vcpu

variable {p : Nat}

/-- A pool of `p` vCPUs, from any memory, with `barrier_bm` all ones. -/
def system (b : Image) (p : Nat) : System (State p) (Fin p × Bool) :=
  threads (fun s => s.shared.boot.mutex_tss_fill_flush = 0 ∧ s.shared.barrier_bm = -1 ∧ s.shared.port_msg = [] ∧
    ∀ i, (s.loc i).pc = .init_boot ∧ (s.loc i).boot.pc = .start) fun i => main b p i.val

/-- The vCPU has loaded its TSS, filled in the user segments, set the registers of
    `syscall` and enabled interrupts. -/
structure Completed (b : Image) (id : Nat) (l : Vcpu) : Prop where
  returned : l.boot.pc = .done
  tr : l.boot.tr = some (segment b id)
  msr : ∀ r ∈ set_syscall_msrs b.syscall_entry, l.boot.msr r.1 = r.2.1 ++ r.2.2
  intr : l.boot.intr = true

/-- vCPU 0 is past its loop. -/
def past : Pc → Bool
  | .scheduler_init_pre | .outw | .scheduler_init_post => true
  | _ => false
/-- vCPU 0 is past `scheduler_init_pre`. -/
def initialised : Pc → Bool
  | .outw | .scheduler_init_post => true
  | _ => false
/-- The vCPU has cleared its bit, if it is not vCPU 0. -/
def cleared : Pc → Bool
  | .hlt | .wake_up_event => true
  | _ => false

/-- What `main` promises: past the loop, and once `MSG_BOOTED` has gone out, all other
    vCPUs have completed `init_boot` and cleared their bits, and the scheduler starts
    with all of them idle. -/
structure BootOk (b : Image) (s : State p) : Prop where
  past : ∀ i j, i ≠ j → past (s.loc i).pc = true → Completed b j.val (s.loc j) ∧ s.shared.barrier_bm.getLsbD j.val = false
  booted : ∀ j, s.shared.port_msg ≠ [] → j.val ≠ 0 → Completed b j.val (s.loc j) ∧ s.shared.barrier_bm.getLsbD j.val = false
  idle : ∀ i, initialised (s.loc i).pc = true → ∀ k,
    s.shared.sched.wakes.bm_inactive_vcpus.getLsbD k = decide (1 ≤ k ∧ k < p)

/-- `scheduler_init_pre` makes vCPUs 1 to `p - 1` idle. -/
theorem idle_init_pre (small : p < 64) (s : SchedState.Shared) (k : Nat) :
    (Sched.scheduler_init_pre p s).wakes.bm_inactive_vcpus.getLsbD k = decide (1 ≤ k ∧ k < p) := by
  have bits : (Sched.scheduler_init_pre p s).wakes.bm_inactive_vcpus = Bits.btr ((1#64 <<< (p % 64)) - 1#64) 0 := rfl
  rw [bits,getLsbD_btr,getLsbD_pool (by omega)]
  by_cases zero : k = 0
  · simp [zero]
  · simp [Ne.symm zero,Nat.one_le_iff_ne_zero.mpr zero]

/-- The vCPUs of a pool as `init_boot` sees them. -/
def vcpus (b : Image) (most : p ≤ 64) : Vcpus p :=
  ⟨b,fun i => i.val,fun i => by omega,Fin.val_injective⟩

def bootState (s : State p) : InitBoot.State p := ⟨s.shared.boot,fun i => (s.loc i).boot⟩

/-- Where only vCPU 0 can be. -/
def leads : Pc → Bool
  | .init_boot | .btr | .hlt | .wake_up_event => false
  | _ => true

structure Inv (b : Image) (small : p < 64) (s : State p) : Prop where
  boot : InitBoot.Inv (vcpus b small.le) (bootState s)
  returned : ∀ i, (s.loc i).pc = .init_boot ∨ (s.loc i).boot.pc = .done
  leader : ∀ i, leads (s.loc i).pc = true → i.val = 0
  bit : ∀ i : Fin p, i.val ≠ 0 → s.shared.barrier_bm.getLsbD i.val = !cleared (s.loc i).pc
  ended : ∀ i j, past (s.loc i).pc = true → j.val ≠ 0 → cleared (s.loc j).pc = true
  sent : s.shared.port_msg ≠ [] → ∃ i, (s.loc i).pc = .scheduler_init_post
  idle : ∀ i, initialised (s.loc i).pc = true →
    ∀ k, s.shared.sched.wakes.bm_inactive_vcpus.getLsbD k = decide (1 ≤ k ∧ k < p)

namespace Inv
variable {b : Image} {small : p < 64} {s s' : State p} {i : Fin p}

theorem start (first : (system b p).init s) : Inv b small s := by
  obtain ⟨mutex,ones,none,fresh⟩ := first
  refine ⟨.start ⟨mutex,fun i => (fresh i).2⟩,fun i => .inl (fresh i).1,?_,?_,?_,?_,?_⟩
  · intro i is
    rw [(fresh i).1] at is
    cases is
  · intro i _
    rw [ones,(fresh i).1]
    have all : (-1 : Word) = BitVec.allOnes 64 := rfl
    rw [all,BitVec.getLsbD_allOnes]
    simp [cleared]
    omega
  · intro i j is
    rw [(fresh i).1] at is
    cases is
  · exact fun some => absurd none some
  · intro i is
    rw [(fresh i).1] at is
    cases is

/-- What a step of one vCPU has to keep. -/
theorem next (inv : Inv b small s) (others : ∀ j, j ≠ i → s'.loc j = s.loc j)
    (boot : InitBoot.Inv (vcpus b small.le) (bootState s'))
    (returned : (s'.loc i).pc = .init_boot ∨ (s'.loc i).boot.pc = .done)
    (leader : leads (s'.loc i).pc = true → i.val = 0)
    (bit : ∀ j : Fin p, j.val ≠ 0 → s'.shared.barrier_bm.getLsbD j.val = !cleared (s'.loc j).pc)
    (clear : cleared (s.loc i).pc = true → cleared (s'.loc i).pc = true)
    (ended : past (s'.loc i).pc = true → past (s.loc i).pc = true ∨ ∀ j : Fin p, j.val ≠ 0 → cleared (s'.loc j).pc = true)
    (sent : (s'.loc i).pc = .scheduler_init_post ∨ s'.shared.port_msg = s.shared.port_msg ∧
      (s.loc i).pc ≠ .scheduler_init_post)
    (sched : s'.shared.sched = s.shared.sched ∨ i.val = 0)
    (idle : initialised (s'.loc i).pc = true →
      ∀ k, s'.shared.sched.wakes.bm_inactive_vcpus.getLsbD k = decide (1 ≤ k ∧ k < p)) : Inv b small s' := by
  have kept : ∀ j, cleared (s.loc j).pc = true → cleared (s'.loc j).pc = true := by
    intro j is
    by_cases mine : j = i
    · subst mine
      exact clear is
    · rw [others j mine]
      exact is
  refine ⟨boot,?_,?_,bit,?_,?_,?_⟩
  · exact forall_of_others (P := fun _ l => l.pc = .init_boot ∨ l.boot.pc = .done) others returned fun j _ => inv.returned j
  · exact forall_of_others (P := fun j l => leads l.pc = true → j.val = 0) others leader fun j _ => inv.leader j
  · intro j k is other
    by_cases mine : j = i
    · subst mine
      rcases ended is with was | all
      · exact kept k (inv.ended j k was other)
      · exact all k other
    · rw [others j mine] at is
      exact kept k (inv.ended j k is other)
  · intro some
    rcases sent with post | ⟨messages,notPost⟩
    · exact ⟨i,post⟩
    · rw [messages] at some
      obtain ⟨j,is⟩ := inv.sent some
      have mine : j ≠ i := by
        rintro rfl
        exact notPost is
      exact ⟨j,by rw [others j mine,is]⟩
  · intro j is
    by_cases mine : j = i
    · subst mine
      exact idle is
    · rw [others j mine] at is
      rcases sched with same | zero
      · rw [same]
        exact inv.idle j is
      · -- Only vCPU 0 gets there.
        have leads : leads (s.loc j).pc = true := by
          cases pc : (s.loc j).pc <;> rw [pc] at is <;> first | rfl | cases is
        exact absurd (Fin.ext ((inv.leader j leads).trans zero.symm)) mine

/-- A step that leaves the barrier, the messages and the scheduler as they are. -/
theorem still (inv : Inv b small s) (others : ∀ j, j ≠ i → s'.loc j = s.loc j)
    (boot : InitBoot.Inv (vcpus b small.le) (bootState s'))
    (returned : (s'.loc i).pc = .init_boot ∨ (s'.loc i).boot.pc = .done)
    (leader : leads (s'.loc i).pc = true → i.val = 0) (word : s'.shared.barrier_bm = s.shared.barrier_bm)
    (clear : cleared (s'.loc i).pc = cleared (s.loc i).pc) (ended : past (s'.loc i).pc = false)
    (messages : s'.shared.port_msg = s.shared.port_msg) (sched : s'.shared.sched = s.shared.sched)
    (before : (s.loc i).pc ≠ .scheduler_init_post) : Inv b small s' := by
  refine inv.next others boot returned leader ?_ (fun is => clear.trans is) (fun is => ?_)
    (.inr ⟨messages,before⟩) (.inl sched)
    fun is => ?_
  · intro j other
    rw [word,inv.bit j other]
    by_cases mine : j = i
    · rw [mine,clear]
    · rw [others j mine]
  · rw [ended] at is
    cases is
  · have past : past (s'.loc i).pc = true := by
      cases pc : (s'.loc i).pc <;> rw [pc] at is <;> first | rfl | cases is
    rw [ended] at past
    cases past

theorem step {a : Fin p × Bool} (inv : Inv b small s) (moved : (system b p).step s a = some s') : Inv b small s' := by
  obtain ⟨i,x⟩ := a
  obtain ⟨m',l',ran,shared',after,others⟩ := threads_moved moved
  have boots : (fun j => (s'.loc j).boot) = Function.update (fun j => (s.loc j).boot) i l'.boot := by
    funext j
    by_cases mine : j = i
    · subst mine
      rw [after,Function.update_self]
    · rw [others j mine,Function.update_of_ne mine]
  -- Outside `init_boot` nothing of it changes.
  have boot : m'.boot = s.shared.boot → l'.boot = (s.loc i).boot → InitBoot.Inv (vcpus b small.le) (bootState s') := by
    intro machine mine
    have same : bootState s' = bootState s := by
      simp only [bootState,boots,shared',machine,mine]
      rw [Function.update_eq_self i fun j => (s.loc j).boot]
    rw [same]
    exact inv.boot
  have going : (s.loc i).pc ≠ .scheduler_init_post := by
    intro is
    simp only [main,is] at ran
    cases ran
  have leader := inv.leader i
  have returned := inv.returned i
  have bit := inv.bit
  have apart : i.val = 0 → ∀ j : Fin p, j.val ≠ 0 → j ≠ i := by
    rintro zero j other rfl
    exact other zero
  have kept : i.val = 0 → s'.shared.barrier_bm = s.shared.barrier_bm →
      ∀ j : Fin p, j.val ≠ 0 → s'.shared.barrier_bm.getLsbD j.val = !cleared (s'.loc j).pc := by
    intro zero word j other
    rw [word,others j (apart zero j other)]
    exact bit j other
  generalize before : s.loc i = l at ran leader returned boot
  obtain ⟨pc,l0⟩ := l
  have stays : pc ≠ .init_boot → l'.boot = l0 → (s'.loc i).pc = .init_boot ∨ (s'.loc i).boot.pc = .done := by
    intro out same
    rw [after,same]
    exact .inr (returned.resolve_left out)
  cases pc with
  | init_boot =>
    simp only [main] at ran
    split at ran
    · rename_i returned
      cases ran
      refine inv.still others (boot rfl rfl) (.inr (by rw [after]; exact returned)) ?_ (by rw [shared']) ?_ ?_
        (by rw [shared'])
        (by rw [shared']) going
      · rw [after]
        by_cases zero : i.val = 0
        · exact fun _ => zero
        · simp [zero,leads]
      · rw [after,before]
        by_cases zero : i.val = 0 <;> simp [zero,cleared]
      · rw [after]
        by_cases zero : i.val = 0 <;> simp [zero,past]
    · obtain ⟨⟨mb,lb⟩,booted,same⟩ := Option.map_eq_some_iff.mp ran
      cases same
      refine inv.still others ?_ (.inl (by rw [after])) (by rw [after]; intro is; cases is) (by rw [shared'])
        (by rw [after,before])
        (by rw [after]; rfl) (by rw [shared']) (by rw [shared']) going
      have stepped : (vcpus b small.le).system.step (bootState s) (i,()) = some (bootState s') := by
        simp only [bootState,boots,shared']
        simp [Vcpus.system,threads,vcpus,before,booted]
      exact inv.boot.step stepped
  | andPool =>
    cases ran
    have zero : i.val = 0 := leader rfl
    refine inv.next others (boot rfl rfl) (stays (by simp) rfl) (by rw [after]; intro is; cases is) ?_
      (by rw [before]; intro is; cases is) (by rw [after]; intro is; cases is) (.inr ⟨by rw [shared'],going⟩)
      (.inl (by rw [shared'])) (by rw [after]; intro is; cases is)
    intro j other
    have inside : (((1 : Word) <<< (p % 64)) - 1).getLsbD j.val = true :=
      (getLsbD_pool (by omega)).trans (decide_eq_true j.isLt)
    rw [shared',others j (apart zero j other),← bit j other]
    exact (BitVec.getLsbD_and ..).trans (by rw [inside,Bool.and_true])
  | btr =>
    cases ran
    have neither : past (s'.loc i).pc = false := by
      rw [after]
      by_cases zero : i.val = 0 <;> simp [zero,past]
    refine inv.next others (boot rfl rfl) (stays (by simp) rfl) ?_ ?_ (by rw [before]; intro is; cases is)
      (fun is => by rw [neither] at is; cases is) (.inr ⟨by rw [shared'],going⟩) (.inl (by rw [shared'])) ?_
    · rw [after]
      by_cases zero : i.val = 0
      · exact fun _ => zero
      · simp [zero,leads]
    · intro j other
      rw [shared',getLsbD_btr,bit j other]
      by_cases mine : j = i
      · subst mine
        rw [after]
        simp [other,cleared]
      · have apart' : i.val ≠ j.val := fun same => mine (Fin.ext same.symm)
        simp [others j mine,apart']
    · rw [after]
      by_cases zero : i.val = 0 <;> simp [zero,initialised]
  | test =>
    cases ran
    have zero : i.val = 0 := leader rfl
    by_cases empty : s.shared.barrier_bm = 0
    · rw [if_neg (not_not.mpr empty)] at after
      refine inv.next others (boot rfl rfl) (stays (by simp) rfl) (fun _ => zero) (kept zero (by rw [shared']))
        (by rw [before]; intro is; cases is) (fun _ => .inr ?_) (.inr ⟨by rw [shared'],going⟩) (.inl (by rw [shared']))
        (by rw [after]; intro is; cases is)
      -- Every bit is zero, so every other vCPU has cleared its own.
      intro j other
      have clear := bit j other
      rw [empty] at clear
      rw [others j (apart zero j other)]
      simpa using clear
    · rw [if_pos empty] at after
      exact inv.still others (boot rfl rfl) (stays (by simp) rfl) (fun _ => zero) (by rw [shared'])
        (by rw [after,before]; rfl) (by rw [after]; rfl) (by rw [shared']) (by rw [shared']) going
  | bsf =>
    cases ran
    exact inv.still others (boot rfl rfl) (stays (by simp) rfl) (by rw [after]; exact fun _ => leader rfl) (by rw [shared'])
      (by rw [after,before]; rfl) (by rw [after]; rfl) (by rw [shared']) (by rw [shared']) going
  | vmmcall preempted_cpu =>
    cases ran
    exact inv.still others (boot rfl rfl) (stays (by simp) rfl) (by rw [after]; exact fun _ => leader rfl) (by rw [shared'])
      (by rw [after,before]; rfl) (by rw [after]; rfl) (by rw [shared']) (by rw [shared']) going
  | scheduler_init_pre =>
    cases ran
    exact inv.next others (boot rfl rfl) (stays (by simp) rfl) (by rw [after]; exact fun _ => leader rfl)
      (kept (leader rfl) (by rw [shared'])) (by rw [before]; intro is; cases is) (fun _ => .inl (by rw [before]; rfl))
      (.inr ⟨by rw [shared'],going⟩) (.inr (leader rfl)) (fun _ k => by rw [shared']; exact idle_init_pre small _ k)
  | outw =>
    cases ran
    refine inv.next others (boot rfl rfl) (stays (by simp) rfl) (by rw [after]; exact fun _ => leader rfl)
      (kept (leader rfl) (by rw [shared'])) (by rw [before]; intro is; cases is) (fun _ => .inl (by rw [before]; rfl))
      (.inl (by rw [after])) (.inl (by rw [shared'])) ?_
    intro _ k
    rw [shared']
    exact inv.idle i (by rw [before]; rfl) k
  | scheduler_init_post => cases ran
  | hlt =>
    simp only [main] at ran
    split at ran
    · cases ran
      exact inv.still others (boot rfl rfl) (stays (by simp) rfl) (by rw [after]; intro is; cases is) (by rw [shared'])
        (by rw [after,before]; rfl) (by rw [after]; rfl) (by rw [shared']) (by rw [shared']) going
    · cases ran
  | wake_up_event => cases ran

/-- A vCPU that has cleared its bit has completed `init_boot`. -/
theorem completed (inv : Inv b small s) (is : cleared (s.loc i).pc = true) : Completed b i.val (s.loc i) := by
  rcases inv.returned i with pc | done
  · rw [pc] at is
    cases is
  · have relies : Local b i.val s.shared.boot.mem (s.loc i).boot := inv.boot.each i
    rw [Local,done] at relies
    exact ⟨done,relies.1,relies.2.1,relies.2.2⟩

theorem ok (inv : Inv b small s) : BootOk b s := by
  have all : ∀ i j, past (s.loc i).pc = true → j.val ≠ 0 →
      Completed b j.val (s.loc j) ∧ s.shared.barrier_bm.getLsbD j.val = false := by
    intro i j is other
    have clear := inv.ended i j is other
    exact ⟨inv.completed clear,by rw [inv.bit j other,clear]; rfl⟩
  refine ⟨?_,?_,inv.idle⟩
  · intro i j other is
    have leads : leads (s.loc i).pc = true := by
      cases pc : (s.loc i).pc <;> rw [pc] at is <;> first | rfl | cases is
    refine all i j is fun zero => ?_
    exact other (Fin.ext ((inv.leader i leads).trans zero.symm))
  · intro j some other
    obtain ⟨i,post⟩ := inv.sent some
    exact all i j (by rw [post]; rfl) other

end Inv

/-! ### The full pool -/

/-- What vCPU 0 does in `init_boot` alone, it does in `main` alone. -/
theorem boot_lift {b : Image} {pool_sz id : Nat} (m : Machine) {x y : InitBoot.Machine × InitBoot.Vcpu}
    (ran : Alone b id x y) :
    Relation.ReflTransGen (fun x y => ∃ wakes, main b pool_sz id wakes x.1 x.2 = some y)
      ({ m with boot := x.1 },⟨.init_boot,x.2⟩) ({ m with boot := y.1 },⟨.init_boot,y.2⟩) := by
  refine ran.lift (fun x => ({ m with boot := x.1 },(⟨.init_boot,x.2⟩ : Vcpu))) fun x y moved => ?_
  obtain ⟨-,moved⟩ := moved
  refine ⟨false,?_⟩
  have more : x.2.pc ≠ .done := by
    intro done
    rw [InitBoot.init_boot,done] at moved
    cases moved
  simp only [main,moved]
  rfl

/-- In a pool of 64 vCPU 0 can pass its loop before another vCPU has begun to boot. -/
theorem early (b : Image) : ∃ s, Reachable (system b 64) s ∧ ¬ BootOk b s := by
  let fresh : InitBoot.Vcpu := ⟨.start,0,none,fun _ => 0,false⟩
  let m : Machine := ⟨⟨fun _ => 0,0⟩,-1,(Sched.boot 64 Graph.single).shared,[]⟩
  have reach : Reachable (system b 64) ⟨m,fun _ => ⟨.init_boot,fresh⟩⟩ := .init ⟨rfl,rfl,rfl,fun _ => ⟨rfl,rfl⟩⟩
  obtain ⟨l',done,boots⟩ := boot_alone b 0 (fun _ => 0) (l := fresh) rfl
  let m' : Machine := { m with boot := ⟨booted b 0 fun _ => 0,0⟩ }
  let m'' : Machine := { m' with barrier_bm := 0 }
  have leave : main b 64 0 false m' ⟨.init_boot,l'⟩ = some (m',⟨.andPool,l'⟩) := by
    simp only [main,done]
    rfl
  -- The mask of the pool is `(1 << 0) - 1`.
  have zero : (-1 : Word) &&& (((1 : Word) <<< (64 % 64)) - 1) = 0 ∧ Bits.btr (0 : Word) 0 = 0 := by decide
  have mask : main b 64 0 false m' ⟨.andPool,l'⟩ = some (m'',⟨.btr,l'⟩) := by
    simp only [main,m',m'',m,zero.1]
  have clear : main b 64 0 false m'' ⟨.btr,l'⟩ = some (m'',⟨.test,l'⟩) := by
    simp only [main,m'',zero.2]
    rfl
  have pass : main b 64 0 false m'' ⟨.test,l'⟩ = some (m'',⟨.scheduler_init_pre,l'⟩) := by
    simp [main,m'']
  have loops : Relation.ReflTransGen (fun x y => ∃ wakes, main b 64 0 wakes x.1 x.2 = some y)
      (m',⟨.init_boot,l'⟩) (m'',⟨.scheduler_init_pre,l'⟩) :=
    .head ⟨false,leave⟩ (.head ⟨false,mask⟩ (.head ⟨false,clear⟩ (.single ⟨false,pass⟩)))
  have alone := reach.alone (i := 0) ((boot_lift m boots).trans loops)
  refine ⟨_,alone,fun ok => ?_⟩
  have completed := (ok.past 0 1 (by decide) rfl).1.returned
  cases completed

/-- For every pool of 1 to 64 vCPUs: the boot barrier and the initial idle set are what
    they should be exactly if the pool is smaller than 64. -/
theorem boot_barrier_iff (b : Image) {p : Nat} (some : 1 ≤ p) (most : p ≤ MAX_CPUS) :
    (∀ s, Reachable (system b p) s → BootOk b s) ↔ p < MAX_CPUS := by
  constructor
  · intro all
    by_contra full
    obtain rfl : p = 64 := Nat.le_antisymm most (Nat.le_of_not_lt full)
    obtain ⟨s,reach,broken⟩ := early b
    exact broken (all s reach)
  · intro small s reach
    have inv : Inv b small s := reach.invariant (fun _ first => .start first) fun _ _ _ _ inv _ moved => inv.step moved
    exact inv.ok

/-- A pool of three boots as it should. -/
theorem boot_barrier_three : (∀ s, Reachable (system pair.toImage 3) s → BootOk pair.toImage s) ↔ 3 < MAX_CPUS :=
  boot_barrier_iff pair.toImage (by decide) (by decide)

theorem boot_barrier_full : ¬ ∀ s, Reachable (system pair.toImage 64) s → BootOk pair.toImage s := by
  intro all
  obtain ⟨s,reach,broken⟩ := early pair.toImage
  exact broken (all s reach)

end Bootcode.BootBarrier
