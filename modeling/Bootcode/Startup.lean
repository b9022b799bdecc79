import Bootcode.SchedSteps

/-!
The pool from the image on. vCPU 0 initialises the scheduler store by store, while
any other vCPU may leave its boot `hlt` already and run `sched` on what is there.
`pool` is what is left when nobody does.
-/
namespace Bootcode.Startup
open Bootcode.Bits Bootcode.SchedState Bootcode.Interleave Bootcode.Sched Bootcode.SchedSteps

/-- vCPU 0 in `main`, before each access of `scheduler_init_pre`, the message, and each
    access of `scheduler_init_post`; `t` is the time stamp that it has read. -/
inductive InitPc
  | stKicked
  | stInactive
  | btrInactive
  | stSig
  | stFree
  | stPool
  | stTs
  | stN
  | stTot
  | stInp
  | outw
  | tsc
  | ldNodes (t : Word)
  | stFin (t : Word) (num_nodes : Nat)
  | stHlt (t : Word) (i : Nat)
  | stStart
  | sched
  deriving DecidableEq

/-- `scheduler_init_pre(pool_sz)`, `outw(PORT_MSG, MSG_BOOTED)` and
    `scheduler_init_post(pool_sz)`; x86 takes the shift count modulo 64. -/
def scheduler_init (pool_sz : Nat) (tsc : Word) (s : Shared) : InitPc → Option (Shared × InitPc)
  | .stKicked => some ({ s with wakes := { s.wakes with bm_kicked_vcpus := 0 } },.stInactive)
  | .stInactive => some ({ s with wakes := { s.wakes with bm_inactive_vcpus := (1 <<< (pool_sz % 64)) - 1 } },.btrInactive)
  | .btrInactive => some ({ s with wakes := btrInactive 0 s.wakes },.stSig)
  | .stSig => some ({ s with wakes := { s.wakes with sig_wake_num_vcpu_is_0 := 1 } },.stFree)
  | .stFree => some ({ s with wakes := { s.wakes with num_free_vcpu := 1 } },.stPool)
  | .stPool => some ({ s with wakes := { s.wakes with vcpu_pool_sz := pool_sz } },.stTs)
  | .stTs => some ({ s with book := { s.book with dag_ts := 0 } },.stN)
  | .stN => some ({ s with book := { s.book with dag_n := 0 } },.stTot)
  | .stTot => some ({ s with book := { s.book with dag_tot_tsc_time := 0 } },.stInp)
  | .stInp => some ({ s with book := { s.book with dag_tot_proc_inp := 0 } },.outw)
  | .outw => some (s,.tsc)
  | .tsc => some ({ s with clock := tsc },.ldNodes tsc)
  | .ldNodes t => some (s,.stFin t s.tasks.metadata.num_nodes)
  | .stFin t num_nodes =>
    some ({ s with tasks := { s.tasks with num_fin_fn := BitVec.ofNat 64 num_nodes } },
      if 1 < pool_sz then .stHlt t 1 else .stStart)
  | .stHlt t i =>
    some ({ s with wakes := { s.wakes with hlt_ts := Function.update s.wakes.hlt_ts i t } },
      if i + 1 < pool_sz then .stHlt t (i + 1) else .stStart)
  | .stStart => some ({ s with book := { s.book with dag_start_tsc := 0 } },.sched)
  | .sched => none

structure Machine (p : Nat) where
  init : InitPc
  config : Config (Fin p) Shared Vcpu

/-- One step of vCPU `a.1`, which is in `main` while it is vCPU 0 and initialises. -/
def step {p : Nat} (host : Metadata → Prop) (m : Machine p) (a : Fin p × Input) : Option (Machine p) :=
  match if a.1.val = 0 then scheduler_init p a.2.tsc m.config.shared m.init else none with
  | some (sh,k) => some ⟨k,{ m.config with shared := sh }⟩
  | none => ((pool p host).step m.config a).map (Machine.mk m.init)

/-- A pool of `p` vCPUs that boots with metadata of `host`. -/
def startup (p : Nat) (host : Metadata → Prop) : System (Machine p) (Fin p × Input) where
  init m := ∃ metadata dag_in_count book, host metadata ∧
    m = ⟨.stKicked,⟨image metadata dag_in_count book,fun i => bootVcpu i.val⟩⟩
  step := step host

section
variable {p : Nat} {host : Metadata → Prop}

/-- A step is one of the initialisation or one of the pool. -/
theorem startup_cases {m m' : Machine p} {a : Fin p × Input} (moved : (startup p host).step m a = some m') :
    (a.1.val = 0 ∧ ∃ sh, scheduler_init p a.2.tsc m.config.shared m.init = some (sh,m'.init) ∧
      m'.config = { m.config with shared := sh }) ∨
    (a.1.val = 0 → m.init = .sched) ∧ m'.init = m.init ∧ (pool p host).step m.config a = some m'.config := by
  simp only [startup,step] at moved
  split at moved
  · rename_i sh k inits
    cases moved
    split at inits
    · rename_i zero
      exact .inl ⟨zero,sh,inits,rfl⟩
    · cases inits
  · rename_i none_
    obtain ⟨s,ran,rfl⟩ := Option.map_eq_some_iff.mp moved
    refine .inr ⟨fun zero => ?_,rfl,ran⟩
    rw [if_pos zero] at none_
    generalize m.init = k at none_
    cases k <;> first | rfl | cases none_

def InitPc.readsTsc : InitPc → Bool
  | .tsc => true
  | _ => false
/-- The vCPU reads the time stamp counter next. -/
def reads (m : Machine p) (i : Fin p) : Bool :=
  if i.val = 0 ∧ m.init ≠ .sched then m.init.readsTsc else (m.config.loc i).pc.readsTsc
/-- Every time stamp is larger than the one read before it. -/
def Ticks (m : Machine p) (a : Fin p × Input) : Prop := reads m a.1 = true → m.config.shared.clock.toNat < a.2.tsc.toNat
instance (m : Machine p) (a : Fin p × Input) : Decidable (Ticks m a) := inferInstanceAs (Decidable (_ → _))

/-- The same in a pool. -/
def Ticking (s : Config (Fin p) Shared Vcpu) (a : Fin p × Input) : Prop :=
  (s.loc a.1).pc.readsTsc = true → s.shared.clock.toNat < a.2.tsc.toNat
instance (s : Config (Fin p) Shared Vcpu) (a : Fin p × Input) :
    Decidable (Ticking s a) := inferInstanceAs (Decidable (_ → _))

theorem clock_le {s s' : Config (Fin p) Shared Vcpu} {a : Fin p × Input} (ticks : Ticking s a)
    (moved : (pool p host).step s a = some s') : s.shared.clock.toNat ≤ s'.shared.clock.toNat := by
  obtain ⟨sh,-,shared,-⟩ := pool_frame moved
  rw [shared]
  simp only
  split
  · rename_i reads
    exact (ticks reads).le
  · exact Nat.le_refl _

theorem Ticks.pool {m : Machine p} {a : Fin p × Input} (ticks : Ticks m a) (up : a.1.val = 0 → m.init = .sched) :
    Ticking m.config a := by
  intro is
  apply ticks
  rwa [reads,if_neg fun initialises => initialises.2 (up initialises.1)]

theorem Ticks.init {m : Machine p} {a : Fin p × Input} (ticks : Ticks m a) (zero : a.1.val = 0)
    (is : m.init.readsTsc = true) : m.config.shared.clock.toNat < a.2.tsc.toNat := by
  have down : m.init ≠ .sched := by
    intro up
    rw [up] at is
    cases is
  exact ticks ((if_pos ⟨zero,down⟩).trans is)

/-- The store `hlt_ts[c] = t` is over. -/
def stamped : InitPc → Nat → Prop
  | .stHlt _ i, c => c < i
  | .stStart, _ | .sched, _ => True
  | _, _ => False
/-- The time stamp that vCPU 0 stores. -/
def inHand : InitPc → Option Word
  | .ldNodes t | .stFin t _ | .stHlt t _ => some t
  | _ => none

/-- A step of the initialisation stores one stamp, or none. -/
theorem init_wakes {tsc : Word} {sh sh' : Shared} {k k' : InitPc} (ran : scheduler_init p tsc sh k = some (sh',k')) :
    (∃ t i, k = .stHlt t i ∧ sh' = { sh with wakes := { sh.wakes with hlt_ts := Function.update sh.wakes.hlt_ts i t } } ∧
        k' = if i + 1 < p then .stHlt t (i + 1) else .stStart) ∨
      (∀ t i, k ≠ .stHlt t i) ∧ sh'.wakes.hlt_ts = sh.wakes.hlt_ts ∧ ∀ c, 1 ≤ c → c < p → (stamped k' c ↔ stamped k c) := by
  cases k with
  | stHlt t i => cases ran; exact .inl ⟨t,i,rfl,rfl,rfl⟩
  | stFin t num_nodes =>
    cases ran
    refine .inr ⟨by simp,rfl,fun c low high => ?_⟩
    split
    · simp [stamped]
      omega
    · omega
  | stStart => cases ran; exact .inr ⟨by simp,rfl,fun _ _ _ => Iff.rfl⟩
  | sched => cases ran
  | _ => cases ran; exact .inr ⟨by simp,rfl,fun _ _ _ => Iff.rfl⟩

theorem init_inside {tsc : Word} {sh sh' : Shared} {k k' : InitPc}
    (ran : scheduler_init p tsc sh k = some (sh',k')) {t : Word} {i : Nat} (next : k' = .stHlt t i) : i < p := by
  cases k with
  | stFin u num_nodes | stHlt u j =>
    cases ran
    split at next
    · cases next
      assumption
    · cases next
  | _ => cases ran <;> cases next

/-- `bm_inactive_vcpus` has been initialised. -/
def marked : InitPc → Prop
  | .stKicked | .stInactive => False
  | _ => True

/-- The initialisation kicks nobody. -/
structure Frame (sh sh' : Shared) : Prop where
  kick_ts : sh'.wakes.kick_ts = sh.wakes.kick_ts
  token : sh'.wakes.token = sh.wakes.token
  listed : sh'.wakes.ss_reflective_bm1 = sh.wakes.ss_reflective_bm1
  posted : sh'.wakes.ss_reflective_bm = sh.wakes.ss_reflective_bm
  log : sh'.log = sh.log
  kicked : ∀ c, sh'.wakes.bm_kicked_vcpus.getLsbD c = true → sh.wakes.bm_kicked_vcpus.getLsbD c = true

/-- What a step of the initialisation keeps. -/
theorem init_frame {tsc : Word} {sh sh' : Shared} {k k' : InitPc} (ran : scheduler_init p tsc sh k = some (sh',k')) :
    Frame sh sh' ∧ sh'.clock = (if k.readsTsc then tsc else sh.clock) ∧
      (∀ t, inHand k' = some t → inHand k = some t ∨ k.readsTsc = true ∧ t = tsc) ∧
      (marked k' → marked k ∧ (∀ c, c ≠ 0 → sh'.wakes.bm_inactive_vcpus.getLsbD c = sh.wakes.bm_inactive_vcpus.getLsbD c) ∨
        sh'.wakes.bm_inactive_vcpus = (1 <<< (p % 64)) - 1) := by
  cases k with
  | stKicked => cases ran; exact ⟨⟨rfl,rfl,rfl,rfl,rfl,by simp⟩,rfl,nofun,nofun⟩
  | stInactive => cases ran; exact ⟨⟨rfl,rfl,rfl,rfl,rfl,fun _ set => set⟩,rfl,nofun,fun _ => .inr rfl⟩
  | btrInactive =>
    cases ran
    exact ⟨⟨rfl,rfl,rfl,rfl,rfl,fun _ set => set⟩,rfl,nofun,
      fun _ => .inl ⟨trivial,fun c other => by simp [btrInactive,Ne.symm other]⟩⟩
  | tsc =>
    cases ran; exact ⟨⟨rfl,rfl,rfl,rfl,rfl,fun _ set => set⟩,rfl,fun t is => .inr ⟨rfl,(Option.some.inj is).symm⟩,
      fun _ => .inl ⟨trivial,fun _ _ => rfl⟩⟩
  | stFin t num_nodes | stHlt t i =>
    cases ran
    refine ⟨⟨rfl,rfl,rfl,rfl,rfl,fun _ set => set⟩,rfl,fun t' is => .inl ?_,fun _ => .inl ⟨trivial,fun _ _ => rfl⟩⟩
    split at is
    · exact is
    · cases is
  | sched => cases ran
  | ldNodes t =>
    cases ran; exact ⟨⟨rfl,rfl,rfl,rfl,rfl,fun _ set => set⟩,rfl,fun _ is => .inl is,fun _ => .inl ⟨trivial,fun _ _ => rfl⟩⟩
  | _ => cases ran; exact ⟨⟨rfl,rfl,rfl,rfl,rfl,fun _ set => set⟩,rfl,nofun,fun _ => .inl ⟨trivial,fun _ _ => rfl⟩⟩

theorem init_clock_le {m : Machine p} {a : Fin p × Input} {sh : Shared} {k : InitPc} (ticks : Ticks m a)
    (zero : a.1.val = 0) (ran : scheduler_init p a.2.tsc m.config.shared m.init = some (sh,k)) :
    m.config.shared.clock.toNat ≤ sh.clock.toNat := by
  obtain ⟨-,clock,-,-⟩ := init_frame ran
  rw [clock]
  split
  · rename_i is
    exact (ticks.init zero is).le
  · exact Nat.le_refl _

/-- vCPU 0 has read its stamp. -/
theorem hand_reach {good : Machine p → Fin p × Input → Prop} (sub : ∀ m a, good m a → Ticks m a) {m : Machine p}
    (reach : Reach (startup p host) good m) : ∀ t, inHand m.init = some t → t.toNat ≤ m.config.shared.clock.toNat := by
  apply reach.invariant
  · rintro m ⟨d,dag_in_count,book,-,rfl⟩ t is
    cases is
  · intro m a m' _ known ok moved t is
    rcases startup_cases moved with ⟨zero,sh,ran,config⟩ | ⟨up,init,ran⟩
    · obtain ⟨-,clock,hand,-⟩ := init_frame ran
      rw [config,clock]
      rcases hand t is with old | ⟨now,rfl⟩
      · have still : m.init.readsTsc = false := by
          cases pc : m.init <;> first | rfl | (rw [pc] at old; cases old)
        rw [still]
        exact known t old
      · rw [if_pos now]
    · rw [init] at is
      exact (known t is).trans (clock_le ((sub m a ok).pool up) ran)

/-! ### The pool as vCPU 0 enters `sched` -/

/-- vCPU 0 takes a step of the initialisation. -/
def Leads (m : Machine p) (a : Fin p × Input) : Prop := a.1.val = 0 ∧ m.init ≠ .sched

theorem init_step {k k' : InitPc} {sh sh' : Shared} {loc : Fin p → Vcpu} (reach : Reach (startup p host) Leads ⟨k,⟨sh,loc⟩⟩)
    (pos : 0 < p) (tsc : Word) (ran : scheduler_init p tsc sh k = some (sh',k')) :
    Reach (startup p host) Leads ⟨k',⟨sh',loc⟩⟩ := by
  have leads : Leads ⟨k,⟨sh,loc⟩⟩ (⟨0,pos⟩,{ tsc := tsc }) := by
    refine ⟨rfl,fun up => ?_⟩
    rw [show k = .sched from up] at ran
    cases ran
  exact .step reach leads (by simp [startup,step,ran])

/-- The stamps from `i` on. -/
theorem stamps_reach {t : Word} {i : Nat} {sh : Shared} {loc : Fin p → Vcpu} (pos : 0 < p) (low : 1 ≤ i)
    (reach : Reach (startup p host) Leads ⟨if i < p then .stHlt t i else .stStart,⟨sh,loc⟩⟩) :
    Reach (startup p host) Leads ⟨.stStart,⟨{ sh with wakes := { sh.wakes with
      hlt_ts := fun j => if i ≤ j ∧ j < p then t else sh.wakes.hlt_ts j } },loc⟩⟩ := by
  by_cases more : i < p
  · rw [if_pos more] at reach
    have rest := stamps_reach (i := i + 1) pos (by omega) (init_step reach pos 0 rfl)
    have same : (fun j => if i + 1 ≤ j ∧ j < p then t else Function.update sh.wakes.hlt_ts i t j) =
        fun j => if i ≤ j ∧ j < p then t else sh.wakes.hlt_ts j := by
      funext j
      by_cases here : j = i
      · subst here
        simp [more]
      · have iff_ : i + 1 ≤ j ∧ j < p ↔ i ≤ j ∧ j < p := by omega
        simp only [Function.update_of_ne here,iff_]
    exact same ▸ rest
  · rw [if_neg more] at reach
    have none_ : (fun j => if i ≤ j ∧ j < p then t else sh.wakes.hlt_ts j) = sh.wakes.hlt_ts := by
      funext j
      exact if_neg (by omega)
    rw [none_]
    exact reach
termination_by p - i

/-- While vCPU 0 alone moves, the stores add up to `scheduler_init_pre` and
    `scheduler_init_post`. -/
theorem start_reach (pos : 0 < p) {d : Metadata} (given : host d) (dag_in_count : Nat → BitVec 8) (book : Book) (t : Word) :
    Reach (startup p host) Leads ⟨.sched,start p d dag_in_count book t⟩ := by
  have image : Reach (startup p host) Leads ⟨.stKicked,⟨image d dag_in_count book,fun i => bootVcpu i.val⟩⟩ :=
    .init ⟨d,dag_in_count,book,given,rfl⟩
  have pre := init_step (init_step (init_step (init_step (init_step (init_step image pos 0 rfl) pos 0 rfl) pos 0 rfl) pos 0 rfl)
    pos 0 rfl) pos 0 rfl
  have out := init_step (init_step (init_step (init_step (init_step pre pos 0 rfl) pos 0 rfl) pos 0 rfl) pos 0 rfl) pos 0 rfl
  have counted := init_step (init_step (init_step out pos t rfl) pos 0 rfl) pos 0 rfl
  exact init_step (stamps_reach pos (by omega) counted) pos 0 rfl

/-- Every run of the pool goes on from there. -/
theorem pool_reach (pos : 0 < p) {good : Config (Fin p) Shared Vcpu → Fin p × Input → Prop} {s : Config (Fin p) Shared Vcpu}
    (reach : Reach (pool p host) good s) :
    Reach (startup p host) (fun m a => Leads m a ∨ m.init = .sched ∧ good m.config a) ⟨.sched,s⟩ := by
  induction reach with
  | init first =>
    obtain ⟨d,dag_in_count,book,t,given,rfl⟩ := first
    exact (start_reach pos given dag_in_count book t).mono fun _ _ leads => .inl leads
  | @step s s' a _ ok moved ih =>
    refine .step ih (.inr ⟨rfl,ok⟩) ?_
    have up : (if a.1.val = 0 then scheduler_init p a.2.tsc s.shared .sched else none) = none := by split <;> rfl
    simp [startup,step,up,moved]

end

/-- The image on a page that is zero outside `metadata`. -/
def imaged (p : Nat) (metadata : Metadata) : Machine p :=
  ⟨.stKicked,⟨image metadata (fun _ => 0) ⟨fun _ => 0,fun _ => 0,0,0,0,0,0,fun _ => 0⟩,fun i => bootVcpu i.val⟩⟩

theorem imaged_init {p : Nat} {host : Metadata → Prop} {metadata : Metadata} (supplied : host metadata) :
    (startup p host).init (imaged p metadata) :=
  ⟨metadata,_,_,supplied,rfl⟩

end Bootcode.Startup
