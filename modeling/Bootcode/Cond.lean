import Bootcode.Bits
import Bootcode.Tso

/-!
`cond_wait` and `cond_set` as programs of memory accesses, and the handshake
between one setter and one waiter: a waiter that read `c` before the store (it is
`stale`) is seen by every read that the setter makes afterwards, so that the
setter returns only when the waiter is at its `hlt` with a wake token.
-/
namespace Bootcode.Cond
open Bootcode.Bits Bootcode.Tso

abbrev Word := BitVec 64

/-- The fields of `cond_t`, and the word that `barrier` counts in. -/
inductive Cell
  | intent_cpus
  | waiting_cpus
  | c
  | barrier_word
  deriving DecidableEq

def RETRY_COUNT : Nat := 32

/-- Before each access of `cond_wait`. -/
inductive WaitPc
  | btsIntent
  | cmp (retry_count : Nat)
  | btsWaiting
  | hlt
  | btrWaiting
  | btrIntent
  deriving DecidableEq

/-- `cond_wait(c, v)` on vCPU `id`; it goes on with `none` when it returns. -/
def cond_wait (retries id : Nat) (v : Word) : WaitPc → Access Cell Word (Option WaitPc)
  | .btsIntent => .rmw .intent_cpus (bts · id) fun _ => some (.cmp retries)
  | .cmp retry_count =>
    .load .c fun c => some (if c = v then .btrIntent else if retry_count = 0 then .btsWaiting else .cmp (retry_count - 1))
  | .btsWaiting => .rmw .waiting_cpus (bts · id) fun _ => some .hlt
  | .hlt => .hlt (some .btrWaiting)
  | .btrWaiting => .rmw .waiting_cpus (btr · id) fun _ => some (.cmp 0)
  | .btrIntent => .rmw .intent_cpus (btr · id) fun _ => none

/-- What `cond_set` reads the pair `intent_cpus`, `waiting_cpus` for: the test of its
    loop, or `intent_waiting`. -/
inductive Use
  | test
  | mix
  deriving DecidableEq

/-- Before each access of `cond_set`. C leaves open which word of a pair is read
    first; `order` records that it was `intent_cpus`, and `x` what was read. -/
inductive SetPc
  | st
  | fence
  | first (use : Use)
  | second (use : Use) (order : Bool) (x : Word)
  | yield (preempted_cpu : Nat)
  | snap
  | kick (waiting_cpus : Word) (hlt_cpu : Nat)
  deriving DecidableEq

/-- The head of the loop over the local `waiting_cpus`. -/
def kickNext (waiting_cpus : Word) : Option SetPc := (bsf waiting_cpus).map (.kick waiting_cpus)

def afterPair (x y : Word) : Use → SetPc
  | .test => if x ≠ y then .first .mix else .snap
  | .mix => (bsf (x ^^^ y)).elim .fence .yield

/-- `cond_set(c, v)`; it goes on with `none` when it returns. -/
def cond_set (order : Bool) (v : Word) : SetPc → Access Cell Word (Option SetPc)
  | .st => .store .c v (some .fence)
  | .fence => .sfence (some (.first .test))
  | .first use => .load (if order then .intent_cpus else .waiting_cpus) fun x => some (.second use order x)
  | .second use order x =>
    .load (if order then .waiting_cpus else .intent_cpus) fun y => some (afterPair x y use)
  | .yield preempted_cpu => .yield preempted_cpu (some .fence)
  | .snap => .load .waiting_cpus kickNext
  | .kick waiting_cpus hlt_cpu => .kick hlt_cpu (kickNext (btr waiting_cpus hlt_cpu))

theorem cond_wait_plain (retries id : Nat) (v : Word) (k : WaitPc) : (cond_wait retries id v k).stores = false := by
  cases k <;> rfl
theorem cond_set_plain {order : Bool} {v : Word} {k : SetPc} (past : k ≠ .st) : (cond_set order v k).stores = false := by
  cases k <;> first | rfl | exact absurd rfl past

/-- The vCPU's bit of `intent_cpus` is set. -/
def inside : WaitPc → Bool
  | .btsIntent => false
  | _ => true
/-- The vCPU's bit of `waiting_cpus` is set. -/
def asleep : WaitPc → Bool
  | .hlt | .btrWaiting => true
  | _ => false
/-- The vCPU will halt without another look at `c`. -/
def stale : WaitPc → Bool
  | .btsWaiting | .hlt => true
  | _ => false

theorem inside_of_stale {k : WaitPc} (is : stale k = true) : inside k = true := by
  cases k <;> first | rfl | cases is
theorem asleep_of_stale {k : WaitPc} (is : stale k = true) : asleep k = decide (k = .hlt) := by
  cases k <;> first | rfl | cases is

/-- What one step of `cond_wait(c, v)` on vCPU `id` does. -/
structure Waits (id : Nat) (v : Word) (m : Machine Cell Word) (k : WaitPc) (m' : Machine Cell Word)
    (r : Option WaitPc) : Prop where
  intent : ∀ j, (m'.mem .intent_cpus).getLsbD j = if j = id then r.any inside else (m.mem .intent_cpus).getLsbD j
  waiting : ∀ j, (m'.mem .waiting_cpus).getLsbD j = if j = id then r.any asleep else (m.mem .waiting_cpus).getLsbD j
  c : m'.mem .c = m.mem .c
  barrier_word : m'.mem .barrier_word = m.mem .barrier_word
  token : ∀ j, j ≠ id → m'.token j = m.token j
  halts : m.mem .c = v → ∀ k', r = some k' → stale k' = true → k = .btsWaiting ∧ k' = .hlt ∧ m'.token = m.token
  leaves : r = some .btrIntent → m.mem .c = v
  returns : r = none → k = .btrIntent

theorem wait_step {retries id : Nat} {v : Word} {spurious : Bool} {m m' : Machine Cell Word} {k : WaitPc}
    {r : Option WaitPc} (small : id < 64) (intent : (m.mem .intent_cpus).getLsbD id = inside k)
    (waiting : (m.mem .waiting_cpus).getLsbD id = asleep k)
    (ran : (cond_wait retries id v k).sc id spurious m = some (m',r)) : Waits id v m k m' r := by
  have kept : ∀ {x : Word} {b : Bool}, x.getLsbD id = b → ∀ j, x.getLsbD j = if j = id then b else x.getLsbD j := by
    intro x b same j
    split
    · rename_i here
      rw [here,same]
    · rfl
  cases k with
  | btsIntent =>
    cases ran
    refine ⟨?_,kept waiting,rfl,rfl,fun _ _ => rfl,(fun _ k' next is => by cases next; cases is),nofun,nofun⟩
    intro j
    by_cases same : j = id
    · subst same
      simp [inside,small]
    · simp [same,Ne.symm same]
  | cmp retry_count =>
    have next : ∀ k', (k' = .btrIntent ∨ k' = .btsWaiting ∨ ∃ n, k' = .cmp n) → inside k' = true ∧ asleep k' = false := by
      rintro k' (rfl | rfl | ⟨n,rfl⟩) <;> exact ⟨rfl,rfl⟩
    cases ran
    by_cases same : m.mem .c = v
    · simp only [if_pos same]
      refine ⟨kept intent,kept waiting,rfl,rfl,fun _ _ => rfl,(fun _ k' next is => by cases next; cases is),
        fun _ => same,nofun⟩
    · simp only [if_neg same]
      by_cases zero : retry_count = 0
      · simp only [if_pos zero]
        exact ⟨kept intent,kept waiting,rfl,rfl,fun _ _ => rfl,fun is => absurd is same,nofun,nofun⟩
      · simp only [if_neg zero]
        exact ⟨kept intent,kept waiting,rfl,rfl,fun _ _ => rfl,fun is => absurd is same,nofun,nofun⟩
  | btsWaiting =>
    cases ran
    refine ⟨kept intent,?_,rfl,rfl,fun _ _ => rfl,(fun _ k' next _ => by cases next; exact ⟨rfl,rfl,rfl⟩),nofun,nofun⟩
    intro j
    by_cases same : j = id
    · subst same
      simp [asleep,small]
    · simp [same,Ne.symm same]
  | hlt =>
    obtain ⟨m1,woke,same⟩ := Option.map_eq_some_iff.mp ran
    cases same
    obtain ⟨mem,token⟩ := Machine.hlt_some woke
    rw [← mem] at intent waiting
    refine ⟨?_,?_,by rw [mem],by rw [mem],token,(fun _ k' next is => by cases next; cases is),nofun,nofun⟩
    · rw [← mem]
      exact kept intent
    · rw [← mem]
      exact kept waiting
  | btrWaiting =>
    cases ran
    refine ⟨kept intent,?_,rfl,rfl,fun _ _ => rfl,(fun _ k' next is => by cases next; cases is),nofun,nofun⟩
    intro j
    by_cases same : j = id
    · subst same
      simp [asleep]
    · simp [same,Ne.symm same]
  | btrIntent =>
    cases ran
    refine ⟨?_,kept waiting,rfl,rfl,fun _ _ => rfl,nofun,nofun,fun _ => rfl⟩
    intro j
    by_cases same : j = id
    · subst same
      simp
    · simp [same,Ne.symm same]

/-! ### The handshake -/

/-- What a setter that stands at a program counter past its store knows of a stale
    waiter `id` at `w`. -/
def Promise (id : Nat) (w : WaitPc) (token : Bool) : SetPc → Prop
  | .second .test true intent_cpus => intent_cpus.getLsbD id = true
  | .second .test false waiting_cpus => waiting_cpus.getLsbD id = true → w = .hlt
  | .snap => w = .hlt
  | .kick waiting_cpus _ => w = .hlt ∧ (waiting_cpus.getLsbD id = true ∨ token = true)
  | _ => True

/-- The same, or that the setter has returned. -/
def Kept (id : Nat) (w : WaitPc) (token : Bool) : Option SetPc → Prop
  | some k => Promise id w token k
  | none => w = .hlt ∧ token = true

theorem Promise.mono {id : Nat} {w : WaitPc} {token token' : Bool} {k : SetPc} (more : token = true → token' = true)
    (promise : Promise id w token k) : Promise id w token' k := by
  cases k with
  | kick waiting_cpus hlt_cpu => exact ⟨promise.1,promise.2.imp_right more⟩
  | second use order x => cases use <;> cases order <;> exact promise
  | _ => exact promise

/-- A waiter that halts keeps the promise. -/
theorem Promise.halts {id : Nat} {token : Bool} {k : SetPc} (promise : Promise id .btsWaiting token k) :
    Promise id .hlt token k := by
  cases k with
  | kick waiting_cpus hlt_cpu => exact ⟨rfl,promise.2⟩
  | snap => rfl
  | second use order x =>
    cases use with
    | mix => trivial
    | test =>
      cases order with
      | true => exact promise
      | false => exact fun _ => rfl
  | _ => exact promise

theorem kept_halts {id : Nat} {token : Bool} {r : Option SetPc} (kept : Kept id .btsWaiting token r) :
    Kept id .hlt token r := by
  cases r with
  | none => cases kept.1
  | some k => exact Promise.halts kept

theorem kept_kickNext {id : Nat} {token : Bool} {waiting_cpus : Word}
    (covered : waiting_cpus.getLsbD id = true ∨ token = true) : Kept id .hlt token (kickNext waiting_cpus) := by
  unfold kickNext
  cases lowest : bsf waiting_cpus with
  | some j => exact ⟨rfl,covered⟩
  | none =>
    rw [bsf_none lowest] at covered
    exact ⟨rfl,covered.resolve_left Bool.false_ne_true⟩

/-- Past its store a setter keeps its promise to every stale waiter. -/
theorem set_promise {order spurious : Bool} {v : Word} {j id : Nat} {m m' : Machine Cell Word} {k : SetPc}
    {r : Option SetPc}
    {w : WaitPc} (ran : (cond_set order v k).sc j spurious m = some (m',r)) (past : k ≠ .st) (is : stale w = true)
    (intent : (m.mem .intent_cpus).getLsbD id = inside w) (waiting : (m.mem .waiting_cpus).getLsbD id = asleep w)
    (promise : Promise id w (m.token id) k) : Kept id w (m'.token id) r := by
  rw [inside_of_stale is] at intent
  rw [asleep_of_stale is] at waiting
  cases k with
  | st => exact absurd rfl past
  | fence | yield preempted_cpu => cases ran; trivial
  | first use =>
    cases ran
    cases use with
    | mix => cases order <;> trivial
    | test =>
      cases order with
      | true => exact intent
      | false =>
        intro seen
        simp only [if_neg Bool.false_ne_true] at seen
        rw [waiting] at seen
        exact of_decide_eq_true seen
  | second use order x =>
    cases ran
    cases use with
    | mix =>
      simp only [afterPair]
      cases bsf (x ^^^ m.mem (if order = true then Cell.waiting_cpus else Cell.intent_cpus)) <;> trivial
    | test =>
      -- Where the two words agree, the waiter is in both.
      cases order with
      | true =>
        have seen : x.getLsbD id = true := promise
        simp only [afterPair,if_true]
        by_cases same : x = m.mem .waiting_cpus
        · rw [same,waiting] at seen
          rw [if_neg (not_not.mpr same)]
          exact (of_decide_eq_true seen : w = .hlt)
        · rw [if_pos same]
          trivial
      | false =>
        simp only [afterPair,if_neg Bool.false_ne_true]
        by_cases same : x = m.mem .intent_cpus
        · rw [← same] at intent
          rw [if_neg (not_not.mpr same)]
          exact promise intent
        · rw [if_pos same]
          trivial
  | snap =>
    cases ran
    have asleep : w = .hlt := promise
    subst asleep
    exact kept_kickNext (.inl (by rw [waiting]; rfl))
  | kick waiting_cpus hlt_cpu =>
    cases ran
    obtain ⟨rfl,covered⟩ := promise
    refine kept_kickNext ?_
    by_cases kicked : id = hlt_cpu
    · subst kicked
      exact .inr (m.kick_token_self id)
    · rcases covered with listed | pending
      · exact .inl (by simp [listed,Ne.symm kicked])
      · exact .inr (m.kick_token pending)

/-- A setter writes nothing but `c`, and takes no token away. -/
theorem set_step {order spurious : Bool} {v : Word} {j : Nat} {m m' : Machine Cell Word} {k : SetPc} {r : Option SetPc}
    (ran : (cond_set order v k).sc j spurious m = some (m',r)) :
    (if k = .st then m' = m.set .c v ∧ r = some .fence else m'.mem = m.mem ∧ r ≠ some .st) ∧
      ∀ id, m.token id = true → m'.token id = true := by
  have notSt : ∀ waiting_cpus, kickNext waiting_cpus ≠ some .st := by
    intro waiting_cpus
    unfold kickNext
    cases bsf waiting_cpus <;> simp
  cases k with
  | st => cases ran; exact ⟨⟨rfl,rfl⟩,fun _ pending => pending⟩
  | second use order x =>
    cases ran
    refine ⟨⟨rfl,?_⟩,fun _ pending => pending⟩
    generalize m.mem (if order = true then Cell.waiting_cpus else Cell.intent_cpus) = y
    cases use with
    | test => by_cases same : x = y <;> simp [afterPair,same]
    | mix => cases low : bsf (x ^^^ y) <;> simp [afterPair,low]
  | kick waiting_cpus hlt_cpu => cases ran; exact ⟨⟨rfl,notSt _⟩,fun id pending => m.kick_token pending⟩
  | snap => cases ran; exact ⟨⟨rfl,notSt _⟩,fun _ pending => pending⟩
  | _ => cases ran; exact ⟨⟨rfl,nofun⟩,fun _ pending => pending⟩

end Bootcode.Cond
