import Bootcode.Epochs

/-!
The times on the host's page, by the history of the time stamps. `dag_func_time` has
what passed on one vCPU between the two stamps around a function, although
`func_times` is shared, and `dag_tot_tsc_time` what passed between the start of an
epoch and its end, although different vCPUs may have taken these.
-/
namespace Bootcode.FuncTimes
open Bootcode.Bits Bootcode.SchedState Bootcode.Interleave Bootcode.Sched Bootcode.Graph Bootcode.Tasks Bootcode.TaskSteps
open Bootcode.SchedSteps Bootcode.Roles Bootcode.Epochs
set_option linter.unusedSimpArgs false

/-- The time stamps around a function and around an epoch, and the stores of what they
    come to. -/
inductive Mark
  | none
  | began
  | ended
  | func (fn : Nat)
  | start
  | stop
  | tot
  deriving DecidableEq

def mark : Pc → Mark
  | .work _ (.tscFn _) => .began
  | .fin _ .tsc => .ended
  | .fin fn (.stTime _) => .func fn
  | .reset .tsc => .start
  | .reset .tscTot => .stop
  | .reset (.stTot _) => .tot
  | _ => .none

/-- What a vCPU has in hand: a stamp, the function that it has stamped, or a difference. -/
inductive Hand
  | none
  | began (fn : Nat) (t : Word)
  | runs (fn : Nat)
  | ended (fn : Nat) (t : Word)
  | took (fn : Nat) (dt : Word)
  | start (t : Word)
  | stop (t : Word)
  | tot (dt : Word)

def hand (v : Vcpu) : Hand :=
  match v.pc with
  | .work fn (.stFn _ t) => .began (fn % 256) t
  | .work fn (.jump _) => .runs (fn % 256)
  | .user fn _ | .fin fn .incFree | .fin fn .tsc => .runs fn
  | .enter _ => if v.current = NULL_FUNC then .none else .runs v.current
  | .fin fn (.ldTime t) => .ended fn t
  | .fin fn (.stTime dt) => .took fn dt
  | .reset (.stStart t) => .start t
  | .reset (.ldTot t) => .stop t
  | .reset (.stTot dt) => .tot dt
  | _ => .none

structure Times where
  func_times : Nat → Word
  dag_func_time : Nat → Word
  dag_start_tsc : Word
  dag_tot_tsc_time : Word

def times (b : Book) : Times := ⟨b.func_times,b.dag_func_time,b.dag_start_tsc,b.dag_tot_tsc_time⟩

inductive HandStep (tsc : Word) : Mark → Hand → Times → Hand → Times → Prop
  | still {h T} : HandStep tsc .none h T h T
  | began {T} (fn : Nat) : HandStep tsc .began .none T (.began fn tsc) T
  | store {T} (fn : Nat) (t : Word) :
      HandStep tsc .none (.began fn t) T (.runs fn) { T with func_times := Function.update T.func_times fn t }
  | ended {T} (fn : Nat) : HandStep tsc .ended (.runs fn) T (.ended fn tsc) T
  | load {T} (fn : Nat) (t : Word) : HandStep tsc .none (.ended fn t) T (.took fn (t - T.func_times fn)) T
  | func {T} (fn : Nat) (dt : Word) :
      HandStep tsc (.func fn) (.took fn dt) T .none { T with dag_func_time := Function.update T.dag_func_time fn dt }
  | start {T} : HandStep tsc .start .none T (.start tsc) T
  | stamp {T} (t : Word) : HandStep tsc .none (.start t) T .none { T with dag_start_tsc := t }
  | stop {T} : HandStep tsc .stop .none T (.stop tsc) T
  | sum {T} (t : Word) : HandStep tsc .none (.stop t) T (.tot (t - T.dag_start_tsc)) T
  | tot {T} (dt : Word) : HandStep tsc .tot (.tot dt) T .none { T with dag_tot_tsc_time := dt }

theorem hand_goWake {w : Wakes} {fn current : Nat} {t1 : Word} : hand ⟨goWake w fn,current,t1⟩ = .none := by
  unfold goWake afterWake
  split
  · rfl
  · split <;> rfl

theorem hand_step {id : Nat} {x : Input} {s s' : Shared} {v v' : Vcpu} (current : CurrentOk v)
    (node : ∀ fn ctx, v.pc = .user fn ctx → fn ≠ NULL_FUNC) (moved : sched id x s v = some (s',v')) :
    HandStep x.tsc (mark v.pc) (hand v) (times s.book) (hand v') (times s'.book) := by
  obtain ⟨pc,cur,t1⟩ := v
  cases pc with
  | boot k =>
    obtain ⟨⟨w,next⟩,woke,same⟩ := Option.map_eq_some_iff.mp moved
    cases same
    have null : cur = NULL_FUNC := current
    subst null
    have none : hand ⟨next,NULL_FUNC,t1⟩ = .none := by cases k <;> simp [wake_up_event] at woke <;> grind [hand]
    rw [none]
    exact .still
  | enter k =>
    cases k with
    | tsc => cases moved; exact .still
    | ldCurrent =>
      cases moved
      by_cases null : cur = NULL_FUNC
      · simp only [null,ne_eq,not_true,if_false,hand_goWake]
        exact .still
      · simp only [null,ne_eq,not_false_iff,if_true]
        have same : hand ⟨.enter .ldCurrent,cur,t1⟩ = .runs cur := by simp [hand,null]
        rw [same]
        exact .still
  | fin fn k =>
    cases moved
    cases k with
    | incFree => exact .still
    | tsc => exact .ended fn
    | ldTime t => exact .load fn t
    | stTime dt => exact .func fn dt
  | dag fn k =>
    cases moved
    cases next : (process_sched_dag fn s.tasks k).2 <;> exact .still
  | clrCurrent fn => cases moved; rw [hand_goWake]; exact .still
  | wake fn k =>
    cases moved
    have none : hand ⟨((wake_up_task id x.tsc s.tasks.runnable_tasks s.wakes k).2.1.map (Pc.wake fn)).getD
        (afterWake fn),cur,t1⟩ = .none := by
      cases (wake_up_task id x.tsc s.tasks.runnable_tasks s.wakes k).2.1 with
      | none =>
        show hand ⟨afterWake fn,cur,t1⟩ = .none
        unfold afterWake
        split <;> rfl
      | some k' => rfl
    rw [none]
    exact .still
  | incFin fn => cases moved; exact .still
  | scan k => cases moved; cases (get_work s.tasks k).2 <;> exact .still
  | noWork k =>
    cases moved
    cases k with
    | cas tot_fn =>
      simp only [noWork]
      split <;> exact .still
    | _ => exact .still
  | reset k =>
    cases moved
    cases k with
    | ldStart =>
      simp only [reset]
      split <;> exact .still
    | tscTot => exact .stop
    | ldTot t => exact .sum t
    | stTot dt => exact .tot dt
    | exit =>
      simp only [reset]
      split <;> exact .still
    | tsc => exact .start
    | stStart t => exact .stamp t
    | ldKicked | popcnt | ldDag =>
      simp only [reset]
      split <;> exact .still
    | _ => exact .still
  | halt k =>
    obtain ⟨⟨w,b,t,next,o⟩,slept,same⟩ := Option.map_eq_some_iff.mp moved
    cases same
    cases k with
    | hlt =>
      obtain ⟨w',-,same⟩ := Option.map_eq_some_iff.mp slept
      cases same
      exact .still
    | btrKicked =>
      cases slept
      dsimp only
      split <;> exact .still
    | _ => cases slept; exact .still
  | work fn k =>
    cases moved
    cases k with
    | tscFn info => exact .began (fn % 256)
    | stFn info t => exact .store (fn % 256) t
    | _ => exact .still
  | user fn ctx =>
    cases moved
    have same : cur = fn := current
    subst same
    have runs : hand ⟨.enter .tsc,cur,t1⟩ = .runs cur := by simp [hand,node cur ctx rfl]
    rw [runs]
    exact .still

/-! ### Histories -/

section
variable {ι : Type} [DecidableEq ι]

/-- Who took a step, at what mark, and the time stamp it was given. -/
abbrev Past (ι : Type) := List (ι × Mark × Word)

/-- The newest stamp of a vCPU at a mark, and the newest one of anybody. -/
def own (m : Mark) (i : ι) : Past ι → Word
  | [] => 0
  | (j,m',t) :: past => if j = i ∧ m' = m then t else own m i past
def anybody (m : Mark) : Past ι → Word
  | [] => 0
  | (_,m',t) :: past => if m' = m then t else anybody m past

/-- What the times should be by the stamps: of a function that was measured, and of an
    epoch. -/
def funcTime (fn : Nat) : Past ι → Option Word
  | [] => none
  | (i,m,_) :: past => if m = .func fn then some (own .ended i past - own .began i past) else funcTime fn past
def epochTime : Past ι → Option Word
  | [] => none
  | (_,m,_) :: past => if m = .tot then some (anybody .stop past - anybody .start past) else epochTime past

/-- The function that a vCPU measures, and whether it measures an epoch. -/
def Hand.funcs (fn : Nat) : Hand → Bool
  | .began f _ | .runs f | .ended f _ | .took f _ => f = fn
  | _ => false
def Hand.resets : Hand → Bool
  | .start _ | .stop _ | .tot _ => true
  | _ => false

/-- What a vCPU has in hand agrees with the history. -/
def Right (past : Past ι) (T : Times) (i : ι) : Hand → Prop
  | .none => True
  | .began _ t => t = own .began i past
  | .runs fn => T.func_times fn = own .began i past
  | .ended fn t => T.func_times fn = own .began i past ∧ t = own .ended i past
  | .took _ dt => dt = own .ended i past - own .began i past
  | .start t => t = anybody .start past
  | .stop t => t = anybody .stop past
  | .tot dt => dt = anybody .stop past - anybody .start past

structure Timed (past : Past ι) (T : Times) (h : ι → Hand) : Prop where
  each : ∀ i, Right past T i (h i)
  started : (∀ i t, h i ≠ .start t) → T.dag_start_tsc = anybody .start past
  funcs : ∀ fn dt, funcTime fn past = some dt → T.dag_func_time fn = dt
  epochs : ∀ dt, epochTime past = some dt → T.dag_tot_tsc_time = dt

/-- No two vCPUs measure the same. -/
structure Alone (h : ι → Hand) : Prop where
  func : ∀ i j fn, (h i).funcs fn = true → (h j).funcs fn = true → i = j
  epoch : ∀ i j, (h i).resets = true → (h j).resets = true → i = j

variable {past : Past ι} {T T' : Times} {h : ι → Hand} {i : ι} {m : Mark} {tsc : Word} {h' : Hand}

omit [DecidableEq ι] in
theorem anybody_skip {m' : Mark} (other : m ≠ m') : anybody m' ((i,m,tsc) :: past) = anybody m' past := if_neg other
theorem own_skip {m' : Mark} (other : m ≠ m') (j : ι) : own m' j ((i,m,tsc) :: past) = own m' j past :=
  if_neg fun both => other both.2
theorem own_other {j : ι} (other : i ≠ j) (m' : Mark) : own m' j ((i,m,tsc) :: past) = own m' j past :=
  if_neg fun both => other both.1

theorem funcTime_skip {fn : Nat} (other : m ≠ .func fn) : funcTime fn ((i,m,tsc) :: past) = funcTime fn past := if_neg other
omit [DecidableEq ι] in
theorem epochTime_skip (other : m ≠ .tot) : epochTime ((i,m,tsc) :: past) = epochTime past := if_neg other

/-- What a vCPU has in hand depends on these stamps alone. -/
theorem Right.congr {past' : Past ι} {j : ι} {h0 : Hand} (right : Right past T j h0)
    (began : own .began j past' = own .began j past) (ended : own .ended j past' = own .ended j past)
    (epoch : h0.resets = true → anybody .start past' = anybody .start past ∧ anybody .stop past' = anybody .stop past)
    (funcs : ∀ fn, h0.funcs fn = true → T'.func_times fn = T.func_times fn) : Right past' T' j h0 := by
  cases h0 with
  | none => trivial
  | began fn t => exact right.trans began.symm
  | runs fn => exact ((funcs fn (by simp [Hand.funcs])).trans right).trans began.symm
  | ended fn t => exact ⟨((funcs fn (by simp [Hand.funcs])).trans right.1).trans began.symm,right.2.trans ended.symm⟩
  | took fn dt =>
    show dt = _ - _
    rw [began,ended]
    exact right
  | start t => exact right.trans (epoch rfl).1.symm
  | stop t => exact right.trans (epoch rfl).2.symm
  | tot dt =>
    show dt = _ - _
    rw [(epoch rfl).1,(epoch rfl).2]
    exact right

/-- A step stores to `func_times` for its own function only, and leaves a stamp of an
    epoch in the hand. -/
theorem HandStep.apart {h0 : Hand} (moves : HandStep tsc m h0 T h' T') :
    (∀ fn, h0.funcs fn = false → T'.func_times fn = T.func_times fn) ∧ (m = .start ∨ m = .stop → h'.resets = true) := by
  cases moves with
  | store fn t =>
    constructor
    · intro fn' out
      have other : fn ≠ fn' := by simpa [Hand.funcs] using out
      exact Function.update_of_ne (Ne.symm other) ..
    · rintro (is | is) <;> cases is
  | start | stop => exact ⟨fun _ _ => rfl,fun _ => rfl⟩
  | _ =>
    constructor
    · exact fun _ _ => rfl
    · rintro (is | is) <;> cases is

/-- What the vCPU that moves has in hand then. -/
theorem Right.mine {h0 : Hand} (right : Right past T i h0)
    (started : (∀ t, h0 ≠ .start t) → h0.resets = true → T.dag_start_tsc = anybody .start past)
    (moves : HandStep tsc m h0 T h' T') : Right ((i,m,tsc) :: past) T' i h' := by
  have skip : ∀ {m' : Mark}, own m' i ((i,m',tsc) :: past) = tsc := by simp [own]
  cases moves with
  | still =>
    exact right.congr (own_skip (by decide) i) (own_skip (by decide) i)
      (fun _ => ⟨anybody_skip (by decide),anybody_skip (by decide)⟩) fun _ _ => rfl
  | began fn => exact skip.symm
  | store fn t =>
    show Function.update T.func_times fn t fn = _
    rw [Function.update_self,own_skip (by decide)]
    exact right
  | ended fn =>
    refine ⟨?_,skip.symm⟩
    rw [own_skip (by decide)]
    exact right
  | load fn t =>
    obtain ⟨first,rfl⟩ := right
    show _ - T.func_times fn = _ - _
    rw [first,own_skip (by decide),own_skip (by decide)]
  | func fn dt | stamp t | tot dt => trivial
  | start => simp [Right,anybody]
  | stop => simp [Right,anybody]
  | sum t =>
    have right : t = anybody .stop past := right
    show t - T.dag_start_tsc = _ - _
    rw [anybody_skip (by decide),anybody_skip (by decide),right,started (fun _ is => by cases is) rfl]

theorem Timed.step (timed : Timed past T h) (alone : Alone h) (alone' : Alone (Function.update h i h'))
    (moves : HandStep tsc m (h i) T h' T') : Timed ((i,m,tsc) :: past) T' (Function.update h i h') := by
  obtain ⟨apart,leaves⟩ := moves.apart
  have mine := timed.each i
  have others : ∀ j, j ≠ i → Function.update h i h' j = h j := fun j other => Function.update_of_ne other ..
  refine ⟨fun j => ?_,?_,?_,?_⟩
  · by_cases same : j = i
    · subst same
      rw [Function.update_self]
      refine mine.mine (fun calm busy => timed.started fun k t at' => ?_) moves
      -- Nobody else starts an epoch while this vCPU ends one.
      have one := alone.epoch k j (by rw [at']; rfl) busy
      subst one
      exact calm t at'
    · rw [others j same]
      refine (timed.each j).congr (own_other (Ne.symm same) _) (own_other (Ne.symm same) _) (fun busy => ?_)
        fun fn busy => apart fn ?_
      · have clash : ∀ _ : m = .start ∨ m = .stop, False := fun is => same
          (alone'.epoch j i (by rw [others j same]; exact busy) (by rw [Function.update_self]; exact leaves is))
        exact ⟨anybody_skip fun is => clash (.inl is),anybody_skip fun is => clash (.inr is)⟩
      · by_contra is
        exact same (alone.func j i fn busy (by simpa using is))
  · intro calm
    have before : (∀ t, h i ≠ .start t) → T.dag_start_tsc = anybody .start past := by
      intro quiet
      refine timed.started fun j t at' => ?_
      by_cases same : j = i
      · subst same
        exact quiet t at'
      · exact calm j t ((others j same).trans at')
    generalize h i = h0 at moves mine before
    cases moves with
    | start => exact absurd (Function.update_self ..) (calm i tsc)
    | stamp t => exact (show t = anybody .start past from mine).trans (anybody_skip (by decide)).symm
    | still =>
      refine (before fun t at' => calm i t ?_).trans (anybody_skip (by decide)).symm
      rw [Function.update_self,at']
    | _ =>
      refine (before fun t at' => ?_).trans (anybody_skip fun is => ?_).symm
      · cases at'
      · cases is
  · intro fn dt told
    generalize h i = h0 at moves mine
    cases moves with
    | func fn' dt' =>
      by_cases same : fn' = fn
      · subst same
        have value : some (own .ended i past - own .began i past) = some dt := (if_pos rfl).symm.trans told
        show Function.update T.dag_func_time fn' dt' fn' = dt
        rw [Function.update_self,← Option.some.inj value]
        exact mine
      · show Function.update T.dag_func_time fn' dt' fn = dt
        rw [Function.update_of_ne (Ne.symm same)]
        exact timed.funcs fn dt ((funcTime_skip fun is => same (Mark.func.inj is)).symm.trans told)
    | _ =>
      refine timed.funcs fn dt ((funcTime_skip fun is => ?_).symm.trans told)
      cases is
  · intro dt told
    generalize h i = h0 at moves mine
    cases moves with
    | tot dt' =>
      have value : some (anybody .stop past - anybody .start past) = some dt := (if_pos rfl).symm.trans told
      show dt' = dt
      rw [← Option.some.inj value]
      exact mine
    | _ =>
      refine timed.epochs dt ((epochTime_skip fun is => ?_).symm.trans told)
      cases is

end

section
variable {p : Nat} {host : Metadata → Prop}

def hands (s : Config (Fin p) Shared Vcpu) : Fin p → Hand := fun i => hand (s.loc i)

/-- The marks of a run. -/
def marks (l : List (Config (Fin p) Shared Vcpu × (Fin p × Input))) : Past (Fin p) :=
  l.map fun x => (x.2.1,mark (x.1.loc x.2.1).pc,x.2.2.tsc)

theorem owns_of_funcs {s : Config (Fin p) Shared Vcpu} (core : Core s) {i : Fin p} {fn : Nat}
    (funcs : (hands s i).funcs fn = true) :
    (roles s i).owns fn = 1 := by
  have small : ∀ {f}, (roles s i).owns f = 1 → f < 256 := fun owns => by
    obtain ⟨-,-,lt,-⟩ := core.tasks.of_owns owns
    have few := core.tasks.valid.num_nodes_lt
    omega
  unfold hands at funcs
  unfold roles at small ⊢
  generalize s.loc i = v at funcs small
  obtain ⟨pc,current,t1⟩ := v
  cases pc with
  | enter k =>
    by_cases null : current = NULL_FUNC
    · simp [hand,null,Hand.funcs] at funcs
    · simpa [hand,role,null,Hand.funcs,Role.owns] using funcs
  | fin f k => cases k <;> simpa [hand,Hand.funcs,role,Role.owns] using funcs
  | reset k => cases k <;> cases funcs
  | work f k =>
    cases k with
    | stFn | jump =>
      have lt := small (f := f) (by simp [role,Role.owns])
      simpa [hand,Hand.funcs,role,Role.owns,Nat.mod_eq_of_lt lt] using funcs
    | _ => cases funcs
  | user f ctx => simpa [hand,Hand.funcs,role,Role.owns] using funcs
  | _ => cases funcs

theorem prepares_of_resets (v : Vcpu) (resets : (hand v).resets = true) : (role v).prepares = 1 := by
  obtain ⟨pc,current,t1⟩ := v
  cases pc with
  | enter k => by_cases null : current = NULL_FUNC <;> simp [hand,null,Hand.resets] at resets
  | fin f k => cases k <;> cases resets
  | reset k => cases k <;> first | rfl | cases resets
  | work f k => cases k <;> cases resets
  | _ => cases resets

theorem alone {s : Config (Fin p) Shared Vcpu} (core : Core s) : Alone (hands s) := by
  constructor
  · intro i j fn mine theirs
    by_contra other
    have two := add_le_tally (Role.owns fn) (roles s) other
    have one := core.tasks.load_le fn
    rw [owns_of_funcs core mine,owns_of_funcs core theirs] at two
    unfold load at one
    omega
  · intro i j mine theirs
    by_contra other
    have two := add_le_tally Role.prepares (roles s) other
    have one := core.tasks.preparing
    rw [show (roles s i).prepares = 1 from prepares_of_resets _ mine,
      show (roles s j).prepares = 1 from prepares_of_resets _ theirs] at two
    omega

theorem timed (supply : ∀ d, host d → Valid d) {l : List (Config (Fin p) Shared Vcpu × (Fin p × Input))}
    {s : Config (Fin p) Shared Vcpu}
    (run : Run (pool p host) l s) (good : ∀ x ∈ l, Supplied host x.1 x.2 ∧ FreshTot x.1 x.2) :
    Timed (marks l) (times s.shared.book) (hands s) := by
  induction run with
  | init first =>
    obtain ⟨d,dag_in_count,book,t,-,rfl⟩ := first
    have none : ∀ i : Fin p, hand (bootVcpu i.val) = .none := by
      intro i
      unfold bootVcpu
      by_cases zero : i.val = 0 <;> simp [zero,hand]
    refine ⟨fun i => ?_,fun _ => rfl,fun fn dt told => ?_,fun dt told => ?_⟩
    · show Right _ _ i (hand (bootVcpu i.val))
      rw [none i]
      trivial
    · cases told
    · cases told
  | @step l s s' a before moved ih =>
    have earlier : Reach (pool p host) (fun s a => Supplied host s a ∧ FreshTot s a) s :=
      before.reach fun x member => good x (.tail _ member)
    have core := core_reach supply earlier
    have here := good (s,a) (.head _)
    have alone' := alone (core.step supply here.1 here.2 moved).1
    have node : ∀ fn ctx, (s.loc a.1).pc = .user fn ctx → fn ≠ NULL_FUNC := by
      intro fn ctx pc null
      have owner : (roles s a.1).owns fn = 1 := by simp [roles,role,pc,Role.owns]
      obtain ⟨-,-,lt,-⟩ := core.tasks.of_owns owner
      have few := core.tasks.valid.num_nodes_lt
      unfold NULL_FUNC at null
      omega
    obtain ⟨sh,v,ran,rfl⟩ := pool_step moved
    have moves := hand_step (core.ok a.1).current node ran
    have now : hands ⟨{ sh with clock := if (s.loc a.1).pc.readsTsc then a.2.tsc else s.shared.clock },
      Function.update s.loc a.1 v⟩ =
        Function.update (hands s) a.1 (hand v) := Function.comp_update hand s.loc a.1 v
    rw [now] at alone' ⊢
    exact (ih fun x member => good x (.tail _ member)).step (alone core) alone' moves

end
end Bootcode.FuncTimes
