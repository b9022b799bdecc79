import Bootcode.Tasks

/-!
The runnable bitmap as a set that any number of vCPUs add to with
`add_runnable_fn` and take from with `get_work`, in any interleaving of their
atomic instructions: nothing is lost, nothing is handed out twice, and a
`get_work` that finds nothing has seen every function absent at some moment.
-/
namespace Bootcode.WorkSet
open Bootcode.Bits Bootcode.SchedState Bootcode.Interleave Bootcode.Sched Bootcode.Tasks

/-- Where a vCPU stands: between calls, in `add_runnable_fn(fn)`, or in `get_work`
    up to its return with a function or with -1. -/
inductive At
  | out
  | inc (fn : BitVec 8)
  | bts (fn : BitVec 8)
  | scan (k : ScanPc)
  | found (fn : Nat)
  | nothing

/-- A call, or the next instruction of one. -/
inductive Act
  | add (fn : BitVec 8)
  | get
  | go
  deriving DecidableEq

/-- The bitmap, and the history of what has been added to it and returned from it. -/
structure Bag where
  tasks : Tasks
  added : List Nat
  returned : List Nat

def step (a : Act) (b : Bag) (pc : At) : Option (Bag × At) :=
  match a,pc with
  | .add fn,.out => some (b,.inc fn)
  | .get,.out => some (b,.scan (.bsf 0))
  | .go,.inc fn => some ({ b with tasks := { b.tasks with runnable_tasks := b.tasks.runnable_tasks + 1 } },.bts fn)
  | .go,.bts fn => some ({ b with tasks := add_runnable_fn b.tasks fn.toNat, added := fn.toNat :: b.added },.out)
  | .go,.scan k =>
    let r := get_work b.tasks k
    some ({ b with tasks := r.1 },match r.2 with | .more k => .scan k | .found fn => .found fn | .nothing => .nothing)
  | .go,.found fn => some ({ b with returned := fn :: b.returned },.out)
  | .go,.nothing => some (b,.out)
  | _,_ => none

/-- `p` vCPUs that share the bitmap, which is empty at first. -/
def workers (p : Nat) : System (Config (Fin p) Bag At) (Fin p × Act) :=
  threads (fun s => (∀ idx, s.shared.tasks.bm_run_fn idx = 0) ∧ s.shared.added = [] ∧ s.shared.returned = [] ∧
    ∀ i, s.loc i = .out)
    fun _ => step

/-- The vCPU's call holds `f`: its `btr` has succeeded and it has not yet returned. -/
def holds (f : Nat) : At → Nat
  | .found fn => if fn = f then 1 else 0
  | _ => 0

/-- What the locals of `get_work` hold. -/
def ScanOk : At → Prop
  | .scan (.bsf idx) => idx < 4
  | .scan (.btr idx rax) => idx < 4 ∧ rax < 64
  | _ => True

/-- What a step does to the set. -/
inductive Moves : Bag → At → Bag → At → Prop
  | quiet {b : Bag} {t : Tasks} {pc pc' : At} (same : ∀ f, runnable t f = runnable b.tasks f) (before : ∀ f, holds f pc = 0)
      (after : ∀ f, holds f pc' = 0) : Moves b pc { b with tasks := t } pc'
  | add {b : Bag} (fn : BitVec 8) :
      Moves b (.bts fn) { b with tasks := add_runnable_fn b.tasks fn.toNat, added := fn.toNat :: b.added } .out
  | take {b : Bag} {k : ScanPc} {fn : Nat} (set : runnable b.tasks fn = true) :
      Moves b (.scan k) { b with tasks := claim b.tasks fn } (.found fn)
  | ret {b : Bag} {fn : Nat} : Moves b (.found fn) { b with returned := fn :: b.returned } .out

theorem get_work_btr (t : Tasks) {idx rax : Nat} (small : rax < 64) :
    get_work t (.btr idx rax) = (claim t (64 * idx + rax),
      if runnable t (64 * idx + rax) then .found (64 * idx + rax) else .more (.bsf idx)) := by
  have word : (64 * idx + rax) / 64 = idx := by omega
  have bit : (64 * idx + rax) % 64 = rax := by omega
  simp only [get_work,claim,runnable,word,bit]

theorem step_moves {a : Act} {b b' : Bag} {pc pc' : At} (ok : ScanOk pc) (moved : step a b pc = some (b',pc')) :
    Moves b pc b' pc' ∧ ScanOk pc' := by
  cases pc with
  | out =>
    cases a with
    | add fn =>
      cases moved
      exact ⟨.quiet (fun _ => rfl) (fun _ => rfl) fun _ => rfl,trivial⟩
    | get =>
      cases moved
      exact ⟨.quiet (fun _ => rfl) (fun _ => rfl) fun _ => rfl,show 0 < 4 by decide⟩
    | go => cases moved
  | inc fn =>
    cases a with
    | add fn | get => cases moved
    | go =>
      cases moved
      exact ⟨.quiet (fun _ => rfl) (fun _ => rfl) fun _ => rfl,trivial⟩
  | bts fn =>
    cases a with
    | add fn | get => cases moved
    | go =>
      cases moved
      exact ⟨.add fn,trivial⟩
  | found fn =>
    cases a with
    | add fn | get => cases moved
    | go =>
      cases moved
      exact ⟨.ret,trivial⟩
  | nothing =>
    cases a with
    | add fn | get => cases moved
    | go =>
      cases moved
      exact ⟨.quiet (fun _ => rfl) (fun _ => rfl) fun _ => rfl,trivial⟩
  | scan k =>
    cases a with
    | add fn | get => cases moved
    | go =>
      cases moved
      cases k with
      | bsf idx =>
        cases word : Bits.bsf (b.tasks.bm_run_fn idx) with
        | some rax =>
          simp only [get_work,word]
          exact ⟨.quiet (fun _ => rfl) (fun _ => rfl) fun _ => rfl,ok,(bsf_some word).2⟩
        | none =>
          simp only [get_work,word]
          by_cases last : idx = 3
          · rw [if_pos last]
            exact ⟨.quiet (fun _ => rfl) (fun _ => rfl) fun _ => rfl,trivial⟩
          · rw [if_neg last]
            have inside : idx < 4 := ok
            exact ⟨.quiet (fun _ => rfl) (fun _ => rfl) fun _ => rfl,show idx + 1 < 4 by omega⟩
      | btr idx rax =>
        rw [get_work_btr b.tasks ok.2]
        cases set : runnable b.tasks (64 * idx + rax) with
        | true => exact ⟨.take set,trivial⟩
        | false =>
          refine ⟨.quiet ?_ (fun _ => rfl) fun _ => rfl,ok.1⟩
          -- A lost race clears a bit that is clear already.
          intro f
          rw [runnable_claim]
          by_cases same : f = 64 * idx + rax
          · rw [same,set]
            rfl
          · simp [same]

section
variable {p : Nat}

abbrev Workers (p : Nat) := Config (Fin p) Bag At

/-- `add_runnable_fn` sets the bit of a function that is not in the set. -/
def Absent (s : Workers p) (a : Fin p × Act) : Prop :=
  ∀ fn, s.loc a.1 = .bts fn → runnable s.shared.tasks fn.toNat = false

/-- Every function was added as often as it was returned, is in the set, and is held. -/
def Balanced (s : Workers p) : Prop := ∀ f,
  s.shared.added.count f = s.shared.returned.count f + (runnable s.shared.tasks f).toNat + tally (holds f) s.loc

structure Inv (s : Workers p) : Prop where
  balance : Balanced s
  locals : ∀ v, ScanOk (s.loc v)

theorem Inv.start {s : Workers p} (first : (workers p).init s) : Inv s := by
  obtain ⟨empty,added,returned,out⟩ := first
  refine ⟨?_,fun v => by rw [out]; trivial⟩
  intro f
  have none : tally (holds f) s.loc = 0 := tally_eq_zero.mpr fun v => by rw [out]; rfl
  rw [none,added,returned]
  simp [runnable,empty]

theorem Inv.step {s s' : Workers p} {a : Fin p × Act} (inv : Inv s) (absent : Absent s a)
    (moved : (workers p).step s a = some s') : Inv s' := by
  obtain ⟨b,pc,ran,rfl⟩ := threads_step moved
  obtain ⟨moves,ok⟩ := step_moves (inv.locals a.1) ran
  refine ⟨?_,?_⟩
  · intro f
    have old := inv.balance f
    have sum := tally_update (holds f) s.loc a.1 pc
    generalize before : s.loc a.1 = pc0 at moves sum
    simp only
    cases moves with
    | quiet same away after =>
      rw [away,after] at sum
      show s.shared.added.count f = s.shared.returned.count f + _ + _
      rw [same]
      omega
    | add fn =>
      have clear := absent fn before
      simp only [holds] at sum
      rw [runnable_add,List.count_cons]
      by_cases mine : f = fn.toNat
      · subst mine
        rw [clear] at old ⊢
        simp at old ⊢
        omega
      · have other : ¬ fn.toNat = f := fun same => mine same.symm
        simp [mine,other]
        omega
    | @take k fn set =>
      simp only [holds] at sum
      rw [runnable_claim]
      by_cases mine : f = fn
      · subst mine
        rw [set] at old ⊢
        simp at old sum ⊢
        omega
      · simp only [if_neg (Ne.symm mine)] at sum
        simp [mine]
        omega
    | @ret fn =>
      simp only [holds] at sum
      rw [List.count_cons]
      by_cases mine : fn = f
      · simp [mine] at sum ⊢
        omega
      · simp [mine] at sum ⊢
        omega
  · exact forall_of_others (P := fun _ (pc : At) => ScanOk pc) (v := a.1) (fun i other => Function.update_of_ne other _ _)
      (by simpa using ok) fun i _ => inv.locals i

/-! ### A call that finds nothing -/

/-- The words that a `get_work` has seen empty. -/
def passed : At → Nat
  | .scan (.bsf idx) | .scan (.btr idx _) => idx
  | .nothing => 4
  | _ => 0

/-- The states of a run since vCPU `v` last called `get_work`, without the current one. -/
def sinceCall (v : Fin p) : List (Workers p × (Fin p × Act)) → List (Workers p)
  | [] => []
  | (s,a) :: l => if a = (v,.get) then [] else s :: sinceCall v l

/-- A word is passed only when it is empty. -/
theorem passed_step {a : Act} {b b' : Bag} {pc pc' : At} {f : Nat} (moved : step a b pc = some (b',pc'))
    (gone : f / 64 < passed pc') : f / 64 < passed pc ∨ runnable b.tasks f = false := by
  cases pc with
  | out =>
    cases a <;> cases moved
    all_goals exact absurd gone (Nat.not_lt_zero _)
  | inc fn | bts fn | found fn | nothing =>
    cases a <;> cases moved
    exact absurd gone (Nat.not_lt_zero _)
  | scan k =>
    cases a with
    | add fn | get => cases moved
    | go =>
      cases moved
      cases k with
      | bsf idx =>
        cases word : Bits.bsf (b.tasks.bm_run_fn idx) with
        | some rax =>
          simp only [get_work,word] at gone
          exact .inl gone
        | none =>
          by_cases here : f / 64 = idx
          · exact .inr (by rw [runnable,here]; exact bsf_none word _)
          · refine .inl (show f / 64 < idx from ?_)
            simp only [get_work,word] at gone
            by_cases last : idx = 3
            · rw [if_pos last] at gone
              have before : f / 64 < 4 := gone
              omega
            · rw [if_neg last] at gone
              have before : f / 64 < idx + 1 := gone
              omega
      | btr idx rax =>
        by_cases set : (b.tasks.bm_run_fn idx).getLsbD rax = true
        · simp only [get_work,set,if_true] at gone
          exact absurd gone (Nat.not_lt_zero _)
        · simp only [get_work,set] at gone
          exact .inl gone

/-- Every function of a word that a call has passed was absent at some moment of it. -/
theorem passed_absent {l : List (Workers p × (Fin p × Act))} {s : Workers p} (run : Run (workers p) l s) (v : Fin p) :
    ∀ f, f / 64 < passed (s.loc v) → ∃ t ∈ s :: sinceCall v l, runnable t.shared.tasks f = false := by
  induction run with
  | init first =>
    obtain ⟨-,-,-,out⟩ := first
    intro f gone
    rw [out] at gone
    exact absurd gone (Nat.not_lt_zero _)
  | @step l s s' a run moved ih =>
    obtain ⟨b,pc,ran,rfl⟩ := threads_step moved
    intro f gone
    by_cases call : a = (v,.get)
    · -- A call has passed nothing yet.
      subst call
      simp only [Function.update_self] at gone
      cases before : s.loc v <;> rw [before] at ran <;> cases ran
      exact absurd gone (Nat.not_lt_zero _)
    · have earlier : f / 64 < passed (s.loc v) ∨ runnable s.shared.tasks f = false := by
        by_cases mine : v = a.1
        · subst mine
          simp only [Function.update_self] at gone
          exact passed_step ran gone
        · have kept : Function.update s.loc a.1 pc v = s.loc v := Function.update_of_ne mine _ _
          simp only [kept] at gone
          exact .inl gone
      rw [sinceCall,if_neg call]
      rcases earlier with old | absent
      · obtain ⟨t,member,absent⟩ := ih f old
        exact ⟨t,.tail _ member,absent⟩
      · exact ⟨s,.tail _ (.head _),absent⟩

/-- What the bitmap promises as a set, after a run. -/
structure WorkSetOk (l : List (Workers p × (Fin p × Act))) (s : Workers p) : Prop where
  balance : Balanced s
  returns : ∀ v f, s.loc v = .found f → s.shared.returned.count f < s.shared.added.count f
  codes : ∀ (fn : BitVec 8) (idx rax : Nat), rax < 64 →
    ((add_runnable_fn s.shared.tasks fn.toNat).bm_run_fn idx).getLsbD rax =
      ((s.shared.tasks.bm_run_fn idx).getLsbD rax || decide (64 * idx + rax = fn.toNat))
  empty : ∀ v, s.loc v = .nothing → ∀ f < 256, ∃ t ∈ s :: sinceCall v l, runnable t.shared.tasks f = false

/-- The bitmap is a set that loses and duplicates nothing. -/
theorem work_set {l : List (Workers p × (Fin p × Act))} {s : Workers p} (run : Run (workers p) l s)
    (absent : ∀ x ∈ l, Absent x.1 x.2) : WorkSetOk l s := by
  have inv : Inv s :=
    (run.reach absent).invariant (fun _ first => .start first) fun _ _ _ _ inv ok moved => inv.step ok moved
  refine ⟨inv.balance,?_,?_,?_⟩
  · intro v f found
    have mine := le_tally (holds f) s.loc v
    have total := inv.balance f
    rw [found,holds,if_pos rfl] at mine
    omega
  · intro fn idx rax small
    have added := runnable_add s.shared.tasks fn.toNat (64 * idx + rax)
    have word : (64 * idx + rax) / 64 = idx := by omega
    have bit : (64 * idx + rax) % 64 = rax := by omega
    simpa only [runnable,word,bit] using added
  · intro v nothing f small
    refine passed_absent run v f ?_
    rw [nothing]
    show f / 64 < 4
    omega

instance (s : Workers p) (a : Fin p × Act) : Decidable (Absent s a) :=
  match pc : s.loc a.1 with
  | .bts fn =>
    if clear : runnable s.shared.tasks fn.toNat = false then
      .isTrue fun fn' same => by rw [pc] at same; cases same; exact clear
    else .isFalse fun absent => clear (absent fn pc)
  | .out | .inc _ | .scan _ | .found _ | .nothing => .isTrue fun fn same => by rw [pc] at same; cases same

def fails : At → Bool
  | .nothing => true
  | _ => false

/-- vCPU 0 adds function 5 behind the scan of vCPU 1, which then finds nothing. -/
theorem work_set_behind : ∃ (l : List (Workers 2 × (Fin 2 × Act))) (s : Workers 2), Run (workers 2) l s ∧
    (fails (s.loc 1) = true ∧ runnable s.shared.tasks 5 = true) ∧ WorkSetOk l s := by
  let start : Workers 2 := ⟨⟨⟨⟨1,0,fun _ => 0,fun _ => ⟨0,0,0,0,0⟩⟩,fun _ => 0,fun _ => 0,0,0⟩,[],[]⟩,fun _ => .out⟩
  let acts : List (Fin 2 × Act) := [(1,.get),(1,.go),(0,.add 5),(0,.go),(0,.go),(1,.go),(1,.go),(1,.go)]
  have ran : (exec ((workers 2).guard fun s a => decide (Absent s a)) start acts).any
      (fun s => fails (s.loc 1) && runnable s.shared.tasks 5) = true := by decide +kernel
  obtain ⟨s,ran,ends⟩ := (Option.any_eq_true _ _).mp ran
  have first : ((workers 2).guard fun s a => decide (Absent s a)).init start := ⟨fun _ => rfl,rfl,rfl,fun _ => rfl⟩
  obtain ⟨l,run,-⟩ := exec_run (.init first) ran
  obtain ⟨run,checked⟩ := run.of_guard
  exact ⟨l,s,run,by simpa using ends,work_set run fun x member => of_decide_eq_true (checked x member)⟩

end
end Bootcode.WorkSet
