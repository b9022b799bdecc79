import Bootcode.Cond
import Bootcode.Interleave

/-!
One `cond_set(c, v)` and any number of vCPUs in `cond_wait(c, v)` on x86-TSO.
Once the store to `c` is visible the handshake of `Cond` leaves no waiter asleep;
but `sfence` does not hold back the loads of the setter until it is.
-/
namespace Bootcode.Wakeup
open Bootcode.Bits Bootcode.Tso Bootcode.Cond Bootcode.Interleave

/-- Where a vCPU is: between calls, in one of the two, or past its `cond_set`. -/
inductive Pc
  | out
  | wait (k : WaitPc)
  | set (k : SetPc)
  | returned

structure Vcpu where
  pc : Pc
  buf : List (Cell × Word)

/-- A vCPU makes its next access, or the oldest store of its buffer becomes visible.
    `order` is that of a pair of loads; a spurious `hlt` returns without a kick. -/
inductive Input
  | go (order spurious : Bool)
  | flush

/-- `n` vCPUs and their numbers. One calls `cond_set(c, v)`, once; the others call
    `cond_wait(c, v)`, as often as they like. -/
structure Party (n : Nat) where
  retries : Nat
  v : Word
  setter : Fin n
  id : Fin n → Nat
  small : ∀ i, id i < 64
  distinct : Function.Injective id

abbrev State (n : Nat) := Config (Fin n) (Machine Cell Word) Vcpu

variable {n : Nat}

def step (p : Party n) (i : Fin n) (x : Input) (m : Machine Cell Word) (l : Vcpu) : Option (Machine Cell Word × Vcpu) :=
  match x with
  | .flush => (drain m l.buf).map fun r => (r.1,{ l with buf := r.2 })
  | .go order spurious =>
    match l.pc with
    | .out => some (m,{ l with pc := if i = p.setter then .set .st else .wait .btsIntent })
    | .wait k =>
      ((cond_wait p.retries (p.id i) p.v k).tso (p.id i) spurious m l.buf).map fun r =>
        (r.1,⟨r.2.2.elim .out .wait,r.2.1⟩)
    | .set k =>
      ((cond_set order p.v k).tso (p.id i) spurious m l.buf).map fun r => (r.1,⟨r.2.2.elim .returned .set,r.2.1⟩)
    | .returned => none

/-- From empty sets, any `c` and any wake tokens. -/
def Party.system (p : Party n) : System (State n) (Fin n × Input) :=
  threads (fun s => s.shared.mem .intent_cpus = 0 ∧ s.shared.mem .waiting_cpus = 0 ∧ ∀ i, s.loc i = ⟨.out,[]⟩) (step p)

/-- When the setter begins the test of its loop, its store to `c` is visible. -/
def storeSeen (s : State n) (a : Fin n × Input) : Bool :=
  match (s.loc a.1).pc, a.2 with
  | .set (.first .test), .go _ _ => (s.loc a.1).buf.isEmpty
  | _, _ => true

def insideCall : Pc → Bool
  | .wait k => inside k
  | _ => false
def asleepCall : Pc → Bool
  | .wait k => asleep k
  | _ => false

/-- How far the setter is. With its store visible it has kept its promise to every
    stale waiter. -/
inductive Stage (p : Party n) (s : State n) : Prop
  | before (pc : (s.loc p.setter).pc = .out ∨ (s.loc p.setter).pc = .set .st) (buf : (s.loc p.setter).buf = [])
  | buffered (pc : (s.loc p.setter).pc = .set .fence ∨ (s.loc p.setter).pc = .set (.first .test))
      (buf : (s.loc p.setter).buf = [(.c,p.v)])
  | visible (r : Option SetPc) (pc : (s.loc p.setter).pc = r.elim .returned .set) (past : r ≠ some .st)
      (buf : (s.loc p.setter).buf = []) (c : s.shared.mem .c = p.v)
      (kept : ∀ i w, (s.loc i).pc = .wait w → stale w = true → Kept (p.id i) w (s.shared.token (p.id i)) r)

structure Inv (p : Party n) (s : State n) : Prop where
  intent : ∀ i, (s.shared.mem .intent_cpus).getLsbD (p.id i) = insideCall (s.loc i).pc
  waiting : ∀ i, (s.shared.mem .waiting_cpus).getLsbD (p.id i) = asleepCall (s.loc i).pc
  waiter : ∀ i, i ≠ p.setter → (s.loc i).buf = [] ∧ ((s.loc i).pc = .out ∨ ∃ k, (s.loc i).pc = .wait k)
  stage : Stage p s

theorem Inv.start {p : Party n} {s : State n} (first : p.system.init s) : Inv p s := by
  obtain ⟨intent,waiting,loc⟩ := first
  refine ⟨?_,?_,?_,.before ?_ ?_⟩
  · intro i
    rw [intent,loc]
    simp [insideCall]
  · intro i
    rw [waiting,loc]
    simp [asleepCall]
  · intro i _
    rw [loc]
    exact ⟨rfl,.inl rfl⟩
  · rw [loc]
    exact .inl rfl
  · rw [loc]

namespace Inv
variable {p : Party n} {s s' : State n} {i : Fin n}

/-- A step of a waiter inside `cond_wait`. -/
theorem wait (inv : Inv p s) (other : i ≠ p.setter) {k : WaitPc} {r : Option WaitPc}
    (others : ∀ j, j ≠ i → s'.loc j = s.loc j)
    (before : s.loc i = ⟨.wait k,[]⟩) (after : s'.loc i = ⟨r.elim .out .wait,[]⟩)
    (waits : Waits (p.id i) p.v s.shared k s'.shared r) : Inv p s' := by
  have setter : s'.loc p.setter = s.loc p.setter := others _ (Ne.symm other)
  refine ⟨?_,?_,?_,?_⟩
  · intro j
    rw [waits.intent]
    by_cases mine : j = i
    · subst mine
      rw [if_pos rfl,after]
      cases r <;> rfl
    · rw [if_neg fun same => mine (p.distinct same),others j mine]
      exact inv.intent j
  · intro j
    rw [waits.waiting]
    by_cases mine : j = i
    · subst mine
      rw [if_pos rfl,after]
      cases r <;> rfl
    · rw [if_neg fun same => mine (p.distinct same),others j mine]
      exact inv.waiting j
  · refine forall_of_others (P := fun j l => j ≠ p.setter → l.buf = [] ∧ (l.pc = .out ∨ ∃ k, l.pc = .wait k)) others ?_
      fun j _ => inv.waiter j
    rw [after]
    intro _
    cases r with
    | none => exact ⟨rfl,.inl rfl⟩
    | some k' => exact ⟨rfl,.inr ⟨k',rfl⟩⟩
  · cases inv.stage with
    | before pc buf => exact .before (by rw [setter]; exact pc) (by rw [setter]; exact buf)
    | buffered pc buf => exact .buffered (by rw [setter]; exact pc) (by rw [setter]; exact buf)
    | visible q pc past buf c kept =>
      refine .visible q (by rw [setter]; exact pc) past (by rw [setter]; exact buf) (by rw [waits.c]; exact c) ?_
      intro j w at' is
      by_cases mine : j = i
      · subst mine
        rw [after] at at'
        cases r with
        | none => cases at'
        | some k' =>
          cases at'
          obtain ⟨was,now,token⟩ := waits.halts c _ rfl is
          have earlier := kept j k (by rw [before]) (by rw [was]; rfl)
          rw [was] at earlier
          rw [now,token]
          exact kept_halts earlier
      · rw [others j mine] at at'
        rw [waits.token _ fun same => mine (p.distinct same)]
        exact kept j w at' is

/-- A step that leaves the words and the waiters as they are. -/
theorem still (inv : Inv p s) (others : ∀ j, j ≠ p.setter → s'.loc j = s.loc j)
    (intent : s'.shared.mem .intent_cpus = s.shared.mem .intent_cpus)
    (waiting : s'.shared.mem .waiting_cpus = s.shared.mem .waiting_cpus)
    (out : insideCall (s'.loc p.setter).pc = insideCall (s.loc p.setter).pc)
    (awake : asleepCall (s'.loc p.setter).pc = asleepCall (s.loc p.setter).pc) (stage : Stage p s') : Inv p s' := by
  refine ⟨?_,?_,fun j other => by rw [others j other]; exact inv.waiter j other,stage⟩
  · rw [intent]
    exact forall_of_others (P := fun j l => (s.shared.mem .intent_cpus).getLsbD (p.id j) = insideCall l.pc) others
      (by rw [out]; exact inv.intent _) fun j _ => inv.intent j
  · rw [waiting]
    exact forall_of_others (P := fun j l => (s.shared.mem .waiting_cpus).getLsbD (p.id j) = asleepCall l.pc) others
      (by rw [awake]; exact inv.waiting _) fun j _ => inv.waiting j

/-- A step of a waiter. -/
theorem waiter_step (inv : Inv p s) (other : i ≠ p.setter) {x : Input} (moved : p.system.step s (i,x) = some s') :
    Inv p s' := by
  obtain ⟨m',l',ran,shared',after,others⟩ := threads_moved moved
  have intent := inv.intent i
  have waiting := inv.waiting i
  have calls := inv.waiter i other
  generalize before : s.loc i = l at ran intent waiting calls
  obtain ⟨pc,buf⟩ := l
  obtain ⟨rfl,calls⟩ := calls
  cases x with
  | flush => cases ran
  | go order spurious =>
    rcases calls with rfl | ⟨k,rfl⟩
    · simp only [step,if_neg other] at ran
      cases ran
      -- A vCPU that begins a call is not in the sets yet, like one that has returned.
      have same : ∀ j, insideCall (s'.loc j).pc = insideCall (s.loc j).pc ∧
        asleepCall (s'.loc j).pc = asleepCall (s.loc j).pc := by
        intro j
        by_cases mine : j = i
        · rw [mine,after,before]
          exact ⟨rfl,rfl⟩
        · rw [others j mine]
          exact ⟨rfl,rfl⟩
      refine ⟨?_,?_,?_,?_⟩
      · intro j
        rw [shared',(same j).1]
        exact inv.intent j
      · intro j
        rw [shared',(same j).2]
        exact inv.waiting j
      · refine forall_of_others (P := fun j l => j ≠ p.setter → l.buf = [] ∧ (l.pc = .out ∨ ∃ k, l.pc = .wait k)) others ?_
          fun j _ => inv.waiter j
        rw [after]
        exact fun _ => ⟨rfl,.inr ⟨_,rfl⟩⟩
      · have setter : s'.loc p.setter = s.loc p.setter := others _ (Ne.symm other)
        cases inv.stage with
        | before pc buf => exact .before (by rw [setter]; exact pc) (by rw [setter]; exact buf)
        | buffered pc buf => exact .buffered (by rw [setter]; exact pc) (by rw [setter]; exact buf)
        | visible q pc past buf c kept =>
          refine .visible q (by rw [setter]; exact pc) past (by rw [setter]; exact buf) (by rw [shared']; exact c) ?_
          intro j w at' is
          rw [shared']
          by_cases mine : j = i
          · rw [mine,after] at at'
            cases at'
            cases is
          · rw [others j mine] at at'
            exact kept j w at' is
    · simp only [step,tso_nil _ _ _ (cond_wait_plain p.retries (p.id i) p.v k),Option.map_map,Option.map_eq_some_iff] at ran
      obtain ⟨⟨m2,r⟩,waits,same⟩ := ran
      cases same
      dsimp only at after shared'
      rw [← shared'] at waits
      exact inv.wait other others before after (wait_step (p.small i) intent waiting waits)

/-- A step of the setter that does not test its loop while its store is buffered. -/
theorem setter_step (inv : Inv p s) {x : Input} (seen : storeSeen s (p.setter,x) = true)
    (moved : p.system.step s (p.setter,x) = some s') : Inv p s' := by
  obtain ⟨m',l',ran,shared',after,others⟩ := threads_moved moved
  generalize before : s.loc p.setter = l at ran
  obtain ⟨pc,buf⟩ := l
  cases inv.stage with
  | before at' empty =>
    rw [before] at at' empty
    obtain rfl : buf = [] := empty
    cases x with
    | flush => cases ran
    | go order spurious =>
      rcases at' with rfl | rfl
      · simp only [step,if_true] at ran
        cases ran
        exact inv.still others (by rw [shared']) (by rw [shared']) (by rw [after,before]; rfl) (by rw [after,before]; rfl)
          (.before (by rw [after]; exact .inr rfl) (by rw [after]))
      · cases ran
        exact inv.still others (by rw [shared']) (by rw [shared']) (by rw [after,before]; rfl) (by rw [after,before]; rfl)
          (.buffered (by rw [after]; exact .inl rfl) (by rw [after]; rfl))
  | buffered at' held =>
    rw [before] at at' held
    obtain rfl : buf = [(.c,p.v)] := held
    cases x with
    | flush =>
      cases ran
      refine inv.still others (by rw [shared']; rfl) (by rw [shared']; rfl) (by rw [after,before]) (by rw [after,before]) ?_
      have c : s'.shared.mem .c = p.v := by rw [shared']; exact Machine.set_self ..
      -- Up to the test the setter has promised nothing.
      rcases at' with rfl | rfl
      · exact .visible (some .fence) (by rw [after]; rfl) nofun (by rw [after]) c fun _ _ _ _ => trivial
      · exact .visible (some (.first .test)) (by rw [after]; rfl) nofun (by rw [after]) c fun _ _ _ _ => trivial
    | go order spurious =>
      rcases at' with rfl | rfl
      · cases ran
        exact inv.still others (by rw [shared']) (by rw [shared']) (by rw [after,before]; rfl) (by rw [after,before]; rfl)
          (.buffered (by rw [after]; exact .inr rfl) (by rw [after]))
      · simp [storeSeen,before] at seen
  | visible q at' past empty c kept =>
    rw [before] at at' empty
    obtain rfl : buf = [] := empty
    cases x with
    | flush => cases ran
    | go order spurious =>
      cases q with
      | none =>
        obtain rfl : pc = .returned := at'
        cases ran
      | some k =>
        obtain rfl : pc = .set k := at'
        have plain : (cond_set order p.v k).stores = false := cond_set_plain fun is => past (congrArg some is)
        simp only [step,tso_nil _ _ _ plain,Option.map_map,Option.map_eq_some_iff] at ran
        obtain ⟨⟨m2,r⟩,sets,same⟩ := ran
        cases same
        dsimp only at after shared'
        rw [← shared'] at sets
        have effect := (set_step sets).1
        rw [if_neg fun is => past (congrArg some is)] at effect
        obtain ⟨mem,past'⟩ := effect
        refine inv.still others (by rw [mem]) (by rw [mem]) ?_ ?_
          (.visible r (by rw [after]) past' (by rw [after]) (by rw [mem,c]) ?_)
        · rw [after,before]
          cases r <;> rfl
        · rw [after,before]
          cases r <;> rfl
        · intro j w waits is
          have waiter : j ≠ p.setter := by
            rintro rfl
            rw [after] at waits
            cases r <;> cases waits
          rw [others j waiter] at waits
          have intent := inv.intent j
          have waiting := inv.waiting j
          rw [waits] at intent waiting
          exact set_promise sets (fun is => past (congrArg some is)) is intent waiting (kept j w waits is)

theorem step (inv : Inv p s) {a : Fin n × Input} (seen : storeSeen s a = true) (moved : p.system.step s a = some s') :
    Inv p s' := by
  obtain ⟨i,x⟩ := a
  by_cases sets : i = p.setter
  · subst sets
    exact inv.setter_step seen moved
  · exact inv.waiter_step sets moved

end Inv

/-- The vCPU is at the `hlt` of `cond_wait` and has no wake token. -/
def Blocked (p : Party n) (s : State n) (i : Fin n) : Prop :=
  (s.loc i).pc = .wait .hlt ∧ s.shared.token (p.id i) = false

/-- No wake-up is lost in a run where the store to `c` is visible whenever the setter
    begins to test its loop. -/
theorem no_lost_wakeup {p : Party n} {s : State n} (reach : Reach p.system (fun s a => storeSeen s a = true) s)
    (returned : (s.loc p.setter).pc = .returned) (visible : (s.loc p.setter).buf = []) (i : Fin n) : ¬ Blocked p s i := by
  have inv : Inv p s := reach.invariant (fun _ first => .start first) fun _ _ _ _ inv seen moved => inv.step seen moved
  rintro ⟨halts,none⟩
  cases inv.stage with
  | before pc buf => rw [returned] at pc; rcases pc with is | is <;> cases is
  | buffered pc buf => rw [visible] at buf; cases buf
  | visible r pc past buf c kept =>
    rw [returned] at pc
    cases r with
    | none =>
      have token := (kept i .hlt halts rfl).2
      rw [none] at token
      cases token
    | some k => cases pc

/-- vCPU 0 sets `c` to 1, vCPU 1 waits for it. -/
def pair : Party 2 := ⟨RETRY_COUNT,1,⟨0,Nat.two_pos⟩,fun i => i.val,Bits.val_small,Bits.val_distinct⟩

def pairStart : State 2 := ⟨⟨fun _ => 0,fun _ => false⟩,fun _ => ⟨.out,[]⟩⟩

/-- vCPU `i` has returned and its store is visible, vCPU `j` halts with the given token. -/
def setAndHalted (i j : Fin 2) (token : Bool) (s : State 2) : Bool :=
  match (s.loc i).pc, (s.loc i).buf, (s.loc j).pc with
  | .returned, [], .wait .hlt => s.shared.token j.val = token
  | _, _, _ => false

theorem setAndHalted_iff {i j : Fin 2} {token : Bool} {s : State 2} (is : setAndHalted i j token s = true) :
    (s.loc i).pc = .returned ∧ (s.loc i).buf = [] ∧ (s.loc j).pc = .wait .hlt ∧ s.shared.token j.val = token := by
  unfold setAndHalted at is
  split at is
  · exact ⟨‹_›,‹_›,‹_›,of_decide_eq_true is⟩
  · cases is

/-- vCPU 1 goes to sleep before vCPU 0 calls `cond_set`, which kicks it. -/
theorem no_lost_wakeup_pair : ∃ s, Reach pair.system (fun s a => storeSeen s a = true) s ∧
    setAndHalted 0 1 true s = true ∧ ¬ Blocked pair s 1 := by
  have first : (pair.system.guard storeSeen).init pairStart := ⟨rfl,rfl,fun _ => rfl⟩
  have ran : (exec (pair.system.guard storeSeen) pairStart (List.replicate 36 (1,.go true false) ++
      List.replicate 3 (0,.go true false) ++ (0,.flush) :: List.replicate 4
        (0,.go true false))).any (setAndHalted 0 1 true) = true := by
    decide +kernel
  obtain ⟨s,reach,holds⟩ := exec_exists first (fun _ _ _ => trivial) ran
  obtain ⟨returned,visible,-⟩ := setAndHalted_iff holds
  exact ⟨s,reach.of_guard,holds,no_lost_wakeup reach.of_guard returned visible 1⟩

/-- vCPU 0 reads empty sets while its store is in its buffer and returns; vCPU 1
    reads the old `c` and sleeps for good. -/
theorem wakeup_lost : ∃ s, Reachable pair.system s ∧ (s.loc pair.setter).pc = .returned ∧ (s.loc pair.setter).buf = [] ∧
    Blocked pair s 1 := by
  have first : pair.system.init pairStart := ⟨rfl,rfl,fun _ => rfl⟩
  have ran : (exec pair.system pairStart (List.replicate 6 (0,.go true false) ++ List.replicate 36 (1,.go true false) ++
      [(0,.flush)])).any (setAndHalted 0 1 false) = true := by
    decide +kernel
  obtain ⟨s,reach,holds⟩ := exec_exists first (fun _ _ _ => trivial) ran
  obtain ⟨returned,visible,halts,none⟩ := setAndHalted_iff holds
  exact ⟨s,reach,returned,visible,halts,none⟩

end Bootcode.Wakeup
