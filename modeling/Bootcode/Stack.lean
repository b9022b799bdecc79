import Bootcode.Interleave
import Bootcode.Linear
import Bootcode.Mutex

/-!
The stack of `stack.c` on any number of vCPUs. Under the mutex a call runs its
critical section to the end as if it were alone (`finish`), and takes effect on the
list that the stack represents; so the order in which calls give the mutex back
explains what all of them return.
-/
namespace Bootcode.Stack
open Bootcode.Mutex Bootcode.Interleave Bootcode.Linear

/-- Addresses count elements. -/
structure TStack where
  arr : Int
  head : Int
  m : Word
  n : Int
  tsz : Int

def stack_init (h tsz : Int) : TStack := ⟨h,h,0,0,tsz⟩

inductive Op
  | push
  | pop
  deriving DecidableEq

/-- Before each access of a critical section; what was loaded before is at hand. -/
inductive Crit (α : Type)
  | pushN
  | pushTsz (n : Int)
  | pushElem
  | pushElemSt (head : Int)
  | pushHead
  | pushHeadSt (head : Int)
  | pushCount
  | pushCountSt (n : Int)
  | popN
  | popHead
  | popHeadSt (head : Int)
  | popElem
  | popElemLd (head : Int)
  | popElemSt (x : α)
  | popCount
  | popCountSt (n : Int)

/-- What a critical section works on: the stack, the array, and `*e`. -/
structure View (α : Type) where
  q : TStack
  mem : Int → α
  e : α

variable {α : Type}

/-- One access of `stack_push` or `stack_pop`; at the end, `ret`. -/
def body : Crit α → View α → View α × (Crit α ⊕ Int)
  | .pushN, v => (v,.inl (.pushTsz v.q.n))
  | .pushTsz n, v => (v,if n < v.q.tsz then .inl .pushElem else .inr (-1))
  | .pushElem, v => (v,.inl (.pushElemSt v.q.head))
  | .pushElemSt head, v => ({ v with mem := Function.update v.mem head v.e },.inl .pushHead)
  | .pushHead, v => (v,.inl (.pushHeadSt v.q.head))
  | .pushHeadSt head, v => ({ v with q := { v.q with head := head + 1 } },.inl .pushCount)
  | .pushCount, v => (v,.inl (.pushCountSt v.q.n))
  | .pushCountSt n, v => ({ v with q := { v.q with n := n + 1 } },.inr 0)
  | .popN, v => (v,if v.q.n > 0 then .inl .popHead else .inr (-1))
  | .popHead, v => (v,.inl (.popHeadSt v.q.head))
  | .popHeadSt head, v => ({ v with q := { v.q with head := head - 1 } },.inl .popElem)
  | .popElem, v => (v,.inl (.popElemLd v.q.head))
  | .popElemLd head, v => (v,.inl (.popElemSt (v.mem head)))
  | .popElemSt x, v => ({ v with e := x },.inl .popCount)
  | .popCount, v => (v,.inl (.popCountSt v.q.n))
  | .popCountSt n, v => ({ v with q := { v.q with n := n - 1 } },.inr 0)

def enter : Op → Crit α
  | .push => .pushN
  | .pop => .popN

/-- The critical section from some point on, alone. -/
def finish : Nat → Crit α → View α → Option (View α × Int)
  | 0, _, _ => none
  | fuel + 1, k, v =>
    match body k v with
    | (v,.inl k) => finish fuel k v
    | (v,.inr ret) => some (v,ret)

theorem body_m (k : Crit α) (v : View α) : (body k v).1.q.m = v.q.m := by
  cases k <;> rfl

/-- The elements of a list, the last one first, from `arr` on. -/
def Stored (mem : Int → α) (arr : Int) : List α → Prop
  | [] => True
  | x :: xs => mem (arr + xs.length) = x ∧ Stored mem arr xs

/-- A list of at most `tsz` elements, that pushed last first: what a call of `op` on it
    with `e` in `*e` makes of it, what it returns, and what it leaves in `*e`. -/
def bounded (tsz : Int) (xs : List α) : Op × α → List α × (Int × α)
  | (.push,e) => if xs.length < tsz then (e :: xs,0,e) else (xs,-1,e)
  | (.pop,e) =>
    match xs with
    | [] => ([],-1,e)
    | x :: xs => (xs,0,x)

theorem Stored.frame {mem mem' : Int → α} {arr : Int} {xs : List α} (stored : Stored mem arr xs)
    (same : ∀ a, arr ≤ a → a < arr + xs.length → mem' a = mem a) : Stored mem' arr xs := by
  induction xs with
  | nil => trivial
  | cons x xs ih =>
    obtain ⟨top,rest⟩ := stored
    simp only [List.length_cons,Nat.cast_add,Nat.cast_one] at same
    refine ⟨?_,ih rest fun a low high => same a low (by omega)⟩
    rw [same _ (by omega) (by omega)]
    exact top

/-- Between calls the stack at `arr` represents `xs`. -/
structure Rep (arr tsz : Int) (q : TStack) (mem : Int → α) (xs : List α) : Prop where
  array : q.arr = arr
  size : q.tsz = tsz
  n : q.n = xs.length
  head : q.head = q.arr + q.n
  room : q.n ≤ max tsz 0
  stored : Stored mem arr xs

/-- A critical section that runs alone does what the list does, and stores to the
    first `tsz` elements of the array only. -/
theorem finish_enter {arr tsz : Int} {q : TStack} {mem : Int → α} {xs : List α} (rep : Rep arr tsz q mem xs)
    (op : Op) (e : α) :
    ∃ v ret, finish 8 (enter op) ⟨q,mem,e⟩ = some (v,ret) ∧ Rep arr tsz v.q v.mem (bounded tsz xs (op,e)).1 ∧
      (bounded tsz xs (op,e)).2 = (ret,v.e) ∧ ∀ a, ¬ (arr ≤ a ∧ a < arr + tsz) → v.mem a = mem a := by
  obtain ⟨rfl,rfl,n,head,room,stored⟩ := rep
  cases op with
  | push =>
    by_cases full : q.n < q.tsz
    · refine ⟨⟨{ q with head := q.head + 1, n := q.n + 1 },Function.update mem q.head e,e⟩,0,?_,?_,?_,?_⟩
      · simp [finish,enter,body,full]
      · rw [bounded,if_pos (by omega)]
        refine ⟨rfl,rfl,?_,?_,?_,?_,?_⟩
        · simp [n]
        · simp only [head]
          omega
        · simp only
          omega
        · rw [← n,← head]
          exact Function.update_self ..
        · exact stored.frame fun a _ high => Function.update_of_ne (by omega) ..
      · rw [bounded,if_pos (by omega)]
      · intro a out
        exact Function.update_of_ne (by omega) ..
    · refine ⟨⟨q,mem,e⟩,-1,?_,?_,?_,fun _ _ => rfl⟩
      · simp [finish,enter,body,full]
      · rw [bounded,if_neg (by omega)]
        exact ⟨rfl,rfl,n,head,room,stored⟩
      · rw [bounded,if_neg (by omega)]
  | pop =>
    cases xs with
    | nil =>
      have empty : ¬ q.n > 0 := by simp [n]
      refine ⟨⟨q,mem,e⟩,-1,?_,⟨rfl,rfl,n,head,room,stored⟩,rfl,fun _ _ => rfl⟩
      simp [finish,enter,body,empty]
    | cons x xs =>
      have some : q.n > 0 := by
        rw [n]
        simp
      obtain ⟨top,rest⟩ := stored
      have at' : q.head - 1 = q.arr + xs.length := by
        rw [head,n]
        simp
        omega
      refine ⟨⟨{ q with head := q.head - 1, n := q.n - 1 },mem,x⟩,0,?_,?_,rfl,fun _ _ => rfl⟩
      · simp [finish,enter,body,some,at',top]
      · refine ⟨rfl,rfl,?_,?_,?_,rest⟩
        · simp [n,bounded]
        · simp only [head]
          omega
        · simp only
          omega

/-! ### Runs -/

/-- `n` vCPUs and their numbers; the stack is initialised with the array at `arr`. -/
structure Setup (α : Type) (n : Nat) where
  arr : Int
  tsz : Int
  mem : Int → α
  id : Fin n → Nat
  small : ∀ i, id i < 64
  distinct : Function.Injective id

/-- `time` counts the calls and returns so far; `log` has the completed calls, newest
    first. No step depends on either. -/
structure Shared (α : Type) (n : Nat) where
  q : TStack
  mem : Int → α
  time : Nat
  log : List (Call (Fin n) (Op × α) (Int × α))

inductive Pc (α : Type)
  | idle
  | lock (k : LockPc)
  | crit (k : Crit α)
  | unlock (ret : Int)

/-- A vCPU: its call, with `*e` at its beginning and at what time that was, and `*e`. -/
structure Vcpu (α : Type) where
  pc : Pc α
  op : Op
  arg : α
  called : Nat
  e : α

variable {n : Nat}

/-- One step of a vCPU that calls what it likes, as often as it likes. A call ends with
    the store of `mutex_unlock`, its last access. -/
def step (p : Setup α n) (i : Fin n) (x : Op × α) (s : Shared α n) (l : Vcpu α) : Option (Shared α n × Vcpu α) :=
  match l.pc with
  | .idle => some ({ s with time := s.time + 1 },⟨.lock (.cmpxchg RETRY_COUNT),x.1,x.2,s.time,x.2⟩)
  | .lock k =>
    let r := mutex_lock (p.id i) k s.q.m
    some ({ s with q := { s.q with m := r.1 } },{ l with pc := r.2.elim (.crit (enter l.op)) .lock })
  | .crit k =>
    let r := body k ⟨s.q,s.mem,l.e⟩
    some ({ s with q := r.1.q, mem := r.1.mem },{ l with e := r.1.e, pc := r.2.elim .crit .unlock })
  | .unlock ret =>
    some ({ s with
        q := { s.q with m := mutex_unlock s.q.m }
        time := s.time + 1
        log := ⟨i,(l.op,l.arg),(ret,l.e),l.called,s.time⟩ :: s.log },
      { l with pc := .idle })

abbrev State (α : Type) (n : Nat) := Config (Fin n) (Shared α n) (Vcpu α)

def Setup.system (p : Setup α n) : System (State α n) (Fin n × (Op × α)) :=
  threads (fun s => s.shared = ⟨stack_init p.arr p.tsz,p.mem,0,[]⟩ ∧ ∀ i, (s.loc i).pc = .idle) (step p)

def holds (l : Vcpu α) : Bool :=
  match l.pc with
  | .crit _ | .unlock _ => true
  | _ => false

/-- The addresses outside the first `tsz` elements of the array are as they were. -/
def Kept (p : Setup α n) (mem : Int → α) : Prop := ∀ a, ¬ (p.arr ≤ a ∧ a < p.arr + p.tsz) → mem a = p.mem a

/-- What a call that leaves its critical section with `v` and `ret` has done to the list `xs`. -/
structure After (p : Setup α n) (xs : List α) (l : Vcpu α) (v : View α) (ret : Int) : Prop where
  rep : Rep p.arr p.tsz v.q v.mem (bounded p.tsz xs (l.op,l.arg)).1
  returns : (bounded p.tsz xs (l.op,l.arg)).2 = (ret,v.e)
  kept : Kept p v.mem

/-- What a vCPU is going to do, with the list `xs` before its call. -/
def Local (p : Setup α n) (sh : Shared α n) (xs : List α) (l : Vcpu α) : Prop :=
  match l.pc with
  | .idle => True
  | .lock _ => l.e = l.arg
  | .crit k => ∃ fuel v ret, finish fuel k ⟨sh.q,sh.mem,l.e⟩ = some (v,ret) ∧ After p xs l v ret
  | .unlock ret => After p xs l ⟨sh.q,sh.mem,l.e⟩ ret

/-- The completed calls, in the order in which they returned, end in `xs`; none of
    them, and none that is under way, began in the future. -/
structure Told (p : Setup α n) (s : State α n) (xs : List α) : Prop where
  history : Linearizes (bounded p.tsz) [] s.shared.log s.shared.log.reverse xs
  past : ∀ c ∈ s.shared.log, c.called ≤ s.shared.time
  begun : ∀ i, (s.loc i).pc ≠ .idle → (s.loc i).called ≤ s.shared.time

structure Inv (p : Setup α n) (s : State α n) (xs : List α) : Prop where
  told : Told p s xs
  locks : Locks p.id holds s.shared.q.m s.loc
  between : (∀ i, holds (s.loc i) = false) → Rep p.arr p.tsz s.shared.q s.shared.mem xs ∧ Kept p s.shared.mem
  each : ∀ i, Local p s.shared xs (s.loc i)

/-- A step that completes no call. -/
theorem Told.still {p : Setup α n} {s s' : State α n} {xs : List α} {i : Fin n}
    (told : Told p s xs) (others : ∀ j, j ≠ i → s'.loc j = s.loc j) (log : s'.shared.log = s.shared.log)
    (later : s.shared.time ≤ s'.shared.time) (begun : (s'.loc i).called ≤ s'.shared.time) : Told p s' xs := by
  refine ⟨?_,?_,?_⟩
  · rw [log]
    exact told.history
  · rw [log]
    exact fun c member => (told.past c member).trans later
  · exact forall_of_others (P := fun _ l => l.pc ≠ .idle → l.called ≤ s'.shared.time) others (fun _ => begun)
      fun j _ busy => (told.begun j busy).trans later

theorem Inv.start {p : Setup α n} {s : State α n} (first : p.system.init s) : Inv p s [] := by
  obtain ⟨shared,idle⟩ := first
  refine ⟨⟨?_,?_,?_⟩,?_,?_,?_⟩
  · rw [shared]
    exact .nil ..
  · rw [shared]
    nofun
  · intro i busy
    exact absurd (idle i) busy
  · intro i is
    simp [holds,idle i] at is
  · rw [shared]
    refine fun _ => ⟨⟨rfl,rfl,rfl,?_,?_,trivial⟩,fun _ _ => rfl⟩
    · simp [stack_init]
    · simp [stack_init]
  · intro i
    simp [Local,idle i]

/-- The mutex word is not part of what a stack represents. -/
theorem Rep.set_m {arr tsz : Int} {q : TStack} {mem : Int → α} {xs : List α} (rep : Rep arr tsz q mem xs) (m : Word) :
    Rep arr tsz { q with m := m } mem xs :=
  ⟨rep.array,rep.size,rep.n,rep.head,rep.room,rep.stored⟩

/-- A vCPU outside the critical section relies on nothing that others change. -/
theorem Local.frame {p : Setup α n} {sh sh' : Shared α n} {xs xs' : List α} {l : Vcpu α} (before : Local p sh xs l)
    (out : holds l = false) : Local p sh' xs' l := by
  obtain ⟨pc,op,arg,called,e⟩ := l
  cases pc with
  | idle => trivial
  | lock k => exact before
  | crit k => cases out
  | unlock ret => cases out

theorem Inv.step {p : Setup α n} {s s' : State α n} {xs : List α}
    {a : Fin n × (Op × α)} (inv : Inv p s xs) (moved : p.system.step s a = some s') : ∃ xs, Inv p s' xs := by
  obtain ⟨i,x⟩ := a
  obtain ⟨m',l',ran,shared',after,others⟩ := threads_moved moved
  have mine := inv.each i
  have begun := inv.told.begun i
  have alone : holds (s.loc i) = true → ∀ j, j ≠ i → holds (s.loc j) = false := by
    intro held j other
    by_contra is
    exact other (inv.locks.unique p.small p.distinct (by simpa using is) held)
  -- Who does not hold the mutex now did not hold it before, if that goes for the vCPU that moved.
  have nobody : holds (s.loc i) = false → (∀ j, holds (s'.loc j) = false) → ∀ j, holds (s.loc j) = false := fun out none =>
    forall_of_others (P := fun _ l => holds l = false) (fun j other => (others j other).symm) out fun j _ => none j
  generalize before : s.loc i = l at ran mine begun alone nobody
  obtain ⟨pc,op,arg,called,e⟩ := l
  cases pc with
  | idle =>
    cases ran
    refine ⟨xs,?_,?_,?_,?_⟩
    · exact inv.told.still others (by rw [shared']) (by rw [shared']; exact Nat.le_succ _)
        (by rw [shared',after]; exact Nat.le_succ _)
    · exact inv.locks.still others (by rw [shared']) (by rw [after,before]; rfl)
    · rw [shared']
      exact fun none => inv.between (nobody rfl none)
    · rw [shared']
      refine forall_of_others (P := fun _ l => Local p _ xs l) others ?_ fun j _ => inv.each j
      rw [after]
      rfl
  | lock k =>
    obtain rfl : e = arg := mine
    simp only [Stack.step] at ran
    generalize tried : mutex_lock (p.id i) k s.shared.q.m = r at ran
    obtain ⟨w,r⟩ := r
    cases r with
    | some k' =>
      obtain rfl := mutex_lock_some tried
      cases ran
      refine ⟨xs,?_,?_,?_,?_⟩
      · exact inv.told.still others (by rw [shared']) (by rw [shared']) (by rw [shared',after]; exact begun nofun)
      · exact inv.locks.still others (by rw [shared']) (by rw [after,before]; rfl)
      · rw [shared']
        exact fun none => inv.between (nobody rfl none)
      · rw [shared']
        refine forall_of_others (P := fun _ l => Local p _ xs l) others ?_ fun j _ => inv.each j
        rw [after]
        rfl
    | none =>
      have free := inv.locks.free p.small (mutex_lock_none tried).1
      obtain ⟨rep,kept⟩ := inv.between free
      cases ran
      refine ⟨xs,?_,?_,?_,?_⟩
      · exact inv.told.still others (by rw [shared']) (by rw [shared']) (by rw [shared',after]; exact begun nofun)
      · rw [shared']
        exact inv.locks.lock p.small (k := k) (r := none) others tried (by rw [before]; rfl) (by rw [after]; rfl)
      · intro none
        have held := none i
        rw [after] at held
        cases held
      · rw [shared']
        refine forall_of_others (P := fun _ l => Local p _ xs l) others ?_ fun j _ => (inv.each j).frame (free j)
        rw [after]
        obtain ⟨v,ret,ran,rep',returns,outside⟩ := finish_enter (rep.set_m w) op e
        exact ⟨8,v,ret,ran,rep',returns,fun a out => (outside a out).trans (kept a out)⟩
  | crit k =>
    obtain ⟨fuel,v,ret,rest,done⟩ := mine
    have word := body_m k ⟨s.shared.q,s.shared.mem,e⟩
    cases fuel with
    | zero => cases rest
    | succ fuel =>
      have local' : Local p m' xs l' ∧ holds l' = true ∧ m'.q.m = s.shared.q.m ∧ m'.log = s.shared.log ∧
          m'.time = s.shared.time ∧ l'.called = called := by
        simp only [Stack.step] at ran
        simp only [finish] at rest
        generalize body k ⟨s.shared.q,s.shared.mem,e⟩ = r at ran rest word
        obtain ⟨v1,r⟩ := r
        cases ran
        cases r with
        | inl k' => exact ⟨⟨fuel,v,ret,rest,done.rep,done.returns,done.kept⟩,rfl,word,rfl,rfl,rfl⟩
        | inr ret' =>
          cases rest
          exact ⟨⟨done.rep,done.returns,done.kept⟩,rfl,word,rfl,rfl,rfl⟩
      obtain ⟨mine,held,word,log,time,same⟩ := local'
      rw [← shared'] at mine word log time
      refine ⟨xs,?_,?_,?_,?_⟩
      · exact inv.told.still others log time.ge (by rw [after,time,same]; exact begun nofun)
      · exact inv.locks.still others word (by rw [after,held,before]; rfl)
      · intro none
        have out := none i
        rw [after,held] at out
        cases out
      · refine forall_of_others (P := fun _ l => Local p s'.shared xs l) others (by rw [after]; exact mine) ?_
        exact fun j other => (inv.each j).frame (alone rfl j other)
  | unlock ret =>
    have done : After p xs ⟨.unlock ret,op,arg,called,e⟩ ⟨s.shared.q,s.shared.mem,e⟩ ret := mine
    cases ran
    refine ⟨(bounded p.tsz xs (op,arg)).1,⟨?_,?_,?_⟩,?_,?_,?_⟩
    · rw [shared',List.reverse_cons]
      exact inv.told.history.complete (Prod.ext rfl done.returns) inv.told.past
    · rw [shared']
      refine List.forall_mem_cons.mpr ⟨(begun nofun).trans (Nat.le_succ _),?_⟩
      exact fun c member => (inv.told.past c member).trans (Nat.le_succ _)
    · rw [shared']
      refine forall_of_others (P := fun _ l => l.pc ≠ .idle → l.called ≤ s.shared.time + 1) others ?_
        fun j _ busy => (inv.told.begun j busy).trans (Nat.le_succ _)
      rw [after]
      exact fun busy => absurd rfl busy
    · exact inv.locks.unlock p.small p.distinct others (by rw [before]; rfl) (by rw [after]; rfl)
    · rw [shared']
      exact fun _ => ⟨done.rep.set_m _,done.kept⟩
    · refine forall_of_others (P := fun _ l => Local p s'.shared _ l) others (by rw [after]; trivial) ?_
      exact fun j other => (inv.each j).frame (alone rfl j other)

theorem explained {p : Setup α n} {s : State α n} (reach : Reachable p.system s) : ∃ xs, Inv p s xs := by
  induction reach with
  | init first => exact ⟨[],.start first⟩
  | step _ _ moved ih =>
    obtain ⟨xs,inv⟩ := ih
    exact inv.step moved

/-- The stack is linearizable to a list of at most `tsz` elements: calls take effect in
    the order in which they return, and between calls the stack represents that list. -/
theorem stack_linearizable {p : Setup α n} {s : State α n} (reach : Reachable p.system s) :
    ∃ xs, Linearizes (bounded p.tsz) [] s.shared.log s.shared.log.reverse xs ∧
      ((∀ i, holds (s.loc i) = false) → Rep p.arr p.tsz s.shared.q s.shared.mem xs ∧ 0 ≤ s.shared.q.n ∧
        Kept p s.shared.mem) := by
  obtain ⟨xs,inv⟩ := explained reach
  refine ⟨xs,inv.told.history,fun none => ?_⟩
  obtain ⟨rep,kept⟩ := inv.between none
  have count : 0 ≤ s.shared.q.n := by
    rw [rep.n]
    exact Int.natCast_nonneg _
  exact ⟨rep,count,kept⟩

def pair : Setup Nat 2 := ⟨0,1,fun _ => 0,fun i => i.val,Bits.val_small,Bits.val_distinct⟩

def pairStart : State Nat 2 := ⟨⟨stack_init 0 1,fun _ => 0,0,[]⟩,fun _ => ⟨.idle,.push,0,0,0⟩⟩

/-- What calls have returned, the last one first, while no vCPU holds the mutex. -/
def results (s : State Nat 2) : Option (List (Op × Int × Nat)) :=
  if ∀ i, holds (s.loc i) = false then some (s.shared.log.map fun c => (c.op.1,c.res)) else none

/-- vCPU 1 has to wait for the push of vCPU 0 and finds the stack full. -/
theorem stack_linearizable_pair : ∃ s, Reachable pair.system s ∧ results s = some [(.pop,0,5),(.push,-1,7),(.push,0,5)] ∧
    ∃ xs, Linearizes (bounded pair.tsz) [] s.shared.log s.shared.log.reverse xs ∧
      ((∀ i, holds (s.loc i) = false) →
        Rep pair.arr pair.tsz s.shared.q s.shared.mem xs ∧ 0 ≤ s.shared.q.n ∧ Kept pair s.shared.mem) := by
  have first : pair.system.init pairStart := ⟨rfl,fun _ => rfl⟩
  have ran : (exec pair.system pairStart ([(0,(.push,5)),(1,(.push,7)),(0,(.push,0)),(1,(.push,0)),(1,(.push,0))] ++
      List.replicate 9 (0,(.push,0)) ++ List.replicate 4 (1,(.push,0)) ++ List.replicate 11 (1,(.pop,0)))).any
      (fun s => results s = some [(.pop,0,5),(.push,-1,7),(.push,0,5)]) = true := by
    decide +kernel
  obtain ⟨s,reach,returned⟩ := exec_exists first (fun _ _ _ => trivial) ran
  exact ⟨s,reach,of_decide_eq_true returned,stack_linearizable reach⟩

end Bootcode.Stack
