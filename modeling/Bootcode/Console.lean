import Bootcode.Interleave
import Bootcode.Mutex
import Bootcode.PrintfText

/-!
`printf_` on any number of vCPUs that share the serial port. A call gives its
characters out one at a time, other vCPUs between them, but under `mutex_printf`:
what the port has sent is what the calls would have sent one after the other, in
the order in which they took the mutex, up to what the last has still to send.
-/
namespace Bootcode.Console
open Bootcode.Mutex Bootcode.Interleave Bootcode.Printf Bootcode.PrintfText

structure Call where
  format : List Char
  va : VaList

/-- `printf_`: before each access of `mutex_lock`, before each character of
    `_vsnprintf`, and before `mutex_unlock`. -/
inductive Pc
  | idle
  | lock (k : LockPc) (call : Call)
  | out (rest : List Char)
  | unlock

/-- `calls` are those that the vCPU has still to make. -/
structure Vcpu where
  pc : Pc
  calls : List Call

/-- `log` is the history of the calls that took the mutex, newest first. -/
structure Shared (ι : Type) where
  mutex_printf : Word
  sent : List Char
  log : List (ι × Call)

section
variable {ι : Type} (env : Env) (id : ι → Nat)

/-- One step of a vCPU; a call that reads where it may not does not go on. -/
def printf_ (i : ι) (s : Shared ι) (v : Vcpu) : Option (Shared ι × Vcpu) :=
  match v.pc with
  | .idle =>
    match v.calls with
    | [] => none
    | call :: calls => some (s,⟨.lock (.cmpxchg Mutex.RETRY_COUNT) call,calls⟩)
  | .lock k call =>
    match mutex_lock (id i) k s.mutex_printf with
    | (m,some k) => some ({ s with mutex_printf := m },{ v with pc := .lock k call })
    | (m,none) =>
      match text env call.format call.va with
      | .ok t => some (⟨m,s.sent,(i,call) :: s.log⟩,{ v with pc := .out t.1 })
      | .error _ => none
  | .out (c :: rest) => some ({ s with sent := out_char c s.sent 0 SIZE_MAX },{ v with pc := .out rest })
  | .out [] => some (s,{ v with pc := .unlock })
  | .unlock => some ({ s with mutex_printf := mutex_unlock s.mutex_printf },{ v with pc := .idle })

variable [DecidableEq ι]

/-- The vCPUs make the calls of `program`, from an empty port. -/
def console (program : ι → List Call) : System (Config ι (Shared ι) Vcpu) (ι × Unit) :=
  threads (fun s => s = ⟨⟨0,[],[]⟩,fun i => ⟨.idle,program i⟩⟩) fun i _ s v => printf_ env id i s v

/-- What calls send one after the other, each alone. -/
def serial : List (ι × Call) → List Char
  | [] => []
  | (_,call) :: log =>
    match Printf.printf env (serial log) call.format call.va with
    | .ok r => r.1
    | .error _ => serial log

def holds (v : Vcpu) : Bool :=
  match v.pc with
  | .out _ | .unlock => true
  | _ => false

/-- What the vCPU has still to send of its call. -/
def unsent (v : Vcpu) : List Char :=
  match v.pc with
  | .out rest => rest.filter (· ≠ NUL)
  | _ => []

/-- The calls that the vCPU has made before it takes the mutex, and after. -/
def waiting (v : Vcpu) : List Call :=
  match v.pc with
  | .lock _ call => call :: v.calls
  | _ => v.calls
def made (i : ι) (log : List (ι × Call)) : List Call := (log.filter (·.1 = i)).reverse.map Prod.snd

/-- The port while vCPU `i` holds the mutex: the newest call is its own, and those before
    are sent whole. -/
def Sending (i : ι) (s : Shared ι) (v : Vcpu) : Prop :=
  ∃ call older, s.log = (i,call) :: older ∧ serial env older <+: s.sent ∧ s.sent ++ unsent v = serial env s.log

structure Orderly (program : ι → List Call) (s : Config ι (Shared ι) Vcpu) : Prop where
  locks : Locks id holds s.shared.mutex_printf s.loc
  held : ∀ i, holds (s.loc i) = true → Sending env i s.shared (s.loc i)
  free : (∀ i, holds (s.loc i) = false) → s.shared.sent = serial env s.shared.log
  program : ∀ i, made i s.shared.log ++ waiting (s.loc i) = program i

omit [DecidableEq ι] in
theorem serial_cons (i : ι) {call : Call} {t : List Char × VaList} (said : text env call.format call.va = .ok t)
    (log : List (ι × Call)) :
    serial env ((i,call) :: log) = serial env log ++ t.1.filter (· ≠ NUL) := by
  simp only [serial,printf_sent,said,Except.map]

theorem made_cons (i j : ι) (call : Call) (log : List (ι × Call)) :
    made i ((j,call) :: log) = made i log ++ if j = i then [call] else [] := by
  unfold made
  by_cases same : j = i <;> simp [same]

/-- What one step does. -/
inductive Step (i : ι) (s : Shared ι) : Vcpu → Shared ι → Vcpu → Prop
  | call (call : Call) (calls : List Call) :
      Step i s ⟨.idle,call :: calls⟩ s ⟨.lock (.cmpxchg Mutex.RETRY_COUNT) call,calls⟩
  | spin {k k' : LockPc} {m : Word} (call : Call) (calls : List Call)
      (ran : mutex_lock (id i) k s.mutex_printf = (m,some k')) :
      Step i s ⟨.lock k call,calls⟩ { s with mutex_printf := m } ⟨.lock k' call,calls⟩
  | take {k : LockPc} {m : Word} {call : Call} {t : List Char × VaList} (calls : List Call)
      (ran : mutex_lock (id i) k s.mutex_printf = (m,none)) (said : text env call.format call.va = .ok t) :
      Step i s ⟨.lock k call,calls⟩ ⟨m,s.sent,(i,call) :: s.log⟩ ⟨.out t.1,calls⟩
  | send (c : Char) (rest : List Char) (calls : List Call) :
      Step i s ⟨.out (c :: rest),calls⟩ { s with sent := out_char c s.sent 0 SIZE_MAX } ⟨.out rest,calls⟩
  | done (calls : List Call) : Step i s ⟨.out [],calls⟩ s ⟨.unlock,calls⟩
  | give (calls : List Call) : Step i s ⟨.unlock,calls⟩ { s with mutex_printf := 0 } ⟨.idle,calls⟩

omit [DecidableEq ι] in
theorem printf_step {i : ι} {s s' : Shared ι} {v v' : Vcpu} (moved : printf_ env id i s v = some (s',v')) :
    Step env id i s v s' v' := by
  obtain ⟨pc,calls⟩ := v
  cases pc with
  | idle =>
    cases calls with
    | nil => cases moved
    | cons call calls => cases moved; exact .call call calls
  | lock k call =>
    simp only [printf_] at moved
    split at moved
    · rename_i m k' ran
      cases moved
      exact .spin call calls ran
    · rename_i m ran
      split at moved
      · rename_i t said
        cases moved
        exact .take calls ran said
      · cases moved
  | out rest =>
    cases rest with
    | nil => cases moved; exact .done calls
    | cons c rest => cases moved; exact .send c rest calls
  | unlock => cases moved; exact .give calls

/-- Steps of one vCPU while the others stand still. -/
def Alone (i : ι) : Shared ι × Vcpu → Shared ι × Vcpu → Prop :=
  Relation.ReflTransGen fun c c' => printf_ env id i c.1 c.2 = some c'

/-- What calls send one after the other, whoever makes them. -/
def prints (sent : List Char) : List Call → Except Fault (List Char)
  | [] => .ok sent
  | call :: calls => do
    let r ← Printf.printf env sent call.format call.va
    prints r.1 calls

theorem prints_append (sent : List Char) (calls later : List Call) :
    prints env sent (calls ++ later) = prints env sent calls >>= fun sent => prints env sent later := by
  induction calls generalizing sent with
  | nil => rfl
  | cons call calls ih =>
    simp only [List.cons_append,prints]
    cases Printf.printf env sent call.format call.va with
    | error fault => rfl
    | ok r => exact ih r.1

section
omit [DecidableEq ι]
variable {env id} {i : ι}

theorem alone_sends (rest : List Char) (calls : List Call) (s : Shared ι) :
    Alone env id i (s,⟨.out rest,calls⟩) ({ s with sent := s.sent ++ rest.filter (· ≠ NUL) },⟨.out [],calls⟩) := by
  induction rest generalizing s with
  | nil =>
    rw [List.filter_nil,List.append_nil]
    exact .refl
  | cons c rest ih =>
    refine .head rfl ?_
    have same : out_char c s.sent 0 SIZE_MAX ++ rest.filter (· ≠ NUL) = s.sent ++ (c :: rest).filter (· ≠ NUL) := by
      by_cases nul : c = NUL <;> simp [out_char,nul]
    rw [← same]
    exact ih { s with sent := out_char c s.sent 0 SIZE_MAX }

/-- `printf` is what a call of `printf_` comes to that finds the mutex free. -/
theorem alone_prints {call : Call} {s : Shared ι} {r : List Char × BitVec 32 × VaList} (free : s.mutex_printf = 0)
    (ran : Printf.printf env s.sent call.format call.va = .ok r) (calls : List Call) :
    Alone env id i (s,⟨.idle,call :: calls⟩) (⟨0,r.1,(i,call) :: s.log⟩,⟨.idle,calls⟩) := by
  rw [printf_sent] at ran
  cases said : text env call.format call.va with
  | error fault =>
    rw [said] at ran
    cases ran
  | ok t =>
    rw [said] at ran
    cases ran
    have takes : printf_ env id i s ⟨.lock (.cmpxchg Mutex.RETRY_COUNT) call,calls⟩ =
        some (⟨(1 : Word) <<< id i,s.sent,(i,call) :: s.log⟩,⟨.out t.1,calls⟩) := by
      simp only [printf_,mutex_lock,free,if_true,said]
    have tries : Alone env id i (s,⟨.idle,call :: calls⟩) (s,⟨.lock (.cmpxchg Mutex.RETRY_COUNT) call,calls⟩) := .single rfl
    have gives : ∀ s : Shared ι, Alone env id i (s,⟨.out [],calls⟩) ({ s with mutex_printf := 0 },⟨.idle,calls⟩) := fun s =>
      .tail (.single (show printf_ env id i s ⟨.out [],calls⟩ = some (s,⟨.unlock,calls⟩) from rfl)) rfl
    exact (tries.tail takes).trans ((alone_sends t.1 calls _).trans (gives _))

theorem alone_prints_all {calls : List Call} {sent sent' : List Char} (ran : prints env sent calls = .ok sent')
    (log : List (ι × Call)) :
    Alone env id i (⟨0,sent,log⟩,⟨.idle,calls⟩) (⟨0,sent',(calls.map (i,·)).reverse ++ log⟩,⟨.idle,[]⟩) := by
  induction calls generalizing sent log with
  | nil =>
    cases ran
    exact .refl
  | cons call calls ih =>
    obtain ⟨r,first,later⟩ := bind_ok ran
    have rest := ih later ((i,call) :: log)
    rw [List.map_cons,List.reverse_cons,List.append_assoc,List.singleton_append]
    exact (alone_prints rfl first calls).trans rest

/-- While the mutex is taken, a vCPU waits for it and sends nothing, even if it is the
    one that has taken it. -/
theorem alone_waits {s : Shared ι} (taken : s.mutex_printf ≠ 0) {call : Call} {calls : List Call} {c : Shared ι × Vcpu}
    (reach : Alone env id i (s,⟨.idle,call :: calls⟩) c) :
    c.1 = s ∧ (c.2 = ⟨.idle,call :: calls⟩ ∨ ∃ k, c.2 = ⟨.lock k call,calls⟩) := by
  induction reach with
  | refl => exact ⟨rfl,.inl rfl⟩
  | @tail b c _ moved ih =>
    obtain ⟨sh,v⟩ := b
    obtain ⟨rfl,rfl | ⟨k,rfl⟩⟩ := ih
    · cases moved
      exact ⟨rfl,.inr ⟨_,rfl⟩⟩
    · cases ran : mutex_lock (id i) k sh.mutex_printf with
      | mk m next =>
        cases next with
        | none => exact absurd (mutex_lock_none ran).1 taken
        | some k' =>
          have same := mutex_lock_some ran
          simp only [printf_,ran] at moved
          cases moved
          exact ⟨by rw [same],.inr ⟨k',rfl⟩⟩

end

variable {env id} {program : ι → List Call} {s s' : Config ι (Shared ι) Vcpu} {i : ι}

/-- A step that the port and the history do not see. -/
theorem Orderly.still (orderly : Orderly env id program s) (others : ∀ j, j ≠ i → s'.loc j = s.loc j)
    (word : s'.shared.mutex_printf = s.shared.mutex_printf) (sent : s'.shared.sent = s.shared.sent)
    (log : s'.shared.log = s.shared.log)
    (same : holds (s'.loc i) = holds (s.loc i) ∧ unsent (s'.loc i) = unsent (s.loc i) ∧
      waiting (s'.loc i) = waiting (s.loc i)) :
    Orderly env id program s' := by
  have all : ∀ j, holds (s'.loc j) = holds (s.loc j) ∧ unsent (s'.loc j) = unsent (s.loc j) ∧
    waiting (s'.loc j) = waiting (s.loc j) := by
    intro j
    by_cases mine : j = i
    · subst mine
      exact same
    · rw [others j mine]
      exact ⟨rfl,rfl,rfl⟩
  constructor
  · exact orderly.locks.still others word same.1
  · intro j is
    rw [(all j).1] at is
    unfold Sending
    rw [sent,log,(all j).2.1]
    exact orderly.held j is
  · intro none
    rw [sent,log]
    exact orderly.free fun j => (all j).1.symm.trans (none j)
  · intro j
    rw [log,(all j).2.2]
    exact orderly.program j

/-- A step of the vCPU that holds the mutex, or takes it. -/
theorem Orderly.alone (locks : Locks id holds s'.shared.mutex_printf s'.loc)
    (others : ∀ j, j ≠ i → s'.loc j = s.loc j) (free : ∀ j, j ≠ i → holds (s.loc j) = false)
    (held : holds (s'.loc i) = true → Sending env i s'.shared (s'.loc i))
    (gone : holds (s'.loc i) = false → s'.shared.sent = serial env s'.shared.log)
    (calls : ∀ j, made j s'.shared.log ++ waiting (s'.loc j) = program j) : Orderly env id program s' := by
  refine ⟨locks,fun j is => ?_,fun none => gone (none i),calls⟩
  by_cases mine : j = i
  · subst mine
    exact held is
  · rw [others j mine,free j mine] at is
    cases is

theorem Orderly.step (small : ∀ i, id i < 64) (distinct : Function.Injective id)
    (orderly : Orderly env id program s) {x : Unit}
    (moved : (console env id program).step s (i,x) = some s') : Orderly env id program s' := by
  obtain ⟨sh,v,ran,shared,loc,others⟩ := threads_moved moved
  have step := printf_step env id ran
  -- The others have the calls that they had, and so has the vCPU that moves.
  have calls : s'.shared.log = s.shared.log → waiting v = waiting (s.loc i) → ∀ j, made j s'.shared.log ++
    waiting (s'.loc j) = program j := by
    intro log same j
    rw [log,← orderly.program j]
    by_cases mine : j = i
    · subst mine
      rw [loc,same]
    · rw [others j mine]
  have alone : holds (s.loc i) = true → ∀ j, j ≠ i → holds (s.loc j) = false := by
    intro held j other
    by_contra is
    exact other (orderly.locks.unique small distinct (by simpa using is) held)
  generalize before : s.loc i = v0 at step calls alone
  cases step with
  | call call calls =>
    apply orderly.still others
    · rw [shared]
    · rw [shared]
    · rw [shared]
    · rw [loc,before]
      exact ⟨rfl,rfl,rfl⟩
  | spin call calls tried =>
    apply orderly.still others
    · rw [shared]
      exact mutex_lock_some tried
    · rw [shared]
    · rw [shared]
    · rw [loc,before]
      exact ⟨rfl,rfl,rfl⟩
  | @take k m call t rest tried said =>
    have nobody := orderly.locks.free small (mutex_lock_none tried).1
    refine Orderly.alone ?_ others (fun j _ => nobody j) ?_ ?_ ?_
    · rw [shared]
      exact orderly.locks.lock small (k := k) (r := none) others tried (by rw [before]; rfl) (by rw [loc]; rfl)
    · intro _
      rw [shared,loc]
      refine ⟨call,s.shared.log,rfl,?_,?_⟩
      · rw [orderly.free nobody]
      · rw [serial_cons env i said,← orderly.free nobody]
        rfl
    · intro out
      rw [loc] at out
      cases out
    · intro j
      rw [shared,made_cons,← orderly.program j]
      by_cases mine : j = i
      · subst mine
        rw [loc,before,if_pos rfl]
        simp [waiting]
      · rw [others j mine,if_neg (Ne.symm mine),List.append_nil]
  | send c rest calls' =>
    refine Orderly.alone ?_ others (alone rfl) ?_ ?_ (calls (by rw [shared]) rfl)
    · rw [shared]
      exact orderly.locks.still others rfl (by rw [loc,before]; rfl)
    · intro _
      obtain ⟨call,older,newest,whole,left⟩ := orderly.held i (by rw [before]; rfl)
      rw [before] at left
      rw [shared,loc]
      refine ⟨call,older,newest,whole.trans ?_,?_⟩
      · by_cases nul : c = NUL <;> simp [out_char,nul]
      · rw [← left]
        by_cases nul : c = NUL <;> simp [unsent,out_char,nul]
    · intro out
      rw [loc] at out
      cases out
  | done calls =>
    apply orderly.still others
    · rw [shared]
    · rw [shared]
    · rw [shared]
    · rw [loc,before]
      exact ⟨rfl,rfl,rfl⟩
  | give calls' =>
    refine Orderly.alone ?_ others (alone rfl) ?_ ?_ (calls (by rw [shared]) rfl)
    · exact orderly.locks.unlock small distinct others (by rw [before]; rfl) (by rw [loc]; rfl)
    · intro is
      rw [loc] at is
      cases is
    · intro _
      obtain ⟨call,older,-,-,left⟩ := orderly.held i (by rw [before]; rfl)
      rw [before] at left
      rw [shared,← left]
      exact (List.append_nil _).symm

theorem Orderly.start (first : (console env id program).init s) : Orderly env id program s := by
  have first : s = ⟨⟨0,[],[]⟩,fun i => ⟨.idle,program i⟩⟩ := first
  subst first
  constructor
  · intro i is
    cases is
  · intro i is
    cases is
  · exact fun _ => rfl
  · exact fun _ => rfl

theorem orderly (small : ∀ i, id i < 64) (distinct : Function.Injective id) (reach : Reachable (console env id program) s) :
    Orderly env id program s :=
  reach.invariant (fun _ first => Orderly.start first) fun _ _ _ _ before _ moved => before.step small distinct moved

/-- No character of a call stands among those of another. -/
theorem console_serial (small : ∀ i, id i < 64) (distinct : Function.Injective id)
    (reach : Reachable (console env id program) s) :
    (∀ i, holds (s.loc i) = true → ∃ call older, s.shared.log = (i,call) :: older ∧ serial env older <+: s.shared.sent ∧
      s.shared.sent ++ unsent (s.loc i) = serial env s.shared.log) ∧
    ((∀ i, holds (s.loc i) = false) → s.shared.sent = serial env s.shared.log) ∧
    ∀ i, made i s.shared.log ++ waiting (s.loc i) = program i := by
  have inv := orderly small distinct reach
  exact ⟨inv.held,inv.free,inv.program⟩

end

/-- vCPU 0 prints a number, and vCPU 1 a line. -/
def greetings (i : Fin 2) : List Call :=
  if i.val = 0 then [⟨"id %d\n".toList ++ [NUL],⟨[7],[]⟩⟩] else [⟨"up\n".toList ++ [NUL],⟨[],[]⟩⟩]

/-- vCPU 1 calls while vCPU 0 has given two characters out. -/
theorem console_serial_two : ∃ s, Reachable (console silent Fin.val greetings) s ∧ s.shared.sent = "id 7\nup".toList ∧
    ((∀ i, holds (s.loc i) = true → ∃ call older, s.shared.log = (i,call) :: older ∧ serial silent older <+: s.shared.sent ∧
      s.shared.sent ++ unsent (s.loc i) = serial silent s.shared.log) ∧
    ((∀ i, holds (s.loc i) = false) → s.shared.sent = serial silent s.shared.log) ∧
    ∀ i, made i s.shared.log ++ waiting (s.loc i) = greetings i) := by
  have ran : (exec (console silent Fin.val greetings) ⟨⟨0,[],[]⟩,fun i => ⟨.idle,greetings i⟩⟩
      (List.replicate 4 (0,()) ++ List.replicate 3 (1,()) ++ List.replicate 5 (0,()) ++ List.replicate 3 (1,()))).any
      (fun s => s.shared.sent = "id 7\nup".toList) = true := by
    decide +kernel
  obtain ⟨s,reach,sent⟩ := exec_exists (S := console silent Fin.val greetings) rfl (fun _ _ _ => trivial) ran
  exact ⟨s,reach,of_decide_eq_true sent,console_serial Bits.val_small Bits.val_distinct reach⟩

end Bootcode.Console
