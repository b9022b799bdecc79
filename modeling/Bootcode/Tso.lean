import Mathlib.Logic.Function.Basic
import Mathlib.Data.Option.Basic

/-!
Programs of memory accesses on a hypervisor, and two machines that run them:
one with sequentially consistent memory, and x86-TSO, where a plain store waits
in a buffer of its thread while later loads of the thread go ahead. A kick
leaves a wake token that the next `hlt` of the kicked thread consumes.
-/
namespace Bootcode.Tso
variable {A V P Q : Type}

/-- The next access of a program, and where the program goes on after it. -/
inductive Access (A V P : Type)
  | load (a : A) (k : V → P)
  | store (a : A) (v : V) (k : P)
  /-- A lock-prefixed instruction; the program goes on with the old value. -/
  | rmw (a : A) (f : V → V) (k : V → P)
  | sfence (k : P)
  | yield (id : Nat) (k : P)
  | kick (id : Nat) (k : P)
  | hlt (k : P)

def Access.map (f : P → Q) : Access A V P → Access A V Q
  | .load a k => .load a fun x => f (k x)
  | .store a v k => .store a v (f k)
  | .rmw a g k => .rmw a g fun x => f (k x)
  | .sfence k => .sfence (f k)
  | .yield id k => .yield id (f k)
  | .kick id k => .kick id (f k)
  | .hlt k => .hlt (f k)

/-- The access is a plain store. -/
def Access.stores : Access A V P → Bool
  | .store _ _ _ => true
  | _ => false

/-- The memory, and the pending wake token of each thread. -/
structure Machine (A V : Type) where
  mem : A → V
  token : Nat → Bool

namespace Machine
variable [DecidableEq A] (m : Machine A V)

def set (a : A) (v : V) : Machine A V := { m with mem := Function.update m.mem a v }
def kick (id : Nat) : Machine A V := { m with token := Function.update m.token id true }
/-- A `hlt` returns spuriously, or by consuming a token, or not at all. -/
def hlt (id : Nat) (spurious : Bool) : Option (Machine A V) :=
  if spurious then some m
  else if m.token id then some { m with token := Function.update m.token id false } else none

@[simp] theorem set_self (a : A) (v : V) : (m.set a v).mem a = v := Function.update_self ..
theorem set_of_ne {a b : A} (v : V) (other : b ≠ a) : (m.set a v).mem b = m.mem b := Function.update_of_ne other ..
@[simp] theorem set_token (a : A) (v : V) : (m.set a v).token = m.token := rfl
omit [DecidableEq A] in
@[simp] theorem kick_mem (id : Nat) : (m.kick id).mem = m.mem := rfl
omit [DecidableEq A] in
@[simp] theorem kick_token_self (id : Nat) : (m.kick id).token id = true := Function.update_self ..
omit [DecidableEq A] in
/-- A kick takes no token away. -/
theorem kick_token {id j : Nat} (pending : m.token j = true) : (m.kick id).token j = true := by
  by_cases same : j = id
  · subst same
    exact m.kick_token_self j
  · exact (Function.update_of_ne same ..).trans pending

omit [DecidableEq A] in
theorem hlt_some {m m' : Machine A V} {id : Nat} {spurious : Bool} (woke : m.hlt id spurious = some m') :
    m'.mem = m.mem ∧ ∀ j, j ≠ id → m'.token j = m.token j := by
  unfold hlt at woke
  split at woke
  · cases woke
    exact ⟨rfl,fun _ _ => rfl⟩
  · split at woke
    · cases woke
      exact ⟨rfl,fun j other => Function.update_of_ne other ..⟩
    · cases woke

end Machine

section
variable [DecidableEq A] (id : Nat) (spurious : Bool) (m : Machine A V)

/-- One access of thread `id` under sequential consistency. -/
def Access.sc : Access A V P → Option (Machine A V × P)
  | .load a k => some (m,k (m.mem a))
  | .store a v k => some (m.set a v,k)
  | .rmw a f k => some (m.set a (f (m.mem a)),k (m.mem a))
  | .sfence k => some (m,k)
  | .yield _ k => some (m,k)
  | .kick j k => some (m.kick j,k)
  | .hlt k => (m.hlt id spurious).map fun m => (m,k)

theorem sc_map (f : P → Q) (x : Access A V P) : (x.map f).sc id spurious m =
    (x.sc id spurious m).map fun r => (r.1,f r.2) := by
  cases x with
  | hlt k => cases woke : m.hlt id spurious <;> simp [Access.map,Access.sc,woke]
  | _ => rfl

/-- The value that a thread with store buffer `buf` (oldest store first) loads. -/
def lookup (buf : List (A × V)) (a : A) : V := ((buf.reverse.find? fun e => e.1 = a).map Prod.snd).getD (m.mem a)

/-- One access under x86-TSO. A store goes into the buffer; an `sfence` keeps stores
    in order, which the buffer does anyway; lock-prefixed instructions and
    hypercalls wait until the buffer is empty. -/
def Access.tso (buf : List (A × V)) : Access A V P → Option (Machine A V × List (A × V) × P)
  | .load a k => some (m,buf,k (lookup m buf a))
  | .store a v k => some (m,buf ++ [(a,v)],k)
  | .rmw a f k => if buf.isEmpty then some (m.set a (f (m.mem a)),buf,k (m.mem a)) else none
  | .sfence k => some (m,buf,k)
  | .yield _ k => if buf.isEmpty then some (m,buf,k) else none
  | .kick j k => if buf.isEmpty then some (m.kick j,buf,k) else none
  | .hlt k => (m.hlt id spurious).map fun m => (m,buf,k)

/-- The oldest store of a buffer becomes visible. -/
def drain : List (A × V) → Option (Machine A V × List (A × V))
  | [] => none
  | (a,v) :: rest => some (m.set a v,rest)

/-- With an empty buffer every access but a store is sequentially consistent. -/
theorem tso_nil {x : Access A V P} (plain : x.stores = false) :
    x.tso id spurious m [] = (x.sc id spurious m).map fun r => (r.1,[],r.2) := by
  cases x with
  | store a v k => cases plain
  | hlt k => cases woke : m.hlt id spurious <;> simp [Access.tso,Access.sc,woke]
  | _ => rfl

end
end Bootcode.Tso
