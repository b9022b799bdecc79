import Mathlib.Data.BitVec
import Mathlib.Data.List.Basic
import Mathlib.Data.Set.Insert
import Mathlib.Logic.Function.Basic

/-!
The bit packs of `apic.h` as sets of vectors. A set inserts its vector, but a reset
leaves its own bit as it is and flips all others of the word, so that the pack holds
the right set only when such flips cancel.
-/
namespace Bootcode.Apic

structure apic_bit_pack_t where
  bits : BitVec 32
  reserved : Fin 12 → BitVec 8

abbrev Pack := Nat → apic_bit_pack_t

def off (vec : BitVec 8) : Nat := vec.toNat / 0x20
def bitn (vec : BitVec 8) : Nat := vec.toNat % 0x20
/-- `(uint32_t)(0x1 << bitn)` -/
def mask (vec : BitVec 8) : BitVec 32 := 0x1 <<< bitn vec

def read_apic_bit_pack (bit_pack : Pack) (vec : BitVec 8) : BitVec 8 :=
  let ret := (bit_pack (off vec)).bits &&& mask vec
  if ret = 0 then 0 else 1

def set_apic_bit_pack (bit_pack : Pack) (vec : BitVec 8) : Pack :=
  let word := bit_pack (off vec)
  Function.update bit_pack (off vec) { word with bits := word.bits ||| mask vec }

def reset_apic_bit_pack (bit_pack : Pack) (vec : BitVec 8) : Pack :=
  let word := bit_pack (off vec)
  Function.update bit_pack (off vec) { word with bits := word.bits ^^^ ~~~ mask vec }

inductive Call
  | set (vec : BitVec 8)
  | reset (vec : BitVec 8)
  deriving DecidableEq

def Call.run (bit_pack : Pack) : Call → Pack
  | .set vec => set_apic_bit_pack bit_pack vec
  | .reset vec => reset_apic_bit_pack bit_pack vec
def runs (calls : List Call) (bit_pack : Pack) : Pack := calls.foldl Call.run bit_pack

def Call.apply (vecs : Set (BitVec 8)) : Call → Set (BitVec 8)
  | .set vec => insert vec vecs
  | .reset vec => vecs \ {vec}
def applies (calls : List Call) (vecs : Set (BitVec 8)) : Set (BitVec 8) := calls.foldl Call.apply vecs

/-- The vectors for which a read returns 1. -/
def vectors (bit_pack : Pack) : Set (BitVec 8) := {vec | read_apic_bit_pack bit_pack vec = 1}

/-- The calls do to the pack what they do to its set, and spare the reserved bytes. -/
structure Implements (bit_pack : Pack) (calls : List Call) : Prop where
  reads : vectors (runs calls bit_pack) = applies calls (vectors bit_pack)
  reserved : ∀ k, (runs calls bit_pack k).reserved = (bit_pack k).reserved

/-! ### Which flips cancel -/

/-- The calls after the last set of the vector, or all of them. -/
def since (vec : BitVec 8) (calls : List Call) : List Call := calls.reverse.takeWhile (· ≠ .set vec)

/-- A reset of another vector in the same word. -/
def disturbs (vec : BitVec 8) : Call → Bool
  | .set _ => false
  | .reset other => other ≠ vec && off other = off vec

/-- Since a vector was last set the others of its word have been reset an odd number of
    times if it was in the set then and has been reset, and else an even number. -/
def Cancels (bit_pack : Pack) (calls : List Call) : Prop :=
  ∀ vec, (since vec calls).countP (disturbs vec) % 2 = 1 ↔
    (.set vec ∈ calls ∨ vec ∈ vectors bit_pack) ∧ .reset vec ∈ since vec calls

def bit (bit_pack : Pack) (vec : BitVec 8) : Bool := (bit_pack (off vec)).bits.getLsbD (bitn vec)

theorem bitn_lt (vec : BitVec 8) : bitn vec < 32 := Nat.mod_lt _ (by omega)
theorem vec_ext {vec other : BitVec 8} : other = vec ↔ off other = off vec ∧ bitn other = bitn vec := by
  constructor
  · rintro rfl
    exact ⟨rfl,rfl⟩
  · rintro ⟨word,low⟩
    apply BitVec.eq_of_toNat_eq
    unfold off bitn at *
    omega

theorem getLsbD_mask (vec : BitVec 8) (j : Nat) : (mask vec).getLsbD j = decide (bitn vec = j) := by
  have single := BitVec.getLsbD_twoPow (w := 32) (bitn vec) j
  rw [decide_eq_true (bitn_lt vec),Bool.true_and] at single
  exact single

theorem and_mask (x : BitVec 32) (vec : BitVec 8) : x &&& mask vec = if x.getLsbD (bitn vec) then mask vec else 0 :=
  BitVec.and_twoPow x (bitn vec)

theorem mem_vectors {bit_pack : Pack} {vec : BitVec 8} : vec ∈ vectors bit_pack ↔ bit bit_pack vec = true := by
  have nonzero : mask vec ≠ 0#32 := by
    intro same
    have lost := congrArg (·.getLsbD (bitn vec)) same
    simp [getLsbD_mask] at lost
  change read_apic_bit_pack bit_pack vec = 1 ↔ _
  rw [read_apic_bit_pack,and_mask,bit]
  cases (bit_pack (off vec)).bits.getLsbD (bitn vec) <;> simp [nonzero]

theorem bit_set (bit_pack : Pack) (vec other : BitVec 8) :
    bit (set_apic_bit_pack bit_pack other) vec = (bit bit_pack vec || decide (other = vec)) := by
  simp only [bit,set_apic_bit_pack]
  by_cases word : off other = off vec
  · rw [word,Function.update_self,BitVec.getLsbD_or,getLsbD_mask]
    simp [vec_ext,word]
  · rw [Function.update_of_ne (Ne.symm word)]
    simp [vec_ext,word]

theorem bit_reset (bit_pack : Pack) (vec other : BitVec 8) :
    bit (reset_apic_bit_pack bit_pack other) vec = (bit bit_pack vec ^^ disturbs vec (.reset other)) := by
  simp only [bit,reset_apic_bit_pack,disturbs]
  by_cases word : off other = off vec
  · rw [word,Function.update_self,BitVec.getLsbD_xor,BitVec.getLsbD_not,getLsbD_mask]
    simp [vec_ext,word,bitn_lt vec]
  · rw [Function.update_of_ne (Ne.symm word)]
    simp [word]

theorem since_append (vec : BitVec 8) (calls : List Call) (c : Call) :
    since vec (calls ++ [c]) = if c = .set vec then [] else c :: since vec calls := by
  rw [since,List.reverse_append,List.reverse_singleton,List.singleton_append,List.takeWhile_cons]
  by_cases is : c = .set vec
  · simp [is]
  · simp [is,since]

/-- What the calls leave in a bit: it is as after its last set, but for the flips. -/
theorem bit_runs (bit_pack : Pack) (calls : List Call) (vec : BitVec 8) :
    bit (runs calls bit_pack) vec =
      (decide (.set vec ∈ calls ∨ bit bit_pack vec = true) ^^ decide ((since vec calls).countP (disturbs vec) % 2 = 1)) := by
  induction calls using List.reverseRecOn with
  | nil => simp [runs,since]
  | append_singleton calls c ih =>
    have last : runs (calls ++ [c]) bit_pack = c.run (runs calls bit_pack) := List.foldl_concat ..
    rw [last,since_append]
    cases c with
    | set other =>
      simp only [Call.run,bit_set,ih,Call.set.injEq,List.mem_append,List.mem_singleton]
      by_cases same : other = vec
      · simp [same]
      · have fresh : ¬ vec = other := Ne.symm same
        simp [same,fresh,disturbs]
    | reset other =>
      simp only [Call.run,bit_reset,ih,reduceCtorEq,if_false,List.countP_cons,List.mem_append,List.mem_singleton,or_false]
      cases disturbs vec (.reset other) with
      | false => simp
      | true =>
        have flips : decide ((List.countP (disturbs vec) (since vec calls) + 1) % 2 = 1) =
            !decide (List.countP (disturbs vec) (since vec calls) % 2 = 1) := by
          rw [← decide_not]
          exact decide_eq_decide.mpr (by omega)
        simp [flips]

/-- A vector is in the set if it once was and has not been erased since. -/
theorem mem_applies (vecs : Set (BitVec 8)) (calls : List Call) (vec : BitVec 8) :
    vec ∈ applies calls vecs ↔ (.set vec ∈ calls ∨ vec ∈ vecs) ∧ .reset vec ∉ since vec calls := by
  induction calls using List.reverseRecOn with
  | nil => simp [applies,since]
  | append_singleton calls c ih =>
    have last : applies (calls ++ [c]) vecs = c.apply (applies calls vecs) := List.foldl_concat ..
    rw [last,since_append]
    cases c with
    | set other =>
      simp only [Call.apply,Set.mem_insert_iff,ih,Call.set.injEq,List.mem_append,List.mem_singleton]
      by_cases same : other = vec
      · simp [same]
      · have fresh : ¬ vec = other := Ne.symm same
        simp [same,fresh]
    | reset other =>
      have fresh : Call.set vec ∈ calls ++ [.reset other] ↔ Call.set vec ∈ calls := by simp
      simp only [Call.apply,Set.mem_sdiff,Set.mem_singleton_iff,ih,fresh,reduceCtorEq,if_false,List.mem_cons,
        Call.reset.injEq,not_or,and_assoc]
      exact and_congr_right' and_comm

theorem reserved_runs (bit_pack : Pack) (calls : List Call) (k : Nat) :
    (runs calls bit_pack k).reserved = (bit_pack k).reserved := by
  induction calls generalizing bit_pack with
  | nil => rfl
  | cons c calls ih =>
    refine (ih (c.run bit_pack)).trans ?_
    cases c with
    | set vec | reset vec =>
      by_cases word : k = off vec
      · simp [Call.run,set_apic_bit_pack,reset_apic_bit_pack,word]
      · simp [Call.run,set_apic_bit_pack,reset_apic_bit_pack,Function.update_of_ne word]

/-- A sequence of calls does what it should exactly if the flips of its resets cancel
    wherever they should. -/
theorem apic_bit_pack_iff (bit_pack : Pack) (calls : List Call) : Implements bit_pack calls ↔ Cancels bit_pack calls := by
  have agree : ∀ vec, (vec ∈ vectors (runs calls bit_pack) ↔ vec ∈ applies calls (vectors bit_pack)) ↔
      ((since vec calls).countP (disturbs vec) % 2 = 1 ↔
        (.set vec ∈ calls ∨ vec ∈ vectors bit_pack) ∧ .reset vec ∈ since vec calls) := by
    intro vec
    simp only [mem_vectors,bit_runs,mem_applies]
    by_cases member : Call.set vec ∈ calls ∨ bit bit_pack vec = true <;>
      by_cases odd : (since vec calls).countP (disturbs vec) % 2 = 1 <;>
        by_cases erased : Call.reset vec ∈ since vec calls <;> simp [member,odd,erased]
  constructor
  · intro implements vec
    exact (agree vec).mp (by rw [implements.reads])
  · intro cancels
    exact ⟨Set.ext fun vec => (agree vec).mpr (cancels vec),reserved_runs bit_pack calls⟩

/-- Without resets nothing is flipped. -/
theorem implements_of_sets (bit_pack : Pack) {calls : List Call} (sets : ∀ vec, .reset vec ∉ calls) :
    Implements bit_pack calls := by
  refine (apic_bit_pack_iff bit_pack calls).mpr fun vec => ?_
  have none : ∀ other, .reset other ∉ since vec calls := fun other member =>
    sets other (List.mem_reverse.mp ((List.takeWhile_sublist _).mem member))
  have zero : (since vec calls).countP (disturbs vec) = 0 := by
    refine List.countP_eq_zero.mpr fun c member => ?_
    cases c with
    | set other => simp [disturbs]
    | reset other => exact absurd member (none other)
  simp [zero,none]

/-- Reset of the only vector in the set leaves it there and adds the rest of its word. -/
theorem reset_inserts : ¬ ∀ bit_pack calls, Implements bit_pack calls := by
  intro packs
  have reads := (packs (fun _ => ⟨0x20,fun _ => 0⟩) [.reset 5]).reads
  have five : (5 : BitVec 8) ∈ applies [.reset 5] (vectors fun _ => ⟨0x20,fun _ => 0⟩) := by
    rw [← reads]
    exact mem_vectors.mpr (by decide)
  exact five.2 rfl

end Bootcode.Apic
