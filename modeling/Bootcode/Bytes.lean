import Mathlib.Data.BitVec
import Mathlib.Data.List.Basic
import Mathlib.Logic.Function.Basic

/-!
Objects in a memory of bytes, seen as sequences of bits: programs of byte stores
(`memset`, and stores to the bit-fields of a packed structure), and which bits
they leave in an object.
-/
namespace Bootcode.Bytes
variable {A : Type}

abbrev Byte := BitVec 8

/-- The store of the bits of `v` that are in `mask`; the others come from the byte that
    was there. -/
structure Store (A : Type) where
  addr : A
  mask : Byte
  v : Byte

def Store.value (op : Store A) (old : Byte) : Byte := (op.v &&& op.mask) ||| (old &&& ~~~op.mask)

theorem value_whole {op : Store A} (whole : op.mask = -1) (old : Byte) : op.value old = op.v := by
  have ones : op.mask = BitVec.allOnes 8 := whole
  rw [Store.value,ones,BitVec.and_allOnes,BitVec.not_allOnes,BitVec.and_zero,BitVec.or_zero]

section
variable [DecidableEq A]

def Store.run (op : Store A) (mem : A → Byte) : A → Byte := Function.update mem op.addr (op.value (mem op.addr))

/-- All stores in turn. -/
def runs (ops : List (Store A)) (mem : A → Byte) : A → Byte := ops.foldl (fun mem op => op.run mem) mem

@[simp] theorem runs_nil (mem : A → Byte) : runs [] mem = mem := rfl
@[simp] theorem runs_cons (op : Store A) (ops : List (Store A)) (mem : A → Byte) :
    runs (op :: ops) mem = runs ops (op.run mem) := rfl
theorem runs_append (ops ops' : List (Store A)) (mem : A → Byte) : runs (ops ++ ops') mem = runs ops' (runs ops mem) :=
  List.foldl_append

theorem runs_out {ops : List (Store A)} {a : A} (out : ∀ op ∈ ops, op.addr ≠ a) (mem : A → Byte) :
    runs ops mem a = mem a := by
  induction ops generalizing mem with
  | nil => rfl
  | cons op ops ih =>
    rw [runs_cons,ih fun op member => out op (.tail _ member)]
    exact Function.update_of_ne (Ne.symm (out op (.head _))) ..

/-- What stores leave in bytes depends on what was in them alone. -/
theorem runs_congr {ops : List (Store A)} {P : A → Prop} {mem mem' : A → Byte} (same : ∀ a, P a → mem' a = mem a) :
    ∀ a, P a → runs ops mem' a = runs ops mem a := by
  induction ops generalizing mem mem' with
  | nil => exact same
  | cons op ops ih =>
    refine ih fun a is => ?_
    by_cases here : a = op.addr
    · subst here
      simp [Store.run,same _ is]
    · simp [Store.run,here,same a is]

/-- Stores to different bytes do not see each other. -/
theorem runs_in {ops : List (Store A)} (apart : (ops.map Store.addr).Nodup) {op : Store A} (member : op ∈ ops)
    (mem : A → Byte) :
    runs ops mem op.addr = op.value (mem op.addr) := by
  induction ops generalizing mem with
  | nil => cases member
  | cons first ops ih =>
    obtain ⟨new,apart⟩ := List.nodup_cons.mp apart
    rcases List.mem_cons.mp member with rfl | later
    · have out : ∀ op' ∈ ops, op'.addr ≠ op.addr := fun op' member' same =>
        new (List.mem_map.mpr ⟨op',member',same⟩)
      rw [runs_cons,runs_out out]
      exact Function.update_self ..
    · rw [runs_cons,ih apart later]
      have other : op.addr ≠ first.addr := fun same => new (List.mem_map.mpr ⟨op,later,same⟩)
      simp [Store.run,other]

end

/-- Bit `t` of the object whose bytes are at `p 0`, `p 1`, ... -/
def bit (mem : A → Byte) (p : Nat → A) (t : Nat) : Bool := (mem (p (t / 8))).getLsbD (t % 8)

/-- The `w` bits from `lo` on. -/
def word (mem : A → Byte) (p : Nat → A) (lo : Nat) : (w : Nat) → BitVec w
  | 0 => 0#0
  | w + 1 => (word mem p lo w).cons (bit mem p (lo + w))

theorem getLsbD_word (mem : A → Byte) (p : Nat → A) (lo w i : Nat) :
    (word mem p lo w).getLsbD i = (decide (i < w) && bit mem p (lo + i)) := by
  induction w with
  | zero => simp [word]
  | succ w ih =>
    rw [word,BitVec.getLsbD_cons,ih]
    by_cases last : i = w
    · simp [last]
    · have bound : decide (i < w) = decide (i < w + 1) := decide_eq_decide.mpr (by omega)
      rw [if_neg last,bound]

theorem bit_word (mem : A → Byte) (p : Nat → A) {lo w i : Nat} (inside : i < w) :
    bit mem p (lo + i) = (word mem p lo w).getLsbD i := by
  rw [getLsbD_word,decide_eq_true inside,Bool.true_and]

theorem word_congr {mem mem' : A → Byte} {p p' : Nat → A} {lo w : Nat}
    (same : ∀ t, lo ≤ t → t < lo + w → bit mem' p' t = bit mem p t) : word mem' p' lo w = word mem p lo w := by
  apply BitVec.eq_of_getLsbD_eq
  intro i inside
  rw [getLsbD_word,getLsbD_word,same _ (by omega) (by omega)]

/-- Bits `8 * b` to `8 * b + 7` of a number. -/
def byte (x b : Nat) : Byte := BitVec.ofNat 8 (x >>> (8 * b))

theorem getLsbD_byte (x b i : Nat) : (byte x b).getLsbD i = (decide (i < 8) && x.testBit (8 * b + i)) := by
  rw [byte,BitVec.getLsbD_ofNat,Nat.testBit_shiftRight]

/-- A bit-field of a packed structure: where it starts, and its width. -/
structure Field where
  lo : Nat
  width : Nat

/-- `p->f = v`, byte by byte. -/
def Field.assign (f : Field) (p : Nat → A) (v : Nat) : List (Store A) :=
  (List.range' (f.lo / 8) ((f.lo + f.width - 1) / 8 + 1 - f.lo / 8)).map fun b =>
    ⟨p b,byte ((2 ^ f.width - 1) <<< f.lo) b,byte (v <<< f.lo) b⟩

/-- `memset(p, val, len)` -/
def memset (p : Nat → A) (val : Byte) (len : Nat) : List (Store A) := (List.range len).map fun b => ⟨p b,-1,val⟩

theorem addr_assign {f : Field} {p : Nat → A} {v : Nat} {op : Store A} (member : op ∈ f.assign p v) :
    ∃ b, op.addr = p b ∧ f.lo / 8 ≤ b ∧ b < (f.lo + f.width - 1) / 8 + 1 := by
  obtain ⟨b,inside,rfl⟩ := List.mem_map.mp member
  obtain ⟨k,lt,rfl⟩ := List.mem_range'.mp inside
  exact ⟨_,rfl,by omega,by omega⟩

theorem addr_memset {p : Nat → A} {val : Byte} {len : Nat} {op : Store A} (member : op ∈ memset p val len) :
    ∃ b, op.addr = p b ∧ b < len := by
  obtain ⟨b,inside,rfl⟩ := List.mem_map.mp member
  exact ⟨b,rfl,List.mem_range.mp inside⟩

section
variable [DecidableEq A] {p : Nat → A}

/-- Stores elsewhere leave an object as it is. -/
theorem word_out {ops : List (Store A)} {lo w : Nat} (out : ∀ op ∈ ops, ∀ k, op.addr ≠ p k) (mem : A → Byte) :
    word (runs ops mem) p lo w = word mem p lo w := by
  refine word_congr fun t _ _ => ?_
  unfold bit
  rw [runs_out fun op member => out op member _]

variable (inj : Function.Injective p)
include inj

/-- What stores to some bytes of an object leave in it. -/
theorem bit_runs {bs : List Nat} (apart : bs.Nodup) (mask v : Nat → Byte) (mem : A → Byte) (t : Nat) :
    bit (runs (bs.map fun b => ⟨p b,mask b,v b⟩) mem) p t =
      if t / 8 ∈ bs then (Store.value ⟨p (t / 8),mask (t / 8),v (t / 8)⟩ (mem (p (t / 8)))).getLsbD (t % 8)
      else bit mem p t := by
  unfold bit
  split
  · rename_i inside
    have apart' : ((bs.map fun b => (⟨p b,mask b,v b⟩ : Store A)).map Store.addr).Nodup := by
      rw [List.map_map]
      exact apart.map inj
    have member : (⟨p (t / 8),mask (t / 8),v (t / 8)⟩ : Store A) ∈ bs.map fun b => ⟨p b,mask b,v b⟩ :=
      List.mem_map.mpr ⟨t / 8,inside,rfl⟩
    rw [← runs_in apart' member]
  · rename_i outside
    rw [runs_out]
    intro op member same
    obtain ⟨b,inside,rfl⟩ := List.mem_map.mp member
    exact outside (inj same ▸ inside)

theorem bit_assign (f : Field) (v : Nat) (mem : A → Byte) (t : Nat) :
    bit (runs (f.assign p v) mem) p t =
      if f.lo ≤ t ∧ t < f.lo + f.width then v.testBit (t - f.lo) else bit mem p t := by
  rw [Field.assign,bit_runs inj List.nodup_range']
  have low : t % 8 < 8 := Nat.mod_lt _ (by omega)
  have index : 8 * (t / 8) + t % 8 = t := by omega
  split
  · simp only [Store.value,BitVec.getLsbD_or,BitVec.getLsbD_and,BitVec.getLsbD_not,getLsbD_byte,low,decide_true,
      Bool.true_and,index,Nat.testBit_shiftLeft,Nat.testBit_two_pow_sub_one]
    by_cases above : f.lo ≤ t
    · by_cases below : t < f.lo + f.width
      · have lt : t - f.lo < f.width := by omega
        simp [above,below,lt]
      · have ge : ¬ t - f.lo < f.width := by omega
        simp [above,below,ge,bit]
    · simp [above,bit]
  · rename_i outside
    rw [if_neg]
    rintro ⟨above,below⟩
    refine outside (List.mem_range'.mpr ⟨t / 8 - f.lo / 8,?_,?_⟩) <;> omega

theorem bit_memset (val : Byte) (len : Nat) (mem : A → Byte) (t : Nat) :
    bit (runs (memset p val len) mem) p t = if t < 8 * len then val.getLsbD (t % 8) else bit mem p t := by
  rw [memset,bit_runs inj List.nodup_range]
  have inside : t / 8 ∈ List.range len ↔ t < 8 * len := by
    rw [List.mem_range]
    omega
  rw [value_whole rfl]
  simp only [inside]

/-- A field has the value last assigned to it. -/
theorem word_assign (f : Field) (v : Nat) (mem : A → Byte) {lo w : Nat} (at' : f.lo = lo) (width : f.width = w) :
    word (runs (f.assign p v) mem) p lo w = BitVec.ofNat w v := by
  subst at' width
  apply BitVec.eq_of_getLsbD_eq
  intro i inside
  rw [getLsbD_word,bit_assign inj,if_pos ⟨by omega,by omega⟩,BitVec.getLsbD_ofNat,Nat.add_sub_cancel_left]

/-- Assignments to other fields leave it as it is. -/
theorem word_assign_apart (f : Field) (v : Nat) (mem : A → Byte) {lo w : Nat}
    (apart : lo + w ≤ f.lo ∨ f.lo + f.width ≤ lo) :
    word (runs (f.assign p v) mem) p lo w = word mem p lo w := by
  refine word_congr fun t above below => ?_
  rw [bit_assign inj,if_neg (by omega)]

theorem word_memset {lo w len : Nat} (mem : A → Byte) (inside : lo + w ≤ 8 * len) :
    word (runs (memset p 0 len) mem) p lo w = 0 := by
  apply BitVec.eq_of_getLsbD_eq
  intro i below
  rw [getLsbD_word,bit_memset inj,if_pos (by omega)]
  simp

end

/-! ### Step by step -/

/-- What is left of a program of stores, and the byte that was loaded for the first of
    them. -/
structure Progress (A : Type) where
  todo : List (Store A)
  loaded : Option Byte

section
variable [DecidableEq A] {p p' : Progress A} {mem mem' : A → Byte}

/-- A store to part of a byte is a load and a store. -/
def Progress.step (p : Progress A) (mem : A → Byte) : Option ((A → Byte) × Progress A) :=
  match p.todo with
  | [] => none
  | op :: rest =>
    match p.loaded with
    | some old => some (Function.update mem op.addr (op.value old),⟨rest,none⟩)
    | none =>
      if op.mask = -1 then some (Function.update mem op.addr op.v,⟨rest,none⟩)
      else some (mem,⟨op :: rest,some (mem op.addr)⟩)

/-- The byte that was loaded is still there. -/
def Progress.Fresh (p : Progress A) (mem : A → Byte) : Prop :=
  ∀ op rest old, p.todo = op :: rest → p.loaded = some old → old = mem op.addr

theorem Progress.step_none (stuck : p.step mem = none) : p.todo = [] := by
  obtain ⟨todo,loaded⟩ := p
  cases todo with
  | nil => rfl
  | cons op rest =>
    cases loaded with
    | some old => cases stuck
    | none =>
      simp only [Progress.step] at stuck
      split at stuck <;> cases stuck

/-- A step stores to one byte of the program at most, and drops no other store. -/
theorem Progress.step_frame (ran : p.step mem = some (mem',p')) :
    (∀ op ∈ p'.todo, op ∈ p.todo) ∧ ∀ a, (∀ op ∈ p.todo, op.addr ≠ a) → mem' a = mem a := by
  obtain ⟨todo,loaded⟩ := p
  cases todo with
  | nil => cases ran
  | cons op rest =>
    have kept : ∀ (x : Byte) a, (∀ op' ∈ op :: rest, op'.addr ≠ a) → Function.update mem op.addr x a = mem a :=
      fun x a out => Function.update_of_ne (Ne.symm (out op (.head _))) ..
    cases loaded with
    | some old =>
      cases ran
      exact ⟨fun _ member => .tail _ member,kept _⟩
    | none =>
      simp only [Progress.step] at ran
      split at ran
      · cases ran
        exact ⟨fun _ member => .tail _ member,kept _⟩
      · cases ran
        exact ⟨fun _ member => member,fun _ _ => rfl⟩

/-- Where nobody else stores, a step leaves what the whole program makes of the memory. -/
theorem Progress.step_runs (fresh : p.Fresh mem) (ran : p.step mem = some (mem',p')) :
    p'.Fresh mem' ∧ runs p'.todo mem' = runs p.todo mem := by
  obtain ⟨todo,loaded⟩ := p
  cases todo with
  | nil => cases ran
  | cons op rest =>
    cases loaded with
    | some old =>
      cases ran
      have same : old = mem op.addr := fresh op rest old rfl rfl
      exact ⟨nofun,by rw [same]; rfl⟩
    | none =>
      simp only [Progress.step] at ran
      split at ran
      · rename_i whole
        cases ran
        exact ⟨nofun,by rw [runs_cons,Store.run,value_whole whole]⟩
      · cases ran
        refine ⟨?_,rfl⟩
        rintro op' rest' old todo loaded
        cases todo
        cases loaded
        rfl

end
end Bootcode.Bytes
