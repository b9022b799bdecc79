import Mathlib.Algebra.BigOperators.Group.Finset.Basic
import Mathlib.Data.Finset.Card

/-!
Machine words as sets of bits: the x86 bit instructions on a bit vector of any
width, and what each does to membership (`getLsbD`) and to the number of set
bits (`popcnt`).
-/
namespace Bootcode.Bits
variable {n : Nat}

/-- `bts`: the word with bit `i` set. -/
def bts (x : BitVec n) (i : Nat) : BitVec n := x ||| BitVec.twoPow n i
/-- `btr`: the word with bit `i` cleared. -/
def btr (x : BitVec n) (i : Nat) : BitVec n := x &&& ~~~ BitVec.twoPow n i
/-- `bsf`: the lowest set bit; `none` models the zero flag of a zero source. -/
def bsf (x : BitVec n) : Option Nat := (List.range n).find? (fun i => x.getLsbD i)
/-- `popcnt`: the number of set bits. -/
def popcnt (x : BitVec n) : Nat := (List.range n).countP (fun i => x.getLsbD i)

@[simp] theorem getLsbD_bts (x : BitVec n) (i j : Nat) :
    (bts x i).getLsbD j = (x.getLsbD j || decide (i = j ∧ j < n)) := by
  by_cases same : i = j
  · by_cases inside : j < n <;> simp [bts,same,inside]
  · simp [bts,same]

@[simp] theorem getLsbD_btr (x : BitVec n) (i j : Nat) :
    (btr x i).getLsbD j = (x.getLsbD j && !decide (i = j)) := by
  by_cases inside : j < n
  · by_cases same : i = j
    · simp [btr,same,inside]
    · simp [btr,same,Ne.symm same,inside]
  · have outside : x.getLsbD j = false := BitVec.getLsbD_of_ge x j (by omega)
    simp [btr,outside]

/-- `((uint64_t)1 << pool_sz) - 1` is the set of all vCPUs. -/
theorem getLsbD_pool {p c : Nat} (most : p ≤ 63) : ((1#64 <<< (p % 64)) - 1#64).getLsbD c = decide (c < p) := by
  have small : 2 ^ p < 2 ^ 64 := Nat.pow_lt_pow_right (by omega) (by omega)
  have pos : 0 < 2 ^ p := Nat.two_pow_pos p
  have shifted : (1#64 <<< (p % 64)).toNat = 2 ^ p := by
    rw [Nat.mod_eq_of_lt (by omega : p < 64),BitVec.toNat_shiftLeft,Nat.shiftLeft_eq]
    simpa using small
  have value : ((1#64 <<< (p % 64)) - 1#64).toNat = 2 ^ p - 1 := by
    rw [BitVec.toNat_sub,shifted]
    simp only [BitVec.toNat_ofNat]
    omega
  rw [BitVec.getLsbD,value,Nat.testBit_two_pow_sub_one]

theorem bsf_some {x : BitVec n} {i : Nat} (found : bsf x = some i) : x.getLsbD i = true ∧ i < n := by
  have set := List.find?_some found
  have member := List.mem_of_find?_eq_some found
  exact ⟨by simpa using set,by simpa using member⟩

theorem bsf_none {x : BitVec n} (empty : bsf x = none) (i : Nat) : x.getLsbD i = false := by
  by_cases inside : i < n
  · have clear := List.find?_eq_none.mp empty i (by simpa using inside)
    simpa using clear
  · exact BitVec.getLsbD_of_ge x i (by omega)

theorem eq_zero_of_bits {x : BitVec n} (clear : ∀ i, x.getLsbD i = false) : x = 0#n :=
  BitVec.eq_of_getLsbD_eq (by intro i _; simp [clear i])
theorem btr_eq_self {x : BitVec n} {i : Nat} (clear : x.getLsbD i = false) : btr x i = x := by
  apply BitVec.eq_of_getLsbD_eq
  intro j _
  by_cases same : i = j
  · subst same; simp [clear]
  · simp [same]

theorem popcnt_eq_sum (x : BitVec n) : popcnt x = ∑ i ∈ Finset.range n, (x.getLsbD i).toNat := by
  have counted : ∀ k, (List.range k).countP (fun i => x.getLsbD i) = ∑ i ∈ Finset.range k, (x.getLsbD i).toNat := by
    intro k
    induction k with
    | zero => rfl
    | succ k ih =>
      rw [List.range_succ,List.countP_append,ih,Finset.sum_range_succ]
      cases bit : x.getLsbD k <;> simp [bit]
  exact counted n

/-- Words that agree off bit `i` differ in `popcnt` by that bit alone. -/
theorem popcnt_change {x y : BitVec n} {i : Nat} (inside : i < n) (agree : ∀ j, j ≠ i → y.getLsbD j = x.getLsbD j) :
    popcnt y + (x.getLsbD i).toNat = popcnt x + (y.getLsbD i).toNat := by
  have member : i ∈ Finset.range n := Finset.mem_range.mpr inside
  have rest : ∑ j ∈ (Finset.range n).erase i, (y.getLsbD j).toNat = ∑ j ∈ (Finset.range n).erase i, (x.getLsbD j).toNat :=
    Finset.sum_congr rfl fun j other => by rw [agree j (Finset.ne_of_mem_erase other)]
  rw [popcnt_eq_sum,popcnt_eq_sum,← Finset.add_sum_erase _ _ member,← Finset.add_sum_erase _ _ member,rest]
  omega

theorem popcnt_bts {x : BitVec n} {i : Nat} (inside : i < n) (clear : x.getLsbD i = false) :
    popcnt (bts x i) = popcnt x + 1 := by
  have change := popcnt_change (x := x) (y := bts x i) inside (by intro j other; simp [other.symm])
  rw [getLsbD_bts,clear] at change
  simpa [inside] using change

theorem popcnt_btr {x : BitVec n} {i : Nat} (set : x.getLsbD i = true) :
    popcnt (btr x i) + 1 = popcnt x := by
  have inside : i < n := BitVec.lt_of_getLsbD set
  have change := popcnt_change (x := x) (y := btr x i) inside (by intro j other; simp [other.symm])
  rw [getLsbD_btr,set] at change
  simpa using change

@[simp] theorem popcnt_zero : popcnt 0#n = 0 := by simp [popcnt]
theorem popcnt_le (x : BitVec n) : popcnt x ≤ n := by
  have bound := List.countP_le_length (p := fun i => x.getLsbD i) (l := List.range n)
  simpa [popcnt] using bound

theorem eq_zero_of_popcnt {x : BitVec n} (none : popcnt x = 0) : x = 0#n := by
  apply eq_zero_of_bits
  intro i
  by_cases inside : i < n
  · have clear := List.countP_eq_zero.mp none i (by simpa using inside)
    simpa using clear
  · exact BitVec.getLsbD_of_ge x i (by omega)

/-! The numbers of two vCPUs, as bits of a 64-bit word. -/

theorem val_small (i : Fin 2) : i.val < 64 := by omega
theorem val_distinct : Function.Injective fun i : Fin 2 => i.val := fun _ _ same => Fin.ext same

end Bootcode.Bits
