import Bootcode.PrintfIso

/-!
The directives for integers: which value C gives to the argument, where the
conversion gives out what C says of it, and what reads the number back.
-/
namespace Bootcode.PrintfInteger
open Bootcode.Printf Bootcode.PrintfText Bootcode.PrintfIso

/-- The characters of `_ntoa_long` stand for the value itself in base 8, 10 and 16, and in
    base 2 for its low half. -/
theorem ntoa_digits_exact {base : Nat} (known : base = 2 ∨ base = 8 ∨ base = 10 ∨ base = 16) (uppercase : Bool)
    (x : BitVec 64) :
    number base (ntoa_digits base uppercase NTOA_BUFFER_SIZE x.toNat).reverse = x.toNat ↔
    (base = 2 → x.toNat < 2 ^ 32) := by
  have small := x.isLt
  rw [number_ntoa_digits (by omega) (by omega)]
  unfold NTOA_BUFFER_SIZE
  rcases known with rfl | rfl | rfl | rfl
  · constructor
    · intro same _
      omega
    · intro low
      exact Nat.mod_eq_of_lt (low rfl)
  all_goals
    simp only [Nat.reducePow,Nat.reduceEqDiff,false_implies,iff_true]
    exact Nat.mod_eq_of_lt (by omega)

theorem ntoa_digits_exact_wide :
    number 2 (ntoa_digits 2 false NTOA_BUFFER_SIZE (0x100000005#64).toNat).reverse ≠ (0x100000005#64).toNat ∧
      number 16 (ntoa_digits 16 false NTOA_BUFFER_SIZE (0x100000005#64).toNat).reverse = (0x100000005#64).toNat := by
  constructor
  · intro same
    exact absurd ((ntoa_digits_exact (.inl rfl) false 0x100000005#64).mp same rfl) (by decide)
  · exact (ntoa_digits_exact (.inr (.inr (.inr rfl))) false 0x100000005#64).mpr (by decide)

/-- The value that C gives to the argument of a directive. -/
def argument (d : Directive) (x : BitVec 64) : Int :=
  let size := if d.flags.long_long || d.flags.long then 64 else if d.flags.char then 8 else if d.flags.short then 16 else 32
  if d.specifier = 'i' || d.specifier = 'd' then (x.setWidth size).toInt else (x.setWidth size).toNat

theorem magnitude_toNat {n : Nat} (w : BitVec n) : (magnitude w).toNat = w.toInt.natAbs := by
  have lt := w.isLt
  have whole := BitVec.toInt_eq_toNat_cond w
  unfold magnitude
  by_cases pos : (0 : BitVec n).slt w = true
  · rw [if_pos pos]
    have above : 0 < w.toInt := by simpa [BitVec.slt_eq_decide] using pos
    split at whole <;> omega
  · rw [if_neg pos,show 0 - w = -w from BitVec.zero_sub w,BitVec.toNat_neg]
    have below : w.toInt ≤ 0 := by simpa [BitVec.slt_eq_decide] using pos
    by_cases zero : w.toNat = 0
    · rw [zero,Nat.sub_zero,Nat.mod_self]
      split at whole <;> omega
    · rw [Nat.mod_eq_of_lt (by omega)]
      split at whole <;> omega

theorem slt_zero {n : Nat} (w : BitVec n) : w.slt 0 = decide (w.toInt < 0) := by
  simp [BitVec.slt_eq_decide]

/-- The magnitude of an `int`, extended by its sign. -/
theorem signExtend_magnitude (w : BitVec 32) : ((magnitude w).signExtend 64).toNat = w.toInt.natAbs ↔
    w.toInt ≠ -2 ^ 31 := by
  by_cases least : w.toInt = -2 ^ 31
  · obtain rfl : w = BitVec.intMin 32 := BitVec.eq_of_toInt_eq least
    decide
  · have same := magnitude_toNat w
    have above := BitVec.le_toInt w
    have below := BitVec.toInt_lt (x := w)
    have small : (magnitude w).msb = false := by
      rw [BitVec.msb_eq_decide,same]
      simp only [decide_eq_false_iff_not]
      omega
    rw [BitVec.signExtend_eq_setWidth_of_msb_false small,BitVec.toNat_setWidth,Nat.mod_eq_of_lt (by omega),same]
    exact iff_of_true rfl least

/-- The directive takes an `int`, and its argument is `INT_MIN`. -/
def Least (d : Directive) (z : Int) : Prop := z = -2 ^ 31 ∧ d.flags.long = false ∧ d.flags.long_long = false

/-- The flags give the argument its size. The magnitude is right but for `INT_MIN`, whose
    32 bits are extended by their sign. -/
theorem signed_arg_eq {d : Directive} (signed : (d.specifier = 'i' || d.specifier = 'd') = true)
    {va va' : VaList} {x : BitVec 64} (arg : va.arg = .ok (x,va')) : ∃ value : BitVec 64,
      signed_arg (integer_flags d.specifier d.flags) va = .ok ((value,decide (argument d x < 0)),va') ∧
        (value.toNat = (argument d x).natAbs ↔ ¬ Least d (argument d x)) := by
  unfold signed_arg argument VaList.argInt integer_flags Least
  simp only [signed,if_true,arg]
  cases d.flags.long_long with
  | true => exact ⟨magnitude x,congrArg (fun b => Except.ok ((magnitude x,b),va')) (slt_zero x),by simp [magnitude_toNat]⟩
  | false =>
    cases d.flags.long with
    | true => exact ⟨magnitude x,congrArg (fun b => Except.ok ((magnitude x,b),va')) (slt_zero x),by simp [magnitude_toNat]⟩
    | false =>
      let w : BitVec 32 := if d.flags.char then ((x.setWidth 32).setWidth 8).signExtend 32
        else if d.flags.short then ((x.setWidth 32).setWidth 16).signExtend 32 else x.setWidth 32
      have value : w.toInt =
          (x.setWidth (if d.flags.char then 8 else if d.flags.short then 16 else 32)).toInt := by
        cases char : d.flags.char <;> cases short : d.flags.short <;>
          simp [w,char,short,BitVec.toInt_signExtend_of_le,BitVec.setWidth_setWidth_of_le]
      have extended := signExtend_magnitude w
      rw [value] at extended
      refine ⟨(magnitude w).signExtend 64,?_,by simpa using extended⟩
      have negative : w.slt 0 = decide (w.toInt < 0) := slt_zero w
      rw [value] at negative
      simp only [bind,Except.bind,pure,Except.pure,Bool.false_eq_true,if_false]
      exact congrArg (fun b => Except.ok (((magnitude w).signExtend 64,b),va')) negative

theorem unsigned_arg_eq {d : Directive} (unsigned : ¬ (d.specifier = 'i' || d.specifier = 'd') = true)
    {va va' : VaList} {x : BitVec 64} (arg : va.arg = .ok (x,va')) : ∃ value : BitVec 64,
      unsigned_arg (integer_flags d.specifier d.flags) va = .ok (value,va') ∧ (value.toNat : Int) = argument d x := by
  unfold unsigned_arg argument VaList.argInt integer_flags
  simp only [if_neg unsigned,arg]
  cases d.flags.long_long with
  | true => exact ⟨x,rfl,by simp⟩
  | false =>
    cases d.flags.long with
    | true => exact ⟨x,rfl,by simp⟩
    | false =>
      cases d.flags.char with
      | true => exact ⟨((x.setWidth 8).setWidth 32).setWidth 64,by simp [bind,Except.bind,pure,Except.pure],by simp; omega⟩
      | false =>
        cases d.flags.short with
        | true =>
          exact ⟨((x.setWidth 16).setWidth 32).setWidth 64,by simp [bind,Except.bind,pure,Except.pure],by simp; omega⟩
        | false => exact ⟨(x.setWidth 32).setWidth 64,by simp [bind,Except.bind,pure,Except.pure],by simp; omega⟩

theorem eval_precision_none {flags flags' : Flags} {format rest : List Char} {va va' : VaList} {n : Nat}
    (ran : eval_precision flags format va = .ok (flags',n,rest,va')) (none : flags'.precision = false) : n = 0 := by
  unfold eval_precision at ran
  split at ran
  · cases ran
  · simp only at ran
    split at ran
    · cases ran
    · split at ran
      · obtain ⟨r,-,same⟩ := bind_ok ran
        cases same
        cases none
      · split at ran
        · obtain ⟨r,-,same⟩ := bind_ok ran
          cases same
          cases none
        · cases ran
          rfl
  · cases ran
    rfl

theorem eval_length_precision {flags flags' : Flags} {format rest : List Char}
    (ran : eval_length flags format = .ok (flags',rest)) : flags'.precision = flags.precision := by
  unfold eval_length at ran
  split at ran
  case h_1 => cases ran
  case h_2 | h_3 =>
    simp only at ran
    split at ran <;> cases ran <;> rfl
  all_goals
    cases ran
    rfl

/-- A directive without a precision has precision 0. -/
theorem directive_precision {format rest : List Char} {va va' : VaList} {d : Directive}
    (ran : directive format va = .ok (d,rest,va')) (none : d.flags.precision = false) : d.precision = 0 := by
  obtain ⟨⟨flags,f1⟩,-,ran⟩ := bind_ok ran
  obtain ⟨⟨flags,width,f2,va⟩,-,ran⟩ := bind_ok ran
  obtain ⟨⟨flags,precision,f3,va⟩,precise,ran⟩ := bind_ok ran
  obtain ⟨⟨flags,f4⟩,lengthened,ran⟩ := bind_ok ran
  cases f4 with
  | nil => cases ran
  | cons c format =>
    cases ran
    exact eval_precision_none precise ((eval_length_precision lengthened).symm.trans none)

/-- What C says of a directive and its argument, without the blanks and with them. -/
def core (d : Directive) (z : Int) : List Char :=
  iso_core z.natAbs (decide (z < 0)) (integer_base d.specifier) (stated d.flags d.precision) d.width
    (integer_flags d.specifier d.flags)
def converted (d : Directive) (z : Int) : List Char :=
  iso_text z.natAbs (decide (z < 0)) (integer_base d.specifier) (stated d.flags d.precision) d.width
    (integer_flags d.specifier d.flags)

/-- Where that is given out: the magnitude is not that of `INT_MIN`, and `_ntoa_format`
    is sound. -/
structure Printed (d : Directive) (z : Int) : Prop where
  magnitude : ¬ Least d z
  sound : Sound z.natAbs (integer_base d.specifier) d.precision d.width (integer_flags d.specifier d.flags)

def integers : List Char := ['d','i','u','x','X','o','b']

theorem specifier_integer (env : Env) {d : Directive} (integer : d.specifier ∈ integers) (va : VaList) :
    specifier_text env d va = (out_integer record 0 d va ⟨[],0⟩).map fun r => (r.1.buffer,r.2) := by
  simp only [integers,List.mem_cons,List.not_mem_nil,or_false] at integer
  unfold specifier_text out_specifier
  rcases integer with is | is | is | is | is | is | is <;> rw [is] <;> rfl

theorem known_base (specifier : Char) : integer_base specifier = 2 ∨ integer_base specifier = 8 ∨
    integer_base specifier = 10 ∨
    integer_base specifier = 16 := by
  unfold integer_base
  split_ifs <;> decide

/-- What a directive asks for: a sign only of `d` and `i`, a mark only of the others. -/
theorem directive_asked {format rest : List Char} {va va' : VaList} {d : Directive}
    (parsed : directive format va = .ok (d,rest,va'))
    (negative : Bool) (signed : (d.specifier = 'i' || d.specifier = 'd') = false → negative = false) :
    Asked (integer_base d.specifier) d.precision negative (integer_flags d.specifier d.flags) := by
  refine ⟨known_base _,directive_precision parsed,fun zeropad => ?_,fun hash => ?_⟩
  · simp only [integer_flags,Bool.and_eq_true,Bool.not_eq_true'] at zeropad
    exact zeropad.2
  · simp only [integer_flags,Bool.and_eq_true,decide_eq_true_eq] at hash
    refine ⟨hash.2,?_⟩
    have unsigned : (d.specifier = 'i' || d.specifier = 'd') = false := by
      refine Bool.eq_false_iff.mpr fun signed => hash.2 ?_
      rcases Bool.or_eq_true _ _ ▸ signed with is | is <;> rw [of_decide_eq_true is] <;> rfl
    rw [signed unsigned]
    simp [integer_flags,iso_sign,unsigned]

/-- A directive that asks for an integer gives out what C says exactly where `Printed` says. -/
theorem specifier_iff (env : Env) {format rest : List Char} {va0 va va' : VaList} {d : Directive} {x : BitVec 64}
    (parsed : directive format va0 = .ok (d,rest,va)) (integer : d.specifier ∈ integers) (arg : va.arg = .ok (x,va'))
    (room : (core d (argument d x)).length ≤ NTOA_BUFFER_SIZE) :
    ∃ said, specifier_text env d va = .ok (said,va') ∧ (said = converted d (argument d x) ↔ Printed d (argument d x)) := by
  rw [specifier_integer env integer,out_integer]
  cases signed : (d.specifier = 'i' || d.specifier = 'd') with
  | true =>
    obtain ⟨value,read,same⟩ := signed_arg_eq signed arg
    refine ⟨ntoa_text value (decide (argument d x < 0)) (integer_base d.specifier) d.precision d.width
        (integer_flags d.specifier d.flags),
      ?_,?_⟩
    · simp only [if_true,read,bind,Except.bind,pure,Except.pure,Except.map,ntoa_long,ntoa_long_long,ite_self,ntoa_emit,
        emit_record,List.nil_append]
    · have asked := directive_asked parsed (decide (argument d x < 0))
        fun unsigned => absurd (signed.symm.trans unsigned) (by decide)
      constructor
      · intro equal
        have decimal : integer_base d.specifier = 10 := by
          rcases Bool.or_eq_true _ _ ▸ signed with is | is <;> rw [of_decide_eq_true is] <;> rfl
        have plain : (integer_flags d.specifier d.flags).hash = false := by simp [integer_flags,decimal]
        have whole : value.toNat = (argument d x).natAbs := by
          rw [decimal,converted,decimal] at equal
          rw [← number_ntoa_text value _ _ _ plain,equal,number_iso_text _ _ _ _ plain]
        exact ⟨same.mp whole,(ntoa_iff asked whole room).mp equal⟩
      · intro printed
        exact (ntoa_iff asked (same.mpr printed.magnitude) room).mpr printed.sound
  | false =>
    obtain ⟨value,read,same⟩ := unsigned_arg_eq (Bool.eq_false_iff.mp signed) arg
    have pos : ¬ argument d x < 0 := by omega
    refine ⟨ntoa_text value false (integer_base d.specifier) d.precision d.width (integer_flags d.specifier d.flags),?_,?_⟩
    · simp only [Bool.false_eq_true,if_false,read,bind,Except.bind,pure,Except.pure,Except.map,ntoa_long,
        ntoa_long_long,ite_self,ntoa_emit,emit_record,List.nil_append]
    · have whole : value.toNat = (argument d x).natAbs := by omega
      rw [core,decide_eq_false pos] at room
      have same := ntoa_iff (directive_asked parsed _ fun _ => rfl) whole room
      rw [converted,decide_eq_false pos]
      refine Iff.trans same ⟨fun sound => ⟨fun least => ?_,sound⟩,Printed.sound⟩
      exact pos (by rw [least.1]; decide)

theorem iso_body_length (value base : Nat) (uppercase : Bool) (precision : Option Nat) :
    (iso_body value base uppercase precision).length ≤ max (precision.getD 1) (digits base value).length := by
  rw [iso_body,List.length_append,List.length_replicate]
  split
  · simp
  · rw [List.length_reverse,List.length_map]
    omega

/-- A number that is not left-justified is given out as C says, but for `INT_MIN`. -/
theorem specifier_iso (env : Env) {format rest : List Char} {va0 va va' : VaList} {d : Directive} {x : BitVec 64}
    (parsed : directive format va0 = .ok (d,rest,va)) (integer : d.specifier ∈ integers) (arg : va.arg = .ok (x,va'))
    (plain : d.flags.hash = false ∧ d.flags.left = false) (magnitude : ¬ Least d (argument d x))
    (room : (core d (argument d x)).length ≤ NTOA_BUFFER_SIZE) :
    specifier_text env d va = .ok (converted d (argument d x),va') := by
  obtain ⟨said,given,iff⟩ := specifier_iff env parsed integer arg room
  have unmarked : (integer_flags d.specifier d.flags).hash = false := by simp [integer_flags,plain]
  have right : (integer_flags d.specifier d.flags).left = false := plain.2
  have sound : Sound (argument d x).natAbs (integer_base d.specifier) d.precision d.width
    (integer_flags d.specifier d.flags) := by
    refine ⟨fun left => absurd (right.symm.trans left) (by decide),?_,?_,?_⟩ <;> intro hash <;>
      exact absurd (unmarked.symm.trans hash) (by decide)
  rw [given,iff.mpr ⟨magnitude,sound⟩]

/-- A number with zeros up to a width that is not 0. -/
theorem iso_padded (n width : Nat) (pos : width ≠ 0) {flags : Flags} (zeropad : flags.zeropad = true)
    (right : flags.left = false) (bare : flags.plus = false ∧ flags.space = false ∧ flags.hash = false) :
    iso_core n false 16 none width flags = iso_body n 16 flags.uppercase (some width) := by
  have some := digits_length_pos 16 n
  have one : 1 - (digits 16 n).length = 0 := by omega
  simp [iso_core,iso_body,iso_sign,iso_mark,iso_precision,zeropad,right,bare,pos,one]

/-- Where the digits are as many as the width there are no blanks. -/
theorem converted_wide {d : Directive} {z : Int} (wide : d.width ≤ (core d z).length) : converted d z = core d z := by
  unfold core at wide
  simp [converted,iso_text,core,Nat.sub_eq_zero_of_le wide]

/-- `%016llX` and `%08X`. -/
def zeroPadded (wide : Bool) (width : Nat) : Directive := ⟨{ zeropad := true, long := wide, long_long := wide },width,0,'X'⟩
/-- What the directive takes of its argument. -/
def part (wide : Bool) (x : BitVec 64) : Nat := if wide then x.toNat else x.toNat % 2 ^ 32

theorem text_hex (env : Env) {wide : Bool} {width : Nat} (pos : width ≠ 0) (narrow : width ≤ NTOA_BUFFER_SIZE)
    {format rest : List Char} {x : BitVec 64} {args : List (BitVec 64)}
    (parsed : directive format ⟨x :: args,[]⟩ = .ok (zeroPadded wide width,rest,⟨x :: args,[]⟩)) :
    text env ('%' :: format) ⟨x :: args,[]⟩ = (text env rest ⟨args,[]⟩).map fun r =>
      (iso_body (part wide x) 16 true (some width) ++ r.1,r.2) := by
  have value : argument (zeroPadded wide width) x = (part wide x : Int) := by
    cases wide with
    | true => exact congrArg (fun y : BitVec 64 => (y.toNat : Int)) (BitVec.setWidth_eq x)
    | false => exact congrArg Nat.cast (BitVec.toNat_setWidth 32 x)
  have small : part wide x < 2 ^ 64 := by
    have lt := x.isLt
    unfold part
    split <;> omega
  generalize part wide x = n at value small ⊢
  have unsigned : ¬ (n : Int) < 0 := by omega
  have few : (digits 16 n).length ≤ NTOA_BUFFER_SIZE := by
    unfold digits
    split
    · decide
    · have le := (Nat.digits_length_le_iff (k := 16) (by omega : 1 < 16) n).mpr (by omega)
      unfold NTOA_BUFFER_SIZE
      omega
  have body : core (zeroPadded wide width) n = iso_body n 16 true (some width) := by
    rw [core,decide_eq_false unsigned,Int.natAbs_natCast]
    exact iso_padded n width pos rfl rfl ⟨rfl,rfl,rfl⟩
  have least : width ≤ (iso_body n 16 true (some width)).length := by
    simp [iso_body]
    omega
  have most := (iso_body_length n 16 true (some width)).trans (max_le narrow few)
  have given := specifier_iso env parsed (by decide : 'X' ∈ integers) rfl ⟨rfl,rfl⟩
    (fun least => unsigned (by rw [← value,least.1]; decide)) (by rw [value,body]; exact most)
  rw [value,converted_wide (by rw [body]; exact least),body] at given
  rw [text_directive,parsed]
  simp only [bind,Except.bind,given]

/-- `%d` and `%lu` of a number that is not negative. -/
theorem specifier_decimal (env : Env) {wide : Bool} {c : Char} (decimal : c = 'd' ∨ c = 'u')
    {format rest : List Char} {va0 va va' : VaList}
    {x : BitVec 64} {n : Nat} (parsed : directive format va0 = .ok (⟨{ long := wide },0,0,c⟩,rest,va))
    (arg : va.arg = .ok (x,va')) (value : argument ⟨{ long := wide },0,0,c⟩ x = (n : Int)) (small : n < 2 ^ 64) :
    specifier_text env ⟨{ long := wide },0,0,c⟩ va = .ok (iso_body n 10 false none,va') := by
  have unsigned : ¬ (n : Int) < 0 := by omega
  have few : (digits 10 n).length ≤ 20 := by
    unfold digits
    split
    · decide
    · exact (Nat.digits_length_le_iff (k := 20) (by omega : 1 < 10) n).mpr (by omega)
  have base : integer_base c = 10 := by rcases decimal with rfl | rfl <;> rfl
  have body : core ⟨{ long := wide },0,0,c⟩ n = iso_body n 10 false none := by
    have upper : (c = 'X') = False := eq_false (by rcases decimal with rfl | rfl <;> decide)
    simp [core,iso_core,iso_sign,iso_mark,iso_precision,integer_flags,stated,base,unsigned,upper]
  have integer : c ∈ integers := by rcases decimal with rfl | rfl <;> decide
  have most := (iso_body_length n 10 false none).trans (max_le (by decide : _ ≤ 20) few)
  have given := specifier_iso env parsed integer arg ⟨rfl,rfl⟩ (fun least => unsigned (by rw [← value,least.1]; decide))
    (by rw [value,body]; exact most.trans (by decide))
  rw [value,converted_wide (Nat.zero_le _),body] at given
  exact given

theorem text_dec (env : Env) {format rest : List Char} {x : BitVec 64} {args : List (BitVec 64)} (small : x.toNat < 2 ^ 31)
    (parsed : directive format ⟨x :: args,[]⟩ = .ok (⟨{},0,0,'d'⟩,rest,⟨x :: args,[]⟩)) :
    text env ('%' :: format) ⟨x :: args,[]⟩ = (text env rest ⟨args,[]⟩).map fun r =>
      (iso_body x.toNat 10 false none ++ r.1,r.2) := by
  have value : argument ⟨{},0,0,'d'⟩ x = (x.toNat : Int) := by
    show (x.setWidth 32).toInt = _
    rw [BitVec.toInt_eq_toNat_of_lt] <;> rw [BitVec.toNat_setWidth] <;> omega
  have given := specifier_decimal env (.inl rfl) parsed rfl value (by omega)
  rw [text_directive,parsed]
  simp only [bind,Except.bind,given]

/-! ### Reading a number back -/

/-- `_atoi` reads digits up to the first other character, modulo the size of an `unsigned int`. -/
theorem atoi_digits {cs : List Char} (all : ∀ c ∈ cs, is_digit c = true) {c : Char} (other : is_digit c = false)
    (rest : List Char) :
    ∀ i < 2 ^ 32, atoi i (cs ++ c :: rest) = .ok ((i * 10 ^ cs.length + number 10 cs) % 2 ^ 32,c :: rest) := by
  induction cs with
  | nil =>
    intro i small
    have whole : (i * 10 ^ ([] : List Char).length + number 10 []) % 2 ^ 32 = i := by
      simpa [number] using Nat.mod_eq_of_lt small
    rw [whole]
    simp [atoi,other]
  | cons d cs ih =>
    intro i _
    have digit := all d (.head _)
    have value : digit_value d = d.toNat - '0'.toNat := by
      simp only [is_digit,Bool.and_eq_true,decide_eq_true_eq] at digit
      exact if_pos digit.2
    rw [List.cons_append,atoi,if_pos digit,ih (fun c member => all c (.tail _ member)) _ (Nat.mod_lt _ (by norm_num)),
      show d :: cs = [d] ++ cs from rfl,number_append,List.length_append,List.length_singleton]
    have one : number 10 [d] = d.toNat - '0'.toNat := by simp [number,value]
    rw [one]
    congr 2
    rw [Nat.add_mod,Nat.mul_mod,Nat.mod_mod,← Nat.mul_mod,← Nat.add_mod]
    congr 1
    ring

/-- What `%lu` gives out, `_atoi` reads back, up to the size of an `unsigned int`. -/
theorem atoi_of_printed (env : Env) (x : BitVec 64) (gp fp : List (BitVec 64)) {c : Char} (other : is_digit c = false)
    (rest : List Char) : ∃ t, text env ("%lu".toList ++ [NUL]) ⟨x :: gp,fp⟩ = .ok (t,⟨gp,fp⟩) ∧
      atoi 0 (t ++ c :: rest) = .ok (x.toNat % 2 ^ 32,c :: rest) := by
  have small := x.isLt
  have parsed : directive ('l' :: 'u' :: [NUL]) ⟨x :: gp,fp⟩ = .ok (⟨{ long := true },0,0,'u'⟩,[NUL],⟨x :: gp,fp⟩) := rfl
  have value : argument ⟨{ long := true },0,0,'u'⟩ x = x.toNat := by simp [argument]
  have given := specifier_decimal env (.inr rfl) parsed rfl value small
  refine ⟨iso_body x.toNat 10 false none,?_,?_⟩
  · show text env ('%' :: 'l' :: 'u' :: [NUL]) _ = _
    rw [text_directive,parsed]
    simp only [bind,Except.bind,given,text_nul]
    simp [Except.map]
  · rw [atoi_digits is_digit_body other rest 0 (by norm_num),number_body (by omega) (by omega),Nat.zero_mul,Nat.zero_add]

theorem atoi_of_printed_comma : ∃ t, text silent ("%lu".toList ++ [NUL]) ⟨[0x100000005],[]⟩ = .ok (t,⟨[],[]⟩) ∧
    atoi 0 (t ++ ',' :: [NUL]) = .ok (5,',' :: [NUL]) :=
  atoi_of_printed silent 0x100000005 [] [] (by decide) [NUL]

/-! ### The flag `#` -/

/-- The digits behind the `0x`: two fewer where they are as many as the width. -/
def shown_digits (width : Nat) (ds : List Char) : List Char := if ds.length = width then ds.take (ds.length - 2) else ds

/-- The digits behind the `0x` stand for the value if they are not as many as the width. -/
theorem number_shown (uppercase : Bool) {n : Nat} (nonzero : n ≠ 0) (width : Nat) :
    number 16 (shown_digits width ((Nat.digits 16 n).map (digit_char uppercase))).reverse = n ↔
      (Nat.digits 16 n).length ≠ width := by
  have back : ∀ k, (((Nat.digits 16 n).take k).map (digit_value ∘ digit_char uppercase)) =
    (Nat.digits 16 n).take k := fun k => by
    refine (List.map_congr_left fun d member => ?_).trans (List.map_id _)
    exact digit_value_char uppercase (Nat.digits_lt_base (by omega) (List.mem_of_mem_take member))
  have whole := Nat.base_pow_length_digits_le 16 n (by omega) nonzero
  have pos : 0 < (Nat.digits 16 n).length := List.length_pos_iff.mpr (Nat.digits_ne_nil_iff_ne_zero.mpr nonzero)
  unfold shown_digits
  rw [List.length_map]
  split
  · rename_i same
    rw [← List.map_take,number_reverse,List.map_map,back,← Nat.self_mod_pow_eq_ofDigits_take _ _ (by omega)]
    have less : 16 ^ ((Nat.digits 16 n).length - 2) ≤ n := by
      have split : 16 ^ (Nat.digits 16 n).length = 16 * 16 ^ ((Nat.digits 16 n).length - 1) := by
        rw [← pow_succ']
        congr 1
        omega
      have lower : 16 ^ ((Nat.digits 16 n).length - 2) ≤ 16 ^ ((Nat.digits 16 n).length - 1) :=
        Nat.pow_le_pow_right (by omega) (by omega)
      omega
    have other : n % 16 ^ ((Nat.digits 16 n).length - 2) ≠ n := ((Nat.mod_lt n (Nat.pow_pos (by omega))).trans_le less).ne
    exact ⟨fun whole => absurd whole other,fun different => absurd same different⟩
  · rename_i other
    have all := back (Nat.digits 16 n).length
    rw [List.take_length] at all
    rw [number_reverse,List.map_map,all,Nat.ofDigits_digits]
    simp [other]

/-- The buffer of the alternate form, which has room for any number. -/
theorem ntoa_buf_hex {flags : Flags} (hash : flags.hash = true) (plain : flags.precision = false ∧ flags.zeropad = false)
    (bare : flags.plus = false ∧ flags.space = false) {x : BitVec 64} (nonzero : x.toNat ≠ 0) (width : Nat) :
    (ntoa_buf x false 16 0 width flags).1 =
      shown_digits width ((Nat.digits 16 x.toNat).map (digit_char flags.uppercase)) ++ [hex_mark flags,'0'] := by
  have asked : Asked 16 0 false flags :=
    ⟨.inr (.inr (.inr rfl)),fun _ => rfl,fun zeropad => absurd (plain.2.symm.trans zeropad) (by decide),
      fun _ => ⟨by decide,by simp [iso_sign,bare]⟩⟩
  have ds : all_digits x.toNat 16 flags = (Nat.digits 16 x.toNat).map (digit_char flags.uppercase) := by
    simp [all_digits,digits,nonzero]
  have few : (Nat.digits 16 x.toNat).length ≤ 16 :=
    (Nat.digits_length_le_iff (k := 16) (by omega : 1 < 16) x.toNat).mpr x.isLt
  have length : (all_digits x.toNat 16 flags).length = _ := all_digits_length (.inr nonzero)
  have pos : 0 < (Nat.digits 16 x.toNat).length := List.length_pos_iff.mpr (Nat.digits_ne_nil_iff_ne_zero.mpr nonzero)
  have none : put_zeros (Nat.digits 16 x.toNat).length 0 width flags = 0 := by simp [put_zeros,plain]
  have room : (Nat.digits 16 x.toNat).length + iso_zeros 16 (Nat.digits 16 x.toNat).length 0 width flags +
    (mark 16 flags).length ≤
      NTOA_BUFFER_SIZE := by
    simp only [iso_zeros,plain.2,Bool.and_false,Bool.false_eq_true,if_false,mark,if_true,List.length_cons,List.length_nil]
    unfold NTOA_BUFFER_SIZE
    omega
  rw [ntoa_buf_marked asked nonzero hash rfl length pos room,ds,none,List.replicate_zero,List.append_nil,
    List.take_of_length_le]
  · congr 1
    unfold shown_digits stripped
    rw [none,List.length_map]
    by_cases same : (Nat.digits 16 x.toNat).length = width
    · simp [same,plain]
    · simp [same,List.take_of_length_le]
  · simp only [mark,if_true,List.length_append,List.length_take,List.length_map,List.length_cons,List.length_nil]
    unfold NTOA_BUFFER_SIZE
    omega

/-- In the alternate hexadecimal form two digits are taken off where the number is as
    wide as the field, so that it stands for its value only where it is not. -/
theorem alternate_hex (env : Env) {d : Directive} (hex : d.specifier = 'x' ∨ d.specifier = 'X') (hash : d.flags.hash = true)
    (plain : d.flags.precision = false ∧ d.flags.zeropad = false) (none : d.precision = 0) {va va' : VaList} {x : BitVec 64}
    (arg : va.arg = .ok (x,va')) (nonzero : argument d x ≠ 0) :
    ∃ shown, shown = (shown_digits d.width
        ((Nat.digits 16 (argument d x).natAbs).map (digit_char (integer_flags d.specifier d.flags).uppercase))).reverse ∧
      specifier_text env d va =
        .ok (rev_text (('0' :: hex_mark (integer_flags d.specifier d.flags) :: shown).reverse) d.width
          (integer_flags d.specifier d.flags),va') ∧
      (number 16 shown = (argument d x).natAbs ↔ (Nat.digits 16 (argument d x).natAbs).length ≠ d.width) := by
  have base : integer_base d.specifier = 16 := by rcases hex with is | is <;> rw [is] <;> rfl
  have unsigned : ¬ (d.specifier = 'i' || d.specifier = 'd') = true := by rcases hex with is | is <;> rw [is] <;> decide
  have integer : d.specifier ∈ integers := by rcases hex with is | is <;> rw [is] <;> decide
  obtain ⟨value,read,same⟩ := unsigned_arg_eq unsigned arg
  have magnitude : (argument d x).natAbs = value.toNat := by omega
  have value_nonzero : value.toNat ≠ 0 := by omega
  rw [magnitude,specifier_integer env integer,out_integer]
  set flags := integer_flags d.specifier d.flags with flags_def
  have hashed : flags.hash = true := by simp [flags_def,integer_flags,hash,base]
  have off : flags.precision = false ∧ flags.zeropad = false ∧ flags.plus = false ∧ flags.space = false := by
    rcases hex with is | is <;> simp [flags_def,integer_flags,plain,is]
  refine ⟨_,rfl,?_,number_shown flags.uppercase value_nonzero d.width⟩
  have buf := ntoa_buf_hex hashed ⟨off.1,off.2.1⟩ off.2.2 value_nonzero d.width
  simp only [if_neg unsigned,read,bind,Except.bind,pure,Except.pure,Except.map,ntoa_long,ntoa_long_long,ite_self,ntoa_emit,
    emit_record,List.nil_append,base,none,ntoa_text_eq,buf]
  simp

theorem alternate_hex_four : specifier_text silent ⟨{ hash := true },4,0,'x'⟩ ⟨[0x1234],[]⟩ = .ok ("0x34".toList,⟨[],[]⟩) := by
  have taken : VaList.arg ⟨[0x1234],[]⟩ = .ok ((0x1234 : BitVec 64),⟨[],[]⟩) := rfl
  have value : (argument ⟨{ hash := true },4,0,'x'⟩ 0x1234).natAbs = 0x1234 := rfl
  obtain ⟨shown,is,said,-⟩ :=
    alternate_hex silent (d := ⟨{ hash := true },4,0,'x'⟩) (.inl rfl) rfl ⟨rfl,rfl⟩ rfl taken (by decide)
  rw [said,is,value]
  simp [shown_digits,integer_flags,digit_char,hex_mark,rev_text,spaces]

end Bootcode.PrintfInteger
