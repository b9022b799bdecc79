import Mathlib.Data.Nat.Digits.Lemmas
import Bootcode.PrintfText

/-!
What C says of an integer conversion: the digits of the value, at least as many as
the precision, a sign, the mark of the flag `#`, and padding up to the width. The
buffer of `_ntoa_format` holds 32 characters, and for a conversion that these
suffice for, `Sound` is where the two agree.
-/
namespace Bootcode.PrintfIso
open Bootcode.Printf Bootcode.PrintfText

/-- The digits of a number, least significant first, with one for zero. -/
def digits (base n : Nat) : List Nat := if n = 0 then [0] else Nat.digits base n

theorem ntoa_digits_eq {base : Nat} (two : 2 ≤ base) (uppercase : Bool) (room n : Nat) :
    ntoa_digits base uppercase room n = ((digits base n).take room).map (digit_char uppercase) := by
  induction room generalizing n with
  | zero => simp [ntoa_digits]
  | succ room ih =>
    rw [ntoa_digits]
    by_cases small : n < base
    · have one : digits base n = [n] := by
        unfold digits
        split
        · rename_i zero
          rw [zero]
        · rename_i nonzero
          exact Nat.digits_of_lt base n nonzero small
      have none : n / base = 0 := Nat.div_eq_of_lt small
      simp [one,none,Nat.mod_eq_of_lt small]
    · have pos : n / base ≠ 0 := (Nat.div_pos (Nat.le_of_not_lt small) (by omega)).ne'
      have nonzero : n ≠ 0 := by omega
      have more : digits base n = n % base :: digits base (n / base) := by
        rw [digits,digits,if_neg nonzero,if_neg pos]
        exact Nat.digits_def' two (Nat.pos_of_ne_zero nonzero)
      rw [if_pos pos,ih,more]
      rfl

/-- The digit that a character stands for. -/
def digit_value (c : Char) : Nat :=
  if c.toNat ≤ '9'.toNat then c.toNat - '0'.toNat
  else if c.toNat ≤ 'F'.toNat then c.toNat - 'A'.toNat + 10 else c.toNat - 'a'.toNat + 10
/-- The number that characters stand for, most significant first. -/
def number (base : Nat) (cs : List Char) : Nat := cs.foldl (fun n c => n * base + digit_value c) 0

theorem digit_value_char (uppercase : Bool) {d : Nat} (lt : d < 16) : digit_value (digit_char uppercase d) = d := by
  have all : ∀ u : Bool, ∀ d < 16, digit_value (digit_char u d) = d := by decide
  exact all uppercase d lt

theorem number_reverse (base : Nat) (cs : List Char) : number base cs.reverse = Nat.ofDigits base (cs.map digit_value) := by
  unfold number
  induction cs with
  | nil => rfl
  | cons c cs ih =>
    rw [List.reverse_cons,List.foldl_append,ih,List.map_cons,Nat.ofDigits_cons,List.foldl_cons,List.foldl_nil]
    ring

theorem digits_lt {base : Nat} (two : 2 ≤ base) {n d : Nat} (member : d ∈ digits base n) : d < base := by
  unfold digits at member
  split at member
  · rw [List.mem_singleton] at member
    omega
  · exact Nat.digits_lt_base two member

/-- The characters of `_ntoa_long` stand for the value modulo the 32nd power of the base. -/
theorem number_ntoa_digits {base : Nat} (two : 2 ≤ base) (most : base ≤ 16) (uppercase : Bool) (n : Nat) :
    number base (ntoa_digits base uppercase NTOA_BUFFER_SIZE n).reverse = n % base ^ NTOA_BUFFER_SIZE := by
  have back : ((digits base n).take NTOA_BUFFER_SIZE).map (digit_value ∘ digit_char uppercase) =
      (digits base n).take NTOA_BUFFER_SIZE := by
    refine (List.map_congr_left fun d member => ?_).trans (List.map_id _)
    exact digit_value_char uppercase ((digits_lt two (List.mem_of_mem_take member)).trans_le most)
  rw [ntoa_digits_eq two,number_reverse,List.map_map,back]
  by_cases zero : n = 0
  · subst zero
    simp [digits,NTOA_BUFFER_SIZE]
  · rw [digits,if_neg zero,Nat.self_mod_pow_eq_ofDigits_take _ _ two]

theorem number_append (base : Nat) (cs ds : List Char) :
    number base (cs ++ ds) = number base cs * base ^ ds.length + number base ds := by
  have from_ : ∀ (ds : List Char) (n : Nat), ds.foldl (fun n c => n * base + digit_value c) n =
    n * base ^ ds.length + number base ds := by
    intro ds
    induction ds with
    | nil => simp [number]
    | cons d ds ih =>
      intro n
      rw [number,List.foldl_cons,List.foldl_cons,ih,ih,List.length_cons,pow_succ]
      ring
  rw [number,List.foldl_append,from_]
  rfl

theorem number_zeros (base k : Nat) : number base (List.replicate k '0') = 0 := by
  induction k with
  | zero => rfl
  | succ k ih =>
    rw [List.replicate_succ',number_append,ih]
    simp [number,digit_value]

/-- The digits of a value at least as many as its precision; none for zero with
    precision zero. -/
def iso_body (value base : Nat) (uppercase : Bool) (precision : Option Nat) : List Char :=
  let ds := if value = 0 ∧ precision = some 0 then [] else ((digits base value).map (digit_char uppercase)).reverse
  List.replicate (precision.getD 1 - ds.length) '0' ++ ds
def iso_sign (negative plus space : Bool) : List Char :=
  if negative then ['-'] else if plus then ['+'] else if space then [' '] else []

/-- The `x` of the flag `#`. -/
def hex_mark (flags : Flags) : Char := if flags.uppercase then 'X' else 'x'
/-- What the flag `#` puts before a number other than zero. -/
def iso_mark (value base : Nat) (flags : Flags) : List Char :=
  if flags.hash && value ≠ 0 then
    if base = 16 then ['0',hex_mark flags] else if base = 2 then ['0','b'] else []
  else []
/-- The flag `#` raises the precision of base 8 until the first digit is a zero. -/
def iso_precision (value base : Nat) (precision : Option Nat) (flags : Flags) : Option Nat :=
  if flags.hash && base = 8 then some (max (precision.getD 1) ((Nat.digits base value).length + 1)) else precision

/-- The conversion without the blanks beside it. -/
def iso_core (value : Nat) (negative : Bool) (base : Nat) (precision : Option Nat) (width : Nat) (flags : Flags) :
    List Char :=
  let front := iso_sign negative flags.plus flags.space ++ iso_mark value base flags
  let body := iso_body value base flags.uppercase (iso_precision value base precision flags)
  let zeros := if !flags.left && flags.zeropad && precision.isNone then width - (front.length + body.length) else 0
  front ++ List.replicate zeros '0' ++ body
def iso_text (value : Nat) (negative : Bool) (base : Nat) (precision : Option Nat) (width : Nat) (flags : Flags) :
    List Char :=
  let core := iso_core value negative base precision width flags
  let fill := List.replicate (width - core.length) ' '
  if flags.left then core ++ fill else fill ++ core

/-- Leading zeros do not matter, and the body of a conversion stands for its value. -/
theorem number_body {base : Nat} (two : 2 ≤ base) (most : base ≤ 16) (value : Nat) (uppercase : Bool)
    (precision : Option Nat) :
    number base (iso_body value base uppercase precision) = value := by
  have back : (digits base value).map (digit_value ∘ digit_char uppercase) = digits base value := by
    refine (List.map_congr_left fun d member => ?_).trans (List.map_id _)
    exact digit_value_char uppercase ((digits_lt two member).trans_le most)
  rw [iso_body,number_append,number_zeros,Nat.zero_mul,Nat.zero_add]
  split
  · rename_i none
    exact none.1.symm
  · rw [number_reverse,List.map_map,back,digits]
    split
    · rename_i zero
      rw [zero]
      rfl
    · exact Nat.ofDigits_digits base value

theorem is_digit_char (uppercase : Bool) {d : Nat} (lt : d < 10) : is_digit (digit_char uppercase d) = true := by
  have all : ∀ u : Bool, ∀ d < 10, is_digit (digit_char u d) = true := by decide
  exact all uppercase d lt

theorem is_digit_body {value : Nat} {uppercase : Bool} {precision : Option Nat} :
    ∀ c ∈ iso_body value 10 uppercase precision, is_digit c = true := by
  intro c member
  rcases List.mem_append.mp member with zero | digit
  · rw [List.eq_of_mem_replicate zero]
    decide
  · split at digit
    · cases digit
    · obtain ⟨d,inside,rfl⟩ := List.mem_map.mp (List.mem_reverse.mp digit)
      exact is_digit_char uppercase (digits_lt (by omega) inside)

/-- The precision of a conversion, if it has one. -/
def stated (flags : Flags) (prec : Nat) : Option Nat := if flags.precision then some prec else none

/-- What the specifiers ask `_ntoa_format` for. -/
structure Asked (base prec : Nat) (negative : Bool) (flags : Flags) : Prop where
  known : base = 2 ∨ base = 8 ∨ base = 10 ∨ base = 16
  none : flags.precision = false → prec = 0
  zeropad : flags.zeropad = true → flags.precision = false
  hash : flags.hash = true → base ≠ 10 ∧ iso_sign negative flags.plus flags.space = []

/-- Where `_ntoa_format` gives out what C says. It gives a left-justified number no
    zeros. For the flag `#` it takes off what it supposes to be padding wherever there
    are as many characters as the width, digits or not, and it does not count the
    zero of base 8 for the precision. -/
structure Sound (value base prec width : Nat) (flags : Flags) : Prop where
  left : flags.left = true → prec ≤ (Nat.digits base value).length ∨
    flags.hash = true ∧ base = 8 ∧ value ≠ 0 ∧ prec = (Nat.digits base value).length + 1
  octal : flags.hash = true → base = 8 → flags.precision = true →
    if value = 0 then 0 < prec
    else flags.left = true ∨ prec ≤ (Nat.digits base value).length ∨ prec = NTOA_BUFFER_SIZE
  blanks : flags.hash = true → value ≠ 0 → flags.precision = false → flags.left = true ∨ flags.zeropad = false →
    width ≠ (Nat.digits base value).length
  zeros : flags.hash = true → value ≠ 0 → flags.left = false → flags.zeropad = true →
    if base = 2 then width < (Nat.digits base value).length ∨ width = (Nat.digits base value).length + 1
    else width ≠ (Nat.digits base value).length ∧ (base = 16 → width ≠ (Nat.digits base value).length + 1)

/-! ### The buffer -/

theorem digits_length_pos (base n : Nat) : 0 < (digits base n).length := by
  unfold digits
  split
  · exact Nat.one_pos
  · rename_i nonzero
    exact List.length_pos_iff.mpr (Nat.digits_ne_nil_iff_ne_zero.mpr nonzero)

theorem zeros_eq {buf : List Char} {n : Nat} (le : n ≤ NTOA_BUFFER_SIZE) :
    zeros buf n = buf ++ List.replicate (n - buf.length) '0' := by
  rw [zeros,Nat.min_eq_left le]

theorem sign_length (negative plus space : Bool) :
    (iso_sign negative plus space).length = if negative || (plus || space) then 1 else 0 := by
  cases negative <;> cases plus <;> cases space <;> rfl
theorem sign_none {negative plus space : Bool} (none : iso_sign negative plus space = []) :
    negative = false ∧ plus = false ∧ space = false := by
  cases negative <;> cases plus <;> cases space <;> first | exact ⟨rfl,rfl,rfl⟩ | cases none

theorem ntoa_sign_eq {buf : List Char} {negative : Bool} {flags : Flags}
    (room : buf.length + (iso_sign negative flags.plus flags.space).length ≤ NTOA_BUFFER_SIZE) :
    ntoa_sign buf negative flags = (iso_sign negative flags.plus flags.space ++ buf.reverse).reverse := by
  have pushed : ∀ c, buf.length + 1 ≤ NTOA_BUFFER_SIZE → push buf c = buf ++ [c] := fun c room => if_pos room
  cases negative <;> cases plus : flags.plus <;> cases space : flags.space <;>
    simp_all [iso_sign,ntoa_sign]

/-- The digits of a conversion, last one first: none for zero with a precision. -/
def all_digits (value base : Nat) (flags : Flags) : List Char :=
  if flags.precision && value = 0 then [] else (digits base value).map (digit_char flags.uppercase)

theorem put_digits_eq {value base : Nat} (two : 2 ≤ base) {flags : Flags}
    (few : (all_digits value base flags).length ≤ NTOA_BUFFER_SIZE) :
    (if !flags.precision || value ≠ 0 then ntoa_digits base flags.uppercase NTOA_BUFFER_SIZE value else []) =
      all_digits value base flags := by
  unfold all_digits at few ⊢
  rw [ntoa_digits_eq two]
  cases given : flags.precision <;> by_cases zero : value = 0 <;>
    simp only [given,zero,decide_true,decide_false,Bool.false_and,Bool.true_and,Bool.false_eq_true,if_true,
      if_false,List.length_map] at few <;>
    simp [zero,List.take_of_length_le,few]

theorem all_digits_length {value base : Nat} {flags : Flags} (plain : flags.precision = true ∨ value ≠ 0) :
    (all_digits value base flags).length = (Nat.digits base value).length := by
  unfold all_digits digits
  by_cases zero : value = 0
  · have precision : flags.precision = true := plain.resolve_right (fun nonzero => nonzero zero)
    simp [zero,precision]
  · simp [zero]

/-- The digits padded to the precision are the body. -/
theorem body_eq (value base : Nat) {prec : Nat} {flags : Flags} (none : flags.precision = false → prec = 0) :
    iso_body value base flags.uppercase (stated flags prec) =
      (all_digits value base flags ++ List.replicate (prec - (all_digits value base flags).length) '0').reverse := by
  have pos := digits_length_pos base value
  rw [List.reverse_append,List.reverse_replicate,iso_body,all_digits,stated]
  cases given : flags.precision with
  | false =>
    have zero := none given
    have enough : 1 - (digits base value).length = 0 := by omega
    simp [zero,enough]
  | true =>
    by_cases zero : value = 0
    · subst zero
      cases prec with
      | zero => simp
      | succ prec => simp [digits,digit_char,List.replicate_succ']
    · simp [zero]

theorem body_nonzero {value base : Nat} (nonzero : value ≠ 0) (precision : Option Nat) (flags : Flags) :
    iso_body value base flags.uppercase precision =
      (all_digits value base flags ++
        List.replicate (precision.getD 1 - (all_digits value base flags).length) '0').reverse := by
  simp [iso_body,all_digits,nonzero]

/-- The blanks of `_out_rev` are those that C asks for. -/
theorem iso_text_eq {value base width : Nat} {negative : Bool} {precision : Option Nat} {flags : Flags}
    (none : flags.zeropad = true → precision = none) : iso_text value negative base precision width flags =
      rev_text (iso_core value negative base precision width flags).reverse width flags := by
  unfold iso_text rev_text spaces
  rw [List.reverse_reverse,List.length_reverse]
  cases left : flags.left with
  | true => simp
  | false =>
    cases zeropad : flags.zeropad with
    | false => simp
    | true =>
      have wide : width ≤ (iso_core value negative base precision width flags).length := by
        simp [iso_core,left,zeropad,none zeropad]
        omega
      simp [Nat.sub_eq_zero_of_le wide]

/-- `_out_rev` does not look at the width of a number padded with zeros. -/
theorem rev_text_width {buf : List Char} {width width' : Nat} {flags : Flags}
    (kept : flags.left = false → flags.zeropad = true ∨ width = width') (left : flags.left = true → width = width') :
    rev_text buf width flags = rev_text buf width' flags := by
  unfold rev_text
  cases side : flags.left with
  | true => rw [left side]
  | false =>
    rcases kept side with zeropad | same
    · simp [zeropad]
    · rw [same]

/-- The width that `_ntoa_format` hands on is no other where `_out_rev` looks at it. -/
theorem ntoa_text_eq (x : BitVec 64) (negative : Bool) (base prec width : Nat) (flags : Flags) :
    ntoa_text x negative base prec width flags = rev_text (ntoa_buf x negative base prec width flags).1 width flags := by
  have left : (if x = 0 then { flags with hash := false } else flags).left = flags.left := by split <;> rfl
  have zeropad : (if x = 0 then { flags with hash := false } else flags).zeropad = flags.zeropad := by split <;> rfl
  refine rev_text_width ?_ ?_ <;> rw [ntoa_buf] <;>
    generalize (if x = 0 then { flags with hash := false } else flags) = hashed at left zeropad ⊢ <;> intro side
  · cases given : flags.zeropad with
    | true => exact .inl rfl
    | false => simp [ntoa_zeros,left,zeropad,side,given]
  · simp [ntoa_zeros,left,side]

/-- Equal texts have equal characters other than blanks. -/
theorem rev_text_filter {buf buf' : List Char} {width : Nat} {flags : Flags}
    (same : rev_text buf width flags = rev_text buf' width flags) :
    buf.filter (· ≠ ' ') = buf'.filter (· ≠ ' ') := by
  have core : ∀ buf, (rev_text buf width flags).filter (· ≠ ' ') = (buf.filter (· ≠ ' ')).reverse := fun buf => by
    unfold rev_text spaces
    cases flags.left <;> cases flags.zeropad <;> simp [List.filter_reverse]
  have both := congrArg (List.filter (· ≠ ' ')) same
  rw [core,core] at both
  exact List.reverse_injective both

section
variable {value base prec width : Nat} {negative : Bool} {flags : Flags} (asked : Asked base prec negative flags)
include asked

theorem stated_none (zeropad : flags.zeropad = true) : stated flags prec = none := by
  simp [stated,asked.zeropad zeropad]

theorem unpadded (given : flags.precision = true) : flags.zeropad = false := by
  cases zeropad : flags.zeropad with
  | true => exact absurd (given.symm.trans (asked.zeropad zeropad)) (by decide)
  | false => rfl

/-- Without the flag `#`: the sign, the zeros of the width and of the precision, the digits. -/
theorem core_plain (plain : flags.hash = false) : iso_core value negative base (stated flags prec) width flags =
    iso_sign negative flags.plus flags.space ++ List.replicate (if !flags.left && flags.zeropad
        then width - ((iso_sign negative flags.plus flags.space).length + (all_digits value base flags).length) else 0) '0' ++
      (all_digits value base flags ++ List.replicate (prec - (all_digits value base flags).length) '0').reverse := by
  have body := body_eq value base asked.none
  have same : iso_precision value base (stated flags prec) flags = stated flags prec := by simp [iso_precision,plain]
  rw [iso_core,same,body]
  cases zeropad : flags.zeropad with
  | false => simp [iso_mark,plain]
  | true =>
    have none := asked.zeropad zeropad
    have zero := asked.none none
    simp [iso_mark,plain,stated,none,zero]

/-- The leading zeros of a number that is not left-justified: the sign takes one place of
    the width. -/
theorem ntoa_zeros_eq {ds : List Char} (right : flags.left = false)
    (room : (if flags.zeropad then width - (iso_sign negative flags.plus flags.space).length else prec) ≤ NTOA_BUFFER_SIZE) :
    (ntoa_zeros ds negative prec width flags).1 = ds ++ List.replicate
      ((if flags.zeropad then width - (iso_sign negative flags.plus flags.space).length else prec) - ds.length) '0' := by
  have few := sign_length negative flags.plus flags.space
  cases zeropad : flags.zeropad with
  | true =>
    rw [zeropad,if_pos rfl] at room
    have zero := asked.none (asked.zeropad zeropad)
    have wide : (if width ≠ 0 && true && (negative || (flags.plus || flags.space)) then width - 1 else width) =
        width - (iso_sign negative flags.plus flags.space).length := by
      rw [few]
      cases negative || (flags.plus || flags.space) <;> by_cases empty : width = 0 <;> simp [empty]
    rw [ntoa_zeros,right,zeropad,wide,zero]
    simp [zeros_eq room,zeros_eq (Nat.zero_le _)]
  | false =>
    rw [zeropad,if_neg Bool.false_ne_true] at room
    simp [ntoa_zeros,right,zeropad,zeros_eq room]

omit asked in
/-- Without the flag `#`, the buffer is the digits with their zeros and the sign. -/
theorem ntoa_buf_bare (plain : flags.hash = false) (x : BitVec 64) : (ntoa_buf x negative base prec width flags).1 =
    ntoa_sign (ntoa_zeros (if !flags.precision || x ≠ 0 then ntoa_digits base flags.uppercase NTOA_BUFFER_SIZE x.toNat else [])
      negative prec width flags).1 negative flags := by
  have kept : (if x = 0 then { flags with hash := false } else flags) = flags := by
    split
    · rw [← plain]
    · rfl
  simp only [ntoa_buf,kept]
  rw [ntoa_hash,if_neg (by simp [plain])]

theorem ntoa_buf_plain (plain : flags.hash = false) {x : BitVec 64} (same : x.toNat = value)
    (few : (all_digits value base flags).length ≤ NTOA_BUFFER_SIZE) : (ntoa_buf x negative base prec width flags).1 =
      ntoa_sign (ntoa_zeros (all_digits value base flags) negative prec width flags).1 negative flags := by
  have zero : x = 0 ↔ value = 0 := by
    rw [← same]
    exact BitVec.toNat_inj.symm
  have two : 2 ≤ base := by have known := asked.known; omega
  have ds := put_digits_eq two few
  rw [ntoa_buf_bare plain,same]
  simp only [ne_eq,zero] at ds ⊢
  rw [ds]

omit asked in
/-- A precision beyond the digits is one that was asked for. -/
theorem beyond_digits (none : flags.precision = false → prec = 0) :
    prec - (all_digits value base flags).length = 0 ↔ prec ≤ (Nat.digits base value).length := by
  by_cases zero : prec = 0
  · simp [zero]
  · have given : flags.precision = true := by
      cases given : flags.precision with
      | true => rfl
      | false => exact absurd (none given) zero
    rw [all_digits_length (.inl given)]
    exact Nat.sub_eq_zero_iff_le

/-- Without the flag `#`, what C says is given out but where a left-justified number
    lacks the zeros of its precision. -/
theorem ntoa_plain (plain : flags.hash = false) {x : BitVec 64} (same : x.toNat = value)
    (room : (iso_core value negative base (stated flags prec) width flags).length ≤ NTOA_BUFFER_SIZE) :
    ntoa_text x negative base prec width flags = iso_text value negative base (stated flags prec) width flags ↔
      (flags.left = true → prec ≤ (Nat.digits base value).length) := by
  have core : iso_core value negative base (stated flags prec) width flags = _ := core_plain asked plain
  have beyond : prec - (all_digits value base flags).length = 0 ↔ _ := beyond_digits asked.none
  have bare : flags.zeropad = true → prec = 0 := fun zeropad => asked.none (asked.zeropad zeropad)
  rw [core] at room
  rw [ntoa_text_eq,iso_text_eq (stated_none asked),ntoa_buf_plain asked plain same (by simp at room; omega),core]
  generalize all_digits value base flags = ds at room beyond ⊢
  generalize signed : iso_sign negative flags.plus flags.space = sign at room ⊢
  simp only [List.length_append,List.length_replicate,List.length_reverse] at room
  cases left : flags.left with
  | false =>
    rw [left] at room
    have zeros : (ntoa_zeros ds negative prec width flags).1 =
        ds ++ List.replicate ((if flags.zeropad then width - sign.length else prec) - ds.length) '0' := by
      rw [ntoa_zeros_eq asked left,signed]
      cases zeropad : flags.zeropad <;> simp [zeropad,signed] at room ⊢ <;> omega
    rw [zeros,ntoa_sign_eq,signed]
    · cases zeropad : flags.zeropad with
      | false => simp
      | true => simp [bare zeropad,Nat.sub_sub]
    · rw [signed,List.length_append,List.length_replicate]
      cases zeropad : flags.zeropad <;> simp [zeropad] at room ⊢ <;> omega
  | true =>
    have zeros : (ntoa_zeros ds negative prec width flags).1 = ds := by simp [ntoa_zeros,left]
    rw [zeros,ntoa_sign_eq (by rw [signed]; omega),signed,← beyond]
    constructor
    · intro same _
      have filtered := congrArg List.length (rev_text_filter same)
      simp at filtered
      omega
    · intro enough
      rw [enough rfl]
      simp

omit asked in
/-- What C asks of `#` for a zero is there already, but for the zero of `%#.0o`. -/
theorem core_zero (some : base = 8 → flags.precision = true → 0 < prec) :
    iso_core 0 negative base (stated flags prec) width flags =
      iso_core 0 negative base (stated flags prec) width { flags with hash := false } := by
  have body : iso_body 0 base flags.uppercase (iso_precision 0 base (stated flags prec) flags) =
      iso_body 0 base flags.uppercase (stated flags prec) := by
    by_cases octal : flags.hash = true ∧ base = 8
    · cases given : flags.precision with
      | false => simp [iso_precision,octal,stated,given,iso_body]
      | true =>
        have most : max prec 1 = prec := max_eq_left (some octal.2 given)
        simp [iso_precision,octal,stated,given,most]
    · rw [iso_precision,if_neg (by simpa using octal)]
  have plain : iso_precision 0 base (stated flags prec) { flags with hash := false } = stated flags prec := rfl
  simp only [iso_core,body,plain]
  simp [iso_mark]

/-- For zero the code drops `#`. -/
theorem ntoa_zero (hash : flags.hash = true)
    (room : (iso_core 0 negative base (stated flags prec) width flags).length ≤ NTOA_BUFFER_SIZE) :
    ntoa_text 0 negative base prec width flags = iso_text 0 negative base (stated flags prec) width flags ↔
      Sound 0 base prec width flags := by
  have bare : Asked base prec negative { flags with hash := false } := ⟨asked.known,asked.none,asked.zeropad,nofun⟩
  by_cases some : base = 8 → flags.precision = true → 0 < prec
  · have core : iso_core 0 negative base (stated flags prec) width flags = _ := core_zero some
    have iso : iso_text 0 negative base (stated flags prec) width flags =
        iso_text 0 negative base (stated flags prec) width { flags with hash := false } := by rw [iso_text,iso_text,core]
    rw [core] at room
    have whole := ntoa_plain bare rfl (rfl : (0 : BitVec 64).toNat = 0) room
    rw [iso,show Sound 0 base prec width flags ↔ (flags.left = true → prec ≤ (Nat.digits base 0).length) from ?_]
    · exact whole
    · constructor
      · intro sound left
        exact (sound.left left).resolve_right (fun octal => octal.2.2.1 rfl)
      · intro enough
        refine ⟨fun left => .inl (enough left),fun _ octal given => ?_,fun _ nonzero => absurd rfl nonzero,
          fun _ nonzero => absurd rfl nonzero⟩
        rw [if_pos rfl]
        exact some octal given
  · obtain ⟨octal,given,none⟩ : base = 8 ∧ flags.precision = true ∧ prec = 0 := by
      refine ⟨by tauto,by tauto,?_⟩
      by_contra pos
      exact some fun _ _ => Nat.pos_of_ne_zero pos
    subst octal none
    constructor
    · intro same
      obtain ⟨positive,plus,space⟩ := sign_none (asked.hash hash).2
      have unpadded := unpadded asked given
      have nothing : (ntoa_buf 0 negative 8 0 width flags).1 = [] := by
        cases left : flags.left <;> simp [ntoa_buf,ntoa_zeros,zeros,ntoa_hash,ntoa_sign,given,positive,plus,space,
          unpadded,left]
      have digit : iso_core 0 negative 8 (stated flags 0) width flags = ['0'] := by
        simp [iso_core,iso_sign,iso_mark,iso_precision,iso_body,stated,given,positive,plus,space,hash,digits,digit_char]
      rw [ntoa_text_eq,iso_text_eq (stated_none asked),nothing,digit] at same
      exact absurd (rev_text_filter same) (by decide)
    · intro sound
      have pos := sound.octal hash rfl given
      rw [if_pos rfl] at pos
      omega

/-- What the flag `#` puts behind the digits of the buffer. -/
def mark (base : Nat) (flags : Flags) : List Char :=
  if base = 16 then [hex_mark flags,'0'] else if base = 2 then ['b','0'] else ['0']

omit asked in
theorem push_take {buf : List Char} (room : buf.length ≤ NTOA_BUFFER_SIZE) (c : Char) :
    push buf c = (buf ++ [c]).take NTOA_BUFFER_SIZE := by
  unfold push
  split
  · rw [List.take_of_length_le (by simpa)]
  · have full : buf.length = NTOA_BUFFER_SIZE := by omega
    rw [List.take_append_of_le_length full.ge,List.take_of_length_le room]

omit asked in
theorem ntoa_mark_eq (buf : List Char) (base : Nat) (flags : Flags) : ntoa_mark buf base flags =
    if base = 16 then push buf (hex_mark flags) else if base = 2 then push buf 'b' else buf := by
  unfold ntoa_mark push hex_mark
  by_cases hex : base = 16
  · by_cases room : buf.length < NTOA_BUFFER_SIZE <;> cases upper : flags.uppercase <;> simp [hex,room]
  · by_cases room : buf.length < NTOA_BUFFER_SIZE <;> by_cases bin : base = 2 <;> simp [hex,bin,room]

omit asked in
/-- The mark stands behind the digits as far as the buffer goes. -/
theorem ntoa_hash_eq (hash : flags.hash = true) (buf : List Char)
    (room : (ntoa_strip buf base prec width flags).length ≤ NTOA_BUFFER_SIZE) : ntoa_hash buf base prec width flags =
      (ntoa_strip buf base prec width flags ++ mark base flags).take NTOA_BUFFER_SIZE := by
  have twice : ∀ buf : List Char, buf.length ≤ NTOA_BUFFER_SIZE → ∀ c,
      push (push buf c) '0' = (buf ++ [c,'0']).take NTOA_BUFFER_SIZE := fun buf room c => by
    rcases room.lt_or_eq with less | full
    · have pushed : push buf c = buf ++ [c] := if_pos less
      rw [pushed,push_take (by simpa using less),List.append_assoc,List.singleton_append]
    · have kept : push buf c = buf := if_neg (by omega)
      rw [kept,push_take room,← full,List.take_left',List.take_left'] <;> rfl
  rw [ntoa_hash,if_pos hash,ntoa_mark_eq,mark]
  split_ifs
  · exact twice _ room _
  · exact twice _ room _
  · exact push_take room _

/-- What is taken off is the front of a number with as many characters as the width. -/
theorem ntoa_strip_eq {buf : List Char} (some : buf ≠ []) : ntoa_strip buf base prec width flags =
    buf.take (buf.length - if !flags.precision && buf.length = width then (if base = 16 then 2 else 1) else 0) := by
  have pos : buf.length ≠ 0 := (List.length_pos_iff.mpr some).ne'
  unfold ntoa_strip
  cases given : flags.precision with
  | true => simp
  | false =>
    by_cases wide : width = buf.length
    · subst wide
      have taken : buf.dropLast.dropLast = buf.take (buf.length - 2) := by
        rw [List.dropLast_eq_take,List.dropLast_eq_take,List.take_take,List.length_take]
        congr 1
        omega
      have both : (if buf.dropLast.length ≠ 0 && base = 16 then buf.dropLast.dropLast else buf.dropLast) =
          buf.take (buf.length - if base = 16 then 2 else 1) := by
        by_cases hex : base = 16
        · rw [if_pos hex,← taken]
          cases short : buf.dropLast with
          | nil => simp
          | cons c rest => simp [hex]
        · simp [hex,List.dropLast_eq_take]
      simpa [some] using both
    · have zero := asked.none given
      simp [some,Ne.symm wide,zero]

omit asked in
/-- Two numbers of the same digits, padded with zeros. -/
theorem padded_iff {ds mark : List Char} {k m z : Nat} (within : m ≤ ds.length + k)
    (room : m + mark.length ≤ NTOA_BUFFER_SIZE) :
    ((ds ++ List.replicate k '0').take m ++ mark).take NTOA_BUFFER_SIZE = ds ++ List.replicate z '0' ++ mark ↔
    m = ds.length + z := by
  have whole : ((ds ++ List.replicate k '0').take m ++ mark).length ≤ NTOA_BUFFER_SIZE := by
    rw [List.length_append,List.length_take,List.length_append,List.length_replicate]
    omega
  rw [List.take_of_length_le whole]
  constructor
  · intro same
    have lengths := congrArg List.length same
    simp only [List.length_append,List.length_take,List.length_replicate] at lengths
    omega
  · rintro rfl
    rw [List.take_length_add_append,List.take_replicate,Nat.min_eq_left (by omega)]

/-- The zeros that C asks for between the mark and the digits, where in base 8 the first
    zero is the mark. -/
def iso_zeros (base len prec width : Nat) (flags : Flags) : Nat :=
  if !flags.left && flags.zeropad then width - (len + (mark base flags).length) else prec -
    (len + if base = 8 then 1 else 0)

omit asked in
theorem zeros_joined (front ds : List Char) (a b : Nat) :
    front ++ List.replicate a '0' ++ (ds ++ List.replicate b '0').reverse =
    front ++ List.replicate (a + b) '0' ++ ds.reverse := by
  rw [List.reverse_append,List.reverse_replicate,List.append_assoc front,← List.append_assoc (List.replicate a '0'),
    List.replicate_append_replicate,List.append_assoc front]

theorem core_hash (nonzero : value ≠ 0) (hash : flags.hash = true) :
    iso_core value negative base (stated flags prec) width flags =
    (all_digits value base flags ++
      List.replicate (iso_zeros base (all_digits value base flags).length prec width flags) '0' ++
      mark base flags).reverse := by
  have len : (all_digits value base flags).length = _ := all_digits_length (.inr nonzero)
  obtain ⟨decimal,signless⟩ := asked.hash hash
  have none := asked.none
  have bare := asked.zeropad
  by_cases octal : base = 8
  · have raised : iso_precision value base (stated flags prec) flags =
        some (max ((stated flags prec).getD 1) ((all_digits value base flags).length + 1)) := by
      rw [len]
      exact if_pos (by simp [hash,octal])
    have unmarked : iso_mark value base flags = [] := by simp [iso_mark,octal]
    rw [iso_core,raised,body_nonzero nonzero,unmarked,signless,zeros_joined]
    generalize all_digits value base flags = ds
    have count : ∀ z, z = iso_zeros base ds.length prec width flags + 1 → [] ++ [] ++ List.replicate z '0' ++ ds.reverse =
        (ds ++ List.replicate (iso_zeros base ds.length prec width flags) '0' ++ mark base flags).reverse := by
      rintro z rfl
      simp [mark,octal,List.replicate_succ]
    refine count _ ?_
    cases zeropad : flags.zeropad with
    | true =>
      have given := bare zeropad
      have zero := none given
      cases left : flags.left <;> simp [iso_zeros,mark,octal,stated,zeropad,given,zero,left]
    | false =>
      cases given : flags.precision with
      | true =>
        simp [iso_zeros,octal,stated,zeropad,given]
        omega
      | false =>
        have zero := none given
        simp [iso_zeros,octal,stated,zeropad,given,zero]
  · have unraised : iso_precision value base (stated flags prec) flags = stated flags prec := by simp [iso_precision,octal]
    have marked : iso_mark value base flags = (mark base flags).reverse := by
      have known := asked.known
      by_cases hex : base = 16
      · simp [iso_mark,mark,hash,nonzero,hex]
      · simp [iso_mark,mark,hash,nonzero,show base = 2 by omega]
    rw [iso_core,unraised,body_eq value base asked.none,signless,marked,zeros_joined]
    simp only [List.nil_append,List.reverse_append,List.reverse_replicate,List.append_assoc]
    congr 3
    cases zeropad : flags.zeropad with
    | true =>
      have given := bare zeropad
      have zero := none given
      cases left : flags.left <;> simp [iso_zeros,octal,stated,zeropad,given,zero,left]
      omega
    | false => simp [iso_zeros,octal,zeropad]

/-- For a number other than zero and `#`, the digits with their zeros are stripped and marked. -/
theorem ntoa_buf_hash (nonzero : value ≠ 0) (hash : flags.hash = true) {x : BitVec 64} (same : x.toNat = value)
    (few : (all_digits value base flags).length ≤ NTOA_BUFFER_SIZE) : (ntoa_buf x negative base prec width flags).1 =
      ntoa_hash (ntoa_zeros (all_digits value base flags) negative prec width flags).1 base prec width flags := by
  obtain ⟨positive,plus,space⟩ := sign_none (asked.hash hash).2
  have word : x ≠ 0 := fun zero => nonzero (by rw [← same,zero]; rfl)
  have kept : (if x = 0 then { flags with hash := false } else flags) = flags := if_neg word
  have two : 2 ≤ base := by have known := asked.known; omega
  have ds := put_digits_eq two few
  have handed : (ntoa_zeros (all_digits value base flags) negative prec width flags).2 = width := by
    cases left : flags.left <;> simp [ntoa_zeros,positive,plus,space,left]
  rw [if_pos (by simp [nonzero])] at ds
  have put : (if !flags.precision || x ≠ 0 then ntoa_digits base flags.uppercase NTOA_BUFFER_SIZE value else []) =
      all_digits value base flags := (if_pos (by rw [decide_eq_true word,Bool.or_true])).trans ds
  simp only [ntoa_buf,kept,same,put,handed]
  simp [ntoa_sign,positive,plus,space]

/-- The zeros that `_ntoa_format` puts before the digits. -/
def put_zeros (len prec width : Nat) (flags : Flags) : Nat :=
  if flags.left then 0 else (if flags.zeropad then width else prec) - len
/-- The characters it takes off for `#`. -/
def stripped (base len prec width : Nat) (flags : Flags) : Nat :=
  if !flags.precision && len + put_zeros len prec width flags = width then (if base = 16 then 2 else 1) else 0

omit asked in
/-- Texts of characters other than blanks are equal where these are. -/
theorem rev_text_iff {buf buf' : List Char} (some : ' ' ∉ buf) (some' : ' ' ∉ buf') :
    rev_text buf width flags = rev_text buf' width flags ↔ buf = buf' := by
  have all : ∀ {buf : List Char}, ' ' ∉ buf → buf.filter (· ≠ ' ') = buf := fun {buf} some =>
    List.filter_eq_self.mpr fun c member => decide_eq_true fun blank => some (blank ▸ member)
  constructor
  · intro same
    rw [← all some,← all some',rev_text_filter same]
  · rintro rfl
    rfl

omit asked in
theorem blank_digits (two : 2 ≤ base) (most : base ≤ 16) : ' ' ∉ all_digits value base flags := by
  have all : ∀ u : Bool, ∀ d < 16, digit_char u d ≠ ' ' := by decide
  intro member
  unfold all_digits at member
  split at member
  · cases member
  · obtain ⟨d,inside,is⟩ := List.mem_map.mp member
    exact all _ d ((digits_lt two inside).trans_le most) is

omit asked in
theorem blank_padded {ds : List Char} (unblank : ' ' ∉ ds) (k : Nat) : ' ' ∉ ds ++ List.replicate k '0' := by
  intro member
  rcases List.mem_append.mp member with digit | zero
  · exact unblank digit
  · exact absurd (List.eq_of_mem_replicate zero) (by decide)

omit asked in
theorem blank_mark (base : Nat) (flags : Flags) : ' ' ∉ mark base flags := by
  unfold mark hex_mark
  split_ifs <;> decide

omit asked in
theorem sound_hash (nonzero : value ≠ 0) (hash : flags.hash = true) : Sound value base prec width flags ↔
    (flags.left = true → prec ≤ (Nat.digits base value).length ∨ base = 8 ∧ prec = (Nat.digits base value).length + 1) ∧
    (base = 8 → flags.precision = true → flags.left = true ∨ prec ≤ (Nat.digits base value).length ∨
      prec = NTOA_BUFFER_SIZE) ∧
    (flags.precision = false → flags.left = true ∨ flags.zeropad = false → width ≠ (Nat.digits base value).length) ∧
    (flags.left = false → flags.zeropad = true →
      if base = 2 then width < (Nat.digits base value).length ∨ width = (Nat.digits base value).length + 1
      else width ≠ (Nat.digits base value).length ∧ (base = 16 → width ≠ (Nat.digits base value).length + 1)) := by
  constructor
  · rintro ⟨left,octal,blanks,zeros⟩
    simp only [hash,nonzero,ne_eq,not_false_eq_true,true_and,if_false,true_implies] at left octal blanks zeros
    exact ⟨left,octal,blanks,zeros⟩
  · rintro ⟨left,octal,blanks,zeros⟩
    refine ⟨fun side => (left side).imp_right fun last => ⟨hash,last.1,nonzero,last.2⟩,fun _ => ?_,
      fun _ _ => blanks,fun _ _ => zeros⟩
    rwa [if_neg nonzero]

/-- The zeros that `_ntoa_format` puts are within the buffer where those of C are, and
    what it then leaves of the number is. -/
theorem put_within (hash : flags.hash = true) {n : Nat} (some : 0 < n)
    (room : n + iso_zeros base n prec width flags + (mark base flags).length ≤ NTOA_BUFFER_SIZE) :
    (flags.left = false → (if flags.zeropad then width else prec) ≤ NTOA_BUFFER_SIZE) ∧
      n + put_zeros n prec width flags - stripped base n prec width flags ≤ NTOA_BUFFER_SIZE := by
  obtain ⟨decimal,-⟩ := asked.hash hash
  have known := asked.known
  unfold NTOA_BUFFER_SIZE at room ⊢
  unfold stripped
  cases left : flags.left <;> cases zeropad : flags.zeropad <;>
    rcases known with rfl | rfl | rfl | rfl <;>
    simp [iso_zeros,put_zeros,mark,left,zeropad] at room decimal ⊢ <;> omega

/-- With `#`, the buffer is what is left of the padded digits and the mark. -/
theorem ntoa_buf_marked (nonzero : value ≠ 0) (hash : flags.hash = true) {x : BitVec 64} (same : x.toNat = value) {n : Nat}
    (len : (all_digits value base flags).length = n) (pos : 0 < n)
    (room : n + iso_zeros base n prec width flags + (mark base flags).length ≤ NTOA_BUFFER_SIZE) :
    (ntoa_buf x negative base prec width flags).1 =
      ((all_digits value base flags ++ List.replicate (put_zeros n prec width flags) '0').take
        (n + put_zeros n prec width flags - stripped base n prec width flags) ++
        mark base flags).take NTOA_BUFFER_SIZE := by
  have signless := (asked.hash hash).2
  obtain ⟨within,kept⟩ := put_within asked hash pos room
  have padded : (ntoa_zeros (all_digits value base flags) negative prec width flags).1 =
      all_digits value base flags ++ List.replicate (put_zeros n prec width flags) '0' := by
    cases left : flags.left with
    | true => simp [ntoa_zeros,put_zeros,left]
    | false =>
      rw [ntoa_zeros_eq asked left,signless,len]
      · simp [put_zeros,left]
      · rw [signless]
        exact within left
  have some : all_digits value base flags ++ List.replicate (put_zeros n prec width flags) '0' ≠ [] := by
    intro empty
    rw [(List.append_eq_nil_iff.mp empty).1] at len
    exact absurd len pos.ne
  have strip : ntoa_strip _ base prec width flags = _ := ntoa_strip_eq asked some
  rw [List.length_append,List.length_replicate,len] at strip
  rw [ntoa_buf_hash asked nonzero hash same (by omega),padded,ntoa_hash_eq hash,strip]
  · rfl
  · rw [strip]
    exact (List.length_take_le _ _).trans kept

/-- As many digits are left as C asks for, or the mark does not fit behind them. -/
theorem stripped_iff (hash : flags.hash = true) {n : Nat} (pos : 0 < n) (nonzero : value ≠ 0)
    (len : (Nat.digits base value).length = n)
    (room : n + iso_zeros base n prec width flags + (mark base flags).length ≤ NTOA_BUFFER_SIZE) :
    Sound value base prec width flags ↔
      if n + put_zeros n prec width flags - stripped base n prec width flags + (mark base flags).length ≤ NTOA_BUFFER_SIZE
      then n + put_zeros n prec width flags - stripped base n prec width flags = n + iso_zeros base n prec width flags
      else base = 8 := by
  obtain ⟨decimal,-⟩ := asked.hash hash
  have known := asked.known
  have none := asked.none
  have bare := asked.zeropad
  rw [sound_hash nonzero hash,len]
  unfold NTOA_BUFFER_SIZE at room ⊢
  unfold stripped
  cases given : flags.precision with
  | true =>
    have unpadded := unpadded asked given
    cases left : flags.left <;> rcases known with rfl | rfl | rfl | rfl <;>
      simp [iso_zeros,put_zeros,mark,left,unpadded] at room decimal ⊢ <;> omega
  | false =>
    obtain rfl := none given
    cases left : flags.left <;> cases zeropad : flags.zeropad <;> rcases known with rfl | rfl | rfl | rfl <;>
      simp [iso_zeros,put_zeros,mark,left,zeropad] at room decimal ⊢ <;> split <;> omega

/-- The mark does not fit behind 31 digits of base 2, or behind the 32 of a precision of
    base 8. -/
theorem overfull (hash : flags.hash = true) {n : Nat} (pos : 0 < n)
    (room : n + iso_zeros base n prec width flags + (mark base flags).length ≤ NTOA_BUFFER_SIZE)
    (full : ¬ n + put_zeros n prec width flags - stripped base n prec width flags + (mark base flags).length ≤
      NTOA_BUFFER_SIZE) :
    base = 2 ∧ n + put_zeros n prec width flags - stripped base n prec width flags = 31 ∨
      base = 8 ∧ put_zeros n prec width flags = iso_zeros base n prec width flags + 1 ∧
      stripped base n prec width flags = 0 ∧
        n + put_zeros n prec width flags = NTOA_BUFFER_SIZE := by
  obtain ⟨decimal,-⟩ := asked.hash hash
  have known := asked.known
  unfold NTOA_BUFFER_SIZE at room full ⊢
  unfold stripped at full ⊢
  cases given : flags.precision with
  | true =>
    have unpadded := unpadded asked given
    cases left : flags.left <;> rcases known with rfl | rfl | rfl | rfl <;>
      simp [iso_zeros,put_zeros,mark,left,unpadded,given] at room full decimal ⊢ <;> omega
  | false =>
    obtain rfl := asked.none given
    cases left : flags.left <;> cases zeropad : flags.zeropad <;> rcases known with rfl | rfl | rfl | rfl <;>
      simp [iso_zeros,put_zeros,mark,left,zeropad,given] at room full decimal ⊢ <;> split_ifs at full ⊢ <;> omega

/-- Where the mark does not fit, it is the zero of base 8 that a precision has put there
    already, or the `0b` of base 2 without its zero. -/
theorem overfull_iff (hash : flags.hash = true) {ds : List Char} (pos : 0 < ds.length)
    (room : ds.length + iso_zeros base ds.length prec width flags + (mark base flags).length ≤ NTOA_BUFFER_SIZE)
    (full : ¬ ds.length + put_zeros ds.length prec width flags - stripped base ds.length prec width flags +
        (mark base flags).length ≤
      NTOA_BUFFER_SIZE) :
    ((ds ++ List.replicate (put_zeros ds.length prec width flags) '0').take
        (ds.length + put_zeros ds.length prec width flags - stripped base ds.length prec width flags) ++
        mark base flags).take
      NTOA_BUFFER_SIZE = ds ++ List.replicate (iso_zeros base ds.length prec width flags) '0' ++ mark base flags ↔
      base = 8 := by
  rcases overfull asked hash pos room full with ⟨rfl,most⟩ | ⟨rfl,zeros,kept,most⟩
  · rw [most]
    have length : ((ds ++ List.replicate (put_zeros ds.length prec width flags) '0').take 31).length = 31 := by
      rw [List.length_take,List.length_append,List.length_replicate]
      omega
    have last : (((ds ++ List.replicate (put_zeros ds.length prec width flags) '0').take 31 ++ mark 2 flags).take
        NTOA_BUFFER_SIZE).getLast? = some 'b' := by
      generalize (ds ++ List.replicate (put_zeros ds.length prec width flags) '0').take 31 = digits at length ⊢
      have whole : (digits ++ mark 2 flags).take NTOA_BUFFER_SIZE = digits ++ ['b'] := by
        rw [List.take_append,length]
        simp [mark,NTOA_BUFFER_SIZE,length]
      rw [whole,List.getLast?_concat]
    constructor
    · intro same
      rw [same] at last
      simp [mark] at last
    · intro octal
      cases octal
  · have length : (ds ++ List.replicate (put_zeros ds.length prec width flags) '0').length = NTOA_BUFFER_SIZE := by
      rw [List.length_append,List.length_replicate,most]
    rw [kept,Nat.sub_zero,most,List.take_of_length_le length.le,List.take_append_of_le_length length.ge,
      List.take_of_length_le length.le,zeros]
    simp [mark,List.replicate_succ']

/-- With `#`, what C says is given out where as many digits are left as it asks for. -/
theorem ntoa_hash_iff (nonzero : value ≠ 0) (hash : flags.hash = true) {x : BitVec 64} (same : x.toNat = value)
    (room : (iso_core value negative base (stated flags prec) width flags).length ≤ NTOA_BUFFER_SIZE) :
    ntoa_text x negative base prec width flags = iso_text value negative base (stated flags prec) width flags ↔
      Sound value base prec width flags := by
  have len : (all_digits value base flags).length = _ := all_digits_length (.inr nonzero)
  have pos : 0 < (Nat.digits base value).length := List.length_pos_iff.mpr (Nat.digits_ne_nil_iff_ne_zero.mpr nonzero)
  have core : iso_core value negative base (stated flags prec) width flags = _ := core_hash asked nonzero hash
  rw [core] at room
  simp only [List.length_reverse,List.length_append,List.length_replicate] at room
  rw [ntoa_text_eq,iso_text_eq (stated_none asked),core,List.reverse_reverse]
  rw [← len] at pos
  rw [ntoa_buf_marked asked nonzero hash same rfl pos room]
  have sound := stripped_iff asked hash pos nonzero len.symm room
  have unblank : ' ' ∉ all_digits value base flags := by
    have known := asked.known
    exact blank_digits (by omega) (by omega)
  generalize all_digits value base flags = ds at room pos sound unblank ⊢
  rw [rev_text_iff,sound]
  · split
    · rename_i whole
      exact padded_iff (Nat.sub_le _ _) whole
    · rename_i full
      exact overfull_iff asked hash pos room full
  · intro member
    rcases List.mem_append.mp (List.mem_of_mem_take member) with kept | marked
    · exact blank_padded unblank _ (List.mem_of_mem_take kept)
    · exact blank_mark base flags marked
  · intro member
    rcases List.mem_append.mp member with digit | marked
    · exact blank_padded unblank _ digit
    · exact blank_mark base flags marked

/-- Where the buffer suffices, `_ntoa_format` gives out what C says exactly where it is sound. -/
theorem ntoa_iff {x : BitVec 64} (same : x.toNat = value)
    (room : (iso_core value negative base (stated flags prec) width flags).length ≤ NTOA_BUFFER_SIZE) :
    ntoa_text x negative base prec width flags = iso_text value negative base (stated flags prec) width flags ↔
      Sound value base prec width flags := by
  cases hash : flags.hash with
  | false =>
    refine (ntoa_plain asked hash same room).trans ⟨fun enough => ?_,fun sound left => ?_⟩
    · refine ⟨fun left => .inl (enough left),?_,?_,?_⟩ <;> intro marked <;> rw [hash] at marked <;> cases marked
    · refine (sound.left left).resolve_right fun octal => ?_
      rw [hash] at octal
      cases octal.1
  | true =>
    by_cases zero : value = 0
    · subst zero
      obtain rfl : x = 0 := BitVec.eq_of_toNat_eq same
      exact ntoa_zero asked hash room
    · exact ntoa_hash_iff asked zero hash same room

end

/-- The digits of a text. -/
def digits_of (cs : List Char) : List Char := cs.filter is_digit

theorem digits_of_rev (buf : List Char) (width : Nat) (flags : Flags) :
    digits_of (rev_text buf width flags) = digits_of buf.reverse := by
  have blank : is_digit ' ' = false := by decide
  unfold digits_of rev_text spaces
  cases flags.left <;> cases flags.zeropad <;> simp [blank]

theorem digits_of_zeros (k : Nat) (cs : List Char) :
    digits_of (List.replicate k '0' ++ cs) = List.replicate k '0' ++ digits_of cs := by
  have zero : is_digit '0' = true := by decide
  simp [digits_of,zero]

theorem digits_of_sign (negative plus space : Bool) (cs : List Char) :
    digits_of (iso_sign negative plus space ++ cs) = digits_of cs := by
  have signs : is_digit '-' = false ∧ is_digit '+' = false ∧ is_digit ' ' = false := by decide
  cases negative <;> cases plus <;> cases space <;> simp [digits_of,iso_sign,signs]

/-- The digits that C asks for in base 10 stand for the value. -/
theorem number_iso_text (value : Nat) (negative : Bool) (precision : Option Nat) (width : Nat) {flags : Flags}
    (plain : flags.hash = false) :
    number 10 (digits_of (iso_text value negative 10 precision width flags)) = value := by
  have blank : is_digit ' ' = false := by decide
  have core : digits_of (iso_text value negative 10 precision width flags) =
      digits_of (iso_core value negative 10 precision width flags) := by
    unfold digits_of iso_text
    cases flags.left <;> simp [blank]
  have all : digits_of (iso_body value 10 flags.uppercase precision) = iso_body value 10 flags.uppercase precision :=
    List.filter_eq_self.mpr is_digit_body
  have unmarked : iso_mark value 10 flags = [] := by simp [iso_mark,plain]
  have same : iso_precision value 10 precision flags = precision := by simp [iso_precision,plain]
  rw [core,iso_core,unmarked,same,List.append_nil,List.append_assoc,digits_of_sign,digits_of_zeros,all,
    number_append,number_zeros,Nat.zero_mul,Nat.zero_add,number_body (by omega) (by omega)]

theorem digits_of_push (buf : List Char) {c : Char} (other : is_digit c = false) :
    digits_of (push buf c).reverse = digits_of buf.reverse := by
  unfold push
  split <;> simp [digits_of,other]

theorem digits_of_ntoa_sign (buf : List Char) (negative : Bool) (flags : Flags) :
    digits_of (ntoa_sign buf negative flags).reverse = digits_of buf.reverse := by
  unfold ntoa_sign
  split_ifs
  · exact digits_of_push buf (by decide)
  · exact digits_of_push buf (by decide)
  · exact digits_of_push buf (by decide)
  · rfl

theorem ntoa_zeros_some (ds : List Char) (negative : Bool) (prec width : Nat) (flags : Flags) :
    ∃ k, (ntoa_zeros ds negative prec width flags).1 = ds ++ List.replicate k '0' := by
  unfold ntoa_zeros
  split
  · exact ⟨0,by simp⟩
  · dsimp only
    split
    · exact ⟨_,by rw [zeros,zeros,List.append_assoc,List.replicate_append_replicate]⟩
    · exact ⟨_,rfl⟩

/-- Those that are given out stand for the magnitude, whatever the buffer cuts off. -/
theorem number_ntoa_text (x : BitVec 64) (negative : Bool) (prec width : Nat) {flags : Flags} (plain : flags.hash = false) :
    number 10 (digits_of (ntoa_text x negative 10 prec width flags)) = x.toNat := by
  rw [ntoa_text_eq,digits_of_rev,ntoa_buf_bare plain,digits_of_ntoa_sign]
  obtain ⟨k,padded⟩ := ntoa_zeros_some (if !flags.precision ||
    x ≠ 0 then ntoa_digits 10 flags.uppercase NTOA_BUFFER_SIZE x.toNat else [])
    negative prec width flags
  rw [padded,List.reverse_append,List.reverse_replicate,digits_of_zeros,number_append,number_zeros,Nat.zero_mul,
    Nat.zero_add]
  split
  · have all : digits_of (ntoa_digits 10 flags.uppercase NTOA_BUFFER_SIZE x.toNat).reverse =
        (ntoa_digits 10 flags.uppercase NTOA_BUFFER_SIZE x.toNat).reverse := by
      refine List.filter_eq_self.mpr fun c member => ?_
      rw [ntoa_digits_eq (by omega)] at member
      obtain ⟨d,inside,rfl⟩ := List.mem_map.mp (List.mem_reverse.mp member)
      exact is_digit_char _ (digits_lt (by omega) (List.mem_of_mem_take inside))
    have small := x.isLt
    rw [all,number_ntoa_digits (by omega) (by omega),Nat.mod_eq_of_lt]
    unfold NTOA_BUFFER_SIZE
    omega
  · rename_i none
    have zero : x = 0 := by
      by_contra nonzero
      exact none (by rw [decide_eq_true nonzero,Bool.or_true])
    rw [zero]
    rfl

end Bootcode.PrintfIso
