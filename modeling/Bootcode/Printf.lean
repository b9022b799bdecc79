import Mathlib.Data.BitVec

/-!
`libc/printf.c`: the integer and string output of `_vsnprintf` over any output
function. A `char` is a character below 256. A `char*` is the list of characters
from it to the end of the memory that can be read, so that a read of `[]` is a
fault; what lies behind the first NUL is no part of the string.
-/
namespace Bootcode.Printf

def NUL : Char := Char.ofNat 0
/-- `PRINTF_NTOA_BUFFER_SIZE`. -/
def NTOA_BUFFER_SIZE : Nat := 32
/-- `(size_t)-1`. -/
def SIZE_MAX : Nat := 2 ^ 64 - 1

/-- The `FLAGS_` bits. -/
structure Flags where
  zeropad : Bool := false
  left : Bool := false
  plus : Bool := false
  space : Bool := false
  hash : Bool := false
  uppercase : Bool := false
  char : Bool := false
  short : Bool := false
  long : Bool := false
  long_long : Bool := false
  precision : Bool := false
  adapt_exp : Bool := false
  deriving DecidableEq

/-- What ends a conversion: a format, a string or the arguments read beyond their end. -/
inductive Fault
  | format
  | string
  | va_arg
  deriving DecidableEq

/-- The `va_list`: the general purpose arguments and the doubles still to come. -/
structure VaList where
  gp : List (BitVec 64)
  fp : List (BitVec 64)
  deriving DecidableEq

/-- What the pointers of `%s` point to, and the characters that `_ftoa` and `_etoa`
    give out for a double, a precision, a width and flags. -/
structure Env where
  mem : BitVec 64 → List Char
  ftoa : BitVec 64 → Nat → Nat → Flags → List Char
  etoa : BitVec 64 → Nat → Nat → Flags → List Char

/-- `out_fct_type`: the buffer after a character is given out at an index. -/
abbrev out_fct_type (β : Type) : Type := Char → β → Nat → Nat → β

def out_buffer : out_fct_type (Nat → Char) := fun character buffer idx maxlen =>
  if idx < maxlen then Function.update buffer idx character else buffer
def out_null {β : Type} : out_fct_type β := fun _ buffer _ _ => buffer
/-- `_putchar` appends to what the serial port has sent. -/
def out_char : out_fct_type (List Char) := fun character sent _ _ => if character ≠ NUL then sent ++ [character] else sent
def out_fct {α : Type} (fct : Char → α → α) : out_fct_type α := fun character arg _ _ =>
  if character ≠ NUL then fct character arg else arg

/-- The buffer, and `idx`. -/
structure Out (β : Type) where
  buffer : β
  idx : Nat

section
variable {β : Type} (out : out_fct_type β) (maxlen : Nat)

/-- `out(c, buffer, idx++, maxlen)`. -/
def put (o : Out β) (c : Char) : Out β := ⟨out c o.buffer o.idx maxlen,o.idx + 1⟩
/-- A loop that gives out `n` spaces. -/
def pad : Nat → Out β → Out β
  | 0, o => o
  | n + 1, o => pad n (put out maxlen o ' ')

/-! ### Integers -/

/-- `_out_rev`; `buf` holds `len` characters. -/
def out_rev (o : Out β) (buf : List Char) (width : Nat) (flags : Flags) : Out β :=
  let start_idx := o.idx
  let o := if !flags.left && !flags.zeropad then pad out maxlen (width - buf.length) o else o
  let o := buf.foldr (fun c o => put out maxlen o c) o
  if flags.left then pad out maxlen (width - (o.idx - start_idx)) o else o

/-- `buf[len++] = c`, if there is room. -/
def push (buf : List Char) (c : Char) : List Char := if buf.length < NTOA_BUFFER_SIZE then buf ++ [c] else buf
/-- `while ((len < n) && (len < PRINTF_NTOA_BUFFER_SIZE)) buf[len++] = '0'`. -/
def zeros (buf : List Char) (n : Nat) : List Char :=
  buf ++ List.replicate (min n NTOA_BUFFER_SIZE - buf.length) '0'

/-- The leading zeros of `_ntoa_format`: the buffer, and the width that is left. -/
def ntoa_zeros (buf : List Char) (negative : Bool) (prec width : Nat) (flags : Flags) : List Char × Nat :=
  if flags.left then (buf,width)
  else
    let width := if width ≠ 0 && flags.zeropad && (negative || (flags.plus || flags.space)) then width - 1 else width
    let buf := zeros buf prec
    (if flags.zeropad then zeros buf width else buf,width)
/-- What `_ntoa_format` takes off for the flag `#`: padding, it supposes. -/
def ntoa_strip (buf : List Char) (base prec width : Nat) (flags : Flags) : List Char :=
  if !flags.precision && buf.length ≠ 0 && (buf.length = prec || buf.length = width) then
    let buf := buf.dropLast
    if buf.length ≠ 0 && base = 16 then buf.dropLast else buf
  else buf
/-- The `x`, `X` or `b` of the flag `#`. -/
def ntoa_mark (buf : List Char) (base : Nat) (flags : Flags) : List Char :=
  if base = 16 && !flags.uppercase && buf.length < NTOA_BUFFER_SIZE then push buf 'x'
  else if base = 16 && flags.uppercase && buf.length < NTOA_BUFFER_SIZE then push buf 'X'
  else if base = 2 && buf.length < NTOA_BUFFER_SIZE then push buf 'b'
  else buf
/-- The `0x`, `0X`, `0b` or `0` of `_ntoa_format`. -/
def ntoa_hash (buf : List Char) (base prec width : Nat) (flags : Flags) : List Char :=
  if flags.hash then push (ntoa_mark (ntoa_strip buf base prec width flags) base flags) '0' else buf
/-- The sign of `_ntoa_format`. -/
def ntoa_sign (buf : List Char) (negative : Bool) (flags : Flags) : List Char :=
  if negative then push buf '-'
  else if flags.plus then push buf '+'
  else if flags.space then push buf ' '
  else buf

/-- `_ntoa_format`. -/
def ntoa_format (o : Out β) (buf : List Char) (negative : Bool) (base prec width : Nat) (flags : Flags) : Out β :=
  let (buf,width) := ntoa_zeros buf negative prec width flags
  let buf := ntoa_hash buf base prec width flags
  let buf := ntoa_sign buf negative flags
  out_rev out maxlen o buf width flags

/-- `digit < 10 ? '0' + digit : (flags & FLAGS_UPPERCASE ? 'A' : 'a') + digit - 10`. -/
def digit_char (uppercase : Bool) (digit : Nat) : Char :=
  if digit < 10 then Char.ofNat ('0'.toNat + digit)
  else Char.ofNat ((if uppercase then 'A' else 'a').toNat + digit - 10)
/-- The `do ... while (value && (len < PRINTF_NTOA_BUFFER_SIZE))` of `_ntoa_long`, with
    room for so many characters. -/
def ntoa_digits (base : Nat) (uppercase : Bool) : Nat → Nat → List Char
  | 0, _ => []
  | room + 1, value =>
    digit_char uppercase (value % base) :: if value / base ≠ 0 then ntoa_digits base uppercase room (value / base) else []

/-- The body that `_ntoa_long` and `_ntoa_long_long` share. -/
def ntoa (o : Out β) (value : BitVec 64) (negative : Bool) (base prec width : Nat) (flags : Flags) : Out β :=
  let flags := if value = 0 then { flags with hash := false } else flags
  let buf := if !flags.precision || value ≠ 0 then ntoa_digits base flags.uppercase NTOA_BUFFER_SIZE value.toNat else []
  ntoa_format out maxlen o buf negative base prec width flags
def ntoa_long (o : Out β) (value : BitVec 64) (negative : Bool) (base prec width : Nat) (flags : Flags) : Out β :=
  ntoa out maxlen o value negative base prec width flags
def ntoa_long_long (o : Out β) (value : BitVec 64) (negative : Bool) (base prec width : Nat) (flags : Flags) : Out β :=
  ntoa out maxlen o value negative base prec width flags

end

/-! ### Directives -/

def is_digit (ch : Char) : Bool := '0'.toNat ≤ ch.toNat && ch.toNat ≤ '9'.toNat

/-- `_atoi`, whose `i` is an `unsigned int`. -/
def atoi (i : Nat) : List Char → Except Fault (Nat × List Char)
  | [] => .error .format
  | c :: str =>
    if is_digit c then atoi ((i * 10 + (c.toNat - '0'.toNat)) % 2 ^ 32) str else .ok (i,c :: str)

/-- `va_arg` of an integer or a pointer. -/
def VaList.arg (va : VaList) : Except Fault (BitVec 64 × VaList) :=
  match va.gp with
  | [] => .error .va_arg
  | x :: gp => .ok (x,{ va with gp := gp })
/-- `va_arg(va, double)`. -/
def VaList.argDouble (va : VaList) : Except Fault (BitVec 64 × VaList) :=
  match va.fp with
  | [] => .error .va_arg
  | x :: fp => .ok (x,{ va with fp := fp })
/-- `va_arg(va, int)`. -/
def VaList.argInt (va : VaList) : Except Fault (BitVec 32 × VaList) := do
  let (x,va) ← va.arg
  pure (x.setWidth 32,va)

def eval_flags (flags : Flags) : List Char → Except Fault (Flags × List Char)
  | [] => .error .format
  | c :: format =>
    if c = '0' then eval_flags { flags with zeropad := true } format
    else if c = '-' then eval_flags { flags with left := true } format
    else if c = '+' then eval_flags { flags with plus := true } format
    else if c = ' ' then eval_flags { flags with space := true } format
    else if c = '#' then eval_flags { flags with hash := true } format
    else .ok (flags,c :: format)

def eval_width (flags : Flags) (format : List Char) (va : VaList) : Except Fault (Flags × Nat × List Char × VaList) :=
  match format with
  | [] => .error .format
  | c :: rest =>
    if is_digit c then do
      let (width,format) ← atoi 0 format
      pure (flags,width,format,va)
    else if c = '*' then do
      let (w,va) ← va.argInt
      pure (if w.slt 0 then ({ flags with left := true },(-w).toNat,rest,va) else (flags,w.toNat,rest,va))
    else .ok (flags,0,format,va)

def eval_precision (flags : Flags) (format : List Char) (va : VaList) :
    Except Fault (Flags × Nat × List Char × VaList) :=
  match format with
  | [] => .error .format
  | '.' :: format =>
    let flags := { flags with precision := true }
    match format with
    | [] => .error .format
    | c :: rest =>
      if is_digit c then do
        let (precision,format) ← atoi 0 format
        pure (flags,precision,format,va)
      else if c = '*' then do
        let (prec,va) ← va.argInt
        pure (flags,if (0 : BitVec 32).slt prec then prec.toNat else 0,rest,va)
      else .ok (flags,0,format,va)
  | format => .ok (flags,0,format,va)

/-- `ptrdiff_t`, `intmax_t` and `size_t` have the size of a `long`. -/
def eval_length (flags : Flags) : List Char → Except Fault (Flags × List Char)
  | [] => .error .format
  | 'l' :: format =>
    let flags := { flags with long := true }
    match format with
    | [] => .error .format
    | 'l' :: format => .ok ({ flags with long_long := true },format)
    | format => .ok (flags,format)
  | 'h' :: format =>
    let flags := { flags with short := true }
    match format with
    | [] => .error .format
    | 'h' :: format => .ok ({ flags with char := true },format)
    | format => .ok (flags,format)
  | 't' :: format => .ok ({ flags with long := true },format)
  | 'j' :: format => .ok ({ flags with long := true },format)
  | 'z' :: format => .ok ({ flags with long := true },format)
  | format => .ok (flags,format)

/-- What stands between a `%` and the end of its specifier. -/
structure Directive where
  flags : Flags
  width : Nat
  precision : Nat
  specifier : Char
  deriving DecidableEq

/-- From behind the `%` to behind the specifier, which every case skips. -/
def directive (format : List Char) (va : VaList) : Except Fault (Directive × List Char × VaList) := do
  let (flags,format) ← eval_flags {} format
  let (flags,width,format,va) ← eval_width flags format va
  let (flags,precision,format,va) ← eval_precision flags format va
  let (flags,format) ← eval_length flags format
  match format with
  | [] => .error .format
  | c :: format => pure (⟨flags,width,precision,c⟩,format,va)

/-- `_strnlen_s`, which returns an `unsigned int`: `*s && maxsize--` reads before it counts. -/
def strnlen_s : List Char → Nat → Except Fault Nat
  | [], _ => .error .string
  | c :: s, maxsize =>
    if c = NUL then .ok 0
    else
      match maxsize with
      | 0 => .ok 0
      | maxsize + 1 => do
        let n ← strnlen_s s maxsize
        pure ((n + 1) % 2 ^ 32)

section
variable {β : Type} (out : out_fct_type β) (maxlen : Nat)

/-- `while ((*p != 0) && (!(flags & FLAGS_PRECISION) || precision--))`; without
    `FLAGS_PRECISION` there is no bound. -/
def out_string (o : Out β) : List Char → Option Nat → Except Fault (Out β)
  | [], _ => .error .string
  | c :: p, none => if c = NUL then .ok o else out_string (put out maxlen o c) p none
  | c :: p, some precision =>
    if c = NUL then .ok o
    else
      match precision with
      | 0 => .ok o
      | precision + 1 => out_string (put out maxlen o c) p (some precision)

/-! ### Specifiers -/

def integer_base (specifier : Char) : Nat :=
  if specifier = 'x' || specifier = 'X' then 16
  else if specifier = 'o' then 8
  else if specifier = 'b' then 2
  else 10
/-- The flags that `d`, `i`, `u`, `x`, `X`, `o` and `b` convert with: no `#` in base 10, no
    `+` and blank but for `d` and `i`, and no `0` beside a precision. -/
def integer_flags (specifier : Char) (flags : Flags) : Flags :=
  { flags with
    hash := flags.hash && integer_base specifier ≠ 10
    uppercase := flags.uppercase || specifier = 'X'
    plus := flags.plus && (specifier = 'i' || specifier = 'd')
    space := flags.space && (specifier = 'i' || specifier = 'd')
    zeropad := flags.zeropad && !flags.precision }

/-- `value > 0 ? value : 0 - value`. -/
def magnitude {n : Nat} (value : BitVec n) : BitVec n := if (0 : BitVec n).slt value then value else 0 - value

/-- The argument of `d` and `i`: its magnitude, and whether it is negative. -/
def signed_arg (flags : Flags) (va : VaList) : Except Fault ((BitVec 64 × Bool) × VaList) :=
  if flags.long_long then do
    let (value,va) ← va.arg
    pure ((magnitude value,value.slt 0),va)
  else if flags.long then do
    let (value,va) ← va.arg
    pure ((magnitude value,value.slt 0),va)
  else do
    let (x,va) ← va.argInt
    let value : BitVec 32 :=
      if flags.char then (x.setWidth 8).signExtend 32 else if flags.short then (x.setWidth 16).signExtend 32 else x
    -- `0 - value` overflows for `INT_MIN`, and what is compiled sign-extends its 32 bits
    pure (((magnitude value).signExtend 64,value.slt 0),va)

/-- The argument of `u`, `x`, `X`, `o` and `b`. -/
def unsigned_arg (flags : Flags) (va : VaList) : Except Fault (BitVec 64 × VaList) :=
  if flags.long_long then va.arg
  else if flags.long then va.arg
  else do
    let (x,va) ← va.argInt
    let value : BitVec 32 :=
      if flags.char then (x.setWidth 8).setWidth 32 else if flags.short then (x.setWidth 16).setWidth 32 else x
    pure (value.setWidth 64,va)

/-- The cases `d`, `i`, `u`, `x`, `X`, `o` and `b`. -/
def out_integer (d : Directive) (va : VaList) (o : Out β) : Except Fault (Out β × VaList) :=
  let base := integer_base d.specifier
  let flags := integer_flags d.specifier d.flags
  if d.specifier = 'i' || d.specifier = 'd' then do
    let ((value,negative),va) ← signed_arg flags va
    pure (if flags.long_long then ntoa_long_long out maxlen o value negative base d.precision d.width flags
      else ntoa_long out maxlen o value negative base d.precision d.width flags,va)
  else do
    let (value,va) ← unsigned_arg flags va
    pure (if flags.long_long then ntoa_long_long out maxlen o value false base d.precision d.width flags
      else ntoa_long out maxlen o value false base d.precision d.width flags,va)

/-- The case `c`: `l` counts from 1. -/
def out_c (d : Directive) (va : VaList) (o : Out β) : Except Fault (Out β × VaList) := do
  let o := if !d.flags.left then pad out maxlen (d.width - 1) o else o
  let (x,va) ← va.argInt
  let o := put out maxlen o (Char.ofNat (x.setWidth 8).toNat)
  pure (if d.flags.left then pad out maxlen (d.width - 1) o else o,va)

/-- The case `s`. -/
def out_s (env : Env) (d : Directive) (va : VaList) (o : Out β) : Except Fault (Out β × VaList) := do
  let (p,va) ← va.arg
  let l ← strnlen_s (env.mem p) (if d.precision ≠ 0 then d.precision else SIZE_MAX)
  let l := if d.flags.precision then (if l < d.precision then l else d.precision) else l
  let o := if !d.flags.left then pad out maxlen (d.width - l) o else o
  let o ← out_string out maxlen o (env.mem p) (if d.flags.precision then some d.precision else none)
  pure (if d.flags.left then pad out maxlen (d.width - l) o else o,va)

/-- The case `p`: 16 characters wide, a `uintptr_t` having the size of a `long long`. -/
def out_p (d : Directive) (va : VaList) (o : Out β) : Except Fault (Out β × VaList) := do
  let flags := { d.flags with zeropad := true, uppercase := true }
  let (value,va) ← va.arg
  pure (ntoa_long_long out maxlen o value false 16 d.precision 16 flags,va)

/-- The cases `f` and `F`. -/
def out_f (env : Env) (d : Directive) (va : VaList) (o : Out β) : Except Fault (Out β × VaList) := do
  let flags := if d.specifier = 'F' then { d.flags with uppercase := true } else d.flags
  let (value,va) ← va.argDouble
  pure ((env.ftoa value d.precision d.width flags).foldl (put out maxlen) o,va)

/-- The cases `e`, `E`, `g` and `G`. -/
def out_e (env : Env) (d : Directive) (va : VaList) (o : Out β) : Except Fault (Out β × VaList) := do
  let flags := if d.specifier = 'g' || d.specifier = 'G' then { d.flags with adapt_exp := true } else d.flags
  let flags := if d.specifier = 'E' || d.specifier = 'G' then { flags with uppercase := true } else flags
  let (value,va) ← va.argDouble
  pure ((env.etoa value d.precision d.width flags).foldl (put out maxlen) o,va)

/-- `switch (*format)`: an unknown specifier, like `%`, is given out itself. -/
def out_specifier (env : Env) (d : Directive) (va : VaList) (o : Out β) : Except Fault (Out β × VaList) :=
  match d.specifier with
  | 'd' | 'i' | 'u' | 'x' | 'X' | 'o' | 'b' => out_integer out maxlen d va o
  | 'f' | 'F' => out_f out maxlen env d va o
  | 'e' | 'E' | 'g' | 'G' => out_e out maxlen env d va o
  | 'c' => out_c out maxlen d va o
  | 's' => out_s out maxlen env d va o
  | 'p' => out_p out maxlen d va o
  | '%' => .ok (put out maxlen o '%',va)
  | c => .ok (put out maxlen o c,va)

end

/-! ### The format -/

theorem atoi_length {i n : Nat} {str rest : List Char} (ran : atoi i str = .ok (n,rest)) : rest.length ≤ str.length := by
  induction str generalizing i with
  | nil => cases ran
  | cons c str ih =>
    rw [atoi] at ran
    split at ran
    · exact (ih ran).trans (Nat.le_succ _)
    · cases ran
      exact Nat.le_refl _

theorem eval_flags_length {flags flags' : Flags} {format rest : List Char}
    (ran : eval_flags flags format = .ok (flags',rest)) :
    rest.length ≤ format.length := by
  induction format generalizing flags with
  | nil => cases ran
  | cons c format ih =>
    simp only [eval_flags] at ran
    split_ifs at ran
    all_goals first
      | exact (ih ran).trans (Nat.le_succ _)
      | (cases ran; exact Nat.le_refl _)

/-- What a computation binds has been computed. -/
theorem bind_ok {α γ : Type} {x : Except Fault α} {f : α → Except Fault γ} {r : γ} (ran : x >>= f = .ok r) :
    ∃ a, x = .ok a ∧ f a = .ok r := by
  cases x with
  | error e => cases ran
  | ok a => exact ⟨a,rfl,ran⟩

theorem eval_width_length {flags flags' : Flags} {format rest : List Char} {va va' : VaList} {width : Nat}
    (ran : eval_width flags format va = .ok (flags',width,rest,va')) : rest.length ≤ format.length := by
  cases format with
  | nil => cases ran
  | cons c format =>
    simp only [eval_width] at ran
    split at ran
    · obtain ⟨⟨n,str⟩,number,same⟩ := bind_ok ran
      cases same
      exact atoi_length number
    · split at ran
      · obtain ⟨⟨w,va⟩,-,same⟩ := bind_ok ran
        simp only [pure,Except.pure,Except.ok.injEq] at same
        split at same <;> cases same <;> exact Nat.le_succ _
      · cases ran
        exact Nat.le_refl _

theorem eval_precision_length {flags flags' : Flags} {format rest : List Char} {va va' : VaList} {precision : Nat}
    (ran : eval_precision flags format va = .ok (flags',precision,rest,va')) : rest.length ≤ format.length := by
  unfold eval_precision at ran
  split at ran
  · cases ran
  · rename_i format
    simp only at ran
    split at ran
    · cases ran
    · rename_i c format
      split at ran
      · obtain ⟨⟨n,str⟩,number,same⟩ := bind_ok ran
        cases same
        exact (atoi_length number).trans (Nat.le_succ _)
      · split at ran
        · obtain ⟨⟨w,va⟩,-,same⟩ := bind_ok ran
          cases same
          simp only [List.length_cons]
          omega
        · cases ran
          exact Nat.le_succ _
  · cases ran
    exact Nat.le_refl _

theorem eval_length_length {flags flags' : Flags} {format rest : List Char}
    (ran : eval_length flags format = .ok (flags',rest)) :
    rest.length ≤ format.length := by
  unfold eval_length at ran
  split at ran
  case h_1 => cases ran
  case h_2 | h_3 =>
    simp only at ran
    split at ran <;> cases ran <;> simp only [List.length_cons] <;> omega
  all_goals
    cases ran
    simp

/-- A directive ends behind where it began. -/
theorem directive_length {format rest : List Char} {va va' : VaList} {d : Directive}
    (ran : directive format va = .ok (d,rest,va')) : rest.length < format.length := by
  obtain ⟨⟨flags,f1⟩,flagged,ran⟩ := bind_ok ran
  obtain ⟨⟨flags,width,f2,va⟩,widened,ran⟩ := bind_ok ran
  obtain ⟨⟨flags,precision,f3,va⟩,precise,ran⟩ := bind_ok ran
  obtain ⟨⟨flags,f4⟩,lengthened,ran⟩ := bind_ok ran
  have h1 := eval_flags_length flagged
  have h2 := eval_width_length widened
  have h3 := eval_precision_length precise
  have h4 := eval_length_length lengthened
  cases f4 with
  | nil => cases ran
  | cons c format =>
    cases ran
    simp only [List.length_cons] at h4
    omega

/-- `while (*format)`. -/
def vsnprintf_loop {β : Type} (out : out_fct_type β) (maxlen : Nat) (env : Env) :
    List Char → VaList → Out β → Except Fault (Out β × VaList)
  | [], _, _ => .error .format
  | c :: format, va, o =>
    if c = NUL then .ok (o,va)
    else if c ≠ '%' then vsnprintf_loop out maxlen env format va (put out maxlen o c)
    else
      match _ : directive format va with
      | .error fault => .error fault
      | .ok (d,rest,va) =>
        match out_specifier out maxlen env d va o with
        | .error fault => .error fault
        | .ok (o,va) => vsnprintf_loop out maxlen env rest va o
  termination_by format => format.length
  decreasing_by
    · simp
    · have shorter := directive_length ‹directive format _ = _›
      simp only [List.length_cons]
      omega

section
variable {β : Type} (out : out_fct_type β) (maxlen : Nat) (env : Env) (format : List Char) (va : VaList) (o : Out β)

theorem vsnprintf_loop_nil : vsnprintf_loop out maxlen env [] va o = .error .format := by
  rw [vsnprintf_loop]
theorem vsnprintf_loop_nul : vsnprintf_loop out maxlen env (NUL :: format) va o = .ok (o,va) := by
  rw [vsnprintf_loop,if_pos rfl]
theorem vsnprintf_loop_plain {c : Char} (nul : c ≠ NUL) (plain : c ≠ '%') :
    vsnprintf_loop out maxlen env (c :: format) va o = vsnprintf_loop out maxlen env format va (put out maxlen o c) := by
  rw [vsnprintf_loop,if_neg nul,if_pos plain]

theorem vsnprintf_loop_directive : vsnprintf_loop out maxlen env ('%' :: format) va o =
    directive format va >>= fun r => out_specifier out maxlen env r.1 r.2.2 o >>= fun t =>
      vsnprintf_loop out maxlen env r.2.1 t.2 t.1 := by
  rw [vsnprintf_loop,if_neg (by decide),if_neg (by decide)]
  split
  · rename_i parsed
    rw [parsed]
    rfl
  · rename_i parsed
    rw [parsed]
    simp only [bind,Except.bind]
    split <;> rename_i given <;> rw [given]

end

/-- `_vsnprintf`: the buffer, the value returned, and what is left of the arguments. With
    the buffer `NULL`, nothing is given out. -/
def vsnprintf {β : Type} (out : out_fct_type β) (null : Bool) (buffer : β) (maxlen : Nat) (env : Env) (format : List Char)
    (va : VaList) : Except Fault (β × BitVec 32 × VaList) := do
  let out := if null then out_null else out
  let (o,va) ← vsnprintf_loop out maxlen env format va ⟨buffer,0⟩
  let last := if o.idx < maxlen then o.idx else (maxlen + SIZE_MAX) % 2 ^ 64
  pure (out NUL o.buffer last maxlen,BitVec.ofNat 32 o.idx,va)

/-- `printf_`, between its `mutex_lock` and `mutex_unlock`, and `vprintf_`. -/
def printf (env : Env) (sent format : List Char) (va : VaList) : Except Fault (List Char × BitVec 32 × VaList) :=
  vsnprintf out_char false sent SIZE_MAX env format va
/-- `sprintf_`. -/
def sprintf (env : Env) (null : Bool) (buffer : Nat → Char) (format : List Char) (va : VaList) :
    Except Fault ((Nat → Char) × BitVec 32 × VaList) :=
  vsnprintf out_buffer null buffer SIZE_MAX env format va
/-- `snprintf_` and `vsnprintf_`. -/
def snprintf (env : Env) (null : Bool) (buffer : Nat → Char) (count : Nat) (format : List Char) (va : VaList) :
    Except Fault ((Nat → Char) × BitVec 32 × VaList) :=
  vsnprintf out_buffer null buffer count env format va
/-- `fctprintf`; the address of its wrapper is not `NULL`. -/
def fctprintf {α : Type} (env : Env) (out : Char → α → α) (arg : α) (format : List Char) (va : VaList) :
    Except Fault (α × BitVec 32 × VaList) :=
  vsnprintf (out_fct out) false arg SIZE_MAX env format va

end Bootcode.Printf
