import Bootcode.Printf

/-!
The text of a format: what `_vsnprintf` gives out, in order, through whatever
output function. It fixes the value returned and the arguments taken, and with
them what `snprintf_` leaves in a buffer and `printf_` on the serial port.
-/
namespace Bootcode.PrintfText
open Bootcode.Printf

variable {β : Type} (out : out_fct_type β) (maxlen : Nat)

@[simp] theorem put_idx (o : Out β) (c : Char) : (put out maxlen o c).idx = o.idx + 1 := rfl
@[simp] theorem put_buffer (o : Out β) (c : Char) : (put out maxlen o c).buffer = out c o.buffer o.idx maxlen := rfl

/-- Characters given out one after the other. -/
def emit (o : Out β) (cs : List Char) : Out β := cs.foldl (put out maxlen) o

@[simp] theorem emit_nil (o : Out β) : emit out maxlen o [] = o := rfl
@[simp] theorem emit_cons (o : Out β) (c : Char) (cs : List Char) :
    emit out maxlen o (c :: cs) = emit out maxlen (put out maxlen o c) cs := rfl

theorem emit_append (o : Out β) (cs ds : List Char) :
    emit out maxlen o (cs ++ ds) = emit out maxlen (emit out maxlen o cs) ds := List.foldl_append
@[simp] theorem emit_idx (o : Out β) (cs : List Char) : (emit out maxlen o cs).idx = o.idx + cs.length := by
  induction cs generalizing o with
  | nil => rfl
  | cons c cs ih =>
    rw [emit_cons,ih,put_idx,List.length_cons]
    omega

/-- The output function that keeps what is given out. -/
def record : out_fct_type (List Char) := fun character sent _ _ => sent ++ [character]

@[simp] theorem emit_record (o : Out (List Char)) (cs : List Char) : (emit record maxlen o cs).buffer = o.buffer ++ cs := by
  induction cs generalizing o with
  | nil => simp
  | cons c cs ih =>
    rw [emit_cons,ih]
    simp [put,record]

/-- A text and what it leaves of the arguments, given out behind `o`. -/
def say (o : Out β) (r : List Char × VaList) : Out β × VaList := (emit out maxlen o r.1,r.2)

/-- A part of `_vsnprintf` gives out the same text through every output function. -/
def Uniform (part : {β : Type} → out_fct_type β → Nat → Out β → Except Fault (Out β × VaList)) : Prop :=
  ∃ r : Except Fault (List Char × VaList), ∀ {β : Type} (out : out_fct_type β) (maxlen : Nat) (o : Out β),
    part out maxlen o = r.map (say out maxlen o)

def spaces (n : Nat) : List Char := List.replicate n ' '

theorem pad_emit (n : Nat) (o : Out β) : pad out maxlen n o = emit out maxlen o (spaces n) := by
  induction n generalizing o with
  | zero => rfl
  | succ n ih => exact ih _

/-- `_out_rev`: the characters of `buf` from its end, with spaces up to `width`. -/
def rev_text (buf : List Char) (width : Nat) (flags : Flags) : List Char :=
  (if !flags.left && !flags.zeropad then spaces (width - buf.length) else []) ++ buf.reverse ++
    if flags.left then spaces (width - buf.length) else []

theorem out_rev_emit (o : Out β) (buf : List Char) (width : Nat) (flags : Flags) :
    out_rev out maxlen o buf width flags = emit out maxlen o (rev_text buf width flags) := by
  have reversed : ∀ o : Out β, buf.foldr (fun c o => put out maxlen o c) o = emit out maxlen o buf.reverse := fun o =>
    (List.foldl_reverse ..).symm
  unfold out_rev rev_text
  cases left : flags.left <;> cases zeropad : flags.zeropad <;>
    simp only [Bool.not_false,Bool.not_true,Bool.and_true,Bool.and_false,Bool.false_eq_true,
      if_true,if_false,pad_emit,reversed,emit_append,emit_nil,emit_idx,List.length_reverse,Nat.add_sub_cancel_left]

/-- The buffer of `_ntoa_format`, last character first, and its width. -/
def ntoa_buf (value : BitVec 64) (negative : Bool) (base prec width : Nat) (flags : Flags) : List Char × Nat :=
  let hashed := if value = 0 then { flags with hash := false } else flags
  let digits := if !hashed.precision ||
    value ≠ 0 then ntoa_digits base hashed.uppercase NTOA_BUFFER_SIZE value.toNat else []
  let padded := ntoa_zeros digits negative prec width hashed
  (ntoa_sign (ntoa_hash padded.1 base prec padded.2 hashed) negative hashed,padded.2)
def ntoa_text (value : BitVec 64) (negative : Bool) (base prec width : Nat) (flags : Flags) : List Char :=
  let r := ntoa_buf value negative base prec width flags
  rev_text r.1 r.2 flags

theorem ntoa_emit (o : Out β) (value : BitVec 64) (negative : Bool) (base prec width : Nat) (flags : Flags) :
    ntoa out maxlen o value negative base prec width flags =
      emit out maxlen o (ntoa_text value negative base prec width flags) := by
  unfold ntoa ntoa_format ntoa_text ntoa_buf
  simp only [out_rev_emit]
  split <;> rfl

theorem out_string_emit (p : List Char) (limit : Option Nat) :
    ∃ r : Except Fault (List Char), ∀ {β : Type} (out : out_fct_type β) (maxlen : Nat) (o : Out β),
      out_string out maxlen o p limit = r.map (emit out maxlen o) := by
  induction p generalizing limit with
  | nil => exact ⟨.error .string,fun out maxlen o => by cases limit <;> rfl⟩
  | cons c p ih =>
    by_cases nul : c = NUL
    · refine ⟨.ok [],fun out maxlen o => ?_⟩
      cases limit <;> simp only [out_string,nul,if_true] <;> rfl
    · cases limit with
      | none =>
        obtain ⟨r,same⟩ := ih none
        refine ⟨r.map (c :: ·),fun out maxlen o => ?_⟩
        simp only [out_string,nul,if_false,same]
        cases r <;> rfl
      | some precision =>
        cases precision with
        | zero =>
          refine ⟨.ok [],fun out maxlen o => ?_⟩
          simp only [out_string,nul,if_false]
          rfl
        | succ precision =>
          obtain ⟨r,same⟩ := ih (some precision)
          refine ⟨r.map (c :: ·),fun out maxlen o => ?_⟩
          simp only [out_string,nul,if_false,same]
          cases r <;> rfl

theorem out_integer_uniform (d : Directive) (va : VaList) : Uniform fun out maxlen o => out_integer out maxlen d va o := by
  by_cases signed : (d.specifier = 'i' || d.specifier = 'd') = true
  · cases arg : signed_arg (integer_flags d.specifier d.flags) va with
    | error fault =>
      refine ⟨.error fault,fun out maxlen o => ?_⟩
      simp only [out_integer,signed,if_true,arg]
      rfl
    | ok r =>
      refine ⟨.ok (ntoa_text r.1.1 r.1.2 (integer_base d.specifier) d.precision d.width
          (integer_flags d.specifier d.flags),r.2),
        fun out maxlen o => ?_⟩
      simp only [out_integer,signed,if_true,arg,ntoa_long,ntoa_long_long,ite_self]
      exact congrArg (fun o => Except.ok (o,r.2)) (ntoa_emit ..)
  · cases arg : unsigned_arg (integer_flags d.specifier d.flags) va with
    | error fault =>
      refine ⟨.error fault,fun out maxlen o => ?_⟩
      simp only [out_integer,signed,arg]
      rfl
    | ok r =>
      refine ⟨.ok (ntoa_text r.1 false (integer_base d.specifier) d.precision d.width
          (integer_flags d.specifier d.flags),r.2),
        fun out maxlen o => ?_⟩
      simp only [out_integer,signed,arg,ntoa_long,ntoa_long_long,ite_self]
      exact congrArg (fun o => Except.ok (o,r.2)) (ntoa_emit ..)

theorem out_c_uniform (d : Directive) (va : VaList) : Uniform fun out maxlen o => out_c out maxlen d va o := by
  cases arg : va.argInt with
  | error fault =>
    refine ⟨.error fault,fun out maxlen o => ?_⟩
    simp only [out_c,arg]
    rfl
  | ok r =>
    obtain ⟨x,va⟩ := r
    refine ⟨.ok (rev_text [Char.ofNat (x.setWidth 8).toNat] d.width { left := d.flags.left },va),fun out maxlen o => ?_⟩
    simp only [out_c,arg]
    refine congrArg (fun o => Except.ok (o,va)) ?_
    cases left : d.flags.left <;> simp [rev_text,pad_emit,emit_append]

theorem out_s_uniform (env : Env) (d : Directive) (va : VaList) :
    Uniform fun out maxlen o => out_s out maxlen env d va o := by
  cases arg : va.arg with
  | error fault =>
    refine ⟨.error fault,fun out maxlen o => ?_⟩
    simp only [out_s,arg]
    rfl
  | ok r =>
    obtain ⟨p,va⟩ := r
    cases length : strnlen_s (env.mem p) (if d.precision ≠ 0 then d.precision else SIZE_MAX) with
    | error fault =>
      refine ⟨.error fault,fun out maxlen o => ?_⟩
      simp only [out_s,arg,bind,Except.bind,length]
      rfl
    | ok l =>
      obtain ⟨r,string⟩ := out_string_emit (env.mem p) (if d.flags.precision then some d.precision else none)
      cases r with
      | error fault =>
        refine ⟨.error fault,fun out maxlen o => ?_⟩
        simp only [out_s,arg,bind,Except.bind,length,string]
        rfl
      | ok cs =>
        let l' := if d.flags.precision then (if l < d.precision then l else d.precision) else l
        refine ⟨.ok ((if !d.flags.left then spaces (d.width - l') else []) ++ cs ++
          (if d.flags.left then spaces (d.width - l') else []),va),fun out maxlen o => ?_⟩
        simp only [out_s,arg,bind,Except.bind,length,string]
        refine congrArg (fun o => Except.ok (o,va)) ?_
        cases left : d.flags.left <;> simp [pad_emit,emit_append,l']

theorem out_p_uniform (d : Directive) (va : VaList) : Uniform fun out maxlen o => out_p out maxlen d va o := by
  cases arg : va.arg with
  | error fault =>
    refine ⟨.error fault,fun out maxlen o => ?_⟩
    simp only [out_p,arg]
    rfl
  | ok r =>
    obtain ⟨value,va⟩ := r
    refine ⟨.ok (ntoa_text value false 16 d.precision 16 { d.flags with zeropad := true, uppercase := true },va),
      fun out maxlen o => ?_⟩
    simp only [out_p,arg,ntoa_long_long]
    exact congrArg (fun o => Except.ok (o,va)) (ntoa_emit ..)

theorem out_double_uniform (cs : BitVec 64 → List Char) (va : VaList) :
    Uniform fun out maxlen o => va.argDouble >>= fun r => pure ((cs r.1).foldl (put out maxlen) o,r.2) := by
  cases arg : va.argDouble with
  | error fault => exact ⟨.error fault,fun out maxlen o => rfl⟩
  | ok r => exact ⟨.ok (cs r.1,r.2),fun out maxlen o => rfl⟩

theorem out_f_uniform (env : Env) (d : Directive) (va : VaList) : Uniform fun out maxlen o => out_f out maxlen env d va o :=
  out_double_uniform (fun value => env.ftoa value d.precision d.width
    (if d.specifier = 'F' then { d.flags with uppercase := true } else d.flags)) va

theorem out_e_uniform (env : Env) (d : Directive) (va : VaList) : Uniform fun out maxlen o => out_e out maxlen env d va o :=
  out_double_uniform (fun value => env.etoa value d.precision d.width
    (let flags : Flags := if d.specifier = 'g' || d.specifier = 'G' then { d.flags with adapt_exp := true } else d.flags
    if d.specifier = 'E' || d.specifier = 'G' then { flags with uppercase := true } else flags)) va

theorem put_uniform (c : Char) (va : VaList) : Uniform fun out maxlen o => .ok (put out maxlen o c,va) :=
  ⟨.ok ([c],va),fun _ _ _ => rfl⟩

theorem out_specifier_uniform (env : Env) (d : Directive) (va : VaList) :
    Uniform fun out maxlen o => out_specifier out maxlen env d va o := by
  unfold out_specifier
  split
  case h_1 | h_2 | h_3 | h_4 | h_5 | h_6 | h_7 => exact out_integer_uniform d va
  case h_8 | h_9 => exact out_f_uniform env d va
  case h_10 | h_11 | h_12 | h_13 => exact out_e_uniform env d va
  case h_14 => exact out_c_uniform d va
  case h_15 => exact out_s_uniform env d va
  case h_16 => exact out_p_uniform d va
  all_goals exact put_uniform _ va

/-! ### The text of a format -/

/-- The text of one directive, and what it leaves of the arguments. -/
def specifier_text (env : Env) (d : Directive) (va : VaList) : Except Fault (List Char × VaList) :=
  (out_specifier record 0 env d va ⟨[],0⟩).map fun r => (r.1.buffer,r.2)
/-- The text of a format, and what it leaves of the arguments. -/
def text (env : Env) (format : List Char) (va : VaList) : Except Fault (List Char × VaList) :=
  (vsnprintf_loop record 0 env format va ⟨[],0⟩).map fun r => (r.1.buffer,r.2)

/-- Empty strings, and nothing for a double. -/
def silent : Env := ⟨fun _ => [NUL],fun _ _ _ _ => [],fun _ _ _ _ => []⟩

/-- A uniform part gives out what it records. -/
theorem Uniform.recorded {part : {β : Type} → out_fct_type β → Nat → Out β → Except Fault (Out β × VaList)}
    (uniform : Uniform part)
    (o : Out β) : part out maxlen o = ((part record 0 ⟨[],0⟩).map fun r => (r.1.buffer,r.2)).map (say out maxlen o) := by
  obtain ⟨r,same⟩ := uniform
  have kept := same record 0 ⟨[],0⟩
  refine (same out maxlen o).trans ?_
  simp only at kept
  rw [kept]
  cases r with
  | error fault => rfl
  | ok r => simp [Except.map,say]

theorem out_specifier_text (env : Env) (d : Directive) (va : VaList) (o : Out β) :
    out_specifier out maxlen env d va o = (specifier_text env d va).map (say out maxlen o) :=
  (out_specifier_uniform env d va).recorded out maxlen o

theorem vsnprintf_loop_uniform (env : Env) (n : Nat) : ∀ (format : List Char) (va : VaList), format.length ≤ n →
    Uniform fun out maxlen o => vsnprintf_loop out maxlen env format va o := by
  induction n with
  | zero =>
    intro format va short
    obtain rfl := List.length_eq_zero_iff.mp (Nat.le_zero.mp short)
    exact ⟨.error .format,fun out maxlen o => vsnprintf_loop_nil ..⟩
  | succ n ih =>
    intro format va short
    cases format with
    | nil => exact ⟨.error .format,fun out maxlen o => vsnprintf_loop_nil ..⟩
    | cons c format =>
      have shorter : format.length ≤ n := Nat.le_of_succ_le_succ short
      by_cases nul : c = NUL
      · subst nul
        exact ⟨.ok ([],va),fun out maxlen o => vsnprintf_loop_nul ..⟩
      by_cases percent : c = '%'
      · subst percent
        cases parsed : directive format va with
        | error fault => exact ⟨.error fault,fun out maxlen o => by simp only [vsnprintf_loop_directive,parsed]; rfl⟩
        | ok r =>
          cases given : specifier_text env r.1 r.2.2 with
          | error fault =>
            refine ⟨.error fault,fun out maxlen o => ?_⟩
            simp only [vsnprintf_loop_directive,parsed,bind,Except.bind,out_specifier_text,given]
            rfl
          | ok t =>
            have ends : r.2.1.length < format.length := directive_length parsed
            obtain ⟨u,same⟩ := ih r.2.1 t.2 (Nat.le_of_lt (ends.trans_le shorter))
            refine ⟨u.map fun u => (t.1 ++ u.1,u.2),fun out maxlen o => ?_⟩
            simp only [vsnprintf_loop_directive,parsed,bind,Except.bind,out_specifier_text,given,Except.map]
            refine (same out maxlen (emit out maxlen o t.1)).trans ?_
            cases u with
            | error fault => rfl
            | ok u => simp [Except.map,say,emit_append]
      · obtain ⟨r,same⟩ := ih format va shorter
        refine ⟨r.map fun r => (c :: r.1,r.2),fun out maxlen o => ?_⟩
        simp only [vsnprintf_loop_plain _ _ _ _ _ _ nul percent,same]
        cases r <;> rfl

theorem vsnprintf_loop_text (env : Env) (format : List Char) (va : VaList) (o : Out β) :
    vsnprintf_loop out maxlen env format va o = (text env format va).map (say out maxlen o) :=
  (vsnprintf_loop_uniform env _ format va (Nat.le_refl _)).recorded out maxlen o

/-! The equations of a format's text. -/

theorem text_nul (env : Env) (format : List Char) (va : VaList) : text env (NUL :: format) va = .ok ([],va) := by
  rw [text,vsnprintf_loop_nul]
  rfl

theorem text_plain (env : Env) {c : Char} (format : List Char) (va : VaList) (nul : c ≠ NUL) (plain : c ≠ '%') :
    text env (c :: format) va = (text env format va).map fun r => (c :: r.1,r.2) := by
  rw [text,vsnprintf_loop_plain _ _ _ _ _ _ nul plain,vsnprintf_loop_text]
  cases text env format va with
  | error fault => rfl
  | ok r => simp [Except.map,say,put,record]

theorem text_directive (env : Env) (format : List Char) (va : VaList) :
    text env ('%' :: format) va = directive format va >>= fun r => specifier_text env r.1 r.2.2 >>= fun t =>
      (text env r.2.1 t.2).map fun u => (t.1 ++ u.1,u.2) := by
  rw [text,vsnprintf_loop_directive]
  cases directive format va with
  | error fault => rfl
  | ok r =>
    simp only [bind,Except.bind,out_specifier_text]
    cases specifier_text env r.1 r.2.2 with
    | error fault => rfl
    | ok t =>
      simp only [Except.map,say,vsnprintf_loop_text]
      cases text env r.2.1 t.2 with
      | error fault => rfl
      | ok u => simp

/-- Characters before the first directive. -/
theorem text_label (env : Env) {label : List Char} (plain : ∀ c ∈ label, c ≠ NUL ∧ c ≠ '%') (format : List Char)
    (va : VaList) :
    text env (label ++ format) va = (text env format va).map fun r => (label ++ r.1,r.2) := by
  induction label with
  | nil =>
    rw [List.nil_append]
    cases text env format va <;> rfl
  | cons c label ih =>
    obtain ⟨nul,percent⟩ := plain c (.head _)
    rw [List.cons_append,text_plain _ _ _ nul percent,ih fun c member => plain c (.tail _ member)]
    cases text env format va <;> rfl

theorem text_newline (env : Env) : text env ("\n".toList ++ [NUL]) ⟨[],[]⟩ = .ok (['\n'],⟨[],[]⟩) := by
  show text env ['\n',NUL] _ = _
  rw [text_plain _ _ _ (by decide) (by decide),text_nul]
  rfl

/-! Strings. -/

theorem strnlen_s_ends {s : List Char} (plain : NUL ∉ s) (rest : List Char) (maxsize : Nat) :
    ∃ n, strnlen_s (s ++ NUL :: rest) maxsize = .ok n := by
  induction s generalizing maxsize with
  | nil => exact ⟨0,by simp [strnlen_s]⟩
  | cons c s ih =>
    have other : c ≠ NUL := fun same => plain (same ▸ .head _)
    cases maxsize with
    | zero => exact ⟨0,if_neg other⟩
    | succ maxsize =>
      obtain ⟨n,ends⟩ := ih (fun member => plain (.tail _ member)) maxsize
      have later := congrArg (fun r : Except Fault Nat => r >>= fun n => pure ((n + 1) % 2 ^ 32)) ends
      exact ⟨(n + 1) % 2 ^ 32,(if_neg other).trans later⟩

theorem out_string_whole {s : List Char} (plain : NUL ∉ s) (rest : List Char) (o : Out (List Char)) :
    ∃ idx, out_string record 0 o (s ++ NUL :: rest) none = .ok ⟨o.buffer ++ s,idx⟩ := by
  induction s generalizing o with
  | nil => exact ⟨o.idx,by simp [out_string]⟩
  | cons c s ih =>
    have other : c ≠ NUL := fun same => plain (same ▸ .head _)
    obtain ⟨idx,ends⟩ := ih (fun member => plain (.tail _ member)) (put record 0 o c)
    refine ⟨idx,?_⟩
    rw [List.cons_append,out_string,if_neg other,ends]
    simp [record]

/-- `%s`. -/
theorem text_string (env : Env) {format rest : List Char} {p : BitVec 64} {args : List (BitVec 64)}
    {s tail : List Char} (plain : NUL ∉ s) (string : env.mem p = s ++ NUL :: tail)
    (parsed : directive format ⟨p :: args,[]⟩ = .ok (⟨{},0,0,'s'⟩,rest,⟨p :: args,[]⟩)) :
    text env ('%' :: format) ⟨p :: args,[]⟩ = (text env rest ⟨args,[]⟩).map fun r => (s ++ r.1,r.2) := by
  obtain ⟨n,length⟩ := strnlen_s_ends plain tail SIZE_MAX
  obtain ⟨idx,whole⟩ := out_string_whole plain tail ⟨[],0⟩
  have said : specifier_text env ⟨{},0,0,'s'⟩ ⟨p :: args,[]⟩ = .ok (s,⟨args,[]⟩) := by
    show ((out_s record 0 env ⟨{},0,0,'s'⟩ ⟨p :: args,[]⟩ ⟨[],0⟩).map fun r => (r.1.buffer,r.2)) = _
    simp only [out_s,VaList.arg,bind,Except.bind,string,ne_eq,not_true_eq_false,if_false,length,Bool.false_eq_true,
      Bool.not_false,if_true,Nat.zero_sub,pad,whole]
    rfl
  rw [text_directive,parsed]
  simp only [bind,Except.bind,said]

/-- What `_vsnprintf` does, for every output function: it gives out the text, ends it
    with a NUL at its end or in the last place, and returns the length of the whole. -/
theorem vsnprintf_text (null : Bool) (buffer : β) (env : Env) (format : List Char) (va : VaList) :
    vsnprintf out null buffer maxlen env format va = (text env format va).map fun t =>
      let out := if null then out_null else out
      let last := if t.1.length < maxlen then t.1.length else (maxlen + SIZE_MAX) % 2 ^ 64
      (out NUL (emit out maxlen ⟨buffer,0⟩ t.1).buffer last maxlen,BitVec.ofNat 32 t.1.length,t.2) := by
  simp only [vsnprintf,vsnprintf_loop_text]
  cases text env format va with
  | error fault => rfl
  | ok t => simp [Except.map,bind,Except.bind,pure,Except.pure,say]

/-- What `count` places hold after a text has been written to them: as much of it as
    leaves room for a NUL. -/
def written (buffer : Nat → Char) (count : Nat) (t : List Char) : Nat → Char := fun i =>
  if i < min t.length (count - 1) then t.getD i NUL
  else if i = min t.length (count - 1) ∧ 0 < count then NUL else buffer i

theorem out_buffer_apply (c : Char) (buffer : Nat → Char) (k i : Nat) :
    out_buffer c buffer k maxlen i = if i = k ∧ k < maxlen then c else buffer i := by
  unfold out_buffer
  by_cases room : k < maxlen
  · by_cases here : i = k <;> simp [room,here]
  · simp [room]

theorem emit_out_buffer (buffer : Nat → Char) (k : Nat) (cs : List Char) (i : Nat) :
    (emit out_buffer maxlen ⟨buffer,k⟩ cs).buffer i =
      if k ≤ i ∧ i < k + cs.length ∧ i < maxlen then cs.getD (i - k) NUL else buffer i := by
  induction cs generalizing buffer k with
  | nil =>
    rw [emit_nil,if_neg]
    rintro ⟨low,high,-⟩
    exact absurd high (by simpa using low)
  | cons c cs ih =>
    have first : put out_buffer maxlen ⟨buffer,k⟩ c = ⟨out_buffer c buffer k maxlen,k + 1⟩ := rfl
    rw [emit_cons,first,ih,out_buffer_apply,List.length_cons]
    by_cases here : i = k
    · subst here
      rw [if_neg (by omega),Nat.sub_self]
      by_cases room : i < maxlen
      · rw [if_pos ⟨rfl,room⟩,if_pos (by omega)]
        rfl
      · rw [if_neg (by omega),if_neg (by omega)]
    · rw [if_neg fun is : i = k ∧ k < maxlen => here is.1]
      by_cases inside : k + 1 ≤ i ∧ i < k + 1 + cs.length ∧ i < maxlen
      · rw [if_pos inside,if_pos (by omega),show i - k = i - (k + 1) + 1 by omega]
        rfl
      · rw [if_neg inside,if_neg (by omega)]

theorem emit_out_null {β : Type} (o : Out β) (cs : List Char) : (emit out_null maxlen o cs).buffer = o.buffer := by
  induction cs generalizing o with
  | nil => rfl
  | cons c cs ih =>
    rw [emit_cons,ih]
    rfl

/-- `_vsnprintf` over a buffer leaves as much of the text as fits and a NUL behind it. -/
theorem vsnprintf_buffer (env : Env) (null : Bool) (buffer : Nat → Char) {n : Nat} (size : n < 2 ^ 64) (format : List Char)
    (va : VaList) : vsnprintf out_buffer null buffer n env format va = (text env format va).map fun t =>
      (if null then buffer else written buffer n t.1,BitVec.ofNat 32 t.1.length,t.2) := by
  rw [vsnprintf_text]
  congr 1
  funext t
  cases null with
  | true => simp [emit_out_null,out_null]
  | false =>
    simp only [Bool.false_eq_true,if_false,Prod.mk.injEq,and_true]
    funext i
    rw [out_buffer_apply,emit_out_buffer,Nat.sub_zero,SIZE_MAX,written]
    by_cases fits : t.1.length < n
    · have most : min t.1.length (n - 1) = t.1.length := by omega
      simp only [if_pos fits,most]
      split_ifs <;> first | rfl | omega
    · have most : min t.1.length (n - 1) = n - 1 := by omega
      have last : n ≠ 0 → (n + (2 ^ 64 - 1)) % 2 ^ 64 = n - 1 := by omega
      simp only [if_neg fits,most]
      split_ifs <;> first | rfl | omega

/-- Whatever the length of the text, `snprintf_` writes to no place from `count` on, ends
    what it writes with a NUL, and returns the length of the whole text. -/
theorem snprintf_written (env : Env) (null : Bool) (buffer : Nat → Char) (count : BitVec 64) (format : List Char)
    (va : VaList) : snprintf env null buffer count.toNat format va = (text env format va).map fun t =>
      (if null then buffer else written buffer count.toNat t.1,BitVec.ofNat 32 t.1.length,t.2) :=
  vsnprintf_buffer env null buffer count.isLt format va

/-! ### The serial port -/

theorem emit_out_char (o : Out (List Char)) (cs : List Char) :
    (emit out_char maxlen o cs).buffer = o.buffer ++ cs.filter (· ≠ NUL) := by
  induction cs generalizing o with
  | nil => simp
  | cons c cs ih =>
    rw [emit_cons,ih]
    by_cases nul : c = NUL <;> simp [put,out_char,nul]

/-- `printf_` sends the text without its NULs, which it counts nevertheless. -/
theorem printf_sent (env : Env) (sent format : List Char) (va : VaList) : printf env sent format va =
    (text env format va).map fun t => (sent ++ t.1.filter (· ≠ NUL),BitVec.ofNat 32 t.1.length,t.2) := by
  unfold printf
  rw [vsnprintf_text]
  congr 1
  funext t
  simp [emit_out_char,out_char]

theorem emit_out_fct {α : Type} (fct : Char → α → α) (o : Out α) (cs : List Char) :
    (emit (out_fct fct) maxlen o cs).buffer = (cs.filter (· ≠ NUL)).foldl (fun arg c => fct c arg) o.buffer := by
  induction cs generalizing o with
  | nil => rfl
  | cons c cs ih =>
    rw [emit_cons,ih]
    by_cases nul : c = NUL <;> simp [put,out_fct,nul]

theorem fctprintf_given {α : Type} (env : Env) (fct : Char → α → α) (arg : α) (format : List Char) (va : VaList) :
    fctprintf env fct arg format va = (text env format va).map fun t =>
      ((t.1.filter (· ≠ NUL)).foldl (fun arg c => fct c arg) arg,BitVec.ofNat 32 t.1.length,t.2) := by
  unfold fctprintf
  rw [vsnprintf_text]
  congr 1
  funext t
  simp [emit_out_fct,out_fct]

/-- `printf_`, `fctprintf` and `sprintf_` give out one text, return its length and leave
    the same arguments: the first two without its NULs, the last with one behind it. -/
theorem outputs_agree {α : Type} (env : Env) (format : List Char) (va : VaList) (sent : List Char) (fct : Char → α → α)
    (arg : α) (buffer : Nat → Char) : ∃ t : Except Fault (List Char × VaList),
      printf env sent format va = t.map (fun t => (sent ++ t.1.filter (· ≠ NUL),BitVec.ofNat 32 t.1.length,t.2)) ∧
      fctprintf env fct arg format va = t.map (fun t =>
        ((t.1.filter (· ≠ NUL)).foldl (fun arg c => fct c arg) arg,BitVec.ofNat 32 t.1.length,t.2)) ∧
      sprintf env false buffer format va = t.map (fun t => (written buffer SIZE_MAX t.1,BitVec.ofNat 32 t.1.length,t.2)) :=
  ⟨text env format va,printf_sent env sent format va,fctprintf_given env fct arg format va,
    vsnprintf_buffer env false buffer (by decide) format va⟩

end Bootcode.PrintfText
