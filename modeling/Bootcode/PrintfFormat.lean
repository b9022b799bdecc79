import Bootcode.PrintfText

/-!
Formats as words: an automaton over the characters of a format tells where in a
directive it stands. It decides which formats `_vsnprintf` reads beyond their
end, and where a format may be cut so that its text is cut there too.
-/
namespace Bootcode.PrintfFormat
open Bootcode.Printf Bootcode.PrintfText

/-- Where the next character of a format stands: outside a directive, or behind so
    much of one. -/
inductive Place
  | plain
  | flags
  | width
  | star
  | point
  | digits
  | precise
  | l
  | h
  | length
  deriving DecidableEq

def is_flag (c : Char) : Bool := c = '0' || c = '-' || c = '+' || c = ' ' || c = '#'

/-- Behind a precision. -/
def length_next (c : Char) : Place :=
  if c = 'l' then .l else if c = 'h' then .h else if c = 't' || c = 'j' || c = 'z' then .length else .plain
/-- Behind a width. -/
def precision_next (c : Char) : Place := if c = '.' then .point else length_next c
/-- Behind the flags. -/
def width_next (c : Char) : Place := if is_digit c then .width else if c = '*' then .star else precision_next c

def next : Place → Char → Place
  | .plain, c => if c = '%' then .flags else .plain
  | .flags, c => if is_flag c then .flags else width_next c
  | .width, c => if is_digit c then .width else precision_next c
  | .star, c => precision_next c
  | .point, c => if is_digit c then .digits else if c = '*' then .precise else length_next c
  | .digits, c => if is_digit c then .digits else length_next c
  | .precise, c => length_next c
  | .l, c => if c = 'l' then .length else .plain
  | .h, c => if c = 'h' then .length else .plain
  | .length, _ => .plain

def place (p : Place) (s : List Char) : Place := s.foldl next p
/-- No directive is cut off. -/
def Complete (s : List Char) : Prop := place .plain s = .plain

instance (s : List Char) : Decidable (Complete s) := inferInstanceAs (Decidable (_ = _))

/-- What follows the directive that `s` continues, whose next place is `k`. -/
def after (k : Char → Place) : List Char → Option (List Char)
  | [] => none
  | c :: s => if k c = .plain then some s else after (next (k c)) s

theorem after_suffix {k : Char → Place} {s t : List Char} (ends : after k s = some t) : t <:+ s ∧ t.length < s.length := by
  induction s generalizing k with
  | nil => cases ends
  | cons c s ih =>
    rw [after] at ends
    split at ends
    · cases ends
      exact ⟨List.suffix_cons _ _,Nat.lt_succ_self _⟩
    · obtain ⟨suffix,shorter⟩ := ih ends
      exact ⟨suffix.trans (List.suffix_cons c s),Nat.lt_succ_of_lt shorter⟩

/-- A directive has been read to its end when the automaton first leaves it. -/
theorem place_of_after {p : Place} {s : List Char} (inside : p ≠ .plain) :
    place p s = .plain ↔ ∃ t, after (next p) s = some t ∧ Complete t := by
  induction s generalizing p with
  | nil => simp [place,after,inside]
  | cons c s ih =>
    rw [after]
    show place (next p c) s = .plain ↔ _
    split
    · rename_i left
      rw [left]
      simp [Complete]
    · rename_i still
      exact ih still

theorem complete_percent (s : List Char) : Complete ('%' :: s) ↔ ∃ t, after (next .flags) s = some t ∧ Complete t :=
  place_of_after (p := .flags) (by decide)
theorem complete_plain {c : Char} (s : List Char) (plain : c ≠ '%') : Complete (c :: s) ↔ Complete s := by
  have same : next .plain c = .plain := if_neg plain
  show place (next .plain c) s = .plain ↔ _
  rw [same]
  rfl

/-- A format is empty, or begins with a plain character, or with a directive that is
    cut off, or with one that something follows. -/
theorem format_induction {motive : List Char → Prop} (nil : motive [])
    (plain : ∀ c s, c ≠ '%' → motive s → motive (c :: s))
    (cut : ∀ s, after (next .flags) s = none → motive ('%' :: s))
    (directive : ∀ s t, after (next .flags) s = some t → motive t → motive ('%' :: s)) (s : List Char) : motive s := by
  obtain ⟨n,short⟩ : ∃ n, s.length ≤ n := ⟨_,Nat.le_refl _⟩
  induction n generalizing s with
  | zero =>
    obtain rfl := List.length_eq_zero_iff.mp (Nat.le_zero.mp short)
    exact nil
  | succ n ih =>
    cases s with
    | nil => exact nil
    | cons c s =>
      have shorter : s.length ≤ n := Nat.le_of_succ_le_succ short
      by_cases percent : c = '%'
      · subst percent
        cases ends : after (next .flags) s with
        | none => exact cut s ends
        | some t => exact directive s t ends (ih t (by have := (after_suffix ends).2; omega))
      · exact plain c s percent (ih s shorter)

/-- A NUL ends every directive. -/
theorem next_nul (p : Place) : next p NUL = .plain := by
  cases p <;> decide
theorem after_nul {p : Place} {s : List Char} (open_ : after (next p) s = none) :
    after (next p) (s ++ [NUL]) = some [] := by
  induction s generalizing p with
  | nil => simp [after,next_nul]
  | cons c s ih =>
    rw [after] at open_
    rw [List.cons_append,after]
    split at open_
    · cases open_
    · rename_i still
      rw [if_neg still]
      exact ih open_

theorem bind_fine {α γ : Type} {x : Except Fault α} {f : α → Except Fault γ} (first : x ≠ .error .format)
    (later : ∀ a, f a ≠ .error .format) : x >>= f ≠ .error .format := by
  cases x with
  | error fault => exact fun same => first (congrArg _ (Except.error.inj same))
  | ok a => exact later a

theorem map_fine {α γ : Type} {x : Except Fault α} {f : α → γ} (first : x ≠ .error .format) : x.map f ≠ .error .format := by
  cases x with
  | error fault => exact fun same => first (congrArg _ (Except.error.inj same))
  | ok a => exact fun same => by cases same

theorem eval_flags_after {s t : List Char} (ends : after (next .flags) s = some t) (flags : Flags) :
    ∃ flags' s', (∀ f, eval_flags flags (s ++ f) = .ok (flags',s' ++ f)) ∧ after width_next s' = some t := by
  induction s generalizing flags with
  | nil => cases ends
  | cons c s ih =>
    by_cases flag : is_flag c = true
    · have still : next .flags c = .flags := if_pos flag
      rw [after,still,if_neg (by decide)] at ends
      simp only [is_flag,Bool.or_eq_true,decide_eq_true_eq] at flag
      simp only [List.cons_append,eval_flags]
      rcases flag with (((rfl | rfl) | rfl) | rfl) | rfl
      · exact ih ends _
      · exact ih ends _
      · exact ih ends _
      · exact ih ends _
      · exact ih ends _
    · have left : next .flags c = width_next c := if_neg flag
      refine ⟨flags,c :: s,fun f => ?_,by rwa [after,← left]⟩
      simp only [is_flag,Bool.or_eq_true,decide_eq_true_eq,not_or] at flag
      obtain ⟨⟨⟨⟨zero,minus⟩,plus⟩,space⟩,hash⟩ := flag
      simp only [List.cons_append,eval_flags,zero,minus,plus,space,hash,if_false]

/-- Digits end at the first other character. -/
theorem atoi_after {p : Place} {k : Char → Place} (digit : p ≠ .plain)
    (stay : ∀ c, next p c = if is_digit c then p else k c)
    {s t : List Char} (ends : after (next p) s = some t) (i : Nat) :
    ∃ n s', (∀ f, atoi i (s ++ f) = .ok (n,s' ++ f)) ∧ after k s' = some t := by
  induction s generalizing i with
  | nil => cases ends
  | cons c s ih =>
    rw [after,stay] at ends
    simp only [List.cons_append,atoi]
    by_cases more : is_digit c = true
    · rw [if_pos more,if_neg digit] at ends
      simp only [if_pos more]
      exact ih ends _
    · rw [if_neg more] at ends
      simp only [if_neg more]
      exact ⟨i,c :: s,fun f => rfl,by rwa [after]⟩

/-- A stage of a directive that may take arguments, with what follows left open. -/
def Stage (stage : Flags → List Char → VaList → Except Fault (Flags × Nat × List Char × VaList))
    (s s' : List Char) : Prop :=
  ∃ read : Flags → VaList → Except Fault (Flags × Nat × VaList), (∀ flags va, read flags va ≠ .error .format) ∧
    ∀ flags f va, stage flags (s ++ f) va = (read flags va).map fun r => (r.1,r.2.1,s' ++ f,r.2.2)

theorem arg_fine (va : VaList) : va.arg ≠ .error .format := by
  obtain ⟨gp,fp⟩ := va
  cases gp <;> simp [VaList.arg]

theorem argDouble_fine (va : VaList) : va.argDouble ≠ .error .format := by
  obtain ⟨gp,fp⟩ := va
  cases fp <;> simp [VaList.argDouble]

theorem argInt_fine (va : VaList) : va.argInt ≠ .error .format :=
  bind_fine (arg_fine va) fun a => by simp [pure,Except.pure]

theorem eval_width_after {s t : List Char} (ends : after width_next s = some t) :
    ∃ s', Stage eval_width s s' ∧ after precision_next s' = some t := by
  cases s with
  | nil => cases ends
  | cons c s =>
    by_cases digit : is_digit c = true
    · have first : after (next .width) (c :: s) = some t := by
        have same : next .width c = width_next c := by simp [next,width_next,digit]
        rwa [after,same]
      obtain ⟨n,s',number,ends⟩ := atoi_after (k := precision_next) (by decide) (fun c => rfl) first 0
      refine ⟨s',⟨fun flags va => .ok (flags,n,va),by simp,fun flags f va => ?_⟩,ends⟩
      have read := number f
      simp only [List.cons_append] at read
      simp only [List.cons_append,eval_width,digit,if_true,read]
      rfl
    · by_cases star : c = '*'
      · subst star
        refine ⟨s,⟨fun flags va => va.argInt.map fun r =>
          if r.1.slt 0 then ({ flags with left := true },(-r.1).toNat,r.2) else (flags,r.1.toNat,r.2),
            fun flags va => map_fine (argInt_fine va),fun flags f va => ?_⟩,ends⟩
        · simp only [List.cons_append,eval_width,if_neg digit,if_true]
          cases va.argInt with
          | error fault => rfl
          | ok r =>
            simp only [bind,Except.bind,Except.map,pure,Except.pure]
            by_cases below : r.1.slt 0 = true
            · simp only [if_pos below]
            · simp only [if_neg below]
      · have same : width_next c = precision_next c := by simp [width_next,digit,star]
        refine ⟨c :: s,⟨fun flags va => .ok (flags,0,va),by simp,fun flags f va => ?_⟩,by rwa [after,← same]⟩
        simp [eval_width,digit,star,Except.map]

theorem eval_precision_after {s t : List Char} (ends : after precision_next s = some t) :
    ∃ s', Stage eval_precision s s' ∧ after length_next s' = some t := by
  cases s with
  | nil => cases ends
  | cons c s =>
    by_cases point : c = '.'
    · subst point
      have behind : after (next .point) s = some t := ends
      cases s with
      | nil => cases behind
      | cons c s =>
        by_cases digit : is_digit c = true
        · have first : after (next .digits) (c :: s) = some t := by
            have same : next .digits c = next .point c := by simp [next,digit]
            rwa [after,same]
          obtain ⟨n,s',number,ends⟩ := atoi_after (k := length_next) (by decide) (fun c => rfl) first 0
          refine ⟨s',⟨fun flags va => .ok ({ flags with precision := true },n,va),by simp,fun flags f va => ?_⟩,ends⟩
          have read := number f
          simp only [List.cons_append] at read
          simp only [List.cons_append,eval_precision,digit,if_true,read]
          rfl
        · by_cases star : c = '*'
          · subst star
            refine ⟨s,⟨fun flags va => va.argInt.map fun r =>
              ({ flags with precision := true },if (0 : BitVec 32).slt r.1 then r.1.toNat else 0,r.2),
              fun flags va => map_fine (argInt_fine va),fun flags f va => ?_⟩,behind⟩
            simp only [List.cons_append,eval_precision,if_neg digit,if_true]
            cases va.argInt <;> rfl
          · have same : next .point c = length_next c := by simp [next,digit,star]
            refine ⟨c :: s,⟨fun flags va => .ok ({ flags with precision := true },0,va),by simp,fun flags f va => ?_⟩,
              by rwa [after,← same]⟩
            simp [eval_precision,digit,star,Except.map]
    · have same : precision_next c = length_next c := if_neg point
      refine ⟨c :: s,⟨fun flags va => .ok (flags,0,va),by simp,fun flags f va => ?_⟩,by rwa [after,← same]⟩
      rw [List.cons_append,eval_precision.eq_def]
      split
      case h_1 h => cases h
      case h_2 h => exact absurd (List.cons.inj h).1 point
      case h_3 => rfl

/-- Behind a whole length, one character is the specifier. -/
theorem specifier_after {k : Char → Place} (last : ∀ c, k c = .plain) {s t : List Char} (ends : after k s = some t) :
    ∃ c, s = c :: t := by
  cases s with
  | nil => cases ends
  | cons c s =>
    rw [after,if_pos (last c)] at ends
    cases ends
    exact ⟨c,rfl⟩

/-- Behind `l` or `h`, the letter may be doubled. -/
theorem doubled_after (letter : Char) {p : Place} (step : ∀ c, next p c = if c = letter then .length else .plain)
    {s t : List Char} (ends : after (next p) s = some t) : (∃ c, s = letter :: c :: t) ∨ ∃ c, c ≠ letter ∧ s = c :: t := by
  cases s with
  | nil => cases ends
  | cons c s =>
    rw [after,step] at ends
    by_cases same : c = letter
    · rw [if_pos same,if_neg (by decide)] at ends
      obtain ⟨c',rfl⟩ := specifier_after (fun c => rfl) ends
      exact .inl ⟨c',by rw [same]⟩
    · rw [if_neg same,if_pos rfl] at ends
      cases ends
      exact .inr ⟨c,same,rfl⟩

theorem eval_length_after {s t : List Char} (ends : after length_next s = some t) :
    ∃ (set : Flags → Flags) (c : Char), ∀ flags f, eval_length flags (s ++ f) = .ok (set flags,c :: (t ++ f)) := by
  cases s with
  | nil => cases ends
  | cons c s =>
    by_cases l : c = 'l'
    · subst l
      rcases doubled_after 'l' (fun c => rfl) (show after (next .l) s = some t from ends) with ⟨c,rfl⟩ | ⟨c,other,rfl⟩
      · exact ⟨fun flags => { flags with long := true, long_long := true },c,fun flags f => rfl⟩
      · refine ⟨fun flags => { flags with long := true },c,fun flags f => ?_⟩
        simp [eval_length,other]
    by_cases h : c = 'h'
    · subst h
      rcases doubled_after 'h' (fun c => rfl) (show after (next .h) s = some t from ends) with ⟨c,rfl⟩ | ⟨c,other,rfl⟩
      · exact ⟨fun flags => { flags with short := true, char := true },c,fun flags f => rfl⟩
      · refine ⟨fun flags => { flags with short := true },c,fun flags f => ?_⟩
        simp [eval_length,other]
    by_cases size : c = 't' ∨ c = 'j' ∨ c = 'z'
    · have behind : after (next .length) s = some t := by
        rcases size with rfl | rfl | rfl <;> exact ends
      obtain ⟨c',rfl⟩ := specifier_after (fun c => rfl) behind
      refine ⟨fun flags => { flags with long := true },c',fun flags f => ?_⟩
      rcases size with rfl | rfl | rfl <;> rfl
    · have plain : length_next c = .plain := by
        simp only [not_or] at size
        simp [length_next,l,h,size]
      rw [after,if_pos plain] at ends
      cases ends
      refine ⟨id,c,fun flags f => ?_⟩
      simp only [not_or] at size
      simp [eval_length,l,h,size]

/-- A directive that ends before what is left of a format is read without it. -/
theorem directive_after {s t : List Char} (ends : after (next .flags) s = some t) :
    ∃ read : VaList → Except Fault (Directive × VaList), (∀ va, read va ≠ .error .format) ∧
      ∀ f va, directive (s ++ f) va = (read va).map fun r => (r.1,t ++ f,r.2) := by
  obtain ⟨flags,s1,flagged,ends⟩ := eval_flags_after ends {}
  obtain ⟨s2,⟨width,fine,widened⟩,ends⟩ := eval_width_after ends
  obtain ⟨s3,⟨precision,fine',precise⟩,ends⟩ := eval_precision_after ends
  obtain ⟨set,c,lengthened⟩ := eval_length_after ends
  refine ⟨fun va => width flags va >>= fun w => (precision w.1 w.2.2).map fun p => (⟨set p.1,w.2.1,p.2.1,c⟩,p.2.2),?_,?_⟩
  · exact fun va => bind_fine (fine flags va) fun w => map_fine (fine' w.1 w.2.2)
  · intro f va
    simp only [directive,flagged,bind,Except.bind,widened]
    cases width flags va with
    | error fault => rfl
    | ok w =>
      simp only [Except.map,precise]
      cases precision w.1 w.2.2 with
      | error fault => rfl
      | ok p =>
        simp only [lengthened]
        rfl

/-! ### Whole formats -/

theorem strnlen_s_fine (s : List Char) (maxsize : Nat) : strnlen_s s maxsize ≠ .error .format := by
  induction s generalizing maxsize with
  | nil => simp [strnlen_s]
  | cons c s ih =>
    cases maxsize with
    | zero =>
      rw [strnlen_s]
      split <;> simp
    | succ maxsize =>
      rw [strnlen_s]
      split
      · simp
      · exact bind_fine (ih maxsize) fun n => by simp [pure,Except.pure]

theorem out_string_fine {β : Type} (out : out_fct_type β) (maxlen : Nat) (o : Out β) (p : List Char) (limit : Option Nat) :
    out_string out maxlen o p limit ≠ .error .format := by
  induction p generalizing o limit with
  | nil => cases limit <;> simp [out_string]
  | cons c p ih =>
    cases limit with
    | none =>
      rw [out_string]
      split
      · simp
      · exact ih _ _
    | some precision =>
      rw [out_string.eq_def]
      simp only
      split
      · simp
      · cases precision with
        | zero => simp
        | succ precision => exact ih _ _

theorem out_specifier_fine {β : Type} (out : out_fct_type β) (maxlen : Nat) (env : Env) (d : Directive)
    (va : VaList) (o : Out β) :
    out_specifier out maxlen env d va o ≠ .error .format := by
  have done : ∀ {α : Type} (a : α), (pure a : Except Fault α) ≠ .error .format := fun a => by simp [pure,Except.pure]
  have signed : ∀ flags va, signed_arg flags va ≠ .error .format := by
    intro flags va
    unfold signed_arg
    split
    · exact bind_fine (arg_fine va) fun a => done _
    split
    · exact bind_fine (arg_fine va) fun a => done _
    · exact bind_fine (argInt_fine va) fun a => done _
  have unsigned : ∀ flags va, unsigned_arg flags va ≠ .error .format := by
    intro flags va
    unfold unsigned_arg
    split
    · exact arg_fine va
    split
    · exact arg_fine va
    · exact bind_fine (argInt_fine va) fun a => done _
  have integer : out_integer out maxlen d va o ≠ .error .format := by
    unfold out_integer
    simp only
    split
    · exact bind_fine (signed _ va) fun a => done _
    · exact bind_fine (unsigned _ va) fun a => done _
  unfold out_specifier
  split
  case h_1 | h_2 | h_3 | h_4 | h_5 | h_6 | h_7 => exact integer
  case h_8 | h_9 => exact bind_fine (argDouble_fine va) fun a => done _
  case h_10 | h_11 | h_12 | h_13 => exact bind_fine (argDouble_fine va) fun a => done _
  case h_14 => exact bind_fine (argInt_fine va) fun a => done _
  case h_15 =>
    refine bind_fine (arg_fine va) fun p => bind_fine (strnlen_s_fine _ _) fun l => bind_fine ?_ fun o => done _
    exact out_string_fine _ _ _ _ _
  case h_16 => exact bind_fine (arg_fine va) fun a => done _
  all_goals simp

theorem specifier_text_fine (env : Env) (d : Directive) (va : VaList) : specifier_text env d va ≠ .error .format :=
  map_fine (out_specifier_fine _ _ _ _ _ _)

/-- The text of a directive and what follows it, the arguments being read by `read`. -/
theorem text_percent (env : Env) {s t : List Char} {read : VaList → Except Fault (Directive × VaList)}
    (same : ∀ f va, directive (s ++ f) va = (read va).map fun r => (r.1,t ++ f,r.2)) (f : List Char) (va : VaList) :
    text env ('%' :: s ++ f) va = read va >>= fun r => specifier_text env r.1 r.2 >>= fun u =>
      (text env (t ++ f) u.2).map fun w => (u.1 ++ w.1,w.2) := by
  rw [List.cons_append,text_directive,same]
  cases read va <;> rfl

/-- A text in front of what has been said and of what follows it. -/
theorem map_rest (said : Except Fault (List Char × VaList)) (rest : VaList → Except Fault (List Char × VaList))
    (cs : List Char) :
    (said >>= fun t => (rest t.2).map fun u => (t.1 ++ u.1,u.2)).map (fun t => (cs ++ t.1,t.2)) =
      said.map (fun t => (cs ++ t.1,t.2)) >>= fun t => (rest t.2).map fun u => (t.1 ++ u.1,u.2) := by
  cases said with
  | error fault => rfl
  | ok t =>
    simp only [bind,Except.bind,Except.map]
    cases rest t.2 with
    | error fault => rfl
    | ok u => simp

/-- The text of a format that cuts no directive off, and of what follows it. -/
theorem text_append (env : Env) (f : List Char) {s : List Char} (complete : Complete s) (plain : NUL ∉ s) (va : VaList) :
    text env (s ++ f) va = text env (s ++ [NUL]) va >>= fun t => (text env f t.2).map fun u => (t.1 ++ u.1,u.2) := by
  induction s using format_induction generalizing va with
  | nil =>
    rw [List.nil_append,List.nil_append,text_nul]
    simp only [bind,Except.bind]
    cases text env f va <;> rfl
  | plain c s percent ih =>
    have nul : c ≠ NUL := fun same => plain (same ▸ List.mem_cons_self)
    have tail := ih ((complete_plain s percent).mp complete) (fun member => plain (List.mem_cons_of_mem c member)) va
    rw [List.cons_append,List.cons_append,text_plain env _ va nul percent,text_plain env _ va nul percent,tail]
    exact map_rest _ (text env f) [c]
  | cut s open_ =>
    obtain ⟨t,ends,-⟩ := (complete_percent s).mp complete
    rw [open_] at ends
    cases ends
  | directive s t ends ih =>
    obtain ⟨t',ends',complete⟩ := (complete_percent s).mp complete
    obtain rfl := Option.some.inj (ends.symm.trans ends')
    obtain ⟨read,-,same⟩ := directive_after ends
    have suffix := (after_suffix ends).1
    have tail := ih complete fun member => plain (List.mem_cons_of_mem _ (suffix.mem member))
    rw [text_percent env same,text_percent env same]
    cases read va with
    | error fault => rfl
    | ok r =>
      simp only [bind,Except.bind]
      cases specifier_text env r.1 r.2 with
      | error fault => rfl
      | ok u =>
        simp only [tail]
        exact map_rest _ (text env f) u.1

theorem text_append_list : text silent ("%d, ".toList ++ "%s.".toList ++ [NUL]) ⟨[7,0x2000],[]⟩ =
    text silent ("%d, ".toList ++ [NUL]) ⟨[7,0x2000],[]⟩ >>= fun t =>
      (text silent ("%s.".toList ++ [NUL]) t.2).map fun u => (t.1 ++ u.1,u.2) := by
  rw [List.append_assoc]
  exact text_append silent _ (by decide) (by decide) _

/-- A format that cuts no directive off is read up to its NUL, whatever stands behind it.
    In one that does, the NUL is taken for the specifier, and what stands behind it is
    read as the rest of the format. -/
theorem format_safe (env : Env) {s : List Char} (plain : NUL ∉ s) (va : VaList) :
    (Complete s → text env (s ++ [NUL]) va ≠ .error .format ∧ ∀ f, text env (s ++ NUL :: f) va = text env (s ++ [NUL]) va) ∧
    (¬ Complete s → ∃ said : Except Fault (List Char × VaList), said ≠ .error .format ∧
      ∀ f, text env (s ++ NUL :: f) va = said >>= fun t => (text env f t.2).map fun u => (t.1 ++ u.1,u.2)) := by
  induction s using format_induction generalizing va with
  | nil =>
    refine ⟨fun _ => ⟨?_,fun f => ?_⟩,fun cut => absurd rfl cut⟩
    · rw [List.nil_append,text_nul]
      simp
    · rw [List.nil_append,List.nil_append,text_nul,text_nul]
  | plain c s percent ih =>
    have nul : c ≠ NUL := fun same => plain (same ▸ List.mem_cons_self)
    obtain ⟨safe,cut⟩ := ih (fun member => plain (List.mem_cons_of_mem c member)) va
    rw [complete_plain s percent]
    simp only [List.cons_append,text_plain env _ va nul percent]
    constructor
    · intro complete
      obtain ⟨fine,same⟩ := safe complete
      exact ⟨map_fine fine,fun f => by rw [same]⟩
    · intro open_
      obtain ⟨said,fine,later⟩ := cut open_
      refine ⟨said.map fun t => (c :: t.1,t.2),map_fine fine,fun f => ?_⟩
      rw [later]
      exact map_rest said (text env f) [c]
  | cut s open_ =>
    constructor
    · intro complete
      obtain ⟨t,ends,-⟩ := (complete_percent s).mp complete
      rw [open_] at ends
      cases ends
    · intro _
      obtain ⟨read,fine,same⟩ := directive_after (after_nul open_)
      refine ⟨read va >>= fun r => specifier_text env r.1 r.2,
        bind_fine (fine va) fun r => specifier_text_fine env r.1 r.2,fun f => ?_⟩
      have whole := text_percent env same f va
      rw [List.nil_append,List.cons_append,List.append_assoc,List.singleton_append] at whole
      rw [List.cons_append,whole]
      cases read va <;> rfl
  | directive s t ends ih =>
    obtain ⟨read,fine,same⟩ := directive_after ends
    have suffix := (after_suffix ends).1
    have tail := ih fun member => plain (List.mem_cons_of_mem _ (suffix.mem member))
    rw [complete_percent]
    simp only [text_percent env same]
    constructor
    · rintro ⟨t',ends',complete⟩
      obtain rfl := Option.some.inj (ends.symm.trans ends')
      refine ⟨?_,fun f => ?_⟩
      · exact bind_fine (fine va) fun r => bind_fine (specifier_text_fine env r.1 r.2) fun u => map_fine
          ((tail u.2).1 complete).1
      · simp only [((tail _).1 complete).2 f]
    · intro open_
      have cut : ¬ Complete t := fun complete => open_ ⟨t,ends,complete⟩
      cases taken : read va with
      | error fault => exact ⟨.error fault,fun is => fine va (taken.trans (congrArg _ (Except.error.inj is))),fun f => rfl⟩
      | ok r =>
        cases given : specifier_text env r.1 r.2 with
        | error fault =>
          refine ⟨.error fault,fun is => ?_,fun f => ?_⟩
          · exact specifier_text_fine env r.1 r.2 (given.trans (congrArg _ (Except.error.inj is)))
          · simp only [bind,Except.bind,given]
        | ok u =>
          obtain ⟨said,fine,later⟩ := (tail u.2).2 cut
          refine ⟨said.map fun w => (u.1 ++ w.1,w.2),map_fine fine,fun f => ?_⟩
          simp only [bind,Except.bind,given]
          rw [later]
          exact map_rest said (text env f) u.1

/-- `%5` at the end of a format goes on with what is in memory behind it. -/
theorem format_safe_cut : (∀ f, text silent ("%d\n".toList ++ NUL :: f) ⟨[7],[]⟩ = text silent ("%d\n".toList ++ [NUL]) ⟨[7],[]⟩) ∧
    ∃ said : Except Fault (List Char × VaList), said ≠ .error .format ∧ ∀ f, text silent ("%d %5".toList ++ NUL :: f) ⟨[7,8],[]⟩ =
      said >>= fun t => (text silent f t.2).map fun u => (t.1 ++ u.1,u.2) :=
  ⟨((format_safe silent (by decide) _).1 (by decide)).2,(format_safe silent (by decide) _).2 (by decide)⟩

end Bootcode.PrintfFormat
