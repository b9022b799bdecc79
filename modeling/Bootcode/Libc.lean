import Bootcode.Console
import Bootcode.PrintfInteger
import Bootcode.X86

/-!
`memcpy` and `hexdump`: what a copy leaves where the two areas overlap, and how the
bytes of a dump are read back from its lines.
-/
namespace Bootcode.Libc
open Bootcode.Printf Bootcode.PrintfText Bootcode.PrintfIso Bootcode.PrintfInteger
open Bootcode.X86 hiding Word

abbrev Word := BitVec 64

/-! ### memcpy -/

/-- The loop of `memcpy`; `len` counts down. -/
def memcpy_loop (dptr sptr : Word) : Nat → Memory → Memory
  | 0, mem => mem
  | len + 1, mem => memcpy_loop (dptr + 1) (sptr + 1) len (Function.update mem dptr (mem sptr))

def memcpy (dest src len : Word) (mem : Memory) : Memory := memcpy_loop dest src len.toNat mem

/-- What a copy is for: the bytes that were at `src`. -/
def moved (dest src len : Word) (mem : Memory) : Memory := fun x => if x - dest < len then mem (src + (x - dest)) else mem x

/-- The last byte of a copy. -/
theorem memcpy_loop_succ (dptr sptr : Word) (n : Nat) (mem : Memory) : memcpy_loop dptr sptr (n + 1) mem =
    Function.update (memcpy_loop dptr sptr n mem) (dptr + BitVec.ofNat 64 n)
    (memcpy_loop dptr sptr n mem (sptr + BitVec.ofNat 64 n)) := by
  induction n generalizing dptr sptr mem with
  | zero => simp [memcpy_loop]
  | succ n ih =>
    have next : ∀ p : Word, p + 1 + BitVec.ofNat 64 n = p + BitVec.ofNat 64 (n + 1) := by
      intro p
      rw [BitVec.add_assoc,BitVec.ofNat_add]
      congr 1
      exact BitVec.add_comm ..
    rw [memcpy_loop,ih (dptr + 1) (sptr + 1),next dptr,next sptr]
    rfl

/-- Going back by `d` as long as that is possible does not change a remainder. -/
theorem back_umod (k d : Word) : (if k - d < k then (k - d) % d else k) = k % d := by
  by_cases zero : d = 0#64
  · subst zero
    rw [BitVec.sub_zero,BitVec.umod_zero,ite_self]
  by_cases le : d ≤ k
  · have less : k - d < k := by
      have pos : d.toNat ≠ 0 := fun none => zero (BitVec.eq_of_toNat_eq none)
      have le := BitVec.le_def.mp le
      rw [BitVec.lt_def,BitVec.toNat_sub_of_le (BitVec.le_def.mpr le)]
      omega
    rw [if_pos less]
    apply BitVec.eq_of_toNat_eq
    rw [BitVec.toNat_umod,BitVec.toNat_umod,BitVec.toNat_sub_of_le le]
    exact (Nat.mod_eq_sub_mod (BitVec.le_def.mp le)).symm
  · have above := BitVec.not_le.mp le
    have more : ¬ k - d < k := by
      have lt := BitVec.lt_def.mp above
      rw [BitVec.lt_def,BitVec.toNat_sub]
      omega
    rw [if_neg more,BitVec.umod_eq_of_lt above]

/-- Once the copy has come to `dest` itself, it reads what it has written. -/
theorem memcpy_loop_apply (dest src : Word) {n : Nat} (small : n < 2 ^ 64) (mem : Memory) (x : Word) :
    memcpy_loop dest src n mem x =
    if (x - dest).toNat < n then mem (src + (x - dest) % (dest - src)) else mem x := by
  induction n generalizing x with
  | zero => simp [memcpy_loop]
  | succ n ih =>
    have k : (BitVec.ofNat 64 n).toNat = n := by
      rw [BitVec.toNat_ofNat]
      omega
    rw [memcpy_loop_succ]
    by_cases last : x = dest + BitVec.ofNat 64 n
    · subst last
      have off : dest + BitVec.ofNat 64 n - dest = BitVec.ofNat 64 n := by
        rw [BitVec.add_comm,BitVec.add_sub_cancel]
      rw [Function.update_self,ih (by omega),off,k,if_pos (Nat.lt_succ_self n)]
      have earlier : src + BitVec.ofNat 64 n - dest = BitVec.ofNat 64 n - (dest - src) := by ring
      have again : (BitVec.ofNat 64 n - (dest - src)).toNat < n ↔ BitVec.ofNat 64 n - (dest - src) < BitVec.ofNat 64 n := by
        rw [BitVec.lt_def,k]
      rw [earlier,if_congr again rfl rfl,← back_umod (BitVec.ofNat 64 n)]
      exact (apply_ite (fun y => mem (src + y)) ..).symm
    · have other : (x - dest).toNat ≠ n := by
        intro same
        apply last
        rw [← BitVec.eq_of_toNat_eq (same.trans k.symm)]
        ring
      rw [Function.update_of_ne last,ih (by omega)]
      exact if_congr (by omega) rfl rfl

theorem memcpy_apply (dest src len : Word) (mem : Memory) (x : Word) :
    memcpy dest src len mem x = if x - dest < len then mem (src + (x - dest) % (dest - src)) else mem x :=
  memcpy_loop_apply dest src len.isLt mem x

/-- `memcpy` for all areas, overlapping ones and such as go around the end of the address
    space too: it moves the bytes unless `dest` is inside what is still to be read. -/
theorem memcpy_overlap (dest src len : Word) :
    (∀ mem x, memcpy dest src len mem x = if x - dest < len then mem (src + (x - dest) % (dest - src)) else mem x) ∧
    ((∀ mem, memcpy dest src len mem = moved dest src len mem) ↔ dest = src ∨ len ≤ dest - src) := by
  refine ⟨memcpy_apply dest src len,?_,?_⟩
  · intro all
    by_contra both
    obtain ⟨other,inside⟩ := not_or.mp both
    have inside := BitVec.not_le.mp inside
    -- The byte at `dest` is written before it is read.
    have at' := congrFun (all (Function.update (fun _ => 0) dest 1)) (dest + (dest - src))
    have off : dest + (dest - src) - dest = dest - src := by ring
    have self : src + (dest - src) = dest := by ring
    rw [memcpy_apply,moved,off,if_pos inside,if_pos inside,self,Function.update_self,BitVec.umod_self] at at'
    rw [Function.update_of_ne (by simpa using Ne.symm other)] at at'
    cases at'
  · intro apart mem
    funext x
    rw [memcpy_apply,moved]
    split
    · rename_i inside
      rcases apart with rfl | above
      · rw [BitVec.sub_self,BitVec.umod_zero]
      · have less : x - dest < dest - src := BitVec.lt_def.mpr ((BitVec.lt_def.mp inside).trans_le (BitVec.le_def.mp above))
        rw [BitVec.umod_eq_of_lt less]
    · rfl

/-! ### hexdump -/

/-- The loop of `hexdump`; `len` counts down. -/
def hexdump_loop (env : Env) (mem : Memory) (cptr : Word) : Nat → List Char → Except Fault (List Char)
  | 0, sent => .ok sent
  | len + 1, sent => do
    let r ← printf env sent ("%02X ".toList ++ [NUL]) ⟨[(mem cptr).setWidth 64],[]⟩
    let r ← if len % 8 = 0 then printf env r.1 ("\n".toList ++ [NUL]) ⟨[],[]⟩ else pure r
    hexdump_loop env mem (cptr + 1) len r.1

/-- A negative `len` is as none. -/
def hexdump (env : Env) (mem : Memory) (ptr : Word) (len : Int) (sent : List Char) : Except Fault (List Char) := do
  let sent ← hexdump_loop env mem ptr len.toNat sent
  let r ← printf env sent ("\n".toList ++ [NUL]) ⟨[],[]⟩
  return r.1

/-- The calls of `printf_` in the loop of `hexdump`, and in all of it. -/
def loop_calls (mem : Memory) (cptr : Word) : Nat → List Console.Call
  | 0 => []
  | len + 1 => ⟨"%02X ".toList ++ [NUL],⟨[(mem cptr).setWidth 64],[]⟩⟩ ::
    ((if len % 8 = 0 then [⟨"\n".toList ++ [NUL],⟨[],[]⟩⟩] else []) ++ loop_calls mem (cptr + 1) len)
def hexdump_calls (mem : Memory) (ptr : Word) (len : Int) : List Console.Call :=
  loop_calls mem ptr len.toNat ++ [⟨"\n".toList ++ [NUL],⟨[],[]⟩⟩]

theorem loop_prints (env : Env) (mem : Memory) (p : Word) (n : Nat) (sent : List Char) :
    Console.prints env sent (loop_calls mem p n) = hexdump_loop env mem p n sent := by
  induction n generalizing p sent with
  | zero => rfl
  | succ n ih =>
    simp only [loop_calls,hexdump_loop,Console.prints]
    cases printf env sent ("%02X ".toList ++ [NUL]) ⟨[(mem p).setWidth 64],[]⟩ with
    | error fault => rfl
    | ok r =>
      simp only [bind,Except.bind]
      split
      · simp only [List.singleton_append,Console.prints]
        cases printf env r.1 ("\n".toList ++ [NUL]) ⟨[],[]⟩ with
        | error fault => rfl
        | ok r => exact ih _ _
      · exact ih _ _

theorem hexdump_prints (env : Env) (mem : Memory) (ptr : Word) (len : Int) (sent : List Char) :
    Console.prints env sent (hexdump_calls mem ptr len) = hexdump env mem ptr len sent := by
  rw [hexdump_calls,Console.prints_append,loop_prints,hexdump]
  simp only [Console.prints]
  cases hexdump_loop env mem ptr len.toNat sent with
  | error fault => rfl
  | ok sent =>
    simp only [bind,Except.bind]
    cases printf env sent ("\n".toList ++ [NUL]) ⟨[],[]⟩ <;> rfl

/-- A vCPU that has the serial port to itself sends a dump through `printf_`, and the mutex
    is free again. -/
theorem hexdump_alone {ι : Type} (env : Env) (id : ι → Nat) (i : ι) (mem : Memory) (ptr : Word) (len : Int)
    {sent sent' : List Char} (ran : hexdump env mem ptr len sent = .ok sent') (log : List (ι × Console.Call)) :
    Console.Alone env id i (⟨0,sent,log⟩,⟨.idle,hexdump_calls mem ptr len⟩)
      (⟨0,sent',((hexdump_calls mem ptr len).map (i,·)).reverse ++ log⟩,⟨.idle,[]⟩) :=
  Console.alone_prints_all ((hexdump_prints env mem ptr len sent).trans ran) log

/-- The bytes of an area. -/
def bytes (mem : Memory) (p : Word) : Nat → List (BitVec 8)
  | 0 => []
  | n + 1 => mem p :: bytes mem (p + 1) n

/-- The characters of a byte in a dump. -/
def shown (b : BitVec 8) : List Char := [digit_char true (b.toNat / 16),digit_char true (b.toNat % 16),' ']

theorem digits_byte {n : Nat} (small : n < 256) : digits 16 n = if n < 16 then [n] else [n % 16,n / 16] := by
  unfold digits
  by_cases zero : n = 0
  · subst zero
    rfl
  rw [if_neg zero]
  by_cases one : n < 16
  · rw [if_pos one,Nat.digits_of_lt 16 n zero one]
  · rw [if_neg one,Nat.digits_def' (by omega) (by omega),Nat.digits_of_lt 16 (n / 16) (by omega) (by omega)]

/-- A byte has two digits, the first perhaps from `0` of the format. -/
theorem body_byte {n : Nat} (small : n < 256) :
    iso_body n 16 true (some 2) = [digit_char true (n / 16),digit_char true (n % 16)] := by
  simp only [iso_body,digits_byte small]
  by_cases one : n < 16
  · rw [Nat.div_eq_of_lt one,Nat.mod_eq_of_lt one]
    simp [one,digit_char]
  · simp [one]

theorem text_byte (env : Env) (b : BitVec 8) : text env ("%02X ".toList ++ [NUL]) ⟨[b.setWidth 64],[]⟩ = .ok (shown b,⟨[],[]⟩) := by
  have parsed : directive ("02X ".toList ++ [NUL]) ⟨[b.setWidth 64],[]⟩ =
      .ok (zeroPadded false 2,[' ',NUL],⟨[b.setWidth 64],[]⟩) := rfl
  have value : part false (b.setWidth 64) = b.toNat := by
    have lt := b.isLt
    show (b.setWidth 64).toNat % 2 ^ 32 = b.toNat
    rw [BitVec.toNat_setWidth]
    omega
  have said := text_hex env (by omega) (by decide) parsed
  rw [value,body_byte b.isLt,text_plain env [NUL] ⟨[],[]⟩ (show ' ' ≠ NUL by decide) (by decide),text_nul] at said
  exact said

/-- What the loop sends: a line ends where a multiple of eight is left. -/
def dump : List (BitVec 8) → List Char
  | [] => []
  | b :: bs => shown b ++ (if bs.length % 8 = 0 then ['\n'] else []) ++ dump bs

theorem length_bytes (mem : Memory) (p : Word) (n : Nat) : (bytes mem p n).length = n := by
  induction n generalizing p with
  | zero => rfl
  | succ n ih => exact congrArg Nat.succ (ih (p + 1))

theorem digit_char_ne (uppercase : Bool) {d : Nat} (lt : d < 16) : digit_char uppercase d ≠ NUL := by
  cases uppercase <;> interval_cases d <;> decide

theorem shown_sent (b : BitVec 8) : (shown b).filter (· ≠ NUL) = shown b := by
  have small := b.isLt
  have high := digit_char_ne true (show b.toNat / 16 < 16 by omega)
  have low := digit_char_ne true (show b.toNat % 16 < 16 by omega)
  simp [shown,high,low]
  decide

theorem hexdump_loop_eq (env : Env) (mem : Memory) (p : Word) (n : Nat) (sent : List Char) :
    hexdump_loop env mem p n sent = .ok (sent ++ dump (bytes mem p n)) := by
  induction n generalizing p sent with
  | zero => simp [hexdump_loop,bytes,dump]
  | succ n ih =>
    rw [hexdump_loop,printf_sent,text_byte,bytes,dump,length_bytes]
    simp only [Except.map,bind,Except.bind,shown_sent]
    by_cases line : n % 8 = 0
    · rw [if_pos line,if_pos line,printf_sent,text_newline]
      simp [Except.map,ih,NUL]
    · rw [if_neg line,if_neg line]
      simp [pure,Except.pure,ih]

def line_text (line : List (BitVec 8)) : List Char := line.flatMap shown ++ ['\n']

/-- The lines of a dump: what is over of eight, and then eights. -/
structure Lines (bs : List (BitVec 8)) (lines : List (List (BitVec 8))) : Prop where
  whole : lines.flatten = bs
  first : ∀ line ∈ lines.head?, line.length = (bs.length - 1) % 8 + 1
  eights : ∀ line ∈ lines.tail, line.length = 8
  text : dump bs = lines.flatMap line_text

theorem dump_lines (bs : List (BitVec 8)) : ∃ lines, Lines bs lines := by
  induction bs with
  | nil => exact ⟨[],rfl,by simp,by simp,rfl⟩
  | cons b bs ih =>
    obtain ⟨lines,rfl,first,eights,text⟩ := ih
    by_cases line : lines.flatten.length % 8 = 0
    · -- A line of its own: the next one is full.
      refine ⟨[b] :: lines,rfl,?_,?_,?_⟩
      · intro l member
        cases member
        simp only [List.length_cons,List.length_nil,Nat.add_sub_cancel,line]
      · intro l member
        cases lines with
        | nil => cases member
        | cons l' lines =>
          rcases List.mem_cons.mp member with rfl | later
          · have some := first l rfl
            have pos : 0 < (l :: lines).flatten.length := by
              rw [List.flatten_cons,List.length_append]
              omega
            omega
          · exact eights l later
      · rw [dump,if_pos line,text]
        simp [line_text]
    · cases lines with
      | nil => exact absurd rfl line
      | cons l lines =>
        refine ⟨(b :: l) :: lines,rfl,?_,eights,?_⟩
        · intro l' member
          cases member
          have some := first l rfl
          rw [List.length_cons,List.length_cons,Nat.add_sub_cancel]
          omega
        · rw [dump,if_neg line,text]
          simp [line_text]

/-- The bytes of a dump, read back. -/
def undump : List Char → List (BitVec 8)
  | '\n' :: cs => undump cs
  | high :: low :: _ :: cs => BitVec.ofNat 8 (number 16 [high,low]) :: undump cs
  | _ => []

theorem undump_shown (b : BitVec 8) (cs : List Char) : undump (shown b ++ cs) = b :: undump cs := by
  have small := b.isLt
  have other : ∀ d, d < 16 → digit_char true d ≠ '\n' := by
    intro d lt
    interval_cases d <;> decide
  have value : number 16 [digit_char true (b.toNat / 16),digit_char true (b.toNat % 16)] = b.toNat := by
    simp only [number,List.foldl_cons,List.foldl_nil]
    rw [digit_value_char true (by omega),digit_value_char true (by omega)]
    omega
  show undump (_ :: _ :: ' ' :: cs) = _
  rw [undump,value,BitVec.ofNat_toNat,BitVec.setWidth_eq]
  exact fun same => absurd same (other (b.toNat / 16) (by omega))

theorem undump_dump (bs : List (BitVec 8)) (cs : List Char) : undump (dump bs ++ cs) = bs ++ undump cs := by
  induction bs with
  | nil => rfl
  | cons b bs ih =>
    rw [dump,List.append_assoc,List.append_assoc,undump_shown]
    split
    · exact congrArg (b :: ·) ih
    · exact congrArg (b :: ·) ih

/-- A dump has the bytes of the area, eight in a line from the end, and can be read. -/
theorem hexdump_lines (env : Env) (mem : Memory) (ptr : Word) (len : Int) (sent : List Char) :
    ∃ said, hexdump env mem ptr len sent = .ok (sent ++ said) ∧ undump said = bytes mem ptr len.toNat ∧
      ∃ lines : List (List (BitVec 8)), said = lines.flatMap (fun line => line.flatMap shown ++ ['\n']) ++ ['\n'] ∧
        (∀ line ∈ lines.head?, line.length = (len.toNat - 1) % 8 + 1) ∧ ∀ line ∈ lines.tail, line.length = 8 := by
  obtain ⟨lines,whole,first,eights,same⟩ := dump_lines (bytes mem ptr len.toNat)
  rw [length_bytes] at first
  refine ⟨dump (bytes mem ptr len.toNat) ++ ['\n'],?_,?_,lines,congrArg (· ++ ['\n']) same,first,eights⟩
  · rw [hexdump,hexdump_loop_eq]
    simp only [bind,Except.bind,printf_sent,text_newline,Except.map,pure,Except.pure]
    exact congrArg Except.ok (List.append_assoc ..)
  · rw [undump_dump]
    exact List.append_nil _

end Bootcode.Libc
