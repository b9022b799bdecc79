import Mathlib.Data.BitVec

/-!
The IPI functions of `ipi.c`. Their loop is to poll the delivery status of the command
register, bit 12, but it compares the whole register with 1, and the result compares
it with 0.
-/
namespace Bootcode.Ipi

/-- The registers of `struct apic_t` that the functions store to. -/
inductive Register
  | esr
  | icrh
  | icrl

def ICRL5 (dm tgm mt l vec : BitVec 32) : BitVec 32 := (tgm <<< 15) ||| (l <<< 14) ||| (dm <<< 11) ||| (mt <<< 8) ||| vec
def ICRL1 (vec : BitVec 32) : BitVec 32 := ICRL5 0 0 0 0 vec

/-- `(1 < 12) & apic->icrl == value`: in C `==` comes before `&`. -/
def test (icrl value : BitVec 32) : Nat := (if 1 < 12 then 1 else 0) &&& (if icrl = value then 1 else 0)

/-- `while(test && (wait_cnt--));` from read `k` of `icrl` on: the next read after the loop. -/
def poll (reads : Nat → BitVec 32) : (wait_cnt k : Nat) → Nat
  | 0, k => k + 1
  | wait_cnt + 1, k => if test (reads k) 1 ≠ 0 then poll reads wait_cnt (k + 1) else k + 1

/-- What a call does: its stores, how often it reads `icrl`, and what it returns. -/
structure Sent where
  stores : List (Register × BitVec 32)
  reads : Nat
  ret : Nat

/-- The end of both functions. -/
def report (reads : Nat → BitVec 32) (stores : List (Register × BitVec 32)) : Sent :=
  let last := poll reads 1024 0
  ⟨stores,last + 1,if test (reads last) 0 = 0 then 1 else 0⟩

def send_ipi_to_all (vector : BitVec 8) (reads : Nat → BitVec 32) : Sent :=
  report reads [(.esr,0),(.icrl,ICRL1 (vector.setWidth 32) ||| (0xC <<< 16))]

def send_ipi_to (id vector : BitVec 8) (reads : Nat → BitVec 32) : Sent :=
  report reads [(.esr,0),(.icrh,id.setWidth 32 <<< 24),(.icrl,ICRL1 (vector.setWidth 32))]

/-! ### What is promised -/

/-- The delivery status: set while the interrupt has not been delivered. -/
def pending (icrl : BitVec 32) : Bool := icrl.getLsbD 12

/-- The polling ends at read `stop`: the first one that is not pending, or when the
    budget is used up. -/
structure Polls (reads : Nat → BitVec 32) (stop : Nat) : Prop where
  waits : ∀ k < stop, pending (reads k) = true
  ends : stop = 1024 ∨ stop < 1024 ∧ pending (reads stop) = false

/-- The call polls the delivery status, and returns what it is in the read after that. -/
def Reports (reads : Nat → BitVec 32) (sent : Sent) : Prop :=
  ∃ stop, Polls reads stop ∧ sent.reads = stop + 2 ∧ sent.ret = if pending (reads (stop + 1)) then 1 else 0

/-- Only the delivery status matters to that. -/
theorem Reports.ret_congr {reads reads' : Nat → BitVec 32} {sent sent' : Sent}
    (same : ∀ k, pending (reads k) = pending (reads' k))
    (reports : Reports reads sent) (reports' : Reports reads' sent') : sent.ret = sent'.ret := by
  obtain ⟨stop,polls,-,ret⟩ := reports
  obtain ⟨stop',polls',-,ret'⟩ := reports'
  -- If one stopped earlier, the other would have waited where nothing is pending.
  have le : ∀ {reads reads' : Nat → BitVec 32} {stop stop'}, (∀ k, pending (reads k) = pending (reads' k)) →
    Polls reads stop →
      Polls reads' stop' → stop' ≤ stop := by
    intro reads reads' stop stop' same polls polls'
    by_contra later
    have waits := polls'.waits stop (by omega)
    rcases polls.ends with full | ⟨-,done⟩
    · rcases polls'.ends with full' | ⟨lt,-⟩ <;> omega
    · rw [← same,done] at waits
      cases waits
  have stops : stop = stop' := Nat.le_antisymm (le (fun k => (same k).symm) polls' polls) (le same polls polls')
  rw [ret,ret',stops,same]

/-- The first read is not pending, nor is it 1, which the loop takes for pending; the
    second is pending or 0, which alone makes the result 0. -/
structure Right (reads : Nat → BitVec 32) : Prop where
  clear : pending (reads 0) = false
  stops : reads 0 ≠ 1
  last : pending (reads 1) = true ∨ reads 1 = 0

theorem test_eq_zero (icrl value : BitVec 32) : test icrl value = 0 ↔ icrl ≠ value := by
  unfold test
  by_cases same : icrl = value <;> simp [same]

/-- The loop stops at the first read that is not 1, or when its budget is used up. -/
theorem poll_stops (reads : Nat → BitVec 32) (wait_cnt k : Nat) :
    ∃ stop, poll reads wait_cnt k = stop + 1 ∧ k ≤ stop ∧ (∀ j, k ≤ j → j < stop → reads j = 1) ∧
      (stop = k + wait_cnt ∨ stop < k + wait_cnt ∧ reads stop ≠ 1) := by
  induction wait_cnt generalizing k with
  | zero => exact ⟨k,rfl,le_rfl,by omega,.inl rfl⟩
  | succ wait_cnt ih =>
    by_cases one : reads k = 1
    · obtain ⟨stop,result,le,ones,ends⟩ := ih (k + 1)
      have goes : test (reads k) 1 ≠ 0 := fun zero => (test_eq_zero _ _).mp zero one
      refine ⟨stop,by rw [poll,if_pos goes,result],by omega,fun j low high => ?_,?_⟩
      · rcases Nat.eq_or_lt_of_le low with rfl | more
        · exact one
        · exact ones j more high
      · rcases ends with full | ⟨lt,other⟩
        · exact .inl (by omega)
        · exact .inr ⟨by omega,other⟩
    · have stays : ¬ test (reads k) 1 ≠ 0 := not_not.mpr ((test_eq_zero _ _).mpr one)
      exact ⟨k,by rw [poll,if_neg stays],le_rfl,by omega,.inr ⟨by omega,one⟩⟩

theorem report_iff (reads : Nat → BitVec 32) (stores : List (Register × BitVec 32)) :
    Reports reads (report reads stores) ↔ Right reads := by
  obtain ⟨stop,result,-,ones,ends⟩ := poll_stops reads 1024 0
  have count : (report reads stores).reads = stop + 2 := by rw [report,result]
  have ret : (report reads stores).ret = if reads (stop + 1) = 0 then 0 else 1 := by
    simp only [report,result,test_eq_zero]
    split <;> simp_all
  have first : stop = 0 ↔ reads 0 ≠ 1 := by
    constructor
    · rintro rfl
      rcases ends with full | ⟨-,other⟩
      · cases full
      · exact other
    · intro other
      by_contra more
      exact other (ones 0 le_rfl (by omega))
  constructor
  · rintro ⟨stop',polls,reads',ret'⟩
    obtain rfl : stop' = stop := by omega
    -- A read that is 1 is not pending, so the loop must not have gone on from it.
    have now : stop' = 0 := by
      by_contra more
      have waits := polls.waits 0 (by omega)
      rw [ones 0 le_rfl (by omega)] at waits
      cases waits
    subst now
    have clear : pending (reads 0) = false := by
      rcases polls.ends with full | ⟨-,clear⟩
      · cases full
      · exact clear
    refine ⟨clear,first.mp rfl,?_⟩
    rw [ret] at ret'
    by_cases zero : reads (0 + 1) = 0
    · exact .inr zero
    · rw [if_neg zero] at ret'
      cases busy : pending (reads (0 + 1)) with
      | true => exact .inl rfl
      | false => simp [busy] at ret'
  · rintro ⟨clear,stops,last⟩
    obtain rfl := first.mpr stops
    refine ⟨0,⟨by omega,.inr ⟨by omega,clear⟩⟩,count,?_⟩
    rw [ret]
    rcases last with busy | zero
    · have nonzero : reads (0 + 1) ≠ 0 := by
        intro zero
        rw [zero] at busy
        cases busy
      rw [if_neg nonzero,if_pos busy]
    · rw [if_pos zero,zero]
      rfl

/-- Both functions report the delivery exactly for these reads, whatever they send; and
    for such reads the other bits of the register do not matter. -/
theorem send_ipi_iff (id vector : BitVec 8) (reads : Nat → BitVec 32) :
    (Reports reads (send_ipi_to id vector reads) ↔ Right reads) ∧
    (Reports reads (send_ipi_to_all vector reads) ↔ Right reads) ∧
      ∀ reads', (∀ k, pending (reads' k) = pending (reads k)) → Right reads → Right reads' →
        (send_ipi_to id vector reads').ret = (send_ipi_to id vector reads).ret ∧
          (send_ipi_to_all vector reads').ret = (send_ipi_to_all vector reads).ret := by
  refine ⟨report_iff reads _,report_iff reads _,?_⟩
  intro reads' same right right'
  have ret : ∀ stores, (report reads' stores).ret = (report reads stores).ret :=
    fun stores => Reports.ret_congr same ((report_iff reads' stores).mpr right') ((report_iff reads stores).mpr right)
  exact ⟨ret _,ret _⟩

/-- Vector 0x40 has been delivered when the register is first read. -/
theorem delivered_unseen : ¬ ∀ id vector reads, Reports reads (send_ipi_to id vector reads) := by
  intro reports
  have last := ((report_iff _ _).mp (reports 1 0x40 fun _ => 0x40)).last
  exact absurd last (by decide)

end Bootcode.Ipi
