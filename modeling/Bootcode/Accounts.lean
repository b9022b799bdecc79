import Bootcode.Epochs
import Bootcode.Startup

/-!
The statistics of the scheduler on the host's page. `dag_n` counts the searches
for work that have come to an end, in a halt or in a dispatch, and
`dag_tot_proc_inp` the epochs that are over: it is a plain load and store, and
exact because one vCPU at a time resets an epoch.
-/
namespace Bootcode.Accounts
open Bootcode.Bits Bootcode.SchedState Bootcode.Interleave Bootcode.Sched Bootcode.Graph Bootcode.Tasks Bootcode.TaskSteps
open Bootcode.SchedSteps Bootcode.Roles Bootcode.Epochs Bootcode.Startup
set_option linter.unusedSimpArgs false

/-- Where a vCPU stands with the statistics: it has stored its halt but not counted it,
    has counted its work but not gone to it, or is on one of the stages of a reset. -/
inductive Phase
  | rest
  | slept
  | found
  | reset
  | again
  | inp (n : Word)
  | mid
  | stamp
  | start (t : Word)

def phase : Pc → Phase
  | .halt .ldHlt | .halt (.addTs _) | .halt .incN => .slept
  | .work _ .stCurrent | .work _ .ldInfo | .work _ (.stPg _) | .work _ (.tscFn _) | .work _ (.stFn _ _)
  | .work _ (.jump _) => .found
  | .reset .ldStart => .reset
  | .reset .tscTot | .reset (.ldTot _) | .reset (.stTot _) | .reset .ldInp => .again
  | .reset (.stInp n) => .inp n
  | .reset .outw | .reset .exit | .reset .incFree => .mid
  | .reset .tsc => .stamp
  | .reset (.stStart t) => .start t
  | _ => .rest

structure Stats where
  dag_n : Word
  dag_start_tsc : Word
  dag_tot_proc_inp : Word

/-- Events that end no search and no epoch. -/
def Plain : Ev → Prop
  | .halted _ | .dispatch _ _ | .turnover _ => False
  | _ => True

inductive PhaseStep (tsc : Word) : Phase → Stats → Phase → Stats → Option Ev → Prop
  | still {ph st e} (plain : ∀ ev ∈ e, Plain ev) : PhaseStep tsc ph st ph st e
  | halted {st} (id : Nat) : PhaseStep tsc .rest st .slept st (some (.halted id))
  | countHalt {st} : PhaseStep tsc .slept st .rest { st with dag_n := st.dag_n + 1 } none
  | countWork {st} : PhaseStep tsc .rest st .found { st with dag_n := st.dag_n + 1 } none
  | dispatch {st} (id fn : Nat) : PhaseStep tsc .found st .rest st (some (.dispatch id fn))
  | turnover {st} (id : Nat) : PhaseStep tsc .rest st .reset st (some (.turnover id))
  | first {st} (zero : st.dag_start_tsc = 0) : PhaseStep tsc .reset st .mid st none
  | again {st} (set : st.dag_start_tsc ≠ 0) : PhaseStep tsc .reset st .again st none
  | load {st} : PhaseStep tsc .again st (.inp (st.dag_tot_proc_inp + 1)) st none
  | store {st n} : PhaseStep tsc (.inp n) st .mid { st with dag_tot_proc_inp := n } none
  | go {st} : PhaseStep tsc .mid st .stamp st none
  | stamp {st} : PhaseStep tsc .stamp st (.start tsc) st none
  | start {st t} : PhaseStep tsc (.start t) st .rest { st with dag_start_tsc := t } none

def slept : Phase → Nat
  | .slept => 1
  | _ => 0
def found : Phase → Nat
  | .found => 1
  | _ => 0
/-- The searches that a history saw end. -/
def searches (log : List Ev) : Nat := log.countP fun ev => match ev with | .halted _ | .dispatch _ _ => true | _ => false

section
variable {ι : Type} [Fintype ι] [DecidableEq ι] {r : ι → Phase} {v : ι} {ph0 ph1 : Phase} {st st' : Stats}
    {e : Option Ev} {log : List Ev}
  {tsc : Word}

theorem tally_move (w : Phase → Nat) (at_ : r v = ph0) (ph1 : Phase) :
    tally w (Function.update r v ph1) + w ph0 = tally w r + w ph1 := by
  rw [← at_]
  exact tally_update w r v ph1

theorem plain_count {e : Option Ev} (plain : ∀ ev ∈ e, Plain ev) (log : List Ev) :
    searches (e.toList ++ log) = searches log ∧ turnovers (e.toList ++ log) = turnovers log := by
  cases e with
  | none => exact ⟨rfl,rfl⟩
  | some ev =>
    have quiet := plain ev rfl
    cases ev <;> first | exact quiet.elim | exact ⟨rfl,rfl⟩

/-- `dag_n` counts every search that has ended, a halt late and a dispatch early. -/
def Searched (r : ι → Phase) (st : Stats) (log : List Ev) : Prop :=
  ∃ n, st.dag_n = BitVec.ofNat 64 n ∧ n + tally slept r = searches log + tally found r

theorem Searched.step (searched : Searched r st log) (at_ : r v = ph0) (step : PhaseStep tsc ph0 st ph1 st' e) :
    Searched (Function.update r v ph1) st' (e.toList ++ log) := by
  obtain ⟨n,count,total⟩ := searched
  have asleep := tally_move slept at_ ph1
  have busy := tally_move found at_ ph1
  have next : st.dag_n + 1 = BitVec.ofNat 64 (n + 1) := by
    rw [count,BitVec.ofNat_add]
    rfl
  cases step with
  | still plain =>
    refine ⟨n,count,?_⟩
    rw [(plain_count plain log).1]
    omega
  | halted id =>
    refine ⟨n,count,?_⟩
    have one : searches (.halted id :: log) = searches log + 1 := List.countP_cons_of_pos rfl
    show n + _ = searches (.halted id :: log) + _
    simp only [slept,found] at asleep busy
    omega
  | dispatch id fn =>
    refine ⟨n,count,?_⟩
    have one : searches (.dispatch id fn :: log) = searches log + 1 := List.countP_cons_of_pos rfl
    show n + _ = searches (.dispatch id fn :: log) + _
    simp only [slept,found] at asleep busy
    omega
  | countHalt | countWork =>
    refine ⟨n + 1,next,?_⟩
    show n + 1 + _ = searches log + _
    simp only [slept,found] at asleep busy
    omega
  | turnover id =>
    refine ⟨n,count,?_⟩
    show n + _ = searches log + _
    simp only [slept,found] at asleep busy
    omega
  | _ =>
    refine ⟨n,count,?_⟩
    show n + _ = searches log + _
    simp only [slept,found] at asleep busy
    omega

/-! ### Epochs -/

/-- The phases from the CAS to the store of `dag_start_tsc`, and those of them in which
    the epoch that is over has not been counted. -/
def resetting : Phase → Nat
  | .reset | .again | .inp _ | .mid | .stamp | .start _ => 1
  | _ => 0
def tardy : Phase → Nat
  | .reset | .again | .inp _ => 1
  | _ => 0

/-- What a vCPU holds during a reset. -/
def Held (st : Stats) (log : List Ev) : Phase → Prop
  | .reset | .mid | .stamp => 1 ≤ turnovers log
  | .again => 2 ≤ turnovers log
  | .inp n => 2 ≤ turnovers log ∧ n = st.dag_tot_proc_inp + 1
  | .start t => 1 ≤ turnovers log ∧ t ≠ 0
  | _ => True

structure Counted (r : ι → Phase) (st : Stats) (log : List Ev) : Prop where
  started : st.dag_start_tsc = 0 ↔ turnovers log ≤ tally resetting r
  inp : st.dag_tot_proc_inp = BitVec.ofNat 64 (turnovers log - 1 - tally tardy r)
  held : ∀ i, Held st log (r i)

theorem tardy_le_resetting (ph : Phase) : tardy ph ≤ resetting ph := by
  cases ph <;> simp [tardy,resetting]

/-- Only a vCPU that resets holds anything. -/
theorem held_of_rest {st : Stats} {log : List Ev} {ph : Phase} (rests : resetting ph = 0) : Held st log ph := by
  cases ph <;> simp_all [Held,resetting]

omit [DecidableEq ι] in
/-- Events that end no epoch are not counted. -/
theorem Counted.plain {log' : List Ev} (counted : Counted r st log) (same : turnovers log' = turnovers log) :
    Counted r st log' := by
  refine ⟨by rw [same]; exact counted.started,by rw [same]; exact counted.inp,fun i => ?_⟩
  have held := counted.held i
  cases is : r i <;> rw [is] at held <;> simp only [Held,same] at held ⊢ <;> exact held

theorem others_rest (alone : tally resetting r ≤ 1) (busy : resetting (r v) = 1) {i : ι} (other : i ≠ v) :
    resetting (r i) = 0 := by
  have two := add_le_tally resetting r other
  omega

/-- While one vCPU resets, the counts are those of its own phase. -/
theorem tally_alone (alone : tally resetting r ≤ 1) (busy : resetting (r v) = 1) :
    tally resetting r = 1 ∧ tally tardy r = tardy (r v) := by
  have some := le_tally resetting r v
  refine ⟨by omega,tally_eq_self.mpr fun i other => ?_⟩
  have rests := others_rest alone busy other
  have le := tardy_le_resetting (r i)
  omega

/-- The first step of a reset is taken while nobody resets. -/
theorem Counted.turnover (counted : Counted r st log) (none : tally resetting r = 0)
    (alone : tally resetting (Function.update r v .reset) ≤ 1)
    (id : Nat) : Counted (Function.update r v .reset) st (.turnover id :: log) := by
  have rests : ∀ i, resetting (r i) = 0 := tally_eq_zero.mp none
  have early : tally tardy r = 0 :=
    tally_eq_zero.mpr fun i => Nat.eq_zero_of_le_zero ((tardy_le_resetting (r i)).trans (rests i).le)
  have more : turnovers (.turnover id :: log) = turnovers log + 1 := List.countP_cons_of_pos rfl
  have mine : resetting (Function.update r v .reset v) = 1 := by rw [Function.update_self]; rfl
  obtain ⟨one,own⟩ := tally_alone alone mine
  rw [Function.update_self] at own
  have started := counted.started
  have inp := counted.inp
  rw [none] at started
  rw [early] at inp
  refine ⟨?_,?_,fun i => ?_⟩
  · rw [more,one,started]
    omega
  · rw [more,own,inp]
    rfl
  · by_cases same : i = v
    · rw [same,Function.update_self]
      show 1 ≤ turnovers (.turnover id :: log)
      omega
    · rw [Function.update_of_ne same]
      exact held_of_rest (rests i)

/-- A step of the vCPU that resets concerns nobody else. -/
theorem Counted.resets (alone : tally resetting r ≤ 1) (busy : resetting (r v) = 1)
    (started : st'.dag_start_tsc = 0 ↔ turnovers log ≤ resetting ph1)
    (inp : st'.dag_tot_proc_inp = BitVec.ofNat 64 (turnovers log - 1 - tardy ph1)) (mine : Held st' log ph1) :
    Counted (Function.update r v ph1) st' log := by
  have resets := tally_update resetting r v ph1
  have tardies := tally_update tardy r v ph1
  obtain ⟨one,own⟩ := tally_alone alone busy
  refine ⟨?_,?_,fun i => ?_⟩
  · rw [started]
    omega
  · rw [inp]
    congr 1
    omega
  · by_cases same : i = v
    · rw [same,Function.update_self]
      exact mine
    · rw [Function.update_of_ne same]
      exact held_of_rest (others_rest alone busy same)

/-- A step outside a reset may count a search, and nothing else. -/
theorem Counted.outside (counted : Counted r st log) (rests : resetting (r v) = 0) (rests' : resetting ph1 = 0)
    (dag_n : Word) :
    Counted (Function.update r v ph1) { st with dag_n := dag_n } log := by
  have resets := tally_update resetting r v ph1
  have tardies := tally_update tardy r v ph1
  have le0 := tardy_le_resetting (r v)
  have le1 := tardy_le_resetting ph1
  refine ⟨?_,?_,fun i => ?_⟩
  · rw [show tally resetting (Function.update r v ph1) = tally resetting r by omega]
    exact counted.started
  · rw [show tally tardy (Function.update r v ph1) = tally tardy r by omega]
    exact counted.inp
  · by_cases same : i = v
    · rw [same,Function.update_self]
      exact held_of_rest rests'
    · rw [Function.update_of_ne same]
      have kept := counted.held i
      cases is : r i <;> rw [is] at kept <;> exact kept

theorem Counted.step (counted : Counted r st log) (alone : tally resetting r ≤ 1)
    (alone' : tally resetting (Function.update r v ph1) ≤ 1) (at_ : r v = ph0) (ticks : ph0 = .stamp → tsc ≠ 0)
    (step : PhaseStep tsc ph0 st ph1 st' e) : Counted (Function.update r v ph1) st' (e.toList ++ log) := by
  have held := counted.held v
  have started := counted.started
  have inp := counted.inp
  have resets := tally_move resetting at_ ph1
  rw [at_] at held
  have mine : resetting ph0 = 1 → tally resetting r = 1 ∧ tally tardy r = tardy ph0 := fun busy => by
    rw [← at_] at busy ⊢
    exact tally_alone alone busy
  have go : resetting ph0 = 1 → resetting (r v) = 1 := fun busy => at_ ▸ busy
  have out : resetting ph0 = 0 → resetting (r v) = 0 := fun rests => at_ ▸ rests
  cases step with
  | still plain =>
    rw [Function.update_eq_self_iff.mpr at_.symm]
    exact counted.plain (plain_count plain log).2
  | halted id => exact (counted.outside (out rfl) rfl st.dag_n).plain rfl
  | countHalt => exact counted.outside (out rfl) rfl _
  | countWork => exact counted.outside (out rfl) rfl _
  | dispatch id fn => exact (counted.outside (out rfl) rfl st.dag_n).plain rfl
  | turnover id =>
    simp only [resetting] at resets
    exact counted.turnover (by omega) alone' id
  | first zero =>
    obtain ⟨one,own⟩ := mine rfl
    rw [one] at started
    rw [own] at inp
    have few := started.mp zero
    refine .resets alone (go rfl) started ?_ held
    show _ = BitVec.ofNat 64 (turnovers log - 1 - 0)
    rw [inp]
    show BitVec.ofNat 64 (turnovers log - 1 - 1) = _
    congr 1
    omega
  | again set =>
    obtain ⟨one,own⟩ := mine rfl
    rw [one] at started
    rw [own] at inp
    have many : ¬ turnovers log ≤ 1 := fun few => set (started.mpr few)
    exact .resets alone (go rfl) started inp (by show 2 ≤ turnovers log; omega)
  | load =>
    obtain ⟨one,own⟩ := mine rfl
    rw [one] at started
    rw [own] at inp
    exact .resets alone (go rfl) started inp ⟨held,rfl⟩
  | store =>
    obtain ⟨one,own⟩ := mine rfl
    obtain ⟨many,value⟩ := held
    rw [one] at started
    rw [own] at inp
    refine .resets alone (go rfl) started ?_ (by show 1 ≤ turnovers log; omega)
    show _ = BitVec.ofNat 64 (turnovers log - 1 - 0)
    rw [value,inp,show turnovers log - 1 - 0 = turnovers log - 1 - 1 + 1 by omega,BitVec.ofNat_add]
    rfl
  | go =>
    obtain ⟨one,own⟩ := mine rfl
    rw [one] at started
    rw [own] at inp
    exact .resets alone (go rfl) started inp held
  | stamp =>
    obtain ⟨one,own⟩ := mine rfl
    rw [one] at started
    rw [own] at inp
    exact .resets alone (go rfl) started inp ⟨held,ticks rfl⟩
  | start =>
    obtain ⟨one,own⟩ := mine rfl
    obtain ⟨some,nonzero⟩ := held
    rw [own] at inp
    refine .resets alone (go rfl) ?_ inp trivial
    show _ = 0 ↔ turnovers log ≤ 0
    constructor
    · intro zero
      exact absurd zero nonzero
    · intro none
      omega

end

section
variable {p : Nat} {host : Metadata → Prop}

end

end Bootcode.Accounts
