import Bootcode.Tasks

/-!
`TaskInv` is kept by every `TaskStep` of one vCPU.
-/
namespace Bootcode.TaskSteps
open Bootcode.Bits Bootcode.SchedState Bootcode.Interleave Bootcode.Sched Bootcode.Graph Bootcode.Tasks
set_option linter.unusedSimpArgs false

@[simp] theorem inEpoch_turnover (p : Ev → Bool) (id : Nat) (log : List Ev) : inEpoch p (.turnover id :: log) = 0 := rfl
@[simp] theorem inEpoch_dispatch (p : Ev → Bool) (id fn : Nat) (log : List Ev) :
    inEpoch p (.dispatch id fn :: log) = inEpoch p log + (p (.dispatch id fn)).toNat := rfl
@[simp] theorem inEpoch_finish (p : Ev → Bool) (id fn : Nat) (log : List Ev) :
    inEpoch p (.finish id fn :: log) = inEpoch p log + (p (.finish id fn)).toNat := rfl
@[simp] theorem inEpoch_counted (p : Ev → Bool) (id fn : Nat) (log : List Ev) :
    inEpoch p (.counted id fn :: log) = inEpoch p log + (p (.counted id fn)).toNat := rfl

theorem inEpoch_silent {p : Ev → Bool} (deaf : ∀ e, Silent e → p e = false) {e : Option Ev} (silent : ∀ ev ∈ e, Silent ev)
    (log : List Ev) : inEpoch p (e.toList ++ log) = inEpoch p log := by
  cases e with
  | none => rfl
  | some ev =>
    have quiet := silent ev rfl
    have none := deaf ev quiet
    cases ev <;> simp_all [inEpoch,Silent]

theorem begun_silent {e : Option Ev} (silent : ∀ ev ∈ e, Silent ev) (log : List Ev) :
    begun (e.toList ++ log) = begun log := by
  cases e with
  | none => rfl
  | some ev =>
    have quiet := silent ev rfl
    cases ev <;> simp_all [begun,Silent]

theorem ordered_silent {d : Metadata} {e : Option Ev} (silent : ∀ ev ∈ e, Silent ev) {log : List Ev}
    (ordered : Ordered d log) :
    Ordered d (e.toList ++ log) := by
  cases e with
  | none => exact ordered
  | some ev =>
    have quiet := silent ev rfl
    cases ev <;> simp_all [Ordered,Silent]

theorem dispatch_deaf (fn : Nat) (e : Ev) (silent : Silent e) : isDispatch fn e = false := by
  cases e <;> simp_all [Silent,isDispatch]
theorem finish_deaf (fn : Nat) (e : Ev) (silent : Silent e) : isFinish fn e = false := by
  cases e <;> simp_all [Silent,isFinish]
theorem counted_deaf (fn : Nat) (e : Ev) (silent : Silent e) : isCounted fn e = false := by
  cases e <;> simp_all [Silent,isCounted]

section
variable {ι : Type} [Fintype ι] [DecidableEq ι] {host : Metadata → Prop} {t t' : Tasks} {r : ι → Role} {v : ι}
  {r0 r1 : Role} {e : Option Ev} {log : List Ev}

theorem tally_to (role : r v = r0) (w : Role → Nat) (r1 : Role) :
    tally w (Function.update r v r1) + w r0 = tally w r + w r1 := by
  rw [← role]
  exact tally_update w r v r1

/-- The function that a step starts to add to the bitmap, as a count for `fn`. -/
def fresh (fn : Nat) : Role → Role → Nat
  | .seed,.seedInc f => if f = fn then 1 else 0
  | .relax _ _,.addInc _ _ f => if f = fn then 1 else 0
  | _,_ => 0

/-- A step other than a turnover moves a function from one place to the next; only
    a fresh one is somewhere it was not. -/
theorem load_step (inv : TaskInv t r log) (role : r v = r0) (step : TaskStep host t r0 t' r1 e)
    (same : ∀ id, e ≠ some (.turnover id)) (fn : Nat) :
    load t' (Function.update r v r1) (e.toList ++ log) fn = load t r log fn + fresh fn r0 r1 := by
  have owns := tally_to role (Role.owns fn) r1
  have adds := tally_to role (Role.adds fn) r1
  have one := inv.load_le fn
  unfold load at one ⊢
  cases step with
  | stay silent =>
    rw [inEpoch_silent (counted_deaf fn) silent]
    cases r0 <;> simp_all [fresh]
  | turnover id all => exact absurd rfl (same id)
  | seedBts | addBts =>
    rename_i added
    rw [runnable_add]
    by_cases is : added = fn
    · have old := le_tally (Role.adds fn) r v
      rw [role] at old
      simp only [Role.adds,Role.owns,is,if_true] at owns adds old
      have clear : runnable t fn = false := by
        cases bit : runnable t fn with
        | false => rfl
        | true => rw [bit] at one; simp at one; omega
      simp [fresh,clear,is]
      omega
    · simp [Role.adds,Role.owns,is,Ne.symm is] at owns adds
      simp [fresh,Ne.symm is]
      omega
  | claim set =>
    rename_i claimed
    rw [runnable_claim]
    by_cases is : claimed = fn
    · subst is
      simp [Role.adds,Role.owns] at owns adds
      simp [fresh,set]
      omega
    · simp [Role.adds,Role.owns,is] at owns adds
      simp [fresh,Ne.symm is]
      omega
  | count id lt =>
    rename_i counted
    by_cases is : counted = fn <;> simp [Role.adds,Role.owns,is] at owns adds
      <;> simp [fresh,isCounted,is,runnable] <;> omega
  | _ =>
    simp only [Role.owns,Role.adds] at owns adds
    simp [fresh,isCounted,runnable] at owns adds ⊢
    omega

/-- The edges from `g` to `fn` that a step counts down. -/
def lowered (d : Metadata) (g fn : Nat) : Role → Role → Nat
  | .relax f i,.relax _ j => if f = g ∧ i < j ∧ d.dag i = fn then 1 else 0
  | .relax f i,.addInc _ _ _ => if f = g ∧ d.dag i = fn then 1 else 0
  | _,_ => 0

theorem relaxed_step (log : List Ev) (step : TaskStep host t r0 t' r1 e) (same : ∀ id, e ≠ some (.turnover id))
    (g fn : Nat) :
    Role.relaxed t.metadata g fn r1 + inEpoch (isCounted g) (e.toList ++ log) * mult t.metadata g fn =
      Role.relaxed t.metadata g fn r0 + inEpoch (isCounted g) log * mult t.metadata g fn +
      lowered t.metadata g fn r0 r1 := by
  cases step with
  | stay silent =>
    rw [inEpoch_silent (counted_deaf g) silent]
    cases r0 <;> simp [lowered]
  | turnover id all => exact absurd rfl (same id)
  | enter lt =>
    rename_i f
    by_cases is : f = g
    · subst is; simp [Role.relaxed,lowered]
    · simp [Role.relaxed,lowered,is]
  | relax lt low high more | release lt low high zero =>
    rename_i f i
    by_cases is : f = g
    · subst is
      simp [Role.relaxed,lowered,sent_succ low high]
      omega
    · simp [Role.relaxed,lowered,is]
  | addBts =>
    simp [Role.relaxed,lowered]
  | done all =>
    rename_i f i
    by_cases is : f = g
    · subst is; simp [Role.relaxed,lowered,sent_last all]
    · simp [Role.relaxed,lowered,is]
  | count id lt =>
    rename_i f
    by_cases is : f = g
    · subst is
      simp [Role.relaxed,lowered,isCounted,Nat.add_mul]
      omega
    · simp [Role.relaxed,lowered,isCounted,is]
  | _ => simp [Role.relaxed,lowered,isCounted]

/-- A step that keeps the metadata counts down what it lowers. -/
theorem downs_step (role : r v = r0) (step : TaskStep host t r0 t' r1 e) (same : ∀ id, e ≠ some (.turnover id))
    (kept : t'.metadata = t.metadata) (g fn : Nat) :
    downs t' (Function.update r v r1) (e.toList ++ log) g fn = downs t r log g fn + lowered t.metadata g fn r0 r1 := by
  have moved := relaxed_step log step same g fn
  have total := tally_to role (Role.relaxed t.metadata g fn) r1
  unfold downs
  rw [kept]
  omega

/-- The index of an edge that is still to be counted down bounds what has been. -/
theorem downs_lt (inv : TaskInv t r log) {fn i : Nat} (role : r v = .relax fn i) (low : first t.metadata fn ≤ i)
    (high : i < last t.metadata fn) : downs t r log fn (t.metadata.dag i) < mult t.metadata fn (t.metadata.dag i) := by
  have one := inv.load_le fn
  have own := tally_to role (Role.owns fn) .idle
  have part := tally_to role (Role.relaxed t.metadata fn (t.metadata.dag i)) .idle
  have rest := tally_le_mul (Role.relaxed_le t.metadata fn (t.metadata.dag i)) (Function.update r v .idle)
  simp only [Role.owns,Role.relaxed,if_true] at own part
  have none : tally (Role.owns fn) (Function.update r v .idle) = 0 := by unfold load at one; omega
  have uncounted : inEpoch (isCounted fn) log = 0 := by unfold load at one; omega
  have next := sent_succ (f := t.metadata.dag i) low high
  have bound := sent_le (d := t.metadata) fn (t.metadata.dag i) (i + 1)
  rw [none,Nat.zero_mul] at rest
  rw [if_pos rfl] at next
  unfold downs
  rw [uncounted,Nat.zero_mul]
  omega

/-- The target of an edge that is still to be counted down has a positive count. -/
theorem count_pos (inv : TaskInv t r log) {fn i : Nat} (role : r v = .relax fn i) (low : first t.metadata fn ≤ i)
    (high : i < last t.metadata fn) : t.dag_in_count (t.metadata.dag i) ≠ 0 := by
  intro zero
  obtain ⟨started,none,lt,-,-⟩ := inv.of_owns (show (r v).owns fn = 1 by simp [role,Role.owns])
  have all := inv.downs_eq started none (inv.valid.target lt low high) zero lt
  have some := downs_lt inv role low high
  omega

theorem begun_step {e : Option Ev} (same : ∀ id, e ≠ some (.turnover id)) (log : List Ev) :
    begun (e.toList ++ log) = begun log := by
  cases e with
  | none => rfl
  | some ev => cases ev <;> simp_all [begun]

omit [DecidableEq ι] in
/-- A vCPU that prepares an epoch does so alone, and no task is anywhere. -/
theorem of_prepares (inv : TaskInv t r log) (busy : (r v).prepares = 1) :
    begun log = true ∧ tally Role.prepares r = 1 ∧ ∀ fn, load t r log fn = 0 := by
  have one := le_tally Role.prepares r v
  have most := inv.preparing
  have pos : 0 < tally Role.prepares r := by omega
  refine ⟨?_,by omega,inv.quiet (.inr pos)⟩
  cases started : begun log with
  | true => rfl
  | false => have none := (inv.unbegun started).1; omega

theorem preparing_step (inv : TaskInv t r log) (role : r v = r0) (step : TaskStep host t r0 t' r1 e) :
    tally Role.prepares (Function.update r v r1) ≤ 1 := by
  have total := tally_to role Role.prepares r1
  have old := inv.preparing
  cases step with
  | turnover id all =>
    have none := (inv.all_counted all).1
    simp only [Role.prepares] at total
    omega
  | _ =>
    simp only [Role.prepares] at total
    omega

omit [Fintype ι] [DecidableEq ι] in
theorem metadata_step (step : TaskStep host t r0 t' r1 e) :
    t'.metadata = t.metadata ∨ r0 = .prep ∧ r1 = .prep ∧ host t'.metadata := by
  cases step with
  | install supplied => exact .inr ⟨rfl,rfl,supplied⟩
  | _ => exact .inl rfl

omit [DecidableEq ι] in
theorem valid_step (supply : ∀ d, host d → Valid d) (inv : TaskInv t r log) (step : TaskStep host t r0 t' r1 e) :
    Valid t'.metadata := by
  rcases metadata_step step with kept | ⟨-,-,supplied⟩
  · rw [kept]
    exact inv.valid
  · exact supply _ supplied

theorem unbegun_step (inv : TaskInv t r log) (role : r v = r0) (step : TaskStep host t r0 t' r1 e)
    (unstarted : begun (e.toList ++ log) = false) :
    tally Role.prepares (Function.update r v r1) = 0 ∧ t'.num_fin_fn = BitVec.ofNat 64 t'.metadata.num_nodes := by
  have total := tally_to role Role.prepares r1
  cases step with
  | turnover id all => simp [begun] at unstarted
  | stay silent =>
    rw [begun_silent silent] at unstarted
    obtain ⟨none,fin⟩ := inv.unbegun unstarted
    exact ⟨by omega,fin⟩
  | install | recover | copy | copied | copiedAll | seed =>
    have started := (of_prepares (v := v) inv (by simp [role,Role.prepares])).1
    rw [begun_step (by simp),started] at unstarted
    cases unstarted
  | count id lt =>
    rename_i fn
    have started := (inv.of_owns (show (r v).owns fn = 1 by simp [role,Role.owns])).1
    rw [begun_step (by simp),started] at unstarted
    cases unstarted
  | dispatch | finish =>
    rw [begun_step (by simp)] at unstarted
    obtain ⟨none,fin⟩ := inv.unbegun unstarted
    simp only [Role.prepares] at total
    exact ⟨by omega,fin⟩
  | _ =>
    obtain ⟨none,fin⟩ := inv.unbegun unstarted
    simp only [Role.prepares] at total
    exact ⟨by omega,fin⟩

/-- After a turnover no task is anywhere. -/
theorem load_turnover (inv : TaskInv t r log) (role : r v = .idle)
    (all : t.num_fin_fn = BitVec.ofNat 64 t.metadata.num_nodes) (id fn : Nat) :
    load { t with num_fin_fn := 0 } (Function.update r v .prep) (.turnover id :: log) fn = 0 := by
  obtain ⟨owned,added,clear⟩ := (inv.all_counted all).2.2 fn
  have owns := tally_to role (Role.owns fn) .prep
  have adds := tally_to role (Role.adds fn) .prep
  have bit : runnable { t with num_fin_fn := 0 } fn = false := clear
  simp only [Role.owns,Role.adds] at owns adds
  unfold load
  rw [bit,inEpoch_turnover]
  simp
  omega

theorem quiet_step (inv : TaskInv t r log) (role : r v = r0) (step : TaskStep host t r0 t' r1 e)
    (still : begun (e.toList ++ log) = false ∨ 0 < tally Role.prepares (Function.update r v r1)) (fn : Nat) :
    load t' (Function.update r v r1) (e.toList ++ log) fn = 0 := by
  by_cases turned : ∃ id, e = some (.turnover id)
  · obtain ⟨id,is⟩ := turned
    cases step with
    | turnover id all => exact load_turnover inv role all id fn
    | stay silent => subst is; exact absurd (silent _ rfl) (by simp [Silent])
    | _ => cases is
  have same : ∀ id, e ≠ some (.turnover id) := not_exists.mp turned
  have total := tally_to role Role.prepares r1
  rw [begun_step same] at still
  have old : begun log = false ∨ 0 < tally Role.prepares r := by
    rcases still with unstarted | pos
    · exact .inl unstarted
    · right
      cases step with
      | turnover id all => exact absurd rfl (same id)
      | _ => simp only [Role.prepares] at total; omega
  rw [load_step inv role step same fn,inv.quiet old fn,Nat.zero_add]
  cases step with
  | seed =>
    have one := (of_prepares (v := v) inv (by simp [role,Role.prepares]))
    simp only [Role.prepares] at total
    rcases still with unstarted | pos
    · rw [one.1] at unstarted; cases unstarted
    · omega
  | release lt low high zero =>
    rename_i f i
    have own := inv.of_owns (show (r v).owns f = 1 by simp [role,Role.owns])
    rcases old with unstarted | pos
    · rw [own.1] at unstarted; cases unstarted
    · omega
  | stay silent => cases r0 <;> rfl
  | _ => rfl

theorem active_step (inv : TaskInv t r log) (role : r v = r0) (step : TaskStep host t r0 t' r1 e)
    (started : begun (e.toList ++ log) = true) (none : tally Role.prepares (Function.update r v r1) = 0) (fn : Nat) :
    load t' (Function.update r v r1) (e.toList ++ log) fn =
      if fn < t'.metadata.num_nodes ∧ t'.dag_in_count fn = 0 then 1 else 0 := by
  have total := tally_to role Role.prepares r1
  by_cases turned : ∃ id, e = some (.turnover id)
  · obtain ⟨id,is⟩ := turned
    cases step with
    | turnover id all => simp only [Role.prepares] at total; omega
    | stay silent => subst is; exact absurd (silent _ rfl) (by simp [Silent])
    | _ => cases is
  have same : ∀ id, e ≠ some (.turnover id) := not_exists.mp turned
  rw [begun_step same] at started
  rw [load_step inv role step same fn]
  cases step with
  | turnover id all => exact absurd rfl (same id)
  | install | recover | copy | copied | copiedAll =>
    have alone := (of_prepares (v := v) inv (by simp [role,Role.prepares])).2.1
    simp only [Role.prepares] at total
    omega
  | seed =>
    obtain ⟨-,-,nowhere⟩ := of_prepares (v := v) inv (by simp [role,Role.prepares])
    rw [nowhere fn,Nat.zero_add]
    by_cases node : fn < t.metadata.num_nodes
    · have count := inv.copiedAll v role fn node
      have small := inv.valid.dag_lt node
      have zero : t.dag_in_count fn = 0 ↔ t.metadata.start_func = fn := by
        rw [count,eq_comm (a := t.metadata.start_func),← inv.valid.source fn node]
        constructor
        · intro is
          have bits := congrArg BitVec.toNat is
          simpa [Nat.mod_eq_of_lt small] using bits
        · intro is
          rw [is]
          rfl
      simp only [fresh,node,zero,true_and]
    · have lt := inv.valid.start_lt
      have other : t.metadata.start_func ≠ fn := by omega
      simp [fresh,node,other]
  | relax lt low high more =>
    rename_i f i
    have own := inv.of_owns (show (r v).owns f = 1 by simp [role,Role.owns])
    rw [inv.active own.1 own.2.1 fn]
    have old := count_pos inv role low high
    by_cases is : fn = t.metadata.dag i
    · subst is
      simp only [fresh,Function.update_self,old,more,and_false,if_false]
    · simp [fresh,Function.update_of_ne is]
  | release lt low high zero =>
    rename_i f i
    have own := inv.of_owns (show (r v).owns f = 1 by simp [role,Role.owns])
    rw [inv.active own.1 own.2.1 fn]
    have old := count_pos inv role low high
    by_cases is : fn = t.metadata.dag i
    · subst is
      simp only [fresh,Function.update_self,old,zero,inv.valid.target lt low high,and_false,and_true,if_false,if_true]
    · simp [fresh,Function.update_of_ne is,Ne.symm is]
  | stay silent =>
    rw [inv.active started (by omega) fn]
    cases r0 <;> rfl
  | _ =>
    simp only [Role.prepares] at total
    rw [inv.active started (by omega) fn]
    rfl

theorem counts_step (inv : TaskInv t r log) (role : r v = r0) (step : TaskStep host t r0 t' r1 e)
    (started : begun (e.toList ++ log) = true) (none : tally Role.prepares (Function.update r v r1) = 0) :
    ∀ fn < t'.metadata.num_nodes,
      (t'.dag_in_count fn).toNat +
        ∑ g ∈ Finset.range t'.metadata.num_nodes, downs t' (Function.update r v r1) (e.toList ++ log) g fn =
      t'.metadata.dag fn := by
  intro fn lt
  have total := tally_to role Role.prepares r1
  by_cases turned : ∃ id, e = some (.turnover id)
  · obtain ⟨id,is⟩ := turned
    cases step with
    | turnover id all => simp only [Role.prepares] at total; omega
    | stay silent => subst is; exact absurd (silent _ rfl) (by simp [Silent])
    | _ => cases is
  have same : ∀ id, e ≠ some (.turnover id) := not_exists.mp turned
  rw [begun_step same] at started
  have moved : t'.metadata = t.metadata → ∀ g, downs t' (Function.update r v r1) (e.toList ++ log) g fn =
      downs t r log g fn + lowered t.metadata g fn r0 r1 := fun kept g => downs_step role step same kept g fn
  cases step with
  | turnover id all => exact absurd rfl (same id)
  | install | recover | copy | copied | copiedAll =>
    have alone := (of_prepares (v := v) inv (by simp [role,Role.prepares])).2.1
    simp only [Role.prepares] at total
    omega
  | seed =>
    obtain ⟨-,-,nowhere⟩ := of_prepares (v := v) inv (by simp [role,Role.prepares])
    have zero : ∀ g, downs t r log g fn = 0 := by
      intro g
      have bound := tally_le_mul (Role.relaxed_le t.metadata g fn) r
      have none := nowhere g
      unfold load at none
      rw [show tally (Role.owns g) r = 0 by omega] at bound
      rw [downs,show inEpoch (isCounted g) log = 0 by omega]
      omega
    have small := inv.valid.dag_lt lt
    rw [inv.copiedAll v role fn lt]
    simp only [moved rfl,zero,lowered]
    simp [Nat.mod_eq_of_lt small]
  | relax node low high _ | release node low high _ =>
    rename_i f i _
    have own := inv.of_owns (show (r v).owns f = 1 by simp [role,Role.owns])
    have before := inv.counts own.1 own.2.1 fn lt
    have pos := count_pos inv role low high
    simp only [moved rfl,lowered,Finset.sum_add_distrib]
    by_cases is : fn = t.metadata.dag i
    · subst is
      have less : (t.dag_in_count (t.metadata.dag i) - 1).toNat + 1 = (t.dag_in_count (t.metadata.dag i)).toNat := by
        bv_omega
      simp [node]
      omega
    · simpa [Function.update_of_ne is,Ne.symm is] using before
  | stay silent =>
    have before := inv.counts started (by omega) fn lt
    simp only [moved rfl]
    cases r0 <;> simpa [lowered] using before
  | _ =>
    simp only [Role.prepares] at total
    have before := inv.counts started (by omega) fn lt
    simp only [moved rfl,lowered]
    exact before

/-- Only the vCPU that prepares an epoch changes the counts while it does. -/
theorem count_kept (inv : TaskInv t r log) (role : r v = r0) (step : TaskStep host t r0 t' r1 e) {u : ι} (other : u ≠ v)
    (busy : (r u).prepares = 1) : t'.dag_in_count = t.dag_in_count ∧ t'.metadata = t.metadata := by
  have alone := (of_prepares (v := u) inv busy).2.1
  have pair := add_le_tally Role.prepares r other
  rw [role,busy,alone] at pair
  cases step with
  | copied | install =>
    simp only [Role.prepares] at pair
    omega
  | relax lt low high more | release lt low high zero =>
    rename_i fn i
    have none := (inv.of_owns (show (r v).owns fn = 1 by simp [role,Role.owns])).2.1
    omega
  | _ => exact ⟨rfl,rfl⟩

theorem copied_step (inv : TaskInv t r log) (role : r v = r0) (step : TaskStep host t r0 t' r1 e) :
    ∀ u i, Function.update r v r1 u = .copy i → ∀ f < i, t'.dag_in_count f = BitVec.ofNat 8 (t'.metadata.dag f) := by
  intro u i copying f lt
  by_cases same : u = v
  · subst same
    rw [Function.update_self] at copying
    subst copying
    cases step with
    | stay silent => exact inv.copied u i role f lt
    | copy => omega
    | copied below =>
      rename_i k
      by_cases is : f = k
      · simp [is]
      · simp only [Function.update_of_ne is]
        exact inv.copied u k role f (by omega)
  · rw [Function.update_of_ne same] at copying
    obtain ⟨counts,kept⟩ := count_kept inv role step same (by simp [copying,Role.prepares])
    rw [counts,kept]
    exact inv.copied u i copying f lt

theorem copiedAll_step (inv : TaskInv t r log) (role : r v = r0) (step : TaskStep host t r0 t' r1 e) :
    ∀ u, Function.update r v r1 u = .seed → ∀ f < t'.metadata.num_nodes,
    t'.dag_in_count f = BitVec.ofNat 8 (t'.metadata.dag f) := by
  intro u copied f lt
  by_cases same : u = v
  · subst same
    rw [Function.update_self] at copied
    subst copied
    cases step with
    | stay silent => exact inv.copiedAll u role f lt
    | copiedAll all => exact inv.copied u _ role f (by omega)
  · rw [Function.update_of_ne same] at copied
    obtain ⟨counts,kept⟩ := count_kept inv role step same (by simp [copied,Role.prepares])
    rw [kept] at lt
    rw [counts,kept]
    exact inv.copiedAll u copied f lt

omit [DecidableEq ι] in
theorem num_fin_fn_step (inv : TaskInv t r log) (role : r v = r0) (step : TaskStep host t r0 t' r1 e)
    (started : begun (e.toList ++ log) = true) :
    t'.num_fin_fn =
      BitVec.ofNat 64 (∑ g ∈ Finset.range t'.metadata.num_nodes, inEpoch (isCounted g) (e.toList ++ log)) := by
  cases step with
  | turnover id all => simp
  | stay silent =>
    rw [begun_silent silent] at started
    simp only [inEpoch_silent (counted_deaf _) silent]
    exact inv.num_fin_fn started
  | install supplied =>
    obtain ⟨began,-,nowhere⟩ := of_prepares (v := v) inv (by simp [role,Role.prepares])
    have none : ∀ g, inEpoch (isCounted g) log = 0 := by
      intro g
      have zero := nowhere g
      unfold load at zero
      omega
    have before := inv.num_fin_fn began
    simp only [none,Finset.sum_const_zero] at before
    simp [none,before]
  | count id lt =>
    rename_i fn
    rw [begun_step (by simp)] at started
    simp [inv.num_fin_fn started,Finset.sum_add_distrib,isCounted,Bool.toNat,Bool.cond_decide,lt,BitVec.ofNat_add]
  | dispatch id | finish id =>
    rw [begun_step (by simp)] at started
    simpa [isCounted] using inv.num_fin_fn started
  | _ => exact inv.num_fin_fn started

omit [DecidableEq ι] in
theorem gone_of_load (nowhere : ∀ fn, load t r log fn = 0) (fn : Nat) :
    tally (Role.owns fn) r = 0 ∧ tally (Role.adds fn) r = 0 ∧ runnable t fn = false := by
  have zero := nowhere fn
  unfold load at zero
  refine ⟨by omega,by omega,?_⟩
  cases bit : runnable t fn with
  | false => rfl
  | true => rw [bit] at zero; simp at zero

theorem bm_run_fn_zero (clear : ∀ fn, runnable t fn = false) (idx : Nat) : t.bm_run_fn idx = 0 := by
  refine eq_zero_of_bits fun bit => ?_
  by_cases lt : bit < 64
  · have off := clear (64 * idx + bit)
    have word : (64 * idx + bit) / 64 = idx := by omega
    have place : (64 * idx + bit) % 64 = bit := by omega
    rwa [runnable,word,place] at off
  · exact BitVec.getLsbD_of_ge _ bit (by omega)

omit [DecidableEq ι] in
/-- Where nothing is added, runnable or owned, nothing is counted in `runnable_tasks`. -/
theorem counted_nothing
    (gone : ∀ fn, tally (Role.owns fn) r = 0 ∧ tally (Role.adds fn) r = 0 ∧ runnable t fn = false) :
    runnableCount t = 0 ∧ tally Role.ahead r = 0 ∧ tally Role.behind r = 0 := by
  refine ⟨?_,tally_eq_zero.mpr fun i => ?_,tally_eq_zero.mpr fun i => ?_⟩
  · refine Finset.sum_eq_zero fun idx _ => ?_
    rw [bm_run_fn_zero fun fn => (gone fn).2.2]
    exact popcnt_zero
  · cases is : r i with
    | seedBts fn => have one := tally_eq_zero.mp (gone fn).2.1 i; simp [is,Role.adds] at one
    | addBts g j fn => have one := tally_eq_zero.mp (gone fn).2.1 i; simp [is,Role.adds] at one
    | _ => rfl
  · cases is : r i with
    | won fn => have one := tally_eq_zero.mp (gone fn).1 i; simp [is,Role.owns] at one
    | _ => rfl

theorem runnable_tasks_step (inv : TaskInv t r log) (role : r v = r0) (step : TaskStep host t r0 t' r1 e) :
    t'.runnable_tasks = BitVec.ofNat 64 (runnableCount t' + tally Role.ahead (Function.update r v r1) +
      tally Role.behind (Function.update r v r1)) := by
  have before := inv.runnable_tasks
  have ahead := tally_to role Role.ahead r1
  have behind := tally_to role Role.behind r1
  have clear : ∀ fn, (r v).adds fn = 1 → fn < MAX_FUNC ∧ runnable t fn = false := by
    intro fn adds
    obtain ⟨-,-,lt,-,one⟩ := inv.of_adds adds
    have few := inv.valid.num_nodes_lt
    have part := le_tally (Role.adds fn) r v
    refine ⟨by unfold MAX_FUNC; omega,?_⟩
    cases bit : runnable t fn with
    | false => rfl
    | true => rw [load,bit] at one; simp at one; omega
  cases step with
  | recover =>
    obtain ⟨-,-,nowhere⟩ := of_prepares (v := v) inv (by simp [role,Role.prepares])
    obtain ⟨empty,noneAhead,noneBehind⟩ := counted_nothing (gone_of_load nowhere)
    have same : runnableCount { t with runnable_tasks := 0 } = runnableCount t := rfl
    rw [same,show runnableCount t + _ + _ = 0 by omega]
    rfl
  | seedInc | addInc =>
    have same : runnableCount { t with runnable_tasks := t.runnable_tasks + 1 } = runnableCount t := rfl
    simp only [Role.ahead,Role.behind] at ahead behind
    rw [same,show runnableCount t + _ + _ = runnableCount t + tally Role.ahead r + tally Role.behind r + 1 by omega,
      BitVec.ofNat_add,← before]
    rfl
  | seedBts | addBts =>
    rename_i fn
    obtain ⟨lt,unset⟩ := clear fn (by simp [role,Role.adds])
    have more := runnableCount_add lt unset
    simp only [Role.ahead,Role.behind] at ahead behind
    rw [more,show runnableCount t + 1 + _ + _ = runnableCount t + tally Role.ahead r + tally Role.behind r by omega]
    exact before
  | claim set =>
    rename_i fn
    obtain ⟨-,-,lt,-,-⟩ := inv.of_runnable set
    have few := inv.valid.num_nodes_lt
    have less := runnableCount_claim (by unfold MAX_FUNC; omega) set
    simp only [Role.ahead,Role.behind] at ahead behind
    rw [show runnableCount (claim t fn) + _ + _ = runnableCount t + tally Role.ahead r + tally Role.behind r by omega]
    exact before
  | won =>
    rename_i fn
    have same : runnableCount { t with runnable_tasks := t.runnable_tasks - 1 } = runnableCount t := rfl
    simp only [Role.ahead,Role.behind] at ahead behind
    rw [show runnableCount t + _ + _ = (runnableCount t + tally Role.ahead (Function.update r v (.ready fn)) +
      tally Role.behind (Function.update r v (.ready fn))) + 1 by omega,BitVec.ofNat_add] at before
    rw [same,before]
    exact BitVec.add_sub_cancel _ _
  | turnover id all =>
    have same : runnableCount { t with num_fin_fn := 0 } = runnableCount t := rfl
    simp only [Role.ahead,Role.behind] at ahead behind
    rw [same,show runnableCount t + _ + _ = runnableCount t + tally Role.ahead r + tally Role.behind r by omega]
    exact before
  | _ =>
    simp only [Role.ahead,Role.behind] at ahead behind
    refine before.trans (congrArg (BitVec.ofNat 64) ?_)
    change runnableCount t + _ + _ = runnableCount t + _ + _
    omega

theorem dispatched_step (inv : TaskInv t r log) (role : r v = r0) (step : TaskStep host t r0 t' r1 e) (fn : Nat) :
    inEpoch (isDispatch fn) (e.toList ++ log) =
      tally (Role.ran fn) (Function.update r v r1) + inEpoch (isCounted fn) (e.toList ++ log) := by
  have before := inv.dispatched fn
  have total := tally_to role (Role.ran fn) r1
  cases step with
  | stay silent =>
    rw [inEpoch_silent (dispatch_deaf fn) silent,inEpoch_silent (counted_deaf fn) silent]
    omega
  | turnover id all =>
    have none := ((inv.all_counted all).2.2 fn).1
    have part : tally (Role.ran fn) r ≤ tally (Role.owns fn) r := Finset.sum_le_sum fun i _ => Role.ran_le_owns fn (r i)
    simp only [Role.ran] at total
    simp
    omega
  | _ =>
    simp [Role.ran,isDispatch,isCounted,Bool.toNat,Bool.cond_decide] at total ⊢
    omega

theorem finished_step (inv : TaskInv t r log) (role : r v = r0) (step : TaskStep host t r0 t' r1 e) (fn : Nat) :
    inEpoch (isFinish fn) (e.toList ++ log) =
      tally (Role.finished fn) (Function.update r v r1) + inEpoch (isCounted fn) (e.toList ++ log) := by
  have before := inv.finished fn
  have total := tally_to role (Role.finished fn) r1
  cases step with
  | stay silent =>
    rw [inEpoch_silent (finish_deaf fn) silent,inEpoch_silent (counted_deaf fn) silent]
    omega
  | turnover id all =>
    have none := ((inv.all_counted all).2.2 fn).1
    have part : tally (Role.finished fn) r ≤ tally (Role.owns fn) r :=
      Finset.sum_le_sum fun i _ => Role.finished_le_owns fn (r i)
    simp only [Role.finished] at total
    simp
    omega
  | _ =>
    simp [Role.finished,isFinish,isCounted,Bool.toNat,Bool.cond_decide] at total ⊢
    omega

omit [DecidableEq ι] in
theorem ordered_step (inv : TaskInv t r log) (role : r v = r0) (step : TaskStep host t r0 t' r1 e) :
    Ordered t'.metadata (e.toList ++ log) := by
  have before := inv.ordered
  cases step with
  | turnover id all => trivial
  | stay silent => exact ordered_silent silent before
  | install supplied =>
    obtain ⟨-,-,nowhere⟩ := of_prepares (v := v) inv (by simp [role,Role.prepares])
    refine ordered_of_none fun fn => ?_
    have zero := nowhere fn
    have owned : tally (Role.ran fn) r ≤ tally (Role.owns fn) r := Finset.sum_le_sum fun i _ => Role.ran_le_owns fn (r i)
    have all := inv.dispatched fn
    unfold load at zero
    show inEpoch (isDispatch fn) log = 0
    omega
  | dispatch id =>
    rename_i fn
    obtain ⟨started,none,lt,zero,-⟩ := inv.of_owns (show (r v).owns fn = 1 by simp [role,Role.owns])
    exact ⟨fun g edge => inv.predecessor_finished started none lt zero edge,before⟩
  | _ => exact before

/-- Every step of a vCPU keeps the invariant. -/
theorem step_inv (supply : ∀ d, host d → Valid d) (inv : TaskInv t r log) (role : r v = r0)
    (step : TaskStep host t r0 t' r1 e) : TaskInv t' (Function.update r v r1) (e.toList ++ log) where
  valid := valid_step supply inv step
  preparing := preparing_step inv role step
  unbegun := unbegun_step inv role step
  quiet := quiet_step inv role step
  active := active_step inv role step
  counts := counts_step inv role step
  copied := copied_step inv role step
  copiedAll := copiedAll_step inv role step
  num_fin_fn := num_fin_fn_step inv role step
  runnable_tasks := runnable_tasks_step inv role step
  dispatched := dispatched_step inv role step
  finished := finished_step inv role step
  ordered := ordered_step inv role step

/-! ### The vCPU that resets an epoch -/

omit [Fintype ι] [DecidableEq ι] in
/-- A role without a part in any task and in no reset is idle. -/
theorem idle_of_none {r0 : Role} (owns : ∀ fn, r0.owns fn = 0) (adds : ∀ fn, r0.adds fn = 0) (rests : r0.prepares = 0) :
    r0 = .idle := by
  cases r0 with
  | idle => rfl
  | prep | copy | seed => cases rests
  | seedInc fn | seedBts fn => have none := adds fn; simp [Role.adds] at none
  | won fn | ready fn | user fn | back fn | relax fn | addInc fn | addBts fn | done fn =>
    have none := owns fn
    simp [Role.owns] at none

omit [DecidableEq ι] in
/-- Where nothing is owned, added or prepared, every vCPU is idle. -/
theorem idle_of_gone (none : tally Role.prepares r = 0)
    (gone : ∀ fn, tally (Role.owns fn) r = 0 ∧ tally (Role.adds fn) r = 0 ∧ runnable t fn = false) (u : ι) : r u = .idle :=
  idle_of_none (fun fn => tally_eq_zero.mp (gone fn).1 u) (fun fn => tally_eq_zero.mp (gone fn).2.1 u)
    (tally_eq_zero.mp none u)

/-- The role is that of a vCPU between its epoch CAS and the end of the reset. -/
def resets : Role → Bool
  | .prep | .copy _ | .seed | .seedInc _ | .seedBts _ => true
  | _ => false

/-- While a vCPU resets an epoch the others are idle and find nothing to do. -/
def Solo (t : Tasks) (r : ι → Role) : Prop :=
  ∀ v, resets (r v) = true → (∀ u, u ≠ v → r u = .idle) ∧ t.num_fin_fn = 0 ∧ ∀ fn, runnable t fn = false

omit [DecidableEq ι] in
/-- Beside a vCPU that resets an epoch, a step changes nothing. -/
theorem Solo.others (inv : TaskInv t r log) (solo : Solo t r) {u : ι} (busy : resets (r u) = true) (other : u ≠ v)
    (role : r v = r0) (step : TaskStep host t r0 t' r1 e) : t' = t ∧ r1 = r0 ∧ ∀ ev ∈ e, Silent ev := by
  obtain ⟨idle,zero,clear⟩ := solo u busy
  have rest := idle v other.symm
  rw [role] at rest
  subst rest
  cases step with
  | stay silent => exact ⟨rfl,rfl,silent⟩
  | turnover id all =>
    have few := inv.valid.num_nodes_lt
    have some := inv.valid.start_lt
    rw [zero] at all
    have bits := congrArg BitVec.toNat all
    simp only [BitVec.toNat_ofNat,BitVec.ofNat_eq_ofNat] at bits
    omega
  | claim set => rw [clear] at set; cases set

theorem Solo.step (inv : TaskInv t r log) (solo : Solo t r) (role : r v = r0) (step : TaskStep host t r0 t' r1 e) :
    Solo t' (Function.update r v r1) := by
  intro u busy
  by_cases same : u = v
  · subst same
    rw [Function.update_self] at busy
    have others : (∀ w, w ≠ u → r w = .idle) → ∀ w, w ≠ u → Function.update r u r1 w = .idle := by
      intro idle w other
      rw [Function.update_of_ne other]
      exact idle w other
    cases step with
    | turnover id all =>
      obtain ⟨none,-,gone⟩ := inv.all_counted all
      exact ⟨others fun w _ => idle_of_gone none gone w,rfl,fun fn => (gone fn).2.2⟩
    | stay | install | recover | copy | copied | copiedAll | seed | seedInc =>
      obtain ⟨idle,zero,clear⟩ := solo u (by rw [role]; exact busy)
      exact ⟨others idle,zero,clear⟩
    | _ => cases busy
  · rw [Function.update_of_ne same] at busy
    obtain ⟨rfl,rfl,-⟩ := solo.others inv busy same role step
    rw [← role,Function.update_eq_self]
    exact solo u busy

end
end Bootcode.TaskSteps
