import Bootcode.Roles

/-!
The account behind `runnable_tasks`: it counts the functions in `bm_run_fn`, with
those that a vCPU has counted before setting their bit and those whose bit a vCPU
has cleared before counting them down.
-/
namespace Bootcode.RunCount
open Bootcode.Bits Bootcode.SchedState Bootcode.Interleave Bootcode.Sched Bootcode.Graph Bootcode.Tasks Bootcode.TaskSteps
open Bootcode.SchedSteps Bootcode.Roles

/-- In `add_runnable_fn` between the `lock incq` and the `lock btsq`. -/
def adding (v : Vcpu) : Nat :=
  match v.pc with
  | .dag _ (.bts _ _ _) | .reset (.bts _) => 1
  | _ => 0
/-- Between a successful `btr` of `get_work` and `ATOMIC_DECQ_M(runnable_tasks)`. -/
def taking (v : Vcpu) : Nat :=
  match v.pc with
  | .work _ .decFree | .work _ .decRunnable => 1
  | _ => 0

theorem adding_eq (v : Vcpu) : adding v = (role v).ahead := by
  obtain ⟨pc,current,t1⟩ := v
  cases pc with
  | enter k => by_cases null : current = NULL_FUNC <;> simp [adding,role,null,Role.ahead]
  | wake fn k => by_cases null : fn = NULL_FUNC <;> simp [adding,role,null,Role.ahead]
  | dag fn k | reset k | work fn k => cases k <;> rfl
  | _ => rfl

theorem taking_eq (v : Vcpu) : taking v = (role v).behind := by
  obtain ⟨pc,current,t1⟩ := v
  cases pc with
  | enter k => by_cases null : current = NULL_FUNC <;> simp [taking,role,null,Role.behind]
  | wake fn k => by_cases null : fn = NULL_FUNC <;> simp [taking,role,null,Role.behind]
  | dag fn k | reset k | work fn k => cases k <;> rfl
  | _ => rfl

theorem runnableCount_le (t : Tasks) : runnableCount t ≤ 256 := by
  have each : runnableCount t ≤ ∑ _idx ∈ Finset.range 4, 64 := Finset.sum_le_sum fun idx _ => popcnt_le (t.bm_run_fn idx)
  simpa using each

section
variable {ι : Type} [Fintype ι] {t : Tasks} {r : ι → Role} {log : List Ev}

/-- A role that is ahead or behind adds or owns a function. -/
theorem ahead_behind_le (role : Role) (n : Nat) (inside : ∀ fn, role.owns fn = 1 ∨ role.adds fn = 1 → fn < n) :
    role.ahead + role.behind ≤ ∑ fn ∈ Finset.range n, (role.owns fn + role.adds fn) := by
  have one : ∀ fn, 1 ≤ role.owns fn + role.adds fn → 1 ≤ ∑ fn ∈ Finset.range n, (role.owns fn + role.adds fn) := by
    intro fn some
    have owns_le : role.owns fn ≤ 1 := by cases role <;> simp only [Role.owns] <;> first | split <;> omega | omega
    have adds_le : role.adds fn ≤ 1 := by cases role <;> simp only [Role.adds] <;> first | split <;> omega | omega
    have member : fn ∈ Finset.range n := Finset.mem_range.mpr (inside fn (by omega))
    exact some.trans (Finset.single_le_sum (f := fun fn => role.owns fn + role.adds fn) (fun _ _ => Nat.zero_le _) member)
  cases role with
  | seedBts fn | won fn => exact one fn (by simp [Role.owns,Role.adds])
  | addBts fn i out_fn => exact one out_fn (by simp [Role.owns,Role.adds])
  | _ => exact Nat.zero_le _

/-- At most one vCPU for each node is ahead or behind. -/
theorem ahead_behind_bound (inv : TaskInv t r log) : tally Role.ahead r + tally Role.behind r ≤ t.metadata.num_nodes := by
  have inside : ∀ v fn, (r v).owns fn = 1 ∨ (r v).adds fn = 1 → fn < t.metadata.num_nodes := by
    rintro v fn (owns | adds)
    · exact (inv.of_owns owns).2.2.1
    · exact (inv.of_adds adds).2.2.1
  calc tally Role.ahead r + tally Role.behind r
      = ∑ v, ((r v).ahead + (r v).behind) := Finset.sum_add_distrib.symm
    _ ≤ ∑ v, ∑ fn ∈ Finset.range t.metadata.num_nodes, ((r v).owns fn + (r v).adds fn) :=
        Finset.sum_le_sum fun v _ => ahead_behind_le (r v) _ (inside v)
    _ = ∑ fn ∈ Finset.range t.metadata.num_nodes, (tally (Role.owns fn) r + tally (Role.adds fn) r) := by
        rw [Finset.sum_comm]
        exact Finset.sum_congr rfl fun fn _ => Finset.sum_add_distrib
    _ ≤ ∑ _fn ∈ Finset.range t.metadata.num_nodes, 1 := by
        refine Finset.sum_le_sum fun fn _ => ?_
        have one := inv.load_le fn
        unfold load at one
        omega
    _ = t.metadata.num_nodes := by simp

theorem runnable_tasks_toNat (inv : TaskInv t r log) :
    t.runnable_tasks.toNat = runnableCount t + tally Role.ahead r + tally Role.behind r := by
  have few := inv.valid.num_nodes_lt
  have bits := runnableCount_le t
  have rest := ahead_behind_bound inv
  rw [inv.runnable_tasks,BitVec.toNat_ofNat,Nat.mod_eq_of_lt (by omega)]

end

section
variable {p : Nat} {host : Metadata → Prop}

/-- What `runnable_tasks` promises of a state: the account, that a decrement does
    not underflow, and that the recovery store changes nothing. -/
structure RunnableOk (s : Config (Fin p) Shared Vcpu) : Prop where
  account : s.shared.tasks.runnable_tasks.toNat = runnableCount s.shared.tasks + tally adding s.loc + tally taking s.loc
  decrement : ∀ i fn, (s.loc i).pc = .work fn .decRunnable → 0 < s.shared.tasks.runnable_tasks.toNat
  recovery : ∀ i, (s.loc i).pc = .reset .stRunnable → s.shared.tasks.runnable_tasks = 0

/-- The account of `runnable_tasks` on a host whose task graphs all have the same
    number of nodes. -/
theorem runnable_accounted {n : Nat} (supply : ∀ d, host d → Valid d) (constant : ∀ d, host d → d.num_nodes = n)
    {s : Config (Fin p) Shared Vcpu} (reach : Reach (pool p host) (Supplied host) s) : RunnableOk s := by
  have core := core_reach supply (fresh_of_constant supply constant reach).1
  have account : s.shared.tasks.runnable_tasks.toNat =
      runnableCount s.shared.tasks + tally adding s.loc + tally taking s.loc := by
    rw [runnable_tasks_toNat core.tasks]
    simp only [tally,roles,adding_eq,taking_eq]
  refine ⟨account,?_,?_⟩
  · intro i fn pc
    have mine := le_tally taking s.loc i
    rw [show taking (s.loc i) = 1 by simp [taking,pc]] at mine
    omega
  · intro i pc
    -- While a vCPU prepares an epoch no function is anywhere.
    obtain ⟨-,-,nowhere⟩ := of_prepares (v := i) core.tasks (by simp [roles,role,pc,Role.prepares])
    obtain ⟨empty,ahead,behind⟩ := counted_nothing (gone_of_load nowhere)
    rw [core.tasks.runnable_tasks,empty,ahead,behind]
    rfl

def recovers (v : Vcpu) : Bool :=
  match v.pc with
  | .reset .stRunnable => true
  | _ => false

/-- vCPU 0 at the recovery store of its first epoch reset. -/
theorem runnable_accounted_edge : ∃ s : Config (Fin 2) Shared Vcpu, recovers (s.loc 0) = true ∧ RunnableOk s := by
  have supply : ∀ d, d = edge → Valid d := fun _ same => same ▸ edge_valid
  have constant : ∀ d, d = edge → d.num_nodes = 2 := fun _ same => by rw [same]; rfl
  have ran : (exec (pool 2 (· = edge)) (boot 2 edge) (schedule 2 [(0,30)])).any
      (fun s => recovers (s.loc 0)) = true := by decide +kernel
  have first : (pool 2 (· = edge)).init (boot 2 edge) := boot_init rfl
  obtain ⟨s,reach,holds⟩ := exec_exists first schedule_supplied ran
  exact ⟨s,holds,runnable_accounted supply constant reach⟩

end
end Bootcode.RunCount
