import Bootcode.Epochs

/-!
What a vCPU runs in user mode. `jump2fn` copies the entry, the stack, the buffers
and the page table of its function out of metadata that the host may replace;
from there to the end of the function no step of another vCPU, and no new
metadata, comes between the vCPU and what it was dispatched to run.
-/
namespace Bootcode.UserContext
open Bootcode.Bits Bootcode.SchedState Bootcode.Interleave Bootcode.Sched Bootcode.Graph Bootcode.Tasks Bootcode.TaskSteps
open Bootcode.SchedSteps Bootcode.Roles Bootcode.Epochs
set_option linter.unusedSimpArgs false

section
variable {p : Nat} {host : Metadata → Prop}

/-- What `jump2fn` has copied so far is of the function; `pg` is the first entry of the
    vCPU's own page table. -/
def Copied (d : Metadata) (pg : Word) : Pc → Prop
  | .work fn (.stPg info) => info = d.func_info (fn % 256)
  | .work fn (.tscFn info) | .work fn (.stFn info _) | .work fn (.jump info) =>
    info = d.func_info (fn % 256) ∧ pg = info.pt_addr ||| 7
  | .user fn ctx => ctx = jump_usermode (d.func_info fn) fn ∧ pg = (d.func_info fn).pt_addr ||| 7
  | _ => True

/-- Only a vCPU that owns a function has copied anything. -/
theorem copied_of_unowned {d : Metadata} {pg : Word} {v : Vcpu} (free : ∀ fn, (role v).owns fn = 0) : Copied d pg v.pc := by
  obtain ⟨pc,current,t1⟩ := v
  cases pc with
  | work fn k =>
    have none := free fn
    cases k <;> simp [role,Role.owns] at none
  | user fn ctx =>
    have none := free fn
    simp [role,Role.owns] at none
  | _ => trivial

variable {id : Nat} {x : Input} {s s' : Shared} {v v' : Vcpu}

/-- The page tables of the other vCPUs stay as they are. -/
theorem pg_tbls_frame (moved : sched id x s v = some (s',v')) {j : Nat} (other : j ≠ id) :
    s'.book.pg_tbls j = s.book.pg_tbls j := by
  obtain ⟨pc,current,t1⟩ := v
  cases pc with
  | boot k =>
    obtain ⟨r,-,same⟩ := Option.map_eq_some_iff.mp moved
    cases same
    rfl
  | enter k => cases k <;> cases moved <;> rfl
  | fin fn k => cases moved; cases k <;> rfl
  | reset k => cases moved; cases k <;> simp only [reset]; split <;> rfl
  | halt k =>
    obtain ⟨⟨w,b,t,next,o⟩,slept,same⟩ := Option.map_eq_some_iff.mp moved
    cases same
    cases k with
    | hlt =>
      obtain ⟨w',-,same⟩ := Option.map_eq_some_iff.mp slept
      cases same
      rfl
    | _ => cases slept; rfl
  | work fn k =>
    cases moved
    cases k with
    | stPg info => exact Function.update_of_ne other _ _
    | _ => rfl
  | _ => cases moved; rfl

/-- A vCPU's own step copies from the metadata as it is. -/
theorem copied_step (copied : Copied s.tasks.metadata (s.book.pg_tbls id) v.pc) (moved : sched id x s v = some (s',v')) :
    Copied s'.tasks.metadata (s'.book.pg_tbls id) v'.pc := by
  obtain ⟨pc,current,t1⟩ := v
  cases pc with
  | boot k =>
    obtain ⟨⟨w,next⟩,woke,same⟩ := Option.map_eq_some_iff.mp moved
    cases same
    cases k <;> simp [wake_up_event] at woke <;> grind [Copied]
  | enter k => cases k <;> cases moved <;> simp [Copied,goWake,afterWake]; grind
  | fin fn k => cases moved; cases k <;> trivial
  | dag fn k => cases moved; cases k <;> simp [Copied,process_sched_dag]; all_goals grind
  | clrCurrent fn => cases moved; simp [Copied,goWake,afterWake]; grind
  | wake fn k =>
    cases moved
    cases next : (wake_up_task id x.tsc s.tasks.runnable_tasks s.wakes k).2.1 <;> simp [next,Copied,afterWake]; grind
  | incFin fn => cases moved; trivial
  | scan k => cases moved; cases k <;> simp [Copied,get_work]; all_goals grind
  | noWork k => cases moved; cases k <;> simp [Copied,noWork]; grind
  | reset k => cases moved; cases k <;> simp [Copied,reset]; all_goals grind
  | halt k =>
    obtain ⟨⟨w,b,t,next,o⟩,slept,same⟩ := Option.map_eq_some_iff.mp moved
    cases same
    cases k <;> simp [haltPath] at slept <;> grind [Copied]
  | work fn k =>
    cases moved
    cases k with
    | stPg info => exact ⟨copied,Function.update_self ..⟩
    | tscFn info => exact copied
    | stFn info t => exact copied
    | jump info =>
      obtain ⟨rfl,pg⟩ := copied
      exact ⟨rfl,pg⟩
    | ldInfo => rfl
    | _ => trivial
  | user fn ctx => cases moved; trivial

/-- The metadata that a vCPU copies from does not change before its function is done. -/
theorem copied_reach (supply : ∀ d, host d → Valid d) {s : Config (Fin p) Shared Vcpu}
    (reach : Reach (pool p host) (fun s a => Supplied host s a ∧ FreshTot s a) s) (i : Fin p) :
    Copied s.shared.tasks.metadata (s.shared.book.pg_tbls i.val) (s.loc i).pc := by
  induction reach with
  | init first =>
    obtain ⟨d,dag_in_count,book,t,-,rfl⟩ := first
    show Copied _ _ (bootVcpu i.val).pc
    unfold bootVcpu
    by_cases zero : i.val = 0 <;> simp [zero,Copied]
  | @step s s' a before good moved ih =>
    have core := core_reach supply before
    obtain ⟨-,e,lives,-⟩ := core.step supply good.1 good.2 moved
    obtain ⟨sh,own,shared,others⟩ := pool_frame moved
    rw [shared] at lives ⊢
    by_cases same : i = a.1
    · subst same
      have keep := copied_step ih own
      exact keep
    · rw [others i same]
      dsimp only
      rw [pg_tbls_frame own (Fin.val_ne_of_ne same)]
      rcases metadata_step lives with kept | ⟨preparing,-⟩
      · dsimp only at kept
        rw [kept]
        exact ih
      · obtain ⟨-,-,nowhere⟩ := of_prepares (v := a.1) core.tasks (by simp [preparing,Role.prepares])
        refine copied_of_unowned fun fn => ?_
        have none := nowhere fn
        have some := le_tally (Role.owns fn) (roles s) i
        unfold load at none
        exact Nat.eq_zero_of_le_zero (some.trans (by omega))

/-- In user mode a vCPU runs the node it was dispatched, which no other vCPU runs, with
    the entry, the stack, the buffers and the page table of this node, and
    `metadata->current` says so. -/
theorem user_context (supply : ∀ d, host d → Valid d) {s : Config (Fin p) Shared Vcpu}
    (reach : Reach (pool p host) (fun s a => Supplied host s a ∧ FreshTot s a) s) {i : Fin p} {fn : Nat} {ctx : UserCtx}
    (user : (s.loc i).pc = .user fn ctx) :
    fn < s.shared.tasks.metadata.num_nodes ∧ (s.loc i).current = fn ∧
      ctx = jump_usermode (s.shared.tasks.metadata.func_info fn) fn ∧
      s.shared.book.pg_tbls i.val = (s.shared.tasks.metadata.func_info fn).pt_addr ||| 7 ∧
      ∀ j ctx', (s.loc j).pc = .user fn ctx' → j = i := by
  have core := core_reach supply reach
  have mine : ∀ {j ctx}, (s.loc j).pc = .user fn ctx → (roles s j).owns fn = 1 := by
    intro j ctx there
    simp [roles,role,there,Role.owns]
  obtain ⟨-,-,lt,-⟩ := core.tasks.of_owns (mine user)
  have copied := copied_reach supply reach i
  rw [user] at copied
  have current := (core.ok i).current
  unfold CurrentOk at current
  rw [user] at current
  refine ⟨lt,current,copied.1,copied.2,fun j ctx' there => ?_⟩
  by_contra other
  have two := add_le_tally (Role.owns fn) (roles s) other
  have one := core.tasks.load_le fn
  rw [mine user,mine there] at two
  unfold load at one
  omega

/-- Node 0 of the edge runs on vCPU 0. -/
theorem user_context_edge : ∃ (s : Config (Fin 2) Shared Vcpu) (ctx : UserCtx), (s.loc 0).pc = .user 0 ctx ∧
    ctx = jump_usermode (s.shared.tasks.metadata.func_info 0) 0 ∧
    s.shared.book.pg_tbls 0 = (s.shared.tasks.metadata.func_info 0).pt_addr ||| 7 := by
  have supply : ∀ d, d = edge → Valid d := fun _ same => same ▸ edge_valid
  let P : Config (Fin 2) Shared Vcpu → Bool := fun s => match (s.loc 0).pc with | .user fn _ => fn == 0 | _ => false
  have ran : (exec (pool 2 (· = edge)) (boot 2 edge) (schedule 2 [(0,53)])).any P = true := by decide +kernel
  have first : (pool 2 (· = edge)).init (boot 2 edge) := boot_init rfl
  obtain ⟨s,reach,holds⟩ := exec_exists first schedule_supplied ran
  have constant : ∀ d, d = edge → d.num_nodes = 2 := fun _ same => by rw [same]; rfl
  cases pc : (s.loc 0).pc with
  | user fn ctx =>
    have zero : fn = 0 := by simpa [P,pc] using holds
    subst zero
    obtain ⟨-,-,context,table,-⟩ := user_context supply (fresh_of_constant supply constant reach).1 pc
    exact ⟨s,ctx,pc,context,table⟩
  | _ => simp [P,pc] at holds

end
end Bootcode.UserContext
