import Mathlib.Data.Set.Insert
import Mathlib.Logic.Function.Basic

/-!
Workers that execute the tasks of a graph, epoch after epoch, seen from outside:
a worker that runs nothing starts a task whose predecessors have all finished,
and an epoch is over when every task has. Whatever their number and speed, the
tasks of an epoch are started in a topological order of the graph.
-/
namespace Bootcode.Executor
universe u v

/-- The tasks of an epoch, and which of them wait for which. -/
structure TaskGraph (ν : Type u) where
  tasks : Set ν
  edge : ν → ν → Prop

structure State (ι : Type v) (ν : Type u) where
  graph : TaskGraph ν
  started : Set ν
  finished : Set ν
  running : ι → Option ν

inductive Act (ι : Type v) (ν : Type u)
  | turnover (worker : ι)
  | supply (graph : TaskGraph ν)
  | start (worker : ι) (task : ν)
  | finish (worker : ι) (task : ν)

theorem idle {ι : Type v} {ν : Type u} {running : ι → Option ν} {w : ι} (rests : running w = none) (task : ν) :
    running w ≠ some task := by
  rw [rests]
  exact (Option.some_ne_none task).symm

section
variable {ι : Type v} {ν : Type u} [DecidableEq ι] (supplied : TaskGraph ν → Prop)

/-- The tasks are forgotten at a turnover, and the graph may be another as long as
    none of them has started. -/
inductive Step : State ι ν → Act ι ν → State ι ν → Prop
  | turnover {s : State ι ν} (worker : ι) (all : s.graph.tasks ⊆ s.finished) (rest : ∀ w, s.running w = none) :
      Step s (.turnover worker) { s with started := ∅, finished := ∅ }
  | supply {s : State ι ν} {graph : TaskGraph ν} (known : supplied graph) (fresh : s.started = ∅) :
      Step s (.supply graph) { s with graph := graph }
  | start {s : State ι ν} {worker : ι} {task : ν} (free : s.running worker = none) (member : task ∈ s.graph.tasks)
      (fresh : task ∉ s.started) (ready : ∀ g, s.graph.edge g task → g ∈ s.finished) :
      Step s (.start worker task)
        { s with started := insert task s.started, running := Function.update s.running worker (some task) }
  | finish {s : State ι ν} {worker : ι} {task : ν} (runs : s.running worker = some task) :
      Step s (.finish worker task)
        { s with finished := insert task s.finished, running := Function.update s.running worker none }

/-- Nothing is left of the graph, as if an epoch had ended. -/
structure Rested (s : State ι ν) : Prop where
  known : supplied s.graph
  started : s.started = s.graph.tasks
  finished : s.finished = s.graph.tasks
  running : ∀ w, s.running w = none

/-- The acts of a run, newest first, and the state it ends in. -/
inductive Executes : List (Act ι ν) → State ι ν → Prop
  | rested {s : State ι ν} : Rested supplied s → Executes [] s
  | step {acts : List (Act ι ν)} {act : Act ι ν} {s t : State ι ν} : Executes acts s → Step supplied s act t →
      Executes (act :: acts) t

variable {supplied} {acts : List (Act ι ν)} {s : State ι ν}

/-- What has started runs or has finished, and is run by one worker. -/
structure Sound (s : State ι ν) : Prop where
  member : s.started ⊆ s.graph.tasks
  finished : s.finished ⊆ s.started
  running : ∀ w task, s.running w = some task → task ∈ s.started ∧ task ∉ s.finished
  alone : ∀ w w' task, s.running w = some task → s.running w' = some task → w = w'
  started : ∀ task ∈ s.started, task ∈ s.finished ∨ ∃ w, s.running w = some task

theorem Sound.start {worker : ι} {task : ν} (sound : Sound s) (free : s.running worker = none)
    (member : task ∈ s.graph.tasks) (fresh : task ∉ s.started) :
    Sound { s with started := insert task s.started, running := Function.update s.running worker (some task) } := by
  have kept : ∀ w, s.running w ≠ none → Function.update s.running worker (some task) w = s.running w := by
    intro w busy
    refine Function.update_of_ne ?_ _ _
    rintro rfl
    exact busy free
  constructor
  · exact Set.insert_subset member sound.member
  · exact sound.finished.trans (Set.subset_insert _ _)
  · intro w fn runs
    dsimp only at runs ⊢
    by_cases same : w = worker
    · subst same
      rw [Function.update_self,Option.some.injEq] at runs
      subst runs
      exact ⟨Set.mem_insert _ _,fun done => fresh (sound.finished done)⟩
    · rw [Function.update_of_ne same] at runs
      exact ⟨Set.mem_insert_of_mem _ (sound.running w fn runs).1,(sound.running w fn runs).2⟩
  · have one : ∀ w, Function.update s.running worker (some task) w = some task → w = worker := by
      intro w runs
      by_contra other
      rw [Function.update_of_ne other] at runs
      exact fresh (sound.running w task runs).1
    intro w w' fn runs runs'
    by_cases same : fn = task
    · subst same
      rw [one w runs,one w' runs']
    · have old : ∀ w, Function.update s.running worker (some task) w = some fn → s.running w = some fn := by
        intro w runs
        by_cases here : w = worker
        · rw [here,Function.update_self] at runs
          exact absurd (Option.some.inj runs).symm same
        · rwa [Function.update_of_ne here] at runs
      exact sound.alone w w' fn (old w runs) (old w' runs')
  · rintro fn (rfl | before)
    · exact .inr ⟨worker,Function.update_self ..⟩
    · rcases sound.started fn before with done | ⟨w,runs⟩
      · exact .inl done
      · exact .inr ⟨w,(kept w (by simp [runs])).trans runs⟩

theorem Sound.finish {worker : ι} {task : ν} (sound : Sound s) (runs : s.running worker = some task) :
    Sound { s with finished := insert task s.finished, running := Function.update s.running worker none } := by
  have old : ∀ w fn, Function.update s.running worker none w = some fn → w ≠ worker ∧ s.running w = some fn := by
    intro w fn now
    by_cases here : w = worker
    · rw [here,Function.update_self] at now
      cases now
    · exact ⟨here,by rwa [Function.update_of_ne here] at now⟩
  constructor
  · exact sound.member
  · exact Set.insert_subset (sound.running worker task runs).1 sound.finished
  · intro w fn now
    dsimp only at now ⊢
    obtain ⟨other,before⟩ := old w fn now
    refine ⟨(sound.running w fn before).1,?_⟩
    rintro (rfl | done)
    · exact other (sound.alone w worker fn before runs)
    · exact (sound.running w fn before).2 done
  · intro w w' fn now now'
    exact sound.alone w w' fn (old w fn now).2 (old w' fn now').2
  · intro fn before
    rcases sound.started fn before with done | ⟨w,running⟩
    · exact .inl (Set.mem_insert_of_mem _ done)
    · by_cases here : w = worker
      · subst here
        rw [runs,Option.some.injEq] at running
        exact .inl (.inl running.symm)
      · exact .inr ⟨w,(Function.update_of_ne here _ _).trans running⟩

theorem Executes.sound (run : Executes supplied acts s) : Sound s := by
  induction run with
  | rested rested =>
    have same := rested.finished.trans rested.started.symm
    exact ⟨rested.started.subset,same.subset,fun w task runs => absurd runs (idle (rested.running w) task),
      fun w _ task runs => absurd runs (idle (rested.running w) task),fun task member => .inl (same ▸ member)⟩
  | step _ moved sound =>
    cases moved with
    | turnover worker all rest =>
      exact ⟨Set.empty_subset _,subset_rfl,fun w task runs => absurd runs (idle (rest w) task),
        fun w _ task runs => absurd runs (idle (rest w) task),fun _ nothing => nothing.elim⟩
    | supply known fresh =>
      exact ⟨fresh ▸ Set.empty_subset _,sound.finished,sound.running,sound.alone,sound.started⟩
    | start free member fresh ready => exact sound.start free member fresh
    | finish runs => exact sound.finish runs

theorem Executes.known (run : Executes supplied acts s) : supplied s.graph := by
  induction run with
  | rested rested => exact rested.known
  | step _ moved known =>
    cases moved with
    | supply new fresh => exact new
    | _ => exact known

/-! ### The order of an epoch -/

/-- A list, newest first, in which everything is preceded by what has an edge to it. -/
def Topological (edge : ν → ν → Prop) : List ν → Prop
  | [] => True
  | task :: rest => task ∉ rest ∧ (∀ g, edge g task → g ∈ rest) ∧ Topological edge rest

/-- The tasks that were started in the current epoch, newest first. -/
def order : List (Act ι ν) → List ν
  | [] => []
  | .turnover _ :: _ => []
  | .start _ task :: rest => task :: order rest
  | .supply _ :: rest | .finish _ _ :: rest => order rest

def begun (acts : List (Act ι ν)) : Bool := acts.any fun act => match act with | .turnover _ => true | _ => false

/-- Before the first epoch nothing can start; from then on what has started is what
    the epoch has started, in a topological order. -/
theorem Executes.ordered (some : ∀ graph, supplied graph → graph.tasks.Nonempty) (run : Executes supplied acts s) :
    (begun acts = false → s.started = s.graph.tasks) ∧
      (begun acts = true → (∀ task, task ∈ order acts ↔ task ∈ s.started) ∧ Topological s.graph.edge (order acts)) := by
  induction run with
  | rested rested =>
    constructor
    · exact fun _ => rested.started
    · intro started
      cases started
  | @step acts act s t run moved ih =>
    have sound := run.sound
    cases moved with
    | turnover worker all rest =>
      constructor
      · intro never
        simp [begun] at never
      · exact fun _ => ⟨fun task => by simp [order],trivial⟩
    | @supply graph known fresh =>
      have same : begun (Act.supply graph :: acts) = begun acts := rfl
      rw [same]
      constructor
      · intro never
        obtain ⟨task,member⟩ := some _ run.known
        rw [← ih.1 never,fresh] at member
        exact member.elim
      · intro started
        obtain ⟨iff,-⟩ := ih.2 started
        have nothing : order acts = [] := List.eq_nil_iff_forall_not_mem.mpr fun task member => by
          rw [iff,fresh] at member
          exact member
        refine ⟨iff,?_⟩
        show Topological graph.edge (order acts)
        rw [nothing]
        trivial
    | @start worker task free member fresh ready =>
      have same : begun (.start worker task :: acts) = begun acts := rfl
      rw [same]
      constructor
      · intro never
        exact absurd (ih.1 never ▸ member) fresh
      · intro started
        obtain ⟨iff,sorted⟩ := ih.2 started
        refine ⟨fun fn => ?_,fun before => fresh ((iff task).mp before),
          fun g edge => (iff g).mpr (sound.finished (ready g edge)),sorted⟩
        show fn ∈ task :: order acts ↔ fn ∈ insert task s.started
        rw [List.mem_cons,iff,Set.mem_insert_iff]
    | finish runs => exact ih

end
end Bootcode.Executor
