import Bootcode.Syscall

/-!
The invariant of a vCPU from `long_mode` to `sysretq`, which depends only on memory of
its own, and what follows from it for all vCPUs in any interleaving. It can be
started exactly if the time stamp counter fits into `eax`.
-/
namespace Bootcode.Syscall
open Bootcode.X86 Bootcode.Interleave Bootcode.Private

section
variable {n : Nat} {p : Setup n} {i : Fin n}

def Agree (p : Setup n) (i : Fin n) (m m' : Memory) : Prop := ∀ x, Owns p i x → m' x = m x

theorem Agree.load {m m' : Memory} (agree : Agree p i m m') {a : Word} (mine : ∀ x, Within x a 8 → Owns p i x) :
    load m' a 8 = load m a 8 := load_congr (fun x inside => agree x (mine x inside)) (by omega)

theorem own_pushed {k : Nat} (low : 8 ≤ k) (high : k ≤ 40) (x : Word) (inside : Within x (p.top i - BitVec.ofNat 64 k) 8) :
    Owns p i x := .inr (.inr (page_of_pushed high (inside.mono low)))

theorem Base.frame {m m' : Memory} {c : Core} (agree : Agree p i m m') (base : Base p i m c) : Base p i m' c :=
  ⟨base.kernGsBase,(agree.load fun _ => .inl).trans base.slot⟩

theorem Saved.frame {called : Reg → Word} {m m' : Memory} (same : ∀ x, Within x (p.top i - 32) 32 → m' x = m x)
    (saved : Saved p i called m) : Saved p i called m' := by
  have word : ∀ k ≤ 32, 8 ≤ k → load m' (p.top i - BitVec.ofNat 64 k) 8 = load m (p.top i - BitVec.ofNat 64 k) 8 := by
    intro k high low
    refine load_congr (fun x inside => same x ?_) (by omega)
    generalize p.top i = top at *
    unfold Within at *
    bv_omega
  exact ⟨(word 8 (by omega) (by omega)).trans saved.rsp,(word 16 (by omega) (by omega)).trans saved.rbp,
    (word 24 (by omega) (by omega)).trans saved.rcx,(word 32 (by omega) (by omega)).trans saved.r11⟩

theorem Agree.saved {m m' : Memory} (agree : Agree p i m m') (x : Word) (inside : Within x (p.top i - 32) 32) :
    m' x = m x :=
  agree x (.inr (.inr (page_of_pushed (k := 32) (by omega) inside)))

theorem Switched.frame {called : Reg → Word} {m m' : Memory} {c : Core} (agree : Agree p i m m')
    (switched : Switched p i called m c) :
    Switched p i called m' c :=
  ⟨switched.gsBase,(agree.load fun _ => .inl).trans switched.slot,(agree.load fun _ => .inr ∘ .inl).trans switched.user,
    switched.rsp,switched.regs⟩

theorem Entered.frame {called : Reg → Word} {m m' : Memory} {c : Core} (agree : Agree p i m m')
    (entered : Entered p i called m c) :
    Entered p i called m' c :=
  ⟨entered.base.frame agree,entered.saved.frame agree.saved,entered.rsp⟩

/-- What holds in the entry at the switch of the stack, and at the end. -/
structure Entering (p : Setup n) (i : Fin n) (called : Reg → Word) (todo : List Micro) (m : Memory) (c : Core) : Prop where
  switched : todo.length = onKernelStack.length → Switched p i called m c
  entered : todo = [] → Entered p i called m c

theorem enters {called : Reg → Word} {m : Memory} {c : Core} (base : Base p i m c) (regs : c.regs = called) :
    Keeps (Owns p i) (Entering p i called) __syscall_entry m c := by
  refine Keeps.append (Q := Switched p i called) (Keeps.mono (switches base regs) ?_) ?_
  · intro left m c _ last
    refine ⟨fun more => ⟨fun length => ?_,fun none => ?_⟩,last⟩
    · rw [List.length_append,Nat.add_eq_right] at length
      exact absurd (List.length_eq_zero_iff.mp length) more
    · exact absurd (List.append_eq_nil_iff.mp none).1 more
  · intro m c switched
    refine Ends.keeps (saves switched) ⟨fun _ => switched,nofun⟩ ?_
    intro left m c short last
    exact ⟨fun length => absurd length (Nat.ne_of_lt (Nat.lt_succ_of_le short)),last⟩

/-- Where vCPU `i` is right. -/
def Local (p : Setup n) (i : Fin n) (m : Memory) (l : Vcpu) : Prop :=
  match l.pc with
  | .long_mode todo => Ends (Owns p i) (Booted p i) todo m l.core
  | .user => Base p i m l.core
  | .entry todo => Keeps (Owns p i) (Entering p i l.called) todo m l.core
  | .vmm => Entered p i l.called m l.core
  | .syscall_entry => Base p i m l.core ∧ Saved p i l.called m ∧ l.core.regs .rsp = p.top i - 40
  | .fin todo => Ends (Owns p i) (Restored p i l.called) todo m l.core

theorem Local.frame {m m' : Memory} {l : Vcpu} (agree : Agree p i m m') (before : Local p i m l) : Local p i m' l := by
  obtain ⟨pc,core,called⟩ := l
  cases pc with
  | long_mode todo =>
    refine Keeps.frame ?_ agree before
    exact fun todo m m' c agree last none => ⟨(last none).base.frame agree,(last none).fsBase⟩
  | user => exact Base.frame agree before
  | entry todo =>
    refine Keeps.frame ?_ agree before
    exact fun todo m m' c agree now => ⟨fun length => (now.switched length).frame agree,
      fun none => (now.entered none).frame agree⟩
  | vmm => exact Entered.frame agree before
  | syscall_entry => exact ⟨before.1.frame agree,before.2.1.frame agree.saved,before.2.2⟩
  | fin todo =>
    refine Keeps.frame ?_ agree before
    exact fun todo m m' c agree last none => ⟨(last none).base.frame agree,(last none).regs⟩

theorem stackRoom_le (p : Setup n) (i : Fin n) (l : Vcpu) : stackRoom p i l ≤ 4096 := by
  unfold stackRoom
  split
  · exact le_rfl
  · exact Nat.min_le_left _ _

/-- A write by one vCPU spares the others. -/
theorem mayWrite_other {l : Vcpu} {a : Word} (may : mayWrite p i l a = true) {j : Fin n} (other : j ≠ i) {x : Word}
    (mine : Owns p j x) : x ≠ a := by
  rintro rfl
  rcases of_decide_eq_true may with free | inside
  · exact free j mine
  · exact own_apart other (.inr (.inr (inside.mono (stackRoom_le p i l)))) mine

theorem mayWrite_own {l : Vcpu} {a : Word} (may : mayWrite p i l a = true) {x : Word} (mine : Owns p i x)
    (out : ¬ Within x (p.page i) (stackRoom p i l)) : x ≠ a := by
  rintro rfl
  rcases of_decide_eq_true may with free | inside
  · exact free i mine
  · exact out inside

theorem base_poke {l : Vcpu} {a : Word} {v : BitVec 8} {m : Memory} (may : mayWrite p i l a = true)
    (base : Base p i m l.core) :
    Base p i (Function.update m a v) l.core := by
  have kept : ∀ x, Within x (p.kernSlot i) 8 → Function.update m a v x = m x := fun x inside => by
    refine Function.update_of_ne ?_ ..
    exact mayWrite_own may (.inl inside) fun room => page_of_kernSlot inside (room.mono (stackRoom_le p i l))
  exact ⟨base.kernGsBase,(load_congr kept (by omega)).trans base.slot⟩

/-- During a call what is saved is above `rsp`. -/
theorem saved_poke {l : Vcpu} {a : Word} {v : BitVec 8} {m : Memory} (may : mayWrite p i l a = true)
    (below : stackRoom p i l ≤ (p.top i - 32 - p.page i).toNat) (saved : Saved p i l.called m) :
    Saved p i l.called (Function.update m a v) := by
  refine saved.frame fun x inside => Function.update_of_ne ?_ ..
  have page := page_of_pushed (k := 32) (by omega) inside
  refine mayWrite_own may (.inr (.inr page)) fun room => ?_
  obtain ⟨low,high⟩ := top_bounds p i
  generalize p.top i = top at *
  unfold Within at *
  bv_omega

/-- The next access of code that keeps to the memory of its vCPU. -/
theorem block_next {P : List Micro → Memory → Core → Prop} {k : List Micro → Pc} {o : Micro} {rest : List Micro}
    {m m' : Memory} {core : Core} {called : Reg → Word} {l' : Vcpu} (keeps : Keeps (Owns p i) P (o :: rest) m core)
    (ran : ((o.exec m core).map fun r => (r.1,(⟨k rest,r.2,called⟩ : Vcpu))) = some (m',l')) :
    ∃ c', l' = ⟨k rest,c',called⟩ ∧ Keeps (Owns p i) P rest m' c' ∧ ∀ y, ¬ Owns p i y → m' y = m y := by
  obtain ⟨m1,c1,exec,keeps,same⟩ := keeps.step
  rw [exec] at ran
  cases ran
  exact ⟨c1,rfl,keeps,same⟩

/-- `callq` pushes its return address below what is saved. -/
theorem pushed_return {called : Reg → Word} {m : Memory} {c : Core} (entered : Entered p i called m c) {x : Word}
    (inside : Within x (c.regs .rsp - 8) 8) : Owns p i x := by
  have at40 : c.regs .rsp - 8 = p.top i - BitVec.ofNat 64 40 := by
    rw [entered.rsp]
    exact sub_ofNat _ (i := 32) (j := 8) rfl
  rw [at40] at inside
  exact own_pushed (by omega) (by omega) x inside

theorem called_entry {called : Reg → Word} {m : Memory} {c : Core} (entered : Entered p i called m c) (ra : Word) :
    Local p i (store (n := 8) m (c.regs .rsp - 8) ra) ⟨.syscall_entry,c.set .rsp (c.regs .rsp - 8),called⟩ := by
  have at40 : c.regs .rsp - 8 = p.top i - 40 := by
    rw [entered.rsp]
    exact sub_ofNat _ (i := 32) (j := 8) rfl
  refine ⟨⟨entered.base.kernGsBase,?_⟩,entered.saved.frame fun x inside => store_of_not_within _ ?_,?_⟩
  · rw [load_store_apart (fun x mine inside => ?_) (by omega)]
    · exact entered.base.slot
    · rw [at40] at inside
      exact page_of_kernSlot mine (page_of_pushed (k := 40) (by omega) (inside.mono (by omega)))
  · rw [at40]
    generalize p.top i = top at *
    unfold Within at *
    bv_omega
  · simp only [Core.set_regs,if_true]
    exact at40

/-- What the code and its environment do on vCPU `i` keeps it right, and spares the others. -/
theorem Local.next {x : Input} {m m' : Memory} {l l' : Vcpu} (before : Local p i m l)
    (ran : step p i x m l = some (m',l')) :
    Local p i m' l' ∧ ∀ j, j ≠ i → ∀ y, Owns p j y → m' y = m y := by
  have off : (∀ y, ¬ Owns p i y → m' y = m y) → ∀ j, j ≠ i → ∀ y, Owns p j y → m' y = m y := fun same j other y mine =>
    same y (own_apart other.symm mine)
  have still : m' = m → ∀ j, j ≠ i → ∀ y, Owns p j y → m' y = m y := fun same _ _ _ _ => by rw [same]
  have poked : ∀ a v, mayWrite p i l a = true → m' = Function.update m a v → ∀ j, j ≠ i → ∀ y, Owns p j y → m' y = m y := by
    rintro a v may rfl j other y mine
    exact Function.update_of_ne (mayWrite_other may other mine) ..
  obtain ⟨pc,core,called⟩ := l
  cases pc with
  | long_mode todo =>
    cases x with
    | run =>
      cases todo with
      | nil =>
        cases ran
        exact ⟨(before rfl).base,still rfl⟩
      | cons o rest =>
        obtain ⟨c',rfl,keeps,same⟩ := block_next before ran
        exact ⟨keeps,off same⟩
    | _ => cases todo <;> cases ran
  | user =>
    cases x with
    | poke a v =>
      obtain ⟨may,ran⟩ := Option.ite_none_right_eq_some.mp ran
      cases ran
      exact ⟨base_poke (l := ⟨.user,core,called⟩) may before,poked a v may rfl⟩
    | resume regs gsBase fsBase =>
      cases ran
      exact ⟨enters ⟨before.kernGsBase,before.slot⟩ rfl,still rfl⟩
    | _ => cases ran
  | entry todo =>
    cases x with
    | run =>
      cases todo with
      | nil =>
        have entered : Entered p i called m core := before.entered rfl
        simp only [step] at ran
        split at ran
        · cases ran
          exact ⟨called_entry entered p.ra,
            off fun y out => store_of_not_within _ fun inside => out (pushed_return entered inside)⟩
        · cases ran
          exact ⟨entered,still rfl⟩
      | cons o rest =>
        obtain ⟨c',rfl,keeps,same⟩ := block_next before ran
        exact ⟨keeps,off same⟩
    | _ => cases todo <;> cases ran
  | vmm =>
    cases x with
    | poke a v =>
      obtain ⟨may,ran⟩ := Option.ite_none_right_eq_some.mp ran
      cases ran
      refine ⟨⟨base_poke (l := ⟨.vmm,core,called⟩) may before.base,
          saved_poke (l := ⟨.vmm,core,called⟩) may ?_ before.saved,before.rsp⟩,
        poked a v may rfl⟩
      exact (Nat.min_le_right _ _).trans (by rw [before.rsp])
    | resume regs gsBase fsBase =>
      cases ran
      refine ⟨restores ⟨⟨before.base.kernGsBase,before.base.slot⟩,before.saved,?_⟩,still rfl⟩
      change Function.update regs .rsp (core.regs .rsp) .rsp = p.top i - 32
      rw [Function.update_self]
      exact before.rsp
    | _ => cases ran
  | syscall_entry =>
    cases x with
    | poke a v =>
      obtain ⟨may,ran⟩ := Option.ite_none_right_eq_some.mp ran
      cases ran
      obtain ⟨base,saved,rsp⟩ := before
      refine ⟨⟨base_poke (l := ⟨.syscall_entry,core,called⟩) may base,
          saved_poke (l := ⟨.syscall_entry,core,called⟩) may ?_ saved,rsp⟩,
        poked a v may rfl⟩
      refine (Nat.min_le_right _ _).trans ?_
      obtain ⟨low,high⟩ := top_bounds p i
      change (core.regs .rsp - p.page i).toNat ≤ _
      rw [rsp]
      bv_omega
    | resume regs gsBase fsBase =>
      cases ran
      obtain ⟨base,saved,rsp⟩ := before
      refine ⟨restores ⟨⟨base.kernGsBase,base.slot⟩,saved,?_⟩,still rfl⟩
      change core.regs .rsp + 8 = _
      rw [rsp]
      bv_omega
    | leave =>
      cases ran
      exact ⟨before.1,still rfl⟩
    | _ => cases ran
  | fin todo =>
    cases x with
    | run =>
      cases todo with
      | nil =>
        cases ran
        exact ⟨(before rfl).base,still rfl⟩
      | cons o rest =>
        obtain ⟨c',rfl,keeps,same⟩ := block_next before ran
        exact ⟨keeps,off same⟩
    | _ => cases todo <;> cases ran

theorem all_local (small : ∀ i, (p.tsc i).toNat < 2 ^ 32) {s : State n} (reach : Reachable p.system s) (i : Fin n) :
    Local p i s.shared (s.loc i) := by
  refine Reach.apart (Owns p) (Local p) ?_ ?_ ?_ reach i
  · intro s first i
    obtain ⟨pc,regs⟩ := first i
    unfold Local
    rw [pc]
    exact boots (small i) _ regs
  · exact fun i m m' l agree => Local.frame agree
  · exact fun i x m l m' l' before ran => before.next ran

/-! ### Alone -/

/-- Code that runs to its end. -/
theorem block_alone {k : List Micro → Pc}
    (steps : ∀ o rest m c called, step p i .run m ⟨k (o :: rest),c,called⟩ = (o.exec m c).map fun r => (r.1,⟨k rest,r.2,called⟩))
    {todo : List Micro} {m m' : Memory} {c c' : Core} (called : Reg → Word) (ran : run todo m c = some (m',c')) :
    Alone p i (m,⟨k todo,c,called⟩) (m',⟨k [],c',called⟩) := by
  induction todo generalizing m c with
  | nil =>
    cases ran
    exact .refl
  | cons o rest ih =>
    obtain ⟨r,exec,ran⟩ := Option.bind_eq_some_iff.mp ran
    refine .head ⟨.run,?_⟩ (ih ran)
    rw [steps,exec]
    rfl

theorem fin_alone {called : Reg → Word} {todo : List Micro} {m : Memory} {c : Core}
    (ends : Ends (Owns p i) (Restored p i called) todo m c) :
    ∃ r, Alone p i (m,⟨.fin todo,c,called⟩) r ∧ r.2.pc = .fin [] ∧ r.2.called = called := by
  obtain ⟨m',c',ran,-⟩ := ends.run
  exact ⟨_,block_alone (fun _ _ _ _ _ => rfl) called ran,rfl,rfl⟩

theorem Local.returns {m : Memory} {l : Vcpu} (right : Local p i m l) (busy : inSyscall l = true) :
    ∃ r, Alone p i (m,l) r ∧ r.2.pc = .fin [] ∧ r.2.called = l.called := by
  -- Where the code waits for the VMM or for C code, that returns.
  have resumes : ∀ {m l} (regs : Reg → Word), Local p i m l → l.pc = .vmm ∨ l.pc = .syscall_entry →
      ∃ r, Alone p i (m,l) r ∧ r.2.pc = .fin [] ∧ r.2.called = l.called := by
    rintro m ⟨pc,core,called⟩ regs right (rfl | rfl)
    · obtain ⟨r,rest,last⟩ := fin_alone (right.next (x := .resume regs 0 0) rfl).1
      exact ⟨r,.head ⟨.resume regs 0 0,rfl⟩ rest,last⟩
    · obtain ⟨r,rest,last⟩ := fin_alone (right.next (x := .resume regs 0 0) rfl).1
      exact ⟨r,.head ⟨.resume regs 0 0,rfl⟩ rest,last⟩
  obtain ⟨pc,core,called⟩ := l
  cases pc with
  | long_mode todo => cases busy
  | user => cases busy
  | entry todo =>
    obtain ⟨m1,c1,ran,last⟩ := Keeps.run right
    have start : Alone p i (m,⟨.entry todo,core,called⟩) (m1,⟨.entry [],c1,called⟩) :=
      block_alone (fun _ _ _ _ _ => rfl) called ran
    have jumps : ∃ m2 l2, step p i .run m1 ⟨.entry [],c1,called⟩ = some (m2,l2) ∧ (l2.pc = .vmm ∨ l2.pc = .syscall_entry) ∧
        l2.called = called := by
      by_cases greater : c1.greater
      · exact ⟨_,_,if_pos greater,.inr rfl,rfl⟩
      · exact ⟨_,_,if_neg greater,.inl rfl,rfl⟩
    obtain ⟨m2,l2,jump,waits,same⟩ := jumps
    have next : Local p i m2 l2 := (Local.next (l := ⟨.entry [],c1,called⟩) last jump).1
    obtain ⟨r,rest,done,kept⟩ := resumes c1.regs next waits
    exact ⟨r,start.trans (.head ⟨.run,jump⟩ rest),done,kept.trans same⟩
  | vmm => exact resumes core.regs right (.inl rfl)
  | syscall_entry => exact resumes core.regs right (.inr rfl)
  | fin todo => exact fin_alone right

theorem Local.moves {m : Memory} {l : Vcpu} (right : Local p i m l) : ∃ x r, step p i x m l = some r := by
  obtain ⟨pc,core,called⟩ := l
  -- Where there is a next access, it succeeds.
  have block : ∀ {P o rest}, Keeps (Owns p i) P (o :: rest) m core → ∃ r, o.exec m core = some r := fun keeps => by
    obtain ⟨m',c',exec,-⟩ := keeps.step
    exact ⟨_,exec⟩
  cases pc with
  | long_mode todo =>
    cases todo with
    | nil => exact ⟨.run,_,rfl⟩
    | cons o rest =>
      obtain ⟨r,exec⟩ := block right
      exact ⟨.run,_,congrArg (Option.map _) exec⟩
  | user => exact ⟨.resume core.regs 0 0,_,rfl⟩
  | entry todo =>
    cases todo with
    | nil =>
      by_cases greater : core.greater
      · exact ⟨.run,_,if_pos greater⟩
      · exact ⟨.run,_,if_neg greater⟩
    | cons o rest =>
      obtain ⟨r,exec⟩ := block right
      exact ⟨.run,_,congrArg (Option.map _) exec⟩
  | vmm => exact ⟨.resume core.regs 0 0,_,rfl⟩
  | syscall_entry => exact ⟨.resume core.regs 0 0,_,rfl⟩
  | fin todo =>
    cases todo with
    | nil => exact ⟨.run,_,rfl⟩
    | cons o rest =>
      obtain ⟨r,exec⟩ := block right
      exact ⟨.run,_,congrArg (Option.map _) exec⟩

theorem Local.context {s : State n} (right : Local p i s.shared (s.loc i)) : Context p s i := by
  refine ⟨?_,?_,?_,?_,right.returns,?_⟩
  · obtain ⟨x,r,ran⟩ := right.moves
    exact ⟨x,_,by simp only [Setup.system,threads,ran]; rfl⟩
  · intro pc
    unfold Local at right
    rw [pc] at right
    have booted := right rfl
    exact ⟨booted.base.kernGsBase,booted.fsBase,booted.base.slot⟩
  · exact fun j other x mine mine' => own_apart other (.inr (.inl mine)) (.inr (.inl mine'))
  · intro pc
    unfold Local at right
    rw [pc] at right
    have switched := right.now.switched rfl
    exact ⟨switched.user,switched.rsp⟩
  · intro pc
    unfold Local at right
    rw [pc] at right
    exact (right rfl).regs

/-- If vCPU `i` never gets stuck, it gets to the end of `long_mode`. -/
theorem block_ends {m0 : Memory} {l0 : Vcpu} (moves : ∀ r, Alone p i (m0,l0) r → ∃ x r', step p i x r.1 r.2 = some r')
    {todo : List Micro} {m : Memory} {c : Core} {called : Reg → Word}
    (reach : Alone p i (m0,l0) (m,⟨.long_mode todo,c,called⟩)) :
    ∃ m' c', run todo m c = some (m',c') := by
  induction todo generalizing m c with
  | nil => exact ⟨m,c,rfl⟩
  | cons o rest ih =>
    obtain ⟨x,r,ran⟩ := moves _ reach
    cases x with
    | run =>
      obtain ⟨r,exec,rfl⟩ := Option.map_eq_some_iff.mp ran
      obtain ⟨m',c',later⟩ := ih (reach.tail ⟨.run,ran⟩)
      exact ⟨m',c',by rw [run,exec]; exact later⟩
    | _ => cases ran

/-- Whatever the counter is, `long_mode` writes its upper half. -/
theorem long_mode_writes {m m' : Memory} {c c' : Core} (start : c.regs = p.regs i)
    (ran : run (long_mode p.kern_stack (p.tsc i) (p.aux i)) m c = some (m',c')) :
    c'.kernGsBase = written p i (p.kernSlot i) := by
  obtain ⟨m1,c1,ran1,found⟩ := (finds m start).run
  obtain ⟨m2,c2,ran2,filled⟩ := (fills m1 (found rfl)).run
  rw [long_mode,run_append,ran1,Option.bind_some,run_append,ran2,Option.bind_some] at ran
  obtain ⟨kern,fs⟩ := canonical_of_sets (filled rfl) (by rw [ran]; rfl)
  obtain ⟨m3,c3,ran3,wrote⟩ := (sets m2 (filled rfl) kern fs).run
  rw [ran] at ran3
  cases ran3
  exact (wrote rfl).kern

def Setup.start (p : Setup n) : State n :=
  ⟨fun _ => 0,fun i => ⟨.long_mode (long_mode p.kern_stack (p.tsc i) (p.aux i)),⟨p.regs i,0,false,0,0,0⟩,p.regs i⟩⟩

/-- The system calls of all vCPUs are right, in any interleaving, exactly if at its boot
    no counter had reached 2³²: `edx` has the upper half of the counter when `long_mode`
    writes the MSRs. -/
theorem syscall_context_iff (p : Setup n) :
    (∀ s, Reachable p.system s → ∀ i, Context p s i) ↔ ∀ i, (p.tsc i).toNat < 2 ^ 32 := by
  constructor
  · intro right i
    have first : Reachable p.system p.start := .init fun i => ⟨rfl,rfl⟩
    have moves : ∀ r, Alone p i (p.start.shared,p.start.loc i) r → ∃ x r', step p i x r.1 r.2 = some r' := by
      intro r alone
      obtain ⟨x,t,moved⟩ := (right _ (first.alone alone) i).moves
      obtain ⟨m',l',ran,-⟩ := threads_step moved
      simp only [Function.update_self] at ran
      exact ⟨x,_,ran⟩
    obtain ⟨m',c',ran⟩ := block_ends moves .refl
    have ends := first.alone (block_alone (p := p) (i := i) (k := .long_mode) (fun _ _ _ _ _ => rfl) (p.regs i) ran)
    obtain ⟨kern,-,-⟩ := (right _ ends i).msrs (by simp only [Function.update_self])
    simp only [Function.update_self] at kern
    rw [long_mode_writes rfl ran] at kern
    exact (high_low _ _ (kernSlot_low p i)).mp kern
  · intro small s reach i
    exact (all_local small reach i).context

/-- One vCPU, whose counter has just reached 2³². -/
def late : Setup 1 where
  kern_stack := 0x100000
  ra := 0x2000
  page _ := 0x200000
  regs _ := fun r => if r = .rsp then 0x201000 else 0
  tsc _ := 0x100000000
  aux _ := 0
  low := by decide
  small _ := by decide
  distinct i j _ := Subsingleton.elim i j
  aligned _ := by decide
  pages i j _ := Subsingleton.elim i j
  inside _ := by decide
  apart _ x inside page := by
    unfold Within at *
    bv_omega

def booted (s : State 1) : Option (Word × Word) :=
  match (s.loc 0).pc with
  | .long_mode [] => some ((s.loc 0).core.kernGsBase,(s.loc 0).core.fsBase)
  | _ => none

/-- Its `KERN_GS_BASE` is 4 GiB above its slot, and its `FS_BASE` 4 GiB above the shared data. -/
theorem kern_gs_base_late : ∃ s, Reachable late.system s ∧ booted s = some (0x100100000,0x140000000) ∧
    ¬ Context late s 0 := by
  have first : late.system.init late.start := fun i => ⟨rfl,rfl⟩
  have ran : (exec late.system late.start (List.replicate 28 (0,.run))).any
      (fun s => booted s = some (0x100100000,0x140000000)) = true := by
    decide +kernel
  obtain ⟨s,reach,holds⟩ := exec_exists first (fun _ _ _ => trivial) ran
  have msrs := of_decide_eq_true holds
  refine ⟨s,reach,msrs,fun right => ?_⟩
  unfold booted at msrs
  split at msrs
  · rename_i pc
    simp only [Option.some.injEq,Prod.mk.injEq] at msrs
    have fs := (right.msrs pc).2.1
    rw [msrs.2] at fs
    exact absurd fs (by decide)
  · cases msrs

end

end Bootcode.Syscall
