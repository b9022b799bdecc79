import Bootcode.Descriptors
import Bootcode.Idt

/-!
The ways into ring 3 and out of it: the selectors in `jump_usermode`, in the MSR
`STAR` and in the gates, and the descriptors that they name. Every vCPU fills the two
user descriptors anew, outside the mutex. If no two do so at once, each vCPU can go
all the ways once it has booted.
-/
namespace Bootcode.Rings
open Bootcode.Bytes Bootcode.Mutex Bootcode.Interleave Bootcode.InitBoot Bootcode.Descriptors

abbrev Selector := BitVec 16

/-- What 64-bit mode reads of a code or data descriptor. -/
structure Segment where
  type : BitVec 4
  s : BitVec 1
  dpl : BitVec 2
  present : BitVec 1
  l : BitVec 1
  d : BitVec 1
  deriving DecidableEq

def entry (mem : Memory) (i : Nat) : Segment where
  type := word mem (gdt_start i) 40 4
  s := word mem (gdt_start i) 44 1
  dpl := word mem (gdt_start i) 45 2
  present := word mem (gdt_start i) 47 1
  l := word mem (gdt_start i) 53 1
  d := word mem (gdt_start i) 54 1

/-- The descriptor that a selector names. -/
def named (mem : Memory) (selector : Selector) : Segment := entry mem (selector >>> 3).toNat
def rpl (selector : Selector) : BitVec 2 := selector.setWidth 2

/-- A segment for 64-bit code of a ring, and one for its stack. -/
def Segment.code64 (g : Segment) (ring : BitVec 2) : Bool :=
  g.s = 1 && g.type.getLsbD 3 && !g.type.getLsbD 2 && g.dpl = ring && g.present = 1 && g.l = 1 && g.d = 0
def Segment.stack (g : Segment) (ring : BitVec 2) : Bool :=
  g.s = 1 && !g.type.getLsbD 3 && g.type.getLsbD 1 && g.dpl = ring && g.present = 1

/-- `iretq` with these on the stack: the ring that it goes to, if it does not fault. -/
def iretq (mem : Memory) (cs ss : Selector) : Option (BitVec 2) :=
  if (named mem cs).code64 (rpl cs) && rpl ss = rpl cs && (named mem ss).stack (rpl cs) then some (rpl cs) else none

/-- What `syscall` loads into `rip`, `cs` and `ss`, from the MSRs alone. -/
def syscall (msr : Nat → Word) : Word × Selector × Selector :=
  let call := (msr MSR_STAR).extractLsb' 32 16
  (msr MSR_LSTAR,call &&& 0xFFFC,call + 8)
/-- What `sysretq` loads into `cs` and `ss`. -/
def sysretq (msr : Nat → Word) : Selector × Selector :=
  let ret := (msr MSR_STAR).extractLsb' 48 16
  (ret + 16 ||| 3,ret + 8 ||| 3)

/-- The `cs` and `ss` that `jump_usermode` pushes. -/
def jump_usermode : Selector × Selector := (0x20 ||| 3,0x18 ||| 3)

/-- The stack for an interrupt in ring 3, by the TSS in the task register. -/
def rsp0 (b : Image) (mem : Memory) (tr : SysSegment) : Word :=
  word mem (fun k => .tss_seg ((tr.base - b.tss_seg).toNat + k)) TssEntry.rsp0.lo 64

/-- A vCPU can go to ring 3, and from there into the kernel by `syscall` and through
    each gate, and back. -/
structure Ways (b : Image) (id : Nat) (mem : Memory) (l : Vcpu) : Prop where
  enter : iretq mem jump_usermode.1 jump_usermode.2 = some 3
  call : (syscall l.msr).1 = b.syscall_entry
  kernel : (named mem (syscall l.msr).2.1).code64 0 = true ∧ (named mem (syscall l.msr).2.2).stack 0 = true
  back : sysretq l.msr = jump_usermode
  gates : ∀ T i, (named mem (Idt.filled T i).selector).code64 0 = true
  tss : ∃ tr, l.tr = some tr ∧ rsp0 b mem tr = b.kern_stack id

/-- `gdt64` of the image, up to the user descriptors. -/
def gdt64 (i : Nat) : Word := if i = 1 then 0x00AF98000000FFFF else if i = 2 then 0x00CF92000000FFFF else 0

def Template (mem : Memory) : Prop := ∀ i < 3, word mem (gdt_start i) 0 64 = gdt64 i

/-- The memory has in the user descriptors what `fill_user_mode_gdt` leaves there. -/
def Filled (mem : Memory) : Prop := ∃ old, ∀ a, User a → mem a = runs fill_user_mode_gdt old a

theorem word_part (mem : Memory) (p : Nat → Cell) {lo w n : Nat} (inside : lo + w ≤ n) :
    word mem p lo w = (word mem p 0 n).extractLsb' lo w := by
  apply BitVec.eq_of_getLsbD_eq
  intro i lt
  rw [getLsbD_word,BitVec.getLsbD_extractLsb',getLsbD_word,Nat.zero_add]
  simp [lt,show lo + i < n by omega]

/-- An entry by its eight bytes. -/
def Segment.ofWord (w : Word) : Segment :=
  ⟨w.extractLsb' 40 4,w.extractLsb' 44 1,w.extractLsb' 45 2,w.extractLsb' 47 1,w.extractLsb' 53 1,w.extractLsb' 54 1⟩

theorem entry_eq (mem : Memory) (i : Nat) : entry mem i = .ofWord (word mem (gdt_start i) 0 64) := by
  unfold entry Segment.ofWord
  congr 1
  all_goals exact word_part mem _ (by decide)

theorem kernel_segments {mem : Memory} (template : Template mem) :
    (entry mem 1).code64 0 = true ∧ (entry mem 2).stack 0 = true := by
  rw [entry_eq,entry_eq,template 1 (by decide),template 2 (by decide)]
  decide

/-- The stores of a program to bytes of one entry. -/
def Only (j : Nat) (ops : List (Store Cell)) : Prop := ∀ op ∈ ops, ∃ k < sizeof_gdt_entry_t, op.addr = gdt_start j k

theorem only_assign (j v : Nat) {f : Field} (fits : (f.lo + f.width - 1) / 8 + 1 ≤ sizeof_gdt_entry_t) :
    Only j (f.assign (gdt_start j) v) := by
  intro op member
  obtain ⟨k,at',-,below⟩ := addr_assign member
  exact ⟨k,by omega,at'⟩

theorem only_memset (j : Nat) : Only j (memset (gdt_start j) 0 sizeof_gdt_entry_t) := by
  intro op member
  obtain ⟨k,at',below⟩ := addr_memset member
  exact ⟨k,below,at'⟩

/-- They leave the other entries as they are. -/
theorem Only.apart {j : Nat} {ops : List (Store Cell)} (only : Only j ops) {i : Nat} (other : i ≠ j) (mem : Memory) :
    word (runs ops mem) (gdt_start i) 0 64 = word mem (gdt_start i) 0 64 := by
  refine word_congr fun t _ lt => ?_
  unfold bit
  rw [runs_out]
  intro op member same
  obtain ⟨k,inside,at'⟩ := only op member
  have offsets := Cell.gdt64.inj (at'.symm.trans same)
  simp only [sizeof_gdt_entry_t] at offsets inside
  omega

theorem word_CS (mem : Memory) : word (runs (init_CS (gdt_start 4) ++ CS.DPL.assign (gdt_start 4) 3) mem)
    (gdt_start 4) 0 64 =
    0x0020F80000000000 := by
  have inj := gdt_start_inj 4
  apply BitVec.eq_of_getLsbD_eq
  intro t lt
  rw [getLsbD_word,decide_eq_true lt,Bool.true_and,Nat.zero_add]
  simp only [init_CS,runs_append,bit_assign inj,bit_memset inj,sizeof_gdt_entry_t,lt,if_true]
  revert t
  decide

theorem word_DS (mem : Memory) : word (runs (init_DS (gdt_start 3) ++ DS.DPL.assign (gdt_start 3) 3) mem)
    (gdt_start 3) 0 64 =
    0x0000F20000000000 := by
  have inj := gdt_start_inj 3
  apply BitVec.eq_of_getLsbD_eq
  intro t lt
  rw [getLsbD_word,decide_eq_true lt,Bool.true_and,Nat.zero_add]
  simp only [init_DS,runs_append,bit_assign inj,bit_memset inj,sizeof_gdt_entry_t,lt,if_true]
  revert t
  decide

theorem user_segments {mem : Memory} (filled : Filled mem) :
    (entry mem 4).code64 3 = true ∧ (entry mem 3).stack 3 = true := by
  obtain ⟨old,same⟩ := filled
  have words : ∀ i, (i = 3 ∨ i = 4) → word mem (gdt_start i) 0 64 =
    word (runs fill_user_mode_gdt old) (gdt_start i) 0 64 := by
    intro i user
    refine word_congr fun t _ lt => ?_
    unfold bit
    rw [same]
    simp only [gdt_start,User,sizeof_gdt_entry_t]
    omega
  have ds : Only 3 (init_DS (gdt_start 3) ++ DS.DPL.assign (gdt_start 3) 3) := by
    intro op member
    simp only [init_DS,List.mem_append] at member
    rcases member with ((((is | is) | is) | is) | is) | is
    · exact only_memset 3 op is
    all_goals exact only_assign 3 _ (by decide) op is
  rw [entry_eq,entry_eq,words 4 (.inr rfl),words 3 (.inl rfl),fill_user_mode_gdt,List.append_assoc,runs_append,
    ds.apart (by decide),
    word_CS,word_DS]
  decide

/-! ### Runs -/

variable {n : Nat}

/-- From the GDT of the image. -/
def system (v : Vcpus n) : System (State n) (Fin n × Unit) :=
  { v.system with init := fun s => v.system.init s ∧ Template s.shared.mem }

def inUser (l : Vcpu) : Bool :=
  match l.pc with
  | .user _ => true
  | _ => false

/-- The vCPU has filled the user descriptors. -/
def past (l : Vcpu) : Bool :=
  match l.pc with
  | .msrs _ | .sti | .done => true
  | _ => false

/-- A vCPU begins to fill them only when no other is doing so. -/
def oneByOne (s : State n) (a : Fin n × Unit) : Bool :=
  match (s.loc a.1).pc with
  | .unlock => ∀ j, inUser (s.loc j) = false
  | _ => true

/-- What vCPU `i` relies on while it fills them. -/
def Filling (mem : Memory) (l : Vcpu) : Prop :=
  match l.pc with
  | .user p => p.Fresh mem ∧ ∃ old, ∀ a, User a → runs p.todo mem a = runs fill_user_mode_gdt old a
  | _ => True

/-- The TSS of a vCPU past its `ltr` names its stack. -/
def Tss (b : Image) (id : Nat) (mem : Memory) (l : Vcpu) : Prop :=
  loaded l = true → word mem (tss_seg id) TssEntry.rsp0.lo 64 = b.kern_stack id

structure Serial (v : Vcpus n) (s : State n) : Prop where
  inv : Inv v s
  template : Template s.shared.mem
  tss : ∀ i, Tss v.toImage (v.id i) s.shared.mem (s.loc i)
  alone : ∀ i j, inUser (s.loc i) = true → inUser (s.loc j) = true → i = j
  filling : ∀ i, Filling s.shared.mem (s.loc i)
  filled : (∀ i, inUser (s.loc i) = false) → (∃ i, past (s.loc i) = true) → Filled s.shared.mem

/-- Outside `fill_user_mode_gdt` the user descriptors are not stored to. -/
theorem user_frame {b : Image} {id : Nat} {m m' : Machine} {l l' : Vcpu} (relies : Local b id m.mem l)
    (ran : init_boot b id m l = some (m',l')) (out : inUser l = false) : ∀ a, User a → m'.mem a = m.mem a := by
  intro a user
  obtain ⟨pc,stack_addr,tr,msr,intr⟩ := l
  cases pc with
  | fill p =>
    obtain ⟨-,own,-⟩ := relies
    simp only [init_boot] at ran
    cases stepped : p.step m.mem with
    | none =>
      rw [stepped] at ran
      cases ran
      rfl
    | some r =>
      rw [stepped] at ran
      cases ran
      exact (Progress.step_frame stepped).2 a fun op member at' => own_user (own op member) (at' ▸ user)
  | ltr =>
    obtain ⟨⟨mem,d⟩,loads,same⟩ := Option.map_eq_some_iff.mp ran
    cases same
    obtain ⟨-,rfl⟩ := ltr_some loads
    exact runs_out (fun op member at' => own_user (busy_own member) (at' ▸ user)) _
  | user p => cases out
  | msrs todo => cases todo <;> cases ran <;> rfl
  | done => cases ran
  | _ => cases ran; rfl

theorem never {P : Prop} : false = true → P := fun is => absurd is Bool.false_ne_true

/-- Where a vCPU that fills them comes from, and one that has done so. -/
theorem came {b : Image} {id : Nat} {m m' : Machine} {l l' : Vcpu} (ran : init_boot b id m l = some (m',l')) :
    (inUser l' = true → inUser l = true ∨ l.pc = .unlock) ∧ (past l' = true → past l = true ∨ inUser l = true) := by
  obtain ⟨pc,stack_addr,tr,msr,intr⟩ := l
  cases pc with
  | lock k =>
    cases ran
    cases (mutex_lock id k m.mutex_tss_fill_flush).2 <;> exact ⟨never,never⟩
  | fill p =>
    simp only [init_boot] at ran
    split at ran <;> cases ran <;> exact ⟨never,never⟩
  | ltr =>
    obtain ⟨r,-,same⟩ := Option.map_eq_some_iff.mp ran
    cases same
    exact ⟨never,never⟩
  | unlock => cases ran; exact ⟨fun _ => .inr rfl,never⟩
  | user p => exact ⟨fun _ => .inl rfl,fun _ => .inr rfl⟩
  | msrs todo => cases todo <;> cases ran <;> exact ⟨never,fun _ => .inl rfl⟩
  | sti => cases ran; exact ⟨never,fun _ => .inl rfl⟩
  | start => cases ran; exact ⟨never,never⟩
  | done => cases ran

/-- What a vCPU makes of the user descriptors. -/
theorem filling_step {b : Image} {id : Nat} {m m' : Machine} {l l' : Vcpu} (filling : Filling m.mem l)
    (ran : init_boot b id m l = some (m',l')) :
    Filling m'.mem l' ∧ (inUser l = true → inUser l' = false → Filled m'.mem) := by
  obtain ⟨pc,stack_addr,tr,msr,intr⟩ := l
  cases pc with
  | user p =>
    obtain ⟨fresh,old,left⟩ := filling
    simp only [init_boot] at ran
    cases stepped : p.step m.mem with
    | none =>
      rw [stepped] at ran
      cases ran
      rw [Progress.step_none stepped] at left
      exact ⟨trivial,fun _ _ => ⟨old,left⟩⟩
    | some r =>
      rw [stepped] at ran
      cases ran
      obtain ⟨fresh',same⟩ := Progress.step_runs fresh stepped
      exact ⟨⟨fresh',old,fun a user => by rw [same]; exact left a user⟩,fun _ gone => never gone.symm⟩
  | unlock =>
    cases ran
    refine ⟨⟨?_,m.mem,fun _ _ => rfl⟩,never⟩
    intro op rest old _ loaded
    cases loaded
  | lock k =>
    cases ran
    cases (mutex_lock id k m.mutex_tss_fill_flush).2 <;> exact ⟨trivial,never⟩
  | fill p =>
    simp only [init_boot] at ran
    split at ran <;> cases ran <;> exact ⟨trivial,never⟩
  | ltr =>
    obtain ⟨r,-,same⟩ := Option.map_eq_some_iff.mp ran
    cases same
    exact ⟨trivial,never⟩
  | msrs todo => cases todo <;> cases ran <;> exact ⟨trivial,never⟩
  | done => cases ran
  | _ => cases ran; exact ⟨trivial,never⟩

theorem tss_step {b : Image} {id : Nat} {m m' : Machine} {l l' : Vcpu} (relies : Local b id m.mem l)
    (tss : Tss b id m.mem l) (ran : init_boot b id m l = some (m',l')) : Tss b id m'.mem l' := by
  obtain ⟨-,frame⟩ := step_local relies ran
  have kept : ∀ {mem mem' : Memory}, (∀ k < sizeof_tss_entry_t, mem' (tss_seg id k) = mem (tss_seg id k)) →
      word mem' (tss_seg id) TssEntry.rsp0.lo 64 = word mem (tss_seg id) TssEntry.rsp0.lo 64 := by
    intro mem mem' same
    refine word_congr fun t _ below => ?_
    simp only [TssEntry.rsp0] at below
    unfold bit
    rw [same _ (by simp only [sizeof_tss_entry_t]; omega)]
  obtain ⟨pc,stack_addr,tr,msr,intr⟩ := l
  intro is
  have same : fills ⟨pc,stack_addr,tr,msr,intr⟩ = false → loaded ⟨pc,stack_addr,tr,msr,intr⟩ = true →
      word m'.mem (tss_seg id) TssEntry.rsp0.lo 64 = b.kern_stack id := by
    intro idle was
    rw [← tss was]
    refine kept fun k inside => frame _ (own_user (own_tss inside)) fun storing => ?_
    rw [idle] at storing
    cases storing
  cases pc with
  | start => cases ran; cases is
  | lock k =>
    cases ran
    cases taken : (mutex_lock id k m.mutex_tss_fill_flush).2 <;> simp [loaded,taken] at is
  | fill p =>
    simp only [init_boot] at ran
    split at ran <;> cases ran <;> cases is
  | ltr =>
    obtain ⟨old,left⟩ := relies
    obtain ⟨⟨mem,d⟩,loads,next⟩ := Option.map_eq_some_iff.mp ran
    cases next
    obtain ⟨-,rfl⟩ := ltr_some loads
    rw [← rsp0_fill b id old]
    refine kept fun k inside => (runs_out ?_ _).trans (left _ (own_tss inside))
    intro op member at'
    obtain ⟨k',there,-⟩ := addr_assign member
    cases there.symm.trans at'
  | _ => exact same rfl rfl

/-- Nobody stores to the descriptors of the kernel. -/
theorem template_frame {b : Image} {id : Nat} {m m' : Machine} {l l' : Vcpu} (relies : Local b id m.mem l)
    (ran : init_boot b id m l = some (m',l')) (template : Template m.mem) : Template m'.mem := by
  intro i lt
  rw [← template i lt]
  refine word_congr fun t _ below => ?_
  unfold bit
  rw [(step_local relies ran).2]
  · simp only [gdt_start,User,sizeof_gdt_entry_t]
    omega
  · intro _
    simp only [gdt_start,Own,sizeof_gdt_entry_t]
    omega

theorem Filling.frame {mem mem' : Memory} {l : Vcpu} (filling : Filling mem l)
    (user : ∀ p, l.pc = .user p → ∀ op ∈ p.todo, User op.addr)
    (same : ∀ a, User a → mem' a = mem a) : Filling mem' l := by
  obtain ⟨pc,stack_addr,tr,msr,intr⟩ := l
  cases pc with
  | user p =>
    obtain ⟨fresh,old,left⟩ := filling
    refine ⟨?_,old,fun a is => (runs_congr same a is).trans (left a is)⟩
    intro op rest x todo loaded
    rw [same _ (user p rfl op (by rw [todo]; exact .head _))]
    exact fresh op rest x todo loaded
  | _ => trivial

theorem Serial.step {v : Vcpus n} {s s' : State n} {a : Fin n × Unit} (before : Serial v s) (good : oneByOne s a = true)
    (moved : v.system.step s a = some s') : Serial v s' := by
  obtain ⟨i,x⟩ := a
  have inv := before.inv.step moved
  obtain ⟨m',l',ran,shared,after,others⟩ := threads_moved moved
  have relies := before.inv.each i
  rw [← shared,← after] at ran
  have frame := user_frame relies ran
  obtain ⟨entered,left⟩ := came ran
  have clear : (s.loc i).pc = .unlock → ∀ j, inUser (s.loc j) = false := by
    intro leaves
    unfold oneByOne at good
    rw [leaves] at good
    exact of_decide_eq_true good
  have elsewhere : ∀ j, j ≠ i → inUser (s'.loc j) = inUser (s.loc j) := fun j other => by rw [others j other]
  refine ⟨inv,template_frame relies ran before.template,?_,?_,?_,?_⟩
  · refine forall_of_others (P := fun j l => Tss v.toImage (v.id j) s'.shared.mem l) others
      (tss_step relies (before.tss i) ran) ?_
    intro j other is
    rw [← before.tss j is]
    refine word_congr fun t _ below => ?_
    simp only [TssEntry.rsp0] at below
    unfold bit
    rw [(step_local relies ran).2 _ (own_user (own_tss (by simp only [sizeof_tss_entry_t]; omega))) fun _ own => ?_]
    have ids : v.id j = v.id i := by
      simp only [tss_seg,Own,sizeof_tss_entry_t] at own
      omega
    exact other (v.distinct ids)
  · -- Whoever begins finds nobody there.
    have unlike : ∀ j, j ≠ i → inUser (s'.loc i) = true → inUser (s'.loc j) = true → False := by
      intro j other mine theirs
      rw [elsewhere j other] at theirs
      rcases entered mine with was | leaves
      · exact other (before.alone j i theirs was)
      · have none := clear leaves j
        rw [theirs] at none
        cases none
    intro j k isJ isK
    by_cases mine : j = i
    · by_contra other
      subst mine
      exact unlike k (Ne.symm other) isJ isK
    · by_cases mine' : k = i
      · subst mine'
        exact (unlike j mine isK isJ).elim
      · rw [elsewhere j mine] at isJ
        rw [elsewhere k mine'] at isK
        exact before.alone j k isJ isK
  · intro j
    by_cases mine : j = i
    · rw [mine]
      exact (filling_step (before.filling i) ran).1
    · rw [others j mine]
      by_cases busy : inUser (s.loc j) = true
      · -- Then the vCPU that moves is not there.
        have out : inUser (s.loc i) = false := by
          by_contra is
          exact mine (before.alone j i busy (by simpa using is))
        refine (before.filling j).frame (fun p at' => ?_) (frame out)
        have relies := before.inv.each j
        rw [Local,at'] at relies
        exact relies.2
      · unfold Filling
        unfold inUser at busy
        split
        · rename_i at'
          rw [at'] at busy
          exact absurd rfl busy
        · trivial
  · intro none some
    obtain ⟨j,is⟩ := some
    by_cases busy : inUser (s.loc i) = true
    · exact (filling_step (before.filling i) ran).2 busy (none i)
    · have out : inUser (s.loc i) = false := by simpa using busy
      have quiet : ∀ k, inUser (s.loc k) = false := by
        intro k
        by_cases mine : k = i
        · rw [mine]
          exact out
        · rw [← elsewhere k mine]
          exact none k
      have done : ∃ k, past (s.loc k) = true := by
        by_cases mine : j = i
        · subst mine
          exact ⟨j,(left is).resolve_right busy⟩
        · rw [others j mine] at is
          exact ⟨j,is⟩
      obtain ⟨old,same⟩ := before.filled quiet done
      exact ⟨old,fun a user => (frame out a user).trans (same a user)⟩

theorem Serial.start {v : Vcpus n} {s : State n} (first : (system v).init s) : Serial v s := by
  obtain ⟨first,template⟩ := first
  have pc := first.2
  refine ⟨.start first,template,fun i is => ?_,fun i j is => ?_,fun i => ?_,fun _ some => ?_⟩
  · simp [loaded,pc i] at is
  · simp [inUser,pc i] at is
  · simp [Filling,pc i]
  · obtain ⟨i,is⟩ := some
    simp [past,pc i] at is

theorem halves_join (w : Word) : (w >>> 32).setWidth 32 ++ w.setWidth 32 = w := by
  apply BitVec.eq_of_getLsbD_eq
  intro t lt
  rw [BitVec.getLsbD_append,BitVec.getLsbD_setWidth,BitVec.getLsbD_setWidth,BitVec.getLsbD_ushiftRight]
  by_cases low : t < 32
  · simp [low]
  · simp [low,show 32 + (t - 32) = t by omega,show t - 32 < 32 by omega]

theorem serial {v : Vcpus n} {s : State n} (reach : Reach (system v) (fun s a => oneByOne s a = true) s) : Serial v s :=
  reach.invariant (fun _ first => .start first) fun _ _ _ _ before good moved => before.step good moved

theorem named_eq (mem : Memory) {selector : Selector} {i : Nat} (index : (selector >>> 3).toNat = i) :
    named mem selector = entry mem i := by
  rw [named,index]

theorem iretq_user {mem : Memory} (code : (entry mem 4).code64 3 = true) (stack : (entry mem 3).stack 3 = true) :
    iretq mem jump_usermode.1 jump_usermode.2 = some 3 := by
  have cs : rpl jump_usermode.1 = 3 := by decide
  have ss : rpl jump_usermode.2 = 3 := by decide
  have fine : (named mem jump_usermode.1).code64 3 = true ∧ (named mem jump_usermode.2).stack 3 = true := by
    rw [named_eq mem (i := 4) (by decide),named_eq mem (i := 3) (by decide)]
    exact ⟨code,stack⟩
  rw [iretq,cs,ss,fine.1,fine.2]
  rfl

theorem rsp0_own (b : Image) {id : Nat} (small : id < 64) (mem : Memory) :
    rsp0 b mem (InitBoot.segment b id) = word mem (tss_seg id) TssEntry.rsp0.lo 64 := by
  have offset : (b.tss id - b.tss_seg).toNat = id * sizeof_tss_entry_t := by
    rw [Image.tss,BitVec.add_comm,BitVec.add_sub_cancel,BitVec.toNat_ofNat,sizeof_tss_entry_t]
    omega
  have base : (InitBoot.segment b id).base = b.tss id := rfl
  rw [rsp0,base,offset]
  rfl

/-- If the user descriptors are filled by one vCPU at a time, a vCPU that has booted can
    go all the ways, whenever nobody is filling them. -/
theorem ring_transitions {v : Vcpus n} {s : State n}
    (reach : Reach (system v) (fun s a => oneByOne s a = true) s) {i : Fin n} (booted : (s.loc i).pc = .done)
    (quiet : ∀ j, inUser (s.loc j) = false) : Ways v.toImage (v.id i) s.shared.mem (s.loc i) := by
  have inv := serial reach
  obtain ⟨code,stack⟩ := user_segments (inv.filled quiet ⟨i,by simp [past,booted]⟩)
  obtain ⟨kcode,kstack⟩ := kernel_segments inv.template
  have relies := inv.inv.each i
  rw [Local,booted] at relies
  obtain ⟨tr,msrs,-⟩ := relies
  have star : (s.loc i).msr MSR_STAR = 0x0013000800000000 := (msrs _ (List.mem_cons_self ..)).trans (by decide)
  have lstar : (s.loc i).msr MSR_LSTAR = v.syscall_entry :=
    (msrs _ (List.mem_cons_of_mem _ (List.mem_cons_self ..))).trans (halves_join _)
  have selectors : (syscall (s.loc i).msr).2 = (0x8,0x10) := by
    simp only [syscall,star]
    decide
  constructor
  · exact iretq_user code stack
  · exact lstar
  · rw [selectors,named_eq _ (i := 1) (by decide),named_eq _ (i := 2) (by decide)]
    exact ⟨kcode,kstack⟩
  · unfold sysretq
    rw [star]
    decide
  · intro T g
    show (named s.shared.mem 8).code64 0 = true
    rw [named_eq _ (i := 1) (by decide)]
    exact kcode
  · refine ⟨_,tr,?_⟩
    rw [rsp0_own _ (v.small i)]
    exact inv.tss i (by simp [loaded,booted])

/-- The GDT of the image, with zeros behind it. -/
def image : Memory
  | .gdt64 o => byte (gdt64 (o / 8)).toNat (o % 8)
  | .tss_seg _ => 0

theorem image_template : Template image := by
  unfold Template
  decide +kernel

def twoStart : State 2 := ⟨⟨image,0⟩,fun _ => ⟨.start,0,none,fun _ => 0,false⟩⟩

def isDone (l : Vcpu) : Bool :=
  match l.pc with
  | .done => true
  | _ => false

theorem isDone_iff {l : Vcpu} (is : isDone l = true) : l.pc = .done := by
  unfold isDone at is
  split at is
  · assumption
  · cases is

/-- vCPU 1 has booted while vCPU 0 holds the mutex. -/
theorem ring_transitions_pair :
    ∃ s, Reachable (system pair) s ∧ Ways pair.toImage (pair.id 1) s.shared.mem (s.loc 1) := by
  have first : ((system pair).guard oneByOne).init twoStart := ⟨⟨rfl,fun _ => rfl⟩,image_template⟩
  let P : State 2 → Bool := fun s => isDone (s.loc 1) && decide (∀ j, inUser (s.loc j) = false)
  have ran : (exec ((system pair).guard oneByOne) twoStart
      (List.replicate 199 (1,()) ++ List.replicate 153 (0,()))).any P = true := by
    decide +kernel
  obtain ⟨s,reach,is⟩ := exec_exists first (fun _ _ _ => trivial) ran
  obtain ⟨booted,quiet⟩ := (Bool.and_eq_true ..).mp is
  exact ⟨s,reach.of_guard.mono fun _ _ _ => trivial,
    ring_transitions reach.of_guard (isDone_iff booted) (of_decide_eq_true quiet)⟩

/-- Without the condition two fills can spoil each other: vCPU 1 loads the byte with the
    type after vCPU 0 has cleared it, and stores it after vCPU 0 has set the bit that
    makes it code. -/
theorem fills_overlap : ∃ s, Reachable (system pair) s ∧ (∀ i, isDone (s.loc i) = true) ∧
    iretq s.shared.mem jump_usermode.1 jump_usermode.2 = none := by
  have first : (system pair).init twoStart := ⟨⟨rfl,fun _ => rfl⟩,image_template⟩
  let P : State 2 → Bool := fun s => decide (∀ i, isDone (s.loc i) = true) && decide (iretq s.shared.mem 0x23 0x1b = none)
  have ran : (exec (system pair) twoStart
      (List.replicate 165 (1,()) ++ List.replicate 163 (0,()) ++ [(1,()),(0,()),(0,()),(1,())] ++
      List.replicate 34 (0,()) ++ List.replicate 32 (1,()))).any P = true := by
    decide +kernel
  obtain ⟨s,reach,is⟩ := exec_exists first (fun _ _ _ => trivial) ran
  obtain ⟨booted,faults⟩ := (Bool.and_eq_true ..).mp is
  exact ⟨s,reach,of_decide_eq_true booted,of_decide_eq_true faults⟩

end Bootcode.Rings
