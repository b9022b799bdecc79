import Bootcode.InitBoot

/-!
What the vCPUs leave in the GDT. The descriptors of vCPUs `i` and `i + 1` share
eight bytes; whoever boots last overwrites half of the other's. Those of all other
pairs are apart.
-/
namespace Bootcode.Descriptors
open Bootcode.Bytes Bootcode.Mutex Bootcode.Interleave Bootcode.InitBoot

variable {n : Nat}

/-- The `fill_tss` call of vCPU `j` leaves the descriptor of vCPU `i` as it is. -/
def Spares (b : Image) (j i : Nat) : Prop :=
  ∀ mem k, k < sizeof_sys_desc_t → runs (fill b j) mem (gdt_start (i + 5) k) = mem (gdt_start (i + 5) k)

/-- No two of the numbers follow each other. -/
def Apart (v : Vcpus n) : Prop := ∀ i j, v.id j ≠ v.id i + 1

theorem desc_out {i j k : Nat} (apart : i + 1 < j ∨ j + 1 < i) (inside : k < sizeof_sys_desc_t) :
    ¬ Own j (gdt_start (i + 5) k) := by
  simp only [gdt_start,Own,sizeof_gdt_entry_t,sizeof_sys_desc_t] at *
  omega

theorem Apart.lt {v : Vcpus n} (apart : Apart v) {i j : Fin n} (other : j ≠ i) :
    v.id i + 1 < v.id j ∨ v.id j + 1 < v.id i := by
  have above := apart i j
  have below := apart j i
  have distinct : v.id j ≠ v.id i := fun same => other (v.distinct same)
  omega

theorem spares_of_apart (b : Image) {i j : Nat} (apart : i + 1 < j ∨ j + 1 < i) : Spares b j i := by
  intro mem k inside
  refine runs_out ?_ mem
  intro op member at'
  exact desc_out apart inside (at' ▸ fill_own member)

/-- Byte 6 of a filled descriptor has no bits of the limit, and byte 13 is reserved. -/
theorem limit_fill (b : Image) (id : Nat) (mem : Memory) : word (runs (fill b id) mem) (gdt_start (id + 5)) 48 4 = 0 := by
  have read := @word_assign _ _ _ (gdt_start_inj (id + 5))
  have skip := @word_assign_apart _ _ _ (gdt_start_inj (id + 5))
  simp (disch := decide) only [fill,fill_tss,runs_append,read,skip]
  rfl

theorem reserved_fill (b : Image) (id : Nat) (mem : Memory) :
    word (runs (fill b id) mem) (gdt_start (id + 5)) 111 1 = 0 := by
  have skip := @word_assign_apart _ _ _ (gdt_start_inj (id + 5))
  have zero := @word_memset _ _ _ (gdt_start_inj (id + 5))
  simp (disch := decide) only [fill,fill_tss,runs_append,skip,zero]

/-- The second half of a descriptor is the first half of the next one. -/
theorem word_next (mem : Memory) (i lo w : Nat) : word mem (gdt_start (i + 1 + 5)) lo w =
    word mem (gdt_start (i + 5)) (lo + 64) w := by
  apply BitVec.eq_of_getLsbD_eq
  intro t _
  have place : gdt_start (i + 1 + 5) ((lo + t) / 8) = gdt_start (i + 5) ((lo + 64 + t) / 8) := by
    simp only [gdt_start,sizeof_gdt_entry_t]
    congr 1
    omega
  have offset : (lo + 64 + t) % 8 = (lo + t) % 8 := by omega
  rw [getLsbD_word,getLsbD_word,bit,bit,place,offset]

/-- Neighbours do not spare each other. -/
theorem not_spares (b : Image) (i : Nat) : ¬ Spares b (i + 1) i := by
  intro spares
  have zero := limit_fill b (i + 1) fun _ => 0xFF
  rw [word_next] at zero
  have kept : word (runs (fill b (i + 1)) fun _ => 0xFF) (gdt_start (i + 5)) 112 4 =
    word (fun _ => 0xFF) (gdt_start (i + 5)) 112 4 := by
    refine word_congr fun t _ below => ?_
    unfold bit
    rw [spares _ (t / 8) (by simp only [sizeof_sys_desc_t]; omega)]
  rw [kept] at zero
  have one : bit (fun _ : Cell => (0xFF : Byte)) (gdt_start (i + 5)) (112 + 0) = true := by
    have ones : (0xFF : Byte).getLsbD 0 = true := by decide
    exact ones
  rw [bit_word _ _ (by decide : 0 < 4),zero] at one
  cases one

/-- The segment as `ltr` leaves it. -/
def busySegment (b : Image) (id : Nat) : SysSegment := { segment b id with type := 0xB }

/-- A vCPU past its `ltr`. -/
def loaded (l : Vcpu) : Bool :=
  match l.pc with
  | .unlock | .user _ | .msrs _ | .sti | .done => true
  | _ => false

/-- What `ltr` makes of the descriptor. -/
theorem decode_busy {b : Image} {id : Nat} {mem : Memory} (full : decode mem (gdt_start (id + 5)) = segment b id) :
    decode (runs (busy.assign (gdt_start (id + 5)) 1) mem) (gdt_start (id + 5)) = busySegment b id := by
  have inj := gdt_start_inj (id + 5)
  have skip := @word_assign_apart _ _ _ inj
  have type : word (runs (busy.assign (gdt_start (id + 5)) 1) mem) (gdt_start (id + 5)) 40 4 = 0xB := by
    have before : word mem (gdt_start (id + 5)) 40 4 = 0x9 := congrArg SysSegment.type full
    apply BitVec.eq_of_getLsbD_eq
    intro t inside
    have marked : ∀ t < 4, (decide (t < 4) && if 41 ≤ 40 + t ∧ 40 + t < 41 + 1 then Nat.testBit 1 (40 + t - 41) else
        (0x9 : BitVec 4).getLsbD t) = (0xB : BitVec 4).getLsbD t := by decide
    rw [getLsbD_word,bit_assign inj,bit_word mem _ inside,before]
    exact marked t inside
  have rest : { decode mem (gdt_start (id + 5)) with type := 0xB } = busySegment b id := by rw [full]; rfl
  rw [← rest]
  simp (disch := decide) only [decode,skip,type]

/-- Every vCPU past its `ltr` has its descriptor in the GDT. -/
structure Kept (v : Vcpus n) (s : State n) : Prop where
  inv : Inv v s
  desc : ∀ i, loaded (s.loc i) = true → decode s.shared.mem (gdt_start (v.id i + 5)) = busySegment v.toImage (v.id i)

/-- A vCPU that has its descriptor, or is about to load it, has it after its own step. -/
theorem own_kept {b : Image} {id : Nat} {m m' : Machine} {l l' : Vcpu} (relies : Local b id m.mem l)
    (kept : loaded l = true → decode m.mem (gdt_start (id + 5)) = busySegment b id)
    (ran : init_boot b id m l = some (m',l'))
    (is : loaded l' = true) : decode m'.mem (gdt_start (id + 5)) = busySegment b id := by
  obtain ⟨-,frame⟩ := step_local relies ran
  obtain ⟨pc,stack_addr,tr,msr,intr⟩ := l
  have same : fills ⟨pc,stack_addr,tr,msr,intr⟩ = false → loaded ⟨pc,stack_addr,tr,msr,intr⟩ = true →
      decode m'.mem (gdt_start (id + 5)) = busySegment b id := by
    intro idle was
    rw [← kept was]
    refine decode_congr fun k inside => frame _ (own_user (own_desc inside)) fun storing => ?_
    rw [idle] at storing
    cases storing
  cases pc with
  | start => cases ran; cases is
  | lock k =>
    cases ran
    cases taken : (mutex_lock id k m.mutex_tss_fill_flush).2 <;> simp [loaded,taken] at is
  | fill p =>
    simp only [init_boot] at ran
    split at ran <;> cases ran <;> cases is
  | ltr =>
    obtain ⟨old,left⟩ := relies
    obtain ⟨⟨mem,d⟩,loads,next⟩ := Option.map_eq_some_iff.mp ran
    cases next
    obtain ⟨-,rfl⟩ := ltr_some loads
    refine decode_busy ?_
    rw [← descriptor_flush_tss]
    exact descriptor_at_ltr left
  | _ => exact same rfl rfl

theorem Kept.step {v : Vcpus n} (apart : Apart v) {s s' : State n} {a : Fin n × Unit} (before : Kept v s)
    (moved : v.system.step s a = some s') : Kept v s' := by
  obtain ⟨i,x⟩ := a
  refine ⟨before.inv.step moved,?_⟩
  obtain ⟨m',l',ran,shared',after,others⟩ := threads_moved moved
  obtain ⟨-,frame⟩ := step_local (before.inv.each i) ran
  rw [shared']
  refine forall_of_others (P := fun j l => loaded l = true →
    decode m'.mem (gdt_start (v.id j + 5)) = busySegment v.toImage (v.id j)) others ?_ ?_
  · rw [after]
    exact own_kept (before.inv.each i) (before.desc i) ran
  · intro j other is
    rw [← before.desc j is]
    exact decode_congr fun k inside => frame _ (own_user (own_desc inside)) fun _ => desc_out
      (apart.lt (Ne.symm other)) inside

/-- Where no two numbers follow each other, a descriptor stays as `ltr` has left it. -/
theorem kept {v : Vcpus n} {s : State n} (apart : Apart v) (reach : Reachable v.system s) : Kept v s := by
  refine reach.invariant ?_ fun _ _ _ _ before _ moved => before.step apart moved
  intro s first
  refine ⟨.start first,fun i is => ?_⟩
  simp [loaded,first.2 i] at is

/-! ### One vCPU after the other -/

/-- Steps of vCPU `id` alone. -/
abbrev Alone (b : Image) (id : Nat) : Machine × Vcpu → Machine × Vcpu → Prop :=
  Relation.ReflTransGen fun x y => ∃ _ : Unit, init_boot b id x.1 x.2 = some y

/-- A program of stores runs to its end. -/
theorem stores_alone (b : Image) (id : Nat) (at' : Progress Cell → Vcpu) (next : Vcpu)
    (goes : ∀ m p mem p', p.step m.mem = some (mem,p') → init_boot b id m (at' p) = some ({ m with mem },at' p'))
    (stops : ∀ m p, p.step m.mem = none → init_boot b id m (at' p) = some (m,next)) (todo : List (Store Cell))
    (m : Machine) :
    Alone b id (m,at' ⟨todo,none⟩) ({ m with mem := runs todo m.mem },next) := by
  induction todo generalizing m with
  | nil => exact .single ⟨(),stops m ⟨[],none⟩ rfl⟩
  | cons op rest ih =>
    have later := ih { m with mem := op.run m.mem }
    by_cases whole : op.mask = -1
    · have one : Progress.step ⟨op :: rest,none⟩ m.mem = some (op.run m.mem,⟨rest,none⟩) := by
        simp [Progress.step,whole,Store.run,value_whole whole]
      exact .head ⟨(),goes m _ _ _ one⟩ later
    · -- The byte of a bit-field is loaded first.
      have load : Progress.step ⟨op :: rest,none⟩ m.mem = some (m.mem,⟨op :: rest,some (m.mem op.addr)⟩) :=
        if_neg whole
      have store : Progress.step ⟨op :: rest,some (m.mem op.addr)⟩ m.mem = some (op.run m.mem,⟨rest,none⟩) := rfl
      exact .head ⟨(),goes m _ _ _ load⟩ (.head ⟨(),goes m _ _ _ store⟩ later)

/-- The GDT and the TSSs after `init_boot` of one vCPU. -/
def booted (b : Image) (id : Nat) (mem : Memory) : Memory :=
  runs fill_user_mode_gdt (runs (busy.assign (gdt_start (id + 5)) 1) (runs (fill b id) mem))

/-- A vCPU that finds the mutex free and is not interrupted completes `init_boot`. -/
theorem boot_alone (b : Image) (id : Nat) (mem : Memory) {l : Vcpu} (fresh : l.pc = .start) :
    ∃ l', l'.pc = .done ∧ Alone b id (⟨mem,0⟩,l) (⟨booted b id mem,0⟩,l') := by
  obtain ⟨pc,stack_addr,tr,msr,intr⟩ := l
  obtain rfl : pc = .start := fresh
  have full : descriptor (runs (fill b id) mem) (flush_tss id) = segment b id := by
    rw [descriptor_flush_tss,decode_fill]
  have loads : ltr (flush_tss id) (runs (fill b id) mem) =
      some (runs (busy.assign (gdt_start (id + 5)) 1) (runs (fill b id) mem),segment b id) := by
    simp only [ltr,full,place_flush_tss]
    exact if_pos ⟨rfl,rfl,rfl,rfl⟩
  have enter : Alone b id (⟨mem,0⟩,⟨.start,stack_addr,tr,msr,intr⟩)
      (⟨mem,(1 : Word) <<< id⟩,⟨.fill ⟨fill b id,none⟩,b.kern_stack id,tr,msr,intr⟩) :=
    .head ⟨(),rfl⟩ (.single ⟨(),rfl⟩)
  have fills := stores_alone b id (fun p => ⟨.fill p,b.kern_stack id,tr,msr,intr⟩) ⟨.ltr,b.kern_stack id,tr,msr,intr⟩
    (fun m p mem p' ran => by simp only [init_boot,ran]) (fun m p ran => by simp only [init_boot,ran])
    (fill b id) ⟨mem,(1 : Word) <<< id⟩
  have leave : Alone b id (⟨runs (fill b id) mem,(1 : Word) <<< id⟩,⟨.ltr,b.kern_stack id,tr,msr,intr⟩)
      (⟨runs (busy.assign (gdt_start (id + 5)) 1) (runs (fill b id) mem),0⟩,
        ⟨.user ⟨fill_user_mode_gdt,none⟩,b.kern_stack id,some (segment b id),msr,intr⟩) :=
    .head ⟨(),by simp only [init_boot,loads]; rfl⟩ (.single ⟨(),rfl⟩)
  have users := stores_alone b id (fun p => ⟨.user p,b.kern_stack id,some (segment b id),msr,intr⟩)
    ⟨.msrs (set_syscall_msrs b.syscall_entry),b.kern_stack id,some (segment b id),msr,intr⟩
    (fun m p mem p' ran => by simp only [init_boot,ran]) (fun m p ran => by simp only [init_boot,ran])
    fill_user_mode_gdt ⟨runs (busy.assign (gdt_start (id + 5)) 1) (runs (fill b id) mem),0⟩
  refine ⟨⟨.done,b.kern_stack id,some (segment b id),(set_syscall_msrs b.syscall_entry).foldl set_msr msr,true⟩,rfl,?_⟩
  refine ((enter.trans fills).trans leave).trans (users.trans ?_)
  -- The three registers, and `sti`.
  exact .head ⟨(),rfl⟩ (.head ⟨(),rfl⟩ (.head ⟨(),rfl⟩ (.head ⟨(),rfl⟩ (.single ⟨(),rfl⟩))))

/-- The vCPUs of a list can complete `init_boot` in its order. -/
theorem boot_order {v : Vcpus n} (order : List (Fin n)) (once : order.Nodup) {mem : Memory} {loc : Fin n → Vcpu}
    (reach : Reachable v.system ⟨⟨mem,0⟩,loc⟩) (fresh : ∀ k ∈ order, (loc k).pc = .start) :
    ∃ loc', Reachable v.system ⟨⟨order.foldl (fun mem k => booted v.toImage (v.id k) mem) mem,0⟩,loc'⟩ ∧
      (∀ k ∈ order, (loc' k).pc = .done) ∧ ∀ k, k ∉ order → loc' k = loc k := by
  induction order generalizing mem loc with
  | nil => exact ⟨loc,reach,nofun,fun _ _ => rfl⟩
  | cons k rest ih =>
    obtain ⟨new,once⟩ := List.nodup_cons.mp once
    obtain ⟨l',done,ran⟩ := boot_alone v.toImage (v.id k) mem (fresh k (.head _))
    have next := reach.alone (i := k) ran
    have others : ∀ j, j ≠ k → Function.update loc k l' j = loc j := fun j other => Function.update_of_ne other ..
    have later : ∀ j ∈ rest, (Function.update loc k l' j).pc = .start := by
      intro j member
      rw [others j fun same => new (same ▸ member)]
      exact fresh j (.tail _ member)
    obtain ⟨loc',reach',dones,same⟩ := ih once next later
    refine ⟨loc',reach',?_,?_⟩
    · intro j member
      rcases List.mem_cons.mp member with rfl | tail
      · rw [same j new,Function.update_self]
        exact done
      · exact dones j tail
    · intro j out
      have other : j ≠ k := fun same => out (same ▸ .head _)
      have absent : j ∉ rest := fun member => out (.tail _ member)
      rw [same j absent,others j other]

/-- A vCPU that boots leaves what is not its own, or a user segment, as it is. -/
theorem booted_out (b : Image) {id : Nat} {a : Cell} (own : ¬ Own id a) (user : ¬ User a) (mem : Memory) :
    booted b id mem a = mem a := by
  have busy : ∀ op ∈ busy.assign (gdt_start (id + 5)) 1, op.addr ≠ a := fun op member at' => own (at' ▸ busy_own member)
  have fills : ∀ op ∈ fill b id, op.addr ≠ a := fun op member at' => own (at' ▸ fill_own member)
  have users : ∀ op ∈ fill_user_mode_gdt, op.addr ≠ a := fun op member at' => user (at' ▸ user_user member)
  rw [booted,runs_out users,runs_out busy,runs_out fills]

theorem order_out (v : Vcpus n) {order : List (Fin n)} {a : Cell} (own : ∀ k ∈ order, ¬ Own (v.id k) a) (user : ¬ User a)
    (mem : Memory) : order.foldl (fun mem k => booted v.toImage (v.id k) mem) mem a = mem a := by
  induction order generalizing mem with
  | nil => rfl
  | cons k rest ih =>
    rw [List.foldl_cons,ih fun j member => own j (.tail _ member)]
    exact booted_out _ (own k (.head _)) user mem

theorem reserved_booted (b : Image) (id : Nat) (mem : Memory) : word (booted b id mem) (gdt_start (id + 5)) 111 1 = 0 := by
  have users : ∀ op ∈ fill_user_mode_gdt, ∀ k, op.addr ≠ gdt_start (id + 5) k := by
    intro op member k at'
    have user := user_user member
    rw [at'] at user
    simp only [gdt_start,User,sizeof_gdt_entry_t] at user
    omega
  rw [booted,word_out users,word_assign_apart (gdt_start_inj _) _ _ _ (by decide),reserved_fill]

/-- Byte 5 of a descriptor is byte 13 of the one before, which nobody stores to after
    its vCPU has booted. -/
theorem present_gone (v : Vcpus n) {i j : Fin n} (next : v.id j = v.id i + 1) {rest : List (Fin n)}
    (far : ∀ k ∈ rest, k ≠ j ∧ k ≠ i) (mem : Memory) :
    word (rest.foldl (fun mem k => booted v.toImage (v.id k) mem) (booted v.toImage (v.id i) mem))
    (gdt_start (v.id j + 5)) 47 1 = 0 := by
  have user : ¬ User (gdt_start (v.id i + 5) 13) := by
    simp only [gdt_start,User,sizeof_gdt_entry_t]
    omega
  have own : ∀ k ∈ rest, ¬ Own (v.id k) (gdt_start (v.id i + 5) 13) := by
    intro k member own
    obtain ⟨notJ,notI⟩ := far k member
    have others : v.id k ≠ v.id i ∧ v.id k ≠ v.id j :=
      ⟨fun same => notI (v.distinct same),fun same => notJ (v.distinct same)⟩
    simp only [gdt_start,Own,sizeof_gdt_entry_t,sizeof_sys_desc_t] at own
    omega
  rw [next,word_next,← reserved_booted v.toImage (v.id i) mem]
  refine word_congr fun t above below => ?_
  have byte : t / 8 = 13 := by omega
  unfold bit
  rw [byte,order_out v own user]

/-- Where `i + 1` boots before `i`, its descriptor is not present afterwards. -/
theorem overwritten (v : Vcpus n) {i j : Fin n} (next : v.id j = v.id i + 1) :
    ∃ s, Reachable v.system s ∧ (∀ k, (s.loc k).pc = .done) ∧
    (descriptor s.shared.mem (flush_tss (v.id j))).present = 0 := by
  have other : i ≠ j := by
    rintro rfl
    omega
  obtain ⟨rest,inRest,once⟩ : ∃ rest : List (Fin n), (∀ k, k ∈ rest ↔ k ≠ j ∧ k ≠ i) ∧ rest.Nodup :=
    ⟨((Finset.univ.erase i).erase j).toList,by simp,Finset.nodup_toList _⟩
  have once' : (j :: i :: rest).Nodup := by
    refine List.nodup_cons.mpr ⟨?_,List.nodup_cons.mpr ⟨?_,once⟩⟩
    · simp [inRest,Ne.symm other]
    · simp [inRest]
  have reach : Reachable v.system ⟨⟨fun _ => 0,0⟩,fun _ => ⟨.start,0,none,fun _ => 0,false⟩⟩ := .init ⟨rfl,fun _ => rfl⟩
  obtain ⟨loc',reach',dones,-⟩ := boot_order (j :: i :: rest) once' reach fun _ _ => rfl
  refine ⟨_,reach',fun k => ?_,?_⟩
  · by_cases first : k = j
    · exact first ▸ dones j (.head _)
    · by_cases second : k = i
      · exact second ▸ dones i (.tail _ (.head _))
      · exact dones k (.tail _ (.tail _ ((inRest k).mpr ⟨first,second⟩)))
  · rw [descriptor_flush_tss,List.foldl_cons,List.foldl_cons]
    exact present_gone v next (fun k => (inRest k).mp) (booted v.toImage (v.id j) fun _ => 0)

/-- The descriptors of a set of vCPUs are spared by the others, and in the GDT once all
    have booted in any order, exactly if no two numbers follow each other. -/
theorem descriptors_undisturbed_iff (v : Vcpus n) :
    ((∀ i j, i ≠ j → Spares v.toImage (v.id j) (v.id i)) ↔ Apart v) ∧
      ((∀ s, Reachable v.system s → (∀ i, (s.loc i).pc = .done) →
        ∀ i, PresentTss (descriptor s.shared.mem (flush_tss (v.id i))) (v.tss (v.id i))) ↔ Apart v) := by
  constructor
  · constructor
    · intro spares i j next
      have other : i ≠ j := by
        rintro rfl
        omega
      have spared := spares i j other
      rw [next] at spared
      exact not_spares _ _ spared
    · intro apart i j other
      exact spares_of_apart _ (apart.lt (Ne.symm other))
  · constructor
    · intro all i j next
      obtain ⟨s,reach,done,gone⟩ := overwritten v next
      have present := (all s reach done j).present
      rw [gone] at present
      cases present
    · intro apart s reach done i
      have desc := (kept apart reach).desc i (by simp [loaded,done i])
      rw [descriptor_flush_tss,desc]
      exact ⟨rfl,rfl,.inr rfl,rfl,rfl,rfl⟩

/-- vCPU 1 boots, then vCPU 0: the descriptor of vCPU 1 is not present any more. -/
theorem descriptor_overwritten : ¬ ((∀ i j, i ≠ j → Spares pair.toImage (pair.id j) (pair.id i)) ∧
    ∀ s, Reachable pair.system s → (∀ i, (s.loc i).pc = .done) →
      ∀ i, PresentTss (descriptor s.shared.mem (flush_tss (pair.id i))) (pair.tss (pair.id i))) := by
  rintro ⟨-,all⟩
  have next : pair.id 1 = pair.id 0 + 1 := rfl
  obtain ⟨s,reach,done,gone⟩ := overwritten pair next
  have present := (all s reach done 1).present
  rw [gone] at present
  cases present

end Bootcode.Descriptors
