import Bootcode.Syscall

/-!
The number of a vCPU and the size of its pool, which `long_mode` stores in the last
word of the vCPU's stack page, and the three functions of `util.h` that look them up
by the stack pointer. `get_id` subtracts 1 first, so from the very bottom of the page
it looks into the page before.
-/
namespace Bootcode.Identity
open Bootcode.X86 hiding State step
open Bootcode.Interleave Bootcode.Private
open Bootcode.Syscall (findSlot fillSlot id_unpack)

/-- A function that is a piece of assembly with a result in `rax`, and what it makes of that. -/
structure Reader (α : Type) where
  asm : List Micro
  ret : Word → α

def movLoad (disp : Word) (base r : Reg) : Micro := .load (fun c => c.regs base + disp) fun c v => c.set r v

/-- The last word of the page of `rax`. -/
def loadLast : List Micro := [shrq 12 .rax,addq 1 .rax,shlq 12 .rax,movLoad (-8) .rax .rax]

def get_pool_and_id : Reader (BitVec 16) where
  asm := movq .rsp .rax :: loadLast
  ret rax := rax.setWidth 16

def get_pool_sz : Reader (BitVec 8) where
  asm := movq .rsp .rax :: loadLast
  ret rax := ((rax &&& 0xFF00) >>> 8).setWidth 8

/-- The subtraction is the "temporary solution" for a stack pointer at a page boundary. -/
def get_id : Reader (BitVec 8) where
  asm := movq .rsp .rax :: subq 1 .rax :: loadLast
  ret rax := (rax &&& 0x00FF).setWidth 8

/-- `n` vCPUs. `regs` are the registers at `long_mode`: `r10` has the number, `r11` the
    size of the pool and `rsp` the end of the page that the VMM gives the vCPU. -/
structure Setup (n : Nat) where
  kern_stack : Word
  id : Fin n → BitVec 8
  pool : Fin n → BitVec 8
  page : Fin n → Word
  regs : Fin n → Reg → Word
  tsc : Fin n → Word
  aux : Fin n → Word
  r10 : ∀ i, regs i .r10 = (id i).setWidth 64
  r11 : ∀ i, regs i .r11 = (pool i).setWidth 64
  rsp : ∀ i, regs i .rsp = page i + 4096
  distinct : ∀ i j, id i = id j → i = j
  aligned : ∀ i, (page i).toNat % 4096 = 0
  pages : ∀ i j, page i = page j → i = j
  apart : ∀ i x, Within x (page i) 4096 → ¬ Within x kern_stack 2048

section
variable {n : Nat} (p : Setup n) (i : Fin n)

/-- `&kern_stack[id]`, and the last word of the page. -/
def Setup.slot : Word := p.kern_stack + BitVec.ofNat 64 (8 * (p.id i).toNat)
def Setup.last : Word := p.page i + 4088

/-- What `long_mode` stores for vCPU `i`. -/
def Owns (x : Word) : Prop := Within x (p.slot i) 8 ∨ Within x (p.last i) 8

instance (x : Word) : Decidable (Owns p i x) := inferInstanceAs (Decidable (Within x (p.slot i) 8 ∨ Within x (p.last i) 8))

end

inductive Pc
  | long_mode (todo : List Micro)
  | running

structure Vcpu where
  pc : Pc
  core : Core

/-- The next instruction; or what a vCPU that has booted writes. -/
inductive Input
  | run
  | poke (a : Word) (v : BitVec 8)

abbrev State (n : Nat) := Config (Fin n) Memory Vcpu

section
variable {n : Nat} (p : Setup n)

/-- Nobody writes to what `long_mode` has stored. -/
def step (_ : Fin n) (x : Input) (m : Memory) (l : Vcpu) : Option (Memory × Vcpu) :=
  match l.pc, x with
  | .long_mode (o :: rest), .run => (o.exec m l.core).map fun r => (r.1,{ l with pc := .long_mode rest, core := r.2 })
  | .long_mode [], .run => some (m,{ l with pc := .running })
  | .running, .poke a v => if ∀ j, ¬ Owns p j a then some (Function.update m a v,l) else none
  | _, _ => none

def Setup.system : System (State n) (Fin n × Input) :=
  threads (fun s => ∀ i, (s.loc i).pc = .long_mode (findSlot p.kern_stack (p.tsc i) (p.aux i) ++ fillSlot) ∧
    (s.loc i).core.regs = p.regs i)
    (step p)

end

/-! ### What is promised -/

section
variable {n : Nat} (p : Setup n) (i : Fin n)

/-- `kern_stack[id]` and the last word of the page. -/
structure Stored (m : Memory) : Prop where
  slot : load m (p.slot i) 8 = p.page i + 4080
  last : load m (p.last i) 8 = (p.pool i).setWidth 64 <<< 8 ||| (p.id i).setWidth 64

/-- The function returns `v`, and reads and writes only in the page of the vCPU. -/
def Gets {α : Type} (f : Reader α) (m : Memory) (c : Core) (v : α) : Prop :=
  Ends (fun x => Within x (p.page i) 4096) (fun _ c' => f.ret (c'.regs .rax) = v) f.asm m c

/-- All three functions find vCPU `i`, and so agree. -/
structure Found (m : Memory) (c : Core) : Prop where
  id : Gets p i get_id m c (p.id i)
  pool : Gets p i get_pool_sz m c (p.pool i)
  both : Gets p i get_pool_and_id m c (p.pool i ++ p.id i)

end

section
variable {n : Nat} {p : Setup n} {i : Fin n}

theorem mem_slot {x : Word} : Within x (p.slot i) 8 ↔ (x - p.kern_stack).toNat / 8 = (p.id i).toNat := by
  have small := (p.id i).isLt
  rw [Setup.slot,within_offset (by omega)]
  omega

theorem page_of_last {x : Word} (inside : Within x (p.last i) 8) : Within x (p.page i) 4096 := by
  unfold Setup.last at inside
  unfold Within at *
  bv_omega

theorem page_of_slot {x : Word} (inside : Within x (p.slot i) 8) (j : Fin n) : ¬ Within x (p.page j) 4096 := by
  intro page
  have far := p.apart j x page
  have small := (p.id i).isLt
  rw [mem_slot] at inside
  unfold Within at far
  omega

theorem own_apart {j : Fin n} (other : j ≠ i) {x : Word} (mine : Owns p i x) : ¬ Owns p j x := by
  rcases mine with slot | last
  · rintro (slot' | last')
    · have ids : p.id j = p.id i := BitVec.eq_of_toNat_eq ((mem_slot.mp slot').symm.trans (mem_slot.mp slot))
      exact other (p.distinct j i ids)
    · exact page_of_slot slot j (page_of_last last')
  · rintro (slot' | last')
    · exact page_of_slot slot' i (page_of_last last)
    · have same := page_unique (p.aligned i) (p.aligned j) (page_of_last last) (page_of_last last')
      exact other (p.pages j i same)

/-- The word that packs both values. -/
def info (p : Setup n) (i : Fin n) : Word := (p.pool i).setWidth 64 <<< 8 ||| (p.id i).setWidth 64

structure Located (p : Setup n) (i : Fin n) (c : Core) : Prop where
  rsp : c.regs .rsp = p.page i + 4080
  rbx : c.regs .rbx = p.slot i
  rax : c.regs .rax = info p i

theorem locates (m : Memory) {c : Core} (start : c.regs = p.regs i) :
    Ends (Owns p i) (fun _ => Located p i) (findSlot p.kern_stack (p.tsc i) (p.aux i)) m c := by
  have low : (p.regs i .r10).toNat % 256 = (p.id i).toNat := by
    rw [p.r10,BitVec.toNat_setWidth]
    omega
  simp only [Ends,findSlot,Keeps,rdtscp,movq,alu,subq,shlq,orq,movImm,movl,andq,leaq,Option.some.injEq,exists_eq_left',
    reduceCtorEq,false_imp_iff,true_and,true_imp_iff]
  refine ⟨?_,?_,?_⟩
  · simp only [Core.set_regs,start,reduceCtorEq,if_true,if_false,p.rsp]
    bv_omega
  · simp only [Core.set_regs,start,reduceCtorEq,if_true,if_false,Setup.slot,id_unpack,low]
  · simp only [Core.set_regs,start,reduceCtorEq,if_true,if_false,info,p.r10,p.r11]

theorem stores (m : Memory) {c : Core} (located : Located p i c) :
    Ends (Owns p i) (fun m _ => Stored p i m) fillSlot m c := by
  obtain ⟨rsp,rbx,rax⟩ := located
  have place : ((p.page i + 4080) >>> 12 + 1) <<< 12 + -8 = p.last i :=
    last_of_page (p.aligned i) (by unfold Within; bv_omega)
  simp only [Ends,fillSlot,Keeps,movq,alu,shlq,shrq,movStore,addq,Option.some.injEq,exists_eq_left',reduceCtorEq,
    false_imp_iff,true_and,true_imp_iff,id,Core.set_regs,if_true,if_false,rsp,rbx,rax,add_zero,place]
  refine ⟨fun x => .inl,fun x => .inr,?_,?_⟩
  · rw [load_store_apart (fun x inside last => page_of_slot inside i (page_of_last last)) (by omega)]
    exact load_store_same (n := 8) m _ _ (by omega)
  · exact load_store_same (n := 8) _ _ _ (by omega)

theorem boots (m : Memory) {c : Core} (start : c.regs = p.regs i) :
    Ends (Owns p i) (fun m _ => Stored p i m) (findSlot p.kern_stack (p.tsc i) (p.aux i) ++ fillSlot) m c :=
  (locates m start).append fun m _ located => stores m located

/-- A vCPU is on its way to storing its words, or they are stored. -/
def Local (p : Setup n) (i : Fin n) (m : Memory) (l : Vcpu) : Prop :=
  match l.pc with
  | .long_mode todo => Ends (Owns p i) (fun m _ => Stored p i m) todo m l.core
  | .running => Stored p i m

theorem Stored.frame {m m' : Memory} (same : ∀ x, Owns p i x → m' x = m x) (stored : Stored p i m) : Stored p i m' := by
  constructor
  · rw [← stored.slot]
    exact load_congr (fun x inside => same x (.inl inside)) (by omega)
  · rw [← stored.last]
    exact load_congr (fun x inside => same x (.inr inside)) (by omega)

theorem Local.frame {m m' : Memory} {l : Vcpu} (same : ∀ x, Owns p i x → m' x = m x) (here : Local p i m l) :
    Local p i m' l := by
  obtain ⟨pc,core⟩ := l
  cases pc with
  | long_mode todo => exact Keeps.frame (fun _ _ _ _ same last none => (last none).frame same) same here
  | running => exact Stored.frame same here

theorem Local.step {x : Input} {m m' : Memory} {l l' : Vcpu} (here : Local p i m l)
    (ran : Identity.step p i x m l = some (m',l')) :
    Local p i m' l' ∧ ∀ j, j ≠ i → ∀ y, Owns p j y → m' y = m y := by
  obtain ⟨pc,core⟩ := l
  cases pc with
  | long_mode todo =>
    cases x with
    | poke a v => cases todo <;> cases ran
    | run =>
      cases todo with
      | nil =>
        cases ran
        exact ⟨Keeps.now here rfl,fun _ _ _ _ => rfl⟩
      | cons o rest =>
        obtain ⟨m1,c1,exec,keeps,kept⟩ := Keeps.step here
        simp only [Identity.step,exec,Option.map_some,Option.some.injEq,Prod.mk.injEq] at ran
        obtain ⟨rfl,rfl⟩ := ran
        exact ⟨keeps,fun j other y theirs => kept y fun mine => own_apart other mine theirs⟩
  | running =>
    cases x with
    | run => cases ran
    | poke a v =>
      simp only [Identity.step] at ran
      split at ran
      · rename_i free
        cases ran
        have others : ∀ j y, Owns p j y → Function.update m a v y = m y := fun j y theirs =>
          Function.update_of_ne (fun is : y = a => free j (is ▸ theirs)) _ _
        exact ⟨Stored.frame (others i) here,fun j _ => others j⟩
      · cases ran

theorem all_local {s : State n} (reach : Reachable p.system s) : ∀ i, Local p i s.shared (s.loc i) := by
  refine Reach.apart (Owns p) (Local p) ?_ (fun i m m' l same here => here.frame same)
    (fun i x m l m' l' here ran => here.step ran) reach
  intro s first i
  obtain ⟨pc,regs⟩ := first i
  unfold Local
  rw [pc]
  exact boots s.shared regs

/-! ### The readers -/

/-- The word that `loadLast` loads. -/
def lastWord (a : Word) : Word := (a >>> 12 + 1) <<< 12 + -8

theorem loadLast_iff (own Q : Word → Prop) (m : Memory) (c : Core) :
    Ends own (fun _ c' => Q (c'.regs .rax)) loadLast m c ↔
      (∀ x, Within x (lastWord (c.regs .rax)) 8 → own x) ∧ Q (load m (lastWord (c.regs .rax)) 8) := by
  simp only [Ends,loadLast,Keeps,alu,shrq,addq,shlq,movLoad,Option.some.injEq,exists_eq_left',reduceCtorEq,
    false_imp_iff,true_and,true_imp_iff,Core.set_regs,if_true,lastWord]

theorem gets_iff {α : Type} (ret : Word → α) (m : Memory) (c : Core) (v : α) :
    Gets p i ⟨movq .rsp .rax :: loadLast,ret⟩ m c v ↔
      (∀ x, Within x (lastWord (c.regs .rsp)) 8 → Within x (p.page i) 4096) ∧
      ret (load m (lastWord (c.regs .rsp)) 8) = v := by
  have rest := loadLast_iff (Within · (p.page i) 4096) (fun rax => ret rax = v) m (c.set .rax (c.regs .rsp))
  rw [Core.set_regs,if_pos rfl] at rest
  rw [← rest]
  simp only [Gets,Ends,Keeps,movq,alu,Option.some.injEq,exists_eq_left',reduceCtorEq,false_imp_iff,true_and]

theorem gets_id_iff (m : Memory) (c : Core) (v : BitVec 8) :
    Gets p i get_id m c v ↔
      (∀ x, Within x (lastWord (c.regs .rsp - 1)) 8 → Within x (p.page i) 4096) ∧
        get_id.ret (load m (lastWord (c.regs .rsp - 1)) 8) = v := by
  have rest := loadLast_iff (Within · (p.page i) 4096) (fun rax => get_id.ret rax = v) m
    ((c.set .rax (c.regs .rsp)).set .rax (c.regs .rsp - 1))
  rw [Core.set_regs,if_pos rfl] at rest
  rw [← rest]
  simp only [Gets,get_id,Ends,Keeps,movq,alu,subq,Core.set_regs,if_true,Option.some.injEq,exists_eq_left',
    reduceCtorEq,false_imp_iff,true_and]

/-- `get_id` run alone: the word is that at the end of the page of `rsp - 1`. -/
theorem get_id_run (m : Memory) (c : Core) :
    (run get_id.asm m c).map (fun r => r.2.regs .rax) = some (load m (lastWord (c.regs .rsp - 1)) 8) := by
  simp [run,get_id,loadLast,Micro.exec,movq,alu,subq,shrq,addq,shlq,movLoad,Core.set_regs,lastWord]

/-- The bits of the two values in their word. -/
theorem getLsbD_packed (pool id : BitVec 8) (k : Nat) : (pool.setWidth 64 <<< 8 ||| id.setWidth 64 : Word).getLsbD k =
    if k < 8 then id.getLsbD k else pool.getLsbD (k - 8) := by
  rw [BitVec.getLsbD_or,BitVec.getLsbD_shiftLeft,BitVec.getLsbD_setWidth,BitVec.getLsbD_setWidth]
  by_cases low : k < 8
  · have fits : k < 64 := by omega
    simp [low,fits]
  · have high : id.getLsbD k = false := BitVec.getLsbD_of_ge _ _ (by omega)
    have none : ¬ k < 64 → pool.getLsbD (k - 8) = false := fun out => BitVec.getLsbD_of_ge _ _ (by omega)
    by_cases fits : k < 64
    · have fits' : k - 8 < 64 := by omega
      simp [low,high,fits,fits']
    · simp [low,high,fits,none fits]

theorem getLsbD_info (p : Setup n) (i : Fin n) (k : Nat) :
    (info p i).getLsbD k = if k < 8 then (p.id i).getLsbD k else (p.pool i).getLsbD (k - 8) :=
  getLsbD_packed (p.pool i) (p.id i) k

theorem get_id_packed (pool id : BitVec 8) : get_id.ret (pool.setWidth 64 <<< 8 ||| id.setWidth 64) = id := by
  apply BitVec.eq_of_getLsbD_eq
  intro k lt
  have mask : ∀ k < 8, (0x00FF : Word).getLsbD k = true := by decide
  rw [get_id,BitVec.getLsbD_setWidth,BitVec.getLsbD_and,mask k lt,getLsbD_packed,if_pos lt,decide_eq_true lt,
    Bool.and_true,Bool.true_and]

theorem get_id_info (p : Setup n) (i : Fin n) : get_id.ret (info p i) = p.id i := get_id_packed (p.pool i) (p.id i)
theorem get_pool_sz_info (p : Setup n) (i : Fin n) : get_pool_sz.ret (info p i) = p.pool i := by
  apply BitVec.eq_of_getLsbD_eq
  intro k lt
  have mask : ∀ k < 8, (0xFF00 : Word).getLsbD (8 + k) = true := by decide
  rw [get_pool_sz,BitVec.getLsbD_setWidth,BitVec.getLsbD_ushiftRight,BitVec.getLsbD_and,mask k lt,getLsbD_info,
    if_neg (by omega),
    decide_eq_true lt,Bool.and_true,Bool.true_and,Nat.add_sub_cancel_left]

theorem get_pool_and_id_info (p : Setup n) (i : Fin n) : get_pool_and_id.ret (info p i) = p.pool i ++ p.id i := by
  apply BitVec.eq_of_getLsbD_eq
  intro k lt
  rw [get_pool_and_id,BitVec.getLsbD_setWidth,getLsbD_info,BitVec.getLsbD_append,decide_eq_true lt,Bool.true_and]

/-- From the bottom of the page `get_id` reads below it. -/
theorem lastWord_below {page : Word} (aligned : page.toNat % 4096 = 0) : lastWord (page - 1) = page - 8 := by
  have before : (page - 4096).toNat % 4096 = 0 := by bv_omega
  have inside : Within (page - 1) (page - 4096) 4096 := by
    unfold Within
    bv_omega
  exact (last_of_page before inside).trans (by bv_omega)

theorem found_iff {m : Memory} {c : Core} (stored : Stored p i m) (inside : (c.regs .rsp - p.page i).toNat ≤ 4080) :
    Found p i m c ↔ c.regs .rsp ≠ p.page i := by
  have here : ∀ {a}, Within a (p.page i) 4096 → lastWord a = p.last i := last_of_page (p.aligned i)
  have own : ∀ x, Within x (p.last i) 8 → Within x (p.page i) 4096 := fun _ => page_of_last
  have loaded : load m (p.last i) 8 = info p i := stored.last
  have within : Within (c.regs .rsp) (p.page i) 4096 := by unfold Within; omega
  constructor
  · rintro found bottom
    have reads := ((gets_id_iff m c _).mp found.id).1 (p.page i - 8)
    rw [bottom,lastWord_below (p.aligned i)] at reads
    have out := reads (by unfold Within; bv_omega)
    unfold Within at out
    bv_omega
  · intro above
    have within' : Within (c.regs .rsp - 1) (p.page i) 4096 := by
      unfold Within
      bv_omega
    refine ⟨(gets_id_iff m c _).mpr ?_,(gets_iff _ m c _).mpr ?_,(gets_iff _ m c _).mpr ?_⟩
    · rw [here within',loaded]
      exact ⟨own,get_id_info p i⟩
    · rw [here within,loaded]
      exact ⟨own,get_pool_sz_info p i⟩
    · rw [here within,loaded]
      exact ⟨own,get_pool_and_id_info p i⟩

/-- There it finds whoever has that page. -/
theorem get_id_below {j : Fin n} {m : Memory} {c : Core} (below : p.page i = p.page j + 4096) (stored : Stored p j m)
    (bottom : c.regs .rsp = p.page i) : ∃ c', run get_id.asm m c = some (m,c') ∧ get_id.ret (c'.regs .rax) = p.id j := by
  have place : lastWord (c.regs .rsp - 1) = p.last j := by
    rw [bottom,lastWord_below (p.aligned i),below,Setup.last]
    bv_omega
  refine ⟨_,rfl,?_⟩
  rw [← get_id_info p j,info,← stored.last,← place]
  simp only [Core.set_regs,if_true]
  rfl

theorem stored_of_running {s : State n} (reach : Reachable p.system s) (runs : (s.loc i).pc = .running) :
    Stored p i s.shared := by
  have here := all_local reach i
  unfold Local at here
  rwa [runs] at here

/-- In any interleaving the three functions find a vCPU that has booted, from every
    stack pointer in its page up to that of the empty stack, except that `get_id` does
    not at the bottom of the page. -/
theorem identity_iff (p : Setup n) {s : State n} (reach : Reachable p.system s) (i : Fin n)
    (runs : (s.loc i).pc = .running) (c : Core) (inside : (c.regs .rsp - p.page i).toNat ≤ 4080) :
    Stored p i s.shared ∧ (Found p i s.shared c ↔ c.regs .rsp ≠ p.page i) := by
  have stored := stored_of_running reach runs
  exact ⟨stored,found_iff stored inside⟩

end

def pair : Setup 2 where
  kern_stack := 0x1000
  id i := BitVec.ofNat 8 i.val
  pool _ := 2
  page i := BitVec.ofNat 64 (0x10000 + 0x1000 * i.val)
  regs i := fun
    | .rsp => BitVec.ofNat 64 (0x10000 + 0x1000 * i.val) + 4096
    | .r10 => (BitVec.ofNat 8 i.val).setWidth 64
    | .r11 => 2
    | _ => 0
  tsc _ := 0
  aux _ := 0
  r10 _ := rfl
  r11 _ := rfl
  rsp _ := rfl
  distinct := by decide
  aligned := by decide
  pages := by decide
  apart i x inside := by
    have lt := i.isLt
    unfold Within at *
    bv_omega

def pair.start : State 2 :=
  ⟨fun _ => 0,fun i => ⟨.long_mode (findSlot pair.kern_stack (pair.tsc i) (pair.aux i) ++ fillSlot),⟨pair.regs i,0,false,0,0,0⟩⟩⟩

def running (l : Vcpu) : Bool :=
  match l.pc with
  | .running => true
  | _ => false

theorem pc_of_running {l : Vcpu} (is : running l = true) : l.pc = .running := by
  unfold running at is
  split at is
  · assumption
  · cases is

theorem pair_boots : ∃ s, Reachable pair.system s ∧ ∀ i, (s.loc i).pc = .running := by
  have first : pair.system.init pair.start := fun i => ⟨rfl,rfl⟩
  have ran : (exec pair.system pair.start (List.replicate 18 (0,.run) ++ List.replicate 18 (1,.run))).any
      (fun s => decide (∀ i, running (s.loc i) = true)) = true := by
    decide +kernel
  obtain ⟨s,reach,holds⟩ := exec_exists first (fun _ _ _ => trivial) ran
  exact ⟨s,reach,fun i => pc_of_running (of_decide_eq_true holds i)⟩

/-- With the empty stack vCPU 1 is found. -/
theorem identity_top : ∃ s, Reachable pair.system s ∧ Found pair 1 s.shared ⟨fun _ => 0x11FF0,0,false,0,0,0⟩ := by
  obtain ⟨s,reach,runs⟩ := pair_boots
  have found := identity_iff pair reach 1 (runs 1) ⟨fun _ => 0x11FF0,0,false,0,0,0⟩ (by decide)
  exact ⟨s,reach,found.2.mpr (by decide)⟩

/-- With its stack used up vCPU 1 takes itself for vCPU 0. -/
theorem neighbour_found : ∃ s, Reachable pair.system s ∧ (∀ i, (s.loc i).pc = .running) ∧
    (∃ c', run get_id.asm s.shared ⟨fun _ => 0x11000,0,false,0,0,0⟩ = some (s.shared,c') ∧
      get_id.ret (c'.regs .rax) = pair.id 0) ∧
      ¬ Found pair 1 s.shared ⟨fun _ => 0x11000,0,false,0,0,0⟩ := by
  obtain ⟨s,reach,runs⟩ := pair_boots
  have stored := fun i => stored_of_running reach (runs i)
  refine ⟨s,reach,runs,get_id_below (p := pair) (i := 1) (by decide) (stored 0) rfl,?_⟩
  rw [found_iff (stored 1) (by decide)]
  exact fun other => other rfl

end Bootcode.Identity
