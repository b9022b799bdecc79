import Bootcode.Bytes
import Bootcode.Interleave
import Bootcode.Mutex

/-!
`init_boot` on any number of vCPUs. Under the mutex a vCPU fills its TSS and its
descriptor and loads the task register, so that `ltr` sees the whole descriptor.
Descriptors of 16 bytes stand 8 bytes apart, so what a vCPU leaves in the GDT is
overwritten by its neighbours.
-/
namespace Bootcode.InitBoot
open Bootcode.Bytes Bootcode.Mutex Bootcode.Interleave

/-- A byte of the GDT or of the array `tss_seg`, by its offset. -/
inductive Cell
  | gdt64 (o : Nat)
  | tss_seg (o : Nat)
  deriving DecidableEq

abbrev Memory := Cell → Byte

def sizeof_gdt_entry_t : Nat := 8
def sizeof_tss_entry_t : Nat := 104
def sizeof_sys_desc_t : Nat := 16

namespace CS
def hardcode0_1 : Field := ⟨43,1⟩
def hardcode1_1 : Field := ⟨44,1⟩
def DPL : Field := ⟨45,2⟩
def present : Field := ⟨47,1⟩
def long_mode : Field := ⟨53,1⟩
def hardcode2_0 : Field := ⟨54,1⟩
end CS

namespace DS
def write : Field := ⟨41,1⟩
def hardcode0_0 : Field := ⟨43,1⟩
def hardcode1_1 : Field := ⟨44,1⟩
def DPL : Field := ⟨45,2⟩
def present : Field := ⟨47,1⟩
end DS

namespace TssEntry
def rsp0 : Field := ⟨32,64⟩
def iomap_base : Field := ⟨816,16⟩
end TssEntry

namespace SysDesc
def limit_15_0 : Field := ⟨0,16⟩
def base_23_0 : Field := ⟨16,24⟩
def type : Field := ⟨40,4⟩
def dpl : Field := ⟨45,2⟩
def present : Field := ⟨47,1⟩
def limit_19_16 : Field := ⟨48,4⟩
def granularity : Field := ⟨55,1⟩
def base_31_24 : Field := ⟨56,8⟩
def base_64_32 : Field := ⟨64,32⟩
end SysDesc

/-- `fill_tss(tss, tss_desc, stack_addr)`, where `addr` is the address of `*tss`. -/
def fill_tss (tss tss_desc : Nat → Cell) (addr stack_addr : Word) : List (Store Cell) :=
  memset tss 0 sizeof_tss_entry_t
    ++ TssEntry.rsp0.assign tss stack_addr.toNat
    ++ TssEntry.iomap_base.assign tss sizeof_tss_entry_t
    ++ memset tss_desc 0 sizeof_sys_desc_t
    ++ SysDesc.limit_15_0.assign tss_desc (sz &&& 0xFFFF)
    ++ SysDesc.limit_19_16.assign tss_desc ((sz &&& 0xF0000) >>> 16)
    ++ SysDesc.base_23_0.assign tss_desc (addr &&& 0xFFFFFF).toNat
    ++ SysDesc.base_31_24.assign tss_desc ((addr &&& 0xFF000000) >>> 24).toNat
    ++ SysDesc.base_64_32.assign tss_desc ((addr &&& 0xFFFFFFFF00000000) >>> 32).toNat
    ++ SysDesc.dpl.assign tss_desc 0
    ++ SysDesc.present.assign tss_desc 1
    ++ SysDesc.type.assign tss_desc 0x9
    ++ SysDesc.granularity.assign tss_desc 0
where sz : Nat := sizeof_tss_entry_t - 1

def init_CS (s : Nat → Cell) : List (Store Cell) :=
  memset s 0 sizeof_gdt_entry_t
    ++ CS.hardcode0_1.assign s 1
    ++ CS.hardcode1_1.assign s 1
    ++ CS.hardcode2_0.assign s 0
    ++ CS.long_mode.assign s 1
    ++ CS.present.assign s 1

def init_DS (s : Nat → Cell) : List (Store Cell) :=
  memset s 0 sizeof_gdt_entry_t
    ++ DS.hardcode0_0.assign s 0
    ++ DS.hardcode1_1.assign s 1
    ++ DS.present.assign s 1
    ++ DS.write.assign s 1

/-- `&gdt_start[i]` -/
def gdt_start (i : Nat) (o : Nat) : Cell := .gdt64 (i * sizeof_gdt_entry_t + o)
/-- `&tss_seg[i]` -/
def tss_seg (i : Nat) (o : Nat) : Cell := .tss_seg (i * sizeof_tss_entry_t + o)

def fill_user_mode_gdt : List (Store Cell) :=
  init_CS (gdt_start 4) ++ CS.DPL.assign (gdt_start 4) 3 ++ init_DS (gdt_start 3) ++ DS.DPL.assign (gdt_start 3) 3

def MSR_STAR : Nat := 0xC0000081
def MSR_LSTAR : Nat := 0xC0000082
def MSR_SFMASK : Nat := 0xC0000084

/-- `set_syscall_msrs()` as the registers that it sets, with the halves of their values. -/
def set_syscall_msrs (syscall_entry : Word) : List (Nat × BitVec 32 × BitVec 32) :=
  [(MSR_STAR,(ss_cs_user_ret <<< 16) ||| ss_cs_kernel_call,0),
    (MSR_LSTAR,(syscall_entry >>> 32).setWidth 32,syscall_entry.setWidth 32),(MSR_SFMASK,0,0)]
where
  ss_cs_kernel_call : BitVec 32 := 0x08
  ss_cs_user_ret : BitVec 32 := 0x10 ||| 0x3

/-- `set_msr(msr, h, l)` -/
def set_msr (msr : Nat → Word) (r : Nat × BitVec 32 × BitVec 32) : Nat → Word := Function.update msr r.1 (r.2.1 ++ r.2.2)

/-- The selector that `flush_tss(id)` loads. -/
def flush_tss (id : Nat) : Nat := (id + 5) <<< 3

/-- The AMD64 format of a 16-byte system-segment descriptor. -/
structure SysSegment where
  limit : BitVec 20
  base : Word
  type : BitVec 4
  s : BitVec 1
  dpl : BitVec 2
  present : BitVec 1
  granularity : BitVec 1
  zero : BitVec 5
  deriving DecidableEq

def decode (mem : Memory) (p : Nat → Cell) : SysSegment where
  limit := word mem p 48 4 ++ word mem p 0 16
  base := word mem p 64 32 ++ (word mem p 56 8 ++ word mem p 16 24)
  type := word mem p 40 4
  s := word mem p 44 1
  dpl := word mem p 45 2
  present := word mem p 47 1
  granularity := word mem p 55 1
  zero := word mem p 104 5

/-- The last byte of the segment. -/
def SysSegment.byteLimit (d : SysSegment) : Nat := if d.granularity = 1 then d.limit.toNat * 4096 + 4095 else d.limit.toNat

/-- The descriptor that a selector names. -/
def descriptor (mem : Memory) (selector : Nat) : SysSegment := decode mem fun k => .gdt64 (selector + k)

/-- The bit of `type` that tells a busy TSS from an available one. -/
def busy : Field := ⟨41,1⟩

/-- `ltr` faults on what is not a present, available TSS; it marks the TSS busy. -/
def ltr (selector : Nat) (mem : Memory) : Option (Memory × SysSegment) :=
  let d := descriptor mem selector
  if d.present = 1 ∧ d.s = 0 ∧ d.type = 0x9 ∧ d.zero = 0 then
    some (runs (busy.assign (fun k => .gdt64 (selector + k)) 1) mem,d)
  else none

/-! ### The vCPUs -/

/-- Where the linker and `long_mode` have put things. -/
structure Image where
  tss_seg : Word
  kern_stack : Nat → Word
  syscall_entry : Word

def Image.tss (b : Image) (id : Nat) : Word := b.tss_seg + BitVec.ofNat 64 (id * sizeof_tss_entry_t)

structure Machine where
  mem : Memory
  mutex_tss_fill_flush : Word

inductive Pc
  | start
  | lock (k : LockPc)
  | fill (p : Progress Cell)
  | ltr
  | unlock
  | user (p : Progress Cell)
  | msrs (todo : List (Nat × BitVec 32 × BitVec 32))
  | sti
  | done

structure Vcpu where
  pc : Pc
  stack_addr : Word
  tr : Option SysSegment
  msr : Nat → Word
  intr : Bool

/-- One step of `init_boot` on vCPU `id`. -/
def init_boot (b : Image) (id : Nat) (m : Machine) (l : Vcpu) : Option (Machine × Vcpu) :=
  match l.pc with
  | .start => some (m,{ l with pc := .lock (.cmpxchg RETRY_COUNT), stack_addr := b.kern_stack id })
  | .lock k =>
    let r := mutex_lock id k m.mutex_tss_fill_flush
    let fill := fill_tss (tss_seg id) (gdt_start (id + 5)) (b.tss id) l.stack_addr
    some ({ m with mutex_tss_fill_flush := r.1 },{ l with pc := r.2.elim (.fill ⟨fill,none⟩) .lock })
  | .fill p =>
    match p.step m.mem with
    | some (mem,p) => some ({ m with mem },{ l with pc := .fill p })
    | none => some (m,{ l with pc := .ltr })
  | .ltr => (ltr (flush_tss id) m.mem).map fun r => ({ m with mem := r.1 },{ l with pc := .unlock, tr := some r.2 })
  | .unlock =>
    some ({ m with mutex_tss_fill_flush := mutex_unlock m.mutex_tss_fill_flush },
      { l with pc := .user ⟨fill_user_mode_gdt,none⟩ })
  | .user p =>
    match p.step m.mem with
    | some (mem,p) => some ({ m with mem },{ l with pc := .user p })
    | none => some (m,{ l with pc := .msrs (set_syscall_msrs b.syscall_entry) })
  | .msrs [] => some (m,{ l with pc := .sti })
  | .msrs (r :: todo) => some (m,{ l with pc := .msrs todo, msr := set_msr l.msr r })
  | .sti => some (m,{ l with pc := .done, intr := true })
  | .done => none

def holds (l : Vcpu) : Bool :=
  match l.pc with
  | .fill _ | .ltr | .unlock => true
  | _ => false

/-- The vCPU stores to its TSS and its descriptor. -/
def fills (l : Vcpu) : Bool :=
  match l.pc with
  | .fill _ | .ltr => true
  | _ => false

theorem holds_of_fills {l : Vcpu} (is : fills l = true) : holds l = true := by
  obtain ⟨pc,stack_addr,tr,msr,intr⟩ := l
  cases pc <;> first | rfl | cases is

/-- The bytes that only vCPU `id` and its neighbours store to. -/
def Own (id : Nat) : Cell → Prop
  | .gdt64 o => (id + 5) * sizeof_gdt_entry_t ≤ o ∧ o < (id + 5) * sizeof_gdt_entry_t + sizeof_sys_desc_t
  | .tss_seg o => id * sizeof_tss_entry_t ≤ o ∧ o < id * sizeof_tss_entry_t + sizeof_tss_entry_t
/-- The bytes of the user segments. -/
def User : Cell → Prop
  | .gdt64 o => 3 * sizeof_gdt_entry_t ≤ o ∧ o < 5 * sizeof_gdt_entry_t
  | .tss_seg _ => False

theorem own_user {id : Nat} {a : Cell} (own : Own id a) : ¬ User a := by
  cases a with
  | gdt64 o =>
    simp only [Own,User,sizeof_gdt_entry_t] at *
    omega
  | tss_seg o => nofun

theorem own_desc {id k : Nat} (inside : k < sizeof_sys_desc_t) : Own id (gdt_start (id + 5) k) := by
  simp only [gdt_start,Own]
  omega

theorem own_tss {id k : Nat} (inside : k < sizeof_tss_entry_t) : Own id (tss_seg id k) := by
  simp only [tss_seg,Own]
  omega

theorem gdt_start_inj (i : Nat) : Function.Injective (gdt_start i) := by
  intro o o' same
  have offsets := Cell.gdt64.inj same
  omega

theorem tss_seg_inj (i : Nat) : Function.Injective (tss_seg i) := by
  intro o o' same
  have offsets := Cell.tss_seg.inj same
  omega

/-- The stores of `fill_tss` as `init_boot` calls it. -/
def fill (b : Image) (id : Nat) : List (Store Cell) :=
  fill_tss (tss_seg id) (gdt_start (id + 5)) (b.tss id) (b.kern_stack id)

/-- What a TSS descriptor of `init_boot` says. -/
def segment (b : Image) (id : Nat) : SysSegment :=
  ⟨BitVec.ofNat 20 (sizeof_tss_entry_t - 1),b.tss id,0x9,0,0,1,0,0⟩

theorem base_join (addr : Word) :
    BitVec.ofNat 32 ((addr &&& 0xFFFFFFFF00000000) >>> 32).toNat ++
      (BitVec.ofNat 8 ((addr &&& 0xFF000000) >>> 24).toNat ++ BitVec.ofNat 24 (addr &&& 0xFFFFFF).toNat) = addr := by
  have low : ∀ i < 64, (0xFFFFFF#64).getLsbD i = decide (i < 24) := by decide
  have mid : ∀ i < 64, (0xFF000000#64).getLsbD i = decide (24 ≤ i ∧ i < 32) := by decide
  have high : ∀ i < 64, (0xFFFFFFFF00000000#64).getLsbD i = decide (32 ≤ i) := by decide
  apply BitVec.eq_of_getLsbD_eq
  intro i inside
  simp only [BitVec.getLsbD_append,BitVec.ofNat_toNat,BitVec.getLsbD_setWidth,BitVec.getLsbD_ushiftRight,BitVec.getLsbD_and]
  by_cases first : i < 24
  · simp [first,show i < 32 by omega,low i inside]
  · by_cases second : i < 32
    · simp [first,second,show 24 + (i - 24) = i by omega,mid i inside,show i - 24 < 8 by omega]
      omega
    · simp [second,show 32 + (i - 32) = i by omega,high i inside,show i - 32 < 32 by omega]
      omega

/-- The bits of the descriptor, whatever was there before. -/
theorem decode_fill (b : Image) (id : Nat) (mem : Memory) :
    decode (runs (fill b id) mem) (gdt_start (id + 5)) = segment b id := by
  have inj := gdt_start_inj (id + 5)
  have read := @word_assign _ _ _ inj
  have skip := @word_assign_apart _ _ _ inj
  have zero := @word_memset _ _ _ inj
  simp (disch := decide) only [decode,segment,fill,fill_tss,runs_append,read,skip,zero,base_join]
  rfl

/-- The stack that the TSS names. -/
theorem rsp0_fill (b : Image) (id : Nat) (mem : Memory) :
    word (runs (fill b id) mem) (tss_seg id) TssEntry.rsp0.lo 64 = b.kern_stack id := by
  have inj := tss_seg_inj id
  have read := @word_assign _ _ _ inj
  have skip := @word_assign_apart _ _ _ inj
  have other : ∀ (f : Field) (v : Nat) (mem : Memory),
      word (runs (f.assign (gdt_start (id + 5)) v) mem) (tss_seg id) TssEntry.rsp0.lo 64 =
        word mem (tss_seg id) TssEntry.rsp0.lo 64 := by
    intro f v mem
    refine word_out (fun op member k => ?_) mem
    obtain ⟨b,at',-⟩ := addr_assign member
    rw [at']
    nofun
  have other' : ∀ mem : Memory,
      word (runs (memset (gdt_start (id + 5)) 0 sizeof_sys_desc_t) mem) (tss_seg id) TssEntry.rsp0.lo 64 =
        word mem (tss_seg id) TssEntry.rsp0.lo 64 := by
    intro mem
    refine word_out (fun op member k => ?_) mem
    obtain ⟨b,at',-⟩ := addr_memset member
    rw [at']
    nofun
  simp (disch := decide) only [fill,fill_tss,runs_append,other,other',read,skip]
  simp

/-- The bytes that `fill_tss` stores to are its own. -/
theorem fill_own {b : Image} {id : Nat} {op : Store Cell} (member : op ∈ fill b id) : Own id op.addr := by
  have inTss : ∀ {f : Field} {v : Nat}, (f.lo + f.width - 1) / 8 + 1 ≤ sizeof_tss_entry_t → op ∈ f.assign (tss_seg id) v →
      Own id op.addr := by
    intro f v fits member
    obtain ⟨k,at',-,inside⟩ := addr_assign member
    exact at' ▸ own_tss (by omega)
  have inDesc : ∀ {f : Field} {v : Nat}, (f.lo + f.width - 1) / 8 + 1 ≤ sizeof_sys_desc_t →
      op ∈ f.assign (gdt_start (id + 5)) v → Own id op.addr := by
    intro f v fits member
    obtain ⟨k,at',-,inside⟩ := addr_assign member
    exact at' ▸ own_desc (by omega)
  simp only [fill,fill_tss,List.mem_append] at member
  rcases member with ((((((((((((is | is) | is) | is) | is) | is) | is) | is) | is) | is) | is) | is) | is)
  · obtain ⟨k,at',inside⟩ := addr_memset is
    exact at' ▸ own_tss inside
  · exact inTss (by decide) is
  · exact inTss (by decide) is
  · obtain ⟨k,at',inside⟩ := addr_memset is
    exact at' ▸ own_desc inside
  all_goals exact inDesc (by decide) is

theorem user_user {op : Store Cell} (member : op ∈ fill_user_mode_gdt) : User op.addr := by
  have inside : ∀ {i k : Nat}, (i = 3 ∨ i = 4) → k < sizeof_gdt_entry_t → User (gdt_start i k) := by
    intro i k which inside
    simp only [gdt_start,User]
    rcases which with rfl | rfl <;> omega
  have inField : ∀ {i : Nat} {f : Field} {v : Nat}, (i = 3 ∨ i = 4) → (f.lo + f.width - 1) / 8 + 1 ≤ sizeof_gdt_entry_t →
      op ∈ f.assign (gdt_start i) v → User op.addr := by
    intro i f v which fits member
    obtain ⟨k,at',-,below⟩ := addr_assign member
    exact at' ▸ inside which (by omega)
  have inEntry : ∀ {i : Nat}, (i = 3 ∨ i = 4) → op ∈ memset (gdt_start i) 0 sizeof_gdt_entry_t → User op.addr := by
    intro i which member
    obtain ⟨k,at',below⟩ := addr_memset member
    exact at' ▸ inside which below
  simp only [fill_user_mode_gdt,init_CS,init_DS,List.mem_append] at member
  rcases member with ((((((((is | is) | is) | is) | is) | is) | is) | ((((is | is) | is) | is) | is)) | is)
  all_goals first | exact inEntry (by decide) is | exact inField (by decide) (by decide) is

/-! ### Runs -/

/-- vCPUs with different numbers, and where the linker has put what they use. -/
structure Vcpus (n : Nat) extends Image where
  id : Fin n → Nat
  small : ∀ i, id i < 64
  distinct : Function.Injective id

abbrev State (n : Nat) := Config (Fin n) Machine Vcpu

variable {n : Nat}

/-- From any memory, with the mutex free. -/
def Vcpus.system (v : Vcpus n) : System (State n) (Fin n × Unit) :=
  threads (fun s => s.shared.mutex_tss_fill_flush = 0 ∧ ∀ i, (s.loc i).pc = .start) fun i _ => init_boot v.toImage (v.id i)

/-- What a vCPU relies on while it has the mutex, and what it has done after that. -/
def Local (b : Image) (id : Nat) (mem : Memory) (l : Vcpu) : Prop :=
  match l.pc with
  | .start => True
  | .lock _ => l.stack_addr = b.kern_stack id
  | .fill p =>
    p.Fresh mem ∧ (∀ op ∈ p.todo, Own id op.addr) ∧ ∃ old, ∀ a, Own id a → runs p.todo mem a = runs (fill b id) old a
  | .ltr => ∃ old, ∀ a, Own id a → mem a = runs (fill b id) old a
  | .user p => l.tr = some (segment b id) ∧ ∀ op ∈ p.todo, User op.addr
  | .msrs todo =>
    l.tr = some (segment b id) ∧ ∀ r ∈ set_syscall_msrs b.syscall_entry, todo.foldl set_msr l.msr r.1 = r.2.1 ++ r.2.2
  | .sti => l.tr = some (segment b id) ∧ ∀ r ∈ set_syscall_msrs b.syscall_entry, l.msr r.1 = r.2.1 ++ r.2.2
  | .done =>
    l.tr = some (segment b id) ∧ (∀ r ∈ set_syscall_msrs b.syscall_entry, l.msr r.1 = r.2.1 ++ r.2.2) ∧ l.intr = true
  | .unlock => l.tr = some (segment b id)

theorem Local.frame {b : Image} {id : Nat} {mem mem' : Memory} {l : Vcpu} (holdsIt : Local b id mem l)
    (same : holds l = true → ∀ a, Own id a → mem' a = mem a) : Local b id mem' l := by
  obtain ⟨pc,stack_addr,tr,msr,intr⟩ := l
  cases pc with
  | fill p =>
    obtain ⟨fresh,own,old,left⟩ := holdsIt
    refine ⟨?_,own,old,fun a is => (runs_congr (same rfl) a is).trans (left a is)⟩
    intro op rest x todo loaded
    rw [same rfl _ (own op (by rw [todo]; exact .head _))]
    exact fresh op rest x todo loaded
  | ltr =>
    obtain ⟨old,left⟩ := holdsIt
    exact ⟨old,fun a is => (same rfl a is).trans (left a is)⟩
  | _ => exact holdsIt

/-- The descriptor has 16 bytes. -/
theorem decode_congr {mem mem' : Memory} {p : Nat → Cell} (same : ∀ k, k < sizeof_sys_desc_t → mem' (p k) = mem (p k)) :
    decode mem' p = decode mem p := by
  have words : ∀ {lo w : Nat}, lo + w ≤ 128 → word mem' p lo w = word mem p lo w := by
    intro lo w fits
    refine word_congr fun t _ _ => ?_
    unfold bit
    rw [same (t / 8) (by simp only [sizeof_sys_desc_t]; omega)]
  simp (disch := decide) only [decode,words]

/-- `flush_tss` selects the descriptor that `init_boot` fills. -/
theorem place_flush_tss (id : Nat) : (fun k => Cell.gdt64 (flush_tss id + k)) = gdt_start (id + 5) := by
  funext k
  rw [flush_tss,Nat.shiftLeft_eq]
  rfl

theorem descriptor_flush_tss (mem : Memory) (id : Nat) :
    descriptor mem (flush_tss id) = decode mem (gdt_start (id + 5)) := by
  rw [descriptor,place_flush_tss]

/-- What the vCPU reads at the `ltr`. -/
theorem descriptor_at_ltr {b : Image} {id : Nat} {mem old : Memory}
    (left : ∀ a, Own id a → mem a = runs (fill b id) old a) :
    descriptor mem (flush_tss id) = segment b id := by
  rw [descriptor_flush_tss,← decode_fill b id old]
  exact decode_congr fun k inside => left _ (own_desc inside)

/-- What `ltr` does when it does not fault. -/
theorem ltr_some {id : Nat} {mem mem' : Memory} {d : SysSegment} (loads : ltr (flush_tss id) mem = some (mem',d)) :
    d = descriptor mem (flush_tss id) ∧ mem' = runs (busy.assign (gdt_start (id + 5)) 1) mem := by
  simp only [ltr,place_flush_tss] at loads
  split at loads
  · cases loads
    exact ⟨rfl,rfl⟩
  · cases loads

theorem busy_own {id : Nat} {op : Store Cell} (member : op ∈ busy.assign (gdt_start (id + 5)) 1) : Own id op.addr := by
  obtain ⟨k,at',low,high⟩ := addr_assign member
  simp only [busy] at low high
  rw [at']
  exact own_desc (by simp only [sizeof_sys_desc_t]; omega)

/-- A step keeps what the vCPU relies on, and stores only where it may. -/
theorem step_local {b : Image} {id : Nat} {m m' : Machine} {l l' : Vcpu} (before : Local b id m.mem l)
    (ran : init_boot b id m l = some (m',l')) :
    Local b id m'.mem l' ∧ ∀ a, ¬ User a → (fills l = true → ¬ Own id a) → m'.mem a = m.mem a := by
  obtain ⟨pc,stack_addr,tr,msr,intr⟩ := l
  cases pc with
  | start => cases ran; exact ⟨rfl,fun _ _ _ => rfl⟩
  | lock k =>
    obtain rfl : stack_addr = b.kern_stack id := before
    cases ran
    refine ⟨?_,fun _ _ _ => rfl⟩
    cases (mutex_lock id k m.mutex_tss_fill_flush).2 with
    | some k' => rfl
    | none => exact ⟨nofun,fun op member => fill_own member,m.mem,fun _ _ => rfl⟩
  | fill p =>
    obtain ⟨fresh,own,old,left⟩ := before
    simp only [init_boot] at ran
    cases stepped : p.step m.mem with
    | none =>
      rw [stepped] at ran
      cases ran
      rw [Progress.step_none stepped] at left
      exact ⟨⟨old,left⟩,fun _ _ _ => rfl⟩
    | some r =>
      rw [stepped] at ran
      cases ran
      obtain ⟨fresh',same⟩ := Progress.step_runs fresh stepped
      obtain ⟨fewer,frame⟩ := Progress.step_frame stepped
      refine ⟨⟨fresh',fun op member => own op (fewer op member),old,fun a is => ?_⟩,fun a _ out => ?_⟩
      · rw [same]
        exact left a is
      · exact frame a fun op member at' => out rfl (at' ▸ own op member)
  | ltr =>
    obtain ⟨old,left⟩ := before
    obtain ⟨⟨mem,d⟩,loads,same⟩ := Option.map_eq_some_iff.mp ran
    cases same
    obtain ⟨rfl,rfl⟩ := ltr_some loads
    refine ⟨congrArg some (descriptor_at_ltr left),fun a _ out => ?_⟩
    have elsewhere : ∀ op ∈ busy.assign (gdt_start (id + 5)) 1, op.addr ≠ a := fun op member at' =>
      out rfl (at' ▸ busy_own member)
    exact runs_out elsewhere _
  | unlock =>
    cases ran
    exact ⟨⟨before,fun op member => user_user member⟩,fun _ _ _ => rfl⟩
  | user p =>
    obtain ⟨tr,user⟩ := before
    simp only [init_boot] at ran
    cases stepped : p.step m.mem with
    | none =>
      rw [stepped] at ran
      cases ran
      refine ⟨⟨tr,?_⟩,fun _ _ _ => rfl⟩
      simp [set_syscall_msrs,set_msr,MSR_STAR,MSR_LSTAR,MSR_SFMASK,Function.update_apply]
    | some r =>
      rw [stepped] at ran
      cases ran
      obtain ⟨fewer,frame⟩ := Progress.step_frame stepped
      exact ⟨⟨tr,fun op member => user op (fewer op member)⟩,
        fun a out _ => frame a fun op member at' => out (at' ▸ user op member)⟩
  | msrs todo =>
    cases todo with
    | nil => cases ran; exact ⟨before,fun _ _ _ => rfl⟩
    | cons r todo => cases ran; exact ⟨before,fun _ _ _ => rfl⟩
  | sti => cases ran; exact ⟨⟨before.1,before.2,rfl⟩,fun _ _ _ => rfl⟩
  | done => cases ran

structure Inv (v : Vcpus n) (s : State n) : Prop where
  locks : Locks v.id holds s.shared.mutex_tss_fill_flush s.loc
  each : ∀ i, Local v.toImage (v.id i) s.shared.mem (s.loc i)

theorem Inv.start {v : Vcpus n} {s : State n} (first : v.system.init s) : Inv v s := by
  refine ⟨fun i is => ?_,fun i => ?_⟩
  · simp [holds,first.2 i] at is
  · simp [Local,first.2 i]

/-- A step takes the mutex, gives it back, or does neither. -/
theorem step_locks {v : Vcpus n} {s : State n} {i : Fin n} {m' : Machine} {loc' : Fin n → Vcpu}
    (locks : Locks v.id holds s.shared.mutex_tss_fill_flush s.loc) (others : ∀ j, j ≠ i → loc' j = s.loc j)
    (ran : init_boot v.toImage (v.id i) s.shared (s.loc i) = some (m',loc' i)) :
    Locks v.id holds m'.mutex_tss_fill_flush loc' := by
  generalize before : s.loc i = l at ran
  generalize after : loc' i = l' at ran
  obtain ⟨pc,stack_addr,tr,msr,intr⟩ := l
  have still : m'.mutex_tss_fill_flush = s.shared.mutex_tss_fill_flush → holds l' = holds ⟨pc,stack_addr,tr,msr,intr⟩ →
      Locks v.id holds m'.mutex_tss_fill_flush loc' := fun word same => locks.still others word (by rw [after,before,same])
  cases pc with
  | start => cases ran; exact still rfl rfl
  | lock k =>
    cases ran
    refine locks.lock v.small (k := k) (r := (mutex_lock (v.id i) k s.shared.mutex_tss_fill_flush).2) others rfl
      (by rw [before]; rfl) ?_
    rw [after]
    cases (mutex_lock (v.id i) k s.shared.mutex_tss_fill_flush).2 <;> rfl
  | fill p =>
    simp only [init_boot] at ran
    split at ran <;> cases ran <;> exact still rfl rfl
  | ltr =>
    obtain ⟨r,-,same⟩ := Option.map_eq_some_iff.mp ran
    cases same
    exact still rfl rfl
  | unlock =>
    cases ran
    exact locks.unlock v.small v.distinct others (by rw [before]; rfl) (by rw [after]; rfl)
  | user p =>
    simp only [init_boot] at ran
    split at ran <;> cases ran <;> exact still rfl rfl
  | msrs todo => cases todo <;> cases ran <;> exact still rfl rfl
  | sti => cases ran; exact still rfl rfl
  | done => cases ran

/-- A step changes no byte of a descriptor or a TSS that another vCPU is filling. -/
theorem Inv.step {v : Vcpus n} {s s' : State n} {a : Fin n × Unit} (inv : Inv v s) (moved : v.system.step s a = some s') :
    Inv v s' := by
  obtain ⟨i,x⟩ := a
  obtain ⟨m',l',ran,shared',after,others⟩ := threads_moved moved
  obtain ⟨mine,frame⟩ := step_local (inv.each i) ran
  rw [← shared',← after] at ran
  rw [← shared'] at mine frame
  refine ⟨step_locks inv.locks others ran,?_⟩
  refine forall_of_others (P := fun j l => Local v.toImage (v.id j) s'.shared.mem l) others (by rw [after]; exact mine) ?_
  intro j other
  refine (inv.each j).frame fun held a own => frame a (own_user own) fun mine _ => ?_
  exact other (inv.locks.unique v.small v.distinct held (holds_of_fills mine))

/-- A present TSS with this base, and the limit of a `tss_entry_t`. -/
structure PresentTss (d : SysSegment) (base : Word) : Prop where
  present : d.present = 1
  system : d.s = 0
  type : d.type = 0x9 ∨ d.type = 0xB
  zero : d.zero = 0
  base : d.base = base
  byteLimit : d.byteLimit = sizeof_tss_entry_t - 1

def Available (d : SysSegment) : Prop := d.type = 0x9

/-- When a vCPU executes `ltr`, its selector names the whole descriptor of its own TSS,
    which holds its own stack. -/
theorem ltr_sees_own_tss {v : Vcpus n} {s : State n} (reach : Reachable v.system s) {i : Fin n}
    (loads : (s.loc i).pc = .ltr) :
    PresentTss (descriptor s.shared.mem (flush_tss (v.id i))) (v.tss (v.id i)) ∧
      Available (descriptor s.shared.mem (flush_tss (v.id i))) ∧
      word s.shared.mem (tss_seg (v.id i)) TssEntry.rsp0.lo 64 = v.kern_stack (v.id i) := by
  have inv : Inv v s := reach.invariant (fun _ first => .start first) fun _ _ _ _ inv _ moved => inv.step moved
  have relies := inv.each i
  rw [Local,loads] at relies
  obtain ⟨old,left⟩ := relies
  rw [descriptor_at_ltr left]
  refine ⟨⟨rfl,rfl,.inl rfl,rfl,rfl,rfl⟩,rfl,?_⟩
  rw [← rsp0_fill v.toImage (v.id i) old]
  refine word_congr fun t _ below => ?_
  simp only [TssEntry.rsp0] at below
  unfold bit
  rw [left _ (own_tss (by simp only [sizeof_tss_entry_t]; omega))]

/-- vCPUs 0 and 1 with `tss_seg` at an address above 4 GiB. -/
def pair : Vcpus 2 :=
  ⟨⟨0x123456789,fun id => 0x4000 + 0x1000 * BitVec.ofNat 64 id,0xFFFFFFFF81000000⟩,fun i => i.val,
    Bits.val_small,Bits.val_distinct⟩

def pairStart : State 2 := ⟨⟨fun _ => 0xFF,0⟩,fun _ => ⟨.start,0,none,fun _ => 0,false⟩⟩

def atLtr (i : Fin 2) (s : State 2) : Bool :=
  match (s.loc i).pc with
  | .ltr => true
  | _ => false

theorem atLtr_iff {i : Fin 2} {s : State 2} (is : atLtr i s = true) : (s.loc i).pc = .ltr := by
  unfold atLtr at is
  split at is
  · assumption
  · cases is

/-- vCPU 1 boots first; then vCPU 0 fills its descriptor over half of vCPU 1's. -/
theorem ltr_sees_own_tss_pair : ∃ s, Reachable pair.system s ∧ atLtr 0 s = true ∧
    PresentTss (descriptor s.shared.mem (flush_tss (pair.id 0))) (pair.tss (pair.id 0)) ∧
      Available (descriptor s.shared.mem (flush_tss (pair.id 0))) ∧
      word s.shared.mem (tss_seg (pair.id 0)) TssEntry.rsp0.lo 64 = pair.kern_stack (pair.id 0) := by
  have first : pair.system.init pairStart := ⟨rfl,fun _ => rfl⟩
  have ran : (exec pair.system pairStart
      (List.replicate 199 (1,()) ++ List.replicate 153 (0,()))).any (atLtr 0) = true := by decide +kernel
  obtain ⟨s,reach,loads⟩ := exec_exists first (fun _ _ _ => trivial) ran
  exact ⟨s,reach,loads,ltr_sees_own_tss reach (atLtr_iff loads)⟩

end Bootcode.InitBoot
