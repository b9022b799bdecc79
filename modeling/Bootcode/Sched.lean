import Bootcode.Interleave
import Bootcode.SchedState

/-!
The scheduler of `sched.c` as a step function: each function of the source maps
its program counter, and the shared records it touches, to the next. The system
`Sched` interleaves any number of vCPUs from the state that
`scheduler_init_pre` and `scheduler_init_post` leave behind.
-/
namespace Bootcode.Sched
open Bootcode.Bits Bootcode.SchedState Bootcode.Interleave

/-- `lock cmpxchgq`: the memory after it, and the value it returns. -/
def CAS (dst old new : Word) : Word × Word := (if dst = old then new else dst,dst)
/-- `lock cmpxchg16b`: the memory after it. -/
def DCAS (dst old new : Snap) : Snap := if dst = old then new else dst
/-- `lock xaddq`: the memory after it, and the value it returns. -/
def xadd (m rax : Int) : Int × Int := (m + rax,m)

/-- The `lock btsq` of `add_runnable_fn(fn)`: word `fn >> 6`, bit `fn & 0x3F`. -/
def add_runnable_fn (t : Tasks) (fn : Nat) : Tasks :=
  { t with bm_run_fn := Function.update t.bm_run_fn (fn / 64) (bts (t.bm_run_fn (fn / 64)) (fn % 64)) }

/-- One step of `process_sched_dag(id, fn)`; the second part is `none` when it
    returns. `s`, `e` and `i` are `uint8_t`. -/
def process_sched_dag (fn : Nat) (t : Tasks) : DagPc → Tasks × Option DagPc
  | .ldNodes => (t,some (.ldFirst (t.metadata.num_nodes % 256)))
  | .ldFirst num_nodes => (t,some (.ldLast num_nodes ((t.metadata.dag (num_nodes + fn) + 2 * num_nodes + 1) % 256)))
  | .ldLast num_nodes s => (t,some (.loop s ((t.metadata.dag (num_nodes + fn + 1) + 2 * num_nodes + 1) % 256)))
  | .loop i e => if i < e then (t,some (.dec i e (t.metadata.dag i % 256))) else (t,none)
  | .dec i e out_fn =>
    let count := t.dag_in_count out_fn - 1
    ({ t with dag_in_count := Function.update t.dag_in_count out_fn count },
      some (if count = 0 then .inc i e out_fn else .loop ((i + 1) % 256) e))
  | .inc i e out_fn => ({ t with runnable_tasks := t.runnable_tasks + 1 },some (.bts i e out_fn))
  | .bts i e out_fn => (add_runnable_fn t out_fn,some (.loop ((i + 1) % 256) e))

/-- How a step of `get_work` goes on: in the scan, or by returning. -/
inductive Scan
  | more (k : ScanPc)
  | found (fn : Nat)
  | nothing

/-- One step of `get_work()`. -/
def get_work (t : Tasks) : ScanPc → Tasks × Scan
  | .bsf idx =>
    match Bits.bsf (t.bm_run_fn idx) with
    | some rax => (t,.more (.btr idx rax))
    | none => (t,if idx = 3 then .nothing else .more (.bsf (idx + 1)))
  | .btr idx rax =>
    ({ t with bm_run_fn := Function.update t.bm_run_fn idx (btr (t.bm_run_fn idx) rax) },
      if (t.bm_run_fn idx).getLsbD rax then .found (64 * idx + rax) else .more (.bsf idx))

/-! ### `wake_up_task` -/

/-- One step of `wake_up_task()` on vCPU `id`; the second part is `none` when it
    returns. -/
def wake_up_task (id : Nat) (tsc runnable_tasks : Word) (w : Wakes) : WakePc → Wakes × Option WakePc × Option Ev
  | .ldKicked => (w,some (.dcas1 w.bm_kicked_vcpus),none)
  | .dcas1 bm =>
    ({ w with ss_reflective_bm1 := DCAS w.ss_reflective_bm1 ⟨0,0⟩ ⟨bm,bm⟩ },some (.bsf1 none),none)
  -- The result of e_bsf is no early clobber: in both copies of this loop it shares rax with
  -- f, and a lost race for the last bit returns the index that was lost instead of -1.
  | .bsf1 rax =>
    match Bits.bsf w.ss_reflective_bm1.word0, rax with
    | some cpuid, _ => (w,some (.btr1 cpuid),none)
    | none, some cpuid => (w,some (.tsc1 cpuid false),none)
    | none, none => (w,some .ldRunnable,none)
  | .btr1 cpuid =>
    ({ w with ss_reflective_bm1 := w.ss_reflective_bm1.take cpuid },
      some (if w.ss_reflective_bm1.word0.getLsbD cpuid then .tsc1 cpuid true else .bsf1 (some cpuid)),none)
  | .tsc1 cpuid won => (w,some (.ldKick1 cpuid won tsc),none)
  | .ldKick1 cpuid won t =>
    (w,some (if (t - w.kick_ts cpuid).toInt > rekick_thd then .tsc2 cpuid won else .rel1 cpuid won),none)
  | .tsc2 cpuid won => (w,some (.stKick1 cpuid won tsc),none)
  | .stKick1 cpuid won t => ({ w with kick_ts := Function.update w.kick_ts cpuid t },some (.kick1 cpuid won),none)
  | .kick1 cpuid won => (w.kick cpuid,some (.rel1 cpuid won),none)
  | .rel1 cpuid _ => ({ w with ss_reflective_bm1 := w.ss_reflective_bm1.release cpuid },some (.bsf1 none),none)
  | .ldRunnable => (w,some (.ldFree runnable_tasks),none)
  | .ldFree runnable =>
    let tmp := (runnable - w.num_free_vcpu).toInt
    (w,some (if tmp > 0 then .casSig tmp else .ldInactive),none)
  | .casSig tmp =>
    let cas := CAS w.sig_wake_num_vcpu_is_0 1 0
    ({ w with sig_wake_num_vcpu_is_0 := cas.1 },some (if cas.2 = 1 then .stWakeNum tmp else .ldInactive),none)
  | .stWakeNum tmp => ({ w with wake_num_vcpu := tmp },some .ldInactive,some (.grant tmp))
  | .ldInactive => (w,some (.dcas w.bm_inactive_vcpus),none)
  | .dcas bm => ({ w with ss_reflective_bm := DCAS w.ss_reflective_bm ⟨0,0⟩ ⟨bm,bm⟩ },some .xadd,none)
  | .xadd =>
    let old := xadd w.wake_num_vcpu (-1)
    ({ w with wake_num_vcpu := old.1 },
      (if old.2 > 0 then (if old.2 = 1 then some .stSig else some .bsf) else none),some (.draw old.2))
  | .stSig => ({ w with sig_wake_num_vcpu_is_0 := 1 },some .bsf,none)
  -- Here f keeps a register of its own.
  | .bsf =>
    match Bits.bsf w.ss_reflective_bm.word0 with
    | some cpuid => (w,some (.btr cpuid),none)
    | none => (w,none,none)
  | .btr cpuid =>
    ({ w with ss_reflective_bm := w.ss_reflective_bm.take cpuid },
      some (if w.ss_reflective_bm.word0.getLsbD cpuid then .ldHlt cpuid else .bsf),none)
  | .ldHlt cpuid => (w,some (.ldKick cpuid (w.hlt_ts cpuid)),none)
  | .ldKick cpuid hlt =>
    if hlt.toNat > (w.kick_ts cpuid).toNat then (w,some (.incFree cpuid),some (.firstKick id cpuid))
    else (w,some (.skip cpuid),none)
  | .incFree cpuid => ({ w with num_free_vcpu := w.num_free_vcpu + 1 },some (.tsc cpuid),none)
  | .tsc cpuid => (w,some (.stKick cpuid tsc),none)
  | .stKick cpuid t => ({ w with kick_ts := Function.update w.kick_ts cpuid t },some (.bts cpuid),none)
  | .bts cpuid => ({ w with bm_kicked_vcpus := bts w.bm_kicked_vcpus cpuid },some (.kick cpuid),none)
  | .kick cpuid => (w.kick cpuid,some (.rel cpuid),none)
  | .rel cpuid => ({ w with ss_reflective_bm := w.ss_reflective_bm.release cpuid },some .xadd,none)
  | .skip cpuid => ({ w with ss_reflective_bm := w.ss_reflective_bm.release cpuid },some .bsf,none)

/-! ### The parts of `sched` -/

/-- A `hlt` on vCPU `id`: it returns spuriously, or by consuming a wake token, or
    not at all. -/
def hlt (id : Nat) (intr : Bool) (w : Wakes) : Option Wakes :=
  if intr then some w
  else if w.token id then some { w with token := Function.update w.token id false } else none

/-- The two `lock btrq` and the `lock incq` after a `hlt`, in `sched` and in
    `wake_up_event`: the bit of `bm_kicked_vcpus` tells whether a waker has
    already counted the vCPU. -/
def btrInactive (id : Nat) (w : Wakes) : Wakes := { w with bm_inactive_vcpus := btr w.bm_inactive_vcpus id }
def btrKicked (id : Nat) (w : Wakes) : Wakes × Bool :=
  ({ w with bm_kicked_vcpus := btr w.bm_kicked_vcpus id },w.bm_kicked_vcpus.getLsbD id)
def incFree (w : Wakes) : Wakes := { w with num_free_vcpu := w.num_free_vcpu + 1 }
def decFree (w : Wakes) : Wakes := { w with num_free_vcpu := w.num_free_vcpu - 1 }

/-- Where `sched` goes once `wake_up_task` is over. -/
def afterWake (fn : Nat) : Pc := if fn ≠ NULL_FUNC then .incFin fn else .scan (.bsf 0)
/-- `if(vcpu_pool_sz != 1) wake_up_task();` -/
def goWake (w : Wakes) (fn : Nat) : Pc := if w.vcpu_pool_sz ≠ 1 then .wake fn .ldKicked else afterWake fn

/-- One step of the boot `hlt` of `main` and of `wake_up_event(id)`. -/
def wake_up_event (id : Nat) (intr : Bool) (w : Wakes) : BootPc → Option (Wakes × Pc)
  | .hlt => (hlt id intr w).map fun w => (w,.boot .btrInactive)
  | .btrInactive => some (btrInactive id w,.boot .btrKicked)
  | .btrKicked => some ((btrKicked id w).1,if (btrKicked id w).2 then .enter .tsc else .boot .incFree)
  | .incFree => some (incFree w,.enter .tsc)

/-- One step of the accounting of a finished function `fn`. -/
def finished (fn : Nat) (tsc : Word) (w : Wakes) (b : Book) : FinPc → Wakes × Book × Pc
  | .incFree => (incFree w,b,.fin fn .tsc)
  | .tsc => (w,b,.fin fn (.ldTime tsc))
  | .ldTime t => (w,b,.fin fn (.stTime (t - b.func_times fn)))
  | .stTime dt => (w,{ b with dag_func_time := Function.update b.dag_func_time fn dt },.dag fn .ldNodes)

/-- One step from a failed `get_work` to the CAS on `num_fin_fn`; the CAS logs a
    `turnover` when it succeeds. -/
def noWork (id : Nat) (t : Tasks) (w : Wakes) : NoWorkPc → Tasks × Wakes × Pc × Option Ev
  | .decFree => (t,decFree w,.noWork .ldTot,none)
  | .ldTot => (t,w,.noWork (.cas t.metadata.num_nodes),none)
  | .cas tot_fn =>
    let tot := BitVec.ofNat 64 tot_fn
    let cas := CAS t.num_fin_fn tot 0
    ({ t with num_fin_fn := cas.1 },w,if cas.2 = tot then .reset .ldStart else .halt .tsc,
      if cas.2 = tot then some (.turnover id) else none)

/-- One step of the epoch reset on vCPU `id`. In the `exit` the host may install
    new metadata, any number of times, before it lets the vCPU go on. -/
def reset (id : Nat) (x : Input) (t : Tasks) (w : Wakes) (b : Book) (t1 : Word) :
    ResetPc → Tasks × Wakes × Book × Word × Pc × Option Ev
  | .ldStart => (t,w,b,t1,.reset (if b.dag_start_tsc ≠ 0 then .tscTot else .outw),none)
  | .tscTot => (t,w,b,t1,.reset (.ldTot x.tsc),none)
  | .ldTot now => (t,w,b,t1,.reset (.stTot (now - b.dag_start_tsc)),none)
  | .stTot dt => (t,w,{ b with dag_tot_tsc_time := dt },t1,.reset .ldInp,none)
  | .ldInp => (t,w,b,t1,.reset (.stInp (b.dag_tot_proc_inp + 1)),none)
  | .stInp n => (t,w,{ b with dag_tot_proc_inp := n },t1,.reset .outw,none)
  | .outw => (t,w,b,t1,.reset .exit,some (.waiting id))
  | .exit =>
    match x.host with
    | some metadata => ({ t with metadata := metadata },w,b,t1,.reset .exit,none)
    | none => (t,w,b,t1,.reset .incFree,none)
  | .incFree => (t,incFree w,b,t1,.reset .tsc,none)
  | .tsc => (t,w,b,x.tsc,.reset (.stStart x.tsc),none)
  | .stStart now => (t,w,{ b with dag_start_tsc := now },t1,.reset .clr0,none)
  | .clr0 => (t,{ w with ss_reflective_bm := { w.ss_reflective_bm with word0 := 0 } },b,t1,.reset .clr1,none)
  | .clr1 => (t,{ w with ss_reflective_bm := { w.ss_reflective_bm with word1 := 0 } },b,t1,.reset .clr10,none)
  | .clr10 => (t,{ w with ss_reflective_bm1 := { w.ss_reflective_bm1 with word0 := 0 } },b,t1,.reset .clr11,none)
  | .clr11 => (t,{ w with ss_reflective_bm1 := { w.ss_reflective_bm1 with word1 := 0 } },b,t1,.reset .ldKicked,none)
  | .ldKicked => (t,w,b,t1,.reset (if w.bm_kicked_vcpus = 0 then .popcnt else .ldNodes),none)
  | .popcnt =>
    let rest := BitVec.ofNat 64 w.vcpu_pool_sz - BitVec.ofNat 64 (popcnt w.bm_inactive_vcpus)
    (t,w,b,t1,.reset (if rest = 1 then .stFree else .ldNodes),none)
  | .stFree => (t,{ w with num_free_vcpu := 1 },b,t1,.reset .stRunnable,none)
  | .stRunnable => ({ t with runnable_tasks := 0 },w,b,t1,.reset .ldNodes,none)
  | .ldNodes => (t,w,b,t1,.reset (.ldDag 0 t.metadata.num_nodes),none)
  | .ldDag i len =>
    (t,w,b,t1,.reset (if i < len then .stCount i len (t.metadata.dag i) else .ldStartFunc),none)
  | .stCount i len count =>
    ({ t with dag_in_count := Function.update t.dag_in_count i (BitVec.ofNat 8 count) },w,b,t1,
      .reset (.ldDag (i + 1) len),none)
  | .ldStartFunc => (t,w,b,t1,.reset (.inc t.metadata.start_func),none)
  | .inc fn => ({ t with runnable_tasks := t.runnable_tasks + 1 },w,b,t1,.reset (.bts fn),none)
  | .bts fn => (add_runnable_fn t fn,w,b,t1,.scan (.bsf 0),none)

/-- One step of the halt path of `sched` on vCPU `id`. -/
def haltPath (id : Nat) (x : Input) (w : Wakes) (b : Book) (t1 : Word) :
    HaltPc → Option (Wakes × Book × Word × Pc × Option Ev)
  | .tsc => some (w,b,t1,.halt (.stHlt x.tsc),none)
  | .stHlt t => some ({ w with hlt_ts := Function.update w.hlt_ts id t },b,t1,.halt .ldHlt,some (.halted id))
  | .ldHlt => some (w,b,t1,.halt (.addTs (w.hlt_ts id)),none)
  | .addTs t2 => some (w,{ b with dag_ts := b.dag_ts + (t2 - t1) },t1,.halt .incN,none)
  | .incN => some (w,{ b with dag_n := b.dag_n + 1 },t1,.halt .bts,none)
  | .bts => some ({ w with bm_inactive_vcpus := Bits.bts w.bm_inactive_vcpus id },b,t1,.halt .hlt,none)
  | .hlt => (hlt id x.intr w).map fun w => (w,b,t1,.halt .btrInactive,none)
  | .btrInactive => some (btrInactive id w,b,t1,.halt .btrKicked,none)
  | .btrKicked =>
    some ((btrKicked id w).1,b,t1,if (btrKicked id w).2 then .halt .tscOut else .halt .incFree,none)
  | .incFree => some (incFree w,b,t1,.halt .tscOut,none)
  | .tscOut => some (w,b,x.tsc,.scan (.bsf 0),none)

/-- The user context that `jump2fn` builds for function `fn`. -/
def jump_usermode (info : FuncInfo) (fn : Nat) : UserCtx where
  rip := info.entry_addr
  rsp := info.stack_load_addr
  rdi := info.inp_off + 0x80000000
  rsi := info.out_off + 0x80000000
  rdx := BitVec.ofNat 64 fn

/-- One step from a successful `get_work` to user mode: the counters, and
    `jump2fn(id, fn)` from `stCurrent` on. -/
def jump2fn (id fn : Nat) (tsc : Word) (t : Tasks) (w : Wakes) (b : Book) (v : Vcpu) :
    WorkPc → Tasks × Wakes × Book × Vcpu × Option Ev
  | .decFree => (t,decFree w,b,{ v with pc := .work fn .decRunnable },none)
  | .decRunnable => ({ t with runnable_tasks := t.runnable_tasks - 1 },w,b,{ v with pc := .work fn .tsc },none)
  | .tsc => (t,w,b,{ v with pc := .work fn (.addTs tsc) },none)
  | .addTs t2 => (t,w,{ b with dag_ts := b.dag_ts + (t2 - v.t1) },{ v with pc := .work fn .incN },none)
  | .incN => (t,w,{ b with dag_n := b.dag_n + 1 },{ v with pc := .work fn .stCurrent },none)
  | .stCurrent => (t,w,b,{ v with pc := .work fn .ldInfo, current := fn % 256 },none)
  | .ldInfo => (t,w,b,{ v with pc := .work fn (.stPg (t.metadata.func_info (fn % 256))) },none)
  | .stPg info =>
    (t,w,{ b with pg_tbls := Function.update b.pg_tbls id (info.pt_addr ||| 7) },
      { v with pc := .work fn (.tscFn info) },none)
  | .tscFn info => (t,w,b,{ v with pc := .work fn (.stFn info tsc) },none)
  | .stFn info now =>
    (t,w,{ b with func_times := Function.update b.func_times (fn % 256) now },{ v with pc := .work fn (.jump info) },none)
  | .jump info =>
    (t,w,b,{ v with pc := .user (fn % 256) (jump_usermode info (fn % 256)) },some (.dispatch id (fn % 256)))

/-- One step of vCPU `id`, without the clock. -/
def sched (id : Nat) (x : Input) (s : Shared) (v : Vcpu) : Option (Shared × Vcpu) :=
  match v.pc with
  | .boot k => (wake_up_event id x.intr s.wakes k).map fun r => ({ s with wakes := r.1 },{ v with pc := r.2 })
  | .enter .tsc => some (s,{ v with pc := .enter .ldCurrent, t1 := x.tsc })
  | .enter .ldCurrent =>
    some (s,{ v with pc := if v.current ≠ NULL_FUNC then .fin v.current .incFree else goWake s.wakes v.current })
  | .fin fn k =>
    let r := finished fn x.tsc s.wakes s.book k
    some ({ s with wakes := r.1, book := r.2.1 },{ v with pc := r.2.2 })
  | .dag fn k =>
    let r := process_sched_dag fn s.tasks k
    some ({ s with tasks := r.1 },{ v with pc := (r.2.map (Pc.dag fn)).getD (.clrCurrent fn) })
  | .clrCurrent fn => some (s,{ v with pc := goWake s.wakes fn, current := NULL_FUNC })
  | .wake fn k =>
    let r := wake_up_task id x.tsc s.tasks.runnable_tasks s.wakes k
    some ({ s with wakes := r.1, log := r.2.2.toList ++ s.log },
      { v with pc := (r.2.1.map (Pc.wake fn)).getD (afterWake fn) })
  | .incFin fn =>
    some ({ s with tasks := { s.tasks with num_fin_fn := s.tasks.num_fin_fn + 1 }, log := .counted id fn :: s.log },
      { v with pc := .scan (.bsf 0) })
  | .scan k =>
    let r := get_work s.tasks k
    some ({ s with tasks := r.1 },
      { v with pc := match r.2 with | .more k => .scan k | .found fn => .work fn .decFree | .nothing => .noWork .decFree })
  | .noWork k =>
    let r := noWork id s.tasks s.wakes k
    some ({ s with tasks := r.1, wakes := r.2.1, log := r.2.2.2.toList ++ s.log },{ v with pc := r.2.2.1 })
  | .reset k =>
    let r := reset id x s.tasks s.wakes s.book v.t1 k
    some ({ s with tasks := r.1, wakes := r.2.1, book := r.2.2.1, log := r.2.2.2.2.2.toList ++ s.log },
      { v with t1 := r.2.2.2.1, pc := r.2.2.2.2.1 })
  | .halt k =>
    (haltPath id x s.wakes s.book v.t1 k).map fun r =>
      ({ s with wakes := r.1, book := r.2.1, log := r.2.2.2.2.toList ++ s.log },
        { v with t1 := r.2.2.1, pc := r.2.2.2.1 })
  | .work fn k =>
    let r := jump2fn id fn x.tsc s.tasks s.wakes s.book v k
    some ({ s with tasks := r.1, wakes := r.2.1, book := r.2.2.1, log := r.2.2.2.2.toList ++ s.log },r.2.2.2.1)
  -- The user function ends with syscall 0x20a, whose handler calls `sched`.
  | .user fn _ => some ({ s with log := .finish id fn :: s.log },{ v with pc := .enter .tsc })

/-- One step of vCPU `id`, which also records the time stamp it reads. -/
def vcpuStep (id : Nat) (x : Input) (s : Shared) (v : Vcpu) : Option (Shared × Vcpu) :=
  (sched id x s v).map fun r => ({ r.1 with clock := if v.pc.readsTsc then x.tsc else s.clock },r.2)

/-! ### Initialisation -/

/-- `scheduler_init_pre(pool_sz)`; x86 takes the shift count modulo 64. -/
def scheduler_init_pre (pool_sz : Nat) (s : Shared) : Shared :=
  { s with
    wakes :=
      { s.wakes with
        bm_kicked_vcpus := 0
        bm_inactive_vcpus := btr ((1 <<< (pool_sz % 64)) - 1) 0
        sig_wake_num_vcpu_is_0 := 1
        num_free_vcpu := 1
        vcpu_pool_sz := pool_sz }
    book := { s.book with dag_ts := 0, dag_n := 0, dag_tot_tsc_time := 0, dag_tot_proc_inp := 0 } }

/-- `scheduler_init_post(pool_sz)`, which reads the time stamp `t`. -/
def scheduler_init_post (pool_sz : Nat) (t : Word) (s : Shared) : Shared :=
  { s with
    tasks := { s.tasks with num_fin_fn := BitVec.ofNat 64 s.tasks.metadata.num_nodes }
    wakes := { s.wakes with hlt_ts := fun i => if 1 ≤ i ∧ i < pool_sz then t else s.wakes.hlt_ts i }
    book := { s.book with dag_start_tsc := 0 }
    clock := t }

/-- The static variables as the image initialises them, with the metadata of the
    host and the counts and statistics that its page happens to hold. -/
def image (metadata : Metadata) (dag_in_count : Nat → BitVec 8) (book : Book) : Shared where
  tasks := ⟨metadata,dag_in_count,fun _ => 0,0,0⟩
  wakes := ⟨0,0,fun _ => 0,fun _ => 0,0,1,0,0,⟨0,0⟩,⟨0,0⟩,fun _ => false⟩
  book := book
  clock := 0
  log := []

/-- vCPU 0 enters `sched`; every other vCPU is in its boot `hlt`. -/
def bootVcpu (id : Nat) : Vcpu where
  pc := if id = 0 then .enter .tsc else .boot .hlt
  current := NULL_FUNC
  t1 := 0

/-- A pool of `p` vCPUs as vCPU 0 enters `sched` for the first time. -/
def start (p : Nat) (metadata : Metadata) (dag_in_count : Nat → BitVec 8) (book : Book) (t : Word) :
    Config (Fin p) Shared Vcpu where
  shared := scheduler_init_post p t (scheduler_init_pre p (image metadata dag_in_count book))
  loc id := bootVcpu id.val

/-- The scheduler on a pool of `p` vCPUs that boots with metadata of `host`. -/
def pool (p : Nat) (host : Metadata → Prop) : System (Config (Fin p) Shared Vcpu) (Fin p × Input) :=
  threads (fun s => ∃ metadata dag_in_count book t, host metadata ∧ s = start p metadata dag_in_count book t)
    (fun id x s v => vcpuStep id.val x s v)

/-- The host installs only metadata of `host`. -/
def Supplied {p : Nat} (host : Metadata → Prop) (_ : Config (Fin p) Shared Vcpu) (a : Fin p × Input) : Prop :=
  ∀ metadata ∈ a.2.host, host metadata

/-- A pool of `p` vCPUs that boots at time 1 with a page that is zero outside `metadata`. -/
def boot (p : Nat) (metadata : Metadata) : Config (Fin p) Shared Vcpu :=
  start p metadata (fun _ => 0) ⟨fun _ => 0,fun _ => 0,0,0,0,0,0,fun _ => 0⟩ 1

theorem boot_init {p : Nat} {host : Metadata → Prop} {metadata : Metadata} (supplied : host metadata) :
    (pool p host).init (boot p metadata) :=
  ⟨metadata,_,_,_,supplied,rfl⟩

/-- Each vCPU of a list in its turn takes a number of steps, at consecutive time
    stamps from `t` on, with no spurious wake-up and the metadata left alone. -/
def schedule {p : Nat} (t : Nat) (turns : List (Fin p × Nat)) : List (Fin p × Input) :=
  (turns.flatMap fun turn => List.replicate turn.2 turn.1).mapIdx fun i id => (id,{ tsc := BitVec.ofNat 64 (t + i) })

theorem schedule_input {p t : Nat} {turns : List (Fin p × Nat)} {a : Fin p × Input} (member : a ∈ schedule t turns) :
    a.2.host = none ∧ a.2.intr = false := by
  obtain ⟨i,lt,rfl⟩ := List.mem_mapIdx.mp member
  exact ⟨rfl,rfl⟩

theorem schedule_supplied {p t : Nat} {turns : List (Fin p × Nat)} {host : Metadata → Prop} :
    ∀ a ∈ schedule t turns, ∀ s, Supplied host s a := by
  intro a member s d installed
  rw [(schedule_input member).1] at installed
  cases installed

end Bootcode.Sched
