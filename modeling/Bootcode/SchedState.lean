import Mathlib.Logic.Function.Basic
import Bootcode.Bits

/-!
The data of the scheduler: the task graph in the metadata page, the static
variables of `sched.c`, and the program counters of a vCPU in `main`,
`sched` and the functions they call. Every program counter stands before one
lock-prefixed instruction, one load or store, or one `hlt`; it carries the
locals that are live there.
-/
namespace Bootcode.SchedState
open Bootcode.Bits

abbrev Word := BitVec 64

def MAX_FUNC : Nat := 256
def NULL_FUNC : Nat := 255
def rekick_thd : Int := 1000000

/-- `metadata->func_info[fn]`. -/
structure FuncInfo where
  entry_addr : Word
  stack_load_addr : Word
  pt_addr : Word
  inp_off : Word
  out_off : Word

/-- The part of the metadata page that the host fills in and the scheduler only
    reads. `dag` holds in-degrees, then offsets, then edge targets. -/
structure Metadata where
  num_nodes : Nat
  start_func : Nat
  dag : Nat → Nat
  func_info : Nat → FuncInfo

/-- What the task graph is run with. -/
structure Tasks where
  metadata : Metadata
  dag_in_count : Nat → BitVec 8
  bm_run_fn : Nat → Word
  runnable_tasks : Word
  num_fin_fn : Word

/-- `uint64_t bm[2]`, updated as a whole only by `DCAS`. -/
structure Snap where
  word0 : Word
  word1 : Word
  deriving DecidableEq

/-- The `lock btr` of `e_bsf(&bm[0])`. -/
def Snap.take (s : Snap) (i : Nat) : Snap := { s with word0 := btr s.word0 i }
/-- The `lock btr` of `bm[1]` that ends a vCPU's hold on an id. -/
def Snap.release (s : Snap) (i : Nat) : Snap := { s with word1 := btr s.word1 i }

/-- What vCPUs are put to sleep and woken with. `token` is the hypervisor's
    pending wake-up of each vCPU. -/
structure Wakes where
  num_free_vcpu : Word
  vcpu_pool_sz : Nat
  hlt_ts : Nat → Word
  kick_ts : Nat → Word
  wake_num_vcpu : Int
  sig_wake_num_vcpu_is_0 : Word
  bm_kicked_vcpus : Word
  bm_inactive_vcpus : Word
  ss_reflective_bm : Snap
  ss_reflective_bm1 : Snap
  token : Nat → Bool

/-- `vmmcall(KVM_HC_KICK_CPU, 0, cpuid)`. -/
def Wakes.kick (w : Wakes) (cpuid : Nat) : Wakes := { w with token := Function.update w.token cpuid true }

/-- Timing statistics and the page tables that `jump2fn` switches. -/
structure Book where
  func_times : Nat → Word
  dag_func_time : Nat → Word
  dag_start_tsc : Word
  dag_ts : Word
  dag_n : Word
  dag_tot_tsc_time : Word
  dag_tot_proc_inp : Word
  pg_tbls : Nat → Word

/-- The registers `jump_usermode` enters a user function with. -/
structure UserCtx where
  rip : Word
  rsp : Word
  rdi : Word
  rsi : Word
  rdx : Word

/-- `main` after the boot barrier on a vCPU other than 0, and `wake_up_event`. -/
inductive BootPc
  | hlt
  | btrInactive
  | btrKicked
  | incFree

/-- `sched` from `start` to the read of `metadata->current[id]`. -/
inductive EnterPc
  | tsc
  | ldCurrent

/-- The accounting of a finished function before `process_sched_dag`. -/
inductive FinPc
  | incFree
  | tsc
  | ldTime (t : Word)
  | stTime (dt : Word)

/-- `process_sched_dag`, with `add_runnable_fn` inlined. -/
inductive DagPc
  | ldNodes
  | ldFirst (num_nodes : Nat)
  | ldLast (num_nodes s : Nat)
  | loop (i e : Nat)
  | dec (i e out_fn : Nat)
  | inc (i e out_fn : Nat)
  | bts (i e out_fn : Nat)

/-- `wake_up_task`: the re-kick loop, the ticket, and the first-kick loop. `rax` is
    the register of `e_bsf` in the re-kick loop: -1, or an index whose bit another
    vCPU has cleared first. `won` records whether `cpuid` is an id that the vCPU took;
    no step depends on it. -/
inductive WakePc
  | ldKicked
  | dcas1 (reflective_bm1 : Word)
  | bsf1 (rax : Option Nat)
  | btr1 (cpuid : Nat)
  | tsc1 (cpuid : Nat) (won : Bool)
  | ldKick1 (cpuid : Nat) (won : Bool) (t : Word)
  | tsc2 (cpuid : Nat) (won : Bool)
  | stKick1 (cpuid : Nat) (won : Bool) (t : Word)
  | kick1 (cpuid : Nat) (won : Bool)
  | rel1 (cpuid : Nat) (won : Bool)
  | ldRunnable
  | ldFree (runnable : Word)
  | casSig (tmp : Int)
  | stWakeNum (tmp : Int)
  | ldInactive
  | dcas (reflective_bm : Word)
  | xadd
  | stSig
  | bsf
  | btr (cpuid : Nat)
  | ldHlt (cpuid : Nat)
  | ldKick (cpuid : Nat) (hlt : Word)
  | incFree (cpuid : Nat)
  | tsc (cpuid : Nat)
  | stKick (cpuid : Nat) (t : Word)
  | bts (cpuid : Nat)
  | kick (cpuid : Nat)
  | rel (cpuid : Nat)
  | skip (cpuid : Nat)

/-- `get_work`: the scan of word `idx`, and the claim of bit `rax` found in it. -/
inductive ScanPc
  | bsf (idx : Nat)
  | btr (idx rax : Nat)

/-- A failed `get_work` up to the CAS that ends the epoch. -/
inductive NoWorkPc
  | decFree
  | ldTot
  | cas (tot_fn : Nat)

/-- The epoch reset, from the successful CAS to `add_runnable_fn(start_func)`. -/
inductive ResetPc
  | ldStart
  | tscTot
  | ldTot (t : Word)
  | stTot (dt : Word)
  | ldInp
  | stInp (n : Word)
  | outw
  | exit
  | incFree
  | tsc
  | stStart (t : Word)
  | clr0
  | clr1
  | clr10
  | clr11
  | ldKicked
  | popcnt
  | stFree
  | stRunnable
  | ldNodes
  | ldDag (i len : Nat)
  | stCount (i len x : Nat)
  | ldStartFunc
  | inc (fn : Nat)
  | bts (fn : Nat)

/-- The halt path of `sched`. -/
inductive HaltPc
  | tsc
  | stHlt (t : Word)
  | ldHlt
  | addTs (t2 : Word)
  | incN
  | bts
  | hlt
  | btrInactive
  | btrKicked
  | incFree
  | tscOut

/-- The path from a successful `get_work` to user mode, with `jump2fn`. -/
inductive WorkPc
  | decFree
  | decRunnable
  | tsc
  | addTs (t2 : Word)
  | incN
  | stCurrent
  | ldInfo
  | stPg (info : FuncInfo)
  | tscFn (info : FuncInfo)
  | stFn (info : FuncInfo) (t : Word)
  | jump (info : FuncInfo)

/-- Where a vCPU stands. `fn` is the local of `sched`: the function that it has
    just finished (or `NULL_FUNC`), or the one that it is about to run. -/
inductive Pc
  | boot (k : BootPc)
  | enter (k : EnterPc)
  | fin (fn : Nat) (k : FinPc)
  | dag (fn : Nat) (k : DagPc)
  | clrCurrent (fn : Nat)
  | wake (fn : Nat) (k : WakePc)
  | incFin (fn : Nat)
  | scan (k : ScanPc)
  | noWork (k : NoWorkPc)
  | reset (k : ResetPc)
  | halt (k : HaltPc)
  | work (fn : Nat) (k : WorkPc)
  | user (fn : Nat) (ctx : UserCtx)

/-- What a vCPU has to itself: its program counter, its slot of
    `metadata->current`, and the local `t1` of `sched`. -/
structure Vcpu where
  pc : Pc
  current : Nat
  t1 : Word

/-- The history of a run: what claims about whole runs speak of. -/
inductive Ev
  | turnover (id : Nat)
  | waiting (id : Nat)
  | dispatch (id fn : Nat)
  | finish (id fn : Nat)
  | counted (id fn : Nat)
  | grant (tmp : Int)
  | draw (old : Int)
  | halted (id : Nat)
  | firstKick (id cpuid : Nat)
  deriving DecidableEq

/-- What all vCPUs share. `clock` is the last time stamp that was read and `log`
    the history, newest event first; no step depends on either. -/
structure Shared where
  tasks : Tasks
  wakes : Wakes
  book : Book
  clock : Word
  log : List Ev

/-- What the environment decides in one step: the value `rdtscp` returns, whether
    a `hlt` returns without a kick, and what the host installs during its exit. -/
structure Input where
  tsc : Word := 0
  intr : Bool := false
  host : Option Metadata := none

/-- The program counters that read the time stamp counter. -/
def Pc.readsTsc : Pc → Bool
  | .enter .tsc => true
  | .fin _ .tsc => true
  | .wake _ (.tsc1 _ _) => true
  | .wake _ (.tsc2 _ _) => true
  | .wake _ (.tsc _) => true
  | .reset .tscTot => true
  | .reset .tsc => true
  | .halt .tsc => true
  | .halt .tscOut => true
  | .work _ .tsc => true
  | .work _ (.tscFn _) => true
  | _ => false

end Bootcode.SchedState
