import DataRace.Node.Basic

/-!
# What calls mean

Each interface knows some callees by name and gives a call of them a `Meaning`.  A chain of
interfaces takes the meaning of the first interface that knows the callee.
-/

namespace DataRace

/-- The meaning of a call of a known callee. -/
inductive Meaning where
  /-- Nothing that matters here. -/
  | nothing
  | free (api : FreeApi)
  /-- Writes through the first argument and reads through the second. -/
  | copy
  /-- Writes through the first argument. -/
  | fill
  | fork (api : ForkApi)
  | join
  | lock (api : LockApi) (operand : Nat)
  | unlock (api : LockApi) (operand : Nat)
  | barrier (api : BarrierApi)
  /-- A construct of a runtime. -/
  | construct (api : CallApi)
  /-- A team that runs a routine and is joined at once; `api` answers for the master and for the
  other members. -/
  | team (api : Bool → ForkApi)
  /-- A task that was allocated by another call. -/
  | task
  /-- A grid of device threads. -/
  | launch

/-- The interfaces. -/
inductive Interface where
  | intrinsic
  | libc
  | pthread
  | openMp
  | cuda
  deriving DecidableEq, Repr, Inhabited

namespace Interface

/-- The name of an interface. -/
def name : Interface → String
  | .intrinsic => "intrinsic"
  | .libc => "libc"
  | .pthread => "pthread"
  | .openMp => "openmp"
  | .cuda => "cuda"

/-- The interface of a name. -/
def ofName? : String → Option Interface
  | "intrinsic" => some .intrinsic
  | "libc" => some .libc
  | "pthread" => some .pthread
  | "openmp" => some .openMp
  | "cuda" => some .cuda
  | _ => none

/-- All interfaces, in the order of the standard chain. -/
def standard : List Interface := [.intrinsic, .libc, .pthread, .openMp, .cuda]

end Interface

namespace Meaning

/-- Callees without effect on memory or threads. -/
def intrinsic? (callee : String) : Option Meaning :=
  if callee ∈ ["printf", "llvm.dbg.declare", "llvm.dbg.value"] then some .nothing else none

/-- Whether a callee copies memory. -/
def isCopy (callee : String) : Bool :=
  callee == "memcpy" || callee == "memmove" || callee.startsWith "llvm.memcpy"
    || callee.startsWith "llvm.memmove"

/-- Whether a callee fills memory. -/
def isFill (callee : String) : Bool := callee == "memset" || callee.startsWith "llvm.memset"

/-- Callees of the C library and the operators that release memory. -/
def libc? (callee : String) : Option Meaning :=
  match callee with
  | "free" => some (.free .free)
  | "_ZdlPv" => some (.free .cxxDelete)
  | "_ZdaPv" => some (.free .cxxDelete)
  | _ => if isCopy callee then some .copy else if isFill callee then some .fill else none

/-- Callees of the POSIX thread library. -/
def pthread? (callee : String) : Option Meaning :=
  match callee with
  | "pthread_create" => some (.fork .pthreadCreate)
  | "pthread_join" => some .join
  | "pthread_mutex_lock" => some (.lock .pthreadMutex 0)
  | "pthread_mutex_unlock" => some (.unlock .pthreadMutex 0)
  | "pthread_spin_lock" => some (.lock .pthreadSpin 0)
  | "pthread_spin_unlock" => some (.unlock .pthreadSpin 0)
  | _ => none

/-- Callees of the OpenMP runtime.  Bookkeeping of the runtime, known by how its names begin, has
no effect. -/
def openMp? (callee : String) : Option Meaning :=
  match callee with
  | "__kmpc_fork_call" => some (.team .ompFork)
  | "__kmpc_fork_teams" => some (.team .ompTeams)
  | "__kmpc_omp_task" => some .task
  | "__kmpc_critical" => some (.lock .ompCritical 2)
  | "__kmpc_end_critical" => some (.unlock .ompCritical 2)
  | "omp_set_lock" => some (.lock .ompLock 0)
  | "omp_unset_lock" => some (.unlock .ompLock 0)
  | "__kmpc_ordered" => some (.lock .ompOrdered 0)
  | "__kmpc_end_ordered" => some (.unlock .ompOrdered 0)
  | "__kmpc_barrier" => some (.barrier .ompBarrier)
  | "__kmpc_master" => some (.construct .ompMaster)
  | "__kmpc_end_master" => some (.construct .ompEndMaster)
  | "__kmpc_single" => some (.construct .ompSingle)
  | "__kmpc_end_single" => some (.construct .ompEndSingle)
  | "__kmpc_omp_taskwait" => some (.construct .ompTaskwait)
  | "__kmpc_reduce" => some (.construct .ompReduce)
  | "__kmpc_reduce_nowait" => some (.construct .ompReduce)
  | "__kmpc_end_reduce" => some (.construct .ompReduce)
  | "__kmpc_end_reduce_nowait" => some (.construct .ompReduce)
  | _ =>
    if callee.startsWith "__kmpc_" || callee.startsWith "omp_" then some .nothing else none

/-- Whether a callee launches a kernel. -/
def isLaunch (callee : String) : Bool := callee == "cudaLaunch" || callee == "cudaLaunchKernel"

/-- Atomic operations of device code. -/
def atomics : List String :=
  ["_ZL9atomicAddPjj", "_ZL9atomicSubPjj", "_ZL9atomicMinPjj", "_ZL9atomicMaxPjj",
    "_ZL9atomicIncPjj", "_ZL9atomicDecPjj", "_ZL10atomicExchPjj", "_ZL9atomicCASPjjj",
    "_ZL9atomicAndPjj", "_ZL8atomicOrPjj", "_ZL9atomicXorPjj"]

/-- Callees of the CUDA runtime.  Atomic operations never race with each other and have no
effect. -/
def cuda? (callee : String) : Option Meaning :=
  if isLaunch callee then some .launch
  else
    match callee with
    | "llvm.nvvm.barrier0" => some (.barrier .cudaBlock)
    | "cudaDeviceSynchronize" => some (.construct .cudaDeviceSync)
    | "cudaStreamSynchronize" => some (.construct .cudaStreamSync)
    | _ =>
      if callee ∈ atomics || callee.startsWith "llvm.nvvm.atomic." then some .nothing else none

end Meaning

namespace Interface

/-- The meaning that an interface gives to a call of a callee, if it knows it. -/
def meaning? : Interface → String → Option Meaning
  | .intrinsic => Meaning.intrinsic?
  | .libc => Meaning.libc?
  | .pthread => Meaning.pthread?
  | .openMp => Meaning.openMp?
  | .cuda => Meaning.cuda?

end Interface

/-- Interfaces that are asked in order. -/
abbrev Chain := List Interface

namespace Chain

/-- The meaning of a call of a callee. -/
def meaning? (chain : Chain) (callee : String) : Option Meaning :=
  chain.findSome? fun api => api.meaning? callee

/-- How a chain is shown. -/
def describe (chain : Chain) : String :=
  "[" ++ String.intercalate ", " (chain.map fun api => "\"" ++ api.name ++ "\"") ++ "]"

end Chain

end DataRace
