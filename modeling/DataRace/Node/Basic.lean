import DataRace.Program.Basic

/-!
# Nodes

A node is what an instruction means to the analyses: an access to memory, or an operation on
threads, locks and barriers, or a call.  Which interface a call belongs to is kept as a tag, for
the runtime models; everything else goes by category.

Nodes live in an `Arena` and are referred to by position.
-/

namespace DataRace

/-- A position in an arena. -/
abbrev NodeId := Nat

/-! ### Interfaces -/

/-- How memory is accessed: by the instruction itself, or through an argument of a call. -/
inductive AccessApi where
  | load
  | store
  | apiRead (operand : Nat)
  | apiWrite (operand : Nat)
  deriving DecidableEq, Repr, Inhabited

/-- How memory is released. -/
inductive FreeApi where
  | free
  | cxxDelete
  deriving DecidableEq, Repr, Inhabited

/-- How a thread is started. -/
inductive ForkApi where
  | pthreadCreate
  /-- A member of a parallel team. -/
  | ompFork (master : Bool)
  /-- A member of a league of teams. -/
  | ompTeams (master : Bool)
  | ompTask
  /-- A device thread of a kernel launch. -/
  | cudaKernel (block thread : Nat)
  deriving DecidableEq, Repr, Inhabited

namespace ForkApi

/-- The team that a thread belongs to among those started by one instruction: threads of a team
meet at its barriers. -/
def team? : ForkApi → Option Nat
  | .ompFork _ | .ompTeams _ => some 0
  | .cudaKernel block _ => some block
  | .pthreadCreate | .ompTask => none

/-- Whether the thread is the master of its team. -/
def isMaster : ForkApi → Bool
  | .ompFork master | .ompTeams master => master
  | _ => false

/-- Whether the thread is a member of an OpenMP team. -/
def isTeamMember : ForkApi → Bool
  | .ompFork _ | .ompTeams _ => true
  | _ => false

end ForkApi

/-- How a thread is joined: by a call of the program, or together with the fork that started it. -/
inductive JoinApi where
  | pthreadJoin
  | companion
  deriving DecidableEq, Repr, Inhabited

/-- The kinds of locks. -/
inductive LockApi where
  | pthreadMutex
  | pthreadSpin
  | ompCritical
  | ompLock
  | ompOrdered
  deriving DecidableEq, Repr, Inhabited

/-- The kinds of barriers. -/
inductive BarrierApi where
  | ompBarrier
  | cudaBlock
  deriving DecidableEq, Repr, Inhabited

/-- The kinds of calls: plain ones, and constructs of a runtime. -/
inductive CallApi where
  | plain
  | ompMaster
  | ompEndMaster
  | ompSingle
  | ompEndSingle
  | ompTaskwait
  | ompReduce
  | cudaDeviceSync
  | cudaStreamSync
  deriving DecidableEq, Repr, Inhabited

namespace CallApi

/-- Whether a call is a construct of a runtime. -/
def isRuntime : CallApi → Bool
  | .plain => false
  | _ => true

/-- The name of a kind of call. -/
def name : CallApi → String
  | .plain => "Plain"
  | .ompMaster => "OmpMaster"
  | .ompEndMaster => "OmpEndMaster"
  | .ompSingle => "OmpSingle"
  | .ompEndSingle => "OmpEndSingle"
  | .ompTaskwait => "OmpTaskwait"
  | .ompReduce => "OmpReduce"
  | .cudaDeviceSync => "CudaDeviceSync"
  | .cudaStreamSync => "CudaStreamSync"

end CallApi

/-! ### Nodes -/

/-- Where a node comes from. -/
structure Site where
  inst : InstId
  location : Option SourceLocation
  deriving DecidableEq, Repr, Inhabited

/-- The site of an instruction. -/
def Instruction.site (i : Instruction) : Site := ⟨i.id, i.location⟩

/-- The routine that a thread runs. -/
inductive ThreadEntry where
  | direct (name : String)
  /-- A routine pointer, resolved through points-to facts. -/
  | indirect (v : ValueId)
  deriving DecidableEq, Repr, Inhabited

namespace ThreadEntry

/-- The entry that an operand denotes, if it is a routine or a pointer. -/
def ofOperand? : Operand → Option ThreadEntry
  | .routine name => some (.direct name)
  | .value v => some (.indirect v)
  | _ => none

/-- The operand that denotes an entry. -/
def toOperand : ThreadEntry → Operand
  | .direct name => .routine name
  | .indirect v => .value v

end ThreadEntry

/-- What a node does. -/
inductive Effect where
  | read (api : AccessApi) (value : ValueId) (isVolatile : Bool)
  | write (api : AccessApi) (value : ValueId) (isVolatile : Bool)
  | free (api : FreeApi) (value : ValueId)
  | fork (api : ForkApi) (handle : Operand) (entry : ThreadEntry)
  /-- A join; a companion names the fork node that it belongs to. -/
  | join (api : JoinApi) (handle : Operand) (companionOf : Option NodeId)
  | lock (api : LockApi) (lock : Operand)
  | unlock (api : LockApi) (lock : Operand)
  | barrier (api : BarrierApi)
  | call (api : CallApi) (callee : Callee) (args : List Operand)
  deriving DecidableEq, Repr, Inhabited

/-- A node. -/
structure Node where
  site : Site
  effect : Effect
  deriving DecidableEq, Repr, Inhabited

/-- The categories of nodes. -/
inductive Category where
  | read
  | write
  | free
  | fork
  | join
  | lock
  | unlock
  | barrier
  | call
  deriving DecidableEq, Repr, Inhabited

namespace Category

/-- The name of a category. -/
def name : Category → String
  | .read => "Read"
  | .write => "Write"
  | .free => "Free"
  | .fork => "Fork"
  | .join => "Join"
  | .lock => "Lock"
  | .unlock => "Unlock"
  | .barrier => "Barrier"
  | .call => "Call"

end Category

namespace Node

/-- The instruction of a node. -/
def inst (n : Node) : InstId := n.site.inst

/-- The category of a node. -/
def category (n : Node) : Category :=
  match n.effect with
  | .read .. => .read
  | .write .. => .write
  | .free .. => .free
  | .fork .. => .fork
  | .join .. => .join
  | .lock .. => .lock
  | .unlock .. => .unlock
  | .barrier .. => .barrier
  | .call .. => .call

/-- The pointer that a node reads or writes through. -/
def accessed? (n : Node) : Option ValueId :=
  match n.effect with
  | .read _ v _ | .write _ v _ => some v
  | _ => none

/-- The pointer that a node frees. -/
def freed? (n : Node) : Option ValueId :=
  match n.effect with
  | .free _ v => some v
  | _ => none

/-- The handle of the thread that a node forks or joins. -/
def handle? (n : Node) : Option Operand :=
  match n.effect with
  | .fork _ handle _ | .join _ handle _ => some handle
  | _ => none

/-- The entry of the thread that a node forks. -/
def entry? (n : Node) : Option ThreadEntry :=
  match n.effect with
  | .fork _ _ entry => some entry
  | _ => none

/-- The lock that a node acquires or releases. -/
def lock? (n : Node) : Option Operand :=
  match n.effect with
  | .lock _ l | .unlock _ l => some l
  | _ => none

/-- The interface by which a node forks. -/
def forkApi? (n : Node) : Option ForkApi :=
  match n.effect with
  | .fork api _ _ => some api
  | _ => none

/-- The kind of call that a node is. -/
def callApi? (n : Node) : Option CallApi :=
  match n.effect with
  | .call api _ _ => some api
  | _ => none

/-- The kind of barrier that a node is. -/
def barrierApi? (n : Node) : Option BarrierApi :=
  match n.effect with
  | .barrier api => some api
  | _ => none

/-- The fork node that a join is the companion of. -/
def companionOf? (n : Node) : Option NodeId :=
  match n.effect with
  | .join _ _ fork => fork
  | _ => none

/-- The written form of a node: `Fork #2 at a.c:3:14`. -/
def label (n : Node) : String :=
  n.category.name ++ " " ++ n.inst.label ++
    match n.site.location with
    | none => ""
    | some l => " at " ++ l.label

end Node

end DataRace
