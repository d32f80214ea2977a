import DataRace.Trace.Session

/-!
# Threads under construction

A `Walker` is a thread while its events are made: besides the events it knows which of its children
nobody joined yet, which fork nodes it met, which calls it expanded since its last synchronising
event, and the children that its runtime will join.  A `Walk` is a walker in its session.

The runtime models add what programs leave to their runtime.  OpenMP skips `master` and `single`
regions in all team threads but the master, and joins tasks at task waits (those of the thread
itself), at barriers and at the end of a team thread (all of them); a finished task leaves the rest
of its tasks to its parent.  CUDA joins the device threads of a host thread when that thread
synchronises with the device or a stream.
-/

namespace DataRace

/-- A runtime model. -/
inductive Runtime where
  | pthread
  | openMp
  | cuda
  deriving DecidableEq, Repr, Inhabited

namespace Runtime

/-- The model of a program: as selected, or found out from what the program calls.  A kernel launch
decides for CUDA, otherwise a parallel region for OpenMP. -/
def ofProgram (p : Program) : RuntimeSelection → Runtime
  | .pthread => .pthread
  | .openMp => .openMp
  | .cuda => .cuda
  | .auto =>
    if p.directCallees.any Meaning.isLaunch then .cuda
    else if p.directCallees.any fun f => f.startsWith "__kmpc_fork" then .openMp
    else .pthread

/-- The name of a model. -/
def name : Runtime → String
  | .pthread => "pthread"
  | .openMp => "openmp"
  | .cuda => "cuda"

end Runtime

/-- A child that nobody joined yet. -/
structure Forked where
  node : NodeId
  child : ThreadId
  handle : Operand
  deriving DecidableEq, Repr

/-- A child that the runtime will join.  It is direct if the thread that holds it started it. -/
structure Pending where
  node : NodeId
  child : ThreadId
  isDirect : Bool
  deriving DecidableEq, Repr

/-- A thread under construction. -/
structure Walker where
  thread : ThreadId
  /-- The interface by which the thread was started. -/
  spawnedBy : Option ForkApi
  events : Array Event
  /-- The instruction at which a skipped region ends. -/
  skipTo : Option InstId
  /-- Children that nobody joined yet, in the order of their start. -/
  unjoined : List Forked
  /-- Fork nodes that were met, whether or not they started a thread. -/
  metForks : List NodeId
  /-- Calls expanded since the last event that synchronises or changes locks. -/
  expanded : List (String × List Operand)
  /-- Children that the runtime will join, in the order in which they became pending. -/
  pending : List Pending

namespace Walker

/-- A thread without events. -/
def start (thread : ThreadId) (spawnedBy : Option ForkApi) : Walker where
  thread := thread
  spawnedBy := spawnedBy
  events := #[]
  skipTo := none
  unjoined := []
  metForks := []
  expanded := []
  pending := []

/-- Adds an event. -/
def record (w : Walker) (node : NodeId) (kind : EventKind) : Walker :=
  { w with
    events := w.events.push ⟨w.thread, w.events.size, node, kind⟩
    expanded := if kind.isSync || kind.isLocking then [] else w.expanded }

/-- Takes a child off the list of those that nobody joined. -/
def settle (w : Walker) (node : NodeId) (child : ThreadId) : Walker :=
  { w with unjoined := w.unjoined.filter fun f => !(f.node == node && f.child == child) }

/-- Whether the thread is a member of a team but not its master. -/
def isWorker (w : Walker) : Bool :=
  match w.spawnedBy with
  | some api => api.isTeamMember && !api.isMaster
  | none => false

end Walker

/-- A thread under construction in its session. -/
structure Walk where
  session : Session
  self : Walker

namespace Walk

/-- Adds an event. -/
def record (w : Walk) (node : NodeId) (kind : EventKind) : Walk :=
  { w with self := w.self.record node kind }

/-- Joins a child through the companion of its fork node. -/
def joinChild (w : Walk) (node : NodeId) (child : ThreadId) : Except Fault Walk := do
  let (join, arena) ← w.session.arena.companionJoin node
  .ok
    { session := { w.session with arena }
      self := (w.self.settle node child).record join (.join (some child)) }

/-- Joins pending children, all of them or only the direct ones; direct ones come first. -/
def joinPending (w : Walk) (directOnly : Bool) : Except Fault Walk :=
  let due := w.self.pending.filter fun p => p.isDirect || !directOnly
  let kept := w.self.pending.filter fun p => !(p.isDirect || !directOnly)
  let ordered := due.filter (·.isDirect) ++ due.filter fun p => !p.isDirect
  ordered.foldlM (fun w p => w.joinChild p.node p.child)
    { w with self := { w.self with pending := kept } }

/-- The instruction that closes a region: the first closing call that is not matched by an opening
one in between. -/
def regionEnd? (arena : Arena) (opening closing : CallApi) : Nat → List NodeId → Option InstId
  | _, [] => none
  | depth, id :: ids =>
    match arena.get? id with
    | none => regionEnd? arena opening closing depth ids
    | some n =>
      if n.callApi? = some opening then regionEnd? arena opening closing (depth + 1) ids
      else if n.callApi? = some closing then
        match depth with
        | 0 => some n.inst
        | depth + 1 => regionEnd? arena opening closing depth ids
      else regionEnd? arena opening closing depth ids

/-- Skips the region that a node opens, unless this thread runs it.  `routine` is the routine that
is being walked and `rest` what follows the node in it. -/
def skipRegion (w : Walk) (opening closing : CallApi) (node : Node) (routine : Option String)
    (rest : List NodeId) : Except Fault Walk :=
  if w.self.isWorker then
    match regionEnd? w.session.arena opening closing 0 rest with
    | some inst => .ok { w with self := { w.self with skipTo := some inst } }
    | none => .error (.unclosedRegion opening closing node routine)
  else .ok w

end Walk

namespace Runtime

/-- What the OpenMP runtime does at a node, and whether the node is still to be handled. -/
def visitOpenMp (w : Walk) (node : Node) (routine : Option String) (rest : List NodeId) :
    Except Fault (Bool × Walk) :=
  match node.effect with
  | .barrier _ => return (true, ← w.joinPending false)
  | .call .ompMaster _ _ =>
    return (false, ← w.skipRegion .ompMaster .ompEndMaster node routine rest)
  | .call .ompSingle _ _ =>
    return (false, ← w.skipRegion .ompSingle .ompEndSingle node routine rest)
  | .call .ompTaskwait _ _ => return (false, ← w.joinPending true)
  | .call .ompEndMaster _ _ | .call .ompEndSingle _ _ | .call .ompReduce _ _ => .ok (false, w)
  | _ => .ok (true, w)

/-- What the CUDA runtime does at a node, and whether the node is still to be handled. -/
def visitCuda (w : Walk) (node : Node) : Except Fault (Bool × Walk) :=
  match node.effect with
  | .call .cudaDeviceSync _ _ | .call .cudaStreamSync _ _ => return (false, ← w.joinPending false)
  | _ => .ok (true, w)

/-- What a runtime does at a node, and whether the node is still to be handled. -/
def visit (r : Runtime) (w : Walk) (node : Node) (routine : Option String)
    (rest : List NodeId) : Except Fault (Bool × Walk) :=
  match r with
  | .pthread => .ok (true, w)
  | .openMp => visitOpenMp w node routine rest
  | .cuda => visitCuda w node

/-- Whether a runtime joins the threads that an interface starts. -/
def joins : Runtime → ForkApi → Bool
  | .openMp, .ompTask => true
  | .cuda, .cudaKernel _ _ => true
  | _, _ => false

/-- What a runtime does at the end of a thread. -/
def finish (r : Runtime) (w : Walk) : Except Fault Walk :=
  match r, w.self.spawnedBy with
  | .openMp, some api => if api.isTeamMember then w.joinPending false else .ok w
  | _, _ => .ok w

/-- The pending children that a finished thread leaves to its parent. -/
def orphans (r : Runtime) (child : Walker) : List Pending :=
  match r, child.spawnedBy with
  | .openMp, some .ompTask => child.pending.map fun p => { p with isDirect := false }
  | _, _ => []

end Runtime

end DataRace
