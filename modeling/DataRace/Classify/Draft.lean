import DataRace.Classify.Meaning
import DataRace.Node.Arena
import DataRace.Node.Make
import DataRace.Settings.Basic

/-!
# Classifying instructions

A `Draft` is the list of the nodes of a body so far, with the arena that they live in.
`Draft.classify` adds the nodes of one instruction: a load reads, a store writes, a call adds what
it means to the chain or is a plain call, and anything else adds nothing.
-/

namespace DataRace

/-- The nodes of a body under construction. -/
structure Draft where
  arena : Arena
  nodes : List NodeId

namespace Draft

/-- Adds a node. -/
def emit (d : Draft) (n : Node) : Draft :=
  let (id, arena) := d.arena.push n
  ⟨arena, d.nodes ++ [id]⟩

/-- Adds several nodes. -/
def emitAll (d : Draft) (ns : List Node) : Draft := ns.foldl emit d

/-- Adds the companion join of a fork node. -/
def emitCompanion (d : Draft) (fork : NodeId) : Except Fault Draft := do
  let (id, arena) ← d.arena.companionJoin fork
  .ok ⟨arena, d.nodes ++ [id]⟩

/-- Adds forks and then their companion joins in the same order. -/
def emitTeam (d : Draft) (forks : List Node) : Except Fault Draft :=
  (List.range forks.length).foldlM (fun e k => e.emitCompanion (d.arena.size + k))
    (d.emitAll forks)

end Draft

/-- The entry of the task that a task call starts, found through the allocation that made it. -/
def taskEntry (p : Program) (i : Instruction) : Except Fault ThreadEntry := do
  let alloc ←
    match i.args[taskOperand]? with
    | some (.result id) => .ok id
    | op => .error (.taskNotAllocated i.id op)
  match (p.instruction? alloc).filter fun a => a.calleeName? = some taskAlloc with
  | none => .error (.notATaskAllocation i.id alloc)
  | some a =>
    match a.args[taskEntryOperand]? >>= ThreadEntry.ofOperand? with
    | some entry => .ok entry
    | none => .error (.taskWithoutRoutine a.id)

namespace Meaning

/-- The device threads of a launch, block by block. -/
def grid (s : Settings) : List ForkApi :=
  (List.range s.blocks).flatMap fun b => (List.range s.threadsPerBlock).map fun t => .cudaKernel b t

/-- The members of a team, the master first. -/
def members (s : Settings) (api : Bool → ForkApi) : List ForkApi :=
  (List.range s.teamSize).map fun k => api (k = 0)

/-- Adds the nodes of a call with a known meaning. -/
def emit (p : Program) (s : Settings) (i : Instruction) (d : Draft) :
    Meaning → Except Fault Draft
  | .nothing => .ok d
  | .free api => d.emit <$> Node.free i api 0
  | .copy => do
    let target ← Node.apiWrite i 0
    let source ← Node.apiRead i 1
    .ok (d.emitAll [target, source])
  | .fill => d.emit <$> Node.apiWrite i 0
  | .fork api => d.emit <$> Node.fork i api 0 2
  | .join => d.emit <$> Node.join i .pthreadJoin 0
  | .lock api operand => d.emit <$> Node.lock i api operand
  | .unlock api operand => d.emit <$> Node.unlock i api operand
  | .barrier api => d.emit <$> Node.barrier i api
  | .construct api => d.emit <$> Node.call i api
  | .team api => do
    let forks ← (members s api).mapM fun member => Node.fork i member 0 2
    d.emitTeam forks
  | .task => do
    let entry ← taskEntry p i
    d.emit <$> Node.forkWithEntry i .ompTask entry.toOperand entry
  | .launch => do
    let forks ← (grid s).mapM fun thread => Node.fork i thread 0 0
    .ok (d.emitAll forks)

end Meaning

namespace Draft

/-- Adds the nodes of an instruction. -/
def classify (p : Program) (s : Settings) (chain : Chain) (d : Draft) (i : Instruction) :
    Except Fault Draft :=
  match i.action with
  | .load _ _ => d.emit <$> Node.load i
  | .store _ _ => d.emit <$> Node.store i
  | .call callee _ =>
    match callee.name? >>= chain.meaning? with
    | some m => m.emit p s i d
    | none => d.emit <$> Node.call i .plain
  | .other => .ok d

/-- Adds the nodes of a body. -/
def classifyAll (p : Program) (s : Settings) (chain : Chain) (d : Draft)
    (body : List Instruction) : Except Fault Draft :=
  body.foldlM (classify p s chain) d

end Draft

end DataRace
