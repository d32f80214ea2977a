import DataRace.Trace.Runtime

/-!
# Building traces

The main thread walks the nodes of the entry routine and turns them into events.  A call walks the
routines that it may reach between a call and a return event; a fork walks the whole child thread
before the parent goes on, so that threads are numbered depth first.

Walking ends because a routine is neither called while it is open in the same thread, nor started
as a thread by a thread that it is an ancestor of.  `Trace.build` is the trace of a subject.
-/

namespace DataRace

namespace Walk

/-- Meets a fork node. -/
def meetFork (w : Walk) (node : NodeId) : Walk :=
  { w with self := { w.self with metForks := node :: w.self.metForks } }

/-- Starts a child: a new thread and the fork event that starts it. -/
def beginFork (w : Walk) (node : NodeId) (entry : String) : Except Fault (ThreadId × Walk) := do
  let (child, session) ←
    w.session.reserve entry (some ⟨w.self.thread, w.self.events.size⟩) (some node)
  .ok (child, { session, self := w.self.record node (.fork child) })

/-- The child that a walk has just started, about to be walked itself. -/
def enterChild (w : Walk) (child : ThreadId) (api : ForkApi) : Walk :=
  { w with self := Walker.start child (some api) }

/-- Ends a thread: its runtime acts, and its events go into the table of threads. -/
def finish (r : Runtime) (w : Walk) : Except Fault Walk := do
  let w ← r.finish w
  let threads := w.session.threads.modify w.self.thread fun t => { t with events := w.self.events }
  .ok { w with session := { w.session with threads } }

/-- Goes on after a child has ended: it can be joined from now on, and its parent takes over what
it left pending. -/
def endFork (r : Runtime) (w : Walk) (node : NodeId) (api : ForkApi) (handle : Operand)
    (child : Walk) : Walk :=
  let self := w.self
  let pending := self.pending ++ r.orphans child.self
  { session := child.session
    self :=
      { self with
        unjoined := self.unjoined ++ [⟨node, child.self.thread, handle⟩]
        pending :=
          if r.joins api then pending ++ [⟨node, child.self.thread, true⟩] else pending } }

/-- Joins all unjoined children of a fork node, in the order of their start. -/
def joinCompanion (w : Walk) (id : NodeId) (node : Node) (fork : NodeId) : Except Fault Walk :=
  if fork ∈ w.self.metForks then
    let due := w.self.unjoined.filter fun f => f.node == fork
    let kept := w.self.unjoined.filter fun f => f.node != fork
    .ok (due.foldl (fun w f => w.record id (.join (some f.child)))
      { w with self := { w.self with unjoined := kept } })
  else .error (.joinBeforeFork node w.self.thread fork)

/-- The first other thread that was started with a handle that may be the given one. -/
def foreignThread? (c : Subject) (w : Walk) (handle : Operand) : Option ThreadId :=
  let started (t : Thread) : Bool :=
    match t.fork >>= w.session.arena.get? >>= Node.handle? with
    | some h => t.id != w.self.thread && c.pointsTo.operandsMayAlias h handle
    | none => false
  (w.session.threads.find? started).map Thread.id

/-- Joins the thread that a handle denotes: the latest unjoined child with such a handle, or else
the first other thread started with one. -/
def joinHandle (c : Subject) (w : Walk) (id : NodeId) (handle : Operand) : Walk :=
  match w.self.unjoined.reverse.find? fun f => c.pointsTo.operandsMayAlias f.handle handle with
  | some f => { w with self := w.self.settle f.node f.child } |>.record id (.join (some f.child))
  | none => w.record id (.join (foreignThread? c w handle))

/-- Whether a call has just been expanded and adds nothing when it is expanded again.  A call that
is to be expanded is noted. -/
def isRepeated (c : Subject) (w : Walk) (target : String) (args : List Operand) :
    Except Fault (Bool × Walk) :=
  if c.settings.dedupCalls then do
    let (effects, session) ← w.session.hasThreadEffects c target
    let w := { w with session }
    if effects then .ok (false, w)
    else if (target, args) ∈ w.self.expanded then .ok (true, w)
    else
      .ok (false, { w with self := { w.self with expanded := (target, args) :: w.self.expanded } })
  else .ok (false, w)

/-- Whether a node is passed over on the way to the end of a skipped region. -/
def isSkipped (w : Walk) (node : Node) : Bool :=
  match w.self.skipTo with
  | some inst => node.inst != inst
  | none => false

/-- Reaches a node that is not passed over, which ends a skipped region. -/
def reach (w : Walk) : Walk := { w with self := { w.self with skipTo := none } }

mutual

/-- Walks the nodes of the innermost open routine.  `ancestry` are the routines run by this thread
and those that lead to it, `opened` the routines open in it, innermost first. -/
def walk (c : Subject) (r : Runtime) (ancestry opened : List String) :
    List NodeId → Walk → Except Fault Walk
  | [], w => .ok w
  | id :: rest, w => do
    let node ← w.session.arena.get id
    if w.isSkipped node then walk c r ancestry opened rest w
    else
      let (open?, w) ← r.visit w.reach node opened.head? rest
      let w ← if open? then handle c r ancestry opened id node w else .ok w
      walk c r ancestry opened rest w
termination_by nodes => (c.unseen ancestry, c.unseen opened, 2, nodes.length)

/-- What a node does by itself. -/
def handle (c : Subject) (r : Runtime) (ancestry opened : List String) (id : NodeId) (node : Node)
    (w : Walk) : Except Fault Walk :=
  match node.effect with
  | .read .. => .ok (w.record id .read)
  | .write .. => .ok (w.record id .write)
  | .free .. => .ok (w.record id .free)
  | .lock .. => .ok (w.record id .lock)
  | .unlock .. => .ok (w.record id .unlock)
  | .barrier .. => .ok (w.record id .barrier)
  | .join _ _ (some fork) => w.joinCompanion id node fork
  | .join _ handle none => .ok (w.joinHandle c id handle)
  | .fork api handle entry =>
    forkAll c r ancestry opened id api handle (c.entryTargets entry) (w.meetFork id)
  | .call api callee args =>
    if api.isRuntime then .ok w
    else callAll c r ancestry opened id args (c.callTargets callee) w
termination_by (c.unseen ancestry, c.unseen opened, 1, 0)

/-- Starts and walks one child for each entry, except for routines that lead here already and for
threads beyond the limit. -/
def forkAll (c : Subject) (r : Runtime) (ancestry opened : List String) (id : NodeId)
    (api : ForkApi) (handle : Operand) : List String → Walk → Except Fault Walk
  | [], w => .ok w
  | entry :: entries, w =>
    if ha : entry ∈ ancestry then forkAll c r ancestry opened id api handle entries w
    else if w.session.threads.size ≥ c.settings.maxThreads then
      forkAll c r ancestry opened id api handle entries w
    else do
      let (child, w) ← w.beginFork id entry
      let inner := w.enterChild child api
      let inner ←
        match hd : c.program.definition? entry with
        | none => .ok inner
        | some _ =>
          have := c.unseen_cons_lt hd ha
          do
          let (nodes, session) ← inner.session.summary c entry
          walk c r (entry :: ancestry) [entry] (nodes.getD []) { inner with session }
      let inner ← inner.finish r
      forkAll c r ancestry opened id api handle entries (w.endFork r id api handle inner)
termination_by entries => (c.unseen ancestry, c.unseen opened, 0, entries.length)

/-- Walks each of the routines that a call may reach, except for those that are open and for
repeated calls that add nothing. -/
def callAll (c : Subject) (r : Runtime) (ancestry opened : List String) (id : NodeId)
    (args : List Operand) : List String → Walk → Except Fault Walk
  | [], w => .ok w
  | target :: targets, w => do
    let (nodes, session) ← w.session.summary c target
    let w := { w with session }
    match hd : c.program.definition? target with
    | none => callAll c r ancestry opened id args targets w
    | some _ =>
      if ho : target ∈ opened then callAll c r ancestry opened id args targets w
      else
        have := c.unseen_cons_lt hd ho
        do
        let (repeated, w) ← w.isRepeated c target args
        if repeated then callAll c r ancestry opened id args targets w
        else
          let w ← walk c r ancestry (target :: opened) (nodes.getD []) (w.record id .call)
          callAll c r ancestry opened id args targets (w.record id .return)
termination_by targets => (c.unseen ancestry, c.unseen opened, 0, targets.length)

end

end Walk

/-- Why there is no trace. -/
inductive BuildError where
  | entryNotFound (entry : String)
  | entryWithoutBody (entry : String)
  | fault (f : Fault)
  deriving DecidableEq, Repr

/-- The wording of a build error, where it has one. -/
def BuildError.message? : BuildError → Option String
  | .entryNotFound entry => some ("Entry function not found: " ++ entry)
  | .entryWithoutBody entry => some ("Entry function has no body: " ++ entry)
  | .fault f => f.message?

namespace Trace

/-- Walks the main thread and all threads that it leads to. -/
def walkMain (c : Subject) (r : Runtime) (entry : String) : Except Fault Session := do
  let (main, session) ← Session.empty.reserve entry none none
  let (nodes, session) ← session.summary c entry
  let w : Walk := ⟨session, Walker.start main none⟩
  let w ← w.walk c r [entry] [entry] (nodes.getD [])
  let w ← w.finish r
  .ok w.session

/-- The trace of a subject, from the entry routine of its settings. -/
def build (c : Subject) : Except BuildError Trace :=
  let entry := c.settings.entry
  match c.program.routine? entry with
  | none => .error (.entryNotFound entry)
  | some f =>
    if f.isDeclaration then .error (.entryWithoutBody entry)
    else
      match walkMain c (Runtime.ofProgram c.program c.settings.runtime) entry with
      | .error e => .error (.fault e)
      | .ok s => .ok ⟨s.threads, s.arena, c.program, c.pointsTo⟩

end Trace

end DataRace
