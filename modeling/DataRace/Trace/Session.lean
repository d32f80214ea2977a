import DataRace.Classify.Draft
import DataRace.Trace.Basic

/-!
# Sessions

A session is what the threads of one build share: the arena, the nodes of the routines that were
looked at so far, the answers about their effects on threads, and the table of threads.

`Session.summary` answers the nodes of a routine and makes them at the first question.
`Session.hasThreadEffects` tells whether a routine may start or join threads, meet a barrier or use
a runtime construct, itself or through plain calls.  A routine that is being explored counts as
harmless until its own answer is known, and every answer is kept.
-/

namespace DataRace

/-- What a trace is built from. -/
structure Subject where
  program : Program
  pointsTo : PointsTo
  settings : Settings
  chain : Chain

namespace Subject

/-- The routines that a call may reach. -/
def callTargets (c : Subject) : Callee → List String
  | .direct name => [name]
  | .indirect v => c.pointsTo.targets v

/-- The routines that a thread may run. -/
def entryTargets (c : Subject) : ThreadEntry → List String
  | .direct name => [name]
  | .indirect v => c.pointsTo.targets v

/-- How many names of the program are not in a list. -/
def unseen (c : Subject) (seen : List String) : Nat :=
  (c.program.byName.keys.filter fun f => f ∉ seen).length

/-- Where one test implies another, and some member of a list passes only the second, fewer pass
the first. -/
theorem length_filter_lt {p q : String → Bool} {l : List String} {x : String}
    (h : ∀ a, p a → q a) (hx : x ∈ l) (hp : p x = false) (hq : q x = true) :
    (l.filter p).length < (l.filter q).length := by
  induction l with
  | nil => cases hx
  | cons a l ih =>
    have hle : (l.filter p).length ≤ (l.filter q).length := by
      rw [← List.countP_eq_length_filter, ← List.countP_eq_length_filter]
      exact List.countP_mono_left fun a _ => h a
    rcases List.mem_cons.1 hx with rfl | hx
    · simp [hp, hq]
      omega
    · have := ih hx
      by_cases ha : p a
      · simp [ha, h a ha]
        omega
      · by_cases hb : q a <;> simp [ha, hb] <;> omega

/-- A defined name that is seen for the first time leaves fewer unseen. -/
theorem unseen_cons_lt (c : Subject) {seen : List String} {f : String} {r : Routine}
    (hf : c.program.definition? f = some r) (hs : f ∉ seen) :
    c.unseen (f :: seen) < c.unseen seen := by
  have hk : f ∈ c.program.byName.keys := by
    rw [Program.definition?, Option.filter_eq_some_iff] at hf
    rw [Std.HashMap.mem_keys, Std.HashMap.mem_iff_isSome_getElem?]
    exact Option.isSome_iff_exists.2 ⟨r, hf.1⟩
  exact length_filter_lt (fun a ha => by simp_all) hk (by simp) (by simpa using hs)

end Subject

/-- What the threads of a build share. -/
structure Session where
  arena : Arena
  summaries : Std.HashMap String (List NodeId)
  effects : Std.HashMap String Bool
  threads : Array Thread

namespace Session

/-- A session in which nothing was looked at. -/
def empty : Session := ⟨.empty, ∅, ∅, #[]⟩

/-- The nodes of a routine with a body, classified at the first question. -/
def summary (c : Subject) (s : Session) (f : String) :
    Except Fault (Option (List NodeId) × Session) :=
  match s.summaries[f]? with
  | some nodes => .ok (some nodes, s)
  | none =>
    match c.program.definition? f with
    | none => .ok (none, s)
    | some r => do
      let d ← Draft.classifyAll c.program c.settings c.chain ⟨s.arena, []⟩ r.body
      .ok (some d.nodes, { s with arena := d.arena, summaries := s.summaries.insert f d.nodes })

/-- Whether a node concerns other threads by itself. -/
def concernsThreads (n : Node) : Bool :=
  match n.effect with
  | .fork .. | .join .. | .barrier .. => true
  | .call api _ _ => api.isRuntime
  | _ => false

/-- The routines that the plain calls among nodes may reach, in order. -/
def calledBy (c : Subject) (nodes : List Node) : List String :=
  nodes.flatMap fun n =>
    match n.effect with
    | .call .plain callee _ => c.callTargets callee
    | _ => []

/-- The nodes at positions, in order. -/
def nodesAt (s : Session) (ids : List NodeId) : List Node := ids.filterMap s.arena.get?

mutual

/-- Whether a routine concerns other threads, while the routines of a path are being explored. -/
def explore (c : Subject) (path : List String) (f : String) (s : Session) :
    Except Fault (Bool × Session) :=
  match s.effects[f]? with
  | some known => .ok (known, s)
  | none =>
    if hp : f ∈ path then .ok (false, s)
    else
      match hd : c.program.definition? f with
      | none => .ok (false, { s with effects := s.effects.insert f false })
      | some _ =>
        have := c.unseen_cons_lt hd hp
        do
        let (ids, s) ← s.summary c f
        let nodes := s.nodesAt (ids.getD [])
        let (answer, s) ←
          if nodes.any concernsThreads then .ok (true, s)
          else exploreAny c (f :: path) (calledBy c nodes) s
        .ok (answer, { s with effects := s.effects.insert f answer })
termination_by (c.unseen path, 0)

/-- Whether one of several routines concerns other threads; the first that does ends the search. -/
def exploreAny (c : Subject) (path : List String) : List String → Session →
    Except Fault (Bool × Session)
  | [], s => .ok (false, s)
  | f :: fs, s => do
    let (answer, s) ← explore c path f s
    if answer then .ok (true, s) else exploreAny c path fs s
termination_by fs => (c.unseen path, fs.length + 1)

end

/-- Whether a call of a routine may start or join threads, meet a barrier or use a runtime
construct. -/
def hasThreadEffects (c : Subject) (s : Session) (f : String) : Except Fault (Bool × Session) :=
  explore c [] f s

/-- Adds a thread, and notes it with the thread that starts it. -/
def reserve (s : Session) (entry : String) (site : Option EventRef) (fork : Option NodeId) :
    Except Fault (ThreadId × Session) :=
  let id := s.threads.size
  let threads := s.threads.push (Thread.new id entry site fork)
  match site with
  | none => .ok (id, { s with threads })
  | some r =>
    if r.thread < threads.size then
      .ok (id, { s with
        threads := threads.modify r.thread fun t => { t with children := t.children.push id } })
    else .error .outOfRange

end Session

end DataRace
