import DataRace.Proofs.Trace.Growth
import Mathlib.Logic.Relation

/-!
# Steps that fail with other faults

A build fails with `Fault.joinBeforeFork` only where a thread handles a companion join, and with
`Fault.unclosedRegion` only where it visits the beginning of a region (`Runtime.visit_error`).  All
other steps, from the classification of an instruction to the end of a thread, are `Harmless`: they
may fail, but with other faults.
-/

namespace DataRace

/-- A fault of the order in which a thread comes to its nodes: it comes to a companion join but not
to its fork, or to the beginning of a region but not to its end. -/
def Fault.OfOrder : Fault → Prop
  | .joinBeforeFork .. | .unclosedRegion .. => True
  | _ => False

/-- A step that fails with other faults only. -/
abbrev Harmless {α : Type} (x : Except Fault α) : Prop := Except.Only (fun f => ¬ f.OfOrder) x

namespace Harmless

/-- A position that has to exist. -/
theorem get (a : Arena) (id : NodeId) : Harmless (a.get id) := by
  unfold Arena.get
  split
  · exact .ok _
  · exact .error not_false

/-- A companion join that is asked for. -/
theorem companionJoin (a : Arena) (fork : NodeId) : Harmless (a.companionJoin fork) := by
  unfold Arena.companionJoin
  split
  · exact .ok _
  · refine (get a fork).bind fun n => ?_
    split
    · exact .ok _
    · exact .error not_false

/-- A call. -/
theorem requireCall (role : Role) (i : Instruction) : Harmless (Node.requireCall role i) := by
  unfold Node.requireCall
  split
  · exact .ok _
  · exact .error not_false

/-- An operand of a call. -/
theorem operand (role : Role) (i : Instruction) (offset : Nat) :
    Harmless (Node.operand role i offset) := by
  refine (requireCall role i).bind fun _ => ?_
  split
  · exact .ok _
  · exact .error not_false

/-- A pointer among the operands of a call. -/
theorem pointer (role : Role) (i : Instruction) (offset : Nat) :
    Harmless (Node.pointer role i offset) := by
  refine (operand role i offset).bind fun op => ?_
  split
  · exact .ok _
  · exact .error not_false

/-- A fork whose handle and entry are known. -/
theorem forkWithEntry (i : Instruction) (api : ForkApi) (handle : Operand) (entry : ThreadEntry) :
    Harmless (Node.forkWithEntry i api handle entry) :=
  (requireCall .fork i).bind fun _ => .ok _

/-- A fork whose handle and entry are arguments. -/
theorem fork (i : Instruction) (api : ForkApi) (handle entry : Nat) :
    Harmless (Node.fork i api handle entry) := by
  refine (operand .forkHandle i handle).bind fun h => (operand .forkEntry i entry).bind fun op => ?_
  split
  · exact forkWithEntry i api h _
  · exact .error not_false

/-- A call node. -/
theorem call (i : Instruction) (api : CallApi) : Harmless (Node.call i api) := by
  unfold Node.call
  split
  · exact .ok _
  · exact .error not_false

/-- The entry of a task. -/
theorem taskEntry (p : Program) (i : Instruction) : Harmless (taskEntry p i) := by
  unfold DataRace.taskEntry
  dsimp only
  split
  -- Whether the allocation is known or not, what is asked of it is the same.
  all_goals
    refine Except.Only.bind ?_ fun alloc => ?_
    · first
      | exact .ok _
      | exact .error not_false
    · split
      · exact .error not_false
      · split
        · exact .ok _
        · exact .error not_false

/-- The nodes of a known call. -/
theorem emit (p : Program) (s : Settings) (i : Instruction) (d : Draft) (m : Meaning) :
    Harmless (m.emit p s i d) := by
  cases m with
  | nothing => exact .ok d
  | free | fill => exact ((pointer _ i _).bind fun _ => .ok _).map _
  | join | lock | unlock => exact ((operand _ i _).bind fun _ => .ok _).map _
  | barrier => exact ((requireCall _ i).bind fun _ => .ok _).map _
  | fork api => exact (fork i api 0 2).map _
  | construct api => exact (call i api).map _
  | copy =>
    exact ((pointer _ i _).bind fun _ => .ok _).bind fun _ =>
      ((pointer _ i _).bind fun _ => .ok _).bind fun _ => .ok _
  | team api =>
    refine (Except.Only.mapM (fun member => fork i member 0 2) _).bind fun forks => ?_
    exact Except.Only.foldlM
      (fun (e : Draft) _ => (companionJoin e.arena _).bind fun _ => .ok _) _ _
  | task => exact (taskEntry p i).bind fun entry => (forkWithEntry i _ _ entry).map _
  | launch => exact (Except.Only.mapM (fun thread => fork i thread 0 0) _).bind fun _ => .ok _

/-- The nodes of an instruction. -/
theorem classify (p : Program) (s : Settings) (chain : Chain) (d : Draft) (i : Instruction) :
    Harmless (d.classify p s chain i) := by
  unfold Draft.classify
  split
  · refine Except.Only.map ?_ _
    unfold Node.load
    split
    · exact .ok _
    · exact .error not_false
  · refine Except.Only.map ?_ _
    unfold Node.store
    split
    · exact .ok _
    · exact .error not_false
  · split
    · exact emit p s i d _
    · exact (call i .plain).map _
  · exact .ok d

/-- The nodes of a routine. -/
theorem summary (c : Subject) (s : Session) (f : String) : Harmless (s.summary c f) := by
  unfold Session.summary
  split
  · exact .ok _
  · split
    · exact .ok _
    · exact (Except.Only.foldlM (classify _ _ _) _ _).bind fun _ => .ok _

/-- Exploring routines. -/
theorem explore (c : Subject) :
    (∀ path f s, Harmless (Session.explore c path f s)) ∧
      ∀ path fs s, Harmless (Session.exploreAny c path fs s) := by
  apply Session.explore.mutual_induct c (fun path f s => Harmless (Session.explore c path f s))
    (fun path fs s => Harmless (Session.exploreAny c path fs s))
  case case1 =>
    intro path f s known hknown
    rw [Session.explore_of_known hknown]
    exact .ok _
  case case2 =>
    intro path f s hknown hpath
    rw [Session.explore_of_mem hknown hpath]
    exact .ok _
  case case3 =>
    intro path f s hknown hpath hdef
    rw [Session.explore_of_bodiless hknown hpath hdef]
    exact .ok _
  case case4 =>
    intro path f s hknown hpath routine hdef _ ih
    rw [Session.explore_of_body hknown hpath hdef]
    refine (summary c s f).bind fun answer => ?_
    obtain ⟨ids, s'⟩ := answer
    dsimp only
    split
    · exact .ok _
    · exact (ih ids s').bind fun _ => .ok _
  case case5 =>
    intro path s
    rw [Session.exploreAny]
    exact .ok _
  case case6 =>
    intro path f fs s ih ihs
    rw [Session.exploreAny]
    refine ih.bind fun found => ?_
    obtain ⟨answer, s'⟩ := found
    dsimp only
    split
    · exact .ok _
    · exact ihs s'

/-- Asking whether a call is repeated. -/
theorem isRepeated (c : Subject) (w : Walk) (target : String) (args : List Operand) :
    Harmless (w.isRepeated c target args) := by
  unfold Walk.isRepeated
  split
  · refine ((explore c).1 [] target w.session).bind fun ⟨effects, session⟩ => ?_
    dsimp only
    split
    · exact .ok _
    · split
      · exact .ok _
      · exact .ok _
  · exact .ok _

/-- Joining what the runtime joins. -/
theorem joinPending (w : Walk) (directOnly : Bool) : Harmless (w.joinPending directOnly) :=
  Except.Only.foldlM (fun (v : Walk) _ => (companionJoin v.session.arena _).bind fun _ => .ok _) _ _

/-- The end of a thread. -/
theorem finish (r : Runtime) (w : Walk) : Harmless (w.finish r) := by
  refine Except.Only.bind ?_ fun v => .ok _
  rcases Walk.finish_cases r w.self.spawnedBy with hjoin | hnothing
  · rw [hjoin w rfl]
    exact joinPending w false
  · rw [hnothing w rfl]
    exact .ok w

/-- The start of a child. -/
theorem beginFork (w : Walk) (id : NodeId) (entry : String) : Harmless (w.beginFork id entry) := by
  refine Except.Only.bind ?_ fun _ => .ok _
  unfold Session.reserve
  dsimp only
  split
  · exact .ok _
  · exact .error not_false

end Harmless

/-- If skipping a region fails, the region has no end among the nodes to come. -/
theorem Walk.skipRegion_error {w : Walk} {opening closing : CallApi} {node : Node}
    {routine : Option String} {rest : List NodeId} {e : Fault}
    (h : w.skipRegion opening closing node routine rest = .error e) :
    e = .unclosedRegion opening closing node routine ∧ w.self.isWorker = true ∧
      regionEnd? w.session.arena opening closing 0 rest = none := by
  unfold skipRegion at h
  split at h
  · next hworker =>
    split at h
    · cases h
    · next hend =>
      cases h
      exact ⟨rfl, hworker, hend⟩
  · cases h

/-- What the runtime does at a node fails with other faults, or the node opens a region, which the
thread passes over and which has no end among the nodes to come. -/
theorem Runtime.visit_error {r : Runtime} {w : Walk} {node : Node} {routine : Option String}
    {rest : List NodeId} {e : Fault} (h : r.visit w node routine rest = .error e)
    (he : e.OfOrder) : ∃ g : Region, (r = .openMp ∧ node.callApi? = some g.opening) ∧
      e = .unclosedRegion g.opening g.closing node routine ∧ w.self.isWorker = true ∧
        Walk.regionEnd? w.session.arena g.opening g.closing 0 rest = none := by
  obtain ⟨_, -, hvisit⟩ | ⟨-, ⟨_, _, hvisit⟩ | ⟨g, hopens, hvisit⟩⟩ := Walk.visit_cases r node
  · rw [hvisit] at h
    cases h
  · rw [hvisit] at h
    exact absurd he (((Harmless.joinPending w _).bind fun _ => .ok _) e h)
  · rw [hvisit] at h
    rcases Except.bind_eq_error.1 h with h | ⟨_, -, h⟩
    · exact ⟨g, hopens, Walk.skipRegion_error h⟩
    · cases h

end DataRace
