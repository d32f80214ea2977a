import DataRace.Proofs.Trace.Harmless
import Mathlib.Logic.Relation

/-!
# Walks part by part

A walk is done in parts, each of which asks for others: the nodes of a routine for what the first of
them does and for the nodes behind it, a call for the nodes of the routines that it reaches, a fork
for those of its children.  A part is a `Frame`, and `Frame.Leads` says which frame asks for which.
Walks that fail have frames, too, up to the one that fails, so what a frame leads to is what threads
get to, whether or not there is a trace in the end.

Walks fail with a fault of the order in which a thread comes to its nodes only at a step of some
part (`Frame.Fails`), which a frame that fails with such a fault leads to (`Frame.exists_fails`). 
So a frame that fails with `Fault.joinBeforeFork` leads to a companion join that is handled early,
when its fork was not met (`Frame.early_of_error`).
-/

namespace DataRace

open Relation

/-- A part of a walk: nodes of a routine, one of its nodes, routines that a call may reach, or
children that a fork may start. -/
inductive Frame where
  | nodes (ancestry opened : List String) (ids : List NodeId) (w : Walk)
  | node (ancestry opened : List String) (id : NodeId) (n : Node) (w : Walk)
  | calls (ancestry opened : List String) (id : NodeId) (args : List Operand)
    (targets : List String) (w : Walk)
  | forks (ancestry opened : List String) (id : NodeId) (api : ForkApi) (handle : Operand)
    (entries : List String) (w : Walk)

namespace Frame

/-- Does a part of a walk. -/
def run (c : Subject) (r : Runtime) : Frame → Except Fault Walk
  | nodes ancestry opened ids w => w.walk c r ancestry opened ids
  | node ancestry opened id n w => w.handle c r ancestry opened id n
  | calls ancestry opened id args targets w => w.callAll c r ancestry opened id args targets
  | forks ancestry opened id api handle entries w =>
    w.forkAll c r ancestry opened id api handle entries

/-- One part of a walk asks for another. -/
inductive Leads (c : Subject) (r : Runtime) : Frame → Frame → Prop
  /-- A node is passed over. -/
  | pass {ancestry opened : List String} {id : NodeId} {rest : List NodeId} {n : Node} {w : Walk}
      (hn : w.session.arena.get? id = some n) (hskip : w.isSkipped n = true) :
      Leads c r (.nodes ancestry opened (id :: rest) w) (.nodes ancestry opened rest w)
  /-- A node is handled when the runtime has acted. -/
  | visit {ancestry opened : List String} {id : NodeId} {rest : List NodeId} {n : Node}
      {w v : Walk} (hn : w.session.arena.get? id = some n) (hskip : w.isSkipped n = false)
      (hvisit : r.visit w.reach n opened.head? rest = .ok (true, v)) :
      Leads c r (.nodes ancestry opened (id :: rest) w) (.node ancestry opened id n v)
  /-- The nodes behind a node come when that is done. -/
  | next {ancestry opened : List String} {id : NodeId} {rest : List NodeId} {n : Node}
      {w v u : Walk} {opens : Bool} (hn : w.session.arena.get? id = some n)
      (hskip : w.isSkipped n = false)
      (hvisit : r.visit w.reach n opened.head? rest = .ok (opens, v))
      (hu : (if opens then v.handle c r ancestry opened id n else .ok v) = .ok u) :
      Leads c r (.nodes ancestry opened (id :: rest) w) (.nodes ancestry opened rest u)
  /-- A fork may start a child for each entry. -/
  | fork {ancestry opened : List String} {id : NodeId} {n : Node} {w : Walk} {api : ForkApi}
      {handle : Operand} {entry : ThreadEntry} (heffect : n.effect = .fork api handle entry) :
      Leads c r (.node ancestry opened id n w)
        (.forks ancestry opened id api handle (c.entryTargets entry) (w.meetFork id))
  /-- A plain call may reach several routines. -/
  | call {ancestry opened : List String} {id : NodeId} {n : Node} {w : Walk} {api : CallApi}
      {callee : Callee} {args : List Operand} (heffect : n.effect = .call api callee args)
      (hplain : api.isRuntime = false) :
      Leads c r (.node ancestry opened id n w)
        (.calls ancestry opened id args (c.callTargets callee) w)
  /-- A routine without a body, or that is open, is not called. -/
  | uncalled {ancestry opened : List String} {id : NodeId} {args : List Operand} {target : String}
      {targets : List String} {w : Walk} {nodes : Option (List NodeId)} {session : Session}
      (hsummary : w.session.summary c target = .ok (nodes, session))
      (hpass : c.program.definition? target = none ∨ target ∈ opened) :
      Leads c r (.calls ancestry opened id args (target :: targets) w)
        (.calls ancestry opened id args targets { w with session })
  /-- A repeated call adds nothing. -/
  | repeated {ancestry opened : List String} {id : NodeId} {args : List Operand} {target : String}
      {targets : List String} {w u : Walk} {nodes : Option (List NodeId)} {session : Session}
      (hsummary : w.session.summary c target = .ok (nodes, session))
      (hopen : target ∉ opened)
      (hrepeated : Walk.isRepeated c { w with session } target args = .ok (true, u)) :
      Leads c r (.calls ancestry opened id args (target :: targets) w)
        (.calls ancestry opened id args targets u)
  /-- A routine that is called is walked in the same thread. -/
  | enter {ancestry opened : List String} {id : NodeId} {args : List Operand} {target : String}
      {targets : List String} {w u : Walk} {nodes : Option (List NodeId)} {session : Session}
      (hsummary : w.session.summary c target = .ok (nodes, session))
      (hopen : target ∉ opened)
      (hrepeated : Walk.isRepeated c { w with session } target args = .ok (false, u)) :
      Leads c r (.calls ancestry opened id args (target :: targets) w)
        (.nodes ancestry (target :: opened) (nodes.getD []) (u.record id .call))
  /-- The other routines come when that is done. -/
  | leave {ancestry opened : List String} {id : NodeId} {args : List Operand} {target : String}
      {targets : List String} {w u v : Walk} {nodes : Option (List NodeId)} {session : Session}
      (hsummary : w.session.summary c target = .ok (nodes, session))
      (hopen : target ∉ opened)
      (hrepeated : Walk.isRepeated c { w with session } target args = .ok (false, u))
      (hv : (u.record id .call).walk c r ancestry (target :: opened) (nodes.getD []) = .ok v) :
      Leads c r (.calls ancestry opened id args (target :: targets) w)
        (.calls ancestry opened id args targets (v.record id .return))
  /-- A child is not started. -/
  | unstarted {ancestry opened : List String} {id : NodeId} {api : ForkApi} {handle : Operand}
      {entry : String} {entries : List String} {w : Walk}
      (hpass : entry ∈ ancestry ∨ c.settings.maxThreads ≤ w.session.threads.size) :
      Leads c r (.forks ancestry opened id api handle (entry :: entries) w)
        (.forks ancestry opened id api handle entries w)
  /-- A child with a body is walked in its own thread. -/
  | start {ancestry opened : List String} {id : NodeId} {api : ForkApi} {handle : Operand}
      {entry : String} {entries : List String} {w v : Walk} {child : ThreadId}
      {nodes : Option (List NodeId)} {session : Session} (hnew : entry ∉ ancestry)
      (hlimit : w.session.threads.size < c.settings.maxThreads)
      (hbegin : w.beginFork id entry = .ok (child, v))
      (hsummary : (v.enterChild child api).session.summary c entry = .ok (nodes, session)) :
      Leads c r (.forks ancestry opened id api handle (entry :: entries) w)
        (.nodes (entry :: ancestry) [entry] (nodes.getD []) { v.enterChild child api with session })
  /-- The other children come when it has ended. -/
  | ended {ancestry opened : List String} {id : NodeId} {api : ForkApi} {handle : Operand}
      {entry : String} {entries : List String} {w v inner last : Walk} {child : ThreadId}
      (hnew : entry ∉ ancestry) (hlimit : w.session.threads.size < c.settings.maxThreads)
      (hbegin : w.beginFork id entry = .ok (child, v))
      (hinner : Walk.WalksChild c r ancestry entry (v.enterChild child api) inner)
      (hlast : r.finish inner = .ok last) :
      Leads c r (.forks ancestry opened id api handle (entry :: entries) w)
        (.forks ancestry opened id api handle entries (v.endFork r id api handle last.close))

/-- A routine without a body is not called. -/
def Earnest (c : Subject) : Frame → Frame → Prop
  | calls ancestry opened id args (target :: targets) w, G =>
    c.program.definition? target = none → ∃ nodes session,
      w.session.summary c target = .ok (nodes, session) ∧
        G = .calls ancestry opened id args targets { w with session }
  | _, _ => True

/-- A part of a walk asks for another, and goes past routines without a body. -/
def Asks (c : Subject) (r : Runtime) (F G : Frame) : Prop := F.Leads c r G ∧ F.Earnest c G

/-- A companion join of a fork is handled that its thread did not meet. -/
def Early (c : Subject) (r : Runtime) (F : Frame) : Prop :=
  ∃ ancestry opened id n w fork, ReflTransGen (Leads c r) F (.node ancestry opened id n w) ∧
    n.companionOf? = some fork ∧ fork ∉ w.self.metForks

variable {c : Subject} {r : Runtime} {F G : Frame}

/-- A routine with a body may be called. -/
theorem earnest_of_definition {ancestry opened : List String} {id : NodeId} {args : List Operand}
    {target : String} {targets : List String} {w : Walk} {routine : Routine}
    (hdef : c.program.definition? target = some routine) (G : Frame) :
    Earnest c (.calls ancestry opened id args (target :: targets) w) G := by
  intro hnone
  rw [hdef] at hnone
  cases hnone

/-! ### Where walks fail -/

/-- A part fails at a step of its own, because of the order in which its thread comes to nodes. -/
inductive Fails (c : Subject) (r : Runtime) : Frame → Fault → Prop
  /-- At a node that is not passed over. -/
  | visit {ancestry opened : List String} {id : NodeId} {rest : List NodeId} {n : Node} {w : Walk}
      {e : Fault} (hn : w.session.arena.get? id = some n) (hskip : w.isSkipped n = false)
      (hvisit : r.visit w.reach n opened.head? rest = .error e) :
      Fails c r (.nodes ancestry opened (id :: rest) w) e
  /-- At a companion join. -/
  | companion {ancestry opened : List String} {id : NodeId} {n : Node} {w : Walk} {fork : NodeId}
      (hfork : n.companionOf? = some fork) (hmet : fork ∉ w.self.metForks) :
      Fails c r (.node ancestry opened id n w) (.joinBeforeFork n w.self.thread fork)

/-- A part that fails with such a fault leads to one that does so at a step of its own. -/
def Blames (c : Subject) (r : Runtime) (F : Frame) : Prop :=
  ∀ e : Fault, e.OfOrder → F.run c r = .error e →
    ∃ G, ReflTransGen (Asks c r) F G ∧ G.Fails c r e

/-- A frame blames what the frames blame that it asks for. -/
theorem Blames.of_asks {e : Fault} (hG : G.Blames c r) (hleads : F.Leads c r G)
    (hearnest : F.Earnest c G) (he : e.OfOrder) (h : G.run c r = .error e) :
    ∃ G, ReflTransGen (Asks c r) F G ∧ G.Fails c r e := by
  obtain ⟨H, hpath, hfails⟩ := hG e he h
  exact ⟨H, hpath.head ⟨hleads, hearnest⟩, hfails⟩

section

variable {ancestry opened : List String} {w : Walk} {id : NodeId} {args : List Operand}
  {api : ForkApi} {handle : Operand}

/-- A node and then the others. -/
theorem Blames.cons {rest : List NodeId} (hrest : ∀ v, Blames c r (.nodes ancestry opened rest v))
    (hnode : ∀ n v, Blames c r (.node ancestry opened id n v)) :
    Blames c r (.nodes ancestry opened (id :: rest) w) := by
  intro e he h
  rw [run, Walk.walk] at h
  rcases Except.bind_eq_error.1 h with h | ⟨n, hn, h⟩
  · exact absurd he (Harmless.get _ _ _ h)
  rw [Arena.get_eq_ok] at hn
  split at h
  · next hskip => exact (hrest w).of_asks (.pass hn hskip) trivial he h
  · next hskip =>
    have hskip' : w.isSkipped n = false := Bool.eq_false_iff.2 hskip
    rcases Except.bind_eq_error.1 h with h | ⟨⟨opens, v⟩, hvisit, h⟩
    · exact ⟨_, .refl, .visit hn hskip' h⟩
    dsimp only at h
    split at h
    · next hopens =>
      cases hopens
      rcases Except.bind_eq_error.1 h with h | ⟨u, hu, h⟩
      · exact (hnode n v).of_asks (.visit hn hskip' hvisit) trivial he h
      · exact (hrest u).of_asks (.next hn hskip' hvisit (if_pos rfl |>.trans hu)) trivial he h
    · next hopens =>
      exact (hrest v).of_asks (.next hn hskip' hvisit (if_neg hopens)) trivial he h

/-- A routine that a call may reach and then the others. -/
theorem Blames.call_cons {target : String} {targets : List String}
    (hrest : ∀ v, Blames c r (.calls ancestry opened id args targets v))
    (hwalk : ∀ (nodes : Option (List NodeId)) routine, c.program.definition? target = some routine →
      target ∉ opened → ∀ v : Walk,
        Blames c r (.nodes ancestry (target :: opened) (nodes.getD []) (v.record id .call))) :
    Blames c r (.calls ancestry opened id args (target :: targets) w) := by
  intro e he h
  rw [run, Walk.callAll] at h
  rcases Except.bind_eq_error.1 h with h | ⟨⟨nodes, session⟩, hsummary, h⟩
  · exact absurd he (Harmless.summary _ _ _ _ h)
  dsimp only at h
  have hpassed : Earnest c (.calls ancestry opened id args (target :: targets) w)
      (.calls ancestry opened id args targets { w with session }) := fun _ => ⟨_, _, hsummary, rfl⟩
  split at h
  · next hdef =>
    exact (hrest _).of_asks (.uncalled hsummary (Or.inl hdef)) hpassed he h
  · next routine hdef =>
    split at h
    · next hopen =>
      exact (hrest _).of_asks (.uncalled hsummary (Or.inr hopen)) hpassed he h
    · next hopen =>
      have hearnest : ∀ G, Earnest c (.calls ancestry opened id args (target :: targets) w) G :=
        earnest_of_definition hdef
      rcases Except.bind_eq_error.1 h with h | ⟨⟨repeated, u⟩, hrepeated, h⟩
      · exact absurd he (Harmless.isRepeated _ _ _ _ _ h)
      cases repeated with
      | true => exact (hrest u).of_asks (.repeated hsummary hopen hrepeated) (hearnest _) he h
      | false =>
        rcases Except.bind_eq_error.1 h with h | ⟨v, hv, h⟩
        · exact (hwalk nodes routine hdef hopen u).of_asks (.enter hsummary hopen hrepeated)
            (hearnest _) he h
        · exact (hrest _).of_asks (.leave hsummary hopen hrepeated hv) (hearnest _) he h

/-- A child that is started and then the others. -/
theorem Blames.fork_cons {entry : String} {entries : List String} (hnew : entry ∉ ancestry)
    (hlimit : w.session.threads.size < c.settings.maxThreads)
    (hrest : ∀ v last : Walk,
      Blames c r (.forks ancestry opened id api handle entries (v.endFork r id api handle last)))
    (hwalk : ∀ child (v : Walk) routine, c.program.definition? entry = some routine →
      ∀ (nodes : Option (List NodeId)) session, Blames c r (.nodes (entry :: ancestry) [entry]
        (nodes.getD []) { v.enterChild child api with session })) :
    Blames c r (.forks ancestry opened id api handle (entry :: entries) w) := by
  intro e he h
  rw [run, Walk.forkAll, dif_neg hnew, if_neg (Nat.not_le.2 hlimit)] at h
  rcases Except.bind_eq_error.1 h with h | ⟨⟨child, v⟩, hbegin, h⟩
  · exact absurd he (Harmless.beginFork _ _ _ _ h)
  -- Behind the walk of the child its thread ends and the other children come.
  have hafter : ∀ inner, Walk.WalksChild c r ancestry entry (v.enterChild child api) inner →
      (inner.finish r >>= fun last => (v.endFork r id api handle last).forkAll c r ancestry
        opened id api handle entries) = .error e →
      ∃ G, ReflTransGen (Asks c r) (.forks ancestry opened id api handle (entry :: entries) w) G ∧
        G.Fails c r e := by
    intro inner hinner h
    rcases Except.bind_eq_error.1 h with h | ⟨_, hended, h⟩
    · exact absurd he (Harmless.finish _ _ _ h)
    · obtain ⟨last, hlast, rfl⟩ := Walk.finish_eq_ok.1 hended
      exact (hrest v last.close).of_asks (.ended hnew hlimit hbegin hinner hlast) trivial he h
  dsimp only at h
  split at h
  · next hdef => exact hafter _ (Or.inl ⟨hdef, rfl⟩) h
  · next routine hdef =>
    rcases Except.bind_eq_error.1 h with h | ⟨⟨nodes, session⟩, hsummary, h⟩
    · exact absurd he (Harmless.summary _ _ _ _ h)
    rcases Except.bind_eq_error.1 h with h | ⟨inner, hinner, h⟩
    · exact (hwalk child v routine hdef nodes session).of_asks (.start hnew hlimit hbegin hsummary)
        trivial he h
    · exact hafter inner (Or.inr ⟨routine, nodes, session, hdef, hsummary, hinner⟩) h

end

/-- All parts that fail with such a fault lead to one that does so at a step of its own. -/
theorem all_blame (c : Subject) (r : Runtime) :
    (∀ ancestry opened ids w, Blames c r (.nodes ancestry opened ids w)) ∧
      (∀ ancestry opened id n w, Blames c r (.node ancestry opened id n w)) ∧
      (∀ ancestry opened id args targets w, Blames c r (.calls ancestry opened id args targets w)) ∧
      ∀ ancestry opened id api handle entries w,
        Blames c r (.forks ancestry opened id api handle entries w) := by
  apply Walk.walk.mutual_induct c r
    (fun ancestry opened ids w => Blames c r (.nodes ancestry opened ids w))
    (fun ancestry opened id n w => Blames c r (.node ancestry opened id n w))
    (fun ancestry opened id args targets w => Blames c r (.calls ancestry opened id args targets w))
    (fun ancestry opened id api handle entries w =>
      Blames c r (.forks ancestry opened id api handle entries w))
  -- A list of nodes.
  case case1 =>
    intro ancestry opened w e he h
    rw [run, Walk.walk] at h
    cases h
  case case2 =>
    intro ancestry opened id rest w _ ihrest ihnode
    exact .cons ihrest ihnode
  -- A node.
  case case3 | case4 | case5 | case6 | case7 | case8 | case10 =>
    intros
    rename_i heffect
    intro e he h
    rw [run, Walk.handle, heffect] at h
    cases h
  case case9 =>
    intro ancestry opened id n w api operand fork heffect e he h
    rw [run, Walk.handle, heffect] at h
    dsimp only at h
    unfold Walk.joinCompanion at h
    split at h
    · cases h
    · next hmet =>
      cases h
      exact ⟨_, .refl, .companion (by simp [Node.companionOf?, heffect]) hmet⟩
  case case11 =>
    intro ancestry opened id n w api operand entry heffect ih e he h
    rw [run, Walk.handle, heffect] at h
    exact ih.of_asks (.fork heffect) trivial he h
  case case12 =>
    intro ancestry opened id n w api callee args heffect hruntime e he h
    rw [run, Walk.handle, heffect] at h
    dsimp only at h
    rw [if_pos hruntime] at h
    cases h
  case case13 =>
    intro ancestry opened id n w api callee args heffect hplain ih e he h
    rw [run, Walk.handle, heffect] at h
    dsimp only at h
    rw [if_neg hplain] at h
    exact ih.of_asks (.call heffect (Bool.eq_false_iff.2 hplain)) trivial he h
  -- The routines of a call.
  case case14 =>
    intro ancestry opened id args w e he h
    rw [run, Walk.callAll] at h
    cases h
  case case15 =>
    intro ancestry opened id args target targets w _ ihrest ihwalk _
    exact .call_cons ihrest ihwalk
  -- The children of a fork.
  case case16 =>
    intro ancestry opened id api operand w e he h
    rw [run, Walk.forkAll] at h
    cases h
  case case17 =>
    intro ancestry opened id api operand entry entries w hpass ih e he h
    rw [run, Walk.forkAll, dif_pos hpass] at h
    exact ih.of_asks (.unstarted (Or.inl hpass)) trivial he h
  case case18 =>
    intro ancestry opened id api operand entry entries w hnew hlimit ih e he h
    rw [run, Walk.forkAll, dif_neg hnew, if_pos hlimit] at h
    exact ih.of_asks (.unstarted (Or.inr hlimit)) trivial he h
  case case19 =>
    intro ancestry opened id api operand entry entries w hnew hlimit ihrest ihwalk
    exact .fork_cons hnew (Nat.lt_of_not_le hlimit) ihrest ihwalk

/-- A part that fails with such a fault leads to one that does so at a step of its own. -/
theorem exists_fails {e : Fault} (he : e.OfOrder) (h : F.run c r = .error e) :
    ∃ G, ReflTransGen (Asks c r) F G ∧ G.Fails c r e := by
  obtain ⟨hnodes, hnode, hcalls, hforks⟩ := all_blame c r
  cases F with
  | nodes => exact hnodes _ _ _ _ e he h
  | node => exact hnode _ _ _ _ _ e he h
  | calls => exact hcalls _ _ _ _ _ _ e he h
  | forks => exact hforks _ _ _ _ _ _ _ e he h

/-- A walk that fails because of a companion join leads to one that is handled early. -/
theorem early_of_error {n : Node} {thread fork : Nat}
    (h : F.run c r = .error (.joinBeforeFork n thread fork)) : F.Early c r := by
  have horder : (Fault.joinBeforeFork n thread fork).OfOrder := trivial
  obtain ⟨G, hpath, hfails⟩ := exists_fails horder h
  cases hfails with
  | visit _ _ hvisit =>
    obtain ⟨g, -, he, -⟩ := Runtime.visit_error hvisit horder
    cases he
  | companion hfork hmet =>
    exact ⟨_, _, _, _, _, _, hpath.lift id fun _ _ h => h.1, hfork, hmet⟩

end Frame

end DataRace
