import DataRace.Proofs.Trace.Completed
import DataRace.Proofs.Trace.Reaches

/-!
# Tours

A tour is a part of a walk that succeeds, with the list of all visits on the way: the nodes that the
walking thread and the threads behind it come to and do not pass over, in the order of time.  There
is one rule for each thing that a walk does, so what holds of visits or of threads is shown by
induction on tours.  Every part that succeeds has a tour, and what has a tour succeeds
(`Frame.run_eq_ok_iff`).

A visit says what its thread had before and what the runtime left to it.  What it left is part of
what the tour comes to (`Frame.Tours.between`), and so of the trace that is built in the end
(`Trace.Toured.ends`, `Trace.Toured.event?_eq`).
-/

namespace DataRace

/-- A node that a thread comes to, with the thread before and the thread as its runtime leaves
it. -/
structure Visit where
  id : NodeId
  node : Node
  before : Walk
  after : Walk

namespace Visit

/-- The thread that comes to the node. -/
def thread (v : Visit) : ThreadId := v.before.self.thread

end Visit

namespace Node

/-- A node neither starts threads nor calls routines. -/
def IsLeaf (n : Node) : Prop :=
  (∀ api handle entry, n.effect ≠ .fork api handle entry) ∧
    ∀ api callee args, n.effect = .call api callee args → api.isRuntime = true

end Node

namespace Frame

/-- A part of a walk comes to its end, by way of some visits. -/
inductive Tours (c : Subject) (r : Runtime) : Frame → List Visit → Walk → Prop
  /-- There are no more nodes. -/
  | done {ancestry opened : List String} {w : Walk} : Tours c r (.nodes ancestry opened [] w) [] w
  /-- A node is passed over. -/
  | pass {ancestry opened : List String} {id : NodeId} {rest : List NodeId} {n : Node} {w w' : Walk}
      {log : List Visit} (hn : w.session.arena.get? id = some n) (hskip : w.isSkipped n = true)
      (hrest : Tours c r (.nodes ancestry opened rest w) log w') :
      Tours c r (.nodes ancestry opened (id :: rest) w) log w'
  /-- A node is left to the runtime. -/
  | taken {ancestry opened : List String} {id : NodeId} {rest : List NodeId} {n : Node}
      {w v w' : Walk} {log : List Visit} (hn : w.session.arena.get? id = some n)
      (hskip : w.isSkipped n = false)
      (hvisit : r.visit w.reach n opened.head? rest = .ok (false, v))
      (hrest : Tours c r (.nodes ancestry opened rest v) log w') :
      Tours c r (.nodes ancestry opened (id :: rest) w) (⟨id, n, w, v⟩ :: log) w'
  /-- A node is handled when the runtime has acted. -/
  | visit {ancestry opened : List String} {id : NodeId} {rest : List NodeId} {n : Node}
      {w v u w' : Walk} {log more : List Visit} (hn : w.session.arena.get? id = some n)
      (hskip : w.isSkipped n = false)
      (hvisit : r.visit w.reach n opened.head? rest = .ok (true, v))
      (hnode : Tours c r (.node ancestry opened id n v) log u)
      (hrest : Tours c r (.nodes ancestry opened rest u) more w') :
      Tours c r (.nodes ancestry opened (id :: rest) w) (⟨id, n, w, v⟩ :: (log ++ more)) w'
  /-- A node neither starts threads nor calls routines. -/
  | leaf {ancestry opened : List String} {id : NodeId} {n : Node} {w w' : Walk} (hleaf : n.IsLeaf)
      (h : w.handle c r ancestry opened id n = .ok w') :
      Tours c r (.node ancestry opened id n w) [] w'
  /-- A node is a fork. -/
  | fork {ancestry opened : List String} {id : NodeId} {n : Node} {w w' : Walk} {log : List Visit}
      {api : ForkApi} {handle : Operand} {entry : ThreadEntry}
      (heffect : n.effect = .fork api handle entry)
      (h : Tours c r
        (.forks ancestry opened id api handle (c.entryTargets entry) (w.meetFork id)) log w') :
      Tours c r (.node ancestry opened id n w) log w'
  /-- A node is a call. -/
  | call {ancestry opened : List String} {id : NodeId} {n : Node} {w w' : Walk} {log : List Visit}
      {api : CallApi} {callee : Callee} {args : List Operand}
      (heffect : n.effect = .call api callee args) (hplain : api.isRuntime = false)
      (h : Tours c r (.calls ancestry opened id args (c.callTargets callee) w) log w') :
      Tours c r (.node ancestry opened id n w) log w'
  /-- There is nothing more to call. -/
  | called {ancestry opened : List String} {id : NodeId} {args : List Operand} {w : Walk} :
      Tours c r (.calls ancestry opened id args [] w) [] w
  /-- A routine without a body, or that is open, is not called. -/
  | uncalled {ancestry opened : List String} {id : NodeId} {args : List Operand} {target : String}
      {targets : List String} {w w' : Walk} {log : List Visit} {nodes : Option (List NodeId)}
      {session : Session} (hsummary : w.session.summary c target = .ok (nodes, session))
      (hpass : c.program.definition? target = none ∨ target ∈ opened)
      (hrest : Tours c r (.calls ancestry opened id args targets { w with session }) log w') :
      Tours c r (.calls ancestry opened id args (target :: targets) w) log w'
  /-- A repeated call adds nothing. -/
  | repeated {ancestry opened : List String} {id : NodeId} {args : List Operand} {target : String}
      {targets : List String} {w u w' : Walk} {log : List Visit} {nodes : Option (List NodeId)}
      {session : Session} {routine : Routine}
      (hsummary : w.session.summary c target = .ok (nodes, session))
      (hdef : c.program.definition? target = some routine) (hopen : target ∉ opened)
      (hrepeated : Walk.isRepeated c { w with session } target args = .ok (true, u))
      (hrest : Tours c r (.calls ancestry opened id args targets u) log w') :
      Tours c r (.calls ancestry opened id args (target :: targets) w) log w'
  /-- A routine is walked between a call and a return event. -/
  | expanded {ancestry opened : List String} {id : NodeId} {args : List Operand} {target : String}
      {targets : List String} {w u v w' : Walk} {log more : List Visit}
      {nodes : Option (List NodeId)} {session : Session} {routine : Routine}
      (hsummary : w.session.summary c target = .ok (nodes, session))
      (hdef : c.program.definition? target = some routine) (hopen : target ∉ opened)
      (hrepeated : Walk.isRepeated c { w with session } target args = .ok (false, u))
      (hwalk : Tours c r
        (.nodes ancestry (target :: opened) (nodes.getD []) (u.record id .call)) log v)
      (hrest : Tours c r (.calls ancestry opened id args targets (v.record id .return)) more w') :
      Tours c r (.calls ancestry opened id args (target :: targets) w) (log ++ more) w'
  /-- There is nothing more to start. -/
  | forked {ancestry opened : List String} {id : NodeId} {api : ForkApi} {handle : Operand}
      {w : Walk} : Tours c r (.forks ancestry opened id api handle [] w) [] w
  /-- A child is not started. -/
  | unstarted {ancestry opened : List String} {id : NodeId} {api : ForkApi} {handle : Operand}
      {entry : String} {entries : List String} {w w' : Walk} {log : List Visit}
      (hpass : entry ∈ ancestry ∨ c.settings.maxThreads ≤ w.session.threads.size)
      (hrest : Tours c r (.forks ancestry opened id api handle entries w) log w') :
      Tours c r (.forks ancestry opened id api handle (entry :: entries) w) log w'
  /-- A child without a body ends at once. -/
  | bodiless {ancestry opened : List String} {id : NodeId} {api : ForkApi} {handle : Operand}
      {entry : String} {entries : List String} {w v last w' : Walk} {child : ThreadId}
      {log : List Visit} (hnew : entry ∉ ancestry)
      (hlimit : w.session.threads.size < c.settings.maxThreads)
      (hbegin : w.beginFork id entry = .ok (child, v))
      (hdef : c.program.definition? entry = none)
      (hlast : r.finish (v.enterChild child api) = .ok last)
      (hrest : Tours c r (.forks ancestry opened id api handle entries
        (v.endFork r id api handle last.close)) log w') :
      Tours c r (.forks ancestry opened id api handle (entry :: entries) w) log w'
  /-- A child with a body is walked to its end. -/
  | started {ancestry opened : List String} {id : NodeId} {api : ForkApi} {handle : Operand}
      {entry : String} {entries : List String} {w v inner last w' : Walk} {child : ThreadId}
      {log more : List Visit} {nodes : Option (List NodeId)} {session : Session} {routine : Routine}
      (hnew : entry ∉ ancestry) (hlimit : w.session.threads.size < c.settings.maxThreads)
      (hbegin : w.beginFork id entry = .ok (child, v))
      (hdef : c.program.definition? entry = some routine)
      (hsummary : (v.enterChild child api).session.summary c entry = .ok (nodes, session))
      (hwalk : Tours c r (.nodes (entry :: ancestry) [entry] (nodes.getD [])
        { v.enterChild child api with session }) log inner)
      (hlast : r.finish inner = .ok last)
      (hrest : Tours c r (.forks ancestry opened id api handle entries
        (v.endFork r id api handle last.close)) more w') :
      Tours c r (.forks ancestry opened id api handle (entry :: entries) w) (log ++ more) w'

variable {c : Subject} {r : Runtime} {F : Frame} {log : List Visit} {w' : Walk}

/-! ### Tours and walks -/

/-- If a part of a walk succeeds, it has a tour. -/
def HasTour (c : Subject) (r : Runtime) (F : Frame) : Prop :=
  ∀ w', run c r F = .ok w' → ∃ log, Tours c r F log w'

section Cases

/-! The cases of the induction.  Each takes what holds of the parts as hypotheses. -/

variable {ancestry opened : List String} {id : NodeId} {w : Walk}

/-- A node and those behind it. -/
theorem HasTour.cons {rest : List NodeId} (hrest : ∀ v, HasTour c r (.nodes ancestry opened rest v))
    (hnode : ∀ n v, HasTour c r (.node ancestry opened id n v)) :
    HasTour c r (.nodes ancestry opened (id :: rest) w) := by
  intro w' h
  obtain ⟨n, hn, ⟨hskip, h⟩ | ⟨hskip, opens, v, u, hvisit, hu, h⟩⟩ := Walk.walk_cons_ok h
  · obtain ⟨log, hlog⟩ := hrest w w' h
    exact ⟨log, .pass hn hskip hlog⟩
  · obtain ⟨more, hmore⟩ := hrest u w' h
    cases opens with
    | true =>
      obtain ⟨log, hlog⟩ := hnode n v u hu
      exact ⟨_, .visit hn hskip hvisit hlog hmore⟩
    | false =>
      cases hu
      exact ⟨_, .taken hn hskip hvisit hmore⟩

/-- A routine that a call may reach, and those behind it. -/
theorem HasTour.call_cons {args : List Operand} {target : String} {targets : List String}
    (hrest : ∀ v, HasTour c r (.calls ancestry opened id args targets v))
    (hwalk : ∀ (nodes : Option (List NodeId)) routine, c.program.definition? target = some routine →
      target ∉ opened → ∀ v : Walk,
        HasTour c r (.nodes ancestry (target :: opened) (nodes.getD []) (v.record id .call))) :
    HasTour c r (.calls ancestry opened id args (target :: targets) w) := by
  intro w' h
  obtain ⟨nodes, session, hsummary, h⟩ := Walk.callAll_cons_ok h
  obtain ⟨hpass, h⟩ | ⟨routine, hdef, hopen, repeated, u, hrepeated, h⟩ := h
  · obtain ⟨log, hlog⟩ := hrest _ w' h
    exact ⟨log, .uncalled hsummary hpass hlog⟩
  · obtain ⟨rfl, h⟩ | ⟨rfl, v, hv, h⟩ := h
    · obtain ⟨log, hlog⟩ := hrest u w' h
      exact ⟨log, .repeated hsummary hdef hopen hrepeated hlog⟩
    · obtain ⟨log, hlog⟩ := hwalk nodes routine hdef hopen u v hv
      obtain ⟨more, hmore⟩ := hrest _ w' h
      exact ⟨_, .expanded hsummary hdef hopen hrepeated hlog hmore⟩

/-- A child that is started, and those behind it. -/
theorem HasTour.fork_cons {api : ForkApi} {handle : Operand} {entry : String}
    {entries : List String} (hnew : entry ∉ ancestry)
    (hlimit : ¬ w.session.threads.size ≥ c.settings.maxThreads)
    (hrest : ∀ v last : Walk,
      HasTour c r (.forks ancestry opened id api handle entries (v.endFork r id api handle last)))
    (hwalk : ∀ child (v : Walk) routine, c.program.definition? entry = some routine →
      ∀ (nodes : Option (List NodeId)) session, HasTour c r (.nodes (entry :: ancestry) [entry]
        (nodes.getD []) { v.enterChild child api with session })) :
    HasTour c r (.forks ancestry opened id api handle (entry :: entries) w) := by
  intro w' h
  obtain ⟨hpass, -⟩ | ⟨-, hlt, child, v, inner, last, hbegin, hinner, hlast, h⟩ :=
    Walk.forkAll_cons_ok h
  · exact absurd hpass (not_or.2 ⟨hnew, hlimit⟩)
  · obtain ⟨more, hmore⟩ := hrest v last.close w' h
    obtain ⟨hdef, rfl⟩ | ⟨routine, nodes, session, hdef, hsummary, hwalked⟩ := hinner
    · exact ⟨more, .bodiless hnew hlt hbegin hdef hlast hmore⟩
    · obtain ⟨log, hlog⟩ := hwalk child v routine hdef nodes session inner hwalked
      exact ⟨_, .started hnew hlt hbegin hdef hsummary hlog hlast hmore⟩

end Cases

/-- Every part of a walk that succeeds has a tour. -/
theorem all_tour (c : Subject) (r : Runtime) :
    (∀ ancestry opened ids w, HasTour c r (.nodes ancestry opened ids w)) ∧
      (∀ ancestry opened id n w, HasTour c r (.node ancestry opened id n w)) ∧
      (∀ ancestry opened id args targets w,
        HasTour c r (.calls ancestry opened id args targets w)) ∧
      ∀ ancestry opened id api handle entries w,
        HasTour c r (.forks ancestry opened id api handle entries w) := by
  apply Walk.walk.mutual_induct c r
    (fun ancestry opened ids w => HasTour c r (.nodes ancestry opened ids w))
    (fun ancestry opened id n w => HasTour c r (.node ancestry opened id n w))
    (fun ancestry opened id args targets w =>
      HasTour c r (.calls ancestry opened id args targets w))
    (fun ancestry opened id api handle entries w =>
      HasTour c r (.forks ancestry opened id api handle entries w))
  -- A list of nodes.
  case case1 =>
    intro ancestry opened w w' h
    rw [run, Walk.walk] at h
    cases h
    exact ⟨[], .done⟩
  case case2 => exact fun _ _ _ _ _ _ ihrest ihnode => .cons ihrest ihnode
  -- A node.
  case case3 | case4 | case5 | case6 | case7 | case8 | case9 | case10 =>
    intros
    rename_i heffect
    exact fun w' h => ⟨[], .leaf (by simp [Node.IsLeaf, heffect]) h⟩
  case case11 =>
    intro ancestry opened id n w api operand entry heffect ih w' h
    rw [run, Walk.handle, heffect] at h
    obtain ⟨log, hlog⟩ := ih w' h
    exact ⟨log, .fork heffect hlog⟩
  case case12 =>
    intro ancestry opened id n w api callee args heffect hruntime w' h
    exact ⟨[], .leaf (by simp [Node.IsLeaf, heffect, hruntime]) h⟩
  case case13 =>
    intro ancestry opened id n w api callee args heffect hplain ih w' h
    rw [run, Walk.handle, heffect] at h
    dsimp only at h
    rw [if_neg hplain] at h
    obtain ⟨log, hlog⟩ := ih w' h
    exact ⟨log, .call heffect (Bool.eq_false_iff.2 hplain) hlog⟩
  -- The routines of a call.
  case case14 =>
    intro ancestry opened id args w w' h
    rw [run, Walk.callAll] at h
    cases h
    exact ⟨[], .called⟩
  case case15 => exact fun _ _ _ _ _ _ _ _ ihrest ihwalk _ => .call_cons ihrest ihwalk
  -- The children of a fork.
  case case16 =>
    intro ancestry opened id api operand w w' h
    rw [run, Walk.forkAll] at h
    cases h
    exact ⟨[], .forked⟩
  case case17 =>
    intro ancestry opened id api operand entry entries w hpass ih w' h
    rw [run, Walk.forkAll, dif_pos hpass] at h
    obtain ⟨log, hlog⟩ := ih w' h
    exact ⟨log, .unstarted (Or.inl hpass) hlog⟩
  case case18 =>
    intro ancestry opened id api operand entry entries w hnew hlimit ih w' h
    rw [run, Walk.forkAll, dif_neg hnew, if_pos hlimit] at h
    obtain ⟨log, hlog⟩ := ih w' h
    exact ⟨log, .unstarted (Or.inr hlimit) hlog⟩
  case case19 =>
    exact fun _ _ _ _ _ _ _ _ hnew hlimit ihrest ihwalk => .fork_cons hnew hlimit ihrest ihwalk

namespace Tours

/-- A part of a walk that has a tour succeeds. -/
theorem run (h : Tours c r F log w') : F.run c r = .ok w' := by
  induction h with
  | done => rw [Frame.run, Walk.walk]
  | pass hn hskip _ ih => exact (Walk.walk_cons_of_skipped hn hskip).trans ih
  | taken hn hskip hvisit _ ih => exact (Walk.walk_cons_of_taken hn hskip hvisit).trans ih
  | visit hn hskip hvisit _ _ ihnode ihrest =>
    exact (Walk.walk_cons_of_visit hn hskip hvisit ihnode).trans ihrest
  | leaf _ h => exact h
  | fork heffect _ ih =>
    rw [Frame.run, Walk.handle, heffect]
    exact ih
  | call heffect hplain _ ih =>
    rw [Frame.run, Walk.handle, heffect]
    dsimp only
    rw [if_neg (Bool.eq_false_iff.1 hplain)]
    exact ih
  | called => rw [Frame.run, Walk.callAll]
  | uncalled hsummary hpass _ ih => exact (Walk.callAll_cons_of_pass hsummary hpass).trans ih
  | repeated hsummary hdef hopen hrepeated _ ih =>
    exact (Walk.callAll_cons_of_repeated hsummary hdef hopen hrepeated).trans ih
  | expanded hsummary hdef hopen hrepeated _ _ ihwalk ihrest =>
    exact (Walk.callAll_cons_of_repeated hsummary hdef hopen hrepeated).trans
      (Except.bind_eq_ok.2 ⟨_, ihwalk, ihrest⟩)
  | forked => rw [Frame.run, Walk.forkAll]
  | unstarted hpass _ ih =>
    rw [Frame.run, Walk.forkAll_cons, if_pos hpass]
    exact ih
  | bodiless hnew hlimit hbegin hdef hlast _ ih =>
    exact (Walk.forkAll_cons_of_none hnew hlimit hbegin hdef).trans
      (Except.bind_eq_ok.2 ⟨_, Walk.finish_eq_ok.2 ⟨_, hlast, rfl⟩, ih⟩)
  | started hnew hlimit hbegin hdef hsummary _ hlast _ ihwalk ihrest =>
    exact (Walk.forkAll_cons_of_walk hnew hlimit hbegin hdef hsummary ihwalk
      (Walk.finish_eq_ok.2 ⟨_, hlast, rfl⟩)).trans ihrest

end Tours

/-- What succeeds is what has a tour. -/
theorem run_eq_ok_iff : F.run c r = .ok w' ↔ ∃ log, Tours c r F log w' := by
  refine ⟨fun h => ?_, fun ⟨_, h⟩ => h.run⟩
  obtain ⟨hnodes, hnode, hcalls, hforks⟩ := all_tour c r
  cases F with
  | nodes => exact hnodes _ _ _ _ _ h
  | node => exact hnode _ _ _ _ _ _ h
  | calls => exact hcalls _ _ _ _ _ _ _ h
  | forks => exact hforks _ _ _ _ _ _ _ _ h

/-! ### What a tour is about -/

/-- The node that a part is about is in the arena, and the walk at its beginning is sound. -/
structure Ready (c : Subject) (F : Frame) : Prop where
  stands : F.Stands c
  sound : F.walk.Sound

/-- A walk has grown when a child has ended. -/
theorem Stands.grows_fork {ancestry opened : List String} {id : NodeId} {api : ForkApi}
    {handle : Operand} {entry : String} {entries : List String} {w v inner last : Walk}
    {child : ThreadId}
    (h : Stands c (.forks ancestry opened id api handle (entry :: entries) w))
    (hlimit : w.session.threads.size < c.settings.maxThreads)
    (hbegin : w.beginFork id entry = .ok (child, v))
    (hinner : Walk.WalksChild c r ancestry entry (v.enterChild child api) inner)
    (hlast : r.finish inner = .ok last) :
    Walk.Grows c r w (v.endFork r id api handle last.close) := by
  obtain ⟨n, source, hn, heffect, hentries⟩ := h
  exact .fork hn heffect (List.cons_subset.1 hentries).1 hlimit hbegin hinner.grows
    (Walk.finish_grows hlast) hlast

/-- What is done at a node that is not passed over is growth. -/
theorem grows_next {ancestry opened : List String} {id : NodeId} {rest : List NodeId} {n : Node}
    {w v u : Walk} {opens : Bool} (hn : w.session.arena.get? id = some n)
    (hvisit : r.visit w.reach n opened.head? rest = .ok (opens, v))
    (hu : (if opens then v.handle c r ancestry opened id n else .ok v) = .ok u) :
    Walk.Grows c r w u := by
  have hv : Walk.Grows c r w v := (Walk.Grows.skip w none).trans (Walk.visit_grows hvisit)
  cases opens with
  | true => exact hv.trans ((Walk.all_grow c r).2.1 _ _ _ _ _ _ (hv.arena_extends _ _ hn) hu)
  | false =>
    cases hu
    exact hv

/-- A part asks for parts that go on with its own walk, or for the walk of a child. -/
theorem Leads.grows {G : Frame} (h : Leads c r F G) (hF : F.Stands c) :
    Walk.Grows c r F.walk G.walk ∨ ∃ id n api handle source entry child v,
      F.walk.session.arena.get? id = some n ∧ n.effect = .fork api handle source ∧
        F.walk.beginFork id entry = .ok (child, v) ∧
          Walk.Grows c r (v.enterChild child api) G.walk := by
  cases h with
  | pass | unstarted | call => exact Or.inl (.refl _)
  | visit _ _ hvisit => exact Or.inl ((Walk.Grows.skip _ none).trans (Walk.visit_grows hvisit))
  | next hn _ hvisit hu => exact Or.inl (grows_next hn hvisit hu)
  | fork => exact Or.inl (.meet _ _)
  | uncalled hsummary _ => exact Or.inl (.consult (.summary hsummary))
  | repeated hsummary _ hrepeated =>
    exact Or.inl ((Walk.Grows.consult (.summary hsummary)).trans (Walk.isRepeated_grows hrepeated))
  | @enter _ _ id _ _ _ w u _ _ hsummary _ hrepeated =>
    obtain ⟨n, api, callee, hn, heffect, -⟩ := hF
    have hu : Walk.Grows c r w u :=
      (Walk.Grows.consult (.summary hsummary)).trans (Walk.isRepeated_grows hrepeated)
    exact Or.inl (hu.trans
      (.record (hu.arena_extends _ _ hn) rfl
        (by simp [Node.category, heffect, EventKind.category])))
  | @leave _ _ id _ _ _ w u v _ _ hsummary _ hrepeated hv =>
    obtain ⟨n, api, callee, hn, heffect, -⟩ := hF
    have hcall : n.category = .call := by rw [Node.category, heffect]
    have hu : Walk.Grows c r w u :=
      (Walk.Grows.consult (.summary hsummary)).trans (Walk.isRepeated_grows hrepeated)
    have hcalled : Walk.Grows c r w (u.record id .call) :=
      hu.trans (.record (hu.arena_extends _ _ hn) rfl hcall)
    have hwalked := hcalled.trans (Walk.walk_grows hv)
    exact Or.inl (hwalked.trans (.record (hwalked.arena_extends _ _ hn) rfl hcall))
  | start _ _ hbegin hsummary =>
    obtain ⟨n, source, hn, heffect, -⟩ := hF
    exact Or.inr ⟨_, n, _, _, source, _, _, _, hn, heffect, hbegin, .consult (.summary hsummary)⟩
  | ended _ hlimit hbegin hinner hlast => exact Or.inl (hF.grows_fork hlimit hbegin hinner hlast)

/-- The parts that a part asks for are ready, too. -/
theorem Leads.ready {G : Frame} (h : Leads c r F G) (hF : F.Ready c) : G.Ready c := by
  refine ⟨h.stands hF.stands, ?_⟩
  obtain hgrows | ⟨id, n, api, handle, source, entry, child, v, hn, heffect, hbegin, hgrows⟩ :=
    h.grows hF.stands
  · exact hgrows.sound hF.sound
  · exact hgrows.sound (hF.sound.startChild hn heffect hbegin).2

/-- What a tour comes to has grown from where it began. -/
theorem Tours.grows (h : Tours c r F log w') (hF : F.Ready c) : Walk.Grows c r F.walk w' :=
  hF.stands.grows h.run

end Frame

/-! ### Steps of one thread -/

namespace EventKind

/-- Whether an event enters a routine or leaves one. -/
def isBracket : EventKind → Bool
  | .call | .return => true
  | _ => false

end EventKind

namespace Walk

/-- A step of the walking thread alone that starts no thread. -/
def Solo (w w' : Walk) : Prop := ∃ new, Appends w w' new ∧ ∀ e ∈ new, ¬ e.kind.Forks

/-- A step of the walking thread alone that neither starts a thread nor enters or leaves a
routine. -/
def Flat (w w' : Walk) : Prop :=
  ∃ new, Appends w w' new ∧ ∀ e ∈ new, ¬ e.kind.Forks ∧ e.kind.isBracket = false

variable {c : Subject} {r : Runtime} {ancestry opened : List String} {w w' : Walk}

/-- A step that adds at most an event that names no other thread. -/
theorem Solo.of_tacit (h : Tacit w w') : Solo w w' := by
  obtain ⟨new, hnew, hlocal⟩ := Appends.of_tacit h
  refine ⟨new, hnew, ?_⟩
  rintro e he ⟨child, hkind⟩
  have := hlocal e he
  rw [hkind] at this
  cases this

namespace Flat

/-- A step without events. -/
theorem of_eq (hthread : w'.self.thread = w.self.thread)
    (hthreads : w'.session.threads = w.session.threads)
    (hevents : w'.self.events = w.self.events) : Flat w w' :=
  ⟨#[], .of_eq hthread hthreads hevents, fun e he => absurd he (Array.not_mem_empty e)⟩

/-- Such a step starts no thread. -/
theorem solo (h : Flat w w') : Solo w w' := by
  obtain ⟨new, hnew, hflat⟩ := h
  exact ⟨new, hnew, fun e he => (hflat e he).1⟩

/-- Joins are such steps. -/
theorem of_joins {new : Array Event} (h : Appends w w' new)
    (hjoins : ∀ e ∈ new, ∃ child, e.kind = .join child) : Flat w w' := by
  refine ⟨new, h, fun e he => ?_⟩
  obtain ⟨child, hkind⟩ := hjoins e he
  exact ⟨fun ⟨_, hfork⟩ => EventKind.noConfusion (hkind.symm.trans hfork), by rw [hkind]; rfl⟩

/-- A companion join. -/
theorem joinCompanion {id fork : NodeId} {n : Node} (h : w.joinCompanion id n fork = .ok w') :
    Flat w w' := by
  obtain ⟨hsession, hthread, -, -, -, new, hevents, hnew, -⟩ := joinCompanion_spec h
  have happends : Appends w w' new := ⟨hthread, by rw [hsession], hevents⟩
  refine of_joins happends fun e he => ?_
  obtain ⟨-, f, -, hjoin⟩ := hnew e he
  exact ⟨_, hjoin⟩

/-- What a runtime does at a node. -/
theorem visit {node : Node} {routine : Option String} {rest : List NodeId} {opens : Bool}
    (h : r.visit w node routine rest = .ok (opens, w')) : Flat w w' := by
  obtain ⟨_, -, hvisit⟩ | ⟨-, ⟨_, _, hvisit⟩ | ⟨_, -, hvisit⟩⟩ := visit_cases r node
  · rw [hvisit] at h
    cases h
    exact of_eq rfl rfl rfl
  · rw [hvisit] at h
    obtain ⟨v, hv, h⟩ := Except.bind_eq_ok.1 h
    cases h
    obtain ⟨new, hnew, hjoins⟩ := Appends.joinPending hv
    exact of_joins hnew hjoins
  · rw [hvisit] at h
    obtain ⟨v, hv, h⟩ := Except.bind_eq_ok.1 h
    cases h
    obtain ⟨skipTo, rfl⟩ := skipRegion_eq hv
    exact of_eq rfl rfl rfl

/-- What a runtime does at the end of a thread are joins. -/
theorem finish_joins (h : r.finish w = .ok w') :
    ∃ new, Appends w w' new ∧ ∀ e ∈ new, ∃ child, e.kind = .join child := by
  rcases finish_cases r w.self.spawnedBy with hjoin | hnothing
  · rw [hjoin w rfl] at h
    exact Appends.joinPending h
  · rw [hnothing w rfl] at h
    cases h
    exact ⟨#[], .of_eq rfl rfl rfl, fun e he => absurd he (Array.not_mem_empty e)⟩

/-- What a runtime does at the end of a thread. -/
theorem finish (h : r.finish w = .ok w') : Flat w w' := by
  obtain ⟨new, hnew, hjoins⟩ := finish_joins h
  exact of_joins hnew hjoins

end Flat

/-- What a node does that neither starts threads nor calls routines.  Nothing becomes pending. -/
theorem handle_leaf {id : NodeId} {n : Node} (hleaf : n.IsLeaf)
    (h : w.handle c r ancestry opened id n = .ok w') :
    Flat w w' ∧ w'.self.pending = w.self.pending := by
  have hplain : ∀ {kind : EventKind}, ¬ kind.Forks → kind.isBracket = false →
      w.record id kind = w' → Flat w w' ∧ w'.self.pending = w.self.pending := by
    rintro kind hfork hbracket rfl
    refine ⟨⟨#[_], ⟨rfl, rfl, Array.push_eq_append⟩, fun e he => ?_⟩, rfl⟩
    rw [Array.mem_singleton.1 he]
    exact ⟨hfork, hbracket⟩
  rw [handle] at h
  split at h
  case h_1 | h_2 | h_3 | h_4 | h_5 | h_6 =>
    cases h
    exact hplain (fun ⟨_, hfork⟩ => nomatch hfork) rfl rfl
  case h_7 => exact ⟨.joinCompanion h, (joinCompanion_spec h).2.2.2.2.1⟩
  case h_8 _ operand _ =>
    cases h
    obtain ⟨child, hjoin⟩ := Appends.joinHandle c w id operand
    refine ⟨.of_joins hjoin fun e he => ⟨child, by rw [Array.mem_singleton.1 he]⟩, ?_⟩
    rw [Walk.joinHandle]
    split <;> rfl
  case h_9 heffect => exact absurd heffect (hleaf.1 _ _ _)
  case h_10 heffect =>
    rw [if_pos (hleaf.2 _ _ _ heffect)] at h
    cases h
    exact ⟨.of_eq rfl rfl rfl, rfl⟩

end Walk

/-! ### Visits and traces -/

namespace Walk

/-- What a walk has is part of what another has. -/
structure Within (u w : Walk) : Prop where
  arena : u.session.arena.Extends w.session.arena
  threads : Thread.Preserved u.session.threads w.session.threads
  has : ∀ q e, u.Has q e → w.Has q e

variable {c : Subject} {r : Runtime} {u v w : Walk}

/-- A walk is part of itself. -/
protected theorem Within.refl (w : Walk) : w.Within w := ⟨.refl _, .refl _, fun _ _ he => he⟩

/-- A part of a part is a part. -/
protected theorem Within.trans (huv : u.Within v) (hvw : v.Within w) : u.Within w :=
  ⟨huv.arena.trans hvw.arena, huv.threads.trans hvw.threads,
    fun q e he => hvw.has q e (huv.has q e he)⟩

/-- What a walk has is part of what it becomes. -/
theorem Framed.within (h : Framed u w) (harena : u.session.arena.Extends w.session.arena) :
    u.Within w := by
  refine ⟨harena, h.preserved, ?_⟩
  rintro q e ⟨hle, he⟩
  refine ⟨h.thread_eq.symm ▸ hle, ?_⟩
  rw [eventsOf] at he ⊢
  rw [h.thread_eq]
  split at he
  · next hq =>
    obtain ⟨new, hnew⟩ := h.events
    rw [if_pos hq, hnew, Array.getElem?_append_left (Array.getElem?_eq_some_iff.1 he).1]
    exact he
  · next hq =>
    rw [if_neg hq]
    have hlt : q.thread < u.session.threads.size := by
      by_contra hge
      rw [Array.getElem?_eq_none (Nat.le_of_not_lt hge)] at he
      cases he
    rw [h.others q.thread hlt hq]
    exact he

/-- Growth keeps what a walk has. -/
theorem Grows.within (h : Grows c r u w) : u.Within w := h.framed.within h.arena_extends

/-- What a child has is part of what its parent goes on with. -/
theorem within_endFork {last : Walk} {id : NodeId} {target : String} {child : ThreadId}
    {api : ForkApi} (handle : Operand) (hw : Sound w)
    (hbegin : w.beginFork id target = .ok (child, v))
    (hframe : Framed (v.enterChild child api) last) (hlast : Sound last) :
    last.Within (v.endFork r id api handle last.close) :=
  ⟨.refl _, preserved_close last,
    fun _ _ he => (has_endFork handle hbegin hframe hlast hw).2 (Or.inr (Or.inr he))⟩

end Walk

/-- A visit is made between two walks: by the thread of the first or a thread that is started, and
what its thread has then is part of the second. -/
structure Visit.Between (x : Visit) (u w : Walk) : Prop where
  thread : x.thread = u.self.thread ∨ u.session.threads.size ≤ x.thread
  thread_eq : x.after.self.thread = x.thread
  inTable : x.thread < x.after.session.threads.size
  within : x.after.Within w

namespace Visit.Between

variable {x : Visit} {u u' v w w' : Walk}

/-- A visit is also made between a walk that leads to the first and a walk that the second leads
to. -/
theorem of_framed (h : x.Between u' w) (hframe : Walk.Framed u u') (hw : w.Within w') :
    x.Between u w' where
  thread := by
    rcases h.thread with heq | hle
    · exact Or.inl (heq.trans hframe.thread_eq)
    · exact Or.inr (hframe.size_le.trans hle)
  thread_eq := h.thread_eq
  inTable := h.inTable
  within := h.within.trans hw

/-- A visit of a child is a visit of a thread that is started. -/
theorem of_child (h : x.Between u' w) (hchild : u.session.threads.size ≤ u'.self.thread)
    (hsize : u.session.threads.size ≤ u'.session.threads.size) (hw : w.Within w') :
    x.Between u w' where
  thread := by
    rcases h.thread with heq | hle
    · exact Or.inr (heq ▸ hchild)
    · exact Or.inr (hsize.trans hle)
  thread_eq := h.thread_eq
  inTable := h.inTable
  within := h.within.trans hw

/-- The thread of a visit is there in the end. -/
theorem lt_size (h : x.Between u w) : x.thread < w.session.threads.size :=
  h.inTable.trans_le h.within.threads.size_le

end Visit.Between

namespace Frame

variable {c : Subject} {r : Runtime} {F : Frame} {log : List Visit} {w' : Walk}

/-- The visits of a tour are made between its beginning and its end. -/
theorem Tours.between (h : Tours c r F log w') (hF : F.Ready c) :
    ∀ x ∈ log, x.Between F.walk w' := by
  -- A visit of the walking thread itself.
  have hself : ∀ {id : NodeId} {n : Node} {w v w' : Walk}, w.Sound → Walk.Grows c r w v →
      v.Within w' → Visit.Between ⟨id, n, w, v⟩ w w' :=
    fun hsound hv hw =>
      ⟨Or.inl rfl, hv.framed.thread_eq, hsound.inTable.trans_le hv.framed.size_le, hw⟩
  induction h with
  | done | leaf | called | forked => exact fun x hx => absurd hx List.not_mem_nil
  | pass hn hskip _ ih => exact ih (Leads.ready (r := r) (.pass hn hskip) hF)
  | taken hn hskip hvisit hrest ih =>
    have hready := Leads.ready (r := r) (.next hn hskip hvisit rfl) hF
    have hv := (Walk.Grows.skip (c := c) _ none).trans (Walk.visit_grows hvisit)
    rintro x hx
    rcases List.mem_cons.1 hx with rfl | hx
    · exact hself hF.sound hv (hrest.grows hready).within
    · exact (ih hready x hx).of_framed hv.framed (.refl _)
  | visit hn hskip hvisit hnode hrest ihnode ihrest =>
    have hready := Leads.ready (r := r) (.visit hn hskip hvisit) hF
    have hready' := Leads.ready (r := r) (.next hn hskip hvisit (if_pos rfl |>.trans hnode.run)) hF
    have hv := (Walk.Grows.skip (c := c) _ none).trans (Walk.visit_grows hvisit)
    have hu := hnode.grows hready
    have hafter := (hrest.grows hready').within
    rintro x hx
    rcases List.mem_cons.1 hx with rfl | hx
    · exact hself hF.sound hv (hu.within.trans hafter)
    · rcases List.mem_append.1 hx with hx | hx
      · exact (ihnode hready x hx).of_framed hv.framed hafter
      · exact (ihrest hready' x hx).of_framed (hv.trans hu).framed (.refl _)
  | fork heffect _ ih =>
    exact fun x hx => (ih (Leads.ready (r := r) (.fork heffect) hF) x hx).of_framed
      (.of_eq rfl rfl rfl rfl) (.refl _)
  | call heffect hplain _ ih => exact ih (Leads.ready (r := r) (.call heffect hplain) hF)
  | uncalled hsummary hpass _ ih =>
    have hframe := (Walk.Grows.consult (r := r) (.summary hsummary)).framed
    exact fun x hx =>
      (ih (Leads.ready (r := r) (.uncalled hsummary hpass) hF) x hx).of_framed hframe (.refl _)
  | repeated hsummary _ hopen hrepeated _ ih =>
    have hframe := ((Walk.Grows.consult (.summary hsummary)).trans
      (Walk.isRepeated_grows (r := r) hrepeated)).framed
    exact fun x hx => (ih (Leads.ready (r := r) (.repeated hsummary hopen hrepeated) hF) x
      hx).of_framed hframe (.refl _)
  | @expanded _ _ id _ _ _ _ u v _ _ _ _ _ _ hsummary _ hopen hrepeated hwalk hrest ihwalk
      ihrest =>
    have hready := Leads.ready (r := r) (.enter hsummary hopen hrepeated) hF
    have hready' := Leads.ready (r := r) (.leave hsummary hopen hrepeated hwalk.run) hF
    have hframe := ((Walk.Grows.consult (.summary hsummary)).trans
      (Walk.isRepeated_grows (r := r) hrepeated)).framed.trans (.record u id .call)
    have hreturn := Walk.Framed.record v id .return
    have hafter := (hreturn.within (.refl _)).trans (hrest.grows hready').within
    rintro x hx
    rcases List.mem_append.1 hx with hx | hx
    · exact (ihwalk hready x hx).of_framed hframe hafter
    · exact (ihrest hready' x hx).of_framed
        ((hframe.trans (hwalk.grows hready).framed).trans hreturn) (.refl _)
  | unstarted hpass _ ih => exact ih (Leads.ready (r := r) (.unstarted hpass) hF)
  | @bodiless ancestry opened id api handle entry entries w v last w' child log hnew hlimit hbegin
      hdef hlast _ ih =>
    have hinner : Walk.WalksChild c r ancestry entry (v.enterChild child api)
        (v.enterChild child api) := Or.inl ⟨hdef, rfl⟩
    have hframe := (hF.stands.grows_fork hlimit hbegin hinner hlast).framed
    exact fun x hx => (ih (Leads.ready (r := r) (.ended hnew hlimit hbegin hinner hlast) hF) x
      hx).of_framed hframe (.refl _)
  | @started ancestry opened id api handle entry entries w v inner last w' child log more nodes
      session routine hnew hlimit hbegin hdef hsummary hwalk hlast hrest ihwalk ihrest =>
    have hinner : Walk.WalksChild c r ancestry entry (v.enterChild child api) inner :=
      Or.inr ⟨routine, nodes, session, hdef, hsummary, hwalk.run⟩
    have hready := Leads.ready (r := r) (.start hnew hlimit hbegin hsummary) hF
    have hready' := Leads.ready (r := r) (.ended hnew hlimit hbegin hinner hlast) hF
    have hconsult :
        Walk.Grows c r (v.enterChild child api) { v.enterChild child api with session } :=
      .consult (.summary hsummary)
    have hended := Walk.finish_grows (c := c) hlast
    have hchild := (hconsult.trans (hwalk.grows hready)).trans hended
    have hafter := (Walk.within_endFork handle hF.sound hbegin hchild.framed
      (((hwalk.grows hready).trans hended).sound hready.sound)).trans (hrest.grows hready').within
    rintro x hx
    rcases List.mem_append.1 hx with hx | hx
    · refine (ihwalk hready x hx).of_child (Walk.beginFork_spec hbegin).1.ge ?_
        (hended.within.trans hafter)
      exact (Nat.le_succ _).trans
        ((Walk.beginFork_size hbegin).ge.trans hconsult.framed.size_le)
    · exact (ihrest hready' x hx).of_framed (hF.stands.grows_fork hlimit hbegin hinner hlast).framed
        (.refl _)

end Frame

namespace Trace

variable {c : Subject} {r : Runtime} {t : Trace} {log : List Visit}

/-- The walk of the main thread begins in one way only. -/
theorem Begins.unique {F G : Frame} (hF : Begins c F) (hG : Begins c G) : F = G := by
  obtain ⟨nodes, session, hsummary, rfl⟩ := hF
  obtain ⟨nodes', session', hsummary', rfl⟩ := hG
  cases hsummary.symm.trans hsummary'
  rfl

/-- The main thread is ready at its beginning. -/
theorem Begins.ready {F : Frame} (h : Begins c F) : F.Ready c := by
  obtain ⟨nodes, session, hsummary, rfl⟩ := h
  exact ⟨trivial, .start (Session.Learns.summary hsummary).extends.threads⟩

/-- These are all the visits of a build, in the order of time. -/
def Toured (c : Subject) (log : List Visit) : Prop :=
  ∃ F w, Begins c F ∧ F.Tours c (Runtime.ofProgram c.program c.settings.runtime) log w

/-- A build that succeeds has a tour. -/
theorem exists_toured (h : Trace.build c = .ok t) : ∃ log, Toured c log := by
  obtain ⟨_, _, -, hmain, -⟩ := build_ok h
  obtain ⟨nodes, session, inner, -, hsummary, hwalk, -⟩ := walkMain_ok hmain
  obtain ⟨log, hlog⟩ := (Frame.all_tour _ _).1 _ _ _ _ _ hwalk
  exact ⟨log, _, inner, ⟨nodes, session, hsummary, rfl⟩, hlog⟩

/-- A trace that is built is what the main thread has when its tour has come to its end. -/
theorem Toured.ends (h : Toured c log) (hbuild : Trace.build c = .ok t) :
    ∃ F w last, Begins c F ∧
      F.Tours c (Runtime.ofProgram c.program c.settings.runtime) log w ∧
      (Runtime.ofProgram c.program c.settings.runtime).finish w = .ok last ∧
      t = ⟨last.close.session.threads, last.session.arena, c.program, c.pointsTo⟩ := by
  obtain ⟨F, w, hF, htour⟩ := h
  obtain ⟨_, _, -, hmain, rfl⟩ := build_ok hbuild
  obtain ⟨nodes, session, inner, last, hsummary, hwalk, hlast, rfl⟩ := walkMain_ok hmain
  obtain rfl := hF.unique ⟨nodes, session, hsummary, rfl⟩
  cases htour.run.symm.trans hwalk
  exact ⟨_, w, last, hF, htour, hlast, rfl⟩

/-- What the tour of the main thread has come to is part of the trace. -/
theorem Begins.under {F : Frame} {w last : Walk} (hF : Begins c F) (htour : F.Tours c r log w)
    (hlast : r.finish w = .ok last) (program : Program) (pointsTo : PointsTo) :
    w.Under ⟨last.close.session.threads, last.session.arena, program, pointsTo⟩ ∧
      ∀ q e, w.Has q e →
        Trace.event? ⟨last.close.session.threads, last.session.arena, program, pointsTo⟩ q
          = some e := by
  have hgrows := Walk.finish_grows (c := c) hlast
  have hwhole := (htour.grows hF.ready).trans hgrows
  have hmain : last.self.thread = 0 := by
    rw [hwhole.framed.thread_eq]
    obtain ⟨nodes, session, -, rfl⟩ := hF
    rfl
  exact ⟨hgrows.under ⟨.refl _, Walk.preserved_close last⟩, fun q e he =>
    ((hwhole.sound hF.ready.sound).has_iff_event? hmain _ _ _ q e).1 (hgrows.within.has q e he)⟩

/-- The events that a thread has after a visit are its first events. -/
theorem Toured.event?_eq (h : Toured c log) (hbuild : Trace.build c = .ok t) {x : Visit}
    (hx : x ∈ log) {j : Nat} {e : Event} (he : x.after.self.events[j]? = some e) :
    t.event? ⟨x.thread, j⟩ = some e := by
  obtain ⟨F, w, last, hF, htour, hlast, rfl⟩ := h.ends hbuild
  have hbetween := htour.between hF.ready x hx
  refine (hF.under htour hlast c.program c.pointsTo).2 _ _ (hbetween.within.has _ _ ?_)
  refine ⟨hbetween.thread_eq.le, ?_⟩
  rw [Walk.eventsOf, if_pos hbetween.thread_eq.symm]
  exact he

end Trace

end DataRace
