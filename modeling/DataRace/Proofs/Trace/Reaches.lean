import DataRace.Proofs.Trace.CompanionJoins

/-!
# Parts of walks that a build comes to

A build walks the main thread, and each part of a walk asks for parts in turn (`Frame.Leads`).
`Trace.Reaches` says that a build comes to a part, in whatever thread.  The node that the part is
about is then in the arena, with the routines that it may reach (`Reaches.stands`).  So wherever a
thread comes to a routine that a call may reach (`Trace.Comes`), the call and return events are
growth.
-/

namespace DataRace

variable {c : Subject} {r : Runtime}

namespace Frame

/-- The walk at the beginning of a part. -/
def walk : Frame → Walk
  | nodes _ _ _ w | node _ _ _ _ w | calls _ _ _ _ _ w | forks _ _ _ _ _ _ w => w

/-- The routines that are open in a part. -/
def opened : Frame → List String
  | nodes _ opened _ _ | node _ opened _ _ _ | calls _ opened _ _ _ _ | forks _ opened _ _ _ _ _ =>
    opened

/-- The node that a part is about is in the arena, with the routines that it may reach. -/
def Stands (c : Subject) : Frame → Prop
  | nodes .. => True
  | node _ _ id n w => w.session.arena.get? id = some n
  | calls _ _ id args targets w => ∃ n api callee, w.session.arena.get? id = some n ∧
    n.effect = .call api callee args ∧ targets ⊆ c.callTargets callee
  | forks _ _ id api handle entries w => ∃ n entry, w.session.arena.get? id = some n ∧
    n.effect = .fork api handle entry ∧ entries ⊆ c.entryTargets entry

variable {F G : Frame}

/-- What a part does is growth. -/
theorem Stands.grows (h : F.Stands c) {w' : Walk} (hrun : F.run c r = .ok w') :
    Walk.Grows c r F.walk w' := by
  cases F with
  | nodes => exact Walk.walk_grows hrun
  | node => exact (Walk.all_grow c r).2.1 _ _ _ _ _ _ h hrun
  | calls =>
    obtain ⟨n, api, callee, hn, heffect, -⟩ := h
    exact (Walk.all_grow c r).2.2.1 _ _ _ _ _ _ _
      ⟨n, hn, by rw [Node.category, heffect]⟩ hrun
  | forks =>
    obtain ⟨n, entry, hn, heffect, hentries⟩ := h
    exact (Walk.all_grow c r).2.2.2 _ _ _ _ _ _ _ _
      ⟨n, entry, hn, heffect, fun _ ht => hentries ht⟩ hrun

/-- The routines of a call but the first, when the walk has grown. -/
theorem Stands.calls_tail {ancestry opened : List String} {id : NodeId} {args : List Operand}
    {target : String} {targets : List String} {w w' : Walk}
    (h : Stands c (.calls ancestry opened id args (target :: targets) w))
    (hgrows : w.session.arena.Extends w'.session.arena) :
    Stands c (.calls ancestry opened id args targets w') := by
  obtain ⟨n, api, callee, hn, heffect, htargets⟩ := h
  exact ⟨n, api, callee, hgrows _ _ hn, heffect, (List.cons_subset.1 htargets).2⟩

/-- The children of a fork but the first, when the walk has grown. -/
theorem Stands.forks_tail {ancestry opened : List String} {id : NodeId} {api : ForkApi}
    {handle : Operand} {entry : String} {entries : List String} {w w' : Walk}
    (h : Stands c (.forks ancestry opened id api handle (entry :: entries) w))
    (hgrows : w.session.arena.Extends w'.session.arena) :
    Stands c (.forks ancestry opened id api handle entries w') := by
  obtain ⟨n, source, hn, heffect, hentries⟩ := h
  exact ⟨n, source, hgrows _ _ hn, heffect, (List.cons_subset.1 hentries).2⟩

/-- The nodes of the parts that a part asks for are in the arena, too. -/
theorem Leads.stands (h : Leads c r F G) (hF : F.Stands c) : G.Stands c := by
  cases h with
  | pass | next | enter | start => trivial
  | visit hn _ hvisit =>
    exact ((Walk.Grows.skip _ none).trans (Walk.visit_grows (c := c) hvisit)).arena_extends _ _ hn
  | fork heffect => exact ⟨_, _, hF, heffect, List.Subset.refl _⟩
  | call heffect _ => exact ⟨_, _, _, hF, heffect, List.Subset.refl _⟩
  | uncalled hsummary _ => exact hF.calls_tail (Session.Learns.summary hsummary).extends.arena
  | repeated hsummary _ hrepeated =>
    exact hF.calls_tail ((Session.Learns.summary hsummary).extends.arena.trans
      (Walk.isRepeated_grows (r := r) hrepeated).arena_extends)
  | leave hsummary _ hrepeated hv =>
    exact hF.calls_tail (((Session.Learns.summary hsummary).extends.arena.trans
      (Walk.isRepeated_grows (r := r) hrepeated).arena_extends).trans
        (Walk.walk_grows hv).arena_extends)
  | unstarted _ => exact hF.forks_tail (.refl _)
  | ended hnew hlimit hbegin hinner hlast =>
    obtain ⟨n, entry, hn, heffect, hentries⟩ := hF
    have hgrows := Walk.Grows.fork (r := r) hn heffect (List.cons_subset.1 hentries).1 hlimit hbegin
      hinner.grows (Walk.finish_grows hlast) hlast
    exact ⟨n, entry, hgrows.arena_extends _ _ hn, heffect, (List.cons_subset.1 hentries).2⟩

end Frame

/-- An event that was recorded stays where it is. -/
theorem Walk.Grows.getElem?_record {u w : Walk} {id : NodeId} {kind : EventKind}
    (h : Walk.Grows c r (u.record id kind) w) : w.self.events[u.self.events.size]? =
      some ⟨w.self.thread, u.self.events.size, id, kind⟩ := by
  obtain ⟨new, hnew⟩ := h.framed.events
  have hpush : (u.record id kind).self.events =
      u.self.events.push ⟨u.self.thread, u.self.events.size, id, kind⟩ := rfl
  rw [hnew, hpush, Array.getElem?_append_left (by rw [Array.size_push]; exact Nat.lt_succ_self _),
    Array.getElem?_push_size, show w.self.thread = u.self.thread from h.framed.thread_eq]

namespace Trace

/-- A build comes to a part of a walk: to the walk of the main thread, and from part to part. -/
inductive Reaches (c : Subject) (r : Runtime) : Frame → Prop
  /-- The walk of the main thread. -/
  | begins {F : Frame} (h : Begins c F) : Reaches c r F
  /-- A part that another part asks for. -/
  | leads {F G : Frame} (h : Reaches c r F) (hFG : F.Leads c r G) (hearnest : F.Earnest c G) :
      Reaches c r G

/-- The node that a part is about is in the arena. -/
theorem Reaches.stands {G : Frame} (h : Reaches c r G) : G.Stands c := by
  induction h with
  | begins h =>
    obtain ⟨nodes, session, -, rfl⟩ := h
    trivial
  | leads _ hFG _ hF => exact hFG.stands hF

/-- A thread comes to a routine that a call may reach.  It has a body, is not open, and its nodes
were looked up. -/
def Comes (c : Subject) (r : Runtime) (ancestry opened : List String) (id : NodeId)
    (call : String × List Operand) (nodes : Option (List NodeId)) (w : Walk) : Prop :=
  ∃ targets v session,
    Reaches c r (.calls ancestry opened id call.2 (call.1 :: targets) v) ∧
      v.session.summary c call.1 = .ok (nodes, session) ∧ w = { v with session } ∧
        (∃ routine, c.program.definition? call.1 = some routine) ∧ call.1 ∉ opened

section

variable {ancestry opened : List String} {id : NodeId} {call : String × List Operand}
  {nodes : Option (List NodeId)} {v w : Walk}

/-- The node of a call that a thread comes to is a call with its arguments, and may reach its
routine. -/
theorem Comes.node (h : Comes c r ancestry opened id call nodes w) :
    ∃ n api callee, w.session.arena.get? id = some n ∧ n.effect = .call api callee call.2 ∧
      call.1 ∈ c.callTargets callee := by
  obtain ⟨targets, v, session, hreach, hsummary, rfl, -⟩ := h
  obtain ⟨n, api, callee, hn, heffect, htargets⟩ := hreach.stands
  exact ⟨n, api, callee, (Session.Learns.summary hsummary).extends.arena _ _ hn, heffect,
    htargets List.mem_cons_self⟩

/-- The call and return events of such a node are growth. -/
theorem Comes.record (h : Comes c r ancestry opened id call nodes w) (hgrows : Walk.Grows c r w v)
    {kind : EventKind} (hlocal : kind.isLocal = true) (hkind : kind.category = .call) :
    Walk.Grows c r v (v.record id kind) := by
  obtain ⟨n, api, callee, hn, heffect, -⟩ := h.node
  exact .record (hgrows.arena_extends _ _ hn) hlocal (by rw [Node.category, heffect, hkind])

end

end Trace

end DataRace
