import DataRace.Proofs.Classify.Teams
import DataRace.Proofs.Trace.Forest

/-!
# Teams are joined at once

The companion joins of a team come right behind its forks, so while a thread does anything else than
starting and joining teams, none of its children that nobody joined is a member of a team
(`Walk.Clean`).  `Walk.Timely` is growth with this added: joins by handles and joins of the runtime
meet clean threads, threads end clean, and the companion joins of a body are those of members.

A walk is timely (`Walk.walk_timely`) because the nodes that it walks are laid out in teams, and
what it holds of a team is due among them (`Walk.Awaits`).  A skipped region ends neither inside a
team nor begins there, for the runtime does nothing at the nodes of a team.
-/

namespace DataRace

namespace Walk

/-- A step that adds at most an event that names no other thread. -/
structure Tacit (w w' : Walk) : Prop where
  thread_eq : w'.self.thread = w.self.thread
  threads_eq : w'.session.threads = w.session.threads
  unjoined_eq : w'.self.unjoined = w.self.unjoined
  pending_eq : w'.self.pending = w.self.pending
  events : w'.self.events = w.self.events ∨
    ∃ e, e.kind.isLocal = true ∧ w'.self.events = w.self.events.push e

/-- None of the children that nobody joined is a member of a team. -/
def Clean (w : Walk) : Prop := ∀ f ∈ w.self.unjoined, w.session.arena.OtherNode f.node

/-- Growth that joins teams at once. -/
inductive Timely (c : Subject) (r : Runtime) : Walk → Walk → Prop
  /-- One thing after the other. -/
  | trans {u v w : Walk} (huv : Timely c r u v) (hvw : Timely c r v w) : Timely c r u w
  /-- Anything that neither starts nor joins a thread. -/
  | tacit {w w' : Walk} (h : Grows c r w w') (htacit : Tacit w w') : Timely c r w w'
  /-- Joining the members of a team that a fork node started. -/
  | joinTeam {w w' : Walk} {id fork : NodeId} {n : Node} (hn : w.session.arena.get? id = some n)
      (hfork : n.companionOf? = some fork) (hteam : w.session.arena.TeamFork fork)
      (hid : w.session.arena.companion? fork = some id) (h : w.joinCompanion id n fork = .ok w') :
      Timely c r w w'
  /-- Joining what a handle denotes. -/
  | joinHandle {w : Walk} {id : NodeId} {n : Node} (handle : Operand)
      (hn : w.session.arena.get? id = some n) (hjoin : n.category = .join)
      (hnone : n.companionOf? = none) (hclean : w.Clean) : Timely c r w (w.joinHandle c id handle)
  /-- Joining what the runtime joins. -/
  | joinPending {w w' : Walk} {directOnly : Bool} (hclean : w.Clean)
      (h : w.joinPending directOnly = .ok w') : Timely c r w w'
  /-- Starting a child, which grows until its runtime has acted at its end. -/
  | fork {w v inner last : Walk} {id : NodeId} {n : Node} {api : ForkApi} {handle : Operand}
      {entry : ThreadEntry} {target : String} {child : ThreadId}
      (hn : w.session.arena.get? id = some n) (heffect : n.effect = .fork api handle entry)
      (htarget : target ∈ c.entryTargets entry)
      (hlimit : w.session.threads.size < c.settings.maxThreads)
      (hbegin : w.beginFork id target = .ok (child, v))
      (hinner : Timely c r (v.enterChild child api) inner) (hlast : Timely c r inner last)
      (hfinish : r.finish inner = .ok last) (hclean : last.Clean) :
      Timely c r w (v.endFork r id api handle last.close)

variable {c : Subject} {r : Runtime} {ancestry opened : List String} {w v w' : Walk}

/-- Doing nothing. -/
theorem Timely.refl (w : Walk) : Timely c r w w := .tacit (.refl w) ⟨rfl, rfl, rfl, rfl, Or.inl rfl⟩

/-- Joining teams at once is growth. -/
theorem Timely.grows (h : Timely c r w w') : Grows c r w w' := by
  induction h with
  | trans _ _ ih₁ ih₂ => exact ih₁.trans ih₂
  | tacit h _ => exact h
  | joinTeam hn hfork _ _ h => exact .joinCompanion hn hfork h
  | joinHandle handle hn hjoin _ _ => exact .joinHandle handle hn hjoin
  | joinPending _ h => exact .joinPending h
  | fork hn heffect htarget hlimit hbegin _ _ hfinish _ ihinner ihlast =>
    exact .fork hn heffect htarget hlimit hbegin ihinner ihlast hfinish

/-! ### Sessions of walks -/

/-- A runtime's join of a child keeps sessions orderly. -/
theorem joinChild_orderly {node : NodeId} {child : ThreadId} (h : w.joinChild node child = .ok w')
    (hw : w.session.Orderly) : w'.session.Orderly := by
  obtain ⟨⟨join, arena⟩, hjoin, h⟩ := Except.bind_eq_ok.1 h
  cases h
  exact hw.mono (Arena.companionJoin_spec hjoin).1 rfl

/-- The start of a child keeps sessions orderly. -/
theorem beginFork_orderly {id : NodeId} {target : String} {child : ThreadId}
    (h : w.beginFork id target = .ok (child, v)) (hw : w.session.Orderly) :
    v.session.Orderly := by
  obtain ⟨⟨child', session⟩, hreserve, h⟩ := Except.bind_eq_ok.1 h
  cases h
  simp only [Session.reserve] at hreserve
  split at hreserve
  · cases hreserve
    exact hw.mono (.refl _) rfl
  · cases hreserve

/-- Growth keeps sessions orderly. -/
theorem Grows.orderly (h : Grows c r w w') (hw : w.session.Orderly) : w'.session.Orderly := by
  induction h with
  | refl | skip | meet | note | record => exact hw
  | trans _ _ ih₁ ih₂ => exact ih₂ (ih₁ hw)
  | consult h => exact h.orderly hw
  | joinCompanion _ _ h =>
    exact joinCompanion_induction (P := fun v => v.session.Orderly) h hw fun _ _ _ _ hv => hv
  | joinHandle =>
    rw [Walk.joinHandle]
    split <;> exact hw
  | joinPending h =>
    exact joinPending_induction (P := fun v => v.session.Orderly) h hw
      fun _ _ _ _ hv hj => joinChild_orderly hj hv
  | fork _ _ _ _ hbegin _ _ _ ihinner ihlast =>
    have hv := beginFork_orderly hbegin hw
    exact (ihlast (ihinner hv)).mono (.refl _) rfl

/-! ### Tacit steps -/

namespace Tacit

/-- Looking something up or changing other notes. -/
theorem of_eq (hthread : w'.self.thread = w.self.thread)
    (hthreads : w'.session.threads = w.session.threads)
    (hunjoined : w'.self.unjoined = w.self.unjoined) (hpending : w'.self.pending = w.self.pending)
    (hevents : w'.self.events = w.self.events) : Tacit w w' :=
  ⟨hthread, hthreads, hunjoined, hpending, Or.inl hevents⟩

/-- An event that names no other thread. -/
theorem record (w : Walk) (id : NodeId) {kind : EventKind} (hlocal : kind.isLocal = true) :
    Tacit w (w.record id kind) :=
  ⟨rfl, rfl, rfl, rfl, Or.inr ⟨_, hlocal, rfl⟩⟩

/-- Skipping a region. -/
theorem skipRegion {opening closing : CallApi} {node : Node} {routine : Option String}
    {rest : List NodeId} (h : w.skipRegion opening closing node routine rest = .ok w') :
    Tacit w w' := by
  obtain ⟨skipTo, rfl⟩ := skipRegion_eq h
  exact of_eq rfl rfl rfl rfl rfl

/-- Asking whether a call is repeated. -/
theorem isRepeated {target : String} {args : List Operand} {repeated : Bool}
    (h : w.isRepeated c target args = .ok (repeated, w')) : Tacit w w' := by
  obtain ⟨session, hlearns, rfl | rfl⟩ := isRepeated_eq h
  · exact of_eq rfl hlearns.extends.threads rfl rfl rfl
  · exact of_eq rfl hlearns.extends.threads rfl rfl rfl

end Tacit

/-! ### Clean threads -/

namespace Clean

/-- A thread with fewer children to join stays clean. -/
theorem of_subset (hw : w.Clean) (harena : w.session.arena.Extends w'.session.arena)
    (hunjoined : w'.self.unjoined ⊆ w.self.unjoined) : w'.Clean :=
  fun f hf => (hw f (hunjoined hf)).mono harena

/-- A tacit step leaves a thread clean. -/
theorem tacit (hw : w.Clean) (hgrows : Grows c r w w') (h : Tacit w w') : w'.Clean :=
  hw.of_subset hgrows.arena_extends (h.unjoined_eq ▸ List.Subset.refl _)

/-- The joins of the runtime leave a thread clean. -/
theorem joinPending (hw : w.Clean) {directOnly : Bool} (h : w.joinPending directOnly = .ok w') :
    w'.Clean := by
  refine joinPending_induction (P := Clean) h (hw.of_subset (.refl _) (List.Subset.refl _)) ?_
  intro v v' p _ hv hj
  obtain ⟨hextends, _, _, -, -, hself⟩ := joinChild_spec hj
  refine hv.of_subset hextends.arena ?_
  rw [hself]
  exact fun f hf => (List.mem_filter.1 hf).1

/-- A join by a handle leaves a thread clean. -/
theorem joinHandle (hw : w.Clean) (id : NodeId) (handle : Operand) :
    (w.joinHandle c id handle).Clean := by
  rw [Walk.joinHandle]
  split
  · exact hw.of_subset (.refl _) fun f hf => (List.mem_filter.1 hf).1
  · exact hw.of_subset (.refl _) (List.Subset.refl _)

/-- What a runtime does at the end of a clean thread leaves it clean. -/
theorem finish (hw : w.Clean) (h : r.finish w = .ok w') : Timely c r w w' ∧ w'.Clean := by
  rcases finish_cases r w.self.spawnedBy with hjoin | hnothing
  · rw [hjoin w rfl] at h
    exact ⟨.joinPending hw h, hw.joinPending h⟩
  · rw [hnothing w rfl] at h
    cases h
    exact ⟨.refl w, hw⟩

/-- What a runtime does at a node leaves a thread clean. -/
theorem visit (hw : w.Clean) {node : Node} {routine : Option String} {rest : List NodeId}
    {opens : Bool} (h : r.visit w node routine rest = .ok (opens, w')) :
    Timely c r w w' ∧ w'.Clean := by
  have hgrows : Grows c r w w' := visit_grows h
  obtain ⟨_, -, hvisit⟩ | ⟨-, ⟨_, _, hvisit⟩ | ⟨_, -, hvisit⟩⟩ := visit_cases r node
  · rw [hvisit] at h
    cases h
    exact ⟨.refl w, hw⟩
  · rw [hvisit] at h
    obtain ⟨v, hv, h⟩ := Except.bind_eq_ok.1 h
    cases h
    exact ⟨.joinPending hw hv, hw.joinPending hv⟩
  · rw [hvisit] at h
    obtain ⟨v, hv, h⟩ := Except.bind_eq_ok.1 h
    cases h
    exact ⟨.tacit hgrows (.skipRegion hv), hw.tacit hgrows (.skipRegion hv)⟩

/-- A clean thread stays so when it asks for the nodes of a routine and whether a call of it is
repeated. -/
theorem asked {target : String} {args : List Operand} {nodes : Option (List NodeId)}
    {session : Session} {repeated : Bool} {u : Walk} (hw : w.Clean)
    (hsummary : w.session.summary c target = .ok (nodes, session))
    (hrepeated : isRepeated c { w with session } target args = .ok (repeated, u)) : u.Clean := by
  have hsession : Walk.Clean { w with session } :=
    hw.of_subset (Session.Learns.summary hsummary).extends.arena (List.Subset.refl _)
  exact hsession.tacit (isRepeated_grows (r := .pthread) hrepeated) (.isRepeated hrepeated)

end Clean

/-- A runtime does nothing at the nodes of a team. -/
theorem visit_of_inTeam {node : Node} (h : node.InTeam) (w : Walk) (routine : Option String)
    (rest : List NodeId) : r.visit w node routine rest = .ok (true, w) := by
  obtain ⟨site, effect⟩ := node
  cases effect with
  | fork | join => cases r <;> rfl
  | _ => rcases h with ⟨api, hapi, -⟩ | ⟨fork, hfork⟩ <;> contradiction

/-! ### Awaited joins -/

/-- The members of a team that nobody joined are due among the nodes that come next, none of which
is skipped. -/
def Awaits (w : Walk) (nodes : List NodeId) : Prop :=
  ∀ f ∈ w.self.unjoined, w.session.arena.OtherNode f.node ∨
    w.self.skipTo = none ∧ w.session.arena.Due f.node nodes

/-- A walk of nodes that are laid out and among which its members are due. -/
structure Prepared (w : Walk) (nodes : List NodeId) : Prop where
  orderly : w.session.Orderly
  laid : w.session.arena.Laid nodes
  awaits : w.Awaits nodes

/-- Clean threads await nothing. -/
theorem Clean.awaits (hw : w.Clean) (nodes : List NodeId) : w.Awaits nodes :=
  fun f hf => Or.inl (hw f hf)

namespace Awaits

variable {id : NodeId} {n : Node} {rest : List NodeId}

/-- A thread without nodes to come is clean. -/
theorem clean_of_nil (hw : w.Awaits []) : w.Clean := by
  intro f hf
  obtain hother | ⟨-, hdue⟩ := hw f hf
  · exact hother
  · cases hdue

/-- A thread that skips is clean. -/
theorem clean_of_skip {nodes : List NodeId} (hw : w.Awaits nodes) {i : InstId}
    (hskip : w.self.skipTo = some i) : w.Clean := by
  intro f hf
  obtain hother | ⟨hnone, -⟩ := hw f hf
  · exact hother
  · rw [hskip] at hnone
    cases hnone

/-- A thread before a node that no team call means is clean. -/
theorem clean_of_other (hw : w.Awaits (id :: rest)) (hn : w.session.arena.get? id = some n)
    (hother : ¬ n.InTeam) : w.Clean := by
  intro f hf
  obtain hf | ⟨-, hdue⟩ := hw f hf
  · exact hf
  · exact absurd (hdue.inTeam hn) hother

/-- At the companion join of a fork, the children of other forks stay awaited. -/
theorem joinCompanion (hw : w.Awaits (id :: rest)) {fork : NodeId}
    (hn : w.session.arena.get? id = some n) (hfork : n.companionOf? = some fork)
    (h : w.joinCompanion id n fork = .ok w') : w'.Awaits rest := by
  obtain ⟨hsession, -, hskip, hunjoined, -⟩ := joinCompanion_spec h
  intro f hf
  rw [hunjoined, List.mem_filter, bne_iff_ne] at hf
  rw [hsession, hskip]
  refine (hw f hf.1).imp_right fun ⟨hnone, hdue⟩ => ⟨hnone, hdue.tail hn ?_⟩
  rw [hfork]
  exact fun heq => hf.2 (Option.some.inj heq).symm

end Awaits

/-- Only a thread that skips passes nodes over. -/
theorem exists_skipTo {node : Node} (h : w.isSkipped node = true) :
    ∃ i, w.self.skipTo = some i := by
  unfold isSkipped at h
  split at h
  · next i hi => exact ⟨i, hi⟩
  · cases h

namespace Prepared

variable {id : NodeId} {n : Node} {rest : List NodeId}

/-- A thread that skips is ready for the nodes that come next. -/
theorem skip (hw : w.Prepared (id :: rest)) {i : InstId} (hskip : w.self.skipTo = some i) :
    w.Prepared rest := by
  obtain ⟨horderly, hlaid, hawaits⟩ := hw
  cases hlaid with
  | cons _ _ _ hrest => exact ⟨horderly, hrest, (hawaits.clean_of_skip hskip).awaits rest⟩

/-- Behind a node a thread is ready for the others if it awaits what is due among them. -/
theorem tail (hw : w.Prepared (id :: rest)) (h : Grows c r w w') (hawaits : w'.Awaits rest) :
    w'.Prepared rest := by
  obtain ⟨horderly, hlaid, -⟩ := hw
  cases hlaid with
  | cons _ _ _ hrest => exact ⟨h.orderly horderly, hrest.mono h.arena_extends, hawaits⟩

/-- Before a node that is neither a fork nor a join a thread is clean. -/
theorem clean (hw : w.Prepared (id :: rest)) (hn : w.session.arena.get? id = some n)
    (hfork : n.category ≠ .fork) (hjoin : n.category ≠ .join) : w.Clean :=
  hw.awaits.clean_of_other hn fun h => h.category.elim hfork hjoin

/-- A node that is an event that names no other thread. -/
theorem record (hw : w.Prepared (id :: rest)) (hn : w.session.arena.get? id = some n)
    {kind : EventKind} (hlocal : kind.isLocal = true) (hkind : n.category = kind.category) :
    Timely c r w (w.record id kind) ∧ (w.record id kind).Awaits rest := by
  have hclean : w.Clean := hw.clean hn (by rw [hkind]; cases kind <;> cases hlocal <;> exact nofun)
    (by rw [hkind]; cases kind <;> cases hlocal <;> exact nofun)
  exact ⟨.tacit (.record hn hlocal hkind) (.record w id hlocal),
    Clean.awaits (fun f hf => hclean f hf) rest⟩

/-- A companion join that is met is the one of a member of a team. -/
theorem companion (hw : w.Prepared (id :: rest)) (hn : w.session.arena.get? id = some n)
    {fork : NodeId} (hfork : n.companionOf? = some fork) :
    w.session.arena.TeamFork fork ∧ w.session.arena.companion? fork = some id := by
  obtain ⟨-, hlaid, -⟩ := hw
  cases hlaid with
  | cons hn' _ hjoin _ =>
    cases hn.symm.trans hn'
    exact hjoin fork hfork

/-- What the runtime does at a node that is reached leaves a thread ready for it. -/
theorem visit (hw : w.Prepared (id :: rest)) (hn : w.session.arena.get? id = some n)
    {routine : Option String} {opens : Bool}
    (h : r.visit w.reach n routine rest = .ok (opens, v)) :
    Timely c r w v ∧ v.Prepared (id :: rest) ∧ (n.InTeam → v.self.skipTo = none) ∧
      (opens = false → v.Clean) := by
  have hreach : Timely c r w w.reach := .tacit (.skip w none) (.of_eq rfl rfl rfl rfl rfl)
  by_cases hteam : n.InTeam
  · rw [visit_of_inTeam hteam] at h
    cases h
    exact ⟨hreach, ⟨hw.orderly, hw.laid, fun f hf => (hw.awaits f hf).imp_right fun hdue =>
      ⟨rfl, hdue.2⟩⟩, fun _ => rfl, nofun⟩
  · have hclean : w.reach.Clean := hw.awaits.clean_of_other hn hteam
    obtain ⟨hv, hclean'⟩ := hclean.visit (c := c) h
    have hgrows := (hreach.trans hv).grows
    exact ⟨hreach.trans hv, ⟨hgrows.orderly hw.orderly, hw.laid.mono hgrows.arena_extends,
      hclean'.awaits _⟩, fun hmember => absurd hmember hteam, fun _ => hclean'⟩

end Prepared

/-- A clean thread that calls a routine is prepared for its nodes. -/
theorem Clean.prepared_called {target : String} {args : List Operand}
    {nodes : Option (List NodeId)} {session : Session} {repeated : Bool} {id : NodeId} {u : Walk}
    (hw : w.Clean) (horderly : w.session.Orderly)
    (hsummary : w.session.summary c target = .ok (nodes, session))
    (hrepeated : isRepeated c { w with session } target args = .ok (repeated, u)) :
    (u.record id .call).Prepared (nodes.getD []) := by
  have hgrows : Grows c .pthread { w with session } u := isRepeated_grows hrepeated
  have hsession := (Session.Learns.summary hsummary).orderly horderly
  have hu : u.Clean := hw.asked hsummary hrepeated
  exact ⟨hgrows.orderly hsession, (horderly.summary hsummary).mono hgrows.arena_extends,
    fun f hf => Or.inl (hu f hf)⟩

/-- A thread that was just started is prepared for the nodes of its routine. -/
theorem prepared_start {s session : Session} {f : String} {nodes : Option (List NodeId)}
    (hs : s.Orderly) (hsummary : s.summary c f = .ok (nodes, session)) (thread : ThreadId)
    (api : Option ForkApi) : Prepared ⟨session, Walker.start thread api⟩ (nodes.getD []) :=
  ⟨(Session.Learns.summary hsummary).orderly hs, hs.summary hsummary, List.forall_mem_nil _⟩

/-- What forks leave is awaited: the new children are due behind them. -/
theorem Prepared.awaits_forked {id : NodeId} {n : Node} {rest : List NodeId}
    (hw : w.Prepared (id :: rest)) (hn : w.session.arena.get? id = some n)
    (hfork : n.companionOf? = none) (hskip : n.InTeam → w.self.skipTo = none)
    (harena : w.session.arena.Extends w'.session.arena)
    (hsame : w'.self.skipTo = w.self.skipTo)
    (hunjoined : ∀ f ∈ w'.self.unjoined, f ∈ w.self.unjoined ∨ f.node = id) : w'.Awaits rest := by
  intro f hf
  rw [hsame]
  rcases hunjoined f hf with hold | hnew
  · refine (hw.awaits f hold).imp (fun hother => hother.mono harena) fun ⟨hnone, hdue⟩ => ?_
    refine ⟨hnone, (hdue.tail hn ?_).mono harena⟩
    rw [hfork]
    exact nofun
  · rw [hnew]
    by_cases hmember : n.ForksMember
    · cases hw.laid with
      | cons hn' hdue _ _ =>
        cases hn.symm.trans hn'
        exact Or.inr ⟨hskip (Or.inl hmember), (hdue hmember).mono harena⟩
    · exact Or.inl ⟨n, harena id n hn, hmember⟩

/-! ### Walking -/

/-- Walking nodes that a thread is prepared for joins teams at once and leaves the thread clean. -/
def WalksTimely (c : Subject) (r : Runtime) (ancestry opened : List String) (nodes : List NodeId)
    (w : Walk) : Prop :=
  ∀ w', walk c r ancestry opened nodes w = .ok w' → w.Prepared nodes → Timely c r w w' ∧ w'.Clean

/-- Handling a node joins teams at once, and what the thread holds then is due behind the node. -/
def HandlesTimely (c : Subject) (r : Runtime) (ancestry opened : List String) (id : NodeId)
    (node : Node) (w : Walk) : Prop :=
  ∀ rest w', w.session.arena.get? id = some node →
    handle c r ancestry opened id node w = .ok w' → w.Prepared (id :: rest) →
    (node.InTeam → w.self.skipTo = none) → Timely c r w w' ∧ w'.Awaits rest

/-- Calling routines from a clean thread joins teams at once and leaves the thread clean. -/
def CallsTimely (c : Subject) (r : Runtime) (ancestry opened : List String) (id : NodeId)
    (args : List Operand) (targets : List String) (w : Walk) : Prop :=
  ∀ w', (∃ n, w.session.arena.get? id = some n ∧ n.category = .call) →
    callAll c r ancestry opened id args targets w = .ok w' → w.session.Orderly → w.Clean →
    Timely c r w w' ∧ w'.Clean

/-- Starting children joins teams at once, skips nothing and leaves only these children to be
joined in addition. -/
def ForksTimely (c : Subject) (r : Runtime) (ancestry opened : List String) (id : NodeId)
    (api : ForkApi) (operand : Operand) (targets : List String) (w : Walk) : Prop :=
  ∀ w', (∃ n entry, w.session.arena.get? id = some n ∧ n.effect = .fork api operand entry ∧
      ∀ target ∈ targets, target ∈ c.entryTargets entry) →
    forkAll c r ancestry opened id api operand targets w = .ok w' → w.session.Orderly →
    Timely c r w w' ∧ w'.self.skipTo = w.self.skipTo ∧
      ∀ f ∈ w'.self.unjoined, f ∈ w.self.unjoined ∨ f.node = id

section

variable {id : NodeId} {node : Node} {rest : List NodeId} {args : List Operand} {api : ForkApi}
  {operand : Operand} {target : String} {targets : List String}

/-- A node and then the others. -/
theorem WalksTimely.cons (hrest : ∀ v, WalksTimely c r ancestry opened rest v)
    (hhandle : ∀ node v, HandlesTimely c r ancestry opened id node v) :
    WalksTimely c r ancestry opened (id :: rest) w := by
  intro w' h hw
  obtain ⟨node, hnode, ⟨hskip, h⟩ | ⟨-, opens, v, u, hvisit, hu, h⟩⟩ := walk_cons_ok h
  -- A thread that skips is clean, so it may go on behind the node.
  · obtain ⟨i, hi⟩ := exists_skipTo hskip
    exact hrest w w' h (hw.skip hi)
  · obtain ⟨hv, hready, hskip, hclean⟩ := hw.visit (c := c) hnode hvisit
    have hvu : Timely c r v u ∧ u.Awaits rest := by
      cases opens with
      | true =>
        exact hhandle node v rest u (hv.grows.arena_extends id node hnode) hu hready hskip
      | false =>
        cases hu
        exact ⟨.refl v, (hclean rfl).awaits rest⟩
    have hu' : Timely c r w u := hv.trans hvu.1
    obtain ⟨hw', hclean'⟩ := hrest u w' h (hw.tail hu'.grows hvu.2)
    exact ⟨hu'.trans hw', hclean'⟩

/-- A companion join. -/
theorem HandlesTimely.companion {joinApi : JoinApi} {fork : NodeId}
    (heffect : node.effect = .join joinApi operand (some fork)) :
    HandlesTimely c r ancestry opened id node w := by
  intro rest w' hnode h hw _
  rw [handle, heffect] at h
  have hfork : node.companionOf? = some fork := by simp [Node.companionOf?, heffect]
  obtain ⟨hteam, hid⟩ := hw.companion hnode hfork
  exact ⟨.joinTeam hnode hfork hteam hid h, hw.awaits.joinCompanion hnode hfork h⟩

/-- A join by a handle. -/
theorem HandlesTimely.join {joinApi : JoinApi}
    (heffect : node.effect = .join joinApi operand none) :
    HandlesTimely c r ancestry opened id node w := by
  intro rest w' hnode h hw _
  rw [handle, heffect] at h
  cases h
  have hnone : node.companionOf? = none := by simp [Node.companionOf?, heffect]
  have hclean := hw.awaits.clean_of_other hnode
    (Node.not_inTeam_of_none (by simp [Node.forkApi?, heffect]) hnone)
  exact ⟨.joinHandle operand hnode (by simp [Node.category, heffect]) hnone hclean,
    (hclean.joinHandle id operand).awaits rest⟩

/-- A fork. -/
theorem HandlesTimely.fork {entry : ThreadEntry} (heffect : node.effect = .fork api operand entry)
    (hforks : ForksTimely c r ancestry opened id api operand (c.entryTargets entry)
      (w.meetFork id)) :
    HandlesTimely c r ancestry opened id node w := by
  intro rest w' hnode h hw hskip
  rw [handle, heffect] at h
  obtain ⟨hw', hsame, hunjoined⟩ :=
    hforks w' ⟨node, entry, hnode, heffect, fun _ h => h⟩ h hw.orderly
  have hmeet : Timely c r w w' :=
    (Timely.tacit (.meet w id) (.of_eq rfl rfl rfl rfl rfl)).trans hw'
  exact ⟨hmeet, hw.awaits_forked hnode (by simp [Node.companionOf?, heffect]) hskip
    hmeet.grows.arena_extends hsame hunjoined⟩

/-- A call. -/
theorem HandlesTimely.call {callApi : CallApi} {callee : Callee}
    (heffect : node.effect = .call callApi callee args)
    (hcalls : callApi.isRuntime = false →
      CallsTimely c r ancestry opened id args (c.callTargets callee) w) :
    HandlesTimely c r ancestry opened id node w := by
  intro rest w' hnode h hw _
  have hcat : node.category = .call := by simp [Node.category, heffect]
  have hclean := hw.clean hnode (fun hfork => by cases hcat.symm.trans hfork)
    (fun hjoin => by cases hcat.symm.trans hjoin)
  rw [handle, heffect] at h
  dsimp only at h
  split at h
  · cases h
    exact ⟨.refl w, hclean.awaits rest⟩
  · next hother =>
    obtain ⟨hw', hclean'⟩ :=
      hcalls (Bool.eq_false_iff.2 hother) w' ⟨node, hnode, hcat⟩ h hw.orderly hclean
    exact ⟨hw', hclean'.awaits rest⟩

/-- A routine that is called and then the others. -/
theorem CallsTimely.cons (hrest : ∀ v, CallsTimely c r ancestry opened id args targets v)
    (hwalk : ∀ (nodes : Option (List NodeId)) routine, c.program.definition? target = some routine →
      target ∉ opened → ∀ v : Walk,
        WalksTimely c r ancestry (target :: opened) (nodes.getD []) (v.record id .call)) :
    CallsTimely c r ancestry opened id args (target :: targets) w := by
  intro w' hcall h horderly hclean
  obtain ⟨nodes, session, hsummary, h⟩ := callAll_cons_ok h
  -- Whatever grows from the thread at the call node is orderly and finds the node.
  have hkeep : ∀ {v}, Timely c r w v → v.session.Orderly ∧
      ∃ n, v.session.arena.get? id = some n ∧ n.category = .call := by
    intro v hv
    obtain ⟨n, hn, hcat⟩ := hcall
    exact ⟨hv.grows.orderly horderly, n, hv.grows.arena_extends id n hn, hcat⟩
  have hrecord : ∀ {v kind}, Timely c r w v → kind.isLocal = true →
      kind.category = .call → Timely c r w (v.record id kind) := by
    intro v kind hv hlocal hkind
    obtain ⟨n, hn, hcat⟩ := (hkeep hv).2
    exact hv.trans (.tacit (.record hn hlocal (hcat.trans hkind.symm)) (.record v id hlocal))
  have hgoOn : ∀ {v}, Timely c r w v → v.Clean →
      callAll c r ancestry opened id args targets v = .ok w' → Timely c r w w' ∧ w'.Clean := by
    intro v hv hclean h
    obtain ⟨hw', hclean'⟩ := hrest v w' (hkeep hv).2 h (hkeep hv).1 hclean
    exact ⟨hv.trans hw', hclean'⟩
  have hsession : Timely c r w { w with session } :=
    .tacit (.consult (.summary hsummary))
      (.of_eq rfl (Session.Learns.summary hsummary).extends.threads rfl rfl rfl)
  obtain ⟨-, h⟩ | ⟨routine, hdef, hopen, repeated, u, hrepeated, h⟩ := h
  · exact hgoOn hsession (hclean.of_subset hsession.grows.arena_extends (List.Subset.refl _)) h
  · have hu : Timely c r w u :=
      hsession.trans (.tacit (isRepeated_grows hrepeated) (.isRepeated hrepeated))
    obtain ⟨-, h⟩ | ⟨-, v, hv, h⟩ := h
    · exact hgoOn hu (hclean.asked hsummary hrepeated) h
    · have hcalled : Timely c r w (u.record id .call) := hrecord hu rfl rfl
      obtain ⟨hwalked, hv'⟩ := hwalk nodes routine hdef hopen u v hv
        (hclean.prepared_called horderly hsummary hrepeated)
      exact hgoOn (hrecord (hcalled.trans hwalked) rfl rfl) (fun f hf => hv' f hf) h

/-- A child that is not started and then the others. -/
theorem ForksTimely.pass
    (hpass : target ∈ ancestry ∨ c.settings.maxThreads ≤ w.session.threads.size)
    (hrest : ForksTimely c r ancestry opened id api operand targets w) :
    ForksTimely c r ancestry opened id api operand (target :: targets) w := by
  intro w' hfork h horderly
  obtain ⟨n, source, hn, heffect, htargets⟩ := hfork
  obtain ⟨-, h⟩ | ⟨hnew, hlimit, -⟩ := forkAll_cons_ok h
  · exact hrest w' ⟨n, source, hn, heffect, fun t ht => htargets t (List.mem_cons_of_mem _ ht)⟩ h
      horderly
  · exact absurd hpass (not_or.2 ⟨hnew, Nat.not_le.2 hlimit⟩)

/-- A child that is started and then the others. -/
theorem ForksTimely.start
    (hstarts : ¬ (target ∈ ancestry ∨ c.settings.maxThreads ≤ w.session.threads.size))
    (hrest : ∀ v last : Walk,
      ForksTimely c r ancestry opened id api operand targets (v.endFork r id api operand last))
    (hwalk : ∀ child (v : Walk) routine, c.program.definition? target = some routine →
      ∀ (nodes : Option (List NodeId)) session, WalksTimely c r (target :: ancestry) [target]
        (nodes.getD []) { v.enterChild child api with session }) :
    ForksTimely c r ancestry opened id api operand (target :: targets) w := by
  intro w' hfork h horderly
  obtain ⟨n, source, hn, heffect, htargets⟩ := hfork
  obtain ⟨hpass, -⟩ | ⟨-, hlimit, child, v, inner, last, hbegin, hinner, hlast, h⟩ :=
    forkAll_cons_ok h
  · exact absurd hpass hstarts
  have hv : v.session.Orderly := beginFork_orderly hbegin horderly
  have hwalked : Timely c r (v.enterChild child api) inner ∧ inner.Clean := by
    rcases hinner with ⟨-, rfl⟩ | ⟨routine, nodes, session, hdef, hsummary, hinner⟩
    · exact ⟨.refl _, fun f hf => nomatch hf⟩
    · have hlearns := Session.Learns.summary hsummary
      have hconsult : Timely c r (v.enterChild child api) { v.enterChild child api with session } :=
        .tacit (.consult hlearns) (.of_eq rfl hlearns.extends.threads rfl rfl rfl)
      obtain ⟨hinner, hclean⟩ := hwalk child v routine hdef nodes session inner hinner
        (prepared_start hv hsummary child (some api))
      exact ⟨hconsult.trans hinner, hclean⟩
  obtain ⟨hfinish, hclean⟩ := hwalked.2.finish (c := c) hlast
  have hforked : Timely c r w (v.endFork r id api operand last.close) :=
    .fork hn heffect (htargets target List.mem_cons_self) hlimit hbegin hwalked.1 hfinish hlast
      hclean
  obtain ⟨hw', hskip, hunjoined⟩ := hrest v last.close w'
    ⟨n, source, hforked.grows.arena_extends id n hn, heffect,
      fun t ht => htargets t (List.mem_cons_of_mem _ ht)⟩ h (hforked.grows.orderly horderly)
  obtain ⟨-, -, hsame, hheld⟩ := endFork_spec hbegin r api operand last.close
  refine ⟨hforked.trans hw', hskip.trans hsame, fun f hf => ?_⟩
  rcases hunjoined f hf with hold | hnew
  · rw [hheld] at hold
    rcases List.mem_append.1 hold with hold | hnew
    · exact Or.inl hold
    · rw [List.mem_singleton.1 hnew]
      exact Or.inr rfl
  · exact Or.inr hnew

end

/-- What is walked from a thread that awaits nothing but what is due leaves such a thread, and a
thread that has been walked to its end is clean. -/
theorem all_timely (c : Subject) (r : Runtime) :
    (∀ ancestry opened nodes w, WalksTimely c r ancestry opened nodes w) ∧
      (∀ ancestry opened id node w, HandlesTimely c r ancestry opened id node w) ∧
      (∀ ancestry opened id args targets w, CallsTimely c r ancestry opened id args targets w) ∧
      ∀ ancestry opened id api operand targets w,
        ForksTimely c r ancestry opened id api operand targets w := by
  apply walk.mutual_induct c r (WalksTimely c r) (HandlesTimely c r) (CallsTimely c r)
    (ForksTimely c r)
  -- A list of nodes.
  case case1 =>
    intro ancestry opened w w' h hw
    rw [walk] at h
    cases h
    exact ⟨.refl w, hw.awaits.clean_of_nil⟩
  case case2 =>
    intro ancestry opened id rest w _ ihrest ihhandle
    exact .cons ihrest ihhandle
  -- A node.
  case case3 | case4 | case5 | case6 | case7 | case8 =>
    intros
    rename_i heffect
    intro rest w' hnode h hw _
    rw [handle, heffect] at h
    cases h
    exact hw.record hnode rfl (by simp [Node.category, heffect, EventKind.category])
  case case9 =>
    intro ancestry opened id node w api operand fork heffect
    exact .companion heffect
  case case10 =>
    intro ancestry opened id node w api operand heffect
    exact .join heffect
  case case11 =>
    intro ancestry opened id node w api operand entry heffect ih
    exact .fork heffect ih
  case case12 =>
    intro ancestry opened id node w api callee args heffect hruntime
    exact .call heffect fun hother => absurd hruntime (Bool.eq_false_iff.1 hother)
  case case13 =>
    intro ancestry opened id node w api callee args heffect _ ih
    exact .call heffect fun _ => ih
  -- The routines of a call.
  case case14 =>
    intro ancestry opened id args w w' _ h _ hclean
    rw [callAll] at h
    cases h
    exact ⟨.refl w, hclean⟩
  case case15 =>
    intro ancestry opened id args target targets w _ ihrest ihwalk _
    exact .cons ihrest ihwalk
  -- The children of a fork.
  case case16 =>
    intro ancestry opened id api operand w w' _ h _
    rw [forkAll] at h
    cases h
    exact ⟨.refl w, rfl, fun f hf => Or.inl hf⟩
  case case17 =>
    intro ancestry opened id api operand target targets w hpass ih
    exact .pass (Or.inl hpass) ih
  case case18 =>
    intro ancestry opened id api operand target targets w _ hlimit ih
    exact .pass (Or.inr hlimit) ih
  case case19 =>
    intro ancestry opened id api operand target targets w hnew hlimit ihrest ihwalk
    exact .start (not_or.2 ⟨hnew, hlimit⟩) ihrest ihwalk

/-- A walk from a thread that has joined its teams joins the teams that it starts. -/
theorem walk_timely {nodes : List NodeId} (h : walk c r ancestry opened nodes w = .ok w')
    (hw : w.Prepared nodes) : Timely c r w w' ∧ w'.Clean :=
  (all_timely c r).1 ancestry opened nodes w w' h hw

end Walk

/-- A trace that is built has grown from the main thread on its own, and all teams were joined at
once. -/
theorem Trace.build_timely {c : Subject} {t : Trace} (h : Trace.build c = .ok t) :
    ∃ s w, s.threads = #[Thread.new 0 c.settings.entry none none] ∧
      Walk.Timely c (Runtime.ofProgram c.program c.settings.runtime) ⟨s, Walker.start 0 none⟩ w ∧
      w.Clean ∧ t = ⟨w.close.session.threads, w.session.arena, c.program, c.pointsTo⟩ := by
  obtain ⟨_, _, -, hmain, rfl⟩ := build_ok h
  obtain ⟨nodes, s, inner, last, hsummary, hwalk, hlast, rfl⟩ := walkMain_ok hmain
  have hempty := Session.Orderly.empty #[Thread.new 0 c.settings.entry none none]
  have hlearns := Session.Learns.summary hsummary
  obtain ⟨hwalk, hclean⟩ := Walk.walk_timely hwalk (Walk.prepared_start hempty hsummary 0 none)
  obtain ⟨hfinish, hclean'⟩ := hclean.finish (c := c) hlast
  exact ⟨s, last, hlearns.extends.threads, hwalk.trans hfinish, hclean', rfl⟩

end DataRace
