import DataRace.Trace.Build
import DataRace.Proofs.Trace.Session

/-!
# The steps of a walk

What it takes for a walk to succeed, one step at a time: `Walk.walk_cons_ok` for the first of the
nodes, `Walk.callAll_cons_ok` for the first routine that a call may reach, `Walk.forkAll_cons_ok`
for the first child that a fork may start.  The joins of a companion, of a handle and of a runtime,
the start of a child and its end are described here too, so that no later proof opens these
definitions again.

Three programs are walked to their end: `ForkJoin`, whose child frees what the main thread stores
to, `TeamTask`, with a team of two whose master starts a task, and `Twice`, which calls a routine
two times, with deduplicated calls or with all calls expanded.
-/

namespace DataRace

namespace Walk

/-- A thread whose events are put into the table of threads. -/
def close (w : Walk) : Walk :=
  { w with session := { w.session with
      threads :=
        w.session.threads.modify w.self.thread fun t => { t with events := w.self.events } } }

variable {c : Subject} {r : Runtime} {ancestry opened : List String} {w w' : Walk}

/-- A thread ends when its runtime has acted and its events are in the table. -/
theorem finish_eq_ok : w.finish r = .ok w' ↔ ∃ v, r.finish w = .ok v ∧ v.close = w' := by
  rw [finish, Except.bind_eq_ok]
  constructor
  · rintro ⟨v, hv, h⟩
    cases h
    exact ⟨v, hv, rfl⟩
  · rintro ⟨v, hv, rfl⟩
    exact ⟨v, hv, rfl⟩

/-! ### Nodes, calls and forks -/

/-- A walk passes its first node over, or lets the runtime act and handles the node unless the
runtime objects; then it goes on. -/
theorem walk_cons_ok {id : NodeId} {rest : List NodeId}
    (h : walk c r ancestry opened (id :: rest) w = .ok w') :
    ∃ node, w.session.arena.get? id = some node ∧
      (w.isSkipped node = true ∧ walk c r ancestry opened rest w = .ok w' ∨
        w.isSkipped node = false ∧ ∃ opens v u,
          r.visit w.reach node opened.head? rest = .ok (opens, v) ∧
          (if opens then handle c r ancestry opened id node v else .ok v) = .ok u ∧
          walk c r ancestry opened rest u = .ok w') := by
  rw [walk] at h
  obtain ⟨node, hnode, h⟩ := Except.bind_eq_ok.1 h
  refine ⟨node, Arena.get_eq_ok.1 hnode, ?_⟩
  split at h
  · next hskip => exact Or.inl ⟨hskip, h⟩
  · next hskip =>
    obtain ⟨⟨opens, v⟩, hvisit, h⟩ := Except.bind_eq_ok.1 h
    refine Or.inr ⟨by simpa using hskip, opens, v, ?_⟩
    dsimp only at h
    split at h
    · next hopens =>
      obtain ⟨u, hu, h⟩ := Except.bind_eq_ok.1 h
      exact ⟨u, hvisit, by rw [if_pos hopens, hu], h⟩
    · next hopens =>
      obtain ⟨u, hu, h⟩ := Except.bind_eq_ok.1 h
      exact ⟨u, hvisit, by rw [if_neg hopens, hu], h⟩

/-- A call passes over a routine that has no body, is open or would add nothing, and otherwise walks
it between a call and a return event; then it goes on. -/
theorem callAll_cons_ok {id : NodeId} {args : List Operand} {target : String}
    {targets : List String}
    (h : callAll c r ancestry opened id args (target :: targets) w = .ok w') :
    ∃ nodes session, w.session.summary c target = .ok (nodes, session) ∧
      ((c.program.definition? target = none ∨ target ∈ opened) ∧
          callAll c r ancestry opened id args targets { w with session } = .ok w' ∨
        ∃ routine, c.program.definition? target = some routine ∧ target ∉ opened ∧
          ∃ repeated u, isRepeated c { w with session } target args = .ok (repeated, u) ∧
            (repeated = true ∧ callAll c r ancestry opened id args targets u = .ok w' ∨
              repeated = false ∧ ∃ v,
                walk c r ancestry (target :: opened) (nodes.getD []) (u.record id .call) = .ok v ∧
                callAll c r ancestry opened id args targets (v.record id .return) = .ok w')) := by
  rw [callAll] at h
  obtain ⟨⟨nodes, session⟩, hsummary, h⟩ := Except.bind_eq_ok.1 h
  refine ⟨nodes, session, hsummary, ?_⟩
  dsimp only at h
  split at h
  · next hdef => exact Or.inl ⟨Or.inl hdef, h⟩
  · next routine hdef =>
    split at h
    · next hopen => exact Or.inl ⟨Or.inr hopen, h⟩
    · next hopen =>
      obtain ⟨⟨repeated, u⟩, hrepeated, h⟩ := Except.bind_eq_ok.1 h
      refine Or.inr ⟨routine, hdef, hopen, repeated, u, hrepeated, ?_⟩
      cases repeated with
      | true => exact Or.inl ⟨rfl, h⟩
      | false =>
        obtain ⟨v, hv, h⟩ := Except.bind_eq_ok.1 h
        exact Or.inr ⟨rfl, v, hv, h⟩

/-- How a child that was just started is walked: not at all without a body, and otherwise as the
only open routine. -/
def WalksChild (c : Subject) (r : Runtime) (ancestry : List String) (entry : String)
    (w inner : Walk) : Prop :=
  c.program.definition? entry = none ∧ inner = w ∨
    ∃ routine nodes session, c.program.definition? entry = some routine ∧
      w.session.summary c entry = .ok (nodes, session) ∧
      walk c r (entry :: ancestry) [entry] (nodes.getD []) { w with session } = .ok inner

/-- A fork passes over a routine that leads here already, and over all of them at the limit of
threads; otherwise it starts a child, walks it and ends it; then it goes on. -/
theorem forkAll_cons_ok {id : NodeId} {api : ForkApi} {operand : Operand} {entry : String}
    {entries : List String}
    (h : forkAll c r ancestry opened id api operand (entry :: entries) w = .ok w') :
    (entry ∈ ancestry ∨ c.settings.maxThreads ≤ w.session.threads.size) ∧
        forkAll c r ancestry opened id api operand entries w = .ok w' ∨
      entry ∉ ancestry ∧ w.session.threads.size < c.settings.maxThreads ∧
        ∃ child v inner last, w.beginFork id entry = .ok (child, v) ∧
          WalksChild c r ancestry entry (v.enterChild child api) inner ∧
          r.finish inner = .ok last ∧
          forkAll c r ancestry opened id api operand entries
            (v.endFork r id api operand last.close) = .ok w' := by
  rw [forkAll] at h
  split at h
  · next ha => exact Or.inl ⟨Or.inl ha, h⟩
  · next ha =>
    split at h
    · next hlimit => exact Or.inl ⟨Or.inr hlimit, h⟩
    · next hlimit =>
      obtain ⟨⟨child, v⟩, hbegin, h⟩ := Except.bind_eq_ok.1 h
      refine Or.inr ⟨ha, Nat.lt_of_not_le hlimit, child, v, ?_⟩
      dsimp only at h
      split at h
      · next hdef =>
        obtain ⟨inner, hinner, h⟩ := Except.bind_eq_ok.1 h
        cases hinner
        obtain ⟨ended, hended, h⟩ := Except.bind_eq_ok.1 h
        obtain ⟨last, hlast, rfl⟩ := finish_eq_ok.1 hended
        exact ⟨_, last, hbegin, Or.inl ⟨hdef, rfl⟩, hlast, h⟩
      · next routine hdef =>
        obtain ⟨⟨nodes, session⟩, hsummary, h⟩ := Except.bind_eq_ok.1 h
        obtain ⟨inner, hinner, h⟩ := Except.bind_eq_ok.1 h
        obtain ⟨ended, hended, h⟩ := Except.bind_eq_ok.1 h
        obtain ⟨last, hlast, rfl⟩ := finish_eq_ok.1 hended
        exact ⟨inner, last, hbegin, Or.inr ⟨routine, nodes, session, hdef, hsummary, hinner⟩,
          hlast, h⟩

/-! ### Joins -/

/-- What holds before a companion join and is kept by each of its events holds after it. -/
theorem joinCompanion_induction {P : Walk → Prop} {id fork : NodeId} {n : Node}
    (h : w.joinCompanion id n fork = .ok w')
    (hbase : P { w with self :=
      { w.self with unjoined := w.self.unjoined.filter fun f => f.node != fork } })
    (hstep : ∀ v f, f ∈ w.self.unjoined → f.node = fork → P v →
      P (v.record id (.join (some f.child)))) : P w' := by
  rw [joinCompanion] at h
  split at h
  · cases h
    have hdue : ∀ f ∈ w.self.unjoined.filter fun f => f.node == fork,
        f ∈ w.self.unjoined ∧ f.node = fork := by
      intro f hf
      rw [List.mem_filter, beq_iff_eq] at hf
      exact hf
    exact List.foldlRecOn _ _ hbase fun v hv f hf => hstep v f (hdue f hf).1 (hdue f hf).2 hv
  · cases h

/-- Making one join event of a node for each of some children. -/
theorem recordJoins_spec (id : NodeId) (due : List Forked) (w : Walk) :
    ∃ v, due.foldl (fun w f => w.record id (.join (some f.child))) w = v ∧
      v.session = w.session ∧ v.self.thread = w.self.thread ∧ v.self.skipTo = w.self.skipTo ∧
      v.self.unjoined = w.self.unjoined ∧ v.self.pending = w.self.pending ∧
      ∃ new : Array Event, v.self.events = w.self.events ++ new ∧
        (∀ e ∈ new, e.node = id ∧ ∃ f ∈ due, e.kind = .join (some f.child)) ∧
        ∀ f ∈ due, ∃ e ∈ new, e.kind = .join (some f.child) := by
  induction due generalizing w with
  | nil => exact ⟨w, rfl, rfl, rfl, rfl, rfl, rfl, #[], by simp, by simp, by simp⟩
  | cons f due ih =>
    obtain ⟨v, hv, hsession, hthread, hskip, hunjoined, hpending, new, hevents, hnew, hall⟩ :=
      ih (w.record id (.join (some f.child)))
    refine ⟨v, hv, hsession, hthread, hskip, hunjoined, hpending,
      #[⟨w.self.thread, w.self.events.size, id, .join (some f.child)⟩] ++ new, ?_, ?_, ?_⟩
    · rw [hevents, ← Array.append_assoc, ← Array.push_eq_append]
      rfl
    · intro e he
      rcases Array.mem_append.1 he with he | he
      · obtain rfl := Array.mem_singleton.1 he
        exact ⟨rfl, f, List.mem_cons_self, rfl⟩
      · obtain ⟨hnode, g, hg, hkind⟩ := hnew e he
        exact ⟨hnode, g, List.mem_cons_of_mem _ hg, hkind⟩
    · intro g hg
      rcases List.mem_cons.1 hg with rfl | hg
      · exact ⟨_, Array.mem_append_left _ (Array.mem_singleton.2 rfl), rfl⟩
      · obtain ⟨e, he, hkind⟩ := hall g hg
        exact ⟨e, Array.mem_append_right _ he, hkind⟩

/-- A companion join takes the children of its fork off the list of those that nobody joined, and
makes one event for each of them. -/
theorem joinCompanion_spec {id fork : NodeId} {n : Node}
    (h : w.joinCompanion id n fork = .ok w') :
    w'.session = w.session ∧ w'.self.thread = w.self.thread ∧ w'.self.skipTo = w.self.skipTo ∧
      w'.self.unjoined = w.self.unjoined.filter (fun f => f.node != fork) ∧
      w'.self.pending = w.self.pending ∧
      ∃ new : Array Event, w'.self.events = w.self.events ++ new ∧
        (∀ e ∈ new, e.node = id ∧ ∃ f ∈ w.self.unjoined, e.kind = .join (some f.child)) ∧
        ∀ f ∈ w.self.unjoined, f.node = fork → ∃ e ∈ new, e.kind = .join (some f.child) := by
  rw [joinCompanion] at h
  split at h
  · cases h
    obtain ⟨v, rfl, hsession, hthread, hskip, hunjoined, hpending, new, hevents, hnew, hall⟩ :=
      recordJoins_spec id (w.self.unjoined.filter fun f => f.node == fork) { w with self :=
        { w.self with unjoined := w.self.unjoined.filter fun f => f.node != fork } }
    refine ⟨hsession, hthread, hskip, hunjoined, hpending, new, hevents, fun e he => ?_,
      fun f hf hfork => hall f (List.mem_filter.2 ⟨hf, beq_iff_eq.2 hfork⟩)⟩
    obtain ⟨hnode, f, hf, hkind⟩ := hnew e he
    exact ⟨hnode, f, (List.mem_filter.1 hf).1, hkind⟩
  · cases h

/-- A runtime's join of a child settles the child and makes an event of the companion join. -/
theorem joinChild_spec {node : NodeId} {child : ThreadId} (h : w.joinChild node child = .ok w') :
    w.session.Extends w'.session ∧ ∃ join n, w'.session.arena.get? join = some n ∧
      n.companionOf? = some node ∧
      w'.self = (w.self.settle node child).record join (.join (some child)) := by
  obtain ⟨⟨join, arena⟩, hjoin, h⟩ := Except.bind_eq_ok.1 h
  cases h
  obtain ⟨hextends, n, hn, hnode⟩ := Arena.companionJoin_spec hjoin
  exact ⟨⟨hextends, rfl⟩, join, n, hn, hnode, rfl⟩

/-- The node of that event is the companion join of the fork from then on. -/
theorem joinChild_companion {node : NodeId} {child : ThreadId}
    (h : w.joinChild node child = .ok w') : ∃ join, w'.session.arena.companion? node = some join ∧
      w'.self = (w.self.settle node child).record join (.join (some child)) := by
  obtain ⟨⟨join, arena⟩, hjoin, h⟩ := Except.bind_eq_ok.1 h
  cases h
  exact ⟨join, Arena.companion?_companionJoin hjoin, rfl⟩

/-- What holds before a runtime's joins and is kept by each of them holds after them. -/
theorem joinPending_induction {P : Walk → Prop} {directOnly : Bool}
    (h : w.joinPending directOnly = .ok w')
    (hbase : P { w with self :=
      { w.self with pending := w.self.pending.filter fun p => !(p.isDirect || !directOnly) } })
    (hstep : ∀ v v' p, p ∈ w.self.pending → P v → v.joinChild p.node p.child = .ok v' → P v') :
    P w' := by
  have hfold : ∀ (l : List Pending) (v : Walk), (∀ p ∈ l, p ∈ w.self.pending) → P v →
      l.foldlM (fun w p => w.joinChild p.node p.child) v = .ok w' → P w' := by
    intro l
    induction l with
    | nil =>
      intro v _ hv h
      cases h
      exact hv
    | cons p l ih =>
      intro v hl hv h
      rw [List.foldlM_cons] at h
      obtain ⟨v', hv', h⟩ := Except.bind_eq_ok.1 h
      exact ih v' (fun q hq => hl q (List.mem_cons_of_mem _ hq))
        (hstep v v' p (hl p List.mem_cons_self) hv hv') h
  refine hfold _ _ (fun p hp => ?_) hbase h
  simp only [List.mem_append, List.mem_filter] at hp
  rcases hp with hp | hp <;> exact hp.1.1

/-- After the runtime's joins those children are pending that were not to be joined. -/
theorem joinPending_pending {directOnly : Bool} (h : w.joinPending directOnly = .ok w') :
    w'.self.pending = w.self.pending.filter fun p => !(p.isDirect || !directOnly) := by
  refine joinPending_induction (P := fun v => v.self.pending = _) h rfl ?_
  intro v v' p _ hv hj
  obtain ⟨join, -, hself⟩ := joinChild_companion hj
  rw [hself]
  exact hv

/-- When a member of a team ends, nothing is pending. -/
theorem pending_of_finish {api : ForkApi} (hspawned : w.self.spawnedBy = some api)
    (hmember : api.isTeamMember = true) (h : Runtime.openMp.finish w = .ok w') :
    w'.self.pending = [] := by
  unfold Runtime.finish at h
  rw [hspawned] at h
  dsimp only at h
  rw [if_pos hmember] at h
  rw [joinPending_pending h, List.filter_eq_nil_iff]
  simp

/-! ### Children -/

/-- Starting a child adds a thread, notes it with its parent and makes a fork event. -/
theorem beginFork_spec {v : Walk} {id : NodeId} {target : String} {child : ThreadId}
    (h : w.beginFork id target = .ok (child, v)) :
    child = w.session.threads.size ∧ v.session.arena = w.session.arena ∧
      v.session.threads =
        (w.session.threads.push (Thread.new child target
          (some ⟨w.self.thread, w.self.events.size⟩) (some id))).modify w.self.thread
            (fun t => { t with children := t.children.push child }) ∧
      v.self = w.self.record id (.fork child) := by
  obtain ⟨⟨child', session⟩, hreserve, h⟩ := Except.bind_eq_ok.1 h
  cases h
  simp only [Session.reserve] at hreserve
  split at hreserve
  · cases hreserve
    exact ⟨rfl, rfl, rfl, rfl⟩
  · cases hreserve

/-- When a child has ended, its parent goes on behind the fork event, with one more child that
nobody joined. -/
theorem endFork_spec {v : Walk} {id : NodeId} {target : String} {child : ThreadId}
    (h : w.beginFork id target = .ok (child, v)) (r : Runtime) (api : ForkApi) (handle : Operand)
    (last : Walk) :
    (v.endFork r id api handle last).self.thread = w.self.thread ∧
      (v.endFork r id api handle last).self.events =
        w.self.events.push ⟨w.self.thread, w.self.events.size, id, .fork child⟩ ∧
      (v.endFork r id api handle last).self.skipTo = w.self.skipTo ∧
      (v.endFork r id api handle last).self.unjoined =
        w.self.unjoined ++ [⟨id, last.self.thread, handle⟩] := by
  obtain ⟨-, -, -, hself⟩ := beginFork_spec h
  unfold endFork
  rw [hself]
  exact ⟨rfl, rfl, rfl, rfl⟩

/-- A pending child that another thread started. -/
def indirect (p : Pending) : Pending := { p with isDirect := false }

/-- A parent goes on with what was pending; a task leaves to it what it has pending, and itself. -/
theorem pending_endFork {v last : Walk} {id : NodeId} {target : String} {child : ThreadId}
    {api : ForkApi} (h : w.beginFork id target = .ok (child, v))
    (hspawned : last.self.spawnedBy = some api) (handle : Operand) :
    (v.endFork .openMp id api handle last).self.pending = w.self.pending ++
      if api = .ompTask then
        last.self.pending.map indirect ++ [⟨id, last.self.thread, true⟩]
      else [] := by
  have hpending : v.self.pending = w.self.pending := by
    rw [(beginFork_spec h).2.2.2]
    rfl
  unfold endFork Runtime.orphans Runtime.joins
  rw [hspawned, ← hpending]
  cases api <;> simp [indirect]

/-! ### Steps that succeed -/

/-- Where nothing is skipped, reaching a node changes nothing. -/
theorem reach_of_none (h : w.self.skipTo = none) : w.reach = w := by
  obtain ⟨session, self⟩ := w
  obtain ⟨⟩ := self
  dsimp only at h
  subst h
  rfl

/-- Where nothing is skipped, no node is passed over. -/
theorem isSkipped_of_none (h : w.self.skipTo = none) (node : Node) : w.isSkipped node = false := by
  unfold isSkipped
  rw [h]

/-- A walk goes on from what the runtime does at its first node and what the node does. -/
theorem walk_cons_of_visit {id : NodeId} {rest : List NodeId} {node : Node} {v : Walk}
    (hnode : w.session.arena.get? id = some node) (hpass : w.isSkipped node = false)
    (hvisit : r.visit w.reach node opened.head? rest = .ok (true, v))
    (hhandle : handle c r ancestry opened id node v = .ok w') :
    walk c r ancestry opened (id :: rest) w = walk c r ancestry opened rest w' := by
  rw [walk, Arena.get_eq_ok.2 hnode]
  simp only [bind, Except.bind, hpass, hvisit, hhandle]
  rfl

/-- A walk goes on from what the runtime does at its first node if the runtime takes the node. -/
theorem walk_cons_of_taken {id : NodeId} {rest : List NodeId} {node : Node}
    (hnode : w.session.arena.get? id = some node) (hpass : w.isSkipped node = false)
    (hvisit : r.visit w.reach node opened.head? rest = .ok (false, w')) :
    walk c r ancestry opened (id :: rest) w = walk c r ancestry opened rest w' := by
  rw [walk, Arena.get_eq_ok.2 hnode]
  simp only [bind, Except.bind, hpass, hvisit]
  rfl

/-- A walk passes nodes of a skipped region over. -/
theorem walk_cons_of_skipped {id : NodeId} {rest : List NodeId} {node : Node}
    (hnode : w.session.arena.get? id = some node) (hpass : w.isSkipped node = true) :
    walk c r ancestry opened (id :: rest) w = walk c r ancestry opened rest w := by
  rw [walk, Arena.get_eq_ok.2 hnode]
  simp only [bind, Except.bind, hpass]
  rfl

/-- Without a skipped region, a walk goes on from what its first node does. -/
theorem walk_cons_of_handle {id : NodeId} {rest : List NodeId} {node : Node}
    (hnode : w.session.arena.get? id = some node) (hskip : w.self.skipTo = none)
    (hhandle : handle c .pthread ancestry opened id node w = .ok w') :
    walk c .pthread ancestry opened (id :: rest) w = walk c .pthread ancestry opened rest w' :=
  walk_cons_of_visit hnode (isSkipped_of_none hskip node) rfl ((reach_of_none hskip).symm ▸ hhandle)

/-- A fork of several routines goes on after the first, whether that is passed over or starts a
child, which is walked if it has a body, and then ended. -/
theorem forkAll_cons (c : Subject) (r : Runtime) (ancestry opened : List String) (id : NodeId)
    (api : ForkApi) (operand : Operand) (entry : String) (entries : List String) (w : Walk) :
    forkAll c r ancestry opened id api operand (entry :: entries) w =
      if entry ∈ ancestry ∨ c.settings.maxThreads ≤ w.session.threads.size then
        forkAll c r ancestry opened id api operand entries w
      else (do
        let (child, v) ← w.beginFork id entry
        let inner ←
          if (c.program.definition? entry).isNone then .ok (v.enterChild child api)
          else do
            let (nodes, session) ← (v.enterChild child api).session.summary c entry
            walk c r (entry :: ancestry) [entry] (nodes.getD [])
              { v.enterChild child api with session }
        let last ← inner.finish r
        forkAll c r ancestry opened id api operand entries (v.endFork r id api operand last)) := by
  rw [forkAll]
  by_cases hentry : entry ∈ ancestry
  · rw [dif_pos hentry, if_pos (Or.inl hentry)]
  by_cases hlimit : c.settings.maxThreads ≤ w.session.threads.size
  · rw [dif_neg hentry, if_pos hlimit, if_pos (Or.inr hlimit)]
  rw [dif_neg hentry, if_neg hlimit, if_neg (not_or.2 ⟨hentry, hlimit⟩)]
  congr 1
  funext p
  obtain ⟨child, v⟩ := p
  dsimp only
  split
  · next hdef => rw [if_pos (Option.isNone_iff_eq_none.2 hdef)]
  · next hdef => rw [if_neg (by simp [hdef])]

section

variable {id : NodeId} {api : ForkApi} {operand : Operand} {entry : String} {entries : List String}
  {v : Walk} {child : ThreadId} {nodes : Option (List NodeId)} {session : Session}
  {routine : Routine}

/-- A fork that starts a child without a body ends it and goes on. -/
theorem forkAll_cons_of_none (hentry : entry ∉ ancestry)
    (hlimit : w.session.threads.size < c.settings.maxThreads)
    (hbegin : w.beginFork id entry = .ok (child, v))
    (hdef : c.program.definition? entry = none) :
    forkAll c r ancestry opened id api operand (entry :: entries) w =
      (v.enterChild child api).finish r >>= fun last =>
        forkAll c r ancestry opened id api operand entries (v.endFork r id api operand last) := by
  rw [forkAll_cons, if_neg (not_or.2 ⟨hentry, Nat.not_le.2 hlimit⟩), hbegin]
  simp only [bind, Except.bind]
  rw [if_pos (by simp [hdef])]

/-- A fork that starts a child with a body walks it, ends it and goes on. -/
theorem forkAll_cons_of_begin (hentry : entry ∉ ancestry)
    (hlimit : w.session.threads.size < c.settings.maxThreads)
    (hbegin : w.beginFork id entry = .ok (child, v))
    (hdef : c.program.definition? entry = some routine)
    (hsummary : v.session.summary c entry = .ok (nodes, session)) :
    forkAll c r ancestry opened id api operand (entry :: entries) w =
      walk c r (entry :: ancestry) [entry] (nodes.getD [])
        { v.enterChild child api with session } >>= fun inner => inner.finish r >>= fun last =>
          forkAll c r ancestry opened id api operand entries (v.endFork r id api operand last) := by
  have hsummary' : (v.enterChild child api).session.summary c entry = .ok (nodes, session) :=
    hsummary
  rw [forkAll_cons, if_neg (not_or.2 ⟨hentry, Nat.not_le.2 hlimit⟩), hbegin]
  simp only [bind, Except.bind]
  rw [if_neg (by simp [hdef]), hsummary']

/-- A fork of a routine with a body goes on when the walk of the child has ended. -/
theorem forkAll_cons_of_walk {inner last : Walk} (hentry : entry ∉ ancestry)
    (hlimit : w.session.threads.size < c.settings.maxThreads)
    (hbegin : w.beginFork id entry = .ok (child, v))
    (hdef : c.program.definition? entry = some routine)
    (hsummary : v.session.summary c entry = .ok (nodes, session))
    (hwalk : walk c r (entry :: ancestry) [entry] (nodes.getD [])
      ⟨session, Walker.start child (some api)⟩ = .ok inner)
    (hfinish : inner.finish r = .ok last) :
    forkAll c r ancestry opened id api operand (entry :: entries) w =
      forkAll c r ancestry opened id api operand entries (v.endFork r id api operand last) := by
  have hwalk' : walk c r (entry :: ancestry) [entry] (nodes.getD [])
      { v.enterChild child api with session } = .ok inner := hwalk
  rw [forkAll_cons_of_begin hentry hlimit hbegin hdef hsummary, hwalk']
  simp only [bind, Except.bind]
  rw [hfinish]

end

/-- A call of several routines goes on after the first, whether that has no body, is open already,
is passed over as repeated or is walked. -/
theorem callAll_cons (c : Subject) (r : Runtime) (ancestry opened : List String) (id : NodeId)
    (args : List Operand) (target : String) (targets : List String) (w : Walk) :
    callAll c r ancestry opened id args (target :: targets) w = (do
      let (nodes, session) ← w.session.summary c target
      let w : Walk := { w with session }
      if (c.program.definition? target).isNone ∨ target ∈ opened then
        callAll c r ancestry opened id args targets w
      else do
        let (repeated, w) ← w.isRepeated c target args
        if repeated then callAll c r ancestry opened id args targets w
        else do
          let w ← walk c r ancestry (target :: opened) (nodes.getD []) (w.record id .call)
          callAll c r ancestry opened id args targets (w.record id .return)) := by
  rw [callAll]
  congr 1
  funext p
  obtain ⟨nodes, session⟩ := p
  dsimp only
  split
  · next hdef => rw [if_pos (Or.inl (Option.isNone_iff_eq_none.2 hdef))]
  · next hdef =>
    split
    · next hopen => rw [if_pos (Or.inr hopen)]
    · next hopen => rw [if_neg (by simp [hdef, hopen])]

/-- A call of several routines goes past the first if that has no body or is open already. -/
theorem callAll_cons_of_pass {id : NodeId} {args : List Operand} {target : String}
    {targets : List String} {nodes : Option (List NodeId)} {session : Session}
    (hsummary : w.session.summary c target = .ok (nodes, session))
    (hpass : c.program.definition? target = none ∨ target ∈ opened) :
    callAll c r ancestry opened id args (target :: targets) w =
      callAll c r ancestry opened id args targets { w with session } := by
  rw [callAll_cons, hsummary]
  exact if_pos (hpass.imp_left Option.isNone_iff_eq_none.2)

/-- A call of several routines goes past the first, or walks that, when it is known whether the
call is repeated. -/
theorem callAll_cons_of_repeated {id : NodeId} {args : List Operand} {target : String}
    {targets : List String} {nodes : Option (List NodeId)} {session : Session} {routine : Routine}
    {repeated : Bool} {v : Walk} (hsummary : w.session.summary c target = .ok (nodes, session))
    (hdef : c.program.definition? target = some routine) (hopen : target ∉ opened)
    (hrepeated : isRepeated c { w with session } target args = .ok (repeated, v)) :
    callAll c r ancestry opened id args (target :: targets) w =
      if repeated then callAll c r ancestry opened id args targets v
      else (v.record id .call).walk c r ancestry (target :: opened) (nodes.getD []) >>= fun u =>
        callAll c r ancestry opened id args targets (u.record id .return) := by
  rw [callAll_cons, hsummary]
  refine (if_neg (by simp [hdef, hopen])).trans ?_
  rw [hrepeated]
  rfl

end Walk

/-! ### Building a trace -/

namespace Trace

variable {c : Subject} {r : Runtime}

/-- The main thread is walked on its own, from the nodes of its routine, and then ended. -/
theorem walkMain_ok {entry : String} {s : Session} (h : walkMain c r entry = .ok s) :
    ∃ nodes session inner last,
      Session.summary c { Session.empty with threads := #[Thread.new 0 entry none none] } entry =
        .ok (nodes, session) ∧
      Walk.walk c r [entry] [entry] (nodes.getD []) ⟨session, Walker.start 0 none⟩ = .ok inner ∧
      r.finish inner = .ok last ∧ s = last.close.session := by
  obtain ⟨⟨main, s₀⟩, hreserve, h⟩ := Except.bind_eq_ok.1 h
  obtain ⟨⟨nodes, session⟩, hsummary, h⟩ := Except.bind_eq_ok.1 h
  obtain ⟨inner, hwalk, h⟩ := Except.bind_eq_ok.1 h
  obtain ⟨ended, hended, h⟩ := Except.bind_eq_ok.1 h
  cases h
  cases hreserve
  obtain ⟨last, hlast, rfl⟩ := Walk.finish_eq_ok.1 hended
  exact ⟨nodes, session, inner, last, hsummary, hwalk, hlast, rfl⟩

/-- A trace that is built holds the session of the main walk; the entry routine has a body. -/
theorem build_ok {t : Trace} (h : build c = .ok t) :
    ∃ q s, c.program.definition? c.settings.entry = some q ∧
      walkMain c (Runtime.ofProgram c.program c.settings.runtime) c.settings.entry = .ok s ∧
      t = ⟨s.threads, s.arena, c.program, c.pointsTo⟩ := by
  rw [build] at h
  split at h
  · cases h
  · next q hq =>
    split at h
    · cases h
    · next hbody =>
      split at h
      · cases h
      · next s hs =>
        cases h
        refine ⟨q, s, ?_, hs, rfl⟩
        rw [Program.definition?, hq]
        simpa using hbody

end Trace

/-! ### A program with a child -/

namespace ForkJoin

/-- Starts a child, stores while it may run, and joins it. -/
def main : Routine where
  name := "main"
  body :=
    [⟨⟨0⟩, .call (.direct "pthread_create") [.value ⟨0⟩, .null, .routine "worker"], none⟩,
      ⟨⟨1⟩, .store ⟨1⟩ false, none⟩,
      ⟨⟨2⟩, .call (.direct "pthread_join") [.value ⟨0⟩, .null], none⟩]

/-- Frees what is stored to. -/
def worker : Routine := ⟨"worker", [⟨⟨3⟩, .call (.direct "free") [.value ⟨1⟩], none⟩]⟩

/-- The program of both routines.  The pointer may point to two objects. -/
def subject : Subject where
  program := .index "forkjoin" [main, worker]
  pointsTo := ⟨#["x", "y"], [(1, [⟨0⟩, ⟨1⟩])], []⟩
  settings := { Settings.default with runtime := .pthread }
  chain := [.pthread, .libc]

/-- The nodes of the main routine. -/
def mainNodes : Array Node :=
  #[⟨⟨⟨0⟩, none⟩, .fork .pthreadCreate (.value ⟨0⟩) (.direct "worker")⟩,
    ⟨⟨⟨1⟩, none⟩, .write .store ⟨1⟩ false⟩,
    ⟨⟨⟨2⟩, none⟩, .join .pthreadJoin (.value ⟨0⟩) none⟩]

/-- All nodes. -/
def nodes : Array Node := mainNodes.push ⟨⟨⟨3⟩, none⟩, .free .free ⟨1⟩⟩

/-- The main thread and the child, with the events of neither or of the child. -/
def threads (childEvents : Array Event) : Array Thread :=
  #[⟨0, "main", none, none, #[], #[1]⟩, ⟨1, "worker", some ⟨0, 0⟩, some 0, childEvents, #[]⟩]

/-- What was looked up before the child starts. -/
def early : Std.HashMap String (List NodeId) := Std.HashMap.insert ∅ "main" [0, 1, 2]

/-- What was looked up in the end. -/
def late : Std.HashMap String (List NodeId) := early.insert "worker" [3]

/-- The trace of the program. -/
def trace : Trace where
  threads :=
    #[⟨0, "main", none, none,
        #[⟨0, 0, 0, .fork 1⟩, ⟨0, 1, 1, .write⟩, ⟨0, 2, 2, .join (some 1)⟩], #[1]⟩,
      ⟨1, "worker", some ⟨0, 0⟩, some 0, #[⟨1, 0, 3, .free⟩], #[]⟩]
  arena := ⟨nodes⟩
  program := subject.program
  pointsTo := subject.pointsTo

/-- Both routines are found. -/
theorem routine_eq :
    subject.program.routine? "main" = some main ∧
      subject.program.routine? "worker" = some worker := by
  simp [subject, Program.routine?, Program.index, Std.HashMap.getElem_insert, main, worker]

/-- The nodes of the main routine are made at the first question. -/
theorem summary_main :
    Session.summary subject ⟨.empty, ∅, ∅, #[Thread.new 0 "main" none none]⟩ "main" =
      .ok (some [0, 1, 2], ⟨⟨mainNodes⟩, early, ∅, #[Thread.new 0 "main" none none]⟩) := by
  have hdef : subject.program.definition? "main" = some main := by
    rw [Program.definition?, routine_eq.1]
    rfl
  rw [Session.summary, Std.HashMap.getElem?_empty, hdef]
  rfl

/-- The nodes of the child are made behind them. -/
theorem summary_worker :
    Session.summary subject ⟨⟨mainNodes⟩, early, ∅, threads #[]⟩ "worker" =
      .ok (some [3], ⟨⟨nodes⟩, late, ∅, threads #[]⟩) := by
  have hdef : subject.program.definition? "worker" = some worker := by
    rw [Program.definition?, routine_eq.2]
    rfl
  have hnew : early["worker"]? = none := by simp [early]
  rw [Session.summary, hnew, hdef]
  rfl

/-- The child frees. -/
theorem walk_worker :
    Walk.walk subject .pthread ["worker", "main"] ["worker"] [3]
        ⟨⟨⟨nodes⟩, late, ∅, threads #[]⟩, Walker.start 1 (some .pthreadCreate)⟩ =
      .ok ⟨⟨⟨nodes⟩, late, ∅, threads #[]⟩,
        ⟨1, some .pthreadCreate, #[⟨1, 0, 3, .free⟩], none, [], [], [], []⟩⟩ := by
  rw [Walk.walk_cons_of_handle rfl rfl (by rw [Walk.handle]; rfl), Walk.walk]
  rfl

/-- The main thread starts the child, stores and joins. -/
theorem walk_main :
    Walk.walk subject .pthread ["main"] ["main"] [0, 1, 2]
        ⟨⟨⟨mainNodes⟩, early, ∅, #[Thread.new 0 "main" none none]⟩, Walker.start 0 none⟩ =
      .ok ⟨⟨⟨nodes⟩, late, ∅, threads #[⟨1, 0, 3, .free⟩]⟩,
        ⟨0, none, #[⟨0, 0, 0, .fork 1⟩, ⟨0, 1, 1, .write⟩, ⟨0, 2, 2, .join (some 1)⟩],
          none, [], [0], [], []⟩⟩ := by
  have hdef : subject.program.definition? "worker" = some worker := by
    rw [Program.definition?, routine_eq.2]
    rfl
  have hfork : Walk.handle subject .pthread ["main"] ["main"] 0
      ⟨⟨⟨0⟩, none⟩, .fork .pthreadCreate (.value ⟨0⟩) (.direct "worker")⟩
      ⟨⟨⟨mainNodes⟩, early, ∅, #[Thread.new 0 "main" none none]⟩, Walker.start 0 none⟩ =
        .ok ⟨⟨⟨nodes⟩, late, ∅, threads #[⟨1, 0, 3, .free⟩]⟩,
          ⟨0, none, #[⟨0, 0, 0, .fork 1⟩], none, [⟨0, 1, .value ⟨0⟩⟩], [0], [], []⟩⟩ := by
    rw [Walk.handle]
    dsimp only
    rw [show subject.entryTargets (.direct "worker") = ["worker"] from rfl,
      Walk.forkAll_cons_of_walk (by decide) (by decide)
        (v := ⟨⟨⟨mainNodes⟩, early, ∅, threads #[]⟩,
          ⟨0, none, #[⟨0, 0, 0, .fork 1⟩], none, [], [0], [], []⟩⟩)
        rfl hdef summary_worker walk_worker rfl, Walk.forkAll]
    rfl
  rw [Walk.walk_cons_of_handle rfl rfl hfork,
    Walk.walk_cons_of_handle rfl rfl (by rw [Walk.handle]; rfl),
    Walk.walk_cons_of_handle rfl rfl (by rw [Walk.handle]; rfl), Walk.walk]
  rfl

/-- The program has its trace. -/
theorem build_eq : Trace.build subject = .ok trace := by
  have hentry : subject.settings.entry = "main" := rfl
  have hruntime : Runtime.ofProgram subject.program subject.settings.runtime = .pthread := rfl
  have hwalk : Trace.walkMain subject .pthread "main" = .ok ⟨⟨nodes⟩, late, ∅, trace.threads⟩ :=
    Except.bind_eq_ok.2 ⟨_, rfl, Except.bind_eq_ok.2 ⟨_, summary_main,
      Except.bind_eq_ok.2 ⟨_, walk_main, rfl⟩⟩⟩
  rw [Trace.build, hentry, hruntime]
  rw [routine_eq.1, hwalk]
  rfl

end ForkJoin

/-! ### A program with a team and a task -/

namespace TeamTask

/-- Starts the team. -/
def forkCall : Instruction :=
  ⟨⟨0⟩, .call (.direct "__kmpc_fork_call") [.null, .null, .routine "body"], none⟩

/-- Allocates the task. -/
def allocCall : Instruction :=
  ⟨⟨1⟩, .call (.direct "__kmpc_omp_task_alloc")
    [.null, .null, .null, .null, .null, .routine "task"], none⟩

/-- Begins the region of the master. -/
def masterCall : Instruction := ⟨⟨2⟩, .call (.direct "__kmpc_master") [], none⟩

/-- Starts the task. -/
def taskCall : Instruction :=
  ⟨⟨3⟩, .call (.direct "__kmpc_omp_task") [.null, .null, .result ⟨1⟩], none⟩

/-- Ends the region of the master. -/
def endMasterCall : Instruction := ⟨⟨4⟩, .call (.direct "__kmpc_end_master") [], none⟩

/-- Meets the team. -/
def barrierCall : Instruction := ⟨⟨5⟩, .call (.direct "__kmpc_barrier") [], none⟩

/-- Starts a team. -/
def main : Routine := ⟨"main", [forkCall]⟩

/-- The master starts a task, then all members meet. -/
def body : Routine := ⟨"body", [allocCall, masterCall, taskCall, endMasterCall, barrierCall]⟩

/-- Stores. -/
def task : Routine := ⟨"task", [⟨⟨6⟩, .store ⟨1⟩ false, none⟩]⟩

/-- The program of all routines. -/
def subject : Subject where
  program := .index "teamtask" [main, body, task]
  pointsTo := ⟨#["x"], [(1, [⟨0⟩])], []⟩
  settings := { Settings.default with runtime := .openMp }
  chain := [.openMp]

/-- The nodes of the main routine. -/
def mainNodes : Array Node :=
  #[⟨⟨⟨0⟩, none⟩, .fork (.ompFork true) .null (.direct "body")⟩,
    ⟨⟨⟨0⟩, none⟩, .fork (.ompFork false) .null (.direct "body")⟩,
    ⟨⟨⟨0⟩, none⟩, .join .companion .null (some 0)⟩,
    ⟨⟨⟨0⟩, none⟩, .join .companion .null (some 1)⟩]

/-- The nodes of the main routine and the body. -/
def bodyNodes : Array Node := mainNodes ++
  #[⟨⟨⟨2⟩, none⟩, .call .ompMaster (.direct "__kmpc_master") []⟩,
    ⟨⟨⟨3⟩, none⟩, .fork .ompTask (.routine "task") (.direct "task")⟩,
    ⟨⟨⟨4⟩, none⟩, .call .ompEndMaster (.direct "__kmpc_end_master") []⟩,
    ⟨⟨⟨5⟩, none⟩, .barrier .ompBarrier⟩]

/-- The nodes of all routines. -/
def taskNodes : Array Node := bodyNodes.push ⟨⟨⟨6⟩, none⟩, .write .store ⟨1⟩ false⟩

/-- All nodes, with the companion join of the task. -/
def nodes : Array Node :=
  taskNodes.push ⟨⟨⟨3⟩, none⟩, .join .companion (.routine "task") (some 5)⟩

/-- The main thread, the master and the task, with the events of the latter two. -/
def threads (masterEvents taskEvents : Array Event) : Array Thread :=
  #[⟨0, "main", none, none, #[], #[1]⟩,
    ⟨1, "body", some ⟨0, 0⟩, some 0, masterEvents, #[2]⟩,
    ⟨2, "task", some ⟨1, 0⟩, some 5, taskEvents, #[]⟩]

/-- The events of the master. -/
def masterEvents : Array Event :=
  #[⟨1, 0, 5, .fork 2⟩, ⟨1, 1, 9, .join (some 2)⟩, ⟨1, 2, 7, .barrier⟩]

/-- The events of the main thread. -/
def mainEvents : Array Event :=
  #[⟨0, 0, 0, .fork 1⟩, ⟨0, 1, 1, .fork 3⟩, ⟨0, 2, 2, .join (some 1)⟩, ⟨0, 3, 3, .join (some 3)⟩]

/-- All threads, with the events of the main thread and of the other member. -/
def allThreads (mainEvents workerEvents : Array Event) : Array Thread :=
  #[⟨0, "main", none, none, mainEvents, #[1, 3]⟩,
    ⟨1, "body", some ⟨0, 0⟩, some 0, masterEvents, #[2]⟩,
    ⟨2, "task", some ⟨1, 0⟩, some 5, #[⟨2, 0, 8, .write⟩], #[]⟩,
    ⟨3, "body", some ⟨0, 1⟩, some 1, workerEvents, #[]⟩]

/-- The trace of the program. -/
def trace : Trace where
  threads := allThreads mainEvents #[⟨3, 0, 7, .barrier⟩]
  arena := ⟨nodes⟩
  program := subject.program
  pointsTo := subject.pointsTo

/-- What was looked up before the team starts. -/
def early : Std.HashMap String (List NodeId) := Std.HashMap.insert ∅ "main" [0, 1, 2, 3]

/-- What was looked up before the task starts. -/
def middle : Std.HashMap String (List NodeId) := early.insert "body" [4, 5, 6, 7]

/-- What was looked up in the end. -/
def late : Std.HashMap String (List NodeId) := middle.insert "task" [8]

/-- All routines are found. -/
theorem definition?_eq :
    subject.program.definition? "main" = some main ∧
      subject.program.definition? "body" = some body ∧
      subject.program.definition? "task" = some task := by
  simp [subject, Program.definition?, Program.routine?, Program.index, Std.HashMap.getElem_insert,
    main, body, task, Option.filter, Routine.isDeclaration]

/-- The allocation of the task is found. -/
theorem instruction?_eq : subject.program.instruction? ⟨1⟩ = some allocCall := by
  simp [subject, Program.instruction?, Program.index, Std.HashMap.getElem_insert, main, body, task,
    forkCall, allocCall, masterCall, taskCall, endMasterCall, barrierCall]

/-- The companion joins of the team are made behind its forks. -/
theorem classify_forkCall :
    Draft.classify subject.program subject.settings subject.chain ⟨.empty, []⟩ forkCall =
      .ok ⟨⟨mainNodes⟩, [0, 1, 2, 3]⟩ := by
  have hfirst : Arena.companionJoin ⟨mainNodes.pop.pop⟩ 0 = .ok (2, ⟨mainNodes.pop⟩) := by
    rw [Arena.companionJoin, Arena.companion?_eq]
    rfl
  have hsecond : Arena.companionJoin ⟨mainNodes.pop⟩ 1 = .ok (3, ⟨mainNodes⟩) := by
    rw [Arena.companionJoin, Arena.companion?_eq]
    rfl
  have hteam :
      Draft.classify subject.program subject.settings subject.chain ⟨.empty, []⟩ forkCall =
        [0, 1].foldlM Draft.emitCompanion ⟨⟨mainNodes.pop.pop⟩, [0, 1]⟩ := rfl
  rw [hteam]
  simp only [List.foldlM_cons, List.foldlM_nil, Draft.emitCompanion, bind, Except.bind, hfirst,
    hsecond]
  rfl

/-- The task call starts the routine of the allocation. -/
theorem taskEntry_eq : taskEntry subject.program taskCall = .ok (.direct "task") := by
  simp only [taskEntry, taskCall, Instruction.args, taskOperand, List.getElem?_cons_succ,
    List.getElem?_cons_zero, bind, Except.bind, instruction?_eq]
  rfl

/-- The nodes of the body are made behind those of the main routine. -/
theorem classifyAll_body :
    Draft.classifyAll subject.program subject.settings subject.chain ⟨⟨mainNodes⟩, []⟩ body.body =
      .ok ⟨⟨bodyNodes⟩, [4, 5, 6, 7]⟩ := by
  have htask : ∀ d, Draft.classify subject.program subject.settings subject.chain d taskCall =
      .ok (d.emit ⟨⟨⟨3⟩, none⟩, .fork .ompTask (.routine "task") (.direct "task")⟩) := by
    intro d
    show Meaning.emit subject.program subject.settings taskCall d .task = _
    simp only [Meaning.emit, taskEntry_eq, bind, Except.bind]
    rfl
  have hopenMp : Meaning.openMp? "__kmpc_omp_task_alloc" = some .nothing := by
    have hstarts : "__kmpc_omp_task_alloc".startsWith "__kmpc_" = true := by decide +kernel
    unfold Meaning.openMp?
    split
    case h_20 =>
      rw [hstarts]
      rfl
    all_goals contradiction
  have hmeaning : subject.chain.meaning? "__kmpc_omp_task_alloc" = some .nothing := by
    simp only [subject, Chain.meaning?, List.findSome?_cons, Interface.meaning?, hopenMp]
  have halloc : Draft.classify subject.program subject.settings subject.chain ⟨⟨mainNodes⟩, []⟩
      allocCall = .ok ⟨⟨mainNodes⟩, []⟩ := by
    simp only [Draft.classify, allocCall, Callee.name?, Option.bind_eq_bind, Option.bind_some,
      hmeaning, Meaning.emit]
  have hmaster : Draft.classify subject.program subject.settings subject.chain ⟨⟨mainNodes⟩, []⟩
      masterCall = .ok ⟨⟨bodyNodes.pop.pop.pop⟩, [4]⟩ := rfl
  exact Except.bind_eq_ok.2 ⟨_, halloc, Except.bind_eq_ok.2 ⟨_, hmaster,
    Except.bind_eq_ok.2 ⟨_, htask _, rfl⟩⟩⟩

/-- The nodes of the main routine are made at the first question. -/
theorem summary_main :
    Session.summary subject ⟨.empty, ∅, ∅, #[Thread.new 0 "main" none none]⟩ "main" =
      .ok (some [0, 1, 2, 3], ⟨⟨mainNodes⟩, early, ∅, #[Thread.new 0 "main" none none]⟩) := by
  have hclassify : Draft.classifyAll subject.program subject.settings subject.chain ⟨.empty, []⟩
      main.body = .ok ⟨⟨mainNodes⟩, [0, 1, 2, 3]⟩ :=
    Except.bind_eq_ok.2 ⟨_, classify_forkCall, rfl⟩
  rw [Session.summary, Std.HashMap.getElem?_empty, definition?_eq.1]
  exact Except.bind_eq_ok.2 ⟨_, hclassify, rfl⟩

/-- The nodes of the body are made when the master starts. -/
theorem summary_body (ths : Array Thread) :
    Session.summary subject ⟨⟨mainNodes⟩, early, ∅, ths⟩ "body" =
      .ok (some [4, 5, 6, 7], ⟨⟨bodyNodes⟩, middle, ∅, ths⟩) := by
  have hnew : early["body"]? = none := by simp [early]
  rw [Session.summary, hnew, definition?_eq.2.1]
  exact Except.bind_eq_ok.2 ⟨_, classifyAll_body, rfl⟩

/-- They are known when the other member starts. -/
theorem summary_again (ths : Array Thread) :
    Session.summary subject ⟨⟨nodes⟩, late, ∅, ths⟩ "body" =
      .ok (some [4, 5, 6, 7], ⟨⟨nodes⟩, late, ∅, ths⟩) := by
  have hknown : late["body"]? = some [4, 5, 6, 7] := by
    simp [late, middle, Std.HashMap.getElem_insert]
  rw [Session.summary, hknown]

/-- The nodes of the task are made when it starts. -/
theorem summary_task (ths : Array Thread) :
    Session.summary subject ⟨⟨bodyNodes⟩, middle, ∅, ths⟩ "task" =
      .ok (some [8], ⟨⟨taskNodes⟩, late, ∅, ths⟩) := by
  have hnew : middle["task"]? = none := by simp [middle, early]
  rw [Session.summary, hnew, definition?_eq.2.2]
  rfl

/-- The task stores. -/
theorem walk_task :
    Walk.walk subject .openMp ["task", "body", "main"] ["task"] [8]
        ⟨⟨⟨taskNodes⟩, late, ∅, threads #[] #[]⟩, Walker.start 2 (some .ompTask)⟩ =
      .ok ⟨⟨⟨taskNodes⟩, late, ∅, threads #[] #[]⟩,
        ⟨2, some .ompTask, #[⟨2, 0, 8, .write⟩], none, [], [], [], []⟩⟩ := by
  rw [Walk.walk_cons_of_visit rfl rfl rfl (by rw [Walk.handle]; rfl), Walk.walk]
  rfl

/-- The threads before the task starts. -/
def teamThreads : Array Thread :=
  #[⟨0, "main", none, none, #[], #[1]⟩, ⟨1, "body", some ⟨0, 0⟩, some 0, #[], #[]⟩]

/-- The master after it started the task. -/
def forked : Walker :=
  ⟨1, some (.ompFork true), #[⟨1, 0, 5, .fork 2⟩], none, [⟨5, 2, .routine "task"⟩], [5], [],
    [⟨5, 2, true⟩]⟩

/-- The master after the task was joined. -/
def joined : Walker :=
  ⟨1, some (.ompFork true), #[⟨1, 0, 5, .fork 2⟩, ⟨1, 1, 9, .join (some 2)⟩], none, [], [5], [], []⟩

/-- The master starts the task. -/
theorem handle_task :
    Walk.handle subject .openMp ["body", "main"] ["body"] 5
        ⟨⟨⟨3⟩, none⟩, .fork .ompTask (.routine "task") (.direct "task")⟩
        ⟨⟨⟨bodyNodes⟩, middle, ∅, teamThreads⟩, Walker.start 1 (some (.ompFork true))⟩ =
      .ok ⟨⟨⟨taskNodes⟩, late, ∅, threads #[] #[⟨2, 0, 8, .write⟩]⟩, forked⟩ := by
  rw [Walk.handle]
  dsimp only
  rw [show subject.entryTargets (.direct "task") = ["task"] from rfl,
    Walk.forkAll_cons_of_walk (by decide) (by decide)
      (v := ⟨⟨⟨bodyNodes⟩, middle, ∅, threads #[] #[]⟩,
        ⟨1, some (.ompFork true), #[⟨1, 0, 5, .fork 2⟩], none, [], [5], [], []⟩⟩)
      rfl definition?_eq.2.2 (summary_task _) walk_task rfl, Walk.forkAll]
  rfl

/-- At the barrier the task is joined. -/
theorem joinPending_task (ths : Array Thread) :
    Walk.joinPending ⟨⟨⟨taskNodes⟩, late, ∅, ths⟩, forked⟩ false =
      .ok ⟨⟨⟨nodes⟩, late, ∅, ths⟩, joined⟩ := by
  have hcompanion : Arena.companionJoin ⟨taskNodes⟩ 5 = .ok (9, ⟨nodes⟩) := by
    rw [Arena.companionJoin, Arena.companion?_eq]
    rfl
  exact Except.bind_eq_ok.2 ⟨_, Except.bind_eq_ok.2 ⟨_, hcompanion, rfl⟩, rfl⟩

/-- The master starts the task and meets the team. -/
theorem walk_master :
    Walk.walk subject .openMp ["body", "main"] ["body"] [4, 5, 6, 7]
        ⟨⟨⟨bodyNodes⟩, middle, ∅, teamThreads⟩, Walker.start 1 (some (.ompFork true))⟩ =
      .ok ⟨⟨⟨nodes⟩, late, ∅, threads #[] #[⟨2, 0, 8, .write⟩]⟩,
        { joined with events := masterEvents }⟩ := by
  have hvisit : Runtime.openMp.visit
      ⟨⟨⟨taskNodes⟩, late, ∅, threads #[] #[⟨2, 0, 8, .write⟩]⟩, forked⟩
      ⟨⟨⟨5⟩, none⟩, .barrier .ompBarrier⟩ (some "body") [] =
        .ok (true, ⟨⟨⟨nodes⟩, late, ∅, threads #[] #[⟨2, 0, 8, .write⟩]⟩, joined⟩) :=
    Except.bind_eq_ok.2 ⟨_, joinPending_task _, rfl⟩
  rw [Walk.walk_cons_of_taken rfl rfl rfl, Walk.walk_cons_of_visit rfl rfl rfl handle_task,
    Walk.walk_cons_of_taken rfl rfl rfl,
    Walk.walk_cons_of_visit rfl rfl hvisit (by rw [Walk.handle]; rfl), Walk.walk]
  rfl

/-- The other member passes the region of the master over and meets the team. -/
theorem walk_worker :
    Walk.walk subject .openMp ["body", "main"] ["body"] [4, 5, 6, 7]
        ⟨⟨⟨nodes⟩, late, ∅, allThreads #[] #[]⟩, Walker.start 3 (some (.ompFork false))⟩ =
      .ok ⟨⟨⟨nodes⟩, late, ∅, allThreads #[] #[]⟩,
        ⟨3, some (.ompFork false), #[⟨3, 0, 7, .barrier⟩], none, [], [], [], []⟩⟩ := by
  rw [Walk.walk_cons_of_taken rfl rfl rfl, Walk.walk_cons_of_skipped rfl rfl,
    Walk.walk_cons_of_taken rfl rfl rfl,
    Walk.walk_cons_of_visit rfl rfl rfl (by rw [Walk.handle]; rfl), Walk.walk]
  rfl

/-- The main thread after the master ended. -/
def half : Walker :=
  ⟨0, none, #[⟨0, 0, 0, .fork 1⟩], none, [⟨0, 1, .null⟩], [0], [], []⟩

/-- The main thread after the team ended. -/
def full : Walker :=
  ⟨0, none, #[⟨0, 0, 0, .fork 1⟩, ⟨0, 1, 1, .fork 3⟩], none, [⟨0, 1, .null⟩, ⟨1, 3, .null⟩],
    [1, 0], [], []⟩

/-- The main thread starts the master. -/
theorem handle_master :
    Walk.handle subject .openMp ["main"] ["main"] 0
        ⟨⟨⟨0⟩, none⟩, .fork (.ompFork true) .null (.direct "body")⟩
        ⟨⟨⟨mainNodes⟩, early, ∅, #[Thread.new 0 "main" none none]⟩, Walker.start 0 none⟩ =
      .ok ⟨⟨⟨nodes⟩, late, ∅, threads masterEvents #[⟨2, 0, 8, .write⟩]⟩, half⟩ := by
  rw [Walk.handle]
  dsimp only
  rw [show subject.entryTargets (.direct "body") = ["body"] from rfl,
    Walk.forkAll_cons_of_walk (by decide) (by decide)
      (v := ⟨⟨⟨mainNodes⟩, early, ∅, teamThreads⟩,
        ⟨0, none, #[⟨0, 0, 0, .fork 1⟩], none, [], [0], [], []⟩⟩)
      rfl definition?_eq.2.1 (summary_body _) walk_master rfl, Walk.forkAll]
  rfl

/-- The main thread starts the other member. -/
theorem handle_worker :
    Walk.handle subject .openMp ["main"] ["main"] 1
        ⟨⟨⟨0⟩, none⟩, .fork (.ompFork false) .null (.direct "body")⟩
        ⟨⟨⟨nodes⟩, late, ∅, threads masterEvents #[⟨2, 0, 8, .write⟩]⟩, half⟩ =
      .ok ⟨⟨⟨nodes⟩, late, ∅, allThreads #[] #[⟨3, 0, 7, .barrier⟩]⟩, full⟩ := by
  rw [Walk.handle]
  dsimp only
  rw [show subject.entryTargets (.direct "body") = ["body"] from rfl,
    Walk.forkAll_cons_of_walk (by decide) (by decide)
      (v := ⟨⟨⟨nodes⟩, late, ∅, allThreads #[] #[]⟩, { full with unjoined := [⟨0, 1, .null⟩] }⟩)
      rfl definition?_eq.2.1 (summary_again _) walk_worker rfl, Walk.forkAll]
  rfl

/-- The main thread starts the team and joins it. -/
theorem walk_main :
    Walk.walk subject .openMp ["main"] ["main"] [0, 1, 2, 3]
        ⟨⟨⟨mainNodes⟩, early, ∅, #[Thread.new 0 "main" none none]⟩, Walker.start 0 none⟩ =
      .ok ⟨⟨⟨nodes⟩, late, ∅, allThreads #[] #[⟨3, 0, 7, .barrier⟩]⟩,
        ⟨0, none, mainEvents, none, [], [1, 0], [], []⟩⟩ := by
  rw [Walk.walk_cons_of_visit rfl rfl rfl handle_master,
    Walk.walk_cons_of_visit rfl rfl rfl handle_worker,
    Walk.walk_cons_of_visit rfl rfl rfl (by rw [Walk.handle]; rfl),
    Walk.walk_cons_of_visit rfl rfl rfl (by rw [Walk.handle]; rfl), Walk.walk]
  rfl

/-- The program has its trace. -/
theorem build_eq : Trace.build subject = .ok trace := by
  have hmain : subject.program.routine? "main" = some main := by
    have hdef := definition?_eq.1
    rw [Program.definition?, Option.filter_eq_some_iff] at hdef
    exact hdef.1
  have hentry : subject.settings.entry = "main" := rfl
  have hruntime : Runtime.ofProgram subject.program subject.settings.runtime = .openMp := rfl
  have hwalk : Trace.walkMain subject .openMp "main" = .ok ⟨⟨nodes⟩, late, ∅, trace.threads⟩ :=
    Except.bind_eq_ok.2 ⟨_, rfl, Except.bind_eq_ok.2 ⟨_, summary_main,
      Except.bind_eq_ok.2 ⟨_, walk_main, rfl⟩⟩⟩
  rw [Trace.build, hentry, hruntime, hmain, hwalk]
  rfl

end TeamTask

/-! ### A program with two calls -/

namespace Twice

/-- Calls a routine two times. -/
def main : Routine where
  name := "main"
  body := [⟨⟨0⟩, .call (.direct "fill") [], none⟩, ⟨⟨1⟩, .call (.direct "fill") [], none⟩]

/-- Stores. -/
def fill : Routine := ⟨"fill", [⟨⟨2⟩, .store ⟨0⟩ false, none⟩]⟩

/-- The program of both routines. -/
def program : Program := .index "twice" [main, fill]

/-- The value of the store is known to point to an object. -/
def pointsTo : PointsTo := ⟨#["x"], [(0, [⟨0⟩])], []⟩

/-- The program is run without a runtime of its own. -/
def settings : Settings := { Settings.default with runtime := .pthread }

/-- Its calls are deduplicated or all expanded. -/
def subject (dedup : Bool) : Subject :=
  ⟨program, pointsTo, { settings with dedupCalls := dedup }, Interface.standard⟩

/-- The node of a call. -/
def call (id : Nat) : Node := ⟨⟨⟨id⟩, none⟩, .call .plain (.direct "fill") []⟩

/-- The node of the store. -/
def store : Node := ⟨⟨⟨2⟩, none⟩, .write .store ⟨0⟩ false⟩

/-- The main thread before it has events. -/
def threads : Array Thread := #[Thread.new 0 "main" none none]

/-- What was looked up before the first call. -/
def early : Session := ⟨⟨#[call 0, call 1]⟩, Std.HashMap.insert ∅ "main" [0, 1], ∅, threads⟩

/-- What is looked up from the first call on, with answers about effects. -/
def late (effects : Std.HashMap String Bool) : Session :=
  ⟨⟨#[call 0, call 1, store]⟩, early.summaries.insert "fill" [2], effects, threads⟩

/-- The answer about the routine that is called. -/
def answers : Std.HashMap String Bool := Std.HashMap.insert ∅ "fill" false

/-- No name and no instruction is used twice. -/
theorem ofRoutines_eq : Program.ofRoutines "twice" [main, fill] = .ok program := by
  simp [Program.ofRoutines, Program.checkFrom, Program.addIds, main, fill, program]

/-- Both routines are found, and no others. -/
theorem definition?_eq (f : String) : program.definition? f =
    if f = "main" then some main else if f = "fill" then some fill else none := by
  simp only [program, Program.definition?, Program.routine?, Program.index, List.foldl_cons,
    List.foldl_nil, Std.HashMap.getElem?_insert]
  by_cases hmain : f = "main"
  · subst hmain
    rfl
  · by_cases hfill : f = "fill"
    · subst hfill
      rfl
    · simp [main, fill, hmain, hfill, Ne.symm hmain, Ne.symm hfill]

/-- The routine that is called has a body. -/
theorem definition?_fill (dedup : Bool) :
    (subject dedup).program.definition? "fill" = some fill := definition?_eq "fill"

/-- It is not open while the main routine is, so it may be called. -/
theorem not_passed (dedup : Bool) :
    ¬ (((subject dedup).program.definition? "fill").isNone = true ∨ "fill" ∈ ["main"]) := by
  rw [definition?_fill]
  decide

/-- The calls are plain. -/
theorem classify_call (s : Settings) (d : Draft) (id : Nat) :
    Draft.classify program s Interface.standard d
      ⟨⟨id⟩, .call (.direct "fill") [], none⟩ = .ok (d.emit (call id)) := by
  have hmeaning : Chain.meaning? Interface.standard "fill" = none := by decide +kernel
  unfold Draft.classify
  dsimp only
  rw [show ((Callee.direct "fill").name? >>= Chain.meaning? Interface.standard) = none
    from hmeaning]
  rfl

/-- The nodes of the main routine are made in order. -/
theorem classifyAll_main (s : Settings) :
    Draft.classifyAll program s Interface.standard ⟨.empty, []⟩ main.body =
      .ok ⟨⟨#[call 0, call 1]⟩, [0, 1]⟩ :=
  Except.bind_eq_ok.2 ⟨_, classify_call s _ _, Except.bind_eq_ok.2 ⟨_, classify_call s _ _, rfl⟩⟩

/-- The nodes of the main routine are made at the first question. -/
theorem summary_main (dedup : Bool) :
    Session.summary (subject dedup) ⟨.empty, ∅, ∅, threads⟩ "main" =
      .ok (some [0, 1], early) := by
  rw [Session.summary, Std.HashMap.getElem?_empty,
    show (subject dedup).program = program from rfl, definition?_eq]
  exact Except.bind_eq_ok.2 ⟨_, classifyAll_main _, rfl⟩

/-- The nodes of the other are made behind them. -/
theorem summary_early (dedup : Bool) :
    early.summary (subject dedup) "fill" = .ok (some [2], late ∅) := by
  have hnew : early.summaries["fill"]? = none := by simp [early]
  rw [Session.summary, hnew, definition?_fill]
  rfl

/-- They are known from then on. -/
theorem summary_late (dedup : Bool) (effects : Std.HashMap String Bool) :
    (late effects).summary (subject dedup) "fill" = .ok (some [2], late effects) := by
  have hold : (late effects).summaries["fill"]? = some [2] := by simp [late]
  rw [Session.summary, hold]

/-- The routine that is called is found to be harmless. -/
theorem hasThreadEffects_late (dedup : Bool) :
    (late ∅).hasThreadEffects (subject dedup) "fill" = .ok (false, late answers) := by
  rw [Session.hasThreadEffects, Session.explore_of_body Std.HashMap.getElem?_empty
    List.not_mem_nil (definition?_fill dedup)]
  refine Except.bind_eq_ok.2 ⟨_, summary_late dedup ∅, ?_⟩
  dsimp only
  rw [Option.getD_some, show (late ∅).nodesAt [2] = [store] from rfl,
    show [store].any Session.concernsThreads = false from rfl,
    show Session.calledBy (subject dedup) [store] = [] from rfl, Session.exploreAny]
  rfl

/-- That answer is kept. -/
theorem hasThreadEffects_again (dedup : Bool) :
    (late answers).hasThreadEffects (subject dedup) "fill" = .ok (false, late answers) := by
  have hold : (late answers).effects["fill"]? = some false := by simp [late, answers]
  exact Session.explore_of_known hold

/-- A call that is not repeated stores between a call and a return event. -/
theorem handle_call {dedup : Bool} {id : Nat} {u w : Walk}
    {effects effects' : Std.HashMap String Bool}
    (hsummary : u.session.summary (subject dedup) "fill" = .ok (some [2], late effects))
    (hrepeated : Walk.isRepeated (subject dedup) ⟨late effects, u.self⟩ "fill" [] =
      .ok (false, w)) (hsession : w.session = late effects') (hskip : w.self.skipTo = none) :
    Walk.handle (subject dedup) .pthread ["main"] ["main"] id (call id) u =
      .ok (((w.record id .call).record 2 .write).record id .return) := by
  have hwalk : Walk.walk (subject dedup) .pthread ["main"] ["fill", "main"] [2]
      (w.record id .call) = .ok ((w.record id .call).record 2 .write) := by
    have hnode : (w.record id .call).session.arena.get? 2 = some store := by
      rw [show (w.record id .call).session = late effects' from hsession]
      rfl
    rw [Walk.walk_cons_of_handle hnode hskip (by rw [Walk.handle]; rfl), Walk.walk]
  rw [Walk.handle]
  refine (Walk.callAll_cons ..).trans (Except.bind_eq_ok.2 ⟨_, hsummary, ?_⟩)
  dsimp only
  rw [if_neg (not_passed dedup)]
  refine Except.bind_eq_ok.2 ⟨_, hrepeated, Except.bind_eq_ok.2 ⟨_, hwalk, ?_⟩⟩
  rw [Walk.callAll]

/-- The main thread behind the first call, which it has noted. -/
def again : Walk :=
  ((Walk.record ⟨late answers, { Walker.start 0 none with expanded := [("fill", [])] }⟩
    0 .call).record 2 .write).record 0 .return

/-- With deduplicated calls the first call is noted and expanded. -/
theorem handle_first :
    Walk.handle (subject true) .pthread ["main"] ["main"] 0 (call 0) ⟨early, Walker.start 0 none⟩ =
      .ok again := by
  refine handle_call (summary_early true) ?_ rfl rfl
  rw [Walk.isRepeated, if_pos (show (subject true).settings.dedupCalls = true from rfl)]
  refine Except.bind_eq_ok.2 ⟨_, hasThreadEffects_late true, ?_⟩
  dsimp only
  rw [if_neg Bool.false_ne_true,
    if_neg (show ("fill", []) ∉ (Walker.start 0 none).expanded from List.not_mem_nil)]
  rfl

/-- The second call is repeated. -/
theorem isRepeated_again :
    Walk.isRepeated (subject true) again "fill" [] = .ok (true, again) := by
  rw [Walk.isRepeated, if_pos (show (subject true).settings.dedupCalls = true from rfl)]
  refine Except.bind_eq_ok.2 ⟨_, hasThreadEffects_again true, ?_⟩
  dsimp only
  rw [if_neg Bool.false_ne_true,
    if_pos (show ("fill", []) ∈ again.self.expanded from List.mem_cons_self)]
  rfl

/-- With deduplicated calls the main thread stores once. -/
theorem walk_dedup :
    Walk.walk (subject true) .pthread ["main"] ["main"] [0, 1] ⟨early, Walker.start 0 none⟩ =
      .ok again := by
  have hsecond : Walk.handle (subject true) .pthread ["main"] ["main"] 1 (call 1) again =
      .ok again := by
    rw [Walk.handle]
    refine (Walk.callAll_cons ..).trans (Except.bind_eq_ok.2 ⟨_, summary_late true answers, ?_⟩)
    dsimp only
    rw [if_neg (not_passed true)]
    refine Except.bind_eq_ok.2 ⟨_, isRepeated_again, ?_⟩
    rw [if_pos rfl, Walk.callAll]
  rw [Walk.walk_cons_of_handle rfl rfl handle_first, Walk.walk_cons_of_handle rfl rfl hsecond,
    Walk.walk]

/-- If the main thread comes to its end, there is a trace. -/
theorem build_of_walk {dedup : Bool} {w : Walk} (hw : Walk.walk (subject dedup) .pthread ["main"]
    ["main"] [0, 1] ⟨early, Walker.start 0 none⟩ = .ok w) : Trace.build (subject dedup) =
      .ok ⟨w.close.session.threads, w.close.session.arena, program, pointsTo⟩ := by
  have hmain : Trace.walkMain (subject dedup) .pthread "main" = .ok w.close.session :=
    Except.bind_eq_ok.2 ⟨_, rfl, Except.bind_eq_ok.2 ⟨_, summary_main dedup,
      Except.bind_eq_ok.2 ⟨w, hw, rfl⟩⟩⟩
  have hentry : program.routine? "main" = some main :=
    (Option.filter_eq_some_iff.1 (definition?_eq "main")).1
  have hruntime : Runtime.ofProgram (subject dedup).program (subject dedup).settings.runtime =
      .pthread := rfl
  unfold Trace.build
  dsimp only
  rw [show (subject dedup).program.routine? (subject dedup).settings.entry = some main from hentry]
  dsimp only
  rw [if_neg (show ¬ main.isDeclaration = true from Bool.false_ne_true), hruntime,
    show Trace.walkMain (subject dedup) .pthread (subject dedup).settings.entry = _ from hmain]
  rfl

end Twice

end DataRace
