import DataRace.Proofs.Trace.Walk

/-!
# How walks grow

`Walk.Grows` says once what walking can do to a thread under construction and its session: look
something up, change its notes, make an event of a node, join, or start a child, let it grow to its
end and go on.  Every walk is made of these (`Walk.walk_grows`), so whatever they keep is kept by a
whole walk.
-/

namespace DataRace

namespace EventKind

/-- The category of the nodes that events of a kind are made of. -/
def category : EventKind → Category
  | .read => .read
  | .write => .write
  | .free => .free
  | .fork _ => .fork
  | .join _ => .join
  | .lock => .lock
  | .unlock => .unlock
  | .barrier => .barrier
  | .call | .return => .call

/-- Whether an event names no other thread. -/
def isLocal : EventKind → Bool
  | .fork _ | .join _ => false
  | _ => true

/-- A fork of some thread. -/
def Forks (k : EventKind) : Prop := ∃ child, k = .fork child

/-- Forks are the kinds of their category. -/
theorem category_eq_fork {k : EventKind} : k.category = .fork ↔ k.Forks := by
  cases k <;> simp [category, Forks]

/-- A call is no fork. -/
theorem not_forks_call : ¬ call.Forks := by
  rintro ⟨_, hfork⟩
  cases hfork

/-- A return is no fork. -/
theorem not_forks_return : ¬ EventKind.return.Forks := by
  rintro ⟨_, hfork⟩
  cases hfork

end EventKind

/-- A region that the members of a team pass over, except for the master. -/
inductive Region where
  | master
  | single

namespace Region

/-- The call at the beginning of a region. -/
def opening : Region → CallApi
  | master => .ompMaster
  | single => .ompSingle

/-- The call at the end of a region. -/
def closing : Region → CallApi
  | master => .ompEndMaster
  | single => .ompEndSingle

end Region

namespace Walk

/-- What walking does to a thread under construction and its session. -/
inductive Grows (c : Subject) (r : Runtime) : Walk → Walk → Prop
  /-- Nothing. -/
  | refl (w : Walk) : Grows c r w w
  /-- One thing after the other. -/
  | trans {u v w : Walk} (huv : Grows c r u v) (hvw : Grows c r v w) : Grows c r u w
  /-- Looking something up. -/
  | consult {w : Walk} {s : Session} (h : w.session.Learns c s) :
      Grows c r w { w with session := s }
  /-- Beginning or ending to skip. -/
  | skip (w : Walk) (i : Option InstId) : Grows c r w { w with self := { w.self with skipTo := i } }
  /-- Noting that a fork node was met. -/
  | meet (w : Walk) (id : NodeId) : Grows c r w (w.meetFork id)
  /-- Noting that a call is expanded. -/
  | note (w : Walk) (call : String × List Operand) :
      Grows c r w { w with self := { w.self with expanded := call :: w.self.expanded } }
  /-- An event that names no other thread. -/
  | record {w : Walk} {id : NodeId} {n : Node} {kind : EventKind}
      (hn : w.session.arena.get? id = some n) (hlocal : kind.isLocal = true)
      (hkind : n.category = kind.category) : Grows c r w (w.record id kind)
  /-- Joining what a fork node started. -/
  | joinCompanion {w w' : Walk} {id fork : NodeId} {n : Node}
      (hn : w.session.arena.get? id = some n) (hfork : n.companionOf? = some fork)
      (h : w.joinCompanion id n fork = .ok w') : Grows c r w w'
  /-- Joining what a handle denotes. -/
  | joinHandle {w : Walk} {id : NodeId} {n : Node} (handle : Operand)
      (hn : w.session.arena.get? id = some n) (hjoin : n.category = .join) :
      Grows c r w (w.joinHandle c id handle)
  /-- Joining what the runtime joins. -/
  | joinPending {w w' : Walk} {directOnly : Bool} (h : w.joinPending directOnly = .ok w') :
      Grows c r w w'
  /-- Starting a child, which grows until its runtime has acted at its end. -/
  | fork {w v inner last : Walk} {id : NodeId} {n : Node} {api : ForkApi} {handle : Operand}
      {entry : ThreadEntry} {target : String} {child : ThreadId}
      (hn : w.session.arena.get? id = some n) (heffect : n.effect = .fork api handle entry)
      (htarget : target ∈ c.entryTargets entry)
      (hlimit : w.session.threads.size < c.settings.maxThreads)
      (hbegin : w.beginFork id target = .ok (child, v))
      (hinner : Grows c r (v.enterChild child api) inner) (hlast : Grows c r inner last)
      (hfinish : r.finish inner = .ok last) : Grows c r w (v.endFork r id api handle last.close)

variable {c : Subject} {r : Runtime} {ancestry opened : List String} {w w' : Walk}

/-- Nodes stay where they are. -/
theorem Grows.arena_extends (h : Grows c r w w') :
    w.session.arena.Extends w'.session.arena := by
  induction h with
  | refl | skip | meet | note | record => exact .refl _
  | trans _ _ ih₁ ih₂ => exact ih₁.trans ih₂
  | consult h => exact h.extends.arena
  | @joinCompanion w _ _ _ _ _ _ h =>
    exact joinCompanion_induction (P := fun v => w.session.arena.Extends v.session.arena) h
      (.refl _) fun _ _ _ _ hv => hv
  | joinHandle =>
    rw [Walk.joinHandle]
    split <;> exact .refl _
  | @joinPending w _ _ h =>
    exact joinPending_induction (P := fun v => w.session.arena.Extends v.session.arena) h
      (.refl _) fun _ _ _ _ hv hj => hv.trans (joinChild_spec hj).1.arena
  | fork _ _ _ _ hbegin _ _ _ ihinner ihlast =>
    obtain ⟨-, harena, -, -⟩ := beginFork_spec hbegin
    rw [← harena]
    exact ihinner.trans ihlast

/-! ### Runtimes -/

/-- Skipping a region only changes what is skipped. -/
theorem skipRegion_eq {opening closing : CallApi} {node : Node} {routine : Option String}
    {rest : List NodeId} (h : w.skipRegion opening closing node routine rest = .ok w') :
    ∃ skipTo, w' = { w with self := { w.self with skipTo } } := by
  rw [skipRegion] at h
  split at h
  · split at h
    · cases h
      exact ⟨_, rfl⟩
    · cases h
  · cases h
    exact ⟨w.self.skipTo, rfl⟩

/-- Skipping a region is growth. -/
theorem skipRegion_grows {opening closing : CallApi} {node : Node} {routine : Option String}
    {rest : List NodeId} (h : w.skipRegion opening closing node routine rest = .ok w') :
    Grows c r w w' := by
  obtain ⟨skipTo, rfl⟩ := skipRegion_eq h
  exact .skip w skipTo

/-- What a runtime does at a node: nothing, or, only where the node concerns threads, joins or the
skipping of a region that the node opens. -/
theorem visit_cases (r : Runtime) (node : Node) :
    (∃ opens, (Session.concernsThreads node = false → opens = true) ∧
      ∀ w routine rest, r.visit w node routine rest = .ok (opens, w)) ∨
    Session.concernsThreads node = true ∧
      ((∃ directOnly opens, ∀ w routine rest, r.visit w node routine rest =
        do return (opens, ← w.joinPending directOnly)) ∨
      ∃ g : Region, (r = .openMp ∧ node.callApi? = some g.opening) ∧ ∀ w routine rest,
        r.visit w node routine rest =
          do return (false, ← w.skipRegion g.opening g.closing node routine rest)) := by
  obtain ⟨site, effect⟩ := node
  cases r with
  | pthread => exact Or.inl ⟨true, fun _ => rfl, fun _ _ _ => rfl⟩
  | openMp =>
    cases effect with
    | barrier => exact Or.inr ⟨rfl, Or.inl ⟨false, true, fun _ _ _ => rfl⟩⟩
    | call api callee args =>
      cases api with
      | ompMaster => exact Or.inr ⟨rfl, Or.inr ⟨.master, ⟨rfl, rfl⟩, fun _ _ _ => rfl⟩⟩
      | ompSingle => exact Or.inr ⟨rfl, Or.inr ⟨.single, ⟨rfl, rfl⟩, fun _ _ _ => rfl⟩⟩
      | ompTaskwait => exact Or.inr ⟨rfl, Or.inl ⟨true, false, fun _ _ _ => rfl⟩⟩
      | ompEndMaster | ompEndSingle | ompReduce =>
        exact Or.inl ⟨false, fun h => (nomatch h), fun _ _ _ => rfl⟩
      | _ => exact Or.inl ⟨true, fun _ => rfl, fun _ _ _ => rfl⟩
    | _ => exact Or.inl ⟨true, fun _ => rfl, fun _ _ _ => rfl⟩
  | cuda =>
    cases effect with
    | call api callee args =>
      cases api with
      | cudaDeviceSync | cudaStreamSync =>
        exact Or.inr ⟨rfl, Or.inl ⟨false, false, fun _ _ _ => rfl⟩⟩
      | _ => exact Or.inl ⟨true, fun _ => rfl, fun _ _ _ => rfl⟩
    | _ => exact Or.inl ⟨true, fun _ => rfl, fun _ _ _ => rfl⟩

/-- What a runtime does at a node is growth. -/
theorem visit_grows {node : Node} {routine : Option String} {rest : List NodeId} {opens : Bool}
    (h : r.visit w node routine rest = .ok (opens, w')) : Grows c r w w' := by
  obtain ⟨_, -, hvisit⟩ | ⟨-, ⟨_, _, hvisit⟩ | ⟨_, -, hvisit⟩⟩ := visit_cases r node
  · rw [hvisit] at h
    cases h
    exact .refl w
  · rw [hvisit] at h
    obtain ⟨v, hv, h⟩ := Except.bind_eq_ok.1 h
    cases h
    exact .joinPending hv
  · rw [hvisit] at h
    obtain ⟨v, hv, h⟩ := Except.bind_eq_ok.1 h
    cases h
    exact skipRegion_grows hv

/-- At the end of a thread a runtime joins what is pending, or does nothing, as decided by how the
thread was started. -/
theorem finish_cases (r : Runtime) (spawnedBy : Option ForkApi) :
    (∀ w : Walk, w.self.spawnedBy = spawnedBy → r.finish w = w.joinPending false) ∨
      ∀ w : Walk, w.self.spawnedBy = spawnedBy → r.finish w = .ok w := by
  cases r with
  | pthread => exact Or.inr fun _ _ => rfl
  | cuda => exact Or.inr fun _ _ => rfl
  | openMp =>
    cases spawnedBy with
    | none =>
      refine Or.inr fun w hw => ?_
      unfold Runtime.finish
      rw [hw]
    | some api =>
      cases hteam : api.isTeamMember with
      | true =>
        refine Or.inl fun w hw => ?_
        unfold Runtime.finish
        rw [hw]
        exact if_pos hteam
      | false =>
        refine Or.inr fun w hw => ?_
        unfold Runtime.finish
        rw [hw]
        exact if_neg (Bool.eq_false_iff.1 hteam)

/-- What a runtime does at the end of a thread is growth. -/
theorem finish_grows (h : r.finish w = .ok w') : Grows c r w w' := by
  rcases finish_cases r w.self.spawnedBy with hjoin | hnothing
  · rw [hjoin w rfl] at h
    exact .joinPending h
  · rw [hnothing w rfl] at h
    cases h
    exact .refl w

/-! ### Walking -/

/-- Asking whether a call is repeated looks up its effects and may note the call. -/
theorem isRepeated_eq {target : String} {args : List Operand} {repeated : Bool}
    (h : w.isRepeated c target args = .ok (repeated, w')) :
    ∃ session, w.session.Learns c session ∧ (w' = { w with session } ∨
      w' = { session, self := { w.self with expanded := (target, args) :: w.self.expanded } }) := by
  rw [isRepeated] at h
  split at h
  · obtain ⟨⟨effects, session⟩, heffects, h⟩ := Except.bind_eq_ok.1 h
    refine ⟨session, Session.hasThreadEffects_learns heffects, ?_⟩
    dsimp only at h
    split at h
    · cases h
      exact Or.inl rfl
    · split at h
      · cases h
        exact Or.inl rfl
      · cases h
        exact Or.inr rfl
  · cases h
    exact ⟨w.session, .refl _, Or.inl rfl⟩

/-- Asking whether a call is repeated is growth. -/
theorem isRepeated_grows {target : String} {args : List Operand} {repeated : Bool}
    (h : w.isRepeated c target args = .ok (repeated, w')) : Grows c r w w' := by
  obtain ⟨session, hlearns, rfl | rfl⟩ := isRepeated_eq h
  · exact .consult hlearns
  · exact (Grows.consult hlearns).trans (.note _ (target, args))

/-- Walking nodes is growth. -/
def NodesGrow (c : Subject) (r : Runtime) (ancestry opened : List String) (nodes : List NodeId)
    (w : Walk) : Prop :=
  ∀ w', walk c r ancestry opened nodes w = .ok w' → Grows c r w w'

/-- Handling a node is growth. -/
def NodeGrows (c : Subject) (r : Runtime) (ancestry opened : List String) (id : NodeId) (n : Node)
    (w : Walk) : Prop :=
  ∀ w', w.session.arena.get? id = some n → handle c r ancestry opened id n w = .ok w' →
    Grows c r w w'

/-- A call is growth. -/
def CallsGrow (c : Subject) (r : Runtime) (ancestry opened : List String) (id : NodeId)
    (args : List Operand) (targets : List String) (w : Walk) : Prop :=
  ∀ w', (∃ n, w.session.arena.get? id = some n ∧ n.category = .call) →
    callAll c r ancestry opened id args targets w = .ok w' → Grows c r w w'

/-- A fork is growth. -/
def ForksGrow (c : Subject) (r : Runtime) (ancestry opened : List String) (id : NodeId)
    (api : ForkApi) (operand : Operand) (targets : List String) (w : Walk) : Prop :=
  ∀ w', (∃ n entry, w.session.arena.get? id = some n ∧ n.effect = .fork api operand entry ∧
    ∀ target ∈ targets, target ∈ c.entryTargets entry) →
    forkAll c r ancestry opened id api operand targets w = .ok w' → Grows c r w w'

section Cases

/-! ### The cases of the induction

Each takes what holds of the parts as hypotheses. -/

variable {id : NodeId} {n : Node} {api : ForkApi} {operand : Operand} {args : List Operand}
  {target entry : String} {targets entries : List String}

/-- A node and those behind it. -/
theorem NodesGrow.cons {nodes : List NodeId} (ihskip : NodesGrow c r ancestry opened nodes w)
    (ihnodes : ∀ w, NodesGrow c r ancestry opened nodes w)
    (ihnode : ∀ n w, NodeGrows c r ancestry opened id n w) :
    NodesGrow c r ancestry opened (id :: nodes) w := by
  intro w' h
  obtain ⟨n, hn, ⟨-, h⟩ | ⟨-, opens, v, u, hvisit, hu, h⟩⟩ := walk_cons_ok h
  · exact ihskip w' h
  · have hv : Grows c r w v := (Grows.skip w none).trans (visit_grows hvisit)
    have hvu : Grows c r v u := by
      cases opens with
      | true => exact ihnode n v u (hv.arena_extends id n hn) hu
      | false =>
        cases hu
        exact .refl v
    exact (hv.trans hvu).trans (ihnodes u w' h)

/-- A routine that a call may reach, and those behind it. -/
theorem CallsGrow.cons (ihcalls : ∀ w, CallsGrow c r ancestry opened id args targets w)
    (ihnodes : ∀ (nodes : Option (List NodeId)) (routine : Routine),
      c.program.definition? target = some routine → target ∉ opened → ∀ w : Walk,
        NodesGrow c r ancestry (target :: opened) (nodes.getD []) (w.record id .call)) :
    CallsGrow c r ancestry opened id args (target :: targets) w := by
  intro w' hcall h
  obtain ⟨nodes, session, hsummary, h⟩ := callAll_cons_ok h
  have hsession : Grows c r w { w with session } := .consult (.summary hsummary)
  have hkeep : ∀ {v}, Grows c r w v → ∃ n, v.session.arena.get? id = some n ∧
      n.category = .call := by
    intro v hv
    obtain ⟨n, hn, hcat⟩ := hcall
    exact ⟨n, hv.arena_extends id n hn, hcat⟩
  obtain ⟨-, h⟩ | ⟨routine, hdef, hopen, repeated, u, hrepeated, h⟩ := h
  · exact hsession.trans (ihcalls _ w' (hkeep hsession) h)
  · have hu : Grows c r w u := hsession.trans (isRepeated_grows hrepeated)
    obtain ⟨-, h⟩ | ⟨-, v, hv, h⟩ := h
    · exact hu.trans (ihcalls u w' (hkeep hu) h)
    · obtain ⟨n, hn, hcat⟩ := hkeep hu
      have hcalled : Grows c r w (u.record id .call) := hu.trans (.record hn rfl hcat)
      have hv' : Grows c r w v := hcalled.trans (ihnodes nodes routine hdef hopen u v hv)
      obtain ⟨m, hm, hcat'⟩ := hkeep hv'
      have hreturned : Grows c r w (v.record id .return) := hv'.trans (.record hm rfl hcat')
      exact hreturned.trans (ihcalls _ w' (hkeep hreturned) h)

/-- A child that is not started. -/
theorem ForksGrow.pass (hpass : entry ∈ ancestry ∨ c.settings.maxThreads ≤ w.session.threads.size)
    (ih : ForksGrow c r ancestry opened id api operand entries w) :
    ForksGrow c r ancestry opened id api operand (entry :: entries) w := by
  intro w' ⟨n, source, hn, heffect, htargets⟩ h
  obtain ⟨-, h⟩ | ⟨ha, hlimit, -⟩ := forkAll_cons_ok h
  · exact ih w' ⟨n, source, hn, heffect, fun t ht => htargets t (List.mem_cons_of_mem _ ht)⟩ h
  · exact absurd hpass (not_or.2 ⟨ha, Nat.not_le.2 hlimit⟩)

/-- A child that is started, and those behind it. -/
theorem ForksGrow.start (ha : entry ∉ ancestry)
    (hlimit : ¬ w.session.threads.size ≥ c.settings.maxThreads)
    (ihforks : ∀ w inner,
      ForksGrow c r ancestry opened id api operand entries (endFork r w id api operand inner))
    (ihnodes : ∀ (child : ThreadId) (w : Walk) (routine : Routine),
      c.program.definition? entry = some routine →
        ∀ (nodes : Option (List NodeId)) (session : Session),
          NodesGrow c r (entry :: ancestry) [entry] (nodes.getD [])
            { w.enterChild child api with session }) :
    ForksGrow c r ancestry opened id api operand (entry :: entries) w := by
  intro w' ⟨n, source, hn, heffect, htargets⟩ h
  obtain ⟨hpass, -⟩ | ⟨-, hlt, child, v, inner, last, hbegin, hinner, hlast, h⟩ :=
    forkAll_cons_ok h
  · exact absurd hpass (not_or.2 ⟨ha, hlimit⟩)
  · have hwalked : Grows c r (v.enterChild child api) inner := by
      rcases hinner with ⟨-, rfl⟩ | ⟨routine, nodes, session, hdef, hsummary, hwalk⟩
      · exact .refl _
      · exact (Grows.consult (.summary hsummary)).trans
          (ihnodes child v routine hdef nodes session inner hwalk)
    have hforked : Grows c r w (v.endFork r id api operand last.close) :=
      .fork hn heffect (htargets entry List.mem_cons_self) hlt hbegin hwalked (finish_grows hlast)
        hlast
    exact hforked.trans (ihforks v last.close w' ⟨n, source, hforked.arena_extends id n hn, heffect,
      fun t ht => htargets t (List.mem_cons_of_mem _ ht)⟩ h)

end Cases

/-- What is walked, whether it is a list of nodes, a node, the routines of a call or the children of
a fork, only makes a walk grow. -/
theorem all_grow (c : Subject) (r : Runtime) :
    (∀ ancestry opened nodes w, NodesGrow c r ancestry opened nodes w) ∧
      (∀ ancestry opened id n w, NodeGrows c r ancestry opened id n w) ∧
      (∀ ancestry opened id args targets w, CallsGrow c r ancestry opened id args targets w) ∧
      ∀ ancestry opened id api operand targets w,
        ForksGrow c r ancestry opened id api operand targets w := by
  apply walk.mutual_induct c r (NodesGrow c r) (NodeGrows c r) (CallsGrow c r) (ForksGrow c r)
  -- A list of nodes.
  case case1 =>
    intro _ _ w w' h
    rw [walk] at h
    cases h
    exact .refl w
  case case2 => exact fun _ _ _ _ _ ihskip ihnodes ihnode => .cons ihskip ihnodes ihnode
  -- A node.
  case case3 | case4 | case5 | case6 | case7 | case8 =>
    intros
    rename_i heffect
    intro w' hn h
    rw [handle, heffect] at h
    cases h
    exact .record hn rfl (by simp [Node.category, heffect, EventKind.category])
  case case9 =>
    intro _ _ _ _ _ _ _ _ heffect w' hn h
    rw [handle, heffect] at h
    exact .joinCompanion hn (by simp [Node.companionOf?, heffect]) h
  case case10 =>
    intro _ _ _ _ _ _ operand heffect w' hn h
    rw [handle, heffect] at h
    cases h
    exact .joinHandle operand hn (by simp [Node.category, heffect])
  case case11 =>
    intro _ _ id n w _ _ entry heffect ih w' hn h
    rw [handle, heffect] at h
    exact (Grows.meet w id).trans (ih w' ⟨n, entry, hn, heffect, fun _ h => h⟩ h)
  case case12 =>
    intro _ _ _ _ w _ _ _ heffect hruntime w' _ h
    rw [handle, heffect] at h
    dsimp only at h
    rw [if_pos hruntime] at h
    cases h
    exact .refl w
  case case13 =>
    intro _ _ _ n _ _ _ _ heffect hruntime ih w' hn h
    rw [handle, heffect] at h
    dsimp only at h
    rw [if_neg hruntime] at h
    exact ih w' ⟨n, hn, by simp [Node.category, heffect]⟩ h
  -- The routines of a call.
  case case14 =>
    intro _ _ _ _ w w' _ h
    rw [callAll] at h
    cases h
    exact .refl w
  case case15 => exact fun _ _ _ _ _ _ _ _ ihcalls ihnodes _ => .cons ihcalls ihnodes
  -- The children of a fork.
  case case16 =>
    intro _ _ _ _ _ w w' _ h
    rw [forkAll] at h
    cases h
    exact .refl w
  case case17 => exact fun _ _ _ _ _ _ _ _ ha ih => .pass (Or.inl ha) ih
  case case18 => exact fun _ _ _ _ _ _ _ _ _ hlimit ih => .pass (Or.inr hlimit) ih
  case case19 =>
    exact fun _ _ _ _ _ _ _ _ ha hlimit ihforks ihnodes => .start ha hlimit ihforks ihnodes

/-- Every walk is growth. -/
theorem walk_grows {nodes : List NodeId} (h : walk c r ancestry opened nodes w = .ok w') :
    Grows c r w w' :=
  (all_grow c r).1 ancestry opened nodes w w' h

end Walk

/-- A trace that is built has grown from the main thread on its own. -/
theorem Trace.build_grows {c : Subject} {t : Trace} (h : Trace.build c = .ok t) :
    ∃ s w, s.threads = #[Thread.new 0 c.settings.entry none none] ∧
      Walk.Grows c (Runtime.ofProgram c.program c.settings.runtime) ⟨s, Walker.start 0 none⟩ w ∧
      t = ⟨w.close.session.threads, w.session.arena, c.program, c.pointsTo⟩ := by
  obtain ⟨_, _, -, hmain, rfl⟩ := build_ok h
  obtain ⟨nodes, s, inner, last, hsummary, hwalk, hlast, rfl⟩ := walkMain_ok hmain
  exact ⟨s, last, (Session.Learns.summary hsummary).extends.threads,
    (Walk.walk_grows hwalk).trans (Walk.finish_grows hlast), rfl⟩

end DataRace
