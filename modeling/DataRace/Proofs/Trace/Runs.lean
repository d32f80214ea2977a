import DataRace.Proofs.Trace.Placed
import DataRace.Proofs.Trace.Tours

/-!
# What a build comes to is part of its trace

If a part of a walk runs to its end, so do the parts that it asks for, and what they come to is part
of what it comes to (`Frame.Leads.runs`).  So whatever part a build comes to that has a trace in the
end, the part ran, and the events that it came to stand at their places in the trace
(`Trace.Reaches.runs`).

The events that a part makes are between its beginning and its end (`Walk.Spans`).
-/

namespace DataRace

variable {c : Subject} {r : Runtime}

/-! ### Routines whose nodes are known -/

namespace Session

/-- Only routines with a body have known nodes. -/
def Backed (c : Subject) (s : Session) : Prop :=
  ∀ (f : String) ids, s.summaries[f]? = some ids → ∃ q, c.program.definition? f = some q

variable {s s' : Session}

/-- A session that was asked nothing. -/
theorem Backed.empty (c : Subject) (threads : Array Thread) :
    Backed c { Session.empty with threads } := by
  intro f ids hids
  have hnone : (∅ : Std.HashMap String (List NodeId))[f]? = none := Std.HashMap.getElem?_empty
  exact nomatch hnone.symm.trans hids

/-- Looking something up keeps that. -/
theorem Learns.backed (h : s.Learns c s') (hs : s.Backed c) : s'.Backed c := by
  induction h with
  | refl | answer => exact hs
  | trans _ _ ih₁ ih₂ => exact ih₂ (ih₁ hs)
  | @summary s s' f nodes h =>
    obtain ⟨-, -, -, rfl⟩ | ⟨-, ⟨-, -, rfl⟩ | ⟨q, d, hdef, -, -, rfl⟩⟩ := summary_cases h
    · exact hs
    · exact hs
    · intro g ids hids
      rw [Std.HashMap.getElem?_insert] at hids
      split at hids
      · next heq => exact ⟨q, beq_iff_eq.1 heq ▸ hdef⟩
      · exact hs g ids hids

/-- A routine without a body has no nodes, and asking for them changes nothing. -/
theorem Backed.summary_of_none (hs : s.Backed c) {f : String} {nodes : Option (List NodeId)}
    (hdef : c.program.definition? f = none) (h : s.summary c f = .ok (nodes, s')) :
    nodes = none ∧ s' = s := by
  obtain ⟨ids, hids, -⟩ | ⟨-, ⟨-, rfl, rfl⟩ | ⟨q, d, hdef', -⟩⟩ := summary_cases h
  · obtain ⟨q, hq⟩ := hs f ids hids
    cases hdef.symm.trans hq
  · exact ⟨rfl, rfl⟩
  · cases hdef.symm.trans hdef'

end Session

namespace Walk

variable {u v w w' : Walk}

/-- A child is walked in one way only. -/
theorem WalksChild.unique {ancestry : List String} {entry : String}
    (h : WalksChild c r ancestry entry w v) (h' : WalksChild c r ancestry entry w u) : v = u := by
  obtain ⟨hdef, rfl⟩ | ⟨routine, nodes, session, hdef, hsummary, hwalk⟩ := h
  · obtain ⟨-, rfl⟩ | ⟨routine', nodes', session', hdef', -⟩ := h'
    · rfl
    · cases hdef.symm.trans hdef'
  · obtain ⟨hdef', -⟩ | ⟨routine', nodes', session', -, hsummary', hwalk'⟩ := h'
    · cases hdef.symm.trans hdef'
    · cases hsummary.symm.trans hsummary'
      cases hwalk.symm.trans hwalk'
      rfl

/-- Starting a child looks nothing up. -/
theorem beginFork_backed {id : NodeId} {target : String} {child : ThreadId} (api : ForkApi)
    (h : w.beginFork id target = .ok (child, v)) (hw : w.session.Backed c) :
    (v.enterChild child api).session.Backed c := by
  obtain ⟨⟨child', session⟩, hreserve, h⟩ := Except.bind_eq_ok.1 h
  cases h
  simp only [Session.reserve] at hreserve
  split at hreserve
  · cases hreserve
    exact hw
  · cases hreserve

/-- Growth looks up nothing else. -/
theorem Grows.backed (h : Grows c r w w') (hw : w.session.Backed c) : w'.session.Backed c := by
  induction h with
  | refl | skip | meet | note | record => exact hw
  | trans _ _ ih₁ ih₂ => exact ih₂ (ih₁ hw)
  | consult h => exact h.backed hw
  | joinCompanion _ _ h =>
    exact joinCompanion_induction (P := fun v => v.session.Backed c) h hw fun _ _ _ _ hv => hv
  | joinHandle =>
    rw [Walk.joinHandle]
    split <;> exact hw
  | joinPending h =>
    refine joinPending_induction (P := fun v => v.session.Backed c) h hw ?_
    intro v v' node child hv hj
    obtain ⟨⟨join, arena⟩, -, hj⟩ := Except.bind_eq_ok.1 hj
    cases hj
    exact hv
  | fork _ _ _ _ hbegin _ _ _ ihinner ihlast =>
    exact ihlast (ihinner (beginFork_backed _ hbegin hw))

/-! ### Events between two walks -/

/-- An event is made between two walks: by the thread of the first, behind the events that it has,
or by a thread that is started. -/
def Spans (u w : Walk) (q : EventRef) : Prop :=
  q.thread = u.self.thread ∧ u.self.events.size ≤ q.index ∧ q.index < w.self.events.size ∨
    u.session.threads.size ≤ q.thread ∧ q.thread < w.session.threads.size

/-- The events of a thread that goes on are part of what it goes on with. -/
theorem Within.size_le (h : u.Within w) (hthread : w.self.thread = u.self.thread) :
    u.self.events.size ≤ w.self.events.size := by
  by_contra hlt
  obtain ⟨e, he⟩ : ∃ e, u.self.events[w.self.events.size]? = some e :=
    ⟨_, Array.getElem?_eq_getElem (Nat.lt_of_not_le hlt)⟩
  have hown : ∀ x : Walk, x.eventsOf x.self.thread = x.self.events := fun x => if_pos rfl
  obtain ⟨-, hhas⟩ := h.has ⟨u.self.thread, w.self.events.size⟩ e ⟨Nat.le_refl _, by rw [hown, he]⟩
  dsimp only at hhas
  rw [← hthread, hown, Array.getElem?_eq_none (Nat.le_refl _)] at hhas
  cases hhas

/-- What is made between two walks is made between walks further apart. -/
theorem Spans.of_framed {q : EventRef} (h : Spans v w q) (hframe : Framed u v) (hw : w.Within w')
    (hthread : w'.self.thread = w.self.thread) : Spans u w' q := by
  rcases h with ⟨hq, hle, hlt⟩ | ⟨hle, hlt⟩
  · exact Or.inl ⟨hq.trans hframe.thread_eq, hframe.events_le.trans hle,
      hlt.trans_le (hw.size_le hthread)⟩
  · exact Or.inr ⟨hframe.size_le.trans hle, hlt.trans_le hw.threads.size_le⟩

/-- What a walk has is part of what another has, which knows what it knew. -/
structure Carries (c : Subject) (u w : Walk) : Prop where
  within : u.Within w
  later : c.program.Distinct → Session.Later c u.session w.session

/-- One after the other. -/
protected theorem Carries.trans (huv : Carries c u v) (hvw : Carries c v w) : Carries c u w :=
  ⟨huv.within.trans hvw.within, fun hc => (huv.later hc).trans (hvw.later hc)⟩

/-- Growth. -/
theorem Grows.carries (h : Grows c r u w) : Carries c u w := ⟨h.within, fun hc => h.later hc⟩

end Walk

/-! ### Parts that run -/

namespace Frame

variable {F G : Frame} {w' : Walk}

/-- A part that asks for others goes on with nothing looked up but routines with a body. -/
theorem Leads.backed (h : Leads c r F G) (hF : F.Stands c) (hbacked : F.walk.session.Backed c) :
    G.walk.session.Backed c := by
  obtain hgrows | ⟨id, n, api, handle, source, entry, child, v, -, -, hbegin, hgrows⟩ := h.grows hF
  · exact hgrows.backed hbacked
  · exact hgrows.backed (Walk.beginFork_backed api hbegin hbacked)

/-- A child with its nodes looked up is walked like a child that is just started. -/
theorem run_start_eq_ok {ancestry : List String} {entry : String} {nodes : Option (List NodeId)}
    {session : Session} {u inner : Walk} (hu : u.session.Backed c)
    (hsummary : u.session.summary c entry = .ok (nodes, session)) :
    run c r (.nodes (entry :: ancestry) [entry] (nodes.getD []) { u with session }) = .ok inner ↔
      Walk.WalksChild c r ancestry entry u inner := by
  constructor
  · intro h
    cases hdef : c.program.definition? entry with
    | none =>
      obtain ⟨rfl, rfl⟩ := hu.summary_of_none hdef hsummary
      rw [run, Option.getD_none, Walk.walk] at h
      cases h
      exact Or.inl ⟨hdef, rfl⟩
    | some routine => exact Or.inr ⟨routine, nodes, session, hdef, hsummary, h⟩
  · rintro (⟨hdef, rfl⟩ | ⟨routine, nodes', session', -, hsummary', hwalk⟩)
    · obtain ⟨rfl, rfl⟩ := hu.summary_of_none hdef hsummary
      rw [run, Option.getD_none, Walk.walk]
    · cases hsummary.symm.trans hsummary'
      exact hwalk

/-- A part is run as part of the one that asks for it, and what it comes to is part of what that
comes to. -/
theorem Leads.run_eq (h : Leads c r F G) (hearnest : F.Earnest c G) (hF : F.Ready c)
    (hbacked : F.walk.session.Backed c) : ∃ k, F.run c r = G.run c r >>= k ∧
      ∀ u w', G.run c r = .ok u → k u = .ok w' → Walk.Carries c u w' := by
  -- The part that is asked for comes last.
  have hlast : F.run c r = G.run c r → ∃ k, F.run c r = G.run c r >>= k ∧
      ∀ u w', G.run c r = .ok u → k u = .ok w' → Walk.Carries c u w' := by
    refine fun heq => ⟨.ok, heq.trans (bind_pure _).symm, fun u w' _ h => ?_⟩
    cases h
    exact Walk.Grows.carries (r := r) (.refl u)
  cases h with
  | pass hn hskip => exact hlast (Walk.walk_cons_of_skipped hn hskip)
  | @visit ancestry opened id rest n w v hn hskip hvisit =>
    refine ⟨fun u => u.walk c r ancestry opened rest, ?_,
      fun u w' _ h => (Walk.walk_grows h).carries⟩
    rw [run, Walk.walk, Arena.get_eq_ok.2 hn]
    simp only [bind, Except.bind, hskip, hvisit]
    rfl
  | @next ancestry opened id rest n w v u opens hn hskip hvisit hu =>
    cases opens with
    | true => exact hlast (Walk.walk_cons_of_visit hn hskip hvisit hu)
    | false =>
      cases hu
      exact hlast (Walk.walk_cons_of_taken hn hskip hvisit)
  | fork heffect => exact hlast (by rw [run, Walk.handle, heffect]; rfl)
  | call heffect hplain =>
    refine hlast ?_
    rw [run, Walk.handle, heffect]
    exact if_neg (Bool.eq_false_iff.1 hplain)
  | uncalled hsummary hpass => exact hlast (Walk.callAll_cons_of_pass hsummary hpass)
  | @repeated ancestry opened id args target targets w u nodes session hsummary hopen hrepeated =>
    refine hlast ?_
    cases hdef : c.program.definition? target with
    | none =>
      obtain ⟨nodes', session', hsummary', hG⟩ := hearnest hdef
      exact (Walk.callAll_cons_of_pass hsummary' (Or.inl hdef)).trans (hG ▸ rfl)
    | some routine => exact Walk.callAll_cons_of_repeated hsummary hdef hopen hrepeated
  | @enter ancestry opened id args target targets w u nodes session hsummary hopen hrepeated =>
    cases hdef : c.program.definition? target with
    | none =>
      obtain ⟨_, _, -, hG⟩ := hearnest hdef
      cases hG
    | some routine =>
      refine ⟨fun v => (v.record id .return).callAll c r ancestry opened id args targets,
        Walk.callAll_cons_of_repeated hsummary hdef hopen hrepeated, fun v w' hv hrest => ?_⟩
      have hstands := Leads.stands (.leave hsummary hopen hrepeated hv) hF.stands
      have hreturn : Walk.Carries c v (v.record id .return) :=
        ⟨(Walk.Framed.record v id .return).within (.refl _), fun _ => .refl c _⟩
      exact hreturn.trans (hstands.grows hrest).carries
  | @leave ancestry opened id args target targets w u v nodes session hsummary hopen hrepeated hv =>
    refine hlast ?_
    cases hdef : c.program.definition? target with
    | none =>
      obtain ⟨nodes', session', hsummary', hG⟩ := hearnest hdef
      exact (Walk.callAll_cons_of_pass hsummary' (Or.inl hdef)).trans (hG ▸ rfl)
    | some routine =>
      refine (Walk.callAll_cons_of_repeated hsummary hdef hopen hrepeated).trans ?_
      exact congrArg (· >>= fun v : Walk =>
        (v.record id .return).callAll c r ancestry opened id args targets) hv
  | unstarted hpass =>
    refine hlast ?_
    rw [run, Walk.forkAll_cons, if_pos hpass]
    rfl
  | @start ancestry opened id api handle entry entries w v child nodes session hnew hlimit hbegin
      hsummary =>
    refine ⟨fun inner => inner.finish r >>= fun last => (v.endFork r id api handle last).forkAll c r
      ancestry opened id api handle entries, ?_, fun inner w' hwalk hafter => ?_⟩
    · cases hdef : c.program.definition? entry with
      | none =>
        obtain ⟨rfl, rfl⟩ :=
          (Walk.beginFork_backed api hbegin hbacked).summary_of_none hdef hsummary
        refine (Walk.forkAll_cons_of_none hnew hlimit hbegin hdef).trans ?_
        rw [run, Option.getD_none, Walk.walk]
        rfl
      | some routine => exact Walk.forkAll_cons_of_begin hnew hlimit hbegin hdef hsummary
    · obtain ⟨_, hended, hrest⟩ := Except.bind_eq_ok.1 hafter
      obtain ⟨last, hlast', rfl⟩ := Walk.finish_eq_ok.1 hended
      have hinner := (run_start_eq_ok (Walk.beginFork_backed api hbegin hbacked) hsummary).1 hwalk
      have hended := Walk.finish_grows (c := c) hlast'
      have hchild := hinner.grows.trans hended
      obtain ⟨n, source, hn, heffect, -⟩ := hF.stands
      have hsound := (hF.sound.startChild hn heffect hbegin).2
      have hstands := Leads.stands (.ended hnew hlimit hbegin hinner hlast') hF.stands
      have hparent : Walk.Carries c last (v.endFork r id api handle last.close) :=
        ⟨Walk.within_endFork handle hF.sound hbegin hchild.framed (hchild.sound hsound),
          fun _ => .of_eq rfl rfl⟩
      exact (hended.carries.trans hparent).trans (hstands.grows hrest).carries
  | @ended ancestry opened id api handle entry entries w v inner last child hnew hlimit hbegin
      hinner hlast' =>
    refine hlast ?_
    have hended : inner.finish r = .ok last.close := Walk.finish_eq_ok.2 ⟨last, hlast', rfl⟩
    obtain ⟨hdef, rfl⟩ | ⟨routine, nodes, session, hdef, hsummary, hwalk⟩ := hinner
    · exact (Walk.forkAll_cons_of_none hnew hlimit hbegin hdef).trans (by rw [hended]; rfl)
    · exact Walk.forkAll_cons_of_walk hnew hlimit hbegin hdef hsummary hwalk hended

/-- The parts that a part asks for run to their ends if it does, and it carries what they come
to. -/
theorem Leads.carries (h : Leads c r F G) (hearnest : F.Earnest c G) (hF : F.Ready c)
    (hbacked : F.walk.session.Backed c) (hrun : F.run c r = .ok w') :
    ∃ u, G.run c r = .ok u ∧ Walk.Carries c u w' := by
  obtain ⟨k, hk, hcarries⟩ := h.run_eq hearnest hF hbacked
  obtain ⟨u, hu, hw'⟩ := Except.bind_eq_ok.1 (hk.symm.trans hrun)
  exact ⟨u, hu, hcarries u w' hu hw'⟩

/-- The parts that a part asks for run to their ends if it does, and what they come to is part of
what it comes to. -/
theorem Leads.runs (h : Leads c r F G) (hearnest : F.Earnest c G) (hF : F.Ready c)
    (hbacked : F.walk.session.Backed c) (hrun : F.run c r = .ok w') :
    ∃ u, G.run c r = .ok u ∧ u.Within w' := by
  obtain ⟨u, hu, hcarries⟩ := h.carries hearnest hF hbacked hrun
  exact ⟨u, hu, hcarries.within⟩

/-- A part fails if one of those does that it asks for. -/
theorem Leads.fails (h : Leads c r F G) (hearnest : F.Earnest c G) (hF : F.Ready c)
    (hbacked : F.walk.session.Backed c) {e : Fault} (hG : G.run c r = .error e) :
    F.run c r = .error e := by
  obtain ⟨k, hk, -⟩ := h.run_eq hearnest hF hbacked
  rw [hk, hG]
  rfl

/-- The events that a part makes are among those that the part makes that asks for it. -/
theorem Leads.spans (h : Leads c r F G) (hF : F.Ready c) (hrun : F.run c r = .ok w') {u : Walk}
    (hG : G.run c r = .ok u) (hwithin : u.Within w') {q : EventRef}
    (hq : Walk.Spans G.walk u q) : Walk.Spans F.walk w' q := by
  have hthread : u.self.thread = G.walk.self.thread :=
    ((h.stands hF.stands).grows hG).framed.thread_eq
  have hthread' : w'.self.thread = F.walk.self.thread := (hF.stands.grows hrun).framed.thread_eq
  obtain hgrows | ⟨id, n, api, handle, source, entry, child, v, -, -, hbegin, hgrows⟩ :=
    h.grows hF.stands
  · refine hq.of_framed hgrows.framed hwithin ?_
    rw [hthread', hthread, hgrows.framed.thread_eq]
  -- A child and the threads behind it are all started by the part.
  · have hchild : G.walk.self.thread = F.walk.session.threads.size :=
      hgrows.framed.thread_eq.trans (Walk.beginFork_spec hbegin).1
    have hsize : F.walk.session.threads.size < G.walk.session.threads.size :=
      (Nat.lt_succ_self _).trans_le ((Walk.beginFork_size hbegin).ge.trans hgrows.framed.size_le)
    have hlast := hwithin.threads.size_le
    rcases hq with ⟨hq, -⟩ | ⟨hle, hlt⟩
    · have heq := hq.trans hchild
      have hgrown := ((h.stands hF.stands).grows hG).framed.size_le
      exact Or.inr ⟨heq.ge, heq.trans_lt (hsize.trans_le (hgrown.trans hlast))⟩
    · exact Or.inr ⟨hsize.le.trans hle, hlt.trans_le hlast⟩

end Frame

/-- What a walk has is part of a trace, and its events stand at their places. -/
structure Walk.Lasts (u : Walk) (t : Trace) : Prop where
  under : u.Under t
  event : ∀ q e, u.Has q e → t.event? q = some e

/-- What is part of a walk is part of the trace that the walk is part of. -/
theorem Walk.Within.lasts {u w : Walk} {t : Trace} (h : u.Within w) (hw : w.Lasts t) :
    u.Lasts t where
  under := ⟨h.arena.trans hw.under.arena, h.threads.trans hw.under.threads⟩
  event q e he := hw.event q e (h.has q e he)

/-- The events of the walking thread are the first events of the thread. -/
theorem Walk.Lasts.event?_eq {u : Walk} {t : Trace} (h : u.Lasts t) {j : ℕ} {e : Event}
    (he : u.self.events[j]? = some e) : t.event? ⟨u.self.thread, j⟩ = some e := by
  refine h.event _ _ ⟨Nat.le_refl _, ?_⟩
  rw [Walk.eventsOf, if_pos rfl]
  exact he

namespace Trace

variable {F : Frame} {t : Trace}

/-- The walk of the main thread of a trace ran. -/
theorem Begins.runs (h : Begins c F) (hbuild : build c = .ok t) :
    ∃ u last, F.run c (Runtime.ofProgram c.program c.settings.runtime) = .ok u ∧
      (Runtime.ofProgram c.program c.settings.runtime).finish u = .ok last ∧
      t = ⟨last.close.session.threads, last.session.arena, c.program, c.pointsTo⟩ ∧ u.Lasts t := by
  obtain ⟨log, hlog⟩ := exists_toured hbuild
  obtain ⟨G, u, last, hG, htour, hlast, rfl⟩ := hlog.ends hbuild
  obtain rfl := h.unique hG
  obtain ⟨hunder, hevent⟩ := h.under htour hlast c.program c.pointsTo
  exact ⟨u, last, htour.run, hlast, rfl, hunder, hevent⟩

/-- The parts that a build comes to are ready, and nothing is looked up there but routines with a
body. -/
theorem Reaches.ready (h : Reaches c r F) : F.Ready c ∧ F.walk.session.Backed c := by
  induction h with
  | begins h =>
    refine ⟨h.ready, ?_⟩
    obtain ⟨nodes, session, hsummary, rfl⟩ := h
    exact (Session.Learns.summary hsummary).backed (.empty c _)
  | leads _ hFG _ ih => exact ⟨hFG.ready ih.1, hFG.backed ih.1.stands ih.2⟩

/-- Every part that the build of a trace comes to ran to its end, and what it came to is part of the
trace. -/
theorem Reaches.runs (hbuild : build c = .ok t)
    (h : Reaches c (Runtime.ofProgram c.program c.settings.runtime) F) :
    ∃ u, F.run c (Runtime.ofProgram c.program c.settings.runtime) = .ok u ∧ u.Lasts t := by
  induction h with
  | begins h =>
    obtain ⟨u, -, hrun, -, -, hlasts⟩ := h.runs hbuild
    exact ⟨u, hrun, hlasts⟩
  | leads hF hFG hearnest ih =>
    obtain ⟨w, hrun, hlasts⟩ := ih
    obtain ⟨hready, hbacked⟩ := hF.ready
    obtain ⟨u, hu, hwithin⟩ := hFG.runs hearnest hready hbacked hrun
    exact ⟨u, hu, hwithin.lasts hlasts⟩

end Trace

end DataRace
