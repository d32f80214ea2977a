import DataRace.Proofs.Trace.Runs
import Mathlib.Logic.Relation

/-!
# Which routine a call event enters

A call event is recorded where a part of a walk enters a routine (`Frame.Opens`).  Two parts that
the same part asks for make different events, since one of them is done when the other begins
(`Frame.Asks.apart`).  So different parts that a build comes to record different call events, and a
call event of a trace enters one routine only (`Trace.Enters.unique`).
-/

namespace DataRace

open Relation

variable {c : Subject} {r : Runtime}

namespace Walk

variable {u v x w : Walk} {q : EventRef}

/-- An event is made before a walk or behind it, but not both. -/
theorem Spans.not_spans (h : Spans u v q) (huv : Framed u v) (hvx : Framed v x)
    (hin : u.self.thread < u.session.threads.size) : ¬ Spans x w q := by
  have hthread : x.self.thread = u.self.thread := hvx.thread_eq.trans huv.thread_eq
  have hin' : u.self.thread < x.session.threads.size :=
    hin.trans_le (huv.size_le.trans hvx.size_le)
  rintro (⟨hq, hle, -⟩ | ⟨hle, -⟩)
  · obtain ⟨-, -, hlt⟩ | ⟨hle', -⟩ := h
    · exact absurd (hvx.events_le.trans hle) (Nat.not_le.2 hlt)
    · exact absurd hin (Nat.not_lt.2 (hq.trans hthread ▸ hle'))
  · obtain ⟨hq, -⟩ | ⟨-, hlt⟩ := h
    · exact absurd hin' (Nat.not_lt.2 (hq ▸ hle))
    · exact absurd (hlt.trans_le hvx.size_le) (Nat.not_lt.2 hle)

/-- The events of a child and the threads behind it are made before its parent goes on. -/
theorem Spans.not_spans_endFork {id : NodeId} {entry : String} {child : ThreadId} {api : ForkApi}
    {handle : Operand} {session : Session} {inner last : Walk}
    (h : Spans { v.enterChild child api with session } inner q)
    (hin : u.self.thread < u.session.threads.size) (hbegin : u.beginFork id entry = .ok (child, v))
    (hsession : v.session.threads.size ≤ session.threads.size)
    (hinner : Framed (v.enterChild child api) inner) (hlast : Framed inner last) :
    ¬ Spans (v.endFork r id api handle last.close) w q := by
  obtain ⟨hchild, -⟩ := beginFork_spec hbegin
  obtain ⟨hown, -⟩ := endFork_spec hbegin r api handle last.close
  have hlt : child < v.session.threads.size := by
    rw [hchild, beginFork_size hbegin]
    exact Nat.lt_succ_self _
  obtain ⟨hle, hlt⟩ : child ≤ q.thread ∧ q.thread < inner.session.threads.size := by
    rcases h with ⟨hq, -⟩ | ⟨hle, hlt'⟩
    · have hq : q.thread = child := hq
      exact ⟨hq.ge, hq.trans_lt (hlt.trans_le hinner.size_le)⟩
    · exact ⟨hlt.le.trans (hsession.trans hle), hlt'⟩
  rintro (⟨hq, -⟩ | ⟨hge, -⟩)
  · exact absurd (hchild ▸ hin) (Nat.not_lt.2 (hq.trans hown ▸ hle))
  · have hge : last.close.session.threads.size ≤ q.thread := hge
    rw [size_close] at hge
    exact absurd (hlt.trans_le hlast.size_le) (Nat.not_lt.2 hge)

end Walk

namespace Frame

variable {F G H : Frame} {w' : Walk} {e : Event} {f : String}

/-- There is only one way past a routine without a body. -/
theorem Asks.eq_of_bodiless {ancestry opened : List String} {id : NodeId} {args : List Operand}
    {target : String} {targets : List String} {w : Walk} {nodes : Option (List NodeId)}
    {session : Session} (h : Asks c r (.calls ancestry opened id args (target :: targets) w) G)
    (hdef : c.program.definition? target = none)
    (hsummary : w.session.summary c target = .ok (nodes, session)) :
    G = .calls ancestry opened id args targets { w with session } := by
  obtain ⟨nodes', session', hsummary', rfl⟩ := h.2 hdef
  cases hsummary.symm.trans hsummary'
  rfl

/-- All events of a part are made before those of another, or by other threads. -/
def Precedes (c : Subject) (r : Runtime) (G H : Frame) : Prop :=
  ∃ u, G.run c r = .ok u ∧ ∀ q w, Walk.Spans G.walk u q → ¬ Walk.Spans H.walk w q

/-- A part asks for one part, and for another one when that is done. -/
inductive Splits (c : Subject) (r : Runtime) : Frame → Frame → Frame → Prop
  /-- A node, and those behind it. -/
  | node {ancestry opened : List String} {id : NodeId} {rest : List NodeId} {n : Node}
      {w v u : Walk} (hn : w.session.arena.get? id = some n) (hskip : w.isSkipped n = false)
      (hvisit : r.visit w.reach n opened.head? rest = .ok (true, v))
      (hu : v.handle c r ancestry opened id n = .ok u) :
      Splits c r (.nodes ancestry opened (id :: rest) w) (.node ancestry opened id n v)
        (.nodes ancestry opened rest u)
  /-- A routine, and the others that a call may reach. -/
  | routine {ancestry opened : List String} {id : NodeId} {args : List Operand} {target : String}
      {targets : List String} {w u v : Walk} {nodes : Option (List NodeId)} {session : Session}
      (hsummary : w.session.summary c target = .ok (nodes, session)) (hopen : target ∉ opened)
      (hrepeated : Walk.isRepeated c { w with session } target args = .ok (false, u))
      (hv : (u.record id .call).walk c r ancestry (target :: opened) (nodes.getD []) = .ok v) :
      Splits c r (.calls ancestry opened id args (target :: targets) w)
        (.nodes ancestry (target :: opened) (nodes.getD []) (u.record id .call))
        (.calls ancestry opened id args targets (v.record id .return))
  /-- A child, and the others that a fork may start. -/
  | child {ancestry opened : List String} {id : NodeId} {api : ForkApi} {handle : Operand}
      {entry : String} {entries : List String} {w v inner last : Walk} {child : ThreadId}
      {nodes : Option (List NodeId)} {session : Session} (hnew : entry ∉ ancestry)
      (hlimit : w.session.threads.size < c.settings.maxThreads)
      (hbegin : w.beginFork id entry = .ok (child, v))
      (hsummary : (v.enterChild child api).session.summary c entry = .ok (nodes, session))
      (hinner : Walk.WalksChild c r ancestry entry (v.enterChild child api) inner)
      (hlast : r.finish inner = .ok last) :
      Splits c r (.forks ancestry opened id api handle (entry :: entries) w)
        (.nodes (entry :: ancestry) [entry] (nodes.getD []) { v.enterChild child api with session })
        (.forks ancestry opened id api handle entries (v.endFork r id api handle last.close))

/-- The part asks for the first of the two. -/
theorem Splits.leads (h : Splits c r F G H) : F.Leads c r G := by
  cases h with
  | node hn hskip hvisit => exact .visit hn hskip hvisit
  | routine hsummary hopen hrepeated => exact .enter hsummary hopen hrepeated
  | child hnew hlimit hbegin hsummary => exact .start hnew hlimit hbegin hsummary

/-- The first part is done when the other begins. -/
theorem Splits.precedes (h : Splits c r F G H) (hF : F.Ready c)
    (hbacked : F.walk.session.Backed c) : G.Precedes c r H := by
  have hG := h.leads
  have hin := (hG.ready hF).sound.inTable
  have hstands := hG.stands hF.stands
  cases h with
  | node hn hskip hvisit hu =>
    exact ⟨_, hu, fun q w hq => hq.not_spans (hstands.grows (r := r) hu).framed
      (.of_eq rfl rfl rfl rfl) hin⟩
  | routine hsummary hopen hrepeated hv =>
    exact ⟨_, hv, fun q w hq => hq.not_spans (Walk.walk_grows hv).framed (.record _ _ _) hin⟩
  | child hnew hlimit hbegin hsummary hinner hlast =>
    refine ⟨_, (run_start_eq_ok (Walk.beginFork_backed _ hbegin hbacked) hsummary).2 hinner, ?_⟩
    exact fun q w hq => hq.not_spans_endFork hF.sound.inTable hbegin
      ((Session.Learns.summary hsummary).extends.threads ▸ Nat.le_refl _) hinner.grows.framed
      (Walk.finish_grows (c := c) hlast).framed

section

variable {ancestry opened : List String} {id : NodeId} {w : Walk}

/-- What nodes of a routine ask for. -/
theorem Leads.eq_or_splits_nodes {ids : List NodeId}
    (hG : Leads c r (.nodes ancestry opened ids w) G)
    (hH : Leads c r (.nodes ancestry opened ids w) H) :
    G = H ∨ Splits c r (.nodes ancestry opened ids w) G H ∨
      Splits c r (.nodes ancestry opened ids w) H G := by
  cases hG with
  | pass hn hskip =>
    cases hH with
    | pass => exact Or.inl rfl
    | visit hn' hskip' | next hn' hskip' =>
      cases hn.symm.trans hn'
      cases hskip.symm.trans hskip'
  | visit hn hskip hvisit =>
    cases hH with
    | pass hn' hskip' =>
      cases hn.symm.trans hn'
      cases hskip.symm.trans hskip'
    | visit hn' _ hvisit' =>
      cases hn.symm.trans hn'
      cases hvisit.symm.trans hvisit'
      exact Or.inl rfl
    | next hn' _ hvisit' hu =>
      cases hn.symm.trans hn'
      cases hvisit.symm.trans hvisit'
      exact Or.inr (Or.inl (.node hn hskip hvisit hu))
  | next hn hskip hvisit hu =>
    cases hH with
    | pass hn' hskip' =>
      cases hn.symm.trans hn'
      cases hskip.symm.trans hskip'
    | visit hn' _ hvisit' =>
      cases hn.symm.trans hn'
      cases hvisit.symm.trans hvisit'
      exact Or.inr (Or.inr (.node hn hskip hvisit hu))
    | next hn' _ hvisit' hu' =>
      cases hn.symm.trans hn'
      cases hvisit.symm.trans hvisit'
      cases hu.symm.trans hu'
      exact Or.inl rfl

/-- A node asks for one part at most. -/
theorem Leads.eq_of_node {n : Node} (hG : Leads c r (.node ancestry opened id n w) G)
    (hH : Leads c r (.node ancestry opened id n w) H) : G = H := by
  cases hG with
  | fork heffect =>
    cases hH with
    | fork heffect' =>
      cases heffect.symm.trans heffect'
      rfl
    | call heffect' => cases heffect.symm.trans heffect'
  | call heffect =>
    cases hH with
    | fork heffect' => cases heffect.symm.trans heffect'
    | call heffect' =>
      cases heffect.symm.trans heffect'
      rfl

/-- What a call of routines asks for. -/
theorem Asks.eq_or_splits_calls {args : List Operand} {targets : List String}
    (hG : Asks c r (.calls ancestry opened id args targets w) G)
    (hH : Asks c r (.calls ancestry opened id args targets w) H) :
    G = H ∨ Splits c r (.calls ancestry opened id args targets w) G H ∨
      Splits c r (.calls ancestry opened id args targets w) H G := by
  have hG' := hG
  have hH' := hH
  obtain ⟨hG, -⟩ := hG
  obtain ⟨hH, -⟩ := hH
  cases hG with
  | uncalled hsummary hpass =>
    rcases hpass with hdef | hmem
    · exact Or.inl (hH'.eq_of_bodiless hdef hsummary).symm
    · cases hH with
      | uncalled hsummary' =>
        cases hsummary.symm.trans hsummary'
        exact Or.inl rfl
      | repeated _ hopen | enter _ hopen | leave _ hopen => exact absurd hmem hopen
  | repeated hsummary hopen hrepeated =>
    cases hH with
    | uncalled hsummary' hpass =>
      exact Or.inl (hG'.eq_of_bodiless (hpass.resolve_right hopen) hsummary')
    | repeated hsummary' _ hrepeated' =>
      cases hsummary.symm.trans hsummary'
      cases hrepeated.symm.trans hrepeated'
      exact Or.inl rfl
    | enter hsummary' _ hrepeated' | leave hsummary' _ hrepeated' =>
      cases hsummary.symm.trans hsummary'
      cases hrepeated.symm.trans hrepeated'
  | enter hsummary hopen hrepeated =>
    cases hH with
    | uncalled hsummary' hpass =>
      exact Or.inl (hG'.eq_of_bodiless (hpass.resolve_right hopen) hsummary')
    | repeated hsummary' _ hrepeated' =>
      cases hsummary.symm.trans hsummary'
      cases hrepeated.symm.trans hrepeated'
    | enter hsummary' _ hrepeated' =>
      cases hsummary.symm.trans hsummary'
      cases hrepeated.symm.trans hrepeated'
      exact Or.inl rfl
    | leave hsummary' _ hrepeated' hv =>
      cases hsummary.symm.trans hsummary'
      cases hrepeated.symm.trans hrepeated'
      exact Or.inr (Or.inl (.routine hsummary hopen hrepeated hv))
  | leave hsummary hopen hrepeated hv =>
    cases hH with
    | uncalled hsummary' hpass =>
      exact Or.inl (hG'.eq_of_bodiless (hpass.resolve_right hopen) hsummary')
    | repeated hsummary' _ hrepeated' =>
      cases hsummary.symm.trans hsummary'
      cases hrepeated.symm.trans hrepeated'
    | enter hsummary' _ hrepeated' =>
      cases hsummary.symm.trans hsummary'
      cases hrepeated.symm.trans hrepeated'
      exact Or.inr (Or.inr (.routine hsummary hopen hrepeated hv))
    | leave hsummary' _ hrepeated' hv' =>
      cases hsummary.symm.trans hsummary'
      cases hrepeated.symm.trans hrepeated'
      cases hv.symm.trans hv'
      exact Or.inl rfl

/-- What a fork of children asks for. -/
theorem Leads.eq_or_splits_forks {api : ForkApi} {handle : Operand} {entries : List String}
    (hG : Leads c r (.forks ancestry opened id api handle entries w) G)
    (hH : Leads c r (.forks ancestry opened id api handle entries w) H) :
    G = H ∨ Splits c r (.forks ancestry opened id api handle entries w) G H ∨
      Splits c r (.forks ancestry opened id api handle entries w) H G := by
  cases hG with
  | unstarted hpass =>
    cases hH with
    | unstarted => exact Or.inl rfl
    | start hnew hlimit | ended hnew hlimit =>
      exact absurd hpass (not_or.2 ⟨hnew, Nat.not_le.2 hlimit⟩)
  | start hnew hlimit hbegin hsummary =>
    cases hH with
    | unstarted hpass => exact absurd hpass (not_or.2 ⟨hnew, Nat.not_le.2 hlimit⟩)
    | start _ _ hbegin' hsummary' =>
      cases hbegin.symm.trans hbegin'
      cases hsummary.symm.trans hsummary'
      exact Or.inl rfl
    | ended _ _ hbegin' hinner hlast =>
      cases hbegin.symm.trans hbegin'
      exact Or.inr (Or.inl (.child hnew hlimit hbegin hsummary hinner hlast))
  | ended hnew hlimit hbegin hinner hlast =>
    cases hH with
    | unstarted hpass => exact absurd hpass (not_or.2 ⟨hnew, Nat.not_le.2 hlimit⟩)
    | start _ _ hbegin' hsummary =>
      cases hbegin.symm.trans hbegin'
      exact Or.inr (Or.inr (.child hnew hlimit hbegin hsummary hinner hlast))
    | ended _ _ hbegin' hinner' hlast' =>
      cases hbegin.symm.trans hbegin'
      obtain rfl := hinner.unique hinner'
      cases hlast.symm.trans hlast'
      exact Or.inl rfl

end

/-- Two parts that a part asks for are the same, or one is asked for when the other is done. -/
theorem Asks.eq_or_splits (hG : Asks c r F G) (hH : Asks c r F H) :
    G = H ∨ Splits c r F G H ∨ Splits c r F H G := by
  cases F with
  | nodes => exact hG.1.eq_or_splits_nodes hH.1
  | node => exact Or.inl (hG.1.eq_of_node hH.1)
  | calls => exact hG.eq_or_splits_calls hH
  | forks => exact hG.1.eq_or_splits_forks hH.1

/-- Two parts that a part asks for are the same, or one comes before the other. -/
theorem Asks.apart (hF : F.Ready c) (hbacked : F.walk.session.Backed c) (hG : Asks c r F G)
    (hH : Asks c r F H) : G = H ∨ G.Precedes c r H ∨ H.Precedes c r G :=
  (hG.eq_or_splits hH).imp_right fun h =>
    h.imp (fun h => h.precedes hF hbacked) fun h => h.precedes hF hbacked

/-! ### Parts that enter a routine -/

/-- The next event of a part is the call event of a routine that its thread enters there. -/
inductive Opens (c : Subject) : Frame → Event → String → Prop
  | enter {ancestry opened : List String} {id : NodeId} {args : List Operand} {f : String}
      {targets : List String} {w u : Walk} {nodes : Option (List NodeId)} {session : Session}
      {routine : Routine} (hsummary : w.session.summary c f = .ok (nodes, session))
      (hdef : c.program.definition? f = some routine) (hopen : f ∉ opened)
      (hrepeated : Walk.isRepeated c { w with session } f args = .ok (false, u)) :
      Opens c (.calls ancestry opened id args (f :: targets) w)
        ⟨u.self.thread, u.self.events.size, id, .call⟩ f

namespace Opens

/-- A part enters one routine. -/
theorem unique {e' : Event} {f' : String} (h : F.Opens c e f) (h' : F.Opens c e' f') : f = f' := by
  cases h
  cases h'
  rfl

/-- The call event is the next event of its thread. -/
theorem ref_eq (h : F.Opens c e f) : e.ref = ⟨F.walk.self.thread, F.walk.self.events.size⟩ := by
  cases h with
  | enter _ _ _ hrepeated => obtain ⟨session, -, rfl | rfl⟩ := Walk.isRepeated_eq hrepeated <;> rfl

/-- The call event is made between the beginning and the end of the part. -/
theorem spans (h : F.Opens c e f) (hF : F.Ready c) (hbacked : F.walk.session.Backed c)
    (hrun : F.run c r = .ok w') : Walk.Spans F.walk w' e.ref := by
  have href := h.ref_eq
  cases h with
  | @enter ancestry opened id args f targets w u nodes session routine hsummary hdef hopen
      hrepeated =>
    have henter : Leads c r (.calls ancestry opened id args (f :: targets) w)
        (.nodes ancestry (f :: opened) (nodes.getD []) (u.record id .call)) :=
      .enter hsummary hopen hrepeated
    obtain ⟨v, hv, hwithin⟩ := henter.runs (earnest_of_definition hdef _) hF hbacked hrun
    have hthread : u.self.thread = w.self.thread := (congrArg EventRef.thread href :)
    have hgrown := ((henter.stands hF.stands).grows hv).framed
    have hle := hwithin.size_le
      (((hF.stands.grows hrun).framed.thread_eq.trans hthread.symm).trans hgrown.thread_eq.symm)
    refine Or.inl ⟨hthread, (congrArg EventRef.index href).ge, ?_⟩
    exact (Array.size_push _).ge.trans (hgrown.events_le.trans hle)

/-- The call event is made before the parts that the part asks for. -/
theorem not_spans (h : F.Opens c e f) (hF : F.Ready c) (hG : Asks c r F G) {w : Walk} :
    ¬ Walk.Spans G.walk w e.ref := by
  have hinTable := (hG.1.ready hF).sound.inTable
  cases h with
  | @enter ancestry opened id args f targets w' u nodes session routine hsummary hdef hopen
      hrepeated =>
    have hframe : Walk.Framed (u.record id .call) G.walk := by
      cases hG.1 with
      | uncalled _ hpass =>
        rcases hpass with hnone | hmem
        · cases hdef.symm.trans hnone
        · exact absurd hmem hopen
      | repeated hsummary' _ hrepeated' =>
        cases hsummary.symm.trans hsummary'
        cases hrepeated.symm.trans hrepeated'
      | enter hsummary' _ hrepeated' =>
        cases hsummary.symm.trans hsummary'
        cases hrepeated.symm.trans hrepeated'
        exact .of_eq rfl rfl rfl rfl
      | leave hsummary' _ hrepeated' hv =>
        cases hsummary.symm.trans hsummary'
        cases hrepeated.symm.trans hrepeated'
        exact (Walk.walk_grows hv).framed.trans (.record _ _ _)
    rintro (⟨-, hle, -⟩ | ⟨hle, -⟩)
    · exact absurd ((Array.size_push _).ge.trans (hframe.events_le.trans hle))
        (Nat.not_succ_le_self _)
    · exact absurd hinTable (Nat.not_lt.2 (hframe.thread_eq ▸ hle))

end Opens

/-- An event with which some part of a part enters a routine is made by that. -/
theorem spans_of_path (hpath : ReflTransGen (Asks c r) F G) (hG : G.Opens c e f) (hF : F.Ready c)
    (hbacked : F.walk.session.Backed c) (hrun : F.run c r = .ok w') :
    Walk.Spans F.walk w' e.ref := by
  induction hpath using ReflTransGen.head_induction_on generalizing w' with
  | refl => exact hG.spans hF hbacked hrun
  | head hFH _ ih =>
    obtain ⟨hleads, hearnest⟩ := hFH
    obtain ⟨u, hu, hwithin⟩ := hleads.runs hearnest hF hbacked hrun
    exact hleads.spans hF hrun hu hwithin
      (ih (hleads.ready hF) (hleads.backed hF.stands hbacked) hu)

/-- Two parts of a part that make the same call event enter the same routine. -/
theorem eq_of_paths {f' : String} (hG : ReflTransGen (Asks c r) F G) (hopens : G.Opens c e f)
    (hH : ReflTransGen (Asks c r) F H) (hopens' : H.Opens c e f') (hF : F.Ready c)
    (hbacked : F.walk.session.Backed c) (hrun : F.run c r = .ok w') : f = f' := by
  -- A part that makes an event does not ask for parts that make it.
  have hnot : ∀ {F K H : Frame} {f f' : String} {w' : Walk}, F.Ready c →
      F.walk.session.Backed c → F.run c r = .ok w' → F.Opens c e f → Asks c r F K →
        ReflTransGen (Asks c r) K H → ¬ H.Opens c e f' := by
    intro F K H f f' w' hF hbacked hrun hopens hK hKH hopens'
    obtain ⟨u, hu, -⟩ := hK.1.runs hK.2 hF hbacked hrun
    exact hopens.not_spans hF hK
      (spans_of_path hKH hopens' (hK.1.ready hF) (hK.1.backed hF.stands hbacked) hu)
  induction hG using ReflTransGen.head_induction_on generalizing w' with
  | refl =>
    rcases hH.cases_head with rfl | ⟨K, hK, hKH⟩
    · exact hopens.unique hopens'
    · exact absurd hopens' (hnot hF hbacked hrun hopens hK hKH)
  | @head F K hK hKG ih =>
    have hready := hK.1.ready hF
    have hbacked' := hK.1.backed hF.stands hbacked
    obtain ⟨u, hu, -⟩ := hK.1.runs hK.2 hF hbacked hrun
    rcases hH.cases_head with rfl | ⟨L, hL, hLH⟩
    · exact absurd hopens (hnot hF hbacked hrun hopens' hK hKG)
    · obtain ⟨v, hv, -⟩ := hL.1.runs hL.2 hF hbacked hrun
      have hspans := spans_of_path hKG hopens hready hbacked' hu
      have hspans' := spans_of_path hLH hopens' (hL.1.ready hF) (hL.1.backed hF.stands hbacked) hv
      rcases hK.apart hF hbacked hL with rfl | ⟨u', hu', happart⟩ | ⟨v', hv', happart⟩
      · exact ih hLH hready hbacked' hu
      · cases hu.symm.trans hu'
        exact absurd hspans' (happart _ _ hspans)
      · cases hv.symm.trans hv'
        exact absurd hspans (happart _ _ hspans')

end Frame

namespace Trace

/-- An event of a build is the call event of a routine that its thread enters. -/
def Enters (c : Subject) (r : Runtime) (e : Event) (f : String) : Prop :=
  ∃ F, Reaches c r F ∧ F.Opens c e f

/-- The parts that a build comes to are asked for by the walk of the main thread. -/
theorem Reaches.exists_path {G : Frame} (h : Reaches c r G) :
    ∃ F, Begins c F ∧ ReflTransGen (Frame.Asks c r) F G := by
  induction h with
  | begins h => exact ⟨_, h, .refl⟩
  | leads _ hFG hearnest ih =>
    obtain ⟨F, hF, hpath⟩ := ih
    exact ⟨F, hF, hpath.tail ⟨hFG, hearnest⟩⟩

/-- In a build that succeeds, a call event enters one routine only. -/
theorem Enters.unique {t : Trace} {e : Event} {f f' : String} (hbuild : build c = .ok t)
    (h : Enters c (Runtime.ofProgram c.program c.settings.runtime) e f)
    (h' : Enters c (Runtime.ofProgram c.program c.settings.runtime) e f') : f = f' := by
  obtain ⟨G, hG, hopens⟩ := h
  obtain ⟨H, hH, hopens'⟩ := h'
  obtain ⟨F, hF, hFG⟩ := hG.exists_path
  obtain ⟨F', hF', hFH⟩ := hH.exists_path
  obtain rfl := hF.unique hF'
  obtain ⟨w, hrun, -⟩ := (Reaches.begins hF).runs hbuild
  obtain ⟨hready, hbacked⟩ := (Reaches.begins hF).ready (r := default)
  exact Frame.eq_of_paths hFG hopens hFH hopens' hready hbacked hrun

end Trace

end DataRace
