import DataRace.Proofs.Dedup.Expansion
import DataRace.Proofs.Trace.Reaches

/-!
# Repeated calls were expanded

With deduplicated calls, a call that is passed over has been expanded to its end in the same thread,
with the same arguments, and nothing was synchronised and no locks were changed since that expansion
began (`Trace.repeated_call`).

A call is noted before it is expanded, and the note is seen by the calls inside the expansion.  It
is not taken for a call that is done, since the routine is open until then: among the calls that a
thread keeps, every one is of an open routine or was expanded to its end (`Frame.Keeps`).  This
holds of all parts of walks that a build comes to (`Trace.Reaches.keeps`), because what a part that
ends keeps was kept before it through quiet events, or was expanded since (`Walk.Settles`).

Calls are forgotten at every event that synchronises or changes locks.  That is the same as to keep
them for good with the context in which they were noted (`Walk.context`), since a context never
returns (`Walk.context_eq_iff`).
-/

namespace DataRace

variable {c : Subject} {r : Runtime}

/-- A call is found to have no effects on threads and is noted, for it is to be expanded. -/
def Walk.Notes (c : Subject) (w : Walk) (call : String × List Operand) (u : Walk) : Prop :=
  (∃ session, w.session.hasThreadEffects c call.1 = .ok (false, session)) ∧
    w.isRepeated c call.1 call.2 = .ok (false, u)

/-- A call that is noted is kept. -/
theorem Walk.Notes.mem {w u : Walk} {call : String × List Operand} (h : w.Notes c call u)
    (hdedup : c.settings.dedupCalls = true) : call ∈ u.self.expanded := by
  obtain ⟨⟨session, heffects⟩, hrepeated⟩ := h
  obtain ⟨_, _, heffects', ⟨rfl, -, -⟩ | ⟨-, hfalse, -⟩ | ⟨-, -, rfl⟩⟩ :=
    isRepeated_cases hdedup hrepeated
  · rw [heffects] at heffects'
    cases heffects'
  · cases hfalse
  · exact List.mem_cons_self

/-- A call is noted and expanded to its end, between a call and a return event. -/
def Trace.Expansion (c : Subject) (r : Runtime) (call : String × List Operand) (id : NodeId)
    (u v : Walk) : Prop :=
  ∃ ancestry opened nodes w, Comes c r ancestry opened id call nodes w ∧ w.Notes c call u ∧
    (u.record id .call).walk c r ancestry (call.1 :: opened) (nodes.getD []) = .ok v

/-- A thread has expanded a call to its end, and has made only quiet events since it noted it. -/
def Trace.Expanded (c : Subject) (r : Runtime) (w : Walk) (call : String × List Operand) : Prop :=
  ∃ id u v, Expansion c r call id u v ∧ Walk.Grows c r (v.record id .return) w ∧ u.Since w

/-- What was expanded stays so while only quiet events are made. -/
theorem Trace.Expanded.mono {v w : Walk} {call : String × List Operand}
    (h : Expanded c r v call) (hgrows : Walk.Grows c r v w) (hsince : v.Since w) :
    Expanded c r w call := by
  obtain ⟨id, u, x, hexpansion, hxv, huv⟩ := h
  exact ⟨id, u, x, hexpansion, hxv.trans hgrows, huv.trans hsince⟩

namespace Walk

variable {u v w w' : Walk} {call : String × List Operand} {repeated : Bool}

/-! ### What a part keeps -/

/-- Asking whether a call is repeated makes no events. -/
theorem isRepeated_since (hdedup : c.settings.dedupCalls = true)
    (h : w.isRepeated c call.1 call.2 = .ok (repeated, u)) : w.Since u := by
  obtain ⟨effects, session, -, ⟨-, -, rfl⟩ | ⟨-, -, -, rfl⟩ | ⟨-, -, rfl⟩⟩ :=
    isRepeated_cases hdedup h <;> exact .of_eq rfl

/-- Nothing but that call may be noted. -/
theorem mem_expanded_of_isRepeated (hdedup : c.settings.dedupCalls = true)
    (h : w.isRepeated c call.1 call.2 = .ok (repeated, u)) {x : String × List Operand}
    (hx : x ∈ u.self.expanded) : x ∈ w.self.expanded ∨ x = call ∧ w.Notes c call u := by
  obtain ⟨effects, session, heffects, ⟨-, -, rfl⟩ | ⟨-, -, -, rfl⟩ | ⟨rfl, rfl, rfl⟩⟩ :=
    isRepeated_cases hdedup h
  · exact Or.inl hx
  · exact Or.inl hx
  · exact (List.mem_cons.1 hx).symm.imp_right fun heq => ⟨heq, ⟨session, heffects⟩, h⟩

/-- A thread has grown, and the calls that it keeps were kept before through quiet events, or were
expanded to their end. -/
structure Settles (c : Subject) (r : Runtime) (w w' : Walk) : Prop where
  grows : Grows c r w w'
  calls : ∀ call ∈ w'.self.expanded,
    call ∈ w.self.expanded ∧ w.Since w' ∨ Trace.Expanded c r w' call

namespace Settles

/-- The same calls are kept through quiet events. -/
theorem of_since (hgrows : Grows c r w w') (hexpanded : w'.self.expanded = w.self.expanded)
    (hsince : w.Since w') : Settles c r w w' :=
  ⟨hgrows, fun _ hcall => Or.inl ⟨hexpanded ▸ hcall, hsince⟩⟩

/-- What expands nothing. -/
theorem of_rolls (hgrows : Grows c r w w') (h : Rolls w w') : Settles c r w w' := by
  rcases h with ⟨hexpanded, hhush⟩ | ⟨hnil, -⟩
  · exact .of_since hgrows hexpanded hhush.since
  · refine ⟨hgrows, fun call hcall => ?_⟩
    rw [hnil] at hcall
    cases hcall

/-- One part after the other. -/
theorem trans (huv : Settles c r u v) (hvw : Settles c r v w) : Settles c r u w := by
  refine ⟨huv.grows.trans hvw.grows, fun call hcall => ?_⟩
  rcases hvw.calls call hcall with ⟨hkept, hsince⟩ | hexpanded
  · rcases huv.calls call hkept with ⟨hkept', hsince'⟩ | hexpanded
    · exact Or.inl ⟨hkept', hsince'.trans hsince⟩
    · exact Or.inr (hexpanded.mono hvw.grows hsince)
  · exact Or.inr hexpanded

/-- A routine is looked up. -/
theorem summary {f : String} {nodes : Option (List NodeId)} {session : Session}
    (h : w.session.summary c f = .ok (nodes, session)) : Settles c r w { w with session } :=
  .of_since (.consult (.summary h)) rfl (.of_eq rfl)

/-- What a runtime does at a node. -/
theorem visit {n : Node} {routine : Option String} {rest : List NodeId} {opens : Bool}
    (h : r.visit w.reach n routine rest = .ok (opens, v)) : Settles c r w v := by
  have hreach : Rolls w w.reach := Or.inl ⟨rfl, .of_eq (.refl _) rfl⟩
  exact .of_rolls ((Grows.skip w none).trans (visit_grows h))
    (hreach.trans (visit_ticks (c := c) h).rolls)

/-- A repeated call is passed over. -/
theorem passed (hdedup : c.settings.dedupCalls = true) {target : String} {args : List Operand}
    (h : w.isRepeated c target args = .ok (true, u)) : Settles c r w u := by
  have hcall : w.isRepeated c (target, args).1 (target, args).2 = .ok (true, u) := h
  refine ⟨isRepeated_grows h, fun x hx => ?_⟩
  rcases mem_expanded_of_isRepeated hdedup hcall hx with hkept | ⟨-, -, hfalse⟩
  · exact Or.inl ⟨hkept, isRepeated_since hdedup hcall⟩
  · rw [h] at hfalse
    cases hfalse

/-- A call is expanded: at the return event it is done, if it is kept at all. -/
theorem expand (hdedup : c.settings.dedupCalls = true) {ancestry opened : List String}
    {id : NodeId} {nodes : Option (List NodeId)}
    (hcomes : Trace.Comes c r ancestry opened id call nodes w)
    (hrepeated : w.isRepeated c call.1 call.2 = .ok (false, u))
    (hv : (u.record id .call).walk c r ancestry (call.1 :: opened) (nodes.getD []) = .ok v)
    (hinner : Settles c r (u.record id .call) v) : Settles c r w (v.record id .return) := by
  have hu : Grows c r w u := isRepeated_grows hrepeated
  have hwv : Grows c r w v := (hu.trans (hcomes.record hu rfl rfl)).trans hinner.grows
  have hlast : Grows c r v (v.record id .return) := hcomes.record hwv rfl rfl
  have hreturn : v.Since (v.record id .return) := .record v id ⟨rfl, rfl⟩
  refine ⟨hwv.trans hlast, fun x hx => ?_⟩
  rcases hinner.calls x hx with ⟨hkept, hsince⟩ | hexpanded
  · have hcall : u.Since (u.record id .call) := .record u id ⟨rfl, rfl⟩
    have hquiet : u.Since (v.record id .return) := hcall.trans (hsince.trans hreturn)
    rcases mem_expanded_of_isRepeated hdedup hrepeated hkept with hkept | ⟨rfl, hnotes⟩
    · exact Or.inl ⟨hkept, (isRepeated_since hdedup hrepeated).trans hquiet⟩
    · exact Or.inr ⟨id, u, v, ⟨ancestry, opened, nodes, w, hcomes, hnotes, hv⟩, .refl _, hquiet⟩
  · exact Or.inr (hexpanded.mono hlast hreturn)

end Settles

end Walk

namespace Frame

open Walk

/-- A part that ends settles the calls. -/
def Settling (c : Subject) (r : Runtime) (F : Frame) : Prop :=
  Trace.Reaches c r F → ∀ w', F.run c r = .ok w' → Settles c r F.walk w'

section

variable {ancestry opened : List String} {id : NodeId} {args : List Operand} {w v u : Walk}

/-- A node that is done. -/
theorem Settling.next {rest : List NodeId} {n : Node} {opens : Bool}
    (h : ∀ v, Settling c r (.node ancestry opened id n v))
    (hreach : Trace.Reaches c r (.nodes ancestry opened (id :: rest) w))
    (hn : w.session.arena.get? id = some n) (hskip : w.isSkipped n = false)
    (hvisit : r.visit w.reach n opened.head? rest = .ok (opens, v))
    (hu : (if opens then v.handle c r ancestry opened id n else .ok v) = .ok u) :
    Settles c r w u := by
  have hv : Settles c r w v := .visit hvisit
  cases opens with
  | true => exact hv.trans (h v (hreach.leads (.visit hn hskip hvisit) trivial) u hu)
  | false =>
    cases hu
    exact hv

/-- A node and those behind it. -/
theorem Settling.cons {rest : List NodeId}
    (hrest : ∀ v, Settling c r (.nodes ancestry opened rest v))
    (hnode : ∀ n v, Settling c r (.node ancestry opened id n v)) :
    Settling c r (.nodes ancestry opened (id :: rest) w) := by
  intro hreach w' h
  obtain ⟨n, hn, ⟨hskip, h⟩ | ⟨hskip, opens, v, u, hvisit, hu, h⟩⟩ := walk_cons_ok h
  · exact hrest w (hreach.leads (.pass hn hskip) trivial) w' h
  · have hstep := hreach.leads (.next hn hskip hvisit hu) trivial
    exact (Settling.next (hnode n) hreach hn hskip hvisit hu).trans (hrest u hstep w' h)

/-- A call that is expanded. -/
theorem Settling.leave (hdedup : c.settings.dedupCalls = true) {target : String}
    {targets : List String} {nodes : Option (List NodeId)} {session : Session} {routine : Routine}
    (h : Settling c r (.nodes ancestry (target :: opened) (nodes.getD []) (u.record id .call)))
    (hreach : Trace.Reaches c r (.calls ancestry opened id args (target :: targets) w))
    (hsummary : w.session.summary c target = .ok (nodes, session))
    (hdef : c.program.definition? target = some routine) (hopen : target ∉ opened)
    (hrepeated : isRepeated c { w with session } target args = .ok (false, u))
    (hv : (u.record id .call).walk c r ancestry (target :: opened) (nodes.getD []) = .ok v) :
    Settles c r w (v.record id .return) := by
  have hcomes : Trace.Comes c r ancestry opened id (target, args) nodes { w with session } :=
    ⟨targets, w, session, hreach, hsummary, rfl, ⟨routine, hdef⟩, hopen⟩
  have hinner := h (hreach.leads (.enter hsummary hopen hrepeated) (earnest_of_definition hdef _))
  exact (Settles.summary hsummary).trans (.expand hdedup hcomes hrepeated hv (hinner v hv))

/-- A routine that a call may reach, and those behind it. -/
theorem Settling.call_cons (hdedup : c.settings.dedupCalls = true) {target : String}
    {targets : List String} (hrest : ∀ v, Settling c r (.calls ancestry opened id args targets v))
    (hwalk : ∀ (nodes : Option (List NodeId)) routine, c.program.definition? target = some routine →
      target ∉ opened → ∀ v : Walk,
        Settling c r (.nodes ancestry (target :: opened) (nodes.getD []) (v.record id .call))) :
    Settling c r (.calls ancestry opened id args (target :: targets) w) := by
  intro hreach w' h
  obtain ⟨nodes, session, hsummary, h⟩ := callAll_cons_ok h
  obtain ⟨hpass, h⟩ | ⟨routine, hdef, hopen, repeated, u, hrepeated, h⟩ := h
  · have hstep := hreach.leads (.uncalled hsummary hpass) fun _ => ⟨nodes, session, hsummary, rfl⟩
    exact (Settles.summary hsummary).trans (hrest _ hstep w' h)
  · have hearnest : ∀ G, Earnest c (.calls ancestry opened id args (target :: targets) w) G :=
      earnest_of_definition hdef
    obtain ⟨rfl, h⟩ | ⟨rfl, v, hv, h⟩ := h
    · have hstep := hreach.leads (.repeated hsummary hopen hrepeated) (hearnest _)
      have hpassed : Settles c r { w with session } u := .passed hdedup hrepeated
      exact ((Settles.summary hsummary).trans hpassed).trans (hrest u hstep w' h)
    · have hstep := hreach.leads (.leave hsummary hopen hrepeated hv) (hearnest _)
      exact (Settling.leave hdedup (hwalk nodes routine hdef hopen u) hreach hsummary hdef hopen
        hrepeated hv).trans (hrest _ hstep w' h)

/-- A child that has ended. -/
theorem settles_endFork {api : ForkApi} {handle : Operand} {entry : String} {entries : List String}
    {inner last : Walk} {child : ThreadId}
    (hreach : Trace.Reaches c r (.forks ancestry opened id api handle (entry :: entries) w))
    (hlimit : w.session.threads.size < c.settings.maxThreads)
    (hbegin : w.beginFork id entry = .ok (child, v))
    (hinner : WalksChild c r ancestry entry (v.enterChild child api) inner)
    (hlast : r.finish inner = .ok last) :
    Settles c r w (v.endFork r id api handle last.close) := by
  obtain ⟨n, source, hn, heffect, hentries⟩ := hreach.stands
  exact .of_rolls (.fork hn heffect (List.cons_subset.1 hentries).1 hlimit hbegin hinner.grows
    (finish_grows hlast) hlast) (endFork_rolls hbegin r api handle last.close)

end

/-- All parts that end settle the calls. -/
theorem all_settle (hdedup : c.settings.dedupCalls = true) (r : Runtime) :
    (∀ ancestry opened ids w, Settling c r (.nodes ancestry opened ids w)) ∧
      (∀ ancestry opened id n w, Settling c r (.node ancestry opened id n w)) ∧
      (∀ ancestry opened id args targets w,
        Settling c r (.calls ancestry opened id args targets w)) ∧
      ∀ ancestry opened id api handle entries w,
        Settling c r (.forks ancestry opened id api handle entries w) := by
  apply Walk.walk.mutual_induct c r
    (fun ancestry opened ids w => Settling c r (.nodes ancestry opened ids w))
    (fun ancestry opened id n w => Settling c r (.node ancestry opened id n w))
    (fun ancestry opened id args targets w =>
      Settling c r (.calls ancestry opened id args targets w))
    (fun ancestry opened id api handle entries w =>
      Settling c r (.forks ancestry opened id api handle entries w))
  -- A list of nodes.
  case case1 =>
    intro ancestry opened w _ w' h
    rw [run, Walk.walk] at h
    cases h
    exact .of_since (.refl w) rfl (.refl w)
  case case2 => exact fun _ _ _ _ _ _ ihrest ihnode => .cons ihrest ihnode
  -- A node.
  case case3 | case4 | case5 | case6 | case7 | case8 =>
    intros
    rename_i heffect
    intro hreach w' h
    have hgrows := hreach.stands.grows h
    rw [run, Walk.handle, heffect] at h
    cases h
    exact .of_rolls hgrows (.record _ _ _)
  case case9 =>
    intro ancestry opened id n w api operand fork heffect hreach w' h
    have hgrows := hreach.stands.grows h
    rw [run, Walk.handle, heffect] at h
    exact .of_rolls hgrows (joinCompanion_ticks (c := c) h).rolls
  case case10 =>
    intro ancestry opened id n w api operand heffect hreach w' h
    have hgrows := hreach.stands.grows h
    rw [run, Walk.handle, heffect] at h
    cases h
    exact .of_rolls hgrows (joinHandle_ticks (c := c) id operand).rolls
  case case11 =>
    intro ancestry opened id n w api operand entry heffect ih hreach w' h
    rw [run, Walk.handle, heffect] at h
    have hmeet : Settles c r w (w.meetFork id) := .of_since (.meet w id) rfl (.of_eq rfl)
    exact hmeet.trans (ih (hreach.leads (.fork heffect) trivial) w' h)
  case case12 =>
    intro ancestry opened id n w api callee args heffect hruntime _ w' h
    rw [run, Walk.handle, heffect] at h
    dsimp only at h
    rw [if_pos hruntime] at h
    cases h
    exact .of_since (.refl w) rfl (.refl w)
  case case13 =>
    intro ancestry opened id n w api callee args heffect hplain ih hreach w' h
    rw [run, Walk.handle, heffect] at h
    dsimp only at h
    rw [if_neg hplain] at h
    exact ih (hreach.leads (.call heffect (Bool.eq_false_iff.2 hplain)) trivial) w' h
  -- The routines of a call.
  case case14 =>
    intro ancestry opened id args w _ w' h
    rw [run, Walk.callAll] at h
    cases h
    exact .of_since (.refl w) rfl (.refl w)
  case case15 => exact fun _ _ _ _ _ _ _ _ ihrest ihwalk _ => .call_cons hdedup ihrest ihwalk
  -- The children of a fork.
  case case16 =>
    intro ancestry opened id api operand w _ w' h
    rw [run, Walk.forkAll] at h
    cases h
    exact .of_since (.refl w) rfl (.refl w)
  case case17 =>
    intro ancestry opened id api operand entry entries w hpass ih hreach w' h
    rw [run, Walk.forkAll, dif_pos hpass] at h
    exact ih (hreach.leads (.unstarted (Or.inl hpass)) trivial) w' h
  case case18 =>
    intro ancestry opened id api operand entry entries w hnew hlimit ih hreach w' h
    rw [run, Walk.forkAll, dif_neg hnew, if_pos hlimit] at h
    exact ih (hreach.leads (.unstarted (Or.inr hlimit)) trivial) w' h
  case case19 =>
    intro ancestry opened id api operand entry entries w hnew hlimit ihrest _ hreach w' h
    obtain ⟨hpass, -⟩ | ⟨-, hlt, child, v, inner, last, hbegin, hinner, hlast, h⟩ :=
      forkAll_cons_ok h
    · exact absurd hpass (not_or.2 ⟨hnew, hlimit⟩)
    · have hstep := hreach.leads (.ended hnew hlt hbegin hinner hlast) trivial
      exact (settles_endFork hreach hlt hbegin hinner hlast).trans
        (ihrest v last.close hstep w' h)

/-! ### What a thread keeps -/

/-- The calls that a thread keeps are of open routines or were expanded to their end. -/
def Keeps (c : Subject) (r : Runtime) (opened : List String) (w : Walk) : Prop :=
  ∀ call ∈ w.self.expanded, call.1 ∈ opened ∨ Trace.Expanded c r w call

variable {F G : Frame} {opened : List String} {w w' : Walk}

/-- What settles the calls keeps this. -/
theorem Keeps.settle (h : Keeps c r opened w) (hsettles : Settles c r w w') :
    Keeps c r opened w' := by
  intro call hcall
  rcases hsettles.calls call hcall with ⟨hkept, hsince⟩ | hexpanded
  · exact (h call hkept).imp_right fun hdone => hdone.mono hsettles.grows hsince
  · exact Or.inr hexpanded

/-- A thread that begins keeps nothing. -/
theorem Keeps.of_nil (h : w.self.expanded = []) : Keeps c r opened w := by
  intro call hcall
  rw [h] at hcall
  cases hcall

/-- A routine that is called is open, whether or not the call is noted. -/
theorem Keeps.enter (hdedup : c.settings.dedupCalls = true) {ancestry : List String} {id : NodeId}
    {call : String × List Operand} {nodes : Option (List NodeId)} {u : Walk}
    (h : Keeps c r opened w) (hcomes : Trace.Comes c r ancestry opened id call nodes w)
    (hrepeated : w.isRepeated c call.1 call.2 = .ok (false, u)) :
    Keeps c r (call.1 :: opened) (u.record id .call) := by
  have hu : Grows c r w u := isRepeated_grows hrepeated
  have hgrows : Grows c r w (u.record id .call) := hu.trans (hcomes.record hu rfl rfl)
  have hsince : w.Since (u.record id .call) :=
    (isRepeated_since hdedup hrepeated).trans (.record u id ⟨rfl, rfl⟩)
  intro x hx
  rcases mem_expanded_of_isRepeated hdedup hrepeated hx with hkept | ⟨rfl, -⟩
  · exact (h x hkept).imp (List.mem_cons_of_mem _) fun hdone => hdone.mono hgrows hsince
  · exact Or.inl List.mem_cons_self

/-- What a thread keeps is handed on from part to part. -/
theorem Leads.keeps (h : Leads c r F G) (hdedup : c.settings.dedupCalls = true)
    (hreach : Trace.Reaches c r F) (hearnest : Earnest c F G) (hF : Keeps c r F.opened F.walk) :
    Keeps c r G.opened G.walk := by
  obtain ⟨hnodes, hnode, -, -⟩ := all_settle hdedup r
  cases h with
  | pass | unstarted | call => exact hF
  | visit hn hskip hvisit => exact hF.settle (.visit hvisit)
  | next hn hskip hvisit hu =>
    exact hF.settle (Settling.next (hnode _ _ _ _) hreach hn hskip hvisit hu)
  | @fork _ _ id _ w => exact hF.settle (.of_since (.meet w id) rfl (.of_eq rfl))
  | uncalled hsummary _ => exact hF.settle (.summary hsummary)
  | @repeated ancestry opened id args target targets w u nodes session hsummary hopen hrepeated =>
    have hpassed : Settles c r { w with session } u := .passed hdedup hrepeated
    exact hF.settle ((Settles.summary hsummary).trans hpassed)
  | @enter ancestry opened id args target targets w u nodes session hsummary hopen hrepeated =>
    cases hdef : c.program.definition? target with
    | none =>
      obtain ⟨_, _, -, heq⟩ := hearnest hdef
      cases heq
    | some routine =>
      have hcomes : Trace.Comes c r ancestry opened id (target, args) nodes { w with session } :=
        ⟨targets, w, session, hreach, hsummary, rfl, ⟨routine, hdef⟩, hopen⟩
      exact (hF.settle (.summary hsummary)).enter hdedup hcomes hrepeated
  | @leave ancestry opened id args target targets w u v nodes session hsummary hopen hrepeated hv =>
    cases hdef : c.program.definition? target with
    | none =>
      obtain ⟨nodes', session', hsummary', heq⟩ := hearnest hdef
      rw [heq]
      exact hF.settle (.summary hsummary')
    | some routine =>
      exact hF.settle (Settling.leave hdedup (hnodes _ _ _ _) hreach hsummary hdef hopen
        hrepeated hv)
  | start => exact .of_nil rfl
  | ended _ hlimit hbegin hinner hlast =>
    exact hF.settle (settles_endFork hreach hlimit hbegin hinner hlast)

end Frame

open Walk

/-- The calls that a thread keeps in any part of a walk that a build comes to are of open routines
or were expanded to their end. -/
theorem Trace.Reaches.keeps {G : Frame} (h : Reaches c r G)
    (hdedup : c.settings.dedupCalls = true) : Frame.Keeps c r G.opened G.walk := by
  induction h with
  | begins h =>
    obtain ⟨nodes, session, -, rfl⟩ := h
    exact .of_nil rfl
  | leads hreach hFG hearnest hF => exact hFG.keeps hdedup hreach hearnest hF

/-- A call that a thread keeps when it comes to it again was expanded to its end. -/
theorem Trace.Comes.expanded {ancestry opened : List String} {id : NodeId}
    {call : String × List Operand} {nodes : Option (List NodeId)} {w : Walk}
    (h : Comes c r ancestry opened id call nodes w) (hdedup : c.settings.dedupCalls = true)
    (hcall : call ∈ w.self.expanded) : Expanded c r w call := by
  obtain ⟨targets, v, session, hreach, hsummary, rfl, -, hopen⟩ := h
  have hkeeps := (hreach.keeps hdedup).settle (.summary hsummary)
  exact (hkeeps call hcall).resolve_left hopen

/-! ### Contexts -/

namespace Walk

variable {u w : Walk}

/-- The context of a call: the events that synchronise, and apart from them those that change locks,
each with its number. -/
def context (w : Walk) : List (Nat × EventKind) × List (Nat × EventKind) :=
  ((w.self.events.toList.filter fun e => e.kind.isSync).map fun e => (e.index, e.kind),
    (w.self.events.toList.filter fun e => e.kind.isLocking).map fun e => (e.index, e.kind))

/-- A context stays the same through quiet events and never returns. -/
theorem context_eq_iff {new : Array Event} (h : w.self.events = u.self.events ++ new) :
    u.context = w.context ↔ ∀ e ∈ new, e.kind.Quiet := by
  unfold context EventKind.Quiet
  rw [h, Array.toList_append, List.filter_append, List.filter_append, List.map_append,
    List.map_append, Prod.mk.injEq, List.self_eq_append_right, List.self_eq_append_right,
    List.map_eq_nil_iff, List.map_eq_nil_iff, List.filter_eq_nil_iff, List.filter_eq_nil_iff]
  simp only [Array.mem_toList_iff, Bool.not_eq_true, ← forall_and]

/-- The context is the same as long as only quiet events are made. -/
theorem Since.context_eq (h : u.Since w) : u.context = w.context := by
  obtain ⟨new, hnew, hquiet⟩ := h
  exact (context_eq_iff hnew).2 hquiet

/-- Other events change the context for good. -/
theorem Stirred.context_ne (h : u.Stirred w) : u.context ≠ w.context := by
  obtain ⟨new, hnew, e, he, hloud⟩ := h
  exact fun heq => hloud ((context_eq_iff hnew).1 heq e he)

/-- A thread that grows keeps its calls, or makes an event that is not quiet. -/
theorem Grows.subset_or_stirred (h : Grows c r u w) :
    u.self.expanded ⊆ w.self.expanded ∨ u.Stirred w := by
  have hroll : ∀ {u w : Walk}, Rolls u w → u.self.expanded ⊆ w.self.expanded ∨ u.Stirred w :=
    fun h => h.imp (fun ⟨heq, _⟩ => heq ▸ List.Subset.refl _) And.right
  induction h with
  | refl | consult | skip | meet => exact Or.inl (List.Subset.refl _)
  | note => exact Or.inl (List.subset_cons_self _ _)
  | trans huv hvw ih₁ ih₂ =>
    rcases ih₁ with hkept | hstirred
    · rcases ih₂ with hkept' | hstirred
      · exact Or.inl (List.Subset.trans hkept hkept')
      · exact Or.inr (hstirred.behind huv.framed.events)
    · exact Or.inr (hstirred.append hvw.framed.events)
  | @record w id n kind => exact hroll (.record w id kind)
  | joinCompanion _ _ h => exact hroll (joinCompanion_ticks (c := c) h).rolls
  | joinHandle handle _ _ => exact hroll (joinHandle_ticks (c := c) _ handle).rolls
  | joinPending h => exact hroll (joinPending_ticks (c := c) h).rolls
  | fork _ _ _ _ hbegin => exact hroll (endFork_rolls hbegin _ _ _ _)

end Walk

/-- A thread has noted a call in a context. -/
def Trace.Noted (c : Subject) (r : Runtime) (w : Walk) (call : String × List Operand)
    (context : List (Nat × EventKind) × List (Nat × EventKind)) : Prop :=
  ∃ ancestry opened id nodes v u, Comes c r ancestry opened id call nodes v ∧ v.Notes c call u ∧
    v.context = context ∧ Walk.Grows c r u w

namespace Trace

variable {ancestry opened : List String} {id : NodeId} {call : String × List Operand}
  {nodes : Option (List NodeId)} {u v w : Walk}

/-- An expansion is growth up to its end. -/
theorem Expansion.grows (h : Expansion c r call id u v) :
    Walk.Grows c r u (u.record id .call) ∧ Walk.Grows c r (u.record id .call) v ∧
      Walk.Grows c r v (v.record id .return) := by
  obtain ⟨ancestry, opened, nodes, s, hcomes, ⟨-, hrepeated⟩, hv⟩ := h
  have hu : Walk.Grows c r s u := Walk.isRepeated_grows hrepeated
  have hcalled : Walk.Grows c r u (u.record id .call) := hcomes.record hu rfl rfl
  have hinner := Walk.walk_grows hv
  exact ⟨hcalled, hinner, hcomes.record ((hu.trans hcalled).trans hinner) rfl rfl⟩

/-- The node of an expansion is a call with its arguments, and may reach its routine. -/
theorem Expansion.node (h : Expansion c r call id u v) : ∃ n api callee,
    u.session.arena.get? id = some n ∧ n.effect = .call api callee call.2 ∧
      call.1 ∈ c.callTargets callee := by
  obtain ⟨ancestry, opened, nodes, s, hcomes, ⟨-, hrepeated⟩, -⟩ := h
  obtain ⟨n, api, callee, hn, heffect, htarget⟩ := hcomes.node
  exact ⟨n, api, callee, (Walk.isRepeated_grows (r := r) hrepeated).arena_extends _ _ hn, heffect,
    htarget⟩

/-- A thread keeps a call when it comes to it just if it has noted it in the same context. -/
theorem Comes.mem_expanded_iff (h : Comes c r ancestry opened id call nodes w)
    (hdedup : c.settings.dedupCalls = true) :
    call ∈ w.self.expanded ↔ Noted c r w call w.context := by
  constructor
  · intro hcall
    obtain ⟨id, u, v, hexpansion, hgrows, hsince⟩ := h.expanded hdedup hcall
    obtain ⟨hcalled, hinner, hreturn⟩ := hexpansion.grows
    obtain ⟨ancestry, opened, nodes, s, hcomes, hnotes, -⟩ := hexpansion
    exact ⟨ancestry, opened, id, nodes, s, u, hcomes, hnotes,
      ((Walk.isRepeated_since hdedup hnotes.2).trans hsince).context_eq,
      ((hcalled.trans hinner).trans hreturn).trans hgrows⟩
  · rintro ⟨_, _, _, _, v, u, -, hnotes, hcontext, hgrows⟩
    have hsame : u.context = w.context :=
      (Walk.isRepeated_since hdedup hnotes.2).context_eq.symm.trans hcontext
    rcases hgrows.subset_or_stirred with hkept | hstirred
    · exact hkept (hnotes.mem hdedup)
    · exact absurd hsame hstirred.context_ne

end Trace

/-! ### The events of an expansion -/

namespace Walk

variable {u w : Walk}

/-- Every event since is quiet. -/
theorem Since.quiet (h : u.Since w) {k : Nat} {e : Event} (hk : u.self.events.size ≤ k)
    (he : w.self.events[k]? = some e) : e.kind.Quiet := by
  obtain ⟨new, hnew, hquiet⟩ := h
  rw [hnew, Array.getElem?_append_right hk] at he
  exact hquiet e (Array.mem_of_getElem? he)

end Walk

namespace Trace

variable {ancestry opened : List String} {id : NodeId} {call : String × List Operand}
  {nodes : Option (List NodeId)} {w : Walk}

/-- With deduplicated calls, a call that is found to have no effects on threads is passed over just
if the thread has noted it in the same context.  A call that is passed over was expanded by the same
thread: that made a call event and a return event at a node that calls the same routine with the
same arguments, with a walk of the nodes of the routine between them, and from the call event on the
thread has not synchronised and has not changed locks. -/
theorem repeated_call (hdedup : c.settings.dedupCalls = true)
    (h : Comes c r ancestry opened id call nodes w) :
    (∀ session, w.session.hasThreadEffects c call.1 = .ok (false, session) →
      ((∃ u, w.isRepeated c call.1 call.2 = .ok (true, u)) ↔ Noted c r w call w.context)) ∧
    ∀ w', w.isRepeated c call.1 call.2 = .ok (true, w') → ∃ site u v n api callee,
      Expansion c r call site u v ∧ Walk.Grows c r (v.record site .return) w ∧
      w.session.arena.get? site = some n ∧ n.effect = .call api callee call.2 ∧
      call.1 ∈ c.callTargets callee ∧ u.self.events.size < v.self.events.size ∧
      w.self.events[u.self.events.size]? =
        some ⟨w.self.thread, u.self.events.size, site, .call⟩ ∧
      w.self.events[v.self.events.size]? =
        some ⟨w.self.thread, v.self.events.size, site, .return⟩ ∧
      ∀ k e, u.self.events.size ≤ k → w.self.events[k]? = some e →
        e.kind.isSync = false ∧ e.kind.isLocking = false := by
  have hkept : ∀ {w'}, w.isRepeated c call.1 call.2 = .ok (true, w') → call ∈ w.self.expanded := by
    intro w' hrepeated
    obtain ⟨_, _, -, ⟨-, hfalse, -⟩ | ⟨-, -, hmem, -⟩ | ⟨-, hfalse, -⟩⟩ :=
      Walk.isRepeated_cases hdedup hrepeated
    · cases hfalse
    · exact hmem
    · cases hfalse
  refine ⟨fun session heffects => ?_, fun w' hrepeated => ?_⟩
  · rw [← h.mem_expanded_iff hdedup]
    refine ⟨fun ⟨_, hrepeated⟩ => hkept hrepeated, fun hcall => ⟨{ w with session }, ?_⟩⟩
    rw [Walk.isRepeated, if_pos hdedup, heffects]
    exact if_pos hcall
  · obtain ⟨site, u, v, hexpansion, hgrows, hsince⟩ := h.expanded hdedup (hkept hrepeated)
    obtain ⟨hcalled, hinner, hreturn⟩ := hexpansion.grows
    obtain ⟨n, api, callee, hn, heffect, htarget⟩ := hexpansion.node
    refine ⟨site, u, v, n, api, callee, hexpansion, hgrows, ?_, heffect, htarget, ?_, ?_,
      hgrows.getElem?_record, fun k e hk he => hsince.quiet hk he⟩
    · exact (hcalled.trans ((hinner.trans hreturn).trans hgrows)).arena_extends _ _ hn
    · exact (Array.getElem?_eq_some_iff.1 hinner.getElem?_record).1
    · exact ((hinner.trans hreturn).trans hgrows).getElem?_record

/-- The main thread comes to the second call of the routine when it has expanded the first. -/
theorem comes_again : Comes (Twice.subject true) .pthread ["main"] ["main"] 1 ("fill", [])
    (some [2]) Twice.again := by
  have hmain : Reaches (Twice.subject true) .pthread
      (.nodes ["main"] ["main"] [0, 1] ⟨Twice.early, Walker.start 0 none⟩) :=
    .begins ⟨some [0, 1], Twice.early, Twice.summary_main true, rfl⟩
  have hsecond : Reaches (Twice.subject true) .pthread
      (.nodes ["main"] ["main"] [1] Twice.again) :=
    hmain.leads (.next rfl rfl rfl ((if_pos rfl).trans Twice.handle_first)) trivial
  have hnode : Reaches (Twice.subject true) .pthread
      (.node ["main"] ["main"] 1 (Twice.call 1) Twice.again) :=
    hsecond.leads (.visit rfl rfl rfl) trivial
  have hcalls : Reaches (Twice.subject true) .pthread
      (.calls ["main"] ["main"] 1 [] ["fill"] Twice.again) :=
    hnode.leads (.call (n := Twice.call 1) rfl rfl) trivial
  exact ⟨[], Twice.again, Twice.late Twice.answers, hcalls,
    Twice.summary_late true Twice.answers, rfl, ⟨Twice.fill, Twice.definition?_fill true⟩,
    show "fill" ∉ ["main"] by decide⟩

/-- The second call of the routine is passed over, behind a call and a return event. -/
theorem repeated_call_twice : (Twice.subject true).settings.dedupCalls = true ∧
    Comes (Twice.subject true) .pthread ["main"] ["main"] 1 ("fill", []) (some [2]) Twice.again ∧
    Noted (Twice.subject true) .pthread Twice.again ("fill", []) Twice.again.context ∧
    ∃ (site : NodeId) (i j : Nat), i < j ∧
      Twice.again.self.events[i]? = some ⟨0, i, site, .call⟩ ∧
      Twice.again.self.events[j]? = some ⟨0, j, site, .return⟩ := by
  obtain ⟨hnoted, hexpanded⟩ := repeated_call (c := Twice.subject true) rfl comes_again
  have hrepeated : Twice.again.isRepeated (Twice.subject true) "fill" [] =
      .ok (true, Twice.again) := Twice.isRepeated_again
  obtain ⟨site, u, v, -, -, -, -, -, -, -, -, hlt, hcall, hreturn, -⟩ := hexpanded _ hrepeated
  exact ⟨rfl, comes_again,
    (hnoted _ (Twice.hasThreadEffects_again true)).1 ⟨_, Twice.isRepeated_again⟩,
    site, _, _, hlt, hcall, hreturn⟩

end Trace

end DataRace
