import DataRace.Proofs.Trace.Openings
import Mathlib.Data.List.Perm.Subperm

/-!
# Calls are nested

The call and return events of a thread are brackets: a return closes the latest call that is open,
which is of its node (`Event.openCalls`).  Behind any events of a thread, the routines of the open
calls are distinct, and none of them is the entry of the thread (`Trace.Nested`), so there are no
more of them than routines with a body.  When the nodes of a thread are done no call is open, and
what its runtime does then are joins (`Trace.calls_nested`).

What is shown of a thread is shown of stretches of its walk, by the rules of tours
(`Frame.Tours.stretch`).
-/

namespace DataRace

open Relation

/-! ### Open calls -/

namespace Event

/-- The calls that are open behind an event, latest first, if these are open before it.  A return
closes the latest call, which is of its node. -/
def nest (calls : List Event) (e : Event) : Option (List Event) :=
  match e.kind, calls with
  | .call, _ => some (e :: calls)
  | .return, [] => none
  | .return, last :: rest => if last.node = e.node then some rest else none
  | _, _ => some calls

/-- The calls that are open behind some events, latest first, unless a return closes no call. -/
def openCalls (events : List Event) : Option (List Event) := events.foldlM nest []

variable {e : Event} {calls after : List Event} {events more : List Event}

/-- Other events neither open nor close calls. -/
theorem nest_of_flat (h : e.kind.isBracket = false) (calls : List Event) :
    nest calls e = some calls := by
  obtain ⟨_, _, _, kind⟩ := e
  cases kind <;> first | rfl | cases h

/-- Calls that are open already stay open. -/
theorem nest_append (h : nest calls e = some after) (base : List Event) :
    nest (calls ++ base) e = some (after ++ base) := by
  obtain ⟨thread, index, node, kind⟩ := e
  cases kind with
  | «return» =>
    cases calls with
    | nil => cases h
    | cons last rest =>
      simp only [nest, List.cons_append] at h ⊢
      split at h
      · next heq =>
        cases h
        rw [if_pos heq]
      · cases h
  | _ =>
    cases h
    rfl

/-- Calls that are open already stay open behind any events that close only their own. -/
theorem foldlM_nest_append (h : events.foldlM nest calls = some after) (base : List Event) :
    events.foldlM nest (calls ++ base) = some (after ++ base) := by
  induction events generalizing calls with
  | nil =>
    cases h
    rfl
  | cons e events ih =>
    rw [List.foldlM_cons] at h ⊢
    obtain ⟨mid, hmid, h⟩ := Option.bind_eq_some_iff.1 h
    exact Option.bind_eq_some_iff.2 ⟨_, nest_append hmid base, ih h⟩

/-- The open calls of later events come first. -/
theorem openCalls_append (h : openCalls events = some calls) (hmore : openCalls more = some after) :
    openCalls (events ++ more) = some (after ++ calls) := by
  rw [openCalls, List.foldlM_append]
  exact Option.bind_eq_some_iff.2 ⟨calls, h, foldlM_nest_append hmore calls⟩

/-- Events of which none enters or leaves a routine leave no calls open. -/
theorem openCalls_of_flat (h : ∀ e ∈ events, e.kind.isBracket = false) :
    openCalls events = some [] := by
  induction events with
  | nil => rfl
  | cons e events ih =>
    rw [openCalls, List.foldlM_cons, nest_of_flat (h e List.mem_cons_self)]
    exact ih fun e' he' => h e' (List.mem_cons_of_mem e he')

end Event

variable {c : Subject} {r : Runtime}

namespace Trace

open Event

/-- Some events of a thread, in the order of time, where some routines are open before.  No call is
open in the end, and behind any of the events the open calls entered routines of which none is
open twice. -/
structure Nested (c : Subject) (r : Runtime) (opened : List String) (events : List Event) :
    Prop where
  closed : openCalls events = some []
  distinct : ∀ before, before <+: events → ∃ calls routines, openCalls before = some calls ∧
    List.Forall₂ (Enters c r) calls routines ∧ (routines ++ opened).Nodup

namespace Nested

variable {opened : List String} {events more : List Event}

/-- Events of which none enters or leaves a routine. -/
theorem flat (hopened : opened.Nodup) (h : ∀ e ∈ events, e.kind.isBracket = false) :
    Nested c r opened events where
  closed := openCalls_of_flat h
  distinct _ hbefore :=
    ⟨[], [], openCalls_of_flat fun e he => h e (hbefore.subset he), .nil, hopened⟩

/-- One stretch behind another. -/
theorem append (h : Nested c r opened events) (hmore : Nested c r opened more) :
    Nested c r opened (events ++ more) where
  closed := openCalls_append h.closed hmore.closed
  distinct before hbefore := by
    rcases List.prefix_or_prefix_of_prefix hbefore (List.prefix_append events more) with
      hle | ⟨later, rfl⟩
    · exact h.distinct before hle
    · obtain ⟨calls, routines, hcalls, henters, hnodup⟩ :=
        hmore.distinct later ((List.prefix_append_right_inj events).1 hbefore)
      exact ⟨calls, routines,
        (openCalls_append h.closed hcalls).trans (by rw [List.append_nil]), henters, hnodup⟩

/-- A routine is walked between its call and its return. -/
theorem bracket {call back : Event} {f : String} (hcall : call.kind = .call)
    (hback : back.kind = .return) (hnode : call.node = back.node) (henters : Enters c r call f)
    (h : Nested c r (f :: opened) events) :
    Nested c r opened (call :: (events ++ [back])) := by
  have hopen : openCalls [call] = some [call] := by
    simp [openCalls, nest, hcall]
  have hinner : ∀ {before calls}, openCalls before = some calls →
      openCalls (call :: before) = some (calls ++ [call]) := fun h => openCalls_append hopen h
  have hclosed : openCalls (call :: (events ++ [back])) = some [] := by
    rw [openCalls, ← List.cons_append, List.foldlM_append]
    refine Option.bind_eq_some_iff.2 ⟨[call], hinner h.closed, ?_⟩
    simp [nest, hback, hnode]
  refine ⟨hclosed, fun before hbefore => ?_⟩
  have hopened : opened.Nodup := by
    obtain ⟨-, routines, -, -, hnodup⟩ := h.distinct [] List.nil_prefix
    exact (List.nodup_cons.1 (List.nodup_append.1 hnodup).2.1).2
  rcases List.prefix_cons_iff.1 hbefore with rfl | ⟨before, rfl, hrest⟩
  · exact ⟨[], [], rfl, .nil, hopened⟩
  · rcases List.prefix_concat_iff.1 hrest with rfl | hwithin
    · exact ⟨[], [], hclosed, .nil, hopened⟩
    · obtain ⟨calls, routines, hcalls, hforall, hnodup⟩ := h.distinct before hwithin
      refine ⟨_, routines ++ [f], hinner hcalls, ?_, ?_⟩
      · exact List.rel_append hforall (.cons henters .nil)
      · rw [List.append_assoc]
        exact hnodup

end Nested

/-- No routine is open twice in a part. -/
theorem Reaches.nodup_opened {F : Frame} (h : Reaches c r F) : F.opened.Nodup := by
  induction h with
  | begins h =>
    obtain ⟨nodes, session, -, rfl⟩ := h
    exact List.nodup_singleton _
  | leads _ hFG _ ih =>
    cases hFG with
    | enter _ hopen => exact List.nodup_cons.2 ⟨hopen, ih⟩
    | start => exact List.nodup_singleton _
    | _ => exact ih

end Trace

/-! ### Stretches of a walk -/

namespace Walk.Flat

/-- What a runtime does at a node that a thread reaches. -/
theorem of_reach {w w' : Walk} (h : w.reach.Flat w') : w.Flat w' := by
  obtain ⟨new, happends, hflat⟩ := h
  exact ⟨new, ⟨happends.thread_eq, happends.threads_eq, happends.events_eq⟩, hflat⟩

/-- Asking whether a call of a routine that was looked up is repeated. -/
theorem isRepeated {w w' : Walk} {target : String} {args : List Operand} {repeated : Bool}
    {nodes : Option (List NodeId)} {session : Session}
    (hsummary : w.session.summary c target = .ok (nodes, session))
    (h : Walk.isRepeated c { w with session } target args = .ok (repeated, w')) : w.Flat w' := by
  obtain ⟨session', hlearns, rfl | rfl⟩ := isRepeated_eq h
  · exact .of_eq rfl ((Session.Learns.summary hsummary).trans hlearns).extends.threads rfl
  · exact .of_eq rfl ((Session.Learns.summary hsummary).trans hlearns).extends.threads rfl

end Walk.Flat

namespace Frame

variable {F : Frame} {log : List Visit} {w' : Walk}

open Trace

/-- What holds of stretches of a walk in which no thread is started and no routine entered holds of
all parts that a build comes to, if it holds of a stretch behind another, of a call with its return,
and of the start of a child that has ended. -/
theorem Tours.stretch {P : List String → Walk → Walk → Prop} (h : Tours c r F log w')
    (hF : Reaches c r F)
    (hflat : ∀ {opened : List String} {w w' : Walk}, opened.Nodup → w.Flat w' → P opened w w')
    (htrans : ∀ {opened : List String} {u v w : Walk}, u.Sound → Walk.Grows c r u v →
      Walk.Grows c r v w → P opened u v → P opened v w → P opened u w)
    (hcall : ∀ {opened : List String} {f : String} {id : NodeId} {u v : Walk},
      Enters c r ⟨u.self.thread, u.self.events.size, id, .call⟩ f →
        P (f :: opened) (u.record id .call) v → P opened u (v.record id .return))
    (hfork : ∀ {ancestry opened : List String} {id : NodeId} {api : ForkApi} {handle : Operand}
      {entry : String} {entries : List String} {w v inner last : Walk} {child : ThreadId},
      opened.Nodup → Reaches c r (.forks ancestry opened id api handle (entry :: entries) w) →
        entry ∉ ancestry → w.session.threads.size < c.settings.maxThreads →
          w.beginFork id entry = .ok (child, v) →
            Walk.WalksChild c r ancestry entry (v.enterChild child api) inner →
              r.finish inner = .ok last → P [entry] (v.enterChild child api) inner →
                P opened w (v.endFork r id api handle last.close)) :
    P F.opened F.walk w' := by
  have hrefl : ∀ {opened : List String} {w w' : Walk}, opened.Nodup →
      w'.self.thread = w.self.thread → w'.session.threads = w.session.threads →
        w'.self.events = w.self.events → P opened w w' :=
    fun hopened hthread hthreads hevents => hflat hopened (.of_eq hthread hthreads hevents)
  have hsound : ∀ {F : Frame}, Reaches c r F → F.walk.Sound := fun hF => hF.ready.1.sound
  induction h with
  | done | called | forked => exact hrefl hF.nodup_opened rfl rfl rfl
  | pass hn hskip _ ih => exact ih (hF.leads (.pass hn hskip) trivial)
  | taken hn hskip hvisit hrest ih =>
    have hG := hF.leads (.next hn hskip hvisit rfl) trivial
    have hv := (Walk.Grows.skip (c := c) _ none).trans (Walk.visit_grows hvisit)
    exact htrans (hsound hF) hv (hrest.grows hG.ready.1)
      (hflat hF.nodup_opened (Walk.Flat.of_reach (Walk.Flat.visit hvisit))) (ih hG)
  | visit hn hskip hvisit hnode hrest ihnode ihrest =>
    have hG := hF.leads (.visit hn hskip hvisit) trivial
    have hH := hF.leads (.next hn hskip hvisit (if_pos rfl |>.trans hnode.run)) trivial
    have hv := (Walk.Grows.skip (c := c) _ none).trans (Walk.visit_grows hvisit)
    have hu := hnode.grows hG.ready.1
    exact htrans (hsound hF) hv (hu.trans (hrest.grows hH.ready.1))
      (hflat hF.nodup_opened (Walk.Flat.of_reach (Walk.Flat.visit hvisit)))
      (htrans (hv.sound (hsound hF)) hu (hrest.grows hH.ready.1) (ihnode hG) (ihrest hH))
  | leaf hleaf h => exact hflat hF.nodup_opened (Walk.handle_leaf hleaf h).1
  | @fork _ opened id _ w _ _ _ _ _ heffect hrest ih =>
    have hG := hF.leads (.fork heffect) trivial
    exact htrans (hsound hF) (.meet w id) (hrest.grows hG.ready.1)
      (hrefl hF.nodup_opened rfl rfl rfl) (ih hG)
  | call heffect hplain _ ih => exact ih (hF.leads (.call heffect hplain) trivial)
  | uncalled hsummary hpass hrest ih =>
    have hG := hF.leads (.uncalled hsummary hpass) fun _ => ⟨_, _, hsummary, rfl⟩
    have hlearns := Session.Learns.summary hsummary
    exact htrans (hsound hF) (.consult hlearns) (hrest.grows hG.ready.1)
      (hrefl hF.nodup_opened rfl hlearns.extends.threads rfl) (ih hG)
  | repeated hsummary hdef hopen hrepeated hrest ih =>
    have hG := hF.leads (.repeated hsummary hopen hrepeated) (earnest_of_definition hdef _)
    have hu := (Walk.Grows.consult (Session.Learns.summary hsummary)).trans
      (Walk.isRepeated_grows (r := r) hrepeated)
    exact htrans (hsound hF) hu (hrest.grows hG.ready.1)
      (hflat hF.nodup_opened (Walk.Flat.isRepeated hsummary hrepeated)) (ih hG)
  | @expanded ancestry opened id args target targets w u v w' log more nodes session routine
      hsummary hdef hopen hrepeated hwalk hrest ihwalk ihrest =>
    have hG := hF.leads (.enter hsummary hopen hrepeated) (earnest_of_definition hdef _)
    have hH := hF.leads (.leave hsummary hopen hrepeated hwalk.run) (earnest_of_definition hdef _)
    have hu := (Walk.Grows.consult (Session.Learns.summary hsummary)).trans
      (Walk.isRepeated_grows (r := r) hrepeated)
    obtain ⟨n, api, callee, hn, heffect, -⟩ := hF.stands
    have hkind : n.category = .call := by rw [Node.category, heffect]
    have hcalled : Walk.Grows c r u (u.record id .call) :=
      .record (hu.arena_extends _ _ hn) rfl hkind
    have hwalked := hcalled.trans (hwalk.grows hG.ready.1)
    have hreturn : Walk.Grows c r u (v.record id .return) :=
      hwalked.trans (.record ((hu.trans hwalked).arena_extends _ _ hn) rfl hkind)
    exact htrans (hsound hF) hu (hreturn.trans (hrest.grows hH.ready.1))
      (hflat hF.nodup_opened (Walk.Flat.isRepeated hsummary hrepeated))
      (htrans (hu.sound (hsound hF)) hreturn (hrest.grows hH.ready.1)
        (hcall ⟨_, hF, .enter hsummary hdef hopen hrepeated⟩ (ihwalk hG)) (ihrest hH))
  | unstarted hpass _ ih => exact ih (hF.leads (.unstarted hpass) trivial)
  | @bodiless ancestry opened id api handle entry entries w v last w' child log hnew hlimit hbegin
      hdef hlast hrest ih =>
    have hinner : Walk.WalksChild c r ancestry entry (v.enterChild child api)
        (v.enterChild child api) := Or.inl ⟨hdef, rfl⟩
    have hH := hF.leads (.ended hnew hlimit hbegin hinner hlast) trivial
    exact htrans (hsound hF) (hF.stands.grows_fork hlimit hbegin hinner hlast)
      (hrest.grows hH.ready.1)
      (hfork hF.nodup_opened hF hnew hlimit hbegin hinner hlast
        (hrefl (List.nodup_singleton _) rfl rfl rfl)) (ih hH)
  | @started ancestry opened id api handle entry entries w v inner last w' child log more nodes
      session routine hnew hlimit hbegin hdef hsummary hwalk hlast hrest ihwalk ihrest =>
    have hinner : Walk.WalksChild c r ancestry entry (v.enterChild child api) inner :=
      Or.inr ⟨routine, nodes, session, hdef, hsummary, hwalk.run⟩
    have hG := hF.leads (.start hnew hlimit hbegin hsummary) trivial
    have hH := hF.leads (.ended hnew hlimit hbegin hinner hlast) trivial
    have hlearns := Session.Learns.summary hsummary
    obtain ⟨n, source, hn, heffect, -⟩ := hF.stands
    have hchild := htrans ((hsound hF).startChild hn heffect hbegin).2 (.consult hlearns)
      (hwalk.grows hG.ready.1)
      (hrefl (List.nodup_singleton _) rfl hlearns.extends.threads rfl) (ihwalk hG)
    exact htrans (hsound hF) (hF.stands.grows_fork hlimit hbegin hinner hlast)
      (hrest.grows hH.ready.1)
      (hfork hF.nodup_opened hF hnew hlimit hbegin hinner hlast hchild) (ihrest hH)

end Frame

/-! ### Threads -/

namespace Walk

/-- What a walk adds to the events of its thread is nested. -/
def Nests (c : Subject) (r : Runtime) (opened : List String) (w w' : Walk) : Prop :=
  ∃ new, w'.self.events.toList = w.self.events.toList ++ new ∧ Trace.Nested c r opened new

end Walk

namespace Frame

open Trace

/-- What a part adds to the events of its thread is nested. -/
theorem Tours.nests {F : Frame} {log : List Visit} {w' : Walk} (h : Tours c r F log w')
    (hF : Reaches c r F) : Walk.Nests c r F.opened F.walk w' := by
  refine h.stretch (P := Walk.Nests c r) hF ?_ ?_ ?_ ?_
  · rintro opened w w' hopened ⟨new, happends, hflat⟩
    refine ⟨new.toList, by rw [happends.events_eq, Array.toList_append], .flat hopened ?_⟩
    exact fun e he => (hflat e (Array.mem_toList_iff.1 he)).2
  · rintro opened u v w - - - ⟨new, hnew, hnested⟩ ⟨more, hmore, hnested'⟩
    exact ⟨new ++ more, by rw [hmore, hnew, List.append_assoc], hnested.append hnested'⟩
  · rintro opened f id u v henters ⟨new, hnew, hnested⟩
    have hbracket : Trace.Nested c r opened (⟨u.self.thread, u.self.events.size, id, .call⟩ ::
        (new ++ [⟨v.self.thread, v.self.events.size, id, .return⟩])) :=
      hnested.bracket rfl rfl rfl henters
    refine ⟨_, ?_, hbracket⟩
    have hcall : (u.record id .call).self.events.toList =
        u.self.events.toList ++ [⟨u.self.thread, u.self.events.size, id, .call⟩] :=
      Array.toList_push
    have hreturn : (v.record id .return).self.events.toList =
        v.self.events.toList ++ [⟨v.self.thread, v.self.events.size, id, .return⟩] :=
      Array.toList_push
    rw [hreturn, hnew, hcall]
    simp only [List.append_assoc, List.cons_append, List.nil_append]
  · intro ancestry opened id api handle entry entries w v inner last child hopened _ _ _ hbegin _ _
      _
    obtain ⟨-, hevents, -⟩ := Walk.endFork_spec hbegin r api handle last.close
    refine ⟨[_], by rw [hevents, Array.toList_push], .flat hopened ?_⟩
    intro e he
    rw [List.mem_singleton.1 he]
    rfl

end Frame

namespace Trace

/-- A thread of a build, with its entry, has done all its nodes, and its runtime has not acted
yet. -/
inductive Walks (c : Subject) (r : Runtime) : String → Walk → Prop
  /-- The main thread. -/
  | main {F : Frame} {w : Walk} (h : Begins c F) (hrun : F.run c r = .ok w) :
      Walks c r c.settings.entry w
  /-- A child. -/
  | child {ancestry opened : List String} {id : NodeId} {api : ForkApi} {handle : Operand}
      {entry : String} {entries : List String} {u v w : Walk} {child : ThreadId}
      (h : Reaches c r (.forks ancestry opened id api handle (entry :: entries) u))
      (hnew : entry ∉ ancestry) (hlimit : u.session.threads.size < c.settings.maxThreads)
      (hbegin : u.beginFork id entry = .ok (child, v))
      (hinner : Walk.WalksChild c r ancestry entry (v.enterChild child api) w) :
      Walks c r entry w

/-- A thread has made its events since its entry was the only routine that was open, if it has made
any. -/
theorem Walks.exists_tour {entry : String} {w : Walk} (h : Walks c r entry w) :
    w.self.events = #[] ∨ ∃ F log, Reaches c r F ∧ F.Tours c r log w ∧ F.opened = [entry] ∧
      F.walk.self.events = #[] := by
  cases h with
  | main h hrun =>
    obtain ⟨log, htour⟩ := Frame.run_eq_ok_iff.1 hrun
    have hF := Reaches.begins (r := r) h
    obtain ⟨nodes, session, -, rfl⟩ := h
    exact Or.inr ⟨_, log, hF, htour, rfl, rfl⟩
  | child h hnew hlimit hbegin hinner =>
    obtain ⟨hdef, rfl⟩ | ⟨routine, nodes, session, hdef, hsummary, hrun⟩ := hinner
    · exact Or.inl rfl
    · have hG := h.leads (.start hnew hlimit hbegin hsummary) trivial
      obtain ⟨log, htour⟩ := Frame.run_eq_ok_iff (F := .nodes _ _ _ _).1 hrun
      exact Or.inr ⟨_, log, hG, htour, rfl, rfl⟩

/-- The events of a thread that has done all its nodes are nested. -/
theorem Walks.nested {entry : String} {w : Walk} (h : Walks c r entry w) :
    Nested c r [entry] w.self.events.toList := by
  obtain hnone | ⟨F, log, hF, htour, hopened, hevents⟩ := h.exists_tour
  · rw [hnone]
    exact .flat (List.nodup_singleton _) fun e he => absurd he List.not_mem_nil
  · obtain ⟨new, hnew, hnested⟩ := htour.nests hF
    rw [hnew, hevents, ← hopened]
    exact hnested

/-- A thread in a table is what a thread of the build has come to. -/
def Ended (c : Subject) (r : Runtime) (i : ThreadId) (th : Thread) : Prop :=
  ∃ w last, Walks c r th.entry w ∧ w.self.thread = i ∧ r.finish w = .ok last ∧
    th.events = last.self.events

/-- When a thread is closed, it and the threads behind it have come to their ends, if those have
that it started. -/
theorem Walks.ended_close {entry : String} {start w last : Walk} (h : Walks c r entry w)
    (hframe : Walk.Framed start w) (hlast : r.finish w = .ok last) {th : Thread}
    (hth : start.session.threads[start.self.thread]? = some th) (hentry : th.entry = entry)
    (hsize : start.session.threads.size = start.self.thread + 1)
    (hbehind : ∀ i, start.session.threads.size ≤ i → i < w.session.threads.size →
      ∃ th, w.session.threads[i]? = some th ∧ Ended c r i th) {i : ThreadId}
    (hle : start.self.thread ≤ i) (hlt : i < last.session.threads.size) :
    ∃ th, last.close.session.threads[i]? = some th ∧ Ended c r i th := by
  obtain ⟨new, happends, -⟩ := Walk.Flat.finish hlast
  have hthread : last.self.thread = start.self.thread :=
    happends.thread_eq.trans hframe.thread_eq
  rw [Walk.close_getElem?, happends.threads_eq, hthread]
  rcases Nat.eq_or_lt_of_le hle with rfl | hlater
  · obtain ⟨th', hth', hsame⟩ := hframe.own th hth
    refine ⟨{ th' with events := last.self.events }, by rw [if_pos rfl, hth']; rfl, w, last, ?_,
      hframe.thread_eq, hlast, rfl⟩
    exact (hsame.entry_eq.trans hentry).symm ▸ h
  · obtain ⟨th', hth', hended⟩ := hbehind i (hsize.trans_le hlater) (happends.threads_eq ▸ hlt)
    exact ⟨th', by rw [if_neg hlater.ne', hth'], hended⟩

end Trace

namespace Frame

open Trace

/-- The threads that a part starts come to their ends in it. -/
theorem Tours.ended {F : Frame} {log : List Visit} {w' : Walk} (h : Tours c r F log w')
    (hF : Reaches c r F) : ∀ i, F.walk.session.threads.size ≤ i → i < w'.session.threads.size →
      ∃ th, w'.session.threads[i]? = some th ∧ Ended c r i th := by
  refine h.stretch (P := fun _ w w' => ∀ i, w.session.threads.size ≤ i →
    i < w'.session.threads.size → ∃ th, w'.session.threads[i]? = some th ∧ Ended c r i th)
      hF ?_ ?_ ?_ ?_
  · rintro opened w w' - ⟨new, happends, -⟩ i hle hlt
    exact absurd (happends.threads_eq ▸ hlt) (Nat.not_lt.2 hle)
  · intro opened u v w hu huv hvw hfirst hlater i hle hlt
    rcases Nat.lt_or_ge i v.session.threads.size with hiv | hiv
    · obtain ⟨th, hth, hended⟩ := hfirst i hle hiv
      have hne : i ≠ v.self.thread := by
        rw [huv.framed.thread_eq]
        exact (hu.inTable.trans_le hle).ne'
      exact ⟨th, (hvw.framed.others i hiv hne).trans hth, hended⟩
    · exact hlater i hiv hlt
  · exact fun _ h => h
  · intro ancestry opened id api handle entry entries w v inner last child _ hF hnew hlimit hbegin
      hinner hlast hwithin i hle hlt
    obtain ⟨hchild, -⟩ := Walk.beginFork_spec hbegin
    have hth : v.session.threads[child]? = some (Thread.new child entry
        (some ⟨w.self.thread, w.self.events.size⟩) (some id)) := by
      rw [Walk.beginFork_getElem? hbegin, if_neg (hchild ▸ hF.ready.1.sound.inTable.ne'),
        if_pos hchild]
    have hwalks : Walks c r entry inner := .child hF hnew hlimit hbegin hinner
    have hsize : v.session.threads.size = child + 1 := hchild ▸ Walk.beginFork_size hbegin
    exact hwalks.ended_close hinner.grows.framed hlast hth rfl hsize hwithin (hchild ▸ hle)
      (hlt.trans_eq (Walk.size_close last))

end Frame

namespace Trace

/-- Every thread of a trace is what a thread of the build has come to. -/
theorem ended_of_build {t : Trace} (hbuild : build c = .ok t) {i : ThreadId} {th : Thread}
    (hth : t.threads[i]? = some th) :
    Ended c (Runtime.ofProgram c.program c.settings.runtime) i th := by
  obtain ⟨log, hlog⟩ := exists_toured hbuild
  obtain ⟨F, w, last, hbegins, htour, hlast, rfl⟩ := hlog.ends hbuild
  have hF := Reaches.begins (r := Runtime.ofProgram c.program c.settings.runtime) hbegins
  have hgrows := htour.grows hF.ready.1
  have hbehind := htour.ended hF
  have hwalks : Walks c _ c.settings.entry w := .main hbegins htour.run
  obtain ⟨nodes, session, hsummary, rfl⟩ := hbegins
  have hthreads : session.threads = #[Thread.new 0 c.settings.entry none none] :=
    (Session.Learns.summary hsummary).extends.threads
  have hfirst : session.threads[0]? = some (Thread.new 0 c.settings.entry none none) := by
    rw [hthreads]
    rfl
  have hlt : i < last.session.threads.size :=
    (Array.getElem?_eq_some_iff.1 hth).1.trans_eq (Walk.size_close last)
  obtain ⟨th', hth', hended⟩ := hwalks.ended_close hgrows.framed hlast hfirst rfl
    (congrArg Array.size hthreads) hbehind (Nat.zero_le i) hlt
  cases hth.symm.trans hth'
  exact hended

/-- A call event of a trace entered a routine with a body, which its node may call, and no other. -/
structure Called (c : Subject) (r : Runtime) (t : Trace) (e : Event) (f : String) : Prop where
  enters : Enters c r e f
  unique : ∀ g, Enters c r e g → g = f
  node : ∃ n api callee args, t.arena.get? e.node = some n ∧ n.effect = .call api callee args ∧
    f ∈ c.callTargets callee
  body : ∃ routine, c.program.definition? f = some routine

/-- What a call event entered was called. -/
theorem Enters.called {t : Trace} {e : Event} {f : String} (hbuild : build c = .ok t)
    (h : Enters c (Runtime.ofProgram c.program c.settings.runtime) e f) :
    Called c (Runtime.ofProgram c.program c.settings.runtime) t e f := by
  have hunique : ∀ g, Enters c (Runtime.ofProgram c.program c.settings.runtime) e g → g = f :=
    fun g hg => hg.unique hbuild h
  have henters := h
  obtain ⟨F, hF, hopens⟩ := h
  obtain ⟨w, hrun, hlasts⟩ := hF.runs hbuild
  have hgrows := hF.stands.grows hrun
  have hstands := hF.stands
  cases hopens with
  | @enter _ _ id args _ _ _ _ _ _ routine _ hdef =>
    obtain ⟨n, api, callee, hn, heffect, htargets⟩ := hstands
    exact ⟨henters, hunique,
      ⟨n, api, callee, args, hlasts.under.arena _ _ (hgrows.arena_extends _ _ hn), heffect,
      htargets List.mem_cons_self⟩, routine, hdef⟩

end Trace

/-- The names of the routines with a body. -/
def Program.bodies (p : Program) : List String :=
  p.byName.keys.filter fun f => (p.definition? f).isSome

/-- Routines with a body are among them. -/
theorem Program.mem_bodies {p : Program} {f : String} {q : Routine}
    (h : p.definition? f = some q) : f ∈ p.bodies := by
  have hname : f ∈ p.byName := by
    obtain ⟨hname, -⟩ := Option.filter_eq_some_iff.1 h
    exact Std.HashMap.mem_iff_isSome_getElem?.2 (Option.isSome_iff_exists.2 ⟨q, hname⟩)
  exact List.mem_filter.2 ⟨Std.HashMap.mem_keys.2 hname, by rw [h]; rfl⟩

namespace Trace

open Event

/-- The call and return events of every thread of a trace are balanced, and those calls are closed
before the joins that its runtime adds at its end.  Behind any events of the thread the open calls
entered distinct routines with a body, none of which is the entry of the thread. -/
theorem calls_nested {t : Trace} (hbuild : build c = .ok t) {i : ThreadId} {th : Thread}
    (hth : t.threads[i]? = some th) :
    ∃ w last ended, Walks c (Runtime.ofProgram c.program c.settings.runtime) th.entry w ∧
      w.self.thread = i ∧ (Runtime.ofProgram c.program c.settings.runtime).finish w = .ok last ∧
      th.events = last.self.events ∧ last.self.events = w.self.events ++ ended ∧
      (∀ e ∈ ended, ∃ child, e.kind = .join child) ∧
      openCalls w.self.events.toList = some [] ∧ openCalls th.events.toList = some [] ∧
      ∀ before, before <+: th.events.toList → ∃ calls routines, openCalls before = some calls ∧
        List.Forall₂ (Called c (Runtime.ofProgram c.program c.settings.runtime) t) calls routines ∧
          (th.entry :: routines).Nodup ∧ calls.length ≤ c.program.bodies.length := by
  obtain ⟨w, last, hwalks, hthread, hlast, hevents⟩ := ended_of_build hbuild hth
  obtain ⟨ended, happends, hjoins⟩ := Walk.Flat.finish_joins hlast
  have hflat : ∀ e ∈ ended.toList, e.kind.isBracket = false := by
    intro e he
    obtain ⟨child, hkind⟩ := hjoins e (Array.mem_toList_iff.1 he)
    rw [hkind]
    rfl
  have hnested := hwalks.nested
  have hall := hnested.append (.flat (List.nodup_singleton _) hflat)
  rw [← Array.toList_append, ← happends.events_eq, ← hevents] at hall
  refine ⟨w, last, ended, hwalks, hthread, hlast, hevents, happends.events_eq, hjoins,
    hnested.closed, hall.closed, fun before hbefore => ?_⟩
  obtain ⟨calls, routines, hcalls, henters, hnodup⟩ := hall.distinct before hbefore
  have hcalled := henters.imp fun e f h => Enters.called hbuild h
  refine ⟨calls, routines, hcalls, hcalled, ?_, ?_⟩
  · exact List.nodup_append_comm.1 hnodup
  · obtain ⟨hlength, hget⟩ := List.forall₂_iff_get.1 hcalled
    rw [hlength]
    refine (List.subperm_of_subset (List.nodup_append.1 hnodup).1 fun f hf => ?_).length_le
    obtain ⟨k, rfl⟩ := List.get_of_mem hf
    obtain ⟨routine, hdef⟩ := (hget k (k.isLt.trans_eq hlength.symm) k.isLt).body
    exact Program.mem_bodies hdef

/-- The main thread that calls a routine and stores there has one call open behind its store. -/
theorem nested_twice : ∃ t th w last ended, build (Twice.subject true) = .ok t ∧
    t.threads[0]? = some th ∧ th.events.toList.take 2 = [⟨0, 0, 0, .call⟩, ⟨0, 1, 2, .write⟩] ∧
      Walks (Twice.subject true) .pthread th.entry w ∧ w.self.thread = 0 ∧
      Runtime.pthread.finish w = .ok last ∧ th.events = last.self.events ∧
      last.self.events = w.self.events ++ ended ∧ openCalls w.self.events.toList = some [] ∧
      openCalls th.events.toList = some [] ∧
      Called (Twice.subject true) .pthread t ⟨0, 0, 0, .call⟩ "fill" ∧
        (th.entry :: ["fill"]).Nodup ∧ 1 ≤ Twice.program.bodies.length := by
  have hbuild := Twice.build_of_walk Twice.walk_dedup
  obtain ⟨w, last, ended, hwalks, hthread, hlast, hevents, happends, -, hclosed, hall, hopen⟩ :=
    calls_nested hbuild (i := 0) rfl
  obtain ⟨calls, routines, hcalls, hcalled, hnodup, hbound⟩ :=
    hopen [⟨0, 0, 0, .call⟩, ⟨0, 1, 2, .write⟩] ⟨_, rfl⟩
  obtain rfl : [⟨0, 0, 0, .call⟩] = calls := Option.some.inj hcalls
  cases hcalled with
  | @cons _ f _ rest h hrest =>
    cases hrest
    obtain ⟨n, api, callee, args, hn, heffect, hf⟩ := h.node
    obtain rfl : Twice.call 0 = n := Option.some.inj hn
    cases heffect
    obtain rfl : f = "fill" := List.mem_singleton.1 hf
    exact ⟨_, _, w, last, ended, hbuild, rfl, rfl, hwalks, hthread, hlast, hevents, happends,
      hclosed, hall, h, hnodup, hbound⟩

end Trace

end DataRace
