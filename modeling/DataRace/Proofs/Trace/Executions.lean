import DataRace.Proofs.Trace.Nesting
import DataRace.Proofs.Trace.TeamRuns

/-!
# Executions are apart

A thread may execute an instruction several times, each time within another call of its routine.
Before it comes to the nodes again, the call events of these calls, or a return event, stand behind
the forks of the earlier execution (`Trace.Reaches.sealed`).  And two parts that are about nodes of
one routine and have an event of their thread in common belong to one walk of the routine
(`Frame.goes_of_spans`).  So between fork events of nodes of one instruction that a thread makes in
different executions, it makes an event that is no fork (`Trace.Executes.exists_between`).
-/

namespace DataRace

open Relation

variable {c : Subject} {r : Runtime}

/-! ### Forks that are followed -/

namespace Event

/-- Behind every event that starts a child from one of some nodes stands one that starts none. -/
def Sealed (ids : List NodeId) : List Event → Prop
  | [] => True
  | e :: es => (e.kind.Forks → e.node ∈ ids → ∃ e' ∈ es, ¬ e'.kind.Forks) ∧ Sealed ids es

namespace Sealed

variable {ids ids' : List NodeId} {es new : List Event} {e : Event}

/-- Events of which none starts a child from one of the nodes. -/
theorem of_forall (h : ∀ e ∈ es, e.kind.Forks → e.node ∉ ids) : Sealed ids es := by
  induction es with
  | nil => trivial
  | cons e es ih =>
    refine ⟨fun hfork hmem => absurd hmem (h e List.mem_cons_self hfork), ih fun e' he' => ?_⟩
    exact h e' (List.mem_cons_of_mem _ he')

/-- Events behind others. -/
theorem append (h : Sealed ids es) (hnew : Sealed ids new) : Sealed ids (es ++ new) := by
  induction es with
  | nil => exact hnew
  | cons e es ih =>
    refine ⟨fun hfork hmem => ?_, ih h.2⟩
    obtain ⟨e', he', hother⟩ := h.1 hfork hmem
    exact ⟨e', List.mem_append_left _ he', hother⟩

/-- An event that starts no child seals all events before it. -/
theorem concat (es : List Event) (he : ¬ e.kind.Forks) : Sealed ids (es ++ [e]) := by
  induction es with
  | nil => exact ⟨fun hfork => absurd hfork he, trivial⟩
  | cons d es ih => exact ⟨fun _ _ => ⟨e, by simp, he⟩, ih⟩

/-- Fewer nodes. -/
theorem mono (h : Sealed ids es) (hsubset : ids' ⊆ ids) : Sealed ids' es := by
  induction es with
  | nil => trivial
  | cons e es ih => exact ⟨fun hfork hmem => h.1 hfork (hsubset hmem), ih h.2⟩

/-- The event behind such an event. -/
theorem exists_later (h : Sealed ids es) {k : Nat} (he : es[k]? = some e) (hfork : e.kind.Forks)
    (hmem : e.node ∈ ids) : ∃ l e', k < l ∧ es[l]? = some e' ∧ ¬ e'.kind.Forks := by
  induction es generalizing k with
  | nil => cases he
  | cons d es ih =>
    cases k with
    | zero =>
      cases he
      obtain ⟨e', he', hother⟩ := h.1 hfork hmem
      obtain ⟨l, hl⟩ := List.getElem?_of_mem he'
      exact ⟨l + 1, e', Nat.succ_pos l, hl, hother⟩
    | succ k =>
      obtain ⟨l, e', hlt, hl, hother⟩ := ih h.2 he
      exact ⟨l + 1, e', Nat.succ_lt_succ hlt, hl, hother⟩

end Sealed

end Event

namespace Walk

open Event

variable {ancestry opened : List String} {id : NodeId} {w w' : Walk}

/-- A fork makes events of its node. -/
theorem forkAll_events {api : ForkApi} {handle : Operand} {entries : List String}
    (h : forkAll c r ancestry opened id api handle entries w = .ok w') :
    ∃ new, w'.self.events.toList = w.self.events.toList ++ new ∧ ∀ e ∈ new, e.node = id := by
  induction entries generalizing w with
  | nil =>
    rw [forkAll] at h
    cases h
    exact ⟨[], (List.append_nil _).symm, List.forall_mem_nil _⟩
  | cons entry entries ih =>
    obtain ⟨-, h⟩ | ⟨-, -, child, v, inner, last, hbegin, -, -, h⟩ := forkAll_cons_ok h
    · exact ih h
    · obtain ⟨new, hnew, hall⟩ := ih h
      obtain ⟨-, hevents, -⟩ := endFork_spec hbegin r api handle last.close
      refine ⟨⟨w.self.thread, w.self.events.size, id, .fork child⟩ :: new, ?_,
        List.forall_mem_cons.2 ⟨rfl, hall⟩⟩
      rw [hnew, hevents, Array.toList_push, List.append_assoc]
      rfl

/-- A call that enters routines ends with a return event. -/
theorem callAll_events {args : List Operand} {targets : List String}
    (h : callAll c r ancestry opened id args targets w = .ok w') :
    w'.self.events = w.self.events ∨ ∃ new e,
      w'.self.events.toList = w.self.events.toList ++ (new ++ [e]) ∧ ¬ e.kind.Forks := by
  induction targets generalizing w with
  | nil =>
    rw [callAll] at h
    cases h
    exact Or.inl rfl
  | cons target targets ih =>
    obtain ⟨nodes, session, hsummary, ⟨-, h⟩ | ⟨routine, -, -, repeated, u, hrepeated, h⟩⟩ :=
      callAll_cons_ok h
    · exact ih (w := { w with session }) h
    · have hevents : u.self.events = w.self.events := by
        obtain ⟨session', -, rfl | rfl⟩ := isRepeated_eq hrepeated <;> rfl
      obtain ⟨-, h⟩ | ⟨-, v, hv, h⟩ := h
      · rw [← hevents]
        exact ih h
      · obtain ⟨new, hnew⟩ := (walk_grows hv).framed.events
        obtain ⟨walked, last, hwalked, hlast⟩ : ∃ walked last,
            (v.record id .return).self.events.toList =
              w.self.events.toList ++ (walked ++ [last]) ∧ ¬ last.kind.Forks := by
          refine ⟨⟨u.self.thread, u.self.events.size, id, .call⟩ :: new.toList,
            ⟨v.self.thread, v.self.events.size, id, .return⟩, ?_, EventKind.not_forks_return⟩
          show (v.self.events.push _).toList = _
          rw [Array.toList_push, hnew, Array.toList_append,
            show (u.record id .call).self.events = u.self.events.push _ from rfl,
            Array.toList_push, hevents]
          simp
        obtain heq | ⟨more, e, hmore, he⟩ := ih h
        · rw [heq]
          exact Or.inr ⟨walked, last, hwalked, hlast⟩
        · refine Or.inr ⟨(walked ++ [last]) ++ more, e, ?_, he⟩
          rw [hmore, hwalked, List.append_assoc, List.append_assoc _ more]

/-- What a node adds is sealed for other nodes. -/
theorem handle_sealed {n : Node} {rest : List NodeId} (hid : id ∉ rest)
    (h : w.handle c r ancestry opened id n = .ok w') :
    ∃ new, w'.self.events.toList = w.self.events.toList ++ new ∧ Sealed rest new := by
  obtain ⟨log, htour⟩ := Frame.run_eq_ok_iff (F := .node ancestry opened id n w).1 h
  cases htour with
  | leaf hleaf h =>
    obtain ⟨⟨new, happends, hflat⟩, -⟩ := handle_leaf hleaf h
    refine ⟨new.toList, by rw [happends.events_eq, Array.toList_append], .of_forall ?_⟩
    exact fun e he hfork => absurd hfork (hflat e (Array.mem_toList_iff.1 he)).1
  | fork _ hforks =>
    obtain ⟨new, hnew, hall⟩ := forkAll_events hforks.run
    exact ⟨new, hnew, .of_forall fun e he _ hmem => hid (hall e he ▸ hmem)⟩
  | call _ _ hcalls =>
    obtain heq | ⟨new, e, hnew, he⟩ := callAll_events hcalls.run
    · exact ⟨[], by rw [heq, List.append_nil], trivial⟩
    · exact ⟨_, hnew, .concat new he⟩

end Walk

namespace Frame

variable {F G : Frame}

/-- Behind every event that starts a child from one of the nodes to come stands one that starts
none. -/
def Sealed (F : Frame) : Prop := Event.Sealed F.ids F.walk.self.events.toList

/-- Without nodes to come there are no such events. -/
theorem Sealed.of_nil (h : F.ids = []) : F.Sealed :=
  .of_forall fun _ _ _ hmem => List.not_mem_nil (h ▸ hmem)

/-- That is so in the parts that a part asks for, too. -/
theorem Leads.sealed (h : Leads c r F G) (hnodup : F.ids.Nodup) (hF : F.Sealed) : G.Sealed := by
  cases h with
  | pass => exact hF.mono (List.subset_cons_self _ _)
  | @next ancestry opened id rest n w v u opens hn hskip hvisit hu =>
    obtain ⟨seen, happends, hflat⟩ := Walk.Flat.of_reach (Walk.Flat.visit hvisit)
    have hseen : Event.Sealed rest seen.toList :=
      .of_forall fun e he hfork => absurd hfork (hflat e (Array.mem_toList_iff.1 he)).1
    have hv : Event.Sealed rest v.self.events.toList := by
      rw [happends.events_eq, Array.toList_append]
      exact (hF.mono (List.subset_cons_self _ _)).append hseen
    cases opens with
    | true =>
      obtain ⟨new, hnew, hsealed⟩ := Walk.handle_sealed (List.nodup_cons.1 hnodup).1 hu
      show Event.Sealed rest u.self.events.toList
      rw [hnew]
      exact hv.append hsealed
    | false =>
      cases hu
      exact hv
  | @enter ancestry opened id args target targets w u nodes session =>
    show Event.Sealed _ (u.self.events.push _).toList
    rw [Array.toList_push]
    exact .concat _ EventKind.not_forks_call
  | start => trivial
  | visit | fork | call | uncalled | repeated | leave | unstarted | ended => exact .of_nil rfl

end Frame

/-- In all parts that a build comes to, something else stands behind the forks of nodes to come. -/
theorem Trace.Reaches.sealed {F : Frame} (h : Reaches c r F) (hc : c.program.Distinct) :
    F.Sealed := by
  induction h with
  | begins h =>
    obtain ⟨nodes, session, -, rfl⟩ := h
    trivial
  | leads hF hFG _ ih => exact hFG.sealed (hF.seated hc).nodup ih

/-! ### Parts of one walk of a routine -/

namespace Frame

variable {F G H : Frame} {f : String} {ancestry ancestry' opened opened' : List String}
  {ids ids' : List NodeId} {w w' u u' : Walk}

/-- A part of a part runs to its end, which carries what it comes to, and makes only events of that
part. -/
theorem carries_of_path (hpath : ReflTransGen (Asks c r) F G) (hF : F.Ready c)
    (hbacked : F.walk.session.Backed c) (hrun : F.run c r = .ok w') :
    ∃ u, G.run c r = .ok u ∧ Walk.Carries c u w' ∧
      ∀ q, Walk.Spans G.walk u q → Walk.Spans F.walk w' q := by
  induction hpath using ReflTransGen.head_induction_on generalizing w' with
  | refl => exact ⟨w', hrun, ⟨.refl w', fun _ => .refl c _⟩, fun _ hq => hq⟩
  | head hFH _ ih =>
    obtain ⟨hleads, hearnest⟩ := hFH
    obtain ⟨v, hv, hcarries⟩ := hleads.carries hearnest hF hbacked hrun
    obtain ⟨u, hu, hcarries', hspans⟩ := ih (hleads.ready hF) (hleads.backed hF.stands hbacked) hv
    exact ⟨u, hu, hcarries'.trans hcarries,
      fun q hq => hleads.spans hF hrun hv hcarries.within (hspans q hq)⟩

/-- A part that a part asks for is of the same thread, with the same routines open around it, or of
one that is started.  If it is about nodes of the same call, it comes behind a node of these. -/
theorem Asks.step (h : Asks c r F G) :
    G.walk.self.thread = F.walk.self.thread ∧ F.opened <:+ G.opened ∧
        (∀ ancestry ids w, G = .nodes ancestry F.opened ids w → Goes c r F G) ∨
      F.walk.session.threads.size ≤ G.walk.self.thread := by
  have hasked : ∀ {w u : Walk} {target : String} {args : List Operand} {session : Session}
      {repeated : Bool}, Walk.isRepeated c { w with session } target args = .ok (repeated, u) →
        u.self.thread = w.self.thread := by
    intro w u target args session repeated hrepeated
    obtain ⟨session', -, rfl | rfl⟩ := Walk.isRepeated_eq hrepeated <;> rfl
  have hasks := h
  cases h.1 with
  | pass =>
    exact Or.inl ⟨rfl, List.suffix_refl _, fun _ _ _ _ => ⟨hasks, _, _, _, _, _, _, rfl, rfl⟩⟩
  | next hn _ hvisit hu =>
    exact Or.inl ⟨(grows_next hn hvisit hu).framed.thread_eq, List.suffix_refl _,
      fun _ _ _ _ => ⟨hasks, _, _, _, _, _, _, rfl, rfl⟩⟩
  | visit _ _ hvisit =>
    exact Or.inl ⟨(Walk.visit_grows (c := c) hvisit).framed.thread_eq, List.suffix_refl _, nofun⟩
  | fork | call | uncalled | unstarted => exact Or.inl ⟨rfl, List.suffix_refl _, nofun⟩
  | repeated _ _ hrepeated => exact Or.inl ⟨hasked hrepeated, List.suffix_refl _, nofun⟩
  | enter _ _ hrepeated =>
    have hthread := hasked hrepeated
    refine Or.inl ⟨hthread, List.suffix_cons _ _, fun ancestry ids w heq => ?_⟩
    injection heq with _ hopened
    exact absurd hopened (List.cons_ne_self _ _)
  | leave _ _ hrepeated hv =>
    have hthread := hasked hrepeated
    exact Or.inl ⟨(Walk.walk_grows hv).framed.thread_eq.trans hthread, List.suffix_refl _, nofun⟩
  | start _ _ hbegin => exact Or.inr (Walk.beginFork_spec hbegin).1.ge
  | ended _ _ hbegin => exact Or.inl ⟨(Walk.endFork_spec hbegin ..).1, List.suffix_refl _, nofun⟩

/-- What nodes of a call ask for is done by the same thread with the same routines open around it,
or by a later thread.  If it is about nodes of the same call, it comes behind some of these. -/
theorem stays_of_path (hF : Ready c (.nodes ancestry opened ids w))
    (hpath : ReflTransGen (Asks c r) (.nodes ancestry opened ids w) G) :
    G.Ready c ∧ w.self.thread ≤ G.walk.self.thread ∧
      (G.walk.self.thread = w.self.thread → opened <:+ G.opened ∧
        ∀ ancestry' ids' w', G = .nodes ancestry' opened ids' w' →
          ReflTransGen (Goes c r) (.nodes ancestry opened ids w) G) := by
  induction hpath with
  | refl => exact ⟨hF, le_rfl, fun _ => ⟨List.suffix_refl _, fun _ _ _ _ => .refl⟩⟩
  | @tail G H _ hGH ih =>
    obtain ⟨hG, hle, hstays⟩ := ih
    obtain ⟨hthread, hsuffix, hgoes⟩ | hlater := hGH.step
    · refine ⟨hGH.1.ready hG, hthread ▸ hle, fun hsame => ?_⟩
      obtain ⟨hopened, hpath⟩ := hstays (hthread.symm.trans hsame)
      refine ⟨hopened.trans hsuffix, ?_⟩
      rintro ancestry' ids' w' rfl
      have heq : G.opened = opened := hsuffix.eq_of_length_le hopened.length_le
      obtain ⟨-, a, o, id, rest, v, v', rfl, -⟩ := hgoes ancestry' ids' w' (heq ▸ rfl)
      obtain rfl : o = opened := heq
      exact (hpath _ _ _ rfl).tail (hgoes _ _ _ rfl)
    · have hlt : w.self.thread < H.walk.self.thread :=
        hle.trans_lt (hG.sound.inTable.trans_le hlater)
      exact ⟨hGH.1.ready hG, hlt.le, fun hsame => absurd hsame hlt.ne'⟩

/-- Nodes of a routine that nodes of it ask for in the same thread come behind some of these. -/
theorem goes_of_path (hF : Ready c (.nodes ancestry (f :: opened) ids w))
    (hpath : ReflTransGen (Asks c r) (.nodes ancestry (f :: opened) ids w)
      (.nodes ancestry' (f :: opened') ids' w'))
    (hthread : w'.self.thread = w.self.thread) (hnodup : (f :: opened').Nodup) :
    ReflTransGen (Goes c r) (.nodes ancestry (f :: opened) ids w)
      (.nodes ancestry' (f :: opened') ids' w') := by
  obtain ⟨-, -, hstays⟩ := stays_of_path hF hpath
  obtain ⟨⟨before, hopened⟩, hgoes⟩ := hstays hthread
  -- The routine is open once.
  cases before with
  | nil =>
    obtain rfl : opened = opened' := (List.cons.inj hopened).2
    exact hgoes _ _ _ rfl
  | cons g before =>
    obtain ⟨rfl, hrest⟩ := List.cons.inj hopened
    refine absurd ?_ (List.nodup_cons.1 hnodup).1
    rw [← hrest]
    exact List.mem_append_right _ List.mem_cons_self

/-- Nodes of a routine in one thread that make one event in common come behind each other. -/
theorem goes_of_spans {q : EventRef} {v : Walk}
    (hG : ReflTransGen (Asks c r) F (.nodes ancestry (f :: opened) ids w))
    (hH : ReflTransGen (Asks c r) F (.nodes ancestry' (f :: opened') ids' w'))
    (hF : F.Ready c) (hbacked : F.walk.session.Backed c) (hrun : F.run c r = .ok v)
    (hu : w.walk c r ancestry (f :: opened) ids = .ok u)
    (hu' : w'.walk c r ancestry' (f :: opened') ids' = .ok u')
    (hthread : w'.self.thread = w.self.thread) (hnodup : (f :: opened).Nodup)
    (hnodup' : (f :: opened').Nodup) (hq : Walk.Spans w u q) (hq' : Walk.Spans w' u' q) :
    ReflTransGen (Goes c r) (.nodes ancestry (f :: opened) ids w)
        (.nodes ancestry' (f :: opened') ids' w') ∨
      ReflTransGen (Goes c r) (.nodes ancestry' (f :: opened') ids' w')
        (.nodes ancestry (f :: opened) ids w) := by
  induction hG using ReflTransGen.head_induction_on generalizing v with
  | refl => exact Or.inl (goes_of_path hF hH hthread hnodup')
  | @head F K hK hKG ih =>
    rcases hH.cases_head with rfl | ⟨L, hL, hLH⟩
    · exact Or.inr (goes_of_path hF (.head hK hKG) hthread.symm hnodup)
    · have hready := hK.1.ready hF
      have hbacked' := hK.1.backed hF.stands hbacked
      obtain ⟨x, hx, -⟩ := hK.1.runs hK.2 hF hbacked hrun
      obtain ⟨y, hy, -⟩ := hL.1.runs hL.2 hF hbacked hrun
      obtain ⟨z, hz, -, hspans⟩ := carries_of_path hKG hready hbacked' hx
      obtain ⟨z', hz', -, hspans'⟩ :=
        carries_of_path hLH (hL.1.ready hF) (hL.1.backed hF.stands hbacked) hy
      cases hu.symm.trans hz
      cases hu'.symm.trans hz'
      rcases hK.apart hF hbacked hL with rfl | ⟨x', hx', happart⟩ | ⟨y', hy', happart⟩
      · exact ih hLH hready hbacked' hx
      · cases hx.symm.trans hx'
        exact absurd (hspans' q hq') (happart q _ (hspans q hq))
      · cases hy.symm.trans hy'
        exact absurd (hspans q hq) (happart q _ (hspans' q hq'))

/-- Nodes that come behind others are the last of these. -/
theorem Goes.ids_eq (h : ReflTransGen (Goes c r) F G) :
    F = G ∨ ∃ id before, F.ids = id :: before ++ G.ids := by
  induction h with
  | refl => exact Or.inl rfl
  | tail _ hstep ih =>
    obtain ⟨-, ancestry, opened, id, rest, w, w', rfl, rfl⟩ := hstep
    refine Or.inr ?_
    rcases ih with rfl | ⟨id', before, heq⟩
    · exact ⟨id, [], rfl⟩
    · exact ⟨id', before ++ [id], by rw [heq]; simp [ids]⟩

/-- Nodes that come behind others are walked by the same thread. -/
theorem Goes.grows (h : ReflTransGen (Goes c r) F G) : Walk.Grows c r F.walk G.walk := by
  induction h with
  | refl => exact .refl _
  | tail _ hstep ih =>
    obtain ⟨⟨hleads, -⟩, ancestry, opened, id, rest, w, w', rfl, rfl⟩ := hstep
    refine ih.trans ?_
    cases hleads with
    | pass => exact .refl _
    | next hn _ hvisit hu => exact grows_next hn hvisit hu

end Frame

/-! ### Two executions -/

/-- A node of a routine is one of an instruction in a later arena just if it is one now. -/
theorem Session.Placed.filter_isOf {s : Session} (h : s.Placed c) {f : String} {all : List NodeId}
    (hall : s.summaries[f]? = some all) {a : Arena} (ha : s.arena.Extends a) (inst : InstId) :
    all.filter (a.isOf inst) = all.filter (s.arena.isOf inst) := by
  obtain ⟨base, rfl, hget⟩ := h.stretch f all hall
  refine List.filter_congr fun id hid => ?_
  obtain ⟨k, hk, rfl⟩ := List.mem_range'.1 hid
  have hn := hget k _ (List.getElem?_eq_getElem hk)
  rw [Arena.isOf, Arena.isOf, Nat.one_mul, hn, ha _ _ hn]

namespace Trace

variable {t : Trace} {F : Frame} {f : String} {i : Instruction}
  {ancestry ancestry' opened opened' : List String} {ids ids' rest rest' : List NodeId}
  {w w' v : Walk}

/-- What is known in a part is known when the walk of the main thread has come to its end. -/
theorem Begins.later {G : Frame} (h : Begins c F) (hrun : F.run c r = .ok v)
    (hpath : ReflTransGen (Frame.Asks c r) F G) (hc : c.program.Distinct) :
    Session.Later c G.walk.session v.session := by
  obtain ⟨hready, hbacked⟩ := (Reaches.begins (r := r) h).ready
  obtain ⟨u, hu, hcarries, -⟩ := Frame.carries_of_path hpath hready hbacked hrun
  have hstands := ((Reaches.begins (r := r) h).of_path hpath).stands
  exact ((hstands.grows hu).later hc).trans (hcarries.later hc)

/-- An instruction has the same nodes in all its executions. -/
theorem Executes.ids_eq (h : Executes c r f i ancestry opened ids rest w)
    (h' : Executes c r f i ancestry' opened' ids' rest' w') (hF : Begins c F)
    (hrun : F.run c r = .ok v) (hc : c.program.Distinct) : ids = ids' := by
  have hlater : ∀ {G}, Reaches c r G → Session.Later c G.walk.session v.session := by
    intro G hG
    obtain ⟨F', hF', hpath⟩ := hG.exists_path
    obtain rfl := hF.unique hF'
    exact hF.later hrun hpath hc
  obtain ⟨all, hall, rfl⟩ := h.filter_isOf
  obtain ⟨all', hall', rfl⟩ := h'.filter_isOf
  have hw := hlater h.reaches
  have hw' := hlater h'.reaches
  have hsame : some all = some all' :=
    (hw.remembers f all hall).symm.trans (hw'.remembers f all' hall')
  have hplaced : w.session.Placed c := (h.reaches.seated hc).placed
  have hplaced' : w'.session.Placed c := (h'.reaches.seated hc).placed
  rw [← hplaced.filter_isOf hall hw.arena, ← hplaced'.filter_isOf hall' hw'.arena,
    Option.some.inj hsame]

/-- A thread starts a child when it executes an instruction: one of the nodes starts it, before the
thread goes on to the nodes behind. -/
structure Launches (c : Subject) (r : Runtime) (t : Trace) (ancestry opened : List String)
    (ids rest : List NodeId) (w : Walk) (k : Nat) (child : ThreadId) : Prop where
  event : ∃ e, t.event? ⟨w.self.thread, k⟩ = some e ∧ e.kind = .fork child ∧ e.node ∈ ids
  le : w.self.events.size ≤ k
  lt : ∃ u, ReflTransGen (Frame.Goes c r) (.nodes ancestry opened (ids ++ rest) w)
    (.nodes ancestry opened rest u) ∧ k < u.self.events.size

/-- The event is made when the nodes are walked. -/
theorem Launches.spans {k : Nat} {child : ThreadId} {u : Walk}
    (h : Launches c r t ancestry opened ids rest w k child)
    (hF : Reaches c r (.nodes ancestry opened (ids ++ rest) w))
    (hu : w.walk c r ancestry opened (ids ++ rest) = .ok u) :
    Walk.Spans w u ⟨w.self.thread, k⟩ := by
  obtain ⟨hready, hbacked⟩ := hF.ready
  obtain ⟨v, hgoes, hlt⟩ := h.lt
  have hpath := hgoes.lift (p := Frame.Asks c r) (fun F => F) fun _ _ hstep => hstep.1
  obtain ⟨x, hx, hcarries, -⟩ := Frame.carries_of_path hpath hready hbacked hu
  have hv : Walk.Grows c r w v := Frame.Goes.grows hgoes
  have hrest : Walk.Grows c r v x := Walk.walk_grows hx
  have hthread : u.self.thread = x.self.thread :=
    (Walk.walk_grows hu).framed.thread_eq.trans (hv.trans hrest).framed.thread_eq.symm
  exact Or.inl ⟨rfl, h.le, hlt.trans_le
    (hrest.framed.events_le.trans (hcarries.within.size_le hthread))⟩

/-- Between the fork events of one instruction that a thread makes in different executions, it makes
an event that is no fork. -/
theorem Executes.exists_between (hbuild : build c = .ok t) (hc : c.program.Distinct)
    (h : Executes c (Runtime.ofProgram c.program c.settings.runtime) f i ancestry opened ids rest w)
    (h' : Executes c (Runtime.ofProgram c.program c.settings.runtime) f i ancestry' opened' ids'
      rest' w')
    (hne : Frame.nodes ancestry (f :: opened) (ids ++ rest) w ≠
      .nodes ancestry' (f :: opened') (ids' ++ rest') w')
    {k k' : Nat} {child child' : ThreadId}
    (hlaunch : Launches c (Runtime.ofProgram c.program c.settings.runtime) t ancestry (f :: opened)
      ids rest w k child)
    (hlaunch' : Launches c (Runtime.ofProgram c.program c.settings.runtime) t ancestry'
      (f :: opened') ids' rest' w' k' child')
    (hthread : w'.self.thread = w.self.thread) (hle : k ≤ k') :
    ∃ l e, k < l ∧ l < k' ∧ t.event? ⟨w.self.thread, l⟩ = some e ∧ ¬ e.kind.Forks := by
  obtain ⟨F, hF, hpath⟩ := h.reaches.exists_path
  obtain ⟨F', hF', hpath'⟩ := h'.reaches.exists_path
  obtain rfl := hF.unique hF'
  obtain ⟨v, -, hrun, -⟩ := hF.runs hbuild
  obtain rfl := h.ids_eq h' hF hrun hc
  obtain ⟨u, hu, -⟩ := h.reaches.runs hbuild
  obtain ⟨u', hu', hlasts'⟩ := h'.reaches.runs hbuild
  have hlasts : w'.Lasts t := (Walk.walk_grows hu').within.lasts hlasts'
  obtain ⟨e, he, hkind, hmem⟩ := hlaunch.event
  rcases Nat.lt_or_ge k w'.self.events.size with hlt | hge
  -- The event is made before the later execution begins.
  · obtain ⟨d, hd⟩ : ∃ d, w'.self.events[k]? = some d := ⟨_, Array.getElem?_eq_getElem hlt⟩
    have hsame := hlasts.event?_eq hd
    rw [hthread, he] at hsame
    cases hsame
    have hsealed : Event.Sealed (ids ++ rest') w'.self.events.toList := h'.reaches.sealed hc
    obtain ⟨l, e', hl, he', hother⟩ := hsealed.exists_later (Array.getElem?_toList.trans hd)
      ⟨child, hkind⟩ (List.mem_append_left _ hmem)
    rw [Array.getElem?_toList] at he'
    refine ⟨l, e', hl, ?_, hthread ▸ hlasts.event?_eq he', hother⟩
    exact (Array.getElem?_eq_some_iff.1 he').1.trans_le hlaunch'.le
  -- The executions overlap, so they are one.
  · have hspans := hlaunch.spans h.reaches hu
    have hspans' : Walk.Spans w' u' ⟨w.self.thread, k⟩ := by
      obtain ⟨-, -, hlt⟩ | ⟨hafter, -⟩ := hlaunch'.spans h'.reaches hu'
      · exact Or.inl ⟨hthread.symm, hge, hle.trans_lt hlt⟩
      · exact absurd h'.reaches.ready.1.sound.inTable (Nat.not_lt.2 hafter)
    obtain ⟨hready, hbacked⟩ := (Reaches.begins (r := default) hF).ready
    have hnodup : (ids ++ rest).Nodup := (h.reaches.seated hc).nodup
    have hnodup' : (ids ++ rest').Nodup := (h'.reaches.seated hc).nodup
    obtain ⟨id, others, rfl⟩ := List.exists_cons_of_ne_nil (List.ne_nil_of_mem hmem)
    have happart : ∀ {x : NodeId} {before more more' : List NodeId},
        (id :: others ++ more).Nodup →
          id :: others ++ more ≠ x :: before ++ (id :: others ++ more') := by
      intro x before more more' hnodup heq
      obtain ⟨rfl, htail⟩ := List.cons.inj heq
      refine (List.nodup_cons.1 hnodup).1 ?_
      rw [htail]
      simp
    refine absurd ?_ hne
    obtain hgoes | hgoes := Frame.goes_of_spans hpath hpath' hready hbacked hrun hu hu' hthread
      h.reaches.nodup_opened h'.reaches.nodup_opened hspans hspans'
    · obtain heq | ⟨x, before, heq⟩ := Frame.Goes.ids_eq hgoes
      · exact heq
      · exact absurd heq (happart hnodup)
    · obtain heq | ⟨x, before, heq⟩ := Frame.Goes.ids_eq hgoes
      · exact heq.symm
      · exact absurd heq (happart hnodup')

end Trace

end DataRace
