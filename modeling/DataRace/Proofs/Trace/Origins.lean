import DataRace.Proofs.Trace.Executions

/-!
# Where children come from

Every fork event of a trace is made when its thread executes an instruction
(`Trace.exists_launches`).  The event belongs to a fork that a thread visits
(`Trace.exists_visits_of_forks`).  The nodes of one instruction stand next to each other
(`Session.Placed.exists_between`), so the walk of the routine comes to the first of them before, and
passes none of them over, for a thread that skips them does not stop at one.
-/

namespace DataRace

open Relation

variable {c : Subject} {r : Runtime}

/-! ### The nodes of an instruction -/

namespace Subject

variable {f : String} {routine : Routine} {i : Instruction}

/-- The nodes of an instruction stand next to each other in its routine. -/
theorem exists_between (hc : c.program.Distinct) (hdef : c.program.definition? f = some routine)
    (hi : i ∈ routine.body) :
    ∃ before own behind, (∀ n ∈ own, n.inst = i.id) ∧ (∀ n ∈ before ++ behind, n.inst ≠ i.id) ∧
      c.nodesOf f = before ++ (own ++ behind) := by
  obtain hnil | ⟨d, heq, hd⟩ := nodesOf_cases hdef
  · exact ⟨[], [], [], List.forall_mem_nil _, List.forall_mem_nil _, hnil⟩
  · obtain ⟨pre, post, hbody⟩ := List.append_of_mem hi
    have hids := hc f routine hdef
    rw [hbody] at hids hd
    obtain ⟨before, own, behind, -, -, hgroup, rfl, hothers⟩ :=
      Draft.exists_between hids tidy_empty hd
    rw [Draft.extend_extend ⟨.empty, []⟩, Draft.extend_extend ⟨.empty, []⟩, toList_extend_empty,
      List.append_assoc] at heq
    refine ⟨before, own.map (Node.shift before.length), behind.map (Node.shift _), ?_, ?_, heq⟩
    · exact List.forall_mem_map.2 fun n hn => (Node.inst_shift _ n).trans (hgroup.inst_eq n hn)
    · refine List.forall_mem_append.2 ⟨fun n hn => hothers n (List.mem_append_left _ hn), ?_⟩
      exact List.forall_mem_map.2 fun n hn =>
        (Node.inst_shift _ n).trans_ne (hothers n (List.mem_append_right _ hn))

end Subject

/-- What holds of the instructions of nodes holds where they stand. -/
theorem Arena.Stands.forall_inst {a : Arena} {base k : Nat} {ns : List Node}
    (h : a.Stands base (ns.map (Node.shift k))) {P : InstId → Prop} (hP : ∀ n ∈ ns, P n.inst) :
    ∀ id ∈ List.range' base ns.length, ∃ n, a.get? id = some n ∧ P n.inst := by
  intro id hid
  obtain ⟨m, hm, hget⟩ := h.exists_get? (by rwa [List.length_map])
  obtain ⟨n, hn, rfl⟩ := List.mem_map.1 hm
  exact ⟨_, hget, (Node.inst_shift k n).symm ▸ hP n hn⟩

/-- A node of a routine in a session is one of an instruction, and the nodes of that stand next to
each other. -/
theorem Session.Placed.exists_between {s : Session} (h : Placed c s) (hc : c.program.Distinct)
    {f : String} {all : List NodeId} (hall : s.summaries[f]? = some all) {id : NodeId}
    (hid : id ∈ all) :
    ∃ routine i before own behind, c.program.definition? f = some routine ∧ i ∈ routine.body ∧
      all = before ++ (own ++ behind) ∧ id ∈ own ∧
      (∀ id ∈ own, ∃ n, s.arena.get? id = some n ∧ n.inst = i.id) ∧
      ∀ id ∈ before ++ behind, ∃ n, s.arena.get? id = some n ∧ n.inst ≠ i.id := by
  obtain ⟨base, rfl, hstands⟩ := h.exists_stands hall
  obtain ⟨n, hn, routine, i, hdef, hi, hinst⟩ := hstands.forall_inst
    (P := fun inst => ∃ routine i, c.program.definition? f = some routine ∧ i ∈ routine.body ∧
      inst = i.id) (fun n hn => Subject.exists_instruction hc hn) id hid
  obtain ⟨before, own, behind, hown, hothers, heq⟩ := Subject.exists_between hc hdef hi
  rw [heq, List.map_append, List.map_append] at hstands
  obtain ⟨hbefore, hrest⟩ := hstands.append
  obtain ⟨hmiddle, hbehind⟩ := hrest.append
  rw [List.length_map] at hmiddle
  rw [List.length_map, List.length_map] at hbehind
  have hall : List.range' base (c.nodesOf f).length =
      List.range' base before.length ++ (List.range' (base + before.length) own.length ++
        List.range' (base + before.length + own.length) behind.length) := by
    rw [heq, List.length_append, List.length_append, List.range'_append_1, List.range'_append_1]
  have hne := List.forall_mem_append.2
    ⟨hbefore.forall_inst (P := (· ≠ i.id)) fun n hn => hothers n (List.mem_append_left _ hn),
      hbehind.forall_inst (P := (· ≠ i.id)) fun n hn => hothers n (List.mem_append_right _ hn)⟩
  refine ⟨routine, i, _, _, _, hdef, hi, hall, ?_, hmiddle.forall_inst (P := (· = i.id)) hown, hne⟩
  -- It stands neither before nor behind, where there are other instructions.
  have hnot : id ∉ List.range' base before.length ++
      List.range' (base + before.length + own.length) behind.length := by
    intro hmem
    obtain ⟨m, hm, hother⟩ := hne id hmem
    cases hn.symm.trans hm
    exact hother hinst
  rw [List.mem_append, not_or] at hnot
  rw [hall, List.mem_append, List.mem_append] at hid
  exact (hid.resolve_left hnot.1).resolve_right hnot.2

/-! ### The walk of a routine -/

/-- A thread does not pass over the nodes of an instruction. -/
def Walk.StopsAt (w : Walk) (inst : InstId) : Prop :=
  ∀ n : Node, n.inst = inst → w.isSkipped n = false

/-- A thread that does not pass over a node stops at its instruction. -/
theorem Walk.stopsAt_of_visited {w : Walk} {n : Node} (h : w.isSkipped n = false) :
    w.StopsAt n.inst := by
  intro m hm
  unfold isSkipped at h ⊢
  rwa [hm]

namespace Frame.Goes

variable {ancestry ancestry' opened opened' : List String} {pre mid post : List NodeId}
  {w w' : Walk}

/-- Nodes that come behind more nodes come behind these without the first. -/
theorem exists_head {id : NodeId} {rest : List NodeId}
    (h : ReflTransGen (Goes c r) (.nodes ancestry opened (id :: rest) w)
      (.nodes ancestry' opened' post w')) (hlength : post.length ≤ rest.length) :
    ∃ u, Goes c r (.nodes ancestry opened (id :: rest) w) (.nodes ancestry opened rest u) ∧
      ReflTransGen (Goes c r) (.nodes ancestry opened rest u)
        (.nodes ancestry' opened' post w') := by
  rcases h.cases_head with heq | ⟨G, hstep, hpath⟩
  · injection heq with _ _ hids
    rw [← hids] at hlength
    exact absurd hlength (Nat.not_succ_le_self _)
  · have hgoes := hstep
    obtain ⟨-, a, o, id', rest', u, u', hF, rfl⟩ := hgoes
    injection hF with ha ho hids
    obtain ⟨rfl, rfl⟩ := List.cons.inj hids
    subst ha ho
    exact ⟨u', hstep, hpath⟩

/-- Nodes that come behind others come behind the nodes in between. -/
theorem exists_between
    (h : ReflTransGen (Goes c r) (.nodes ancestry opened (pre ++ (mid ++ post)) w)
      (.nodes ancestry' opened' post w')) :
    ∃ v, ReflTransGen (Goes c r) (.nodes ancestry opened (pre ++ (mid ++ post)) w)
        (.nodes ancestry opened (mid ++ post) v) ∧
      ReflTransGen (Goes c r) (.nodes ancestry opened (mid ++ post) v)
        (.nodes ancestry' opened' post w') := by
  induction pre generalizing w with
  | nil => exact ⟨w, .refl, h⟩
  | cons id pre ih =>
    have hle : post.length ≤ (pre ++ (mid ++ post)).length := by
      simp only [List.length_append]
      omega
    obtain ⟨u, hstep, hpath⟩ := exists_head h hle
    obtain ⟨v, hbefore, hbehind⟩ := ih hpath
    exact ⟨v, .head hstep hbefore, hbehind⟩

/-- A thread that stops at an instruction did so at the nodes of the instruction before. -/
theorem stopsAt {inst : InstId}
    (h : ReflTransGen (Goes c r) (.nodes ancestry opened (mid ++ post) w)
      (.nodes ancestry' opened' post w'))
    (hmid : ∀ id ∈ mid, ∃ n, w.session.arena.get? id = some n ∧ n.inst = inst)
    (hw' : w'.StopsAt inst) : w.StopsAt inst := by
  induction mid with
  | nil =>
    rcases ids_eq h with heq | ⟨id, before, hids⟩
    · injection heq with _ _ _ hwalk
      exact hwalk ▸ hw'
    · have hlength := congrArg List.length hids
      simp only [ids, List.nil_append, List.length_append, List.length_cons] at hlength
      omega
  | cons id mid ih =>
    have hle : post.length ≤ (mid ++ post).length := (List.suffix_append mid post).length_le
    obtain ⟨u, ⟨⟨hleads, -⟩, -⟩, hpath⟩ := exists_head h hle
    obtain ⟨n, hn, rfl⟩ := hmid id List.mem_cons_self
    cases hleads with
    | pass => exact ih hpath fun id hid => hmid id (List.mem_cons_of_mem _ hid)
    | next hn' hvisited =>
      cases hn.symm.trans hn'
      exact Walk.stopsAt_of_visited hvisited

end Frame.Goes

namespace Trace

variable {f : String} {ancestry opened : List String} {ids : List NodeId} {w : Walk}

/-- The nodes of a routine are walked from the first one on. -/
theorem Reaches.exists_all (h : Reaches c r (.nodes ancestry (f :: opened) ids w))
    (hc : c.program.Distinct) :
    ∃ all v, Reaches c r (.nodes ancestry (f :: opened) all v) ∧
      (all = [] ∨ v.session.summaries[f]? = some all) ∧
      ReflTransGen (Frame.Goes c r) (.nodes ancestry (f :: opened) all v)
        (.nodes ancestry (f :: opened) ids w) := by
  -- A routine that was looked up.
  have hlooked : ∀ {g : String} {s s' s'' : Session} {nodes : Option (List NodeId)},
      s.summary c g = .ok (nodes, s') → s'.Remembers s'' →
        nodes.getD [] = [] ∨ s''.summaries[g]? = some (nodes.getD []) := by
    intro g s s' s'' nodes hs hremembers
    cases nodes with
    | none => exact Or.inl rfl
    | some all => exact Or.inr (hremembers g all (Session.summary_known hs).1)
  generalize hF : Frame.nodes ancestry (f :: opened) ids w = F at h
  induction h generalizing ids w with
  | begins h =>
    obtain ⟨nodes, session, hsummary, rfl⟩ := id h
    cases hF
    exact ⟨_, _, .begins h, hlooked hsummary (.refl _), .refl⟩
  | leads hG hGF hearnest ih =>
    subst hF
    cases hGF with
    | pass hn hskip =>
      obtain ⟨all, v, hall, hsummary, hpath⟩ := ih rfl
      exact ⟨all, v, hall, hsummary,
        hpath.tail ⟨⟨.pass hn hskip, trivial⟩, _, _, _, _, _, _, rfl, rfl⟩⟩
    | next hn hskip hvisit hu =>
      obtain ⟨all, v, hall, hsummary, hpath⟩ := ih rfl
      exact ⟨all, v, hall, hsummary,
        hpath.tail ⟨⟨.next hn hskip hvisit hu, trivial⟩, _, _, _, _, _, _, rfl, rfl⟩⟩
    | enter hsummary hopen hrepeated =>
      refine ⟨_, _, hG.leads (.enter hsummary hopen hrepeated) hearnest, hlooked hsummary ?_, .refl⟩
      exact ((Walk.isRepeated_grows (r := r) hrepeated).later hc).remembers
    | start hnew hlimit hbegin hsummary =>
      exact ⟨_, _, hG.leads (.start hnew hlimit hbegin hsummary) hearnest,
        hlooked hsummary (.refl _), .refl⟩

end Trace

/-! ### Fork events -/

namespace Trace

/-- An event is made when a fork starts a child. -/
def MadeByFork (c : Subject) (r : Runtime) (e : Event) : Prop :=
  ∃ ancestry opened id api handle entry entries v u,
    Reaches c r (.forks ancestry opened id api handle (entry :: entries) v) ∧
    Frame.Asks c r (.forks ancestry opened id api handle (entry :: entries) v)
      (.forks ancestry opened id api handle entries u) ∧
    e.node = id ∧ e.ref = ⟨v.self.thread, v.self.events.size⟩ ∧
    u.self.thread = v.self.thread ∧ u.self.events = v.self.events.push e

end Trace

namespace Frame

open Trace

/-- A part adds fork events only when forks start children. -/
theorem Tours.madeByFork {F : Frame} {log : List Visit} {w' : Walk} (h : Tours c r F log w')
    (hF : Reaches c r F) : ∃ new, w'.self.events.toList = F.walk.self.events.toList ++ new ∧
      ∀ e ∈ new, e.kind.Forks → MadeByFork c r e := by
  refine h.stretch (P := fun _ w w' => ∃ new, w'.self.events.toList = w.self.events.toList ++ new ∧
    ∀ e ∈ new, e.kind.Forks → MadeByFork c r e) hF ?_ ?_ ?_ ?_
  · rintro opened w w' - ⟨new, happends, hflat⟩
    refine ⟨new.toList, by rw [happends.events_eq, Array.toList_append], fun e he hfork => ?_⟩
    exact absurd hfork (hflat e (Array.mem_toList_iff.1 he)).1
  · rintro opened u v w - - - ⟨new, hnew, hall⟩ ⟨more, hmore, hall'⟩
    refine ⟨new ++ more, by rw [hmore, hnew, List.append_assoc], ?_⟩
    exact List.forall_mem_append.2 ⟨hall, hall'⟩
  · rintro opened f id u v - ⟨new, hnew, hall⟩
    refine ⟨⟨u.self.thread, u.self.events.size, id, .call⟩ ::
      (new ++ [⟨v.self.thread, v.self.events.size, id, .return⟩]), ?_, ?_⟩
    · have hreturn : (v.record id .return).self.events = v.self.events.push _ := rfl
      have hcall : (u.record id .call).self.events = u.self.events.push _ := rfl
      rw [hreturn, Array.toList_push, hnew, hcall, Array.toList_push]
      simp only [List.append_assoc, List.cons_append, List.nil_append]
    · refine List.forall_mem_cons.2 ⟨(absurd · EventKind.not_forks_call),
        List.forall_mem_append.2 ⟨hall, List.forall_mem_singleton.2 ?_⟩⟩
      exact (absurd · EventKind.not_forks_return)
  · intro ancestry opened id api handle entry entries w v inner last child _ hF hnew hlimit hbegin
      hinner hlast _
    obtain ⟨hthread, hevents, -⟩ := Walk.endFork_spec hbegin r api handle last.close
    refine ⟨[_], by rw [hevents, Array.toList_push], List.forall_mem_singleton.2 fun _ => ?_⟩
    exact ⟨_, _, _, _, _, _, _, _, _, hF, ⟨.ended hnew hlimit hbegin hinner hlast, trivial⟩, rfl,
      rfl, hthread, hevents⟩

end Frame

namespace Trace

variable {t : Trace}

/-- Every fork event of a trace is made when a fork starts a child. -/
theorem madeByFork_of_build (hbuild : build c = .ok t) {q : EventRef} {e : Event}
    (he : t.event? q = some e) (hfork : e.kind.Forks) :
    MadeByFork c (Runtime.ofProgram c.program c.settings.runtime) e := by
  obtain ⟨th, hth, hget⟩ := event?_eq_some_iff.1 he
  obtain ⟨w, last, hwalks, -, hlast, hevents⟩ := ended_of_build hbuild hth
  obtain ⟨ended, happends, hjoins⟩ := Walk.Flat.finish_joins hlast
  have hmem : e ∈ w.self.events ++ ended := by
    rw [← happends.events_eq, ← hevents]
    exact Array.mem_of_getElem? hget
  rcases Array.mem_append.1 hmem with hmem | hmem
  · obtain hnone | ⟨F, log, hF, htour, -, hstart⟩ := hwalks.exists_tour
    · rw [hnone] at hmem
      exact absurd hmem (Array.not_mem_empty e)
    · obtain ⟨new, hnew, hall⟩ := htour.madeByFork hF
      rw [hstart, Array.toList_empty, List.nil_append] at hnew
      exact hall e (hnew ▸ Array.mem_toList_iff.2 hmem) hfork
  · obtain ⟨child, hjoin⟩ := hjoins e hmem
    obtain ⟨child', hkind⟩ := hfork
    cases hjoin.symm.trans hkind

/-! ### Forks in the walk of a routine -/

variable {ancestry opened entries : List String} {id : NodeId} {api : ForkApi} {handle : Operand}
  {v : Walk}

/-- A node is handled when its thread visits it. -/
theorem Reaches.exists_visit {n : Node} (h : Reaches c r (.node ancestry opened id n v)) :
    ∃ rest w, Reaches c r (.nodes ancestry opened (id :: rest) w) ∧
      w.session.arena.get? id = some n ∧ w.isSkipped n = false ∧
      r.visit w.reach n opened.head? rest = .ok (true, v) := by
  cases h with
  | begins h =>
    obtain ⟨nodes, session, -, heq⟩ := h
    cases heq
  | leads hF hFG hearnest =>
    cases hFG with
    | visit hn hskip hvisit => exact ⟨_, _, hF, hn, hskip, hvisit⟩

/-- Children are started when a thread handles a fork. -/
theorem Reaches.exists_fork (h : Reaches c r (.forks ancestry opened id api handle entries v)) :
    ∃ n u, Reaches c r (.node ancestry opened id n u) ∧ Walk.Grows c r u v ∧
      ReflTransGen (Frame.Asks c r) (.node ancestry opened id n u)
        (.forks ancestry opened id api handle entries v) := by
  generalize hF : Frame.forks ancestry opened id api handle entries v = F at h
  induction h generalizing entries v with
  | begins h =>
    obtain ⟨nodes, session, -, rfl⟩ := h
    cases hF
  | leads hG hGF hearnest ih =>
    subst hF
    cases hGF with
    | fork heffect => exact ⟨_, _, hG, .meet _ id, .single ⟨.fork heffect, trivial⟩⟩
    | unstarted hpass =>
      obtain ⟨n, u, hnode, hgrows, hpath⟩ := ih rfl
      exact ⟨n, u, hnode, hgrows, hpath.tail ⟨.unstarted hpass, trivial⟩⟩
    | ended hnew hlimit hbegin hinner hlast =>
      obtain ⟨n, u, hnode, hgrows, hpath⟩ := ih rfl
      exact ⟨n, u, hnode, hgrows.trans (hG.stands.grows_fork hlimit hbegin hinner hlast),
        hpath.tail ⟨.ended hnew hlimit hbegin hinner hlast, trivial⟩⟩

/-- An event is made while a thread visits its node. -/
theorem MadeByFork.exists_goes (hbuild : build c = .ok t) {e : Event}
    (h : MadeByFork c (Runtime.ofProgram c.program c.settings.runtime) e) :
    ∃ ancestry opened rest w n u,
      Reaches c (Runtime.ofProgram c.program c.settings.runtime)
        (.nodes ancestry opened (e.node :: rest) w) ∧
      w.session.arena.get? e.node = some n ∧ w.isSkipped n = false ∧
      Frame.Goes c (Runtime.ofProgram c.program c.settings.runtime)
        (.nodes ancestry opened (e.node :: rest) w) (.nodes ancestry opened rest u) ∧
      w.self.thread = e.thread ∧ w.self.events.size ≤ e.index ∧ e.index < u.self.events.size := by
  obtain ⟨ancestry, opened, id, api, handle, entry, entries, v, v', hforks, hasks, rfl, href,
    hsame, hevents⟩ := h
  obtain ⟨n, u, hnode, hgrows, hpath⟩ := hforks.exists_fork
  obtain ⟨rest, w, hnodes, hn, hvisited, hvisit⟩ := hnode.exists_visit
  -- The build is done with the node.
  obtain ⟨u', hu', -⟩ := hnode.runs hbuild
  obtain ⟨hready, hbacked⟩ := hnode.ready
  obtain ⟨z, hz, hcarries, -⟩ := Frame.carries_of_path (hpath.tail hasks) hready hbacked hu'
  have hwu : Walk.Grows c _ w u :=
    (Walk.Grows.skip (r := Runtime.ofProgram c.program c.settings.runtime) w none).trans
      (Walk.visit_grows hvisit)
  have hwv := hwu.trans hgrows
  have hv' : Walk.Framed v' z := ((hforks.leads hasks.1 hasks.2).stands.grows hz).framed
  have hu : Walk.Framed u u' := (hnode.stands.grows hu').framed
  have hvisited' : Frame.Goes c (Runtime.ofProgram c.program c.settings.runtime)
      (.nodes ancestry opened (e.node :: rest) w) (.nodes ancestry opened rest u') :=
    ⟨⟨.next hn hvisited hvisit ((if_pos rfl).trans hu'), trivial⟩, _, _, _, _, _, _, rfl, rfl⟩
  have hthread : e.thread = v.self.thread := congrArg EventRef.thread href
  have hindex : e.index = v.self.events.size := congrArg EventRef.index href
  refine ⟨ancestry, opened, rest, w, n, u', hnodes, hn, hvisited, hvisited', ?_, ?_, ?_⟩
  · rw [hthread, hwv.framed.thread_eq]
  · exact hindex ▸ hwv.framed.events_le
  · have hlt : e.index < v'.self.events.size := by
      rw [hindex, hevents, Array.size_push]
      exact Nat.lt_succ_self _
    refine hlt.trans_le (hv'.events_le.trans (hcarries.within.size_le ?_))
    rw [hu.thread_eq, hv'.thread_eq, hsame, hgrows.framed.thread_eq]

/-- A thread that visits a node of a routine executes the instruction of the node. -/
theorem Reaches.exists_executes {f : String} {rest : List NodeId} {w : Walk} {n : Node}
    (h : Reaches c r (.nodes ancestry (f :: opened) (id :: rest) w)) (hc : c.program.Distinct)
    (hn : w.session.arena.get? id = some n) (hvisited : w.isSkipped n = false) :
    ∃ i first last behind v, rest = last ++ behind ∧
      Executes c r f i ancestry opened (first ++ id :: last) behind v ∧
      ReflTransGen (Frame.Goes c r)
        (.nodes ancestry (f :: opened) (first ++ id :: last ++ behind) v)
        (.nodes ancestry (f :: opened) (id :: rest) w) := by
  obtain ⟨all, u, hall, hsummary, hpath⟩ := h.exists_all hc
  obtain ⟨pre, rfl⟩ : ∃ pre, all = pre ++ id :: rest := by
    obtain heq | ⟨x, before, hids⟩ := Frame.Goes.ids_eq hpath
    · injection heq with _ _ hids
      exact ⟨[], hids⟩
    · exact ⟨x :: before, hids⟩
  have hknown : u.session.summaries[f]? = some (pre ++ id :: rest) :=
    hsummary.resolve_left (by simp)
  obtain ⟨routine, i, before, own, behind, hdef, hi, hsplit, hown, hinst, hothers⟩ :=
    (hall.seated hc).placed.exists_between hc hknown (List.mem_append_right _ List.mem_cons_self)
  obtain ⟨first, last, rfl⟩ := List.append_of_mem hown
  -- The node stands once among the nodes of the routine.
  obtain ⟨rfl, rfl⟩ : pre = before ++ first ∧ rest = last ++ behind := by
    have hnodup : (pre ++ id :: rest).Nodup := (hall.seated hc).nodup
    rw [List.nodup_middle, List.nodup_cons, List.mem_append, not_or] at hnodup
    rw [← List.append_assoc, ← List.append_assoc, List.append_assoc (before ++ first),
      List.cons_append] at hsplit
    obtain ⟨hfirst, -, hlast⟩ := (List.append_cons_inj_of_notMem hnodup.1.1 hnodup.1.2).1 hsplit
    exact ⟨hfirst, hlast⟩
  rw [List.append_assoc] at hpath
  obtain ⟨v, hbefore, hbehind⟩ := Frame.Goes.exists_between hpath
  have huv : Walk.Grows c r u v := Frame.Goes.grows hbefore
  have hvw : Walk.Grows c r v w := Frame.Goes.grows hbehind
  have hinst' :
      ∀ x ∈ first ++ id :: last, ∃ n, v.session.arena.get? x = some n ∧ n.inst = i.id := by
    intro x hx
    obtain ⟨m, hm, heq⟩ := hinst x hx
    exact ⟨m, huv.arena_extends x m hm, heq⟩
  -- What is visited at the node is not passed over before.
  have hstops : v.StopsAt i.id := by
    obtain ⟨m, hm, heq⟩ := hinst' id (List.mem_append_right _ List.mem_cons_self)
    cases hn.symm.trans (hvw.arena_extends id m hm)
    refine Frame.Goes.stopsAt hbehind (fun x hx => ?_) (heq ▸ Walk.stopsAt_of_visited hvisited)
    exact hinst' x (List.mem_append_left _ hx)
  have hexecutes : Executes c r f i ancestry opened (first ++ id :: last) behind v := by
    refine ⟨?_, ⟨routine, hdef, hi⟩, fun x hx => ?_, before, ?_, fun x hx m hm => ?_⟩
    · rw [List.append_assoc]
      exact hall.of_goes (by rw [List.append_assoc]; exact hbefore)
    · obtain ⟨m, hm, heq⟩ := hinst' x hx
      exact ⟨m, hm, heq, hstops m heq⟩
    · rw [← hsplit]
      exact (huv.later hc).remembers f _ hknown
    · obtain ⟨m', hm', hne⟩ := hothers x hx
      cases hm.symm.trans (huv.arena_extends x m' hm')
      exact hne
  refine ⟨i, first, last, behind, v, rfl, hexecutes, ?_⟩
  rw [List.append_assoc]
  exact hbehind

/-- Every child of a trace is started when a thread executes an instruction. -/
theorem exists_launches (hbuild : build c = .ok t) (hc : c.program.Distinct) {q : EventRef}
    {e : Event} {child : ThreadId} (he : t.event? q = some e) (hkind : e.kind = .fork child) :
    ∃ f i ancestry opened ids rest w,
      Executes c (Runtime.ofProgram c.program c.settings.runtime) f i ancestry opened ids rest w ∧
      w.self.thread = q.thread ∧
      Launches c (Runtime.ofProgram c.program c.settings.runtime) t ancestry (f :: opened) ids rest
        w q.index child := by
  obtain ⟨ancestry, opened, rest, w, n, u, hnodes, hn, hvisited, hgoes, hthread, hle, hlt⟩ :=
    (madeByFork_of_build hbuild he ⟨child, hkind⟩).exists_goes hbuild
  obtain rfl := (build_wellFormed hbuild).ref_eq he
  obtain hnil | ⟨f, -, hf, -⟩ := (hnodes.seated hc).rest
  · cases hnil
  obtain ⟨opened, rfl⟩ : ∃ opened', opened = f :: opened' := ⟨_, (List.cons_head?_tail hf).symm⟩
  obtain ⟨i, first, last, behind, v, rfl, hexecutes, hpath⟩ := hnodes.exists_executes hc hn hvisited
  have hvw : Walk.Grows c _ v w := Frame.Goes.grows hpath
  have hsame : w.self.thread = v.self.thread := hvw.framed.thread_eq
  -- The thread goes on to the nodes of other instructions.
  obtain ⟨x, hx, -⟩ := (hnodes.of_goes (.single hgoes)).runs hbuild
  have hrest : u.walk c (Runtime.ofProgram c.program c.settings.runtime) ancestry (f :: opened)
      (last ++ behind) = .ok x := hx
  obtain ⟨u', hlast, hgrows, -⟩ := Frame.exists_goes hrest
  refine ⟨f, i, ancestry, opened, _, behind, v, hexecutes, hsame.symm.trans hthread, ?_, ?_, ?_⟩
  · exact ⟨e, by rw [← hsame, hthread]; exact he, hkind,
      List.mem_append_right _ List.mem_cons_self⟩
  · exact hvw.framed.events_le.trans hle
  · exact ⟨u', (hpath.tail hgoes).trans hlast, hlt.trans_le hgrows.framed.events_le⟩

end Trace

end DataRace
