import DataRace.Proofs.Trace.Lineage

/-!
# Builds with different limits of threads

A build asks for the limit of threads only where a fork may start a child.  So two builds that
differ in their limits agree step by step until the smaller limit keeps a child from being started. 
From then on the limited build starts no thread, while the other has more threads already and only
adds to them (`Session.Outgrows`).  The threads of the limited trace are therefore the first threads
of the other, by entry, parent, spawn site and fork node (`Trace.build_limited`), and if the limit
is never met the traces are equal.
-/

namespace DataRace

/-- The subject with another limit of threads. -/
def Subject.limited (c : Subject) (k : ℕ) : Subject :=
  { c with settings := { c.settings with maxThreads := k } }

/-! ### What does not depend on the limit -/

namespace Session

/-- Nodes do not depend on the limit. -/
theorem summary_limited (c : Subject) (k : ℕ) (s : Session) (f : String) :
    s.summary (c.limited k) f = s.summary c f := by
  have hemit : ∀ (m : Meaning) (i : Instruction) (d : Draft),
      m.emit c.program (c.limited k).settings i d = m.emit c.program c.settings i d := by
    intro m i d
    cases m <;> rfl
  have hclassify : Draft.classify c.program (c.limited k).settings c.chain =
      Draft.classify c.program c.settings c.chain := by
    funext d i
    unfold Draft.classify
    simp only [hemit]
  unfold summary Draft.classifyAll
  rw [show (c.limited k).program = c.program from rfl, show (c.limited k).chain = c.chain from rfl,
    hclassify]

/-- Effects on threads do not depend on the limit. -/
theorem explore_limited (c : Subject) (k : ℕ) :
    (∀ path f s, explore (c.limited k) path f s = explore c path f s) ∧
      ∀ path fs s, exploreAny (c.limited k) path fs s = exploreAny c path fs s := by
  apply explore.mutual_induct c
    (fun path f s => explore (c.limited k) path f s = explore c path f s)
    (fun path fs s => exploreAny (c.limited k) path fs s = exploreAny c path fs s)
  case case1 =>
    intro path f s known hknown
    rw [explore_of_known hknown, explore_of_known hknown]
  case case2 =>
    intro path f s hknown hpath
    rw [explore_of_mem hknown hpath, explore_of_mem hknown hpath]
  case case3 =>
    intro path f s hknown hpath hdef
    have hdef' : (c.limited k).program.definition? f = none := hdef
    rw [explore_of_bodiless hknown hpath hdef, explore_of_bodiless hknown hpath hdef']
  case case4 =>
    intro path f s hknown hpath routine hdef _ ih
    have hdef' : (c.limited k).program.definition? f = some routine := hdef
    rw [explore_of_body hknown hpath hdef, explore_of_body hknown hpath hdef', summary_limited]
    refine bind_congr ?_
    rintro ⟨ids, s'⟩
    dsimp only
    split
    · rfl
    · exact congrArg (· >>= _) (ih ids s')
  case case5 =>
    intro path s
    rw [exploreAny, exploreAny]
  case case6 =>
    intro path f fs s ih ihs
    rw [exploreAny, exploreAny, ih]
    refine bind_congr ?_
    rintro ⟨answer, s'⟩
    cases answer with
    | true => rfl
    | false => exact ihs s'

end Session

namespace Walk

variable {c : Subject} {r : Runtime} {ancestry opened : List String} {k : ℕ}

/-- Whether a call is repeated does not depend on the limit. -/
theorem isRepeated_limited (c : Subject) (k : ℕ) (w : Walk) (target : String)
    (args : List Operand) :
    w.isRepeated (c.limited k) target args = w.isRepeated c target args := by
  unfold isRepeated Session.hasThreadEffects
  rw [(Session.explore_limited c k).1]
  rfl

/-- Nor does what a node does that neither starts threads nor calls routines. -/
theorem handle_limited {n : Node} (hn : n.IsLeaf) (w : Walk) (id : NodeId) :
    w.handle (c.limited k) r ancestry opened id n = w.handle c r ancestry opened id n := by
  rw [handle, handle]
  cases heffect : n.effect with
  | fork api operand entry => exact absurd heffect (hn.1 api operand entry)
  | call api callee args =>
    dsimp only
    rw [if_pos (hn.2 api callee args heffect), if_pos (hn.2 api callee args heffect)]
  | join api operand fork => cases fork <;> rfl
  | read | write | free | lock | unlock | barrier => rfl

end Walk

/-! ### Headers -/

/-- How a thread was started. -/
structure Thread.Header where
  entry : String
  parent? : Option ThreadId
  site : Option EventRef
  fork : Option NodeId

/-- How a thread was started, as the thread knows it. -/
def Thread.header (t : Thread) : Thread.Header := ⟨t.entry, t.parent?, t.site, t.fork⟩

/-- How the threads of a table were started. -/
def Session.headers (s : Session) : List Thread.Header := s.threads.toList.map Thread.header

/-- How the threads of a trace were started. -/
def Trace.headers (t : Trace) : List Thread.Header := t.threads.toList.map Thread.header

/-- A session has a header for each thread. -/
theorem Session.length_headers (s : Session) : s.headers.length = s.threads.size := by
  rw [headers, List.length_map, Array.length_toList]

/-- Threads that keep how they were started are the first of a table. -/
theorem Session.headers_prefix {s s' : Session}
    (h : ∀ (i : ThreadId) th, s.threads[i]? = some th →
      ∃ th', s'.threads[i]? = some th' ∧ th'.header = th.header) : s.headers <+: s'.headers := by
  rw [List.prefix_iff_getElem?]
  intro i hi
  rw [← List.getElem?_eq_getElem hi, headers, headers, List.getElem?_map, List.getElem?_map,
    Array.getElem?_toList, Array.getElem?_toList]
  obtain ⟨th, hth⟩ : ∃ th, s.threads[i]? = some th :=
    ⟨_, Array.getElem?_eq_getElem (s.length_headers ▸ hi)⟩
  obtain ⟨th', hth', heq⟩ := h i th hth
  rw [hth, hth', Option.map_some, Option.map_some, heq]

namespace Walk

variable {c : Subject} {r : Runtime} {w w' v : Walk}

/-- Growth keeps the headers and adds new ones behind them. -/
theorem Framed.headers_prefix (h : Framed w w') : w.session.headers <+: w'.session.headers := by
  refine Session.headers_prefix fun i th hth => ?_
  by_cases hi : i = w.self.thread
  · subst hi
    obtain ⟨th', hth', hsame⟩ := h.own th hth
    refine ⟨th', hth', ?_⟩
    rw [Thread.header, Thread.header, Thread.parent?, Thread.parent?, hsame.entry_eq, hsame.site_eq,
      hsame.fork_eq]
  · exact ⟨th, by rw [h.others i (Array.getElem?_eq_some_iff.1 hth).1 hi, hth], rfl⟩

/-- The end of a thread keeps the headers. -/
theorem headers_close (w : Walk) : w.close.session.headers = w.session.headers := by
  refine (List.IsPrefix.eq_of_length (Session.headers_prefix fun i th hth => ?_) ?_).symm
  · rw [close_getElem?, hth]
    split
    · exact ⟨_, rfl, rfl⟩
    · exact ⟨_, rfl, rfl⟩
  · rw [Session.length_headers, Session.length_headers, size_close]

/-- The start of a child adds a header behind the others. -/
theorem headers_beginFork {id : NodeId} {entry : String} {child : ThreadId}
    (h : w.beginFork id entry = .ok (child, v)) :
    w.session.headers <+: v.session.headers ∧
      v.session.headers.length = w.session.headers.length + 1 := by
  refine ⟨Session.headers_prefix fun i th hth => ?_, ?_⟩
  · have hi : i < w.session.threads.size := (Array.getElem?_eq_some_iff.1 hth).1
    rw [beginFork_getElem? h, Array.getElem?_push, if_neg (Nat.ne_of_lt hi), hth]
    split
    · exact ⟨_, rfl, rfl⟩
    · exact ⟨_, rfl, rfl⟩
  · rw [Session.length_headers, Session.length_headers, beginFork_size h]

/-- Growth at the limit adds no headers. -/
theorem Grows.headers_eq (h : Grows c r w w')
    (hfull : c.settings.maxThreads ≤ w.session.headers.length) :
    w'.session.headers = w.session.headers := by
  have hsize := h.size_le
  rw [← Session.length_headers, ← Session.length_headers, Nat.max_eq_left hfull] at hsize
  exact (h.framed.headers_prefix.eq_of_length_le hsize).symm

/-- A child that has ended leaves more headers than there were before its start. -/
theorem headers_lt_of_begin {id : NodeId} {entry : String} {child : ThreadId} {api : ForkApi}
    {ancestry : List String} {inner last : Walk} (hbegin : w.beginFork id entry = .ok (child, v))
    (hinner : WalksChild c r ancestry entry (v.enterChild child api) inner)
    (hlast : r.finish inner = .ok last) (handle : Operand) :
    w.session.headers <+: (v.endFork r id api handle last.close).session.headers ∧
      w.session.headers.length <
        (v.endFork r id api handle last.close).session.headers.length := by
  obtain ⟨hfirst, hlength⟩ := headers_beginFork hbegin
  have hgrown : v.session.headers <+: last.session.headers :=
    (hinner.grows.trans (finish_grows hlast)).framed.headers_prefix
  show w.session.headers <+: last.close.session.headers ∧ _ < last.close.session.headers.length
  rw [headers_close]
  refine ⟨hfirst.trans hgrown, ?_⟩
  have hle := hgrown.length_le
  omega

end Walk

/-! ### Runs that part -/

/-- A session has more threads than one that is at a limit, which are its first. -/
structure Session.Outgrows (k : ℕ) (s s' : Session) : Prop where
  full : k ≤ s'.headers.length
  first : s'.headers <+: s.headers
  lt : s'.headers.length < s.headers.length

namespace Session.Outgrows

variable {c : Subject} {r : Runtime} {k : ℕ} {s s' : Session} {u u' v v' : Walk}

/-- A session stays ahead of one at the limit. -/
theorem grows (h : u.session.Outgrows k v.session) (hu : Walk.Grows c r u u')
    (hv : Walk.Grows (c.limited k) r v v') : u'.session.Outgrows k v'.session := by
  have heq := hv.headers_eq h.full
  have hprefix := hu.framed.headers_prefix
  refine ⟨heq ▸ h.full, heq ▸ h.first.trans hprefix, ?_⟩
  rw [heq]
  exact Nat.lt_of_lt_of_le h.lt hprefix.length_le

/-- A session at the limit stays behind one that starts a child. -/
theorem of_begin {w w' v inner last : Walk} {id : NodeId} {entry : String} {child : ThreadId}
    {api : ForkApi} {handle : Operand} {ancestry : List String}
    (hfull : k ≤ w.session.threads.size) (hbegin : w.beginFork id entry = .ok (child, v))
    (hinner : Walk.WalksChild c r ancestry entry (v.enterChild child api) inner)
    (hlast : r.finish inner = .ok last)
    (hu : Walk.Grows c r (v.endFork r id api handle last.close) u)
    (hv : Walk.Grows (c.limited k) r w w') : u.session.Outgrows k w'.session := by
  rw [← Session.length_headers] at hfull
  obtain ⟨hfirst, hlt⟩ := Walk.headers_lt_of_begin hbegin hinner hlast handle
  have hprefix := hu.framed.headers_prefix
  have heq := hv.headers_eq hfull
  refine ⟨heq ▸ hfull, heq ▸ hfirst.trans hprefix, ?_⟩
  rw [heq]
  exact Nat.lt_of_lt_of_le hlt hprefix.length_le

/-- The end of a thread changes nothing about it. -/
theorem finish (c : Subject) (h : u.session.Outgrows k v.session) (hu : r.finish u = .ok u')
    (hv : r.finish v = .ok v') : u'.close.session.Outgrows k v'.close.session := by
  obtain ⟨hfull, hfirst, hlt⟩ :=
    h.grows (c := c) (Walk.finish_grows hu) (Walk.finish_grows hv)
  rw [← Walk.headers_close] at hfull hfirst hlt
  rw [← Walk.headers_close u'] at hfirst hlt
  exact ⟨hfull, hfirst, hlt⟩

end Session.Outgrows

namespace Frame

variable {c : Subject} {r : Runtime} {k : ℕ} {F : Frame} {log log' : List Visit} {u v : Walk}

/-- What a part is about does not depend on the limit. -/
theorem Stands.limited (h : F.Stands c) (k : ℕ) : F.Stands (c.limited k) := by
  cases F <;> exact h

/-- Whatever a part comes to under a limit is the same, or it was stopped at the limit and has fewer
threads. -/
def Outruns (c : Subject) (r : Runtime) (k : ℕ) (F : Frame) (u : Walk) : Prop :=
  ∀ log v, Tours (c.limited k) r F log v → u = v ∨ u.session.Outgrows k v.session

section Cases

/-! ### The cases of the induction

Each takes what holds of the parts as hypotheses. -/

variable {ancestry opened : List String} {id : NodeId} {rest : List NodeId} {n : Node}
  {args : List Operand} {target entry : String} {targets entries : List String} {api : ForkApi}
  {handle : Operand} {w x y inner last : Walk} {child : ThreadId} {nodes : Option (List NodeId)}
  {session : Session} {routine : Routine}

/-- A node is passed over. -/
theorem Outruns.pass (hn : w.session.arena.get? id = some n) (hskip : w.isSkipped n = true)
    (hrest : Outruns c r k (.nodes ancestry opened rest w) u) :
    Outruns c r k (.nodes ancestry opened (id :: rest) w) u := by
  intro log v h
  cases h with
  | pass hn' _ h => exact hrest _ v h
  | taken hn' hskip' _ _ | visit hn' hskip' _ _ _ =>
    cases hn.symm.trans hn'
    cases hskip.symm.trans hskip'

/-- A node is left to the runtime. -/
theorem Outruns.taken (hn : w.session.arena.get? id = some n) (hskip : w.isSkipped n = false)
    (hvisit : r.visit w.reach n opened.head? rest = .ok (false, x))
    (hrest : Outruns c r k (.nodes ancestry opened rest x) u) :
    Outruns c r k (.nodes ancestry opened (id :: rest) w) u := by
  intro log v h
  cases h with
  | pass hn' hskip' _ =>
    cases hn.symm.trans hn'
    cases hskip.symm.trans hskip'
  | taken hn' _ hvisit' h =>
    cases hn.symm.trans hn'
    cases hvisit.symm.trans hvisit'
    exact hrest _ v h
  | visit hn' _ hvisit' _ _ =>
    cases hn.symm.trans hn'
    cases hvisit.symm.trans hvisit'

/-- A node is handled when the runtime has acted. -/
theorem Outruns.visit (hn : w.session.arena.get? id = some n) (hskip : w.isSkipped n = false)
    (hvisit : r.visit w.reach n opened.head? rest = .ok (true, x))
    (hrun : run c r (.nodes ancestry opened rest y) = .ok u)
    (hnode : Outruns c r k (.node ancestry opened id n x) y)
    (hrest : Outruns c r k (.nodes ancestry opened rest y) u) :
    Outruns c r k (.nodes ancestry opened (id :: rest) w) u := by
  intro log v h
  cases h with
  | pass hn' hskip' _ =>
    cases hn.symm.trans hn'
    cases hskip.symm.trans hskip'
  | taken hn' _ hvisit' _ =>
    cases hn.symm.trans hn'
    cases hvisit.symm.trans hvisit'
  | visit hn' _ hvisit' hnode' hrest' =>
    cases hn.symm.trans hn'
    cases hvisit.symm.trans hvisit'
    obtain rfl | hout := hnode _ _ hnode'
    · exact hrest _ v hrest'
    · exact Or.inr (hout.grows (Walk.walk_grows hrun) (Walk.walk_grows hrest'.run))

/-- A node neither starts threads nor calls routines. -/
theorem Outruns.leaf (hleaf : n.IsLeaf) (hrun : w.handle c r ancestry opened id n = .ok u) :
    Outruns c r k (.node ancestry opened id n w) u := by
  intro log v h
  cases h with
  | leaf _ h =>
    rw [Walk.handle_limited hleaf] at h
    exact Or.inl (Except.ok.inj (hrun.symm.trans h))
  | fork heffect _ => exact absurd heffect (hleaf.1 _ _ _)
  | call heffect hplain _ => cases hplain.symm.trans (hleaf.2 _ _ _ heffect)

/-- A node is a fork. -/
theorem Outruns.fork {source : ThreadEntry} (heffect : n.effect = .fork api handle source)
    (hforks : Outruns c r k
      (.forks ancestry opened id api handle (c.entryTargets source) (w.meetFork id)) u) :
    Outruns c r k (.node ancestry opened id n w) u := by
  intro log v h
  cases h with
  | leaf hleaf _ => exact absurd heffect (hleaf.1 _ _ _)
  | fork heffect' h =>
    cases heffect.symm.trans heffect'
    exact hforks _ v h
  | call heffect' _ _ => cases heffect.symm.trans heffect'

/-- A node is a call. -/
theorem Outruns.call {api : CallApi} {callee : Callee} (heffect : n.effect = .call api callee args)
    (hplain : api.isRuntime = false)
    (hcalls : Outruns c r k (.calls ancestry opened id args (c.callTargets callee) w) u) :
    Outruns c r k (.node ancestry opened id n w) u := by
  intro log v h
  cases h with
  | leaf hleaf _ => cases hplain.symm.trans (hleaf.2 _ _ _ heffect)
  | fork heffect' _ => cases heffect.symm.trans heffect'
  | call heffect' _ h =>
    cases heffect.symm.trans heffect'
    exact hcalls _ v h

/-- A routine without a body, or that is open, is not called. -/
theorem Outruns.uncalled (hsummary : w.session.summary c target = .ok (nodes, session))
    (hpass : c.program.definition? target = none ∨ target ∈ opened)
    (hrest : Outruns c r k (.calls ancestry opened id args targets { w with session }) u) :
    Outruns c r k (.calls ancestry opened id args (target :: targets) w) u := by
  intro log v h
  cases h with
  | uncalled hsummary' _ h =>
    rw [Session.summary_limited] at hsummary'
    cases hsummary.symm.trans hsummary'
    exact hrest _ v h
  | repeated _ hdef hopen _ _ | expanded _ hdef hopen _ _ _ =>
    rcases hpass with hnone | hmem
    · cases hnone.symm.trans hdef
    · exact absurd hmem hopen

/-- A repeated call adds nothing. -/
theorem Outruns.repeated (hsummary : w.session.summary c target = .ok (nodes, session))
    (hdef : c.program.definition? target = some routine) (hopen : target ∉ opened)
    (hrepeated : Walk.isRepeated c { w with session } target args = .ok (true, x))
    (hrest : Outruns c r k (.calls ancestry opened id args targets x) u) :
    Outruns c r k (.calls ancestry opened id args (target :: targets) w) u := by
  intro log v h
  cases h with
  | uncalled _ hpass _ =>
    exact absurd hpass (not_or.2 ⟨fun hnone => (nomatch hdef.symm.trans hnone), hopen⟩)
  | repeated hsummary' _ _ hrepeated' h =>
    rw [Session.summary_limited] at hsummary'
    cases hsummary.symm.trans hsummary'
    rw [Walk.isRepeated_limited] at hrepeated'
    cases hrepeated.symm.trans hrepeated'
    exact hrest _ v h
  | expanded hsummary' _ _ hrepeated' _ _ =>
    rw [Session.summary_limited] at hsummary'
    cases hsummary.symm.trans hsummary'
    rw [Walk.isRepeated_limited] at hrepeated'
    cases hrepeated.symm.trans hrepeated'

/-- A routine is walked between a call and a return event. -/
theorem Outruns.expanded (hF : Stands c (.calls ancestry opened id args (target :: targets) w))
    (hsummary : w.session.summary c target = .ok (nodes, session))
    (hdef : c.program.definition? target = some routine) (hopen : target ∉ opened)
    (hrepeated : Walk.isRepeated c { w with session } target args = .ok (false, x))
    (hwalk : run c r (.nodes ancestry (target :: opened) (nodes.getD []) (x.record id .call)) =
      .ok y)
    (hrun : run c r (.calls ancestry opened id args targets (y.record id .return)) = .ok u)
    (hinner : Outruns c r k
      (.nodes ancestry (target :: opened) (nodes.getD []) (x.record id .call)) y)
    (hrest : Outruns c r k (.calls ancestry opened id args targets (y.record id .return)) u) :
    Outruns c r k (.calls ancestry opened id args (target :: targets) w) u := by
  intro log v h
  cases h with
  | uncalled _ hpass _ =>
    exact absurd hpass (not_or.2 ⟨fun hnone => (nomatch hdef.symm.trans hnone), hopen⟩)
  | repeated hsummary' _ _ hrepeated' _ =>
    rw [Session.summary_limited] at hsummary'
    cases hsummary.symm.trans hsummary'
    rw [Walk.isRepeated_limited] at hrepeated'
    cases hrepeated.symm.trans hrepeated'
  | expanded hsummary' _ _ hrepeated' hwalk' hrest' =>
    have hleaves' := (Leads.leave hsummary' hopen hrepeated' hwalk'.run).stands (hF.limited k)
    rw [Session.summary_limited] at hsummary'
    cases hsummary.symm.trans hsummary'
    rw [Walk.isRepeated_limited] at hrepeated'
    cases hrepeated.symm.trans hrepeated'
    have hleaves := (Leads.leave hsummary hopen hrepeated hwalk).stands hF
    obtain rfl | hout := hinner _ _ hwalk'
    · exact hrest _ v hrest'
    · refine Or.inr (.grows ?_ (hleaves.grows hrun) (hleaves'.grows hrest'.run))
      exact hout

/-- A child is not started. -/
theorem Outruns.unstarted (hk : k ≤ c.settings.maxThreads)
    (hpass : entry ∈ ancestry ∨ c.settings.maxThreads ≤ w.session.threads.size)
    (hrest : Outruns c r k (.forks ancestry opened id api handle entries w) u) :
    Outruns c r k (.forks ancestry opened id api handle (entry :: entries) w) u := by
  intro log v h
  cases h with
  | unstarted _ h => exact hrest _ v h
  | bodiless hnew hlimit _ _ _ _ | started hnew hlimit _ _ _ _ _ _ =>
    rcases hpass with hold | hfull
    · exact absurd hold hnew
    · exact absurd (hk.trans hfull) (Nat.not_le.2 hlimit)

variable (hF : Stands c (.forks ancestry opened id api handle (entry :: entries) w))
  (hnew : entry ∉ ancestry) (hlimit : w.session.threads.size < c.settings.maxThreads)
  (hbegin : w.beginFork id entry = .ok (child, x))
  (hlast : r.finish inner = .ok last)
  (hrun : run c r (.forks ancestry opened id api handle entries
    (x.endFork r id api handle last.close)) = .ok u)

include hF hnew hlimit hbegin hlast hrun

/-- A child is started that the limit keeps from being started. -/
theorem outgrows_of_unstarted
    (hinner : Walk.WalksChild c r ancestry entry (x.enterChild child api) inner)
    (hpass : entry ∈ ancestry ∨ k ≤ w.session.threads.size)
    (hrest : Tours (c.limited k) r (.forks ancestry opened id api handle entries w) log v) :
    u.session.Outgrows k v.session := by
  have hends := (Leads.ended hnew hlimit hbegin hinner hlast).stands hF
  have hstays : Stands (c.limited k) (.forks ancestry opened id api handle entries w) :=
    (Leads.unstarted (r := r) (c := c.limited k) hpass).stands (hF.limited k)
  exact .of_begin (hpass.resolve_left hnew) hbegin hinner hlast (hends.grows hrun)
    (hstays.grows hrest.run)

/-- A child without a body ends at once. -/
theorem Outruns.bodiless (hdef : c.program.definition? entry = none)
    (heq : inner = x.enterChild child api)
    (hrest : Outruns c r k (.forks ancestry opened id api handle entries
      (x.endFork r id api handle last.close)) u) :
    Outruns c r k (.forks ancestry opened id api handle (entry :: entries) w) u := by
  subst heq
  intro log v h
  cases h with
  | unstarted hpass h =>
    exact Or.inr (outgrows_of_unstarted hF hnew hlimit hbegin hlast hrun (Or.inl ⟨hdef, rfl⟩)
      hpass h)
  | bodiless _ _ hbegin' _ hlast' h =>
    cases hbegin.symm.trans hbegin'
    cases hlast.symm.trans hlast'
    exact hrest _ v h
  | started _ _ _ hdef' _ _ _ _ => cases hdef.symm.trans hdef'

/-- A child with a body is walked to its end. -/
theorem Outruns.started (hdef : c.program.definition? entry = some routine)
    (hsummary : (x.enterChild child api).session.summary c entry = .ok (nodes, session))
    (hwalk : run c r (.nodes (entry :: ancestry) [entry] (nodes.getD [])
      { x.enterChild child api with session }) = .ok inner)
    (hinner : Outruns c r k (.nodes (entry :: ancestry) [entry] (nodes.getD [])
      { x.enterChild child api with session }) inner)
    (hrest : Outruns c r k (.forks ancestry opened id api handle entries
      (x.endFork r id api handle last.close)) u) :
    Outruns c r k (.forks ancestry opened id api handle (entry :: entries) w) u := by
  have hchild : Walk.WalksChild c r ancestry entry (x.enterChild child api) inner :=
    Or.inr ⟨_, _, _, hdef, hsummary, hwalk⟩
  have hends := (Leads.ended hnew hlimit hbegin hchild hlast).stands hF
  intro log v h
  cases h with
  | unstarted hpass h =>
    exact Or.inr (outgrows_of_unstarted hF hnew hlimit hbegin hlast hrun hchild hpass h)
  | bodiless _ _ _ hdef' _ _ => cases hdef.symm.trans hdef'
  | started hnew' hlimit' hbegin' hdef' hsummary' hwalk' hlast' hrest' =>
    cases hbegin.symm.trans hbegin'
    have hchild' : Walk.WalksChild (c.limited k) r ancestry entry (x.enterChild child api) _ :=
      Or.inr ⟨_, _, _, hdef', hsummary', hwalk'.run⟩
    have hends' := (Leads.ended hnew' hlimit' hbegin' hchild' hlast').stands (hF.limited k)
    rw [Session.summary_limited] at hsummary'
    cases hsummary.symm.trans hsummary'
    obtain rfl | hout := hinner _ _ hwalk'
    · cases hlast.symm.trans hlast'
      exact hrest _ v hrest'
    · have hended := hout.finish c hlast hlast'
      refine Or.inr (.grows ?_ (hends.grows hrun) (hends'.grows hrest'.run))
      exact hended

end Cases

/-- Two runs of one part come to the same, or one of them was stopped at its limit and the other has
more threads. -/
theorem Tours.outruns (hk : k ≤ c.settings.maxThreads) (h : Tours c r F log u)
    (hF : F.Stands c) : Outruns c r k F u := by
  induction h with
  | done | called | forked =>
    intro log v h
    cases h
    exact Or.inl rfl
  | pass hn hskip _ ih => exact .pass hn hskip (ih trivial)
  | taken hn hskip hvisit _ ih => exact .taken hn hskip hvisit (ih trivial)
  | visit hn hskip hvisit _ hrest ihnode ihrest =>
    exact .visit hn hskip hvisit hrest.run (ihnode ((Leads.visit hn hskip hvisit).stands hF))
      (ihrest trivial)
  | leaf hleaf h => exact .leaf hleaf h
  | fork heffect _ ih => exact .fork heffect (ih ((Leads.fork (r := r) heffect).stands hF))
  | call heffect hplain _ ih =>
    exact .call heffect hplain (ih ((Leads.call (r := r) heffect hplain).stands hF))
  | uncalled hsummary hpass _ ih =>
    exact .uncalled hsummary hpass (ih ((Leads.uncalled (r := r) hsummary hpass).stands hF))
  | repeated hsummary hdef hopen hrepeated _ ih =>
    exact .repeated hsummary hdef hopen hrepeated
      (ih ((Leads.repeated (r := r) hsummary hopen hrepeated).stands hF))
  | expanded hsummary hdef hopen hrepeated hwalk hrest ihwalk ihrest =>
    exact .expanded hF hsummary hdef hopen hrepeated hwalk.run hrest.run (ihwalk trivial)
      (ihrest ((Leads.leave hsummary hopen hrepeated hwalk.run).stands hF))
  | unstarted hpass _ ih =>
    exact .unstarted hk hpass (ih ((Leads.unstarted (r := r) hpass).stands hF))
  | bodiless hnew hlimit hbegin hdef hlast hrest ih =>
    exact .bodiless hF hnew hlimit hbegin hlast hrest.run hdef rfl
      (ih ((Leads.ended hnew hlimit hbegin (Or.inl ⟨hdef, rfl⟩) hlast).stands hF))
  | started hnew hlimit hbegin hdef hsummary hwalk hlast hrest ihwalk ihrest =>
    exact .started hF hnew hlimit hbegin hlast hrest.run hdef hsummary hwalk.run (ihwalk trivial)
      (ihrest ((Leads.ended hnew hlimit hbegin (Or.inr ⟨_, _, _, hdef, hsummary, hwalk.run⟩)
        hlast).stands hF))

end Frame

/-! ### The traces -/

namespace Trace

variable {c : Subject} {k k' : ℕ} {t u : Trace}

/-- The main walks come to the same, or the limited one was stopped at its limit and the other has
more threads. -/
theorem walkMain_eq_or_outgrows {r : Runtime} {entry : String} {s s' : Session}
    (hk : k ≤ c.settings.maxThreads) (hs : walkMain c r entry = .ok s)
    (hs' : walkMain (c.limited k) r entry = .ok s') : s = s' ∨ s.Outgrows k s' := by
  obtain ⟨nodes, session, inner, last, hsummary, hwalk, hlast, rfl⟩ := walkMain_ok hs
  obtain ⟨nodes', session', inner', last', hsummary', hwalk', hlast', rfl⟩ := walkMain_ok hs'
  rw [Session.summary_limited] at hsummary'
  cases hsummary.symm.trans hsummary'
  obtain ⟨log, htour⟩ := Frame.run_eq_ok_iff (F := .nodes _ _ _ _).1 hwalk
  obtain ⟨log', htour'⟩ := Frame.run_eq_ok_iff (F := .nodes _ _ _ _).1 hwalk'
  obtain rfl | hout := htour.outruns hk trivial _ _ htour'
  · cases hlast.symm.trans hlast'
    exact Or.inl rfl
  · exact Or.inr (hout.finish c hlast hlast')

/-- The main walk starts no more threads than the limit, apart from the main thread. -/
theorem walkMain_length_headers_le {r : Runtime} {entry : String} {s : Session}
    (hs : walkMain c r entry = .ok s) : s.headers.length ≤ max 1 c.settings.maxThreads := by
  obtain ⟨nodes, session, inner, last, hsummary, hwalk, hlast, rfl⟩ := walkMain_ok hs
  have hone : session.threads = #[Thread.new 0 entry none none] :=
    (Session.Learns.summary hsummary).extends.threads
  have hsize := ((Walk.walk_grows hwalk).trans (Walk.finish_grows hlast)).size_le
  rw [show (Walk.mk session _).session.threads = _ from hone] at hsize
  rw [Walk.headers_close, Session.length_headers]
  exact hsize

/-- Two traces of one program whose limits of threads differ: the threads of the more limited trace
are the first of the other, and if these are no more than the lower limit, then the traces are
equal. -/
theorem build_limited (hk : 1 ≤ k) (hkk' : k ≤ k') (ht : build (c.limited k) = .ok t)
    (hu : build (c.limited k') = .ok u) :
    t.headers = u.headers.take (min k u.threadCount) ∧ (u.threadCount ≤ k → t = u) := by
  obtain ⟨q, s, -, hs, rfl⟩ := build_ok ht
  obtain ⟨q', s', -, hs', rfl⟩ := build_ok hu
  have hmost : s.headers.length ≤ max 1 k := walkMain_length_headers_le hs
  have hcount : (⟨s'.threads, s'.arena, c.program, c.pointsTo⟩ : Trace).threadCount =
      s'.headers.length := s'.length_headers.symm
  show s.headers = s'.headers.take (min k (Trace.threadCount ⟨_, _, c.program, c.pointsTo⟩)) ∧
    (Trace.threadCount ⟨_, _, c.program, c.pointsTo⟩ ≤ k → _)
  rw [hcount]
  obtain rfl | hout := walkMain_eq_or_outgrows (c := c.limited k') hkk' hs' hs
  · refine ⟨(List.take_of_length_le ?_).symm, fun _ => rfl⟩
    omega
  · have hfull := hout.full
    have hlt := hout.lt
    refine ⟨?_, fun hle => absurd hle (by omega)⟩
    rw [show min k s'.headers.length = s.headers.length by omega]
    exact List.prefix_iff_eq_take.1 hout.first

end Trace

namespace ForkJoin

/-- The trace without the child: nobody is joined. -/
def alone : Trace where
  threads :=
    #[⟨0, "main", none, none, #[⟨0, 0, 1, .write⟩, ⟨0, 1, 2, .join none⟩], #[]⟩]
  arena := ⟨mainNodes⟩
  program := subject.program
  pointsTo := subject.pointsTo

/-- Where one thread is all there may be, the main thread stores and joins nobody. -/
theorem walk_alone :
    Walk.walk (subject.limited 1) .pthread ["main"] ["main"] [0, 1, 2]
        ⟨⟨⟨mainNodes⟩, early, ∅, #[Thread.new 0 "main" none none]⟩, Walker.start 0 none⟩ =
      .ok ⟨⟨⟨mainNodes⟩, early, ∅, #[Thread.new 0 "main" none none]⟩,
        ⟨0, none, #[⟨0, 0, 1, .write⟩, ⟨0, 1, 2, .join none⟩], none, [], [0], [], []⟩⟩ := by
  have hfork : Walk.handle (subject.limited 1) .pthread ["main"] ["main"] 0
      ⟨⟨⟨0⟩, none⟩, .fork .pthreadCreate (.value ⟨0⟩) (.direct "worker")⟩
      ⟨⟨⟨mainNodes⟩, early, ∅, #[Thread.new 0 "main" none none]⟩, Walker.start 0 none⟩ =
        .ok ⟨⟨⟨mainNodes⟩, early, ∅, #[Thread.new 0 "main" none none]⟩,
          ⟨0, none, #[], none, [], [0], [], []⟩⟩ := by
    rw [Walk.handle]
    dsimp only
    rw [show (subject.limited 1).entryTargets (.direct "worker") = ["worker"] from rfl,
      Walk.forkAll_cons, if_pos (Or.inr (by decide)), Walk.forkAll]
    rfl
  rw [Walk.walk_cons_of_handle rfl rfl hfork,
    Walk.walk_cons_of_handle rfl rfl (by rw [Walk.handle]; rfl),
    Walk.walk_cons_of_handle rfl rfl (by rw [Walk.handle]; rfl), Walk.walk]
  rfl

/-- The limited program has its trace. -/
theorem build_alone : Trace.build (subject.limited 1) = .ok alone := by
  have hentry : (subject.limited 1).settings.entry = "main" := rfl
  have hruntime : Runtime.ofProgram subject.program subject.settings.runtime = .pthread := rfl
  have hsummary := (Session.summary_limited subject 1 _ "main").trans summary_main
  have hwalk : Trace.walkMain (subject.limited 1) .pthread "main" =
      .ok ⟨⟨mainNodes⟩, early, ∅, alone.threads⟩ :=
    Except.bind_eq_ok.2 ⟨_, rfl, Except.bind_eq_ok.2 ⟨_, hsummary,
      Except.bind_eq_ok.2 ⟨_, walk_alone, rfl⟩⟩⟩
  rw [Trace.build, hentry]
  rw [show (subject.limited 1).program = subject.program from rfl, routine_eq.1]
  rw [show (subject.limited 1).settings.runtime = subject.settings.runtime from rfl, hruntime,
    hwalk]
  rfl

/-- With one thread only the main thread of the two is left. -/
theorem headers_alone :
    1 ≤ 1 ∧ 1 ≤ subject.settings.maxThreads ∧ Trace.build (subject.limited 1) = .ok alone ∧
      Trace.build (subject.limited subject.settings.maxThreads) = .ok trace ∧
      alone.headers = trace.headers.take (min 1 trace.threadCount) ∧
      (trace.threadCount ≤ 1 → alone = trace) :=
  ⟨le_rfl, by decide, build_alone, build_eq, Trace.build_limited le_rfl (by decide) build_alone
    (show Trace.build (subject.limited subject.settings.maxThreads) = _ from build_eq)⟩

end ForkJoin

end DataRace
