import DataRace.Proofs.Trace.Placed
import DataRace.Proofs.Trace.Regions
import DataRace.Proofs.Trace.Runs

/-!
# Regions that workers pass over

Each walk of a list of nodes goes through the nodes of one routine, from some position on
(`Trace.Reaches.seated`).  While a thread passes nodes over, the node at which it goes on is among
those, and only workers do so (`Trace.Reaches.settled`).

So a worker that comes to the beginning of a region comes next to its end, as if nothing were
between them, and its build stops if the region has no end; no other thread passes a node over
(`Trace.workers_skip_regions`).
-/

namespace DataRace

open Relation

variable {c : Subject} {r : Runtime}

namespace Walk

/-- Begins to pass nodes over, up to those of an instruction. -/
def jump (w : Walk) (inst : InstId) : Walk :=
  { w with self := { w.self with skipTo := some inst } }

/-- All of the nodes are passed over. -/
def SkipsAll (w : Walk) (ids : List NodeId) : Prop :=
  ∀ id ∈ ids, ∃ n, w.session.arena.get? id = some n ∧ w.isSkipped n = true

end Walk

namespace Runtime

variable {g : Region} {n : Node} {w : Walk} {rest : List NodeId}

/-- At the beginning of a region the runtime may have the region passed over. -/
theorem visit_opening (h : n.callApi? = some g.opening) (w : Walk) (routine : Option String)
    (rest : List NodeId) : Runtime.openMp.visit w n routine rest =
      do return (false, ← w.skipRegion g.opening g.closing n routine rest) := by
  obtain ⟨site, effect⟩ := n
  cases effect with
  | call api callee args =>
    obtain rfl : api = g.opening := Option.some.inj h
    cases g <;> rfl
  | _ => cases h

/-- A worker passes a region over that ends among the nodes to come. -/
theorem visit_of_ends (h : n.callApi? = some g.opening) (hworker : w.self.isWorker = true)
    {between after : List NodeId} {e : NodeId} {m : Node} (routine : Option String)
    (hends : g.Ends w.session.arena 0 rest between e after)
    (hm : w.session.arena.get? e = some m) :
    Runtime.openMp.visit w n routine rest = .ok (false, w.jump m.inst) := by
  rw [visit_opening h, Walk.skipRegion, if_pos hworker,
    Walk.regionEnd?_eq_some.2 ⟨between, e, after, m, hends, hm, rfl⟩]
  rfl

/-- A worker stops at a region that does not end among the nodes to come. -/
theorem visit_of_not_ends (h : n.callApi? = some g.opening) (hworker : w.self.isWorker = true)
    (routine : Option String)
    (hends : ¬ ∃ between e after, g.Ends w.session.arena 0 rest between e after) :
    Runtime.openMp.visit w n routine rest =
      .error (.unclosedRegion g.opening g.closing n routine) := by
  rw [visit_opening h, Walk.skipRegion, if_pos hworker, Walk.regionEnd?_eq_none.2 hends]
  rfl

end Runtime

/-! ### What is skipped -/

/-- A thread stays a worker or none. -/
theorem Walk.isWorker_eq {w w' : Walk} (h : Walk.Framed w w') :
    w'.self.isWorker = w.self.isWorker := by
  unfold Walker.isWorker
  rw [h.spawnedBy_eq]

/-- A node that neither starts threads nor calls routines skips nothing. -/
theorem Walk.handle_skipTo {ancestry opened : List String} {id : NodeId} {n : Node} {w w' : Walk}
    (hleaf : n.IsLeaf) (h : w.handle c r ancestry opened id n = .ok w') :
    w'.self.skipTo = w.self.skipTo := by
  rw [handle] at h
  split at h
  case h_1 | h_2 | h_3 | h_4 | h_5 | h_6 =>
    cases h
    rfl
  case h_7 => exact joinCompanion_skipTo h
  case h_8 =>
    cases h
    exact joinHandle_skipTo ..
  case h_9 heffect => exact absurd heffect (hleaf.1 _ _ _)
  case h_10 heffect =>
    rw [if_pos (hleaf.2 _ _ _ heffect)] at h
    cases h
    rfl

/-- Starting a child and going on after it has ended skips nothing. -/
theorem Walk.endFork_skipTo {w v : Walk} {id : NodeId} {target : String} {child : ThreadId}
    (h : w.beginFork id target = .ok (child, v)) (r : Runtime) (api : ForkApi) (handle : Operand)
    (last : Walk) : (v.endFork r id api handle last).self.skipTo = w.self.skipTo := by
  obtain ⟨-, -, -, hself⟩ := beginFork_spec h
  show v.self.skipTo = w.self.skipTo
  rw [hself]
  rfl

namespace Frame

variable {F G : Frame} {log : List Visit} {w' : Walk}

/-- The nodes that a part still comes to. -/
def ids : Frame → List NodeId
  | nodes _ _ ids _ => ids
  | _ => []

/-- What is skipped ends among the nodes to come when a part comes to its end. -/
theorem Tours.skipTo_eq_none (h : Tours c r F log w') (hF : F.walk.Closes F.ids) :
    w'.self.skipTo = none := by
  induction h with
  | done | called | forked => exact hF.skipTo_eq_none
  | pass hn hskip _ ih => exact ih (hF.tail hn hskip)
  | taken hn hskip hvisit _ ih => exact ih (Walk.visit_closes hvisit rfl).1
  | visit hn hskip hvisit _ _ ihnode ihrest =>
    have hv := (Walk.visit_closes hvisit rfl).2 rfl
    exact ihrest (.of_none (ihnode (.of_none hv _)) _)
  | leaf hleaf h => exact (Walk.handle_skipTo hleaf h).trans hF.skipTo_eq_none
  | fork _ _ ih | call _ _ _ ih => exact ih hF
  | uncalled _ _ _ ih =>
    refine ih (.of_none ?_ _)
    exact hF.skipTo_eq_none
  | unstarted _ _ ih => exact ih hF
  | repeated _ _ _ hrepeated _ ih =>
    exact ih (.of_none ((Walk.isRepeated_skipTo hrepeated).trans hF.skipTo_eq_none) _)
  | expanded _ _ _ hrepeated _ _ ihwalk ihrest =>
    have hu := (Walk.isRepeated_skipTo hrepeated).trans hF.skipTo_eq_none
    exact ihrest (.of_none (ihwalk (.of_none hu _)) _)
  | bodiless _ _ hbegin _ _ _ ih =>
    exact ih (.of_none ((Walk.endFork_skipTo hbegin ..).trans hF.skipTo_eq_none) _)
  | started _ _ hbegin _ _ _ _ _ _ ihrest =>
    exact ihrest (.of_none ((Walk.endFork_skipTo hbegin ..).trans hF.skipTo_eq_none) _)

/-- Only a worker skips anything, and what it skips ends among the nodes to come. -/
structure Settled (F : Frame) : Prop where
  closes : F.walk.Closes F.ids
  crew : F.walk.self.isWorker = false → F.walk.self.skipTo = none

/-- Nothing is skipped. -/
theorem Settled.of_none (h : F.walk.self.skipTo = none) : F.Settled := ⟨.of_none h _, fun _ => h⟩

/-- When a part has come to its end, nothing is skipped. -/
theorem Settled.skipTo_eq_none (hF : F.Settled) (h : F.run c r = .ok w') :
    w'.self.skipTo = none := by
  obtain ⟨log, htour⟩ := run_eq_ok_iff.1 h
  exact htour.skipTo_eq_none hF.closes

/-- That is so in the parts that a part asks for, too. -/
theorem Leads.settled (h : Leads c r F G) (hF : F.Settled) : G.Settled := by
  cases h with
  | pass hn hskip => exact ⟨hF.closes.tail hn hskip, hF.crew⟩
  | visit _ _ hvisit => exact .of_none ((Walk.visit_closes hvisit rfl).2 rfl)
  | @next ancestry opened id rest n w v u opens hn _ hvisit hu =>
    obtain ⟨hcloses, hnone⟩ := Walk.visit_closes hvisit rfl
    cases opens with
    | true =>
      have hnode : Settled (.node ancestry opened id n v) := .of_none (hnone rfl)
      exact .of_none (hnode.skipTo_eq_none hu)
    | false =>
      cases hu
      refine ⟨hcloses, fun hcrew => ?_⟩
      obtain heq | ⟨hworker, -, e, -, m, -, rfl⟩ := Walk.visit_skipTo hvisit
      · exact heq
      · exact nomatch hworker.symm.trans hcrew
  | fork | call | uncalled | unstarted => exact .of_none hF.closes.skipTo_eq_none
  | repeated _ _ hrepeated | enter _ _ hrepeated =>
    exact .of_none ((Walk.isRepeated_skipTo hrepeated).trans hF.closes.skipTo_eq_none)
  | @leave ancestry opened id args target targets w u v nodes session _ _ hrepeated hv =>
    have hu : Settled (.nodes ancestry (target :: opened) (nodes.getD []) (u.record id .call)) :=
      .of_none ((Walk.isRepeated_skipTo hrepeated).trans hF.closes.skipTo_eq_none)
    have hnone : v.self.skipTo = none := hu.skipTo_eq_none hv
    exact .of_none hnone
  | start => exact .of_none rfl
  | ended _ _ hbegin _ _ =>
    exact .of_none ((Walk.endFork_skipTo hbegin ..).trans hF.closes.skipTo_eq_none)

/-! ### Whose nodes are walked -/

/-- The nodes to come are the nodes of the innermost open routine from some position on. -/
structure Seated (c : Subject) (F : Frame) : Prop where
  placed : F.walk.session.Placed c
  rest : F.ids = [] ∨ ∃ f k, F.opened.head? = some f ∧ F.walk.session.Rest f k F.ids

/-- That is so in the parts that a part asks for, too. -/
theorem Leads.seated (h : Leads c r F G) (hc : c.program.Distinct) (hF : F.Stands c)
    (hseated : F.Seated c) : G.Seated c := by
  have hlater : Session.Later c F.walk.session G.walk.session := by
    obtain hgrows | ⟨id, n, api, handle, source, entry, child, v, -, -, hbegin, hgrows⟩ :=
      h.grows hF
    · exact hgrows.later hc
    · exact (Walk.beginFork_later hbegin).trans (hgrows.later hc)
  -- The nodes of a routine that was looked up.
  have hsummary : ∀ {f : String} {opened : List String} {s s' s'' : Session}
      {nodes : Option (List NodeId)}, s.summary c f = .ok (nodes, s') → s'.Remembers s'' →
        nodes.getD [] = [] ∨
          ∃ g k, (f :: opened).head? = some g ∧ s''.Rest g k (nodes.getD []) := by
    intro f opened s s' s'' nodes hs hremembers
    cases nodes with
    | none => exact Or.inl rfl
    | some ids =>
      exact Or.inr ⟨f, 0, rfl, (Session.Rest.all (Session.summary_known hs).1).mono hremembers⟩
  refine ⟨hlater.placed hseated.placed, ?_⟩
  cases h with
  | pass | next =>
    obtain hnil | ⟨f, k, hf, hrest⟩ := hseated.rest
    · cases hnil
    · exact Or.inr ⟨f, k + 1, hf, hrest.cons.2.mono hlater.remembers⟩
  | enter hs hopen hrepeated =>
    exact hsummary hs ((Walk.isRepeated_grows (r := r) hrepeated).later hc).remembers
  | start _ _ _ hs => exact hsummary hs (.refl _)
  | visit | fork | call | uncalled | repeated | leave | unstarted | ended => exact Or.inl rfl

/-- One node of a list is passed over or walked, and then the others come. -/
def Goes (c : Subject) (r : Runtime) (F G : Frame) : Prop :=
  Asks c r F G ∧ ∃ ancestry opened id rest w w',
    F = .nodes ancestry opened (id :: rest) w ∧ G = .nodes ancestry opened rest w'

/-- A walk that comes to its end has come to all of its nodes. -/
theorem exists_goes {ancestry opened : List String} {pre post : List NodeId} {w w' : Walk}
    (h : w.walk c r ancestry opened (pre ++ post) = .ok w') :
    ∃ u, ReflTransGen (Goes c r) (.nodes ancestry opened (pre ++ post) w)
        (.nodes ancestry opened post u) ∧ Walk.Grows c r w u ∧
      u.walk c r ancestry opened post = .ok w' := by
  induction pre generalizing w with
  | nil => exact ⟨w, .refl, .refl w, h⟩
  | cons id pre ih =>
    -- One step and then the others.
    have hstep : ∀ v, Asks c r (.nodes ancestry opened (id :: (pre ++ post)) w)
        (.nodes ancestry opened (pre ++ post) v) → Walk.Grows c r w v →
          v.walk c r ancestry opened (pre ++ post) = .ok w' →
            ∃ u, ReflTransGen (Goes c r) (.nodes ancestry opened (id :: pre ++ post) w)
              (.nodes ancestry opened post u) ∧ Walk.Grows c r w u ∧
              u.walk c r ancestry opened post = .ok w' := by
      intro v hasks hgrows hv
      obtain ⟨u, hpath, hmore, hu⟩ := ih hv
      exact ⟨u, hpath.head ⟨hasks, _, _, _, _, _, _, rfl, rfl⟩, hgrows.trans hmore, hu⟩
    obtain ⟨n, hn, ⟨hskip, hrest⟩ | ⟨hskip, opens, v, u, hvisit, hu, hrest⟩⟩ := Walk.walk_cons_ok h
    · exact hstep w ⟨.pass hn hskip, trivial⟩ (.refl w) hrest
    · exact hstep u ⟨.next hn hskip hvisit hu, trivial⟩ (grows_next hn hvisit hu) hrest

/-- A walk passes nodes over by itself. -/
theorem goes_of_skipsAll {ancestry opened : List String} {pre : List NodeId} {w : Walk}
    (h : w.SkipsAll pre) (post : List NodeId) :
    ReflTransGen (Goes c r) (.nodes ancestry opened (pre ++ post) w)
        (.nodes ancestry opened post w) ∧
      w.walk c r ancestry opened (pre ++ post) = w.walk c r ancestry opened post := by
  induction pre with
  | nil => exact ⟨.refl, rfl⟩
  | cons id pre ih =>
    obtain ⟨n, hn, hskip⟩ := h id List.mem_cons_self
    obtain ⟨hpath, heq⟩ := ih fun id hid => h id (List.mem_cons_of_mem _ hid)
    have hstep : Goes c r (.nodes ancestry opened (id :: (pre ++ post)) w)
        (.nodes ancestry opened (pre ++ post) w) :=
      ⟨⟨.pass hn hskip, trivial⟩, _, _, _, _, _, _, rfl, rfl⟩
    exact ⟨hpath.head hstep, (Walk.walk_cons_of_skipped hn hskip).trans heq⟩

end Frame

namespace Trace

variable {F G : Frame}

/-- What a part asks for is a part that a build comes to. -/
theorem Reaches.of_path (h : Reaches c r F) (hpath : ReflTransGen (Frame.Asks c r) F G) :
    Reaches c r G := by
  induction hpath with
  | refl => exact h
  | tail _ hstep ih => exact .leads ih hstep.1 hstep.2

/-- What comes behind a part is a part that a build comes to. -/
theorem Reaches.of_goes (h : Reaches c r F) (hpath : ReflTransGen (Frame.Goes c r) F G) :
    Reaches c r G :=
  h.of_path (hpath.lift (fun F => F) fun _ _ hgoes => hgoes.1)

/-- In all parts that a build comes to, only workers skip anything. -/
theorem Reaches.settled (h : Reaches c r F) : F.Settled := by
  induction h with
  | begins h =>
    obtain ⟨nodes, session, -, rfl⟩ := h
    exact .of_none rfl
  | leads _ hFG _ ih => exact hFG.settled ih

/-- All parts that a build comes to are about nodes of the innermost open routine. -/
theorem Reaches.seated (h : Reaches c r F) (hc : c.program.Distinct) : F.Seated c := by
  induction h with
  | begins h =>
    obtain ⟨nodes, session, hsummary, rfl⟩ := h
    refine ⟨((Session.Learns.summary hsummary).later hc).placed (.empty c _), ?_⟩
    cases nodes with
    | none => exact Or.inl rfl
    | some ids => exact Or.inr ⟨_, 0, rfl, .all (Session.summary_known hsummary).1⟩
  | leads hF hFG _ ih => exact hFG.seated hc hF.stands ih

/-- If the walk of the main thread fails, so does the build. -/
theorem Begins.build_eq_error {e : Fault} (h : Begins c F)
    (hrun : F.run c (Runtime.ofProgram c.program c.settings.runtime) = .error e) :
    build c = .error (.fault e) := by
  obtain ⟨nodes, session, hsummary, rfl⟩ := h
  -- A routine without a body has no nodes.
  have hbody : ∃ routine, c.program.definition? c.settings.entry = some routine := by
    cases hdef : c.program.definition? c.settings.entry with
    | some routine => exact ⟨routine, rfl⟩
    | none =>
      obtain ⟨rfl, -⟩ := (Session.Backed.empty c _).summary_of_none hdef hsummary
      rw [Frame.run, Option.getD_none, Walk.walk] at hrun
      cases hrun
  obtain ⟨routine, hdef⟩ := hbody
  obtain ⟨hroutine, hdeclared⟩ := Option.filter_eq_some_iff.1 hdef
  have hmain : walkMain c (Runtime.ofProgram c.program c.settings.runtime) c.settings.entry =
      .error e :=
    Except.bind_eq_error.2 (Or.inr ⟨_, rfl, Except.bind_eq_error.2 (Or.inr ⟨_, hsummary,
      Except.bind_eq_error.2 (Or.inl hrun)⟩)⟩)
  rw [build, hroutine]
  dsimp only
  rw [if_neg (by simpa using hdeclared), hmain]

/-- If a part fails that a build comes to, so does the build. -/
theorem Reaches.build_eq_error {e : Fault}
    (h : Reaches c (Runtime.ofProgram c.program c.settings.runtime) F)
    (hrun : F.run c (Runtime.ofProgram c.program c.settings.runtime) = .error e) :
    build c = .error (.fault e) := by
  induction h with
  | begins h => exact h.build_eq_error hrun
  | leads hF hFG hearnest ih =>
    obtain ⟨hready, hbacked⟩ := hF.ready
    exact ih (hFG.fails hearnest hready hbacked hrun)

/-! ### Regions -/

/-- A worker comes to the beginning of a region. -/
structure MeetsRegion (c : Subject) (g : Region) (ancestry opened : List String) (id : NodeId)
    (n : Node) (rest : List NodeId) (w : Walk) : Prop where
  reaches : Reaches c .openMp (.nodes ancestry opened (id :: rest) w)
  node : w.session.arena.get? id = some n
  visited : w.isSkipped n = false
  opening : n.callApi? = some g.opening
  worker : w.self.isWorker = true

section

variable {g : Region} {ancestry opened : List String} {id e : NodeId} {n m : Node}
  {rest between after : List NodeId} {w : Walk}

/-- A thread that goes on at a call passes all nodes over that come before. -/
theorem Reaches.skipsAll (h : Reaches c r (.nodes ancestry opened (between ++ e :: after) w))
    (hc : c.program.Distinct) {api : CallApi} (hm : w.session.arena.get? e = some m)
    (hcall : m.callApi? = some api) : (w.jump m.inst).SkipsAll between := by
  intro id hid
  obtain ⟨hplaced, hnil | ⟨f, k, -, hrest⟩⟩ := h.seated hc
  · exact absurd hnil (by simp [Frame.ids])
  obtain ⟨j, hj⟩ := List.getElem?_of_mem hid
  have hlt : j < between.length := (List.getElem?_eq_some_iff.1 hj).1
  have hat := hrest.at (j := j) (by rw [Frame.ids, List.getElem?_append_left hlt, hj])
  have hend : w.session.At f (k + between.length) e := hrest.at (by simp [Frame.ids])
  obtain ⟨n, base, -, -, hn, -⟩ := hplaced.get?_of_at hat
  refine ⟨_, hn, bne_iff_ne.2 (hplaced.inst_ne hc hat hend ?_ hn hm hcall)⟩
  exact fun heq => hlt.ne (Nat.add_left_cancel heq)

/-- A worker that comes to the beginning of a region comes next to its end. -/
theorem MeetsRegion.passes (h : MeetsRegion c g ancestry opened id n rest w)
    (hc : c.program.Distinct) (hends : g.Ends w.session.arena 0 rest between e after) :
    ∃ m, w.session.arena.get? e = some m ∧ (w.jump m.inst).SkipsAll between ∧
      (w.jump m.inst).isSkipped m = false ∧
      (∀ pre post, between = pre ++ post →
        Reaches c .openMp (.nodes ancestry opened (post ++ e :: after) (w.jump m.inst))) ∧
      w.walk c .openMp ancestry opened (id :: rest) =
        w.reach.walk c .openMp ancestry opened (e :: after) := by
  obtain ⟨m, hm, hclosing⟩ := Arena.exists_of_callApi? hends.closing
  have hvisit : Runtime.openMp.visit w.reach n opened.head? rest = .ok (false, w.jump m.inst) :=
    Runtime.visit_of_ends (w := w.reach) h.opening h.worker opened.head? hends hm
  have hnext : Frame.Asks c .openMp (.nodes ancestry opened (id :: rest) w)
      (.nodes ancestry opened rest (w.jump m.inst)) := ⟨.next h.node h.visited hvisit rfl, trivial⟩
  have hreaches := Reaches.leads h.reaches hnext.1 hnext.2
  rw [hends.split] at hreaches
  have hpasses : (w.jump m.inst).SkipsAll between := hreaches.skipsAll hc hm hclosing
  have hend : (w.jump m.inst).isSkipped m = false := bne_self_eq_false m.inst
  refine ⟨m, hm, hpasses, hend, fun pre post heq => ?_, ?_⟩
  · subst heq
    rw [List.append_assoc] at hreaches
    exact hreaches.of_goes (Frame.goes_of_skipsAll
      (fun x hx => hpasses x (List.mem_append_left post hx)) (post ++ e :: after)).1
  · rw [Walk.walk_cons_of_taken h.node h.visited hvisit, hends.split,
      (Frame.goes_of_skipsAll hpasses (e :: after)).2, Walk.walk, Walk.walk,
      Arena.get_eq_ok.2 (show (w.jump m.inst).session.arena.get? e = some m from hm),
      Arena.get_eq_ok.2 (show w.reach.session.arena.get? e = some m from hm)]
    simp only [bind, Except.bind, hend, Walk.isSkipped_of_none (w := w.reach) rfl m]
    rfl

/-- A build stops because of a region without an end just where a worker comes to its beginning. -/
theorem build_eq_unclosedRegion_iff
    (hruntime : Runtime.ofProgram c.program c.settings.runtime = .openMp) {o cl : CallApi}
    {f : Option String} : build c = .error (.fault (.unclosedRegion o cl n f)) ↔
      ∃ g ancestry opened id rest w, MeetsRegion c g ancestry opened id n rest w ∧
        (o = g.opening ∧ cl = g.closing ∧ f = opened.head?) ∧
        ¬ ∃ between e after, g.Ends w.session.arena 0 rest between e after := by
  constructor
  · intro h
    have horder : (Fault.unclosedRegion o cl n f).OfOrder := trivial
    obtain ⟨F, hF, hrun⟩ := exists_run_eq_error horder h
    rw [hruntime] at hrun
    obtain ⟨G, hpath, hfails⟩ := Frame.exists_fails horder hrun
    cases hfails with
    | visit hn hskip hvisit =>
      obtain ⟨g, ⟨-, hopening⟩, heq, hworker, hnone⟩ := Runtime.visit_error hvisit horder
      cases heq
      exact ⟨g, _, _, _, _, _, ⟨(Reaches.begins hF).of_path hpath, hn, hskip, hopening, hworker⟩,
        ⟨rfl, rfl, rfl⟩, Walk.regionEnd?_eq_none.1 hnone⟩
  · rintro ⟨g, ancestry, opened, id, rest, w, h, ⟨rfl, rfl, rfl⟩, hends⟩
    have hreaches := h.reaches
    rw [← hruntime] at hreaches
    refine hreaches.build_eq_error ?_
    have hvisit := Runtime.visit_of_not_ends (w := w.reach) h.opening h.worker opened.head? hends
    rw [hruntime, Frame.run, Walk.walk, Arena.get_eq_ok.2 h.node]
    simp only [bind, Except.bind, h.visited, hvisit]
    rfl

end

/-- Under OpenMP, every walk of a list of nodes goes through the nodes of the innermost open
routine.  A worker that comes to the beginning of a region there passes all nodes over up to the end
of the region, and goes on at the end as if it had come from the beginning to the end at once; when
its walk returns, nothing is skipped.  All other threads come to all nodes of the walks that return.
The build stops because of a region just where a worker comes to the beginning of one that does not
end behind it in its routine. -/
theorem workers_skip_regions {name : String} {routines : List Routine}
    (hprogram : Program.ofRoutines name routines = .ok c.program)
    (hruntime : Runtime.ofProgram c.program c.settings.runtime = .openMp) :
    (∀ ancestry opened ids w, Reaches c .openMp (.nodes ancestry opened ids w) → ids = [] ∨
      ∃ f k, opened.head? = some f ∧ w.session.Rest f k ids) ∧
    (∀ g ancestry opened id n rest w, MeetsRegion c g ancestry opened id n rest w →
      ∀ between e after, g.Ends w.session.arena 0 rest between e after →
        ∃ m, w.session.arena.get? e = some m ∧ (w.jump m.inst).SkipsAll between ∧
          (w.jump m.inst).isSkipped m = false ∧
          (∀ pre post, between = pre ++ post →
            Reaches c .openMp (.nodes ancestry opened (post ++ e :: after) (w.jump m.inst))) ∧
          w.walk c .openMp ancestry opened (id :: rest) =
            w.reach.walk c .openMp ancestry opened (e :: after)) ∧
    (∀ ancestry opened ids w w', Reaches c .openMp (.nodes ancestry opened ids w) →
      w.walk c .openMp ancestry opened ids = .ok w' → w'.self.skipTo = none) ∧
    (∀ ancestry opened ids w, Reaches c .openMp (.nodes ancestry opened ids w) →
      w.self.isWorker = false → w.self.skipTo = none ∧
        ∀ w', w.walk c .openMp ancestry opened ids = .ok w' →
          ∀ pre id post, ids = pre ++ id :: post → ∃ u n,
            ReflTransGen (Frame.Goes c .openMp) (.nodes ancestry opened ids w)
              (.nodes ancestry opened (id :: post) u) ∧
            u.session.arena.get? id = some n ∧ u.isSkipped n = false) ∧
    ∀ o cl n f, build c = .error (.fault (.unclosedRegion o cl n f)) ↔
      ∃ g ancestry opened id rest w, MeetsRegion c g ancestry opened id n rest w ∧
        (o = g.opening ∧ cl = g.closing ∧ f = opened.head?) ∧
        ¬ ∃ between e after, g.Ends w.session.arena 0 rest between e after := by
  have hc := Program.distinct_of_ofRoutines hprogram
  refine ⟨fun _ _ _ _ h => (h.seated hc).rest, fun _ _ _ _ _ _ _ h _ _ _ => h.passes hc,
    fun _ _ _ _ _ h hrun => h.settled.skipTo_eq_none (r := .openMp) hrun, ?_,
    fun _ _ _ _ => build_eq_unclosedRegion_iff hruntime⟩
  intro ancestry opened ids w h hcrew
  refine ⟨h.settled.crew hcrew, ?_⟩
  rintro w' hrun pre id post rfl
  obtain ⟨u, hpath, hgrows, hu⟩ := Frame.exists_goes hrun
  have hnone : u.self.skipTo = none :=
    (h.of_goes hpath).settled.crew ((Walk.isWorker_eq hgrows.framed).trans hcrew)
  obtain ⟨n, hn, -⟩ := Walk.walk_cons_ok hu
  exact ⟨u, n, hpath, hn, Walk.isSkipped_of_none hnone n⟩

/-- The other member of a team comes to the region of the master, and passes the task over. -/
theorem region_teamTask : ∃ name routines w,
    Program.ofRoutines name routines = .ok TeamTask.subject.program ∧
      Runtime.ofProgram TeamTask.subject.program TeamTask.subject.settings.runtime = .openMp ∧
      MeetsRegion TeamTask.subject .master ["body", "main"] ["body"] 4
        ⟨⟨⟨2⟩, none⟩, .call .ompMaster (.direct "__kmpc_master") []⟩ [5, 6, 7] w ∧
      Region.master.Ends w.session.arena 0 [5, 6, 7] [5] 6 [7] ∧
      (w.jump ⟨4⟩).SkipsAll [5] ∧
      w.walk TeamTask.subject .openMp ["body", "main"] ["body"] [4, 5, 6, 7] =
        w.reach.walk TeamTask.subject .openMp ["body", "main"] ["body"] [6, 7] := by
  have hprogram : Program.ofRoutines "teamtask" [TeamTask.main, TeamTask.body, TeamTask.task] =
      .ok TeamTask.subject.program :=
    Program.ofRoutines_eq_ok_iff_nodup.2 ⟨by decide, by decide, rfl⟩
  have hreaches : Reaches TeamTask.subject .openMp (.nodes ["body", "main"] ["body"] [4, 5, 6, 7]
      ⟨⟨⟨TeamTask.nodes⟩, TeamTask.late, ∅, TeamTask.allThreads #[] #[]⟩,
        Walker.start 3 (some (.ompFork false))⟩) := by
    refine .leads (.leads (.leads (.leads (.begins ⟨_, _, TeamTask.summary_main, rfl⟩)
      (.next rfl rfl rfl (if_pos rfl |>.trans TeamTask.handle_master)) trivial)
      (.visit rfl rfl rfl) trivial) (.fork rfl) trivial) ?_ trivial
    exact .start (v := ⟨_, { TeamTask.full with unjoined := [⟨0, 1, .null⟩] }⟩) (by decide)
      (by decide) rfl (TeamTask.summary_again _)
  have hmeets : MeetsRegion TeamTask.subject .master ["body", "main"] ["body"] 4
      ⟨⟨⟨2⟩, none⟩, .call .ompMaster (.direct "__kmpc_master") []⟩ [5, 6, 7]
      ⟨⟨⟨TeamTask.nodes⟩, TeamTask.late, ∅, TeamTask.allThreads #[] #[]⟩,
        Walker.start 3 (some (.ompFork false))⟩ := ⟨hreaches, rfl, rfl, rfl, rfl⟩
  have hends : Region.master.Ends ⟨TeamTask.nodes⟩ 0 [5, 6, 7] [5] 6 [7] := by
    refine ⟨rfl, rfl, rfl, fun pre x post h hx => ?_⟩
    cases pre with
    | nil =>
      cases h
      cases hx
    | cons _ pre => exact absurd (List.cons.inj h).2 (by simp)
  obtain ⟨-, hskips, -⟩ := workers_skip_regions hprogram rfl
  obtain ⟨m, hm, hall, -, -, heq⟩ := hskips _ _ _ _ _ _ _ hmeets _ _ _ hends
  cases hm
  exact ⟨_, _, _, hprogram, rfl, hmeets, hends, hall, heq⟩

end Trace

end DataRace
