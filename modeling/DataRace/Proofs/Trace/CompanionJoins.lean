import DataRace.Proofs.Trace.Announced
import DataRace.Proofs.Trace.Frames
import DataRace.Proofs.Trace.Timely

/-!
# Companion joins come behind their forks

Wherever a thread handles a companion join, it has met the fork of it, and started a child there or
passed one over (`Walk.Answers`).  `Frame.Sound` says what a part of a walk needs for this: among
the nodes that are not passed over, every companion join is announced by a fork that the thread has
met or comes to first.  Each part leads to parts with the same property (`Frame.Leads.sound`), so no
build stops at a companion join (`Trace.companion_joins`).
-/

namespace DataRace

open Relation

namespace Walk

/-- A thread has a fork node behind it that may start no child: nobody is known to run there, or
some routine leads here already or is beyond the limit of threads. -/
def PassesOver (c : Subject) (ancestry : List String) (w : Walk) (entry : ThreadEntry) : Prop :=
  c.entryTargets entry = [] ∨ ∃ target ∈ c.entryTargets entry,
    target ∈ ancestry ∨ c.settings.maxThreads ≤ w.session.threads.size

/-- A thread has met a fork node, and has started a child there or passed one over. -/
structure Answers (c : Subject) (ancestry : List String) (w : Walk) (fork : NodeId) : Prop where
  met : fork ∈ w.self.metForks
  outcome : ∃ n api handle entry, w.session.arena.get? fork = some n ∧
    n.effect = .fork api handle entry ∧
    ((∃ e ∈ w.self.events, e.node = fork ∧ ∃ child, e.kind = .fork child) ∨
      w.PassesOver c ancestry entry)

variable {c : Subject} {r : Runtime} {ancestry opened : List String} {w v w' : Walk}

/-- Fork nodes that were met are not forgotten. -/
theorem Grows.metForks_subset (h : Grows c r w w') : w.self.metForks ⊆ w'.self.metForks := by
  induction h with
  | refl | skip | note | record | consult => exact List.Subset.refl _
  | trans _ _ ih₁ ih₂ => exact List.Subset.trans ih₁ ih₂
  | meet => exact List.subset_cons_self _ _
  | @joinCompanion w _ _ _ _ _ _ h =>
    exact joinCompanion_induction (P := fun v => w.self.metForks ⊆ v.self.metForks) h
      (List.Subset.refl _) fun _ _ _ _ hv => hv
  | joinHandle =>
    rw [Walk.joinHandle]
    split <;> exact List.Subset.refl _
  | @joinPending w _ _ h =>
    refine joinPending_induction (P := fun v => w.self.metForks ⊆ v.self.metForks) h
      (List.Subset.refl _) fun v v' p _ hv hj => ?_
    obtain ⟨-, _, _, -, -, hself⟩ := joinChild_spec hj
    rw [hself]
    exact hv
  | fork _ _ _ _ hbegin =>
    obtain ⟨-, -, -, hself⟩ := beginFork_spec hbegin
    unfold endFork
    rw [hself]
    exact List.Subset.refl _

/-- What was met, started or passed over stays so. -/
theorem Answers.mono {fork : NodeId} (h : w.Answers c ancestry fork) (hgrows : Grows c r w w') :
    w'.Answers c ancestry fork := by
  obtain ⟨hmet, n, api, handle, entry, hn, heffect, houtcome⟩ := h
  refine ⟨hgrows.metForks_subset hmet, n, api, handle, entry, hgrows.arena_extends _ _ hn, heffect,
    houtcome.imp ?_ (Or.imp_right ?_)⟩
  · rintro ⟨e, he, hfork⟩
    obtain ⟨new, hnew⟩ := hgrows.framed.events
    exact ⟨e, hnew ▸ Array.mem_append_left _ he, hfork⟩
  · rintro ⟨target, htarget, hpass⟩
    exact ⟨target, htarget, hpass.imp_right fun h => h.trans hgrows.framed.size_le⟩

/-- A child that is walked grows. -/
theorem WalksChild.grows {entry : String} (h : WalksChild c r ancestry entry w w') :
    Grows c r w w' := by
  obtain ⟨-, rfl⟩ | ⟨routine, nodes, session, -, hsummary, hwalk⟩ := h
  · exact .refl _
  · exact (Grows.consult (.summary hsummary)).trans (walk_grows hwalk)

/-- A fork node that was handled was met, and has a child or passed one over. -/
theorem answers_of_forkAll {id : NodeId} {n : Node} {api : ForkApi} {handle : Operand}
    {entry : ThreadEntry} (hn : w.session.arena.get? id = some n)
    (heffect : n.effect = .fork api handle entry)
    (h : forkAll c r ancestry opened id api handle (c.entryTargets entry) (w.meetFork id)
      = .ok w') : w'.Answers c ancestry id := by
  have hgrow : ∀ {targets v}, v.session.arena.get? id = some n →
      targets ⊆ c.entryTargets entry →
      forkAll c r ancestry opened id api handle targets v = .ok w' → Grows c r v w' :=
    fun hv hsub h => (all_grow c r).2.2.2 _ _ _ _ _ _ _ _
      ⟨n, entry, hv, heffect, fun t ht => hsub ht⟩ h
  have hgrows : Grows c r (w.meetFork id) w' := hgrow hn (List.Subset.refl _) h
  refine ⟨hgrows.metForks_subset List.mem_cons_self, n, api, handle, entry,
    hgrows.arena_extends _ _ hn, heffect, ?_⟩
  cases htargets : c.entryTargets entry with
  | nil => exact Or.inr (Or.inl htargets)
  | cons target targets =>
    have htarget : target ∈ c.entryTargets entry := htargets ▸ List.mem_cons_self
    rw [htargets] at h
    obtain ⟨hpass, -⟩ | ⟨-, hlimit, child, v, inner, last, hbegin, hinner, hlast, h⟩ :=
      forkAll_cons_ok h
    · exact Or.inr (Or.inr ⟨target, htarget, hpass.imp_right fun h =>
        h.trans hgrows.framed.size_le⟩)
    · have hforked : Grows c r (w.meetFork id) (v.endFork r id api handle last.close) :=
        .fork hn heffect htarget hlimit hbegin hinner.grows (finish_grows hlast) hlast
      have hrest : targets ⊆ c.entryTargets entry := htargets ▸ List.subset_cons_self _ _
      have hv := hgrow (hforked.arena_extends _ _ hn) hrest h
      obtain ⟨-, hevents, -⟩ := endFork_spec hbegin r api handle last.close
      obtain ⟨new, hnew⟩ := hv.framed.events
      refine Or.inl ⟨⟨w.self.thread, w.self.events.size, id, .fork child⟩, ?_, rfl, child, rfl⟩
      rw [hnew, hevents]
      exact Array.mem_append_left _ (Array.mem_push_self ..)

/-! ### Passing nodes over -/

/-- Whether the node at a position is passed over on the way to the end of a skipped region. -/
def passes (w : Walk) (id : NodeId) : Bool := (w.session.arena.get? id).any w.isSkipped

/-- Behind the nodes that are passed over joins are announced, too. -/
theorem announced_dropWhile {known : NodeId → Prop} {ids : List NodeId}
    (h : w.session.arena.Announced known ids) :
    w.session.arena.Announced known (ids.dropWhile w.passes) := by
  cases hskip : w.self.skipTo with
  | none =>
    have hnone : w.passes = fun _ => false := by
      funext id
      unfold passes
      cases w.session.arena.get? id with
      | none => rfl
      | some n => exact isSkipped_of_none hskip n
    rw [hnone]
    cases ids <;> exact h
  | some i =>
    refine h.dropWhile (i := i) fun id n hn => ?_
    unfold passes isSkipped
    rw [hn, hskip]
    exact bne_iff_ne

end Walk

namespace Frame

variable {c : Subject} {r : Runtime} {F G : Frame}

/-- Nodes are announced in the session.  Among the nodes that a frame comes to, every companion join
is announced by a fork that the thread answers for or comes to first; at a companion join the thread
answers for its fork. -/
def Sound (c : Subject) : Frame → Prop
  | nodes ancestry _ ids w => w.session.Announcing ∧
    w.session.arena.Announced (w.Answers c ancestry) (ids.dropWhile w.passes)
  | node ancestry _ id n w => w.session.Announcing ∧ w.session.arena.get? id = some n ∧
    ∀ fork, n.companionOf? = some fork → w.Answers c ancestry fork
  | calls _ _ _ _ _ w => w.session.Announcing
  | forks _ _ _ _ _ _ w => w.session.Announcing

section

variable {ancestry opened : List String} {id : NodeId} {rest : List NodeId} {n : Node}
  {w v u : Walk}

/-- The node that comes next is not passed over. -/
theorem Sound.announced_cons (h : Sound c (.nodes ancestry opened (id :: rest) w))
    (hn : w.session.arena.get? id = some n) (hskip : w.isSkipped n = false) :
    w.session.arena.Announced (w.Answers c ancestry) (id :: rest) := by
  have hpass : ¬ w.passes id = true := by
    unfold Walk.passes
    rw [hn]
    exact Bool.eq_false_iff.1 hskip
  have hannounced := h.2
  rw [List.dropWhile_cons_of_neg hpass] at hannounced
  exact hannounced

/-- A node that is handled. -/
theorem Sound.visit (h : Sound c (.nodes ancestry opened (id :: rest) w))
    (hn : w.session.arena.get? id = some n) (hskip : w.isSkipped n = false)
    (hvisit : r.visit w.reach n opened.head? rest = .ok (true, v)) :
    Sound c (.node ancestry opened id n v) := by
  have hv : Walk.Grows c r w v := (Walk.Grows.skip w none).trans (Walk.visit_grows hvisit)
  obtain ⟨m, hm, hjoin⟩ := (h.announced_cons hn hskip).head
  cases hn.symm.trans hm
  exact ⟨hv.announcing h.1, hv.arena_extends _ _ hn, fun fork hfork => (hjoin fork hfork).mono hv⟩

/-- The nodes behind a node.  The fork of a member is never taken by the runtime, so behind it the
thread answers for it. -/
theorem Sound.next {opens : Bool} (h : Sound c (.nodes ancestry opened (id :: rest) w))
    (hn : w.session.arena.get? id = some n) (hskip : w.isSkipped n = false)
    (hvisit : r.visit w.reach n opened.head? rest = .ok (opens, v))
    (hu : (if opens then v.handle c r ancestry opened id n else .ok v) = .ok u) :
    Sound c (.nodes ancestry opened rest u) := by
  have hv : Walk.Grows c r w v := (Walk.Grows.skip w none).trans (Walk.visit_grows hvisit)
  have hvu : Walk.Grows c r v u := by
    cases opens with
    | true => exact (Walk.all_grow c r).2.1 _ _ _ _ _ _ (hv.arena_extends _ _ hn) hu
    | false =>
      cases hu
      exact .refl v
  have hwu := hv.trans hvu
  refine ⟨hwu.announcing h.1, Walk.announced_dropWhile ?_⟩
  refine ((h.announced_cons hn hskip).mono hwu.arena_extends fun fork hfork =>
    hfork.mono hwu).tail ?_
  rintro ⟨m, hm, hmember⟩
  cases (hwu.arena_extends _ _ hn).symm.trans hm
  rw [Walk.visit_of_inTeam (Or.inl hmember)] at hvisit
  cases hvisit
  obtain ⟨api, hapi, -⟩ := hmember
  unfold Node.forkApi? at hapi
  split at hapi
  · next api' handle entry heffect =>
    rw [if_pos rfl, Walk.handle, heffect] at hu
    exact Walk.answers_of_forkAll (hv.arena_extends _ _ hn) heffect hu
  · cases hapi

end

/-- A sound frame leads to sound frames. -/
theorem Leads.sound (h : Leads c r F G) (hF : F.Sound c) : G.Sound c := by
  have hsummary : ∀ {w : Walk} {f nodes session}, w.session.summary c f = .ok (nodes, session) →
      w.session.Announcing → session.Announcing :=
    fun h hw => (Session.Learns.summary h).announcing hw
  cases h with
  | @pass ancestry opened id rest n w hn hskip =>
    have hpass : w.passes id = true := by
      unfold Walk.passes
      rw [hn]
      exact hskip
    obtain ⟨hsession, hannounced⟩ := hF
    rw [List.dropWhile_cons_of_pos hpass] at hannounced
    exact ⟨hsession, hannounced⟩
  | visit hn hskip hvisit => exact Sound.visit hF hn hskip hvisit
  | next hn hskip hvisit hu => exact Sound.next hF hn hskip hvisit hu
  | fork _ => exact hF.1
  | call _ _ => exact hF.1
  | uncalled hnodes _ => exact hsummary hnodes hF
  | repeated hnodes _ hrepeated =>
    exact (Walk.isRepeated_grows (r := r) hrepeated).announcing (hsummary hnodes hF)
  | enter hnodes _ hrepeated =>
    have hgrows := Walk.isRepeated_grows (r := r) hrepeated
    refine ⟨hgrows.announcing (hsummary hnodes hF), Walk.announced_dropWhile ?_⟩
    exact (Session.Announcing.summary hF hnodes _).mono hgrows.arena_extends fun _ => id
  | leave hnodes _ hrepeated hv =>
    have hgrows := Walk.isRepeated_grows (r := r) hrepeated
    exact (Walk.walk_grows hv).announcing (hgrows.announcing (hsummary hnodes hF))
  | unstarted _ => exact hF
  | start _ _ hbegin hnodes =>
    have hv := Walk.beginFork_announcing hbegin hF
    exact ⟨hsummary hnodes hv, Walk.announced_dropWhile (hv.summary hnodes _)⟩
  | ended _ _ hbegin hinner hlast =>
    have hv := Walk.beginFork_announcing hbegin hF
    have hlast' := (Walk.finish_grows (c := c) hlast).announcing (hinner.grows.announcing hv)
    exact hlast'.of_eq rfl rfl

/-- Whatever a sound frame leads to is sound. -/
theorem Sound.of_path (hF : F.Sound c) (h : ReflTransGen (Leads c r) F G) : G.Sound c := by
  induction h with
  | refl => exact hF
  | tail _ hstep ih => exact hstep.sound ih

/-- A sound frame leads to no companion join that is handled early. -/
theorem Sound.not_early (hF : F.Sound c) : ¬ F.Early c r := by
  rintro ⟨ancestry, opened, id, n, w, fork, hpath, hjoin, hmet⟩
  obtain ⟨-, -, hanswers⟩ := hF.of_path hpath
  exact hmet (hanswers fork hjoin).met

end Frame

namespace Trace

variable {c : Subject}

/-- The walk of the main thread begins with a frame. -/
def Begins (c : Subject) (F : Frame) : Prop :=
  ∃ nodes session, Session.summary c
      { Session.empty with threads := #[Thread.new 0 c.settings.entry none none] }
      c.settings.entry = .ok (nodes, session) ∧
    F = .nodes [c.settings.entry] [c.settings.entry] (nodes.getD []) ⟨session, Walker.start 0 none⟩

/-- A thread comes to handle a node. -/
def Visits (c : Subject) (ancestry opened : List String) (id : NodeId) (n : Node) (w : Walk) :
    Prop :=
  ∃ F, Begins c F ∧
    ReflTransGen (Frame.Leads c (Runtime.ofProgram c.program c.settings.runtime)) F
      (.node ancestry opened id n w)

/-- The first frame is sound. -/
theorem Begins.sound {F : Frame} (h : Begins c F) : F.Sound c := by
  obtain ⟨nodes, session, hsummary, rfl⟩ := h
  have hempty := Session.Announcing.empty #[Thread.new 0 c.settings.entry none none]
  exact ⟨(Session.Learns.summary hsummary).announcing hempty,
    Walk.announced_dropWhile (hempty.summary hsummary _)⟩

/-- A build that stops because of the order in which a thread comes to nodes does so in the walk of
the main thread. -/
theorem exists_run_eq_error {e : Fault} (he : e.OfOrder) (h : build c = .error (.fault e)) :
    ∃ F, Begins c F ∧ F.run c (Runtime.ofProgram c.program c.settings.runtime) = .error e := by
  rw [build] at h
  split at h
  · cases h
  · split at h
    · cases h
    · split at h
      · next hmain =>
        cases h
        obtain h | ⟨⟨main, s⟩, hreserve, h⟩ := Except.bind_eq_error.1 hmain
        · cases h
        cases hreserve
        obtain h | ⟨⟨nodes, session⟩, hsummary, h⟩ := Except.bind_eq_error.1 h
        · exact absurd he (Harmless.summary _ _ _ _ h)
        obtain h | ⟨inner, -, h⟩ := Except.bind_eq_error.1 h
        · exact ⟨_, ⟨nodes, session, hsummary, rfl⟩, h⟩
        obtain h | ⟨last, -, h⟩ := Except.bind_eq_error.1 h
        · exact absurd he (Harmless.finish _ _ _ h)
        · cases h
      · cases h

/-- No build stops at a companion join.  Whatever is built and whether or not there is a trace in
the end, a thread that comes to the companion join of a fork node has met that node, and has started
a child there or passed one over. -/
theorem companion_joins (c : Subject) :
    (∀ n thread fork, build c ≠ .error (.fault (.joinBeforeFork n thread fork))) ∧
      ∀ ancestry opened id n w fork, Visits c ancestry opened id n w →
        n.companionOf? = some fork → w.Answers c ancestry fork := by
  constructor
  · intro n thread fork h
    obtain ⟨F, hF, hrun⟩ := exists_run_eq_error (e := .joinBeforeFork n thread fork) trivial h
    exact hF.sound.not_early (Frame.early_of_error hrun)
  · rintro ancestry opened id n w fork ⟨F, hF, hpath⟩ hfork
    obtain ⟨-, -, hanswers⟩ := hF.sound.of_path hpath
    exact hanswers fork hfork

/-- The main thread of a program with a team comes to a companion join of the team. -/
theorem companion_teamTask :
    ∃ w, Visits TeamTask.subject ["main"] ["main"] 2
        ⟨⟨⟨0⟩, none⟩, .join .companion .null (some 0)⟩ w ∧
      w.Answers TeamTask.subject ["main"] 0 := by
  have hvisits : Visits TeamTask.subject ["main"] ["main"] 2
      ⟨⟨⟨0⟩, none⟩, .join .companion .null (some 0)⟩
      ⟨⟨⟨TeamTask.nodes⟩, TeamTask.late, ∅, TeamTask.allThreads #[] #[⟨3, 0, 7, .barrier⟩]⟩,
        TeamTask.full⟩ := by
    refine ⟨_, ⟨_, _, TeamTask.summary_main, rfl⟩, ?_⟩
    refine .head (.next rfl rfl rfl (if_pos rfl |>.trans TeamTask.handle_master)) ?_
    refine .head (.next rfl rfl rfl (if_pos rfl |>.trans TeamTask.handle_worker)) ?_
    exact .single (.visit rfl rfl rfl)
  exact ⟨_, hvisits, (companion_joins TeamTask.subject).2 _ _ _ _ _ 0 hvisits rfl⟩

end Trace

end DataRace
