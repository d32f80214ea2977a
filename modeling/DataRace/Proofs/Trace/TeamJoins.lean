import DataRace.Proofs.Trace.Completed

/-!
# Members of teams are joined

Every member of a team is completed by an event of the thread that started it.  While that thread is
walked, the member may still be among the children that nobody joined (`Walk.Gathers`), but only
between the forks of the team and its companion joins; whatever else a thread does it does without
such children, and it ends without them.  So every fork event of a member in a trace that is built
has its join in the same thread (`Trace.exists_join_of_member`).
-/

namespace DataRace

namespace Walk

variable {c : Subject} {r : Runtime} {t : Trace} {w v w' last : Walk}

/-- The members of teams that events of a walk start are completed by events of the same threads, or
they are children that nobody joined yet. -/
def Gathers (t : Trace) (w : Walk) : Prop :=
  ∀ q e child, w.Has q e → e.kind = .fork child → t.arena.TeamFork e.node →
    (∃ q', q'.thread = q.thread ∧ w.CompletedAt t child q') ∨
      q.thread = w.self.thread ∧ ∃ f ∈ w.self.unjoined, f.node = e.node ∧ f.child = child

namespace Gathers

/-- A thread without events that is the last one started no members. -/
theorem start (hsize : w.self.thread + 1 = w.session.threads.size) (hevents : w.self.events = #[]) :
    Gathers t w :=
  fun _ _ _ he => absurd he (not_has_start hsize hevents)

/-- A clean thread has completed the members that it started, and so have those behind it. -/
theorem of_clean (h : Gathers t w) (hu : w.Under t) (hclean : w.Clean) {q : EventRef} {e : Event}
    {child : ThreadId} (he : w.Has q e) (hkind : e.kind = .fork child)
    (hteam : t.arena.TeamFork e.node) : ∃ q', q'.thread = q.thread ∧ w.CompletedAt t child q' := by
  refine (h q e child he hkind hteam).resolve_right ?_
  rintro ⟨-, f, hf, hnode, -⟩
  exact ((hclean f hf).mono hu.arena).not_teamFork (hnode ▸ hteam)

/-- A step of the walking thread alone that starts no thread, and whose children that nobody joined
stay so or are completed. -/
theorem appends (h : Gathers t w) (hw : Sound w) (hu : w.Under t) {new : Array Event}
    (hstep : Appends w w' new) (hnew : ∀ e ∈ new, ¬ e.kind.Forks)
    (hunjoined : ∀ f ∈ w.self.unjoined, t.arena.TeamFork f.node →
      (∃ th, t.threads[f.child]? = some th ∧ th.fork = some f.node) → f ∈ w'.self.unjoined ∨
        ∃ q', q'.thread = w.self.thread ∧ w'.CompletedAt t f.child q') : Gathers t w' := by
  intro q e child he hkind hteam
  rcases hstep.has_iff.1 he with he | ⟨-, -, he⟩
  · rcases h q e child he hkind hteam with ⟨q', hq', e', he', hdone⟩ | ⟨hq, f, hf, hnode, rfl⟩
    · exact Or.inl ⟨q', hq', e', hstep.has_iff.2 (Or.inl he'), hdone⟩
    · obtain ⟨-, th, hth, -, hfork⟩ := (he.fits hw).fork f.child hkind
      obtain ⟨th', hth', -, -, hfork'⟩ := hu.threads f.child th hth
      rcases hunjoined f hf (hnode ▸ hteam) ⟨th', hth', by rw [hfork', hfork, hnode]⟩ with
        hstill | ⟨q', hq', hdone⟩
      · exact Or.inr ⟨hq.trans hstep.thread_eq.symm, f, hstill, hnode, rfl⟩
      · exact Or.inl ⟨q', hq'.trans hq.symm, hdone⟩
  · exact absurd ⟨child, hkind⟩ (hnew e (Array.mem_of_getElem? he))

/-- A step of a clean thread alone that starts no thread. -/
theorem appends_of_clean (h : Gathers t w) (hw : Sound w) (hu : w.Under t) (hclean : w.Clean)
    {new : Array Event} (hstep : Appends w w' new) (hnew : ∀ e ∈ new, ¬ e.kind.Forks) :
    Gathers t w' :=
  h.appends hw hu hstep hnew fun f hf hteam _ =>
    absurd hteam ((hclean f hf).mono hu.arena).not_teamFork

/-- The companion joins of a team complete its members. -/
theorem joinTeam (h : Gathers t w) (hw : Sound w) (hu : w.Under t) {id fork : NodeId} {n : Node}
    (hid : w.session.arena.companion? fork = some id)
    (hjoin : w.joinCompanion id n fork = .ok w') : Gathers t w' := by
  obtain ⟨hsession, hthread, -, hunjoined, -, new, hevents, hnew, hall⟩ := joinCompanion_spec hjoin
  have hstep : Appends w w' new := ⟨hthread, by rw [hsession], hevents⟩
  refine h.appends hw hu hstep (fun e he => ?_) fun f hf _ hfork => ?_
  · rintro ⟨child, hkind⟩
    obtain ⟨-, g, -, hjoin⟩ := hnew e he
    cases hkind.symm.trans hjoin
  · obtain ⟨th, hth, hfork⟩ := hfork
    by_cases hnode : f.node = fork
    · obtain ⟨e, he, hkind⟩ := hall f hf hnode
      obtain ⟨k, hk⟩ := Array.mem_iff_getElem?.1 he
      refine Or.inr ⟨⟨w.self.thread, w.self.events.size + k⟩, rfl, e, hstep.has_iff.2 ?_, ?_⟩
      · exact Or.inr ⟨rfl, Nat.le_add_right _ _, by rwa [Nat.add_sub_cancel_left]⟩
      · refine ⟨hkind, th, fork, hth, hnode ▸ hfork, ?_⟩
        rw [(hnew e he).1]
        exact hu.arena.companion? hid
    · refine Or.inl ?_
      rw [hunjoined]
      exact List.mem_filter.2 ⟨hf, bne_iff_ne.2 hnode⟩

/-- A parent goes on with a child that nobody joined, and the child has completed its members. -/
theorem endFork (h : Gathers t w) (hw : Sound w) (hlast : Gathers t last) (hsound : Sound last)
    (hu : last.Under t) (hclean : last.Clean) {id : NodeId} {target : String} {child : ThreadId}
    (hbegin : w.beginFork id target = .ok (child, v)) {api : ForkApi}
    (hframe : Framed (v.enterChild child api) last) (handle : Operand) :
    Gathers t (v.endFork r id api handle last.close) := by
  obtain ⟨hown, -, -, hunjoined⟩ := endFork_spec hbegin r api handle last.close
  have hthread : last.self.thread = child := hframe.thread_eq
  have hhas := @has_endFork r w v last id target child api handle hbegin hframe hsound hw
  intro q e i he hkind hteam
  rcases hhas.1 he with he | ⟨rfl, rfl⟩ | he
  · rcases h q e i he hkind hteam with ⟨q', hq', e', he', hdone⟩ | ⟨hq, f, hf, hnode, hi⟩
    · exact Or.inl ⟨q', hq', e', hhas.2 (Or.inl he'), hdone⟩
    · exact Or.inr ⟨hq.trans hown.symm, f, hunjoined ▸ List.mem_append_left _ hf, hnode, hi⟩
  · cases hkind
    refine Or.inr ⟨hown.symm, ⟨id, last.close.self.thread, handle⟩, ?_, rfl, hthread⟩
    rw [hunjoined]
    exact List.mem_append_right _ List.mem_cons_self
  · obtain ⟨q', hq', e', he', hdone⟩ := hlast.of_clean hu hclean he hkind hteam
    exact Or.inl ⟨q', hq', e', hhas.2 (Or.inr (Or.inr he')), hdone⟩

end Gathers

/-- Joining teams at once completes their members. -/
theorem Timely.gathers (h : Timely c r w w') (hw : Sound w) (hu : w'.Under t) (hg : Gathers t w) :
    Gathers t w' := by
  induction h with
  | trans huv hvw ih₁ ih₂ => exact ih₂ (huv.grows.sound hw) hu (ih₁ hw (hvw.grows.under hu) hg)
  | tacit hgrows htacit =>
    obtain ⟨new, hstep, hnew⟩ := Appends.of_tacit htacit
    refine hg.appends hw (hgrows.under hu) hstep ?_ fun f hf _ _ =>
      Or.inl (htacit.unjoined_eq.symm ▸ hf)
    rintro e he ⟨child, hkind⟩
    have hlocal := hnew e he
    rw [hkind] at hlocal
    cases hlocal
  | joinTeam hn hfork _ hid h =>
    exact hg.joinTeam hw ((Grows.joinCompanion (c := c) (r := r) hn hfork h).under hu) hid h
  | @joinHandle w id n handle hn hjoin _ hclean =>
    have hw' := (Grows.joinHandle (c := c) (r := r) handle hn hjoin).under hu
    obtain ⟨child, hstep⟩ := Appends.joinHandle c w id handle
    refine hg.appends_of_clean hw hw' hclean hstep ?_
    rintro e he ⟨i, hkind⟩
    rw [Array.mem_singleton.1 he] at hkind
    cases hkind
  | joinPending hclean h =>
    obtain ⟨new, hstep, hnew⟩ := Appends.joinPending h
    refine hg.appends_of_clean hw ((Grows.joinPending (c := c) (r := r) h).under hu) hclean hstep ?_
    rintro e he ⟨i, hkind⟩
    obtain ⟨child, hjoin⟩ := hnew e he
    cases hkind.symm.trans hjoin
  | @fork w v inner last id n api handle entry target child hn heffect htarget hlimit hbegin hinner
      hlast hfinish hclean ihinner ihlast =>
    obtain ⟨hsize, hentered⟩ := hw.startChild hn heffect hbegin
    have hgrows := (hinner.trans hlast).grows
    have hulast : last.Under t := ⟨hu.arena, (preserved_close last).trans hu.threads⟩
    have hgathers : Gathers t last := ihlast (hinner.grows.sound hentered) hulast
      (ihinner hentered (hlast.grows.under hulast) (.start hsize rfl))
    exact hg.endFork hw hgathers (hgrows.sound hentered) hulast hclean hbegin hgrows.framed handle

end Walk

/-- In a trace that is built, an event of the thread that started a member of a team completes the
member. -/
theorem Trace.exists_join_of_member {c : Subject} {t : Trace} (hbuild : Trace.build c = .ok t)
    {parent child : ThreadId} {api : ForkApi} (hstart : Thread.Starts t.threads parent child)
    (hapi : t.spawnApi? child = some api) (hmember : api.isTeamMember = true) :
    ∃ q e, q.thread = parent ∧ t.event? q = some e ∧ t.Completes e child := by
  have ht := build_wellFormed hbuild
  obtain ⟨s, w, hthreads, htimely, hclean, hu, -, -, hevents⟩ := build_walk hbuild
  have hstarted : Walk.Gathers t w :=
    htimely.gathers (.start hthreads) hu (.start (by rw [hthreads]; rfl) rfl)
  obtain ⟨th, hth, hparent⟩ := hstart
  obtain ⟨th', fork, n, hth', hfork, hn, hn'⟩ := spawnApi?_eq_some_iff.1 hapi
  cases hth.symm.trans hth'
  have hpos : 0 < child := Nat.zero_lt_of_lt (ht.starts_lt ⟨th, hth, hparent⟩)
  obtain ⟨q, hsite, -, e, he, hkind⟩ := ht.sited child th hth hpos
  rw [Thread.parent?, hsite] at hparent
  cases hparent
  -- The fork event of the member is of the node that the member knows.
  obtain ⟨-, th', hth', -, hnode⟩ := (ht.fits_event? he).fork child hkind
  cases hth.symm.trans hth'
  cases hfork.symm.trans hnode
  obtain ⟨q', hq', e', he', hdone⟩ :=
    hstarted.of_clean hu hclean ((hevents q e).2 he) hkind ⟨n, hn, api, hn', hmember⟩
  exact ⟨q', e', hq', (hevents q' e').1 he', hdone⟩

end DataRace
