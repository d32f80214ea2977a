import DataRace.Proofs.Order.Closure
import DataRace.Proofs.Trace.TeamRuns

/-!
# Teams in the order of a trace

In every trace, a thread that executes a call that starts a team has a run of fork events and then
of join events of the same children, one for each child and in the same order.  The children are
later threads, so none of these joins is left out, and all events of the children happen before what
the thread does behind the run (`teams_joined_at_once`).
-/

namespace DataRace

open Relation

variable {c : Subject} {t : Trace}

namespace Trace

/-- What happens in the events of a thread. -/
def kinds (t : Trace) (thread : ThreadId) : List EventKind :=
  (t.eventsOf thread).toList.map Event.kind

/-- What happens in an event, by its number. -/
theorem getElem?_kinds {r : EventRef} {kind : EventKind} :
    (t.kinds r.thread)[r.index]? = some kind ↔ ∃ e, t.event? r = some e ∧ e.kind = kind := by
  rw [kinds, List.getElem?_map, Array.getElem?_toList, Option.map_eq_some_iff]
  rfl

end Trace

/-- What happens in a walk is the beginning of what happens in its thread. -/
theorem Walk.Lasts.kinds_prefix {u : Walk} (h : u.Lasts t) : u.kinds <+: t.kinds u.self.thread := by
  refine List.IsPrefix.map Event.kind (List.prefix_iff_getElem?.2 fun k hk => ?_)
  rw [Array.getElem?_toList, Array.getElem_toList]
  exact h.event?_eq (Array.getElem?_eq_getElem hk)

namespace HappensBefore

open OrderGraph

/-- A thread that executes a call that starts a team makes a run of fork events and then of join
events of the same children, which are later threads, each once and in the same order.  All events
of the children happen before every event of the thread behind the run. -/
theorem teams_joined_at_once {name : String} {routines : List Routine}
    (hprogram : Program.ofRoutines name routines = .ok c.program) (hbuild : Trace.build c = .ok t)
    {i : Instruction} (hteam : c.chain.StartsTeam i) {f : String} {ancestry opened : List String}
    {ids rest : List NodeId} {w : Walk}
    (h : Trace.Executes c (Runtime.ofProgram c.program c.settings.runtime) f i ancestry opened ids
      rest w) :
    ∃ u children o,
      ReflTransGen (Frame.Goes c (Runtime.ofProgram c.program c.settings.runtime))
        (.nodes ancestry (f :: opened) (ids ++ rest) w) (.nodes ancestry (f :: opened) rest u) ∧
      w.walk c (Runtime.ofProgram c.program c.settings.runtime) ancestry (f :: opened)
        (ids ++ rest) = u.walk c (Runtime.ofProgram c.program c.settings.runtime) ancestry
          (f :: opened) rest ∧
      Ascends w.session.threads.size u.session.threads.size children ∧
      u.kinds = w.kinds ++ (children.map .fork ++ children.map fun child => .join (some child)) ∧
      u.kinds <+: t.kinds w.self.thread ∧ ofTrace t = .ok o ∧
      ∀ a ea, t.event? a = some ea → a.thread ∈ children →
        ∀ b eb, t.event? b = some eb → b.thread = w.self.thread → u.self.events.size ≤ b.index →
          o.before a b = true := by
  have ht := Trace.build_wellFormed hbuild
  obtain ⟨last, hrun, hlasts⟩ := h.reaches.runs hbuild
  obtain ⟨u, children, hpath, hgrows, hrest, hascends, hkinds⟩ :=
    h.exists_run (Program.distinct_of_ofRoutines hprogram) hteam hrun
  have hu : u.Lasts t := (Walk.walk_grows hrest).within.lasts hlasts
  have hthread : u.self.thread = w.self.thread := hgrows.framed.thread_eq
  have hprefix : u.kinds <+: t.kinds w.self.thread := hthread ▸ hu.kinds_prefix
  obtain ⟨o, ho, hordered⟩ := exists_ordered ht
  refine ⟨u, children, o, hpath, hrun.trans hrest.symm, hascends, hkinds, hprefix, ho, ?_⟩
  intro a ea ha hchild b eb hb hparent hlate
  -- The join of the child stands in the run.
  obtain ⟨k, hk⟩ : ∃ k : ℕ, u.kinds[k]? = some (.join (some a.thread)) := by
    refine List.getElem?_of_mem ?_
    rw [hkinds]
    exact List.mem_append_right _ (List.mem_append_right _ (List.mem_map.2 ⟨_, hchild, rfl⟩))
  have hlt : k < u.self.events.size := by
    have hlength := (List.getElem?_eq_some_iff.1 hk).1
    rwa [Walk.kinds, List.length_map, Array.length_toList] at hlength
  obtain ⟨e, he, hjoin⟩ : ∃ e, t.event? ⟨w.self.thread, k⟩ = some e ∧
      e.kind = .join (some a.thread) := by
    refine Trace.getElem?_kinds.1 ?_
    obtain ⟨later, hlater⟩ := hprefix
    rw [← hlater, List.getElem?_append_left (List.getElem?_eq_some_iff.1 hk).1, hk]
  have hlater : w.self.thread < a.thread :=
    h.reaches.ready.1.sound.inTable.trans_le (hascends.bounds _ hchild).1
  rw [hordered.before_iff_path ht ha hb]
  have hend : TransGen o.graph.Edge (.event a) (.event ⟨w.self.thread, k⟩) :=
    (hordered.path_of_basic (event_leads_finish ha)).trans
      (hordered.path_of_join ht he hjoin hlater)
  exact hend.trans (hordered.path_of_basic
    (event_leads he hb hparent.symm (hlt.trans_le hlate)))

/-- The main thread starts its team, both members, and joins them. -/
theorem teams_teamTask : ∃ (name : String) (routines : List Routine) (w u : Walk),
    Program.ofRoutines name routines = .ok TeamTask.subject.program ∧
      Trace.build TeamTask.subject = .ok TeamTask.trace ∧
      TeamTask.subject.chain.StartsTeam TeamTask.forkCall ∧
      Trace.Executes TeamTask.subject
        (Runtime.ofProgram TeamTask.subject.program TeamTask.subject.settings.runtime) "main"
        TeamTask.forkCall ["main"] [] [0, 1, 2, 3] [] w ∧
      u.kinds = [.fork 1, .fork 3, .join (some 1), .join (some 3)] ∧
      u.kinds <+: TeamTask.trace.kinds 0 ∧ ∃ o, ofTrace TeamTask.trace = .ok o := by
  have hprogram : Program.ofRoutines "teamtask" [TeamTask.main, TeamTask.body, TeamTask.task] =
      .ok TeamTask.subject.program :=
    Program.ofRoutines_eq_ok_iff_nodup.2 ⟨by decide, by decide, rfl⟩
  have hteam : TeamTask.subject.chain.StartsTeam TeamTask.forkCall :=
    ⟨List.mem_singleton.2 rfl, Or.inl rfl⟩
  have hexec : Trace.Executes TeamTask.subject .openMp "main" TeamTask.forkCall ["main"] []
      [0, 1, 2, 3] [] ⟨⟨⟨TeamTask.mainNodes⟩, TeamTask.early, ∅, #[Thread.new 0 "main" none none]⟩,
        Walker.start 0 none⟩ := by
    refine ⟨.begins ⟨_, _, TeamTask.summary_main, rfl⟩,
      ⟨_, TeamTask.definition?_eq.1, List.mem_singleton.2 rfl⟩, ?_, [], ?_, nofun⟩
    · simp only [List.mem_cons, List.not_mem_nil, or_false]
      rintro id (rfl | rfl | rfl | rfl) <;> exact ⟨_, rfl, rfl, rfl⟩
    · simp [TeamTask.early]
  obtain ⟨u, children, o, -, hwalk, -, -, hprefix, ho, -⟩ :=
    teams_joined_at_once hprogram TeamTask.build_eq hteam hexec
  have hu : u.kinds = [.fork 1, .fork 3, .join (some 1), .join (some 3)] := by
    have hrun := hwalk.symm.trans TeamTask.walk_main
    rw [Walk.walk] at hrun
    cases hrun
    rfl
  exact ⟨_, _, _, u, hprogram, TeamTask.build_eq, hteam, hexec, hu, hprefix, o, ho⟩

end HappensBefore

end DataRace
