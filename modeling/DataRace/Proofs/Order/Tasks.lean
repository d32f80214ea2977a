import DataRace.Proofs.Order.Closure
import DataRace.Proofs.Trace.Tasks
import DataRace.Proofs.Trace.TeamJoins

/-!
# Tasks before what follows their team

A task of a team is completed once, in the thread of the team or in a task between them, and the
member of the team is completed in the thread that started it.  These are joins of later threads,
so none of them is left out, and one after the other they lead from the events of the task to the
end of the team and to what its parent does from the join of the team on (`tasks_joined_once`).
-/

namespace DataRace

namespace HappensBefore

open Relation OrderGraph

variable {c : Subject} {t : Trace} {o : HappensBefore}

/-- The events of a task lead to the end of the member of a team that leads to the task. -/
theorem Ordered.path_of_task (h : Ordered t o) (hbuild : Trace.build c = .ok t)
    (hruntime : Runtime.ofProgram c.program c.settings.runtime = .openMp) {team : ThreadId}
    (hmember : t.IsMember team) {task : ThreadId} (hchain : TransGen t.StartsTask team task)
    {a : EventRef} {ea : Event} (ha : t.event? a = some ea) (hthread : a.thread = task) :
    TransGen o.graph.Edge (.event a) (.finish team) := by
  have ht := Trace.build_wellFormed hbuild
  -- The thread that completes a task is an earlier one on the chain.
  induction task using Nat.strongRecOn generalizing a ea with
  | _ task ih =>
    obtain ⟨⟨q, ⟨e, he, hdone⟩, -⟩, hlocated⟩ :=
      Trace.existsUnique_completes hbuild hruntime hmember hchain
    obtain ⟨hteam, htask⟩ := hlocated q e he hdone
    have hlater := ht.lt_of_chain htask
    have hfinish := h.path_of_basic (event_leads_finish ha)
    rw [hthread] at hfinish
    have hjoined := hfinish.trans (h.path_of_join ht he hdone.1 hlater)
    rcases reflTransGen_iff_eq_or_transGen.1 hteam with heq | hbetween
    · have hend := h.path_of_basic (event_leads_finish he)
      rw [heq] at hend
      exact hjoined.trans hend
    · exact hjoined.trans (ih q.thread hlater hbetween he rfl)

/-- In every trace that is built with the OpenMP runtime, a task that a member of a team leads to
through tasks is completed by exactly one event, in the thread of the member or in a task between
them.  The parent of the member joins the member, and everything in the task happens before
everything that the parent does from a join of the member on. -/
theorem tasks_joined_once (hbuild : Trace.build c = .ok t)
    (hruntime : Runtime.ofProgram c.program c.settings.runtime = .openMp) {team task : ThreadId}
    {api : ForkApi} (hteam : t.spawnApi? team = some api) (hmember : api.isTeamMember = true)
    (hchain : TransGen t.StartsTask team task) :
    (∃! q, ∃ e, t.event? q = some e ∧ t.Completes e task) ∧
      (∀ q e, t.event? q = some e → t.Completes e task →
        ReflTransGen t.StartsTask team q.thread ∧ TransGen t.StartsTask q.thread task) ∧
      ∃ o parent, ofTrace t = .ok o ∧ Thread.Starts t.threads parent team ∧
        (∃ q e, q.thread = parent ∧ t.event? q = some e ∧ t.Completes e team) ∧
        ∀ q e, t.event? q = some e → q.thread = parent → e.kind = .join (some team) →
          ∀ a ea b eb, t.event? a = some ea → a.thread = task → t.event? b = some eb →
            b.thread = parent → q.index ≤ b.index → o.before a b = true := by
  have ht := Trace.build_wellFormed hbuild
  obtain ⟨hunique, hlocated⟩ :=
    Trace.existsUnique_completes hbuild hruntime ⟨api, hteam, hmember⟩ hchain
  refine ⟨hunique, hlocated, ?_⟩
  obtain ⟨o, ho, h⟩ := exists_ordered ht
  obtain ⟨parent, hstart⟩ := Trace.exists_parent hbuild hteam
  refine ⟨o, parent, ho, hstart, Trace.exists_join_of_member hbuild hstart hteam hmember, ?_⟩
  intro q e he hq hjoin a ea b eb ha htask hb hparent hle
  have hpath : TransGen o.graph.Edge (.event a) (.event q) :=
    (h.path_of_task hbuild hruntime ⟨api, hteam, hmember⟩ hchain ha htask).trans
      (h.path_of_join ht he hjoin (hq ▸ ht.starts_lt hstart))
  rw [h.before_iff_path ht ha hb]
  rcases Nat.eq_or_lt_of_le hle with heq | hlt
  · obtain rfl : q = b := by
      cases q
      cases b
      cases hq
      cases hparent
      cases heq
      rfl
    exact hpath
  · exact hpath.trans (h.path_of_basic (event_leads he hb (hq.trans hparent.symm) hlt))

/-- The task of the master is completed at the barrier of the team, and so happens before the join
of the master. -/
theorem tasks_teamTask :
    Trace.build TeamTask.subject = .ok TeamTask.trace ∧
      TeamTask.trace.spawnApi? 1 = some (.ompFork true) ∧ TeamTask.trace.StartsTask 1 2 ∧
      (∃! q, ∃ e, TeamTask.trace.event? q = some e ∧ TeamTask.trace.Completes e 2) ∧
      ∃ o, ofTrace TeamTask.trace = .ok o ∧ o.before ⟨2, 0⟩ ⟨0, 2⟩ = true := by
  have hteam : TeamTask.trace.spawnApi? 1 = some (.ompFork true) := rfl
  have hstart : TeamTask.trace.StartsTask 1 2 := ⟨⟨_, rfl, rfl⟩, rfl⟩
  obtain ⟨hunique, -, o, parent, ho, hparent, -, hbefore⟩ :=
    tasks_joined_once TeamTask.build_eq rfl hteam rfl (.single hstart)
  obtain rfl : parent = 0 := hparent.unique ⟨_, rfl, rfl⟩
  exact ⟨TeamTask.build_eq, hteam, hstart, hunique, o, ho,
    hbefore ⟨0, 2⟩ _ rfl rfl rfl ⟨2, 0⟩ _ ⟨0, 2⟩ _ rfl rfl rfl rfl (Nat.le_refl _)⟩

end HappensBefore

end DataRace
