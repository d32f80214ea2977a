import DataRace.Proofs.Order.Closure
import DataRace.Proofs.Thin.Groups

/-!
# The order of thinned traces

A thinned trace leaves out the same joins and barrier groups as the full one: whether a join is left
out depends on paths along earlier joins (`Trace.Thinned.mem_dropped_iff`), and whether a group is
left out on circles (`Trace.Thinned.droppedGroups_eq`).  So kept events are ordered alike
(`Trace.Thinned.before_iff`).
-/

namespace DataRace

open Relation

/-- The order of events has no endless descents. -/
theorem EventRef.wellFounded_lt : WellFounded EventRef.Lt := by
  have hlex : WellFounded (Prod.Lex (fun a b : Nat => a < b) fun a b : Nat => a < b) :=
    WellFounded.prod_lex Nat.lt_wfRel.wf Nat.lt_wfRel.wf
  refine Subrelation.wf ?_ (InvImage.wf (fun r : EventRef => (r.thread, r.index)) hlex)
  intro a b hab
  exact Prod.lex_def.2 hab

namespace Trace.Thinned

open HappensBefore OrderGraph

variable {t u : Trace} {ms : Masks} (h : t.Thinned u ms) (ht : t.WellFormed) (hu : u.WellFormed)

include h ht hu

/-! ### What is left out -/

/-- Both traces leave out the same joins. -/
theorem mem_dropped_iff {r : EventRef} {f : Event} {child : ThreadId} (hf : u.event? r = some f)
    (hjoin : f.kind = .join (some child)) :
    ms.thin r ∈ (afterJoins t t.events).2 ↔ r ∈ (afterJoins u u.events).2 := by
  have hloud : ∀ {r f child}, u.event? r = some f → f.kind = .join (some child) → ms.Marks r := by
    intro r f child hf hjoin
    refine h.marks hf fun hquiet => ?_
    rw [hjoin] at hquiet
    cases hquiet.1
  induction r using EventRef.wellFounded_lt.induction generalizing f child with
  | h r ih =>
    have hr := hloud hf hjoin
    obtain ⟨e, he, halike⟩ := h.event?_thin hf hr
    have hagree : (earlierJoins t (ms.thin r)).Agree ms u (earlierJoins u r) := by
      refine ⟨rfl, fun _ => Iff.rfl, fun q f' child' hf' hjoin' => ?_⟩
      have hlt : (ms.thin q).Lt (ms.thin r) ↔ q.Lt r := Masks.thin_lt_iff (hloud hf' hjoin')
      unfold earlierJoins
      dsimp only
      rw [hlt]
      exact and_congr_right fun hq => not_congr (ih q hq hf' hjoin')
    rw [HappensBefore.mem_dropped_iff ht he (halike.kind_eq.trans hjoin),
      HappensBefore.mem_dropped_iff hu hf hjoin, ← thinPoint_event h hr]
    exact h.transGen_iff (p := .event r) (q := .finish child) hagree ht hu hr trivial

/-- A choice of joins and groups that are not left out. -/
theorem agree (groups : List (List ThreadId)) (kept : Nat → Prop) :
    Choice.Agree ms u ⟨fun r => r ∉ (afterJoins t t.events).2, groups, kept⟩
      ⟨fun r => r ∉ (afterJoins u u.events).2, groups, kept⟩ where
  groups := rfl
  kept _ := Iff.rfl
  joins _ _ _ hf hjoin := not_congr (h.mem_dropped_iff ht hu hf hjoin)

/-- Both traces leave out the same groups. -/
theorem droppedGroups_eq (groups : List (List ThreadId)) :
    (groups.zipIdx.foldl (addGroup t) ((afterJoins t t.events).1, [])).2 =
      (groups.zipIdx.foldl (addGroup u) ((afterJoins u u.events).1, [])).2 := by
  induction groups using List.reverseRecOn with
  | nil => rfl
  | append_singleton groups members ih =>
    have hthin := grouped_afterJoins ht groups
    have hfull := grouped_afterJoins hu groups
    have hshows := hthin.shows_withGroup ht members
    have hshows' := hfull.shows_withGroup hu members
    rw [← ih] at hshows'
    have hacyclic :
      (withGroup t (groups.zipIdx.foldl (addGroup t) ((afterJoins t t.events).1, [])).1
          groups.length members).isAcyclic =
        (withGroup u (groups.zipIdx.foldl (addGroup u) ((afterJoins u u.events).1, [])).1
          groups.length members).isAcyclic := by
      rw [Bool.eq_iff_iff, isAcyclic_iff (closed_withGroup ht hthin.closed hthin.points _ _),
        isAcyclic_iff (closed_withGroup hu hfull.closed hfull.points _ _), hshows.acyclic_iff,
        hshows'.acyclic_iff]
      exact h.acyclic_iff (h.agree ht hu _ _) ht hu
    have hstep : ∀ v : Trace, ((groups ++ [members]).zipIdx.foldl (addGroup v)
        ((afterJoins v v.events).1, [])) = addGroup v (groups.zipIdx.foldl (addGroup v)
          ((afterJoins v v.events).1, [])) (members, groups.length) := by
      intro v
      rw [List.zipIdx_append, List.foldl_append]
      simp
    rw [hstep t, hstep u, addGroup_snd, addGroup_snd, hacyclic, ih]

/-- Kept events are ordered alike. -/
theorem before_iff {o o' : HappensBefore} (ho : Ordered t o) (ho' : Ordered u o')
    {a b : EventRef} (ha : ms.Marks a) (hb : ms.Marks b) :
    o.before (ms.thin a) (ms.thin b) = true ↔ o'.before a b = true := by
  have hgroups : o.groups = o'.groups := by
    have heq := h.barrierGroups_eq ht hu ho'.groups
    rw [ho.groups] at heq
    exact Except.ok.inj heq
  have hdropped : o.droppedGroups = o'.droppedGroups := by
    rw [ho.droppedGroups, ho'.droppedGroups, hgroups]
    exact h.droppedGroups_eq ht hu _
  have hagree : o.choice.Agree ms u o'.choice := by
    unfold choice
    rw [ho.droppedJoins, ho'.droppedJoins, hgroups, hdropped]
    exact h.agree ht hu _ _
  obtain ⟨f, hf⟩ := h.exists_event ha
  obtain ⟨g, hg⟩ := h.exists_event hb
  obtain ⟨d, hd, -⟩ := h.event?_thin hf ha
  obtain ⟨e, he, -⟩ := h.event?_thin hg hb
  rw [ho.before_iff_link ht hd he, ho'.before_iff_link hu hf hg, ← thinPoint_event h ha,
    ← thinPoint_event h hb]
  exact h.transGen_iff (p := .event a) (q := .event b) hagree ht hu ha hb

end Trace.Thinned

end DataRace
