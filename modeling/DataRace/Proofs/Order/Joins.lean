import DataRace.Proofs.Order.Base

/-!
# Adding joins

Joins are added to program order and forks one by one.  `HappensBefore.Joined` says what the graph
is like after the joins among some events: it has an edge for each join that was not left out, and
still no circles.

When the join of a later thread is added, only joins of its own thread and of earlier ones are
there.  So the threads that the later thread was started by or with can only be entered through the
fork that leads to them, which comes before the join; the join closes no circle and is not left out
(`not_mem_dropped`).
-/

namespace DataRace

namespace HappensBefore

open Relation OrderGraph

/-- The graph and the joins left out when the joins among some events were added. -/
def afterJoins (t : Trace) (es : List Event) : OrderGraph × List EventRef :=
  es.foldl addJoin (base t, [])

/-- A join that was not left out comes behind the end of the thread that it joins. -/
inductive Kept (es : List Event) (dropped : List EventRef) : Point → Point → Prop
  | join {e : Event} {child : ThreadId} (he : e ∈ es) (hjoin : e.kind = .join (some child))
      (hkept : e.ref ∉ dropped) : Kept es dropped (.finish child) (.event e.ref)

/-- What the graph is like after the joins among some events. -/
structure Joined (t : Trace) (es : List Event) (g : OrderGraph) (dropped : List EventRef) :
    Prop where
  points : g.points = (base t).points
  edge : ∀ a b, g.Edge a b ↔ Basic t a b ∨ Kept es dropped a b
  acyclic : g.Acyclic
  mem_dropped : ∀ r ∈ dropped, ∃ e ∈ es, e.ref = r

variable {t : Trace} {es : List Event} {g : OrderGraph} {dropped : List EventRef}

namespace Joined

/-- Only events of the trace and ends of its threads are joined. -/
theorem closed (h : Joined t es g dropped) (ht : t.WellFormed) (hes : ∀ e ∈ es, e ∈ t.events) :
    g.Closed := by
  intro a b hab
  rw [h.points]
  rcases (h.edge a b).1 hab with hbase | ⟨he, hjoin, -⟩
  · exact closed_base ht ((edge_base ht).2 hbase)
  · have hevent := ht.mem_events.1 (hes _ he)
    have hchild := ((ht.fits_event? hevent).join _ hjoin).1
    exact ⟨(mem_points_base ht).2 (Or.inl ⟨_, hchild, Or.inr rfl⟩),
      (mem_points_base ht).2 (Or.inr ⟨_, _, hevent, rfl⟩)⟩

/-- Without joins there are program order and forks. -/
theorem nil (ht : t.WellFormed) : Joined t [] (base t) [] where
  points := rfl
  edge a b := by
    rw [edge_base ht]
    constructor
    · exact Or.inl
    · rintro (h | ⟨he, -, -⟩)
      · exact h
      · cases he
  acyclic := acyclic_base ht
  mem_dropped r hr := by cases hr

/-- One more event. -/
theorem concat (h : Joined t es g dropped) (ht : t.WellFormed) (hes : ∀ e ∈ es, e ∈ t.events)
    {e : Event} (he : e ∈ t.events) (hafter : ∀ d ∈ es, d.ref.Lt e.ref) :
    Joined t (es ++ [e]) (addJoin (g, dropped) e).1 (addJoin (g, dropped) e).2 := by
  have hfresh : e.ref ∉ dropped := by
    intro hmem
    obtain ⟨d, hd, hde⟩ := h.mem_dropped _ hmem
    exact EventRef.Lt.irrefl _ (hde ▸ hafter d hd)
  have hweaken : ∀ r ∈ dropped, ∃ d ∈ es ++ [e], d.ref = r := by
    intro r hr
    obtain ⟨d, hd, hdr⟩ := h.mem_dropped r hr
    exact ⟨d, List.mem_append_left _ hd, hdr⟩
  unfold addJoin
  dsimp only
  split
  · next child hjoin =>
    have hpoint : Point.event e.ref ∈ g.points := by
      rw [h.points, mem_points_base ht]
      exact Or.inr ⟨_, e, ht.mem_events.1 he, rfl⟩
    split
    · next hreaches =>
      refine ⟨h.points, fun a b => ?_, h.acyclic, ?_⟩
      · rw [h.edge]
        refine or_congr_right ⟨?_, ?_⟩
        · rintro ⟨hd, hjoin', hkept⟩
          refine .join (List.mem_append_left _ hd) hjoin' ?_
          rw [List.mem_append, List.mem_singleton]
          rintro (hmem | heq)
          · exact hkept hmem
          · exact EventRef.Lt.irrefl _ (heq ▸ hafter _ hd)
        · rintro ⟨hd, hjoin', hkept⟩
          rw [List.mem_append, List.mem_singleton] at hkept
          rcases List.mem_append.1 hd with hd | hd
          · exact .join hd hjoin' fun hmem => hkept (Or.inl hmem)
          · exact absurd (Or.inr (List.mem_singleton.1 hd ▸ rfl)) hkept
      · intro r hr
        rcases List.mem_append.1 hr with hr | hr
        · exact hweaken r hr
        · exact ⟨e, List.mem_append_right _ List.mem_cons_self, (List.mem_singleton.1 hr).symm⟩
    · next hreaches =>
      have hpath : ¬ ReflTransGen g.Edge (.event e.ref) (.finish child) :=
        fun hpath => hreaches ((reaches_iff (h.closed ht hes) hpoint).2 hpath)
      refine ⟨h.points, fun a b => ?_, h.acyclic.addEdge hpath, hweaken⟩
      rw [edge_addEdge, h.edge, or_assoc]
      refine or_congr_right ⟨?_, ?_⟩
      · rintro (⟨hd, hjoin', hkept⟩ | ⟨rfl, rfl⟩)
        · exact .join (List.mem_append_left _ hd) hjoin' hkept
        · exact .join (List.mem_append_right _ List.mem_cons_self) hjoin hfresh
      · rintro ⟨hd, hjoin', hkept⟩
        rcases List.mem_append.1 hd with hd | hd
        · exact Or.inl (.join hd hjoin' hkept)
        · obtain rfl := List.mem_singleton.1 hd
          rw [hjoin] at hjoin'
          cases hjoin'
          exact Or.inr ⟨rfl, rfl⟩
  · next hother =>
    refine ⟨h.points, fun a b => ?_, h.acyclic, hweaken⟩
    rw [h.edge]
    refine or_congr_right ⟨?_, ?_⟩
    · rintro ⟨hd, hjoin, hkept⟩
      exact .join (List.mem_append_left _ hd) hjoin hkept
    · rintro ⟨hd, hjoin, hkept⟩
      rcases List.mem_append.1 hd with hd | hd
      · exact .join hd hjoin hkept
      · exact absurd (List.mem_singleton.1 hd ▸ hjoin) (hother _)

end Joined

/-- The graph after the joins among the first events of a trace. -/
theorem joined_afterJoins (ht : t.WellFormed) (es : List Event) (h : es <+: t.events) :
    Joined t es (afterJoins t es).1 (afterJoins t es).2 := by
  induction es using List.reverseRecOn with
  | nil => exact .nil ht
  | append_singleton es e ih =>
    have hes : es <+: t.events := (List.prefix_append es [e]).trans h
    have hmem : ∀ d ∈ es ++ [e], d ∈ t.events := fun d hd => h.subset hd
    have hafter : ∀ d ∈ es, d.ref.Lt e.ref := by
      have hpair := List.pairwise_append.1 (ht.sorted_events.sublist h.sublist)
      exact fun d hd => hpair.2.2 d hd e List.mem_cons_self
    have hstep := (ih hes).concat ht (fun d hd => hmem d (List.mem_append_left _ hd))
      (hmem e (List.mem_append_right _ List.mem_cons_self)) hafter
    have heq : afterJoins t (es ++ [e]) = addJoin (afterJoins t es) e := by
      unfold afterJoins
      rw [List.foldl_append, List.foldl_cons, List.foldl_nil]
    rw [heq]
    exact hstep

/-! ### Joins of later threads -/

/-- The thread of a point; meeting points have none. -/
def threadOf? : Point → Option ThreadId
  | .start thread | .finish thread => some thread
  | .event r => some r.thread
  | .meet _ _ => none

/-- Both points of a thread at an event number belong to it. -/
theorem threadOf?_pointAt (thread : ThreadId) (index : Nat) :
    threadOf? (pointAt t thread index) = some thread := by
  unfold pointAt
  split <;> rfl

/-- When only joins of the same thread and of earlier ones were added, a join of a later thread does
not lead to the end of that thread. -/
theorem Joined.not_leads (h : Joined t es g dropped) (ht : t.WellFormed) {e : Event}
    {child : ThreadId} (he : e ∈ t.events) (hjoin : e.kind = .join (some child))
    (hlater : e.thread < child) (hbefore : ∀ d ∈ es, d ∈ t.events ∧ d.ref.Lt e.ref) :
    ¬ ReflTransGen g.Edge (.event e.ref) (.finish child) := by
  have hevent := ht.mem_events.1 he
  obtain ⟨-, hleads⟩ := (ht.fits_event? hevent).join child hjoin
  obtain ⟨j, hj, f, hf, d, hd, hdescends⟩ := hleads hlater
  have hforked : t.event? ⟨e.thread, j⟩ = some f := hf
  obtain ⟨hafter, th, hth, hsite, -⟩ := (ht.fits_event? hforked).fork d hd
  -- Nothing that the join leads to is in a thread that `d` leads to.
  have houtside : ∀ p, ReflTransGen g.Edge (.event e.ref) p → ∀ i, threadOf? p = some i →
      ¬ ReflTransGen (Thread.Starts t.threads) d i := by
    intro p hp
    induction hp with
    | refl =>
      rintro i ⟨⟩ hi
      exact absurd (ht.descends_le hi) (Nat.not_le.2 hafter)
    | @tail p q hpath hstep ih =>
      intro i hi hdi
      rcases (h.edge p q).1 hstep with (hlt | hnext | ⟨hfork, hkind⟩) | ⟨hmem, hkind, -⟩
      · rw [threadOf?_pointAt] at hi
        exact ih i hi hdi
      · rw [pointAfter_eq, threadOf?_pointAt] at hi
        exact ih i hi hdi
      · next r f' c =>
        cases hi
        obtain ⟨-, th', hth', hsite', -⟩ := (ht.fits_event? hfork).fork i hkind
        rcases hdi.cases_tail with rfl | ⟨x, hdx, th'', hth'', hparent⟩
        -- The fork that leads to `d` comes before the join, so this path would be a circle.
        · rw [hth] at hth'
          cases hth'
          rw [hsite] at hsite'
          have hr : (⟨e.thread, j⟩ : EventRef) = r := Option.some.inj hsite'
          have hback : TransGen g.Edge (.event r) (.event e.ref) :=
            hr ▸ TransGen.mono (fun a b hab => (h.edge a b).2 (Or.inl hab)) _ _
              (event_leads hforked hevent rfl hj)
          exact h.acyclic _ (hback.trans_left hpath)
        · rw [hth'] at hth''
          cases hth''
          unfold Thread.parent? at hparent
          rw [hsite'] at hparent
          cases hparent
          exact ih _ rfl hdx
      · next f' c =>
        cases hi
        obtain ⟨-, hlt⟩ := hbefore f' hmem
        have hle : f'.thread ≤ e.thread := by
          rcases hlt with hlt | ⟨heq, -⟩
          · exact hlt.le
          · exact heq.le
        exact absurd (ht.descends_le hdi) (Nat.not_le.2 (hle.trans_lt hafter))
  exact fun hpath => houtside _ hpath child rfl hdescends

/-- What is left out when joins are added is one of them, or was left out before. -/
theorem mem_dropped_foldl {r : EventRef} {state : OrderGraph × List EventRef}
    (h : r ∈ (es.foldl addJoin state).2) :
    r ∈ state.2 ∨ ∃ e ∈ es, e.ref = r ∧ ∃ child, e.kind = .join (some child) := by
  induction es generalizing state with
  | nil => exact Or.inl h
  | cons e es ih =>
    rw [List.foldl_cons] at h
    rcases ih h with hmem | ⟨d, hd, hjoin⟩
    · unfold addJoin at hmem
      dsimp only at hmem
      split at hmem
      · next child hkind =>
        split at hmem
        · rcases List.mem_append.1 hmem with hmem | hmem
          · exact Or.inl hmem
          · exact Or.inr ⟨e, List.mem_cons_self, (List.mem_singleton.1 hmem).symm, child, hkind⟩
        · exact Or.inl hmem
      · exact Or.inl hmem
    · exact Or.inr ⟨d, List.mem_cons_of_mem _ hd, hjoin⟩

/-- What was left out stays left out. -/
theorem subset_dropped_foldl (state : OrderGraph × List EventRef) (es : List Event) :
    state.2 ⊆ (es.foldl addJoin state).2 := by
  induction es generalizing state with
  | nil => exact List.Subset.refl _
  | cons e es ih =>
    refine List.Subset.trans ?_ (ih _)
    unfold addJoin
    dsimp only
    split
    · split
      · exact List.subset_append_left _ _
      · exact List.Subset.refl _
    · exact List.Subset.refl _

/-- Whether a join is left out is settled when it is added. -/
theorem mem_dropped_of_split (ht : t.WellFormed) {rest : List Event}
    (hsplit : t.events = es ++ rest) {e : Event} (he : e ∈ es) :
    e.ref ∈ (afterJoins t t.events).2 ↔ e.ref ∈ (afterJoins t es).2 := by
  have hfold : afterJoins t t.events = rest.foldl addJoin (afterJoins t es) := by
    unfold afterJoins
    rw [hsplit, List.foldl_append]
  rw [hfold]
  constructor
  · intro hmem
    refine (mem_dropped_foldl hmem).resolve_right ?_
    rintro ⟨d, hd, hde, -⟩
    have hsorted := ht.sorted_events
    rw [hsplit] at hsorted
    exact EventRef.Lt.irrefl _ (hde ▸ (List.pairwise_append.1 hsorted).2.2 e he d hd)
  · exact fun hmem => subset_dropped_foldl _ _ hmem

/-- A join of a later thread is not left out. -/
theorem not_mem_dropped (ht : t.WellFormed) {e : Event} {child : ThreadId} (he : e ∈ t.events)
    (hjoin : e.kind = .join (some child)) (hlater : e.thread < child) :
    e.ref ∉ (afterJoins t t.events).2 := by
  obtain ⟨es, rest, hsplit⟩ := List.append_of_mem he
  have hinitial : es <+: t.events := ⟨e :: rest, hsplit.symm⟩
  have hjoined := joined_afterJoins ht es hinitial
  have hsorted := ht.sorted_events
  rw [hsplit] at hsorted
  obtain ⟨-, hsorted', hbefore⟩ := List.pairwise_append.1 hsorted
  have hes : ∀ d ∈ es, d ∈ t.events ∧ d.ref.Lt e.ref :=
    fun d hd => ⟨hinitial.subset hd, hbefore d hd e List.mem_cons_self⟩
  have hnot : ¬ (afterJoins t es).1.reaches (.event e.ref) (.finish child) = true := by
    rw [reaches_iff (hjoined.closed ht fun d hd => (hes d hd).1)]
    · exact hjoined.not_leads ht he hjoin hlater hes
    · rw [hjoined.points, mem_points_base ht]
      exact Or.inr ⟨_, e, ht.mem_events.1 he, rfl⟩
  have hkept : (addJoin (afterJoins t es) e).2 = (afterJoins t es).2 := by
    unfold addJoin
    rw [hjoin]
    dsimp only
    rw [if_neg hnot]
  intro hmem
  unfold afterJoins at hmem
  rw [hsplit, List.foldl_append, List.foldl_cons, ← afterJoins] at hmem
  rcases mem_dropped_foldl hmem with hmem | ⟨d, hd, hde, -⟩
  · rw [hkept] at hmem
    obtain ⟨d, hd, hde⟩ := hjoined.mem_dropped _ hmem
    exact EventRef.Lt.irrefl _ (hde ▸ (hes d hd).2)
  · exact EventRef.Lt.irrefl _ (hde ▸ (List.pairwise_cons.1 hsorted').1 d hd)

end HappensBefore

end DataRace
