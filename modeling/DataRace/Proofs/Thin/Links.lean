import DataRace.Proofs.Order.Linked
import DataRace.Proofs.Thin.Mask

/-!
# Links of thinned traces

`Trace.Thinned` says that one trace has the threads of another, full one, each without some events
that may be left out.  A kept event stands for itself, any other event for what comes next in the
thinner trace (`HappensBefore.thinPoint`).

For choices that agree, a link of the full trace is a path of the thinner one or stays at one point,
and a link between kept points of the thinner trace is a path of the full one.  So paths between
kept points are the same (`Trace.Thinned.transGen_iff`), and so are circles
(`Trace.Thinned.acyclic_iff`).
-/

namespace DataRace

/-- Which events of each thread are kept. -/
abbrev Masks := ThreadId → List Bool

namespace Masks

variable {ms : Masks} {r q : EventRef}

/-- Whether an event is kept. -/
def Marks (ms : Masks) (r : EventRef) : Prop := (ms r.thread)[r.index]? = some true

/-- The name of a kept event in the thinner trace. -/
def thin (ms : Masks) (r : EventRef) : EventRef := ⟨r.thread, rank (ms r.thread) r.index⟩

/-- Kept events have different names. -/
theorem thin_inj (hr : ms.Marks r) (hq : ms.Marks q) (h : ms.thin r = ms.thin q) : r = q := by
  obtain ⟨i, j⟩ := r
  obtain ⟨i', k⟩ := q
  obtain rfl : i = i' := congrArg EventRef.thread h
  obtain rfl : j = k := rank_inj hr hq (congrArg EventRef.index h)
  rfl

/-- Kept events keep their order. -/
theorem thin_lt_iff (hr : ms.Marks r) : (ms.thin r).Lt (ms.thin q) ↔ r.Lt q := by
  unfold EventRef.Lt thin
  refine or_congr_right (and_congr_right fun hthread => ?_)
  dsimp only at hthread ⊢
  rw [← hthread]
  exact rank_lt_iff hr

end Masks

/-- One trace is another without some events that may be left out. -/
structure Trace.Thinned (t u : Trace) (ms : Masks) : Prop where
  threadCount : t.threadCount = u.threadCount
  pointsTo : t.pointsTo = u.pointsTo
  spawnApi? : ∀ i, t.spawnApi? i = u.spawnApi? i
  thins : ∀ i, Thins t.arena u.arena (ms i) (t.eventsOf i).toList (u.eventsOf i).toList

variable {t u : Trace} {ms : Masks}

namespace Trace.Thinned

variable (h : t.Thinned u ms)

include h

/-- A kept event is an event of the thinner trace. -/
theorem event?_thin {r : EventRef} {f : Event} (hf : u.event? r = some f) (hr : ms.Marks r) :
    ∃ e, t.event? (ms.thin r) = some e ∧ e.Alike t.arena u.arena f := by
  obtain ⟨e, he, halike⟩ := (h.thins r.thread).kept r.index f hr (Array.getElem?_toList.trans hf)
  exact ⟨e, Array.getElem?_toList.symm.trans he, halike⟩

/-- Every event of the thinner trace is a kept event. -/
theorem exists_marked {r : EventRef} {e : Event} (he : t.event? r = some e) :
    ∃ q f, ms.Marks q ∧ ms.thin q = r ∧ u.event? q = some f ∧ e.Alike t.arena u.arena f := by
  obtain ⟨k, f, hk, hrank, hf, halike⟩ :=
    (h.thins r.thread).exists_kept (Array.getElem?_toList.trans he)
  refine ⟨⟨r.thread, k⟩, f, hk, ?_, Array.getElem?_toList.symm.trans hf, halike⟩
  unfold Masks.thin
  rw [hrank]

/-- An event that is not quiet is kept. -/
theorem marks {r : EventRef} {f : Event} (hf : u.event? r = some f) (hloud : ¬ f.kind.Quiet) :
    ms.Marks r :=
  (h.thins r.thread).marked (Array.getElem?_toList.trans hf) hloud

/-- What is kept exists. -/
theorem exists_event {r : EventRef} (hr : ms.Marks r) : ∃ f, u.event? r = some f := by
  obtain ⟨f, hf⟩ := (h.thins r.thread).exists_event hr
  exact ⟨f, Array.getElem?_toList.symm.trans hf⟩

/-- The thinner trace has as many events in a thread as are kept. -/
theorem rank_size (i : ThreadId) {k : Nat} (hk : (u.eventsOf i).size ≤ k) :
    rank (ms i) k = (t.eventsOf i).size := by
  have hthins := h.thins i
  rw [rank_of_le, hthins.count_eq, Array.length_toList]
  rw [hthins.length_eq, Array.length_toList]
  exact hk

end Trace.Thinned

namespace HappensBefore

open Relation

/-- What a point of the full trace stands for in the thinner one. -/
def thinPoint (ms : Masks) (t : Trace) : Point → Point
  | .event r => pointAt t r.thread (rank (ms r.thread) r.index)
  | p => p

/-- A point that is not an event left out. -/
def PointKept (ms : Masks) : Point → Prop
  | .event r => ms.Marks r
  | _ => True

/-- Two choices that take the same groups and joins. -/
structure Choice.Agree (ms : Masks) (u : Trace) (s s' : Choice) : Prop where
  groups : s.groups = s'.groups
  kept : ∀ group, s.kept group ↔ s'.kept group
  joins : ∀ r f child, u.event? r = some f → f.kind = .join (some child) →
    (s.joins (ms.thin r) ↔ s'.joins r)

/-- Only a start stands for a start. -/
theorem eq_start_of_thinPoint {p : Point} {i : ThreadId} (hp : thinPoint ms t p = .start i) :
    p = .start i := by
  cases p with
  | event r =>
    simp only [thinPoint, pointAt] at hp
    split at hp
    · cases hp
    · cases hp
  | start | finish | meet => exact hp

variable (h : t.Thinned u ms)

include h

/-- A kept event stands for itself. -/
theorem thinPoint_event {r : EventRef} (hr : ms.Marks r) :
    thinPoint ms t (.event r) = .event (ms.thin r) := by
  obtain ⟨f, hf⟩ := h.exists_event hr
  obtain ⟨e, he, -⟩ := h.event?_thin hf hr
  exact pointAt_event he

/-- What the points of a thread stand for. -/
theorem thinPoint_pointAt (i : ThreadId) (k : Nat) :
    thinPoint ms t (pointAt u i k) = pointAt t i (rank (ms i) k) := by
  by_cases hk : k < (u.eventsOf i).size
  · rw [show pointAt u i k = .event ⟨i, k⟩ from if_pos hk]
    rfl
  · rw [show pointAt u i k = .finish i from if_neg hk, h.rank_size i (Nat.le_of_not_lt hk),
      pointAt_size]
    rfl

/-- Kept points stand for different points. -/
theorem thinPoint_inj {p q : Point} (hp : PointKept ms p) (hq : PointKept ms q)
    (heq : thinPoint ms t p = thinPoint ms t q) : p = q := by
  cases p with
  | event r =>
    rw [thinPoint_event h hp] at heq
    cases q with
    | event r' =>
      rw [thinPoint_event h hq] at heq
      rw [Masks.thin_inj hp hq (Point.event.inj heq)]
    | start | finish | meet => cases heq
  | start | finish | meet =>
    cases q with
    | event r' =>
      rw [thinPoint_event h hq] at heq
      cases heq
    | start | finish | meet => exact heq

/-- Among kept points only an end stands for an end. -/
theorem eq_finish_of_thinPoint {p : Point} {i : ThreadId} (hp : PointKept ms p)
    (heq : thinPoint ms t p = .finish i) : p = .finish i := by
  cases p with
  | event q =>
    rw [thinPoint_event h hp] at heq
    cases heq
  | start | finish | meet => exact heq

/-- An event of the thinner trace is what a kept event stands for. -/
theorem eq_event_of_thinPoint {p : Point} {r : EventRef} (hp : PointKept ms p)
    (heq : thinPoint ms t p = .event r) : ∃ q, p = .event q ∧ ms.Marks q ∧ ms.thin q = r := by
  cases p with
  | event q =>
    rw [thinPoint_event h hp] at heq
    exact ⟨q, rfl, hp, Point.event.inj heq⟩
  | start | finish | meet => cases heq

/-- The barriers of a thread are the same. -/
theorem barriersOf_thin (ht : t.WellFormed) (hu : u.WellFormed) (i : ThreadId) :
    barriersOf t i = (barriersOf u i).map ms.thin := by
  unfold barriersOf
  rw [List.map_filterMap]
  refine (h.thins i).filterMap_eq (fun k f e hk hf he => ?_) fun k f hk hf => ?_
  · have hf' : u.event? ⟨i, k⟩ = some f := Array.getElem?_toList.symm.trans hf
    have he' : t.event? (ms.thin ⟨i, k⟩) = some e := Array.getElem?_toList.symm.trans he
    obtain ⟨e', he'', halike⟩ := h.event?_thin hf' hk
    rw [he'] at he''
    cases he''
    rw [ht.ref_eq he', hu.ref_eq hf', halike.kind_eq]
    split <;> rfl
  · rw [if_neg]
    · rfl
    · intro hbarrier
      have hquiet := ((h.thins i).spare k f hk hf).quiet.1
      rw [hbarrier] at hquiet
      cases hquiet

/-! ### Links of the full trace -/

variable {s s' : Choice} (hs : s.Agree ms u s')

include hs

/-- A link of the full trace is a path of the thinner one, or it stays at one point. -/
theorem linked_thin (ht : t.WellFormed) (hu : u.WellFormed) {p q : Point}
    (hpq : Linked u s' p q) :
    TransGen (Linked t s) (thinPoint ms t p) (thinPoint ms t q) ∨
      thinPoint ms t p = thinPoint ms t q ∧ place u p < place u q := by
  cases hpq with
  | basic hbasic =>
    cases hbasic with
    | first hi =>
      rw [thinPoint_pointAt h]
      exact Or.inl (.single (.basic (.first (h.threadCount ▸ hi))))
    | @next r f hf =>
      rw [pointAfter_eq, thinPoint_pointAt h]
      obtain ⟨m, hm⟩ := (h.thins r.thread).exists_mask (Array.getElem?_toList.trans hf)
      cases m with
      | true =>
        obtain ⟨e, he, -⟩ := h.event?_thin hf hm
        rw [thinPoint_event h hm, rank_succ_of_true hm]
        exact Or.inl (.single (.basic (.next he)))
      | false =>
        rw [rank_succ_of_false hm]
        exact Or.inr ⟨rfl, (Basic.next hf).place_lt hu⟩
    | @fork r f child hf hfork =>
      have hr : ms.Marks r := h.marks hf fun hquiet => by
        rw [hfork] at hquiet
        cases hquiet.1
      obtain ⟨e, he, halike⟩ := h.event?_thin hf hr
      rw [thinPoint_event h hr]
      exact Or.inl (.single (.basic (.fork he (halike.kind_eq.trans hfork))))
  | @join r f child hf hjoin hkept =>
    have hr : ms.Marks r := h.marks hf fun hquiet => by
      rw [hjoin] at hquiet
      cases hquiet.1
    obtain ⟨e, he, halike⟩ := h.event?_thin hf hr
    rw [thinPoint_event h hr]
    have hkept' := (hs.joins r f child hf hjoin).2 hkept
    exact Or.inl (.single (.join he (halike.kind_eq.trans hjoin) hkept'))
  | @barrier group k members m m' r r' hgroup hkept hm hr hm' hr' =>
    have hmarks : ∀ {i q}, (barriersOf u i)[k]? = some q →
        ms.Marks q ∧ (barriersOf t i)[k]? = some (ms.thin q) := by
      intro i q hq
      obtain ⟨-, f, hf, hbarrier⟩ := event?_of_barrier hu hq
      refine ⟨h.marks hf fun hquiet => ?_, ?_⟩
      · rw [hbarrier] at hquiet
        cases hquiet.1
      · rw [barriersOf_thin h ht hu, List.getElem?_map, hq]
        rfl
    obtain ⟨hmark, hthin⟩ := hmarks hr
    obtain ⟨hmark', hthin'⟩ := hmarks hr'
    have hafter : thinPoint ms t (pointAfter u r') = pointAfter t (ms.thin r') := by
      rw [pointAfter_eq, thinPoint_pointAt h, rank_succ_of_true hmark']
      rfl
    rw [thinPoint_event h hmark, hafter]
    have hgroup' : s.groups[group]? = some members := hs.groups ▸ hgroup
    exact Or.inl (.single (.barrier hgroup' ((hs.kept group).2 hkept) hm hthin hm' hthin'))

/-- A path of the full trace is a path of the thinner one, or it stays at one point. -/
theorem transGen_thin (ht : t.WellFormed) (hu : u.WellFormed) {p q : Point}
    (hpq : TransGen (Linked u s') p q) :
    TransGen (Linked t s) (thinPoint ms t p) (thinPoint ms t q) ∨
      thinPoint ms t p = thinPoint ms t q ∧ place u p < place u q := by
  induction hpq with
  | single hpq => exact linked_thin h hs ht hu hpq
  | tail _ hqr ih =>
    rcases ih with hpath | ⟨heq, hlt⟩
    · rcases linked_thin h hs ht hu hqr with hstep | ⟨heq', -⟩
      · exact Or.inl (hpath.trans hstep)
      · exact Or.inl (heq' ▸ hpath)
    · rcases linked_thin h hs ht hu hqr with hstep | ⟨heq', hlt'⟩
      · exact Or.inl (heq ▸ hstep)
      · exact Or.inr ⟨heq.trans heq', hlt.trans hlt'⟩

/-! ### Links of the thinner trace -/

omit hs in
/-- A point of a thread of the full trace leads to the kept points behind it. -/
theorem leads_of_rank {i : ThreadId} {j k : Nat} (hj : j ≤ (u.eventsOf i).size)
    (hjk : rank (ms i) j ≤ k) {q : Point} (hq : PointKept ms q)
    (heq : thinPoint ms t q = pointAt t i k) : ReflTransGen (Basic u) (pointAt u i j) q := by
  unfold pointAt at heq
  split at heq
  · obtain ⟨r, rfl, hr, hthin⟩ := eq_event_of_thinPoint h hq heq
    obtain ⟨i', j'⟩ := r
    obtain rfl : i' = i := congrArg EventRef.thread hthin
    have hrank : rank (ms i') j' = k := congrArg EventRef.index hthin
    obtain ⟨f, hf⟩ := h.exists_event hr
    rw [← pointAt_event hf]
    refine pointAt_leads ?_ (Trace.event?_isSome_iff.1 ⟨f, hf⟩).le
    by_contra hlt
    exact absurd (hrank ▸ hjk) (Nat.not_le.2 (rank_lt hr (Nat.lt_of_not_le hlt)))
  · obtain rfl := eq_finish_of_thinPoint h hq heq
    rw [← pointAt_size]
    exact pointAt_leads hj (Nat.le_refl _)

/-- A link between kept points of the thinner trace is a path of the full one. -/
theorem linked_full (ht : t.WellFormed) (hu : u.WellFormed) {p q a b : Point}
    (hp : PointKept ms p) (hq : PointKept ms q) (hpa : thinPoint ms t p = a)
    (hqb : thinPoint ms t q = b) (hab : Linked t s a b) : TransGen (Linked u s') p q := by
  have hlead : ∀ {x y}, ReflTransGen (Basic u) x y → ReflTransGen (Linked u s') x y :=
    fun hxy => ReflTransGen.mono (fun _ _ hstep => .basic hstep) _ _ hxy
  cases hab with
  | basic hbasic =>
    cases hbasic with
    | @first i hi =>
      obtain rfl := eq_start_of_thinPoint hpa
      refine .head' (.basic (.first (h.threadCount ▸ hi))) (hlead ?_)
      exact leads_of_rank h (Nat.zero_le _) (Nat.le_refl _) hq hqb
    | @next r e he =>
      obtain ⟨r, rfl, hr, rfl⟩ := eq_event_of_thinPoint h hp hpa
      obtain ⟨f, hf⟩ := h.exists_event hr
      refine .head' (.basic (.next hf)) (hlead ?_)
      exact leads_of_rank h (Trace.event?_isSome_iff.1 ⟨f, hf⟩) (rank_succ_of_true hr).le hq hqb
    | @fork r e child he hfork =>
      obtain ⟨r, rfl, hr, rfl⟩ := eq_event_of_thinPoint h hp hpa
      obtain rfl := eq_start_of_thinPoint hqb
      obtain ⟨f, hf⟩ := h.exists_event hr
      obtain ⟨e', he', halike⟩ := h.event?_thin hf hr
      rw [he] at he'
      cases he'
      exact .single (.basic (.fork hf (halike.kind_eq.symm.trans hfork)))
  | @join r e child he hjoin hkept =>
    obtain rfl := eq_finish_of_thinPoint h hp hpa
    obtain ⟨r, rfl, hr, rfl⟩ := eq_event_of_thinPoint h hq hqb
    obtain ⟨f, hf⟩ := h.exists_event hr
    obtain ⟨e', he', halike⟩ := h.event?_thin hf hr
    rw [he] at he'
    cases he'
    have hjoin' := halike.kind_eq.symm.trans hjoin
    exact .single (.join hf hjoin' ((hs.joins r f child hf hjoin').1 hkept))
  | @barrier group k members m m' r r' hgroup hkept hm hr hm' hr' =>
    have hfull : ∀ {i q}, (barriersOf t i)[k]? = some q →
        ∃ q', (barriersOf u i)[k]? = some q' ∧ ms.thin q' = q ∧ q'.thread = i ∧ ms.Marks q' := by
      intro i q hq
      rw [barriersOf_thin h ht hu, List.getElem?_map] at hq
      obtain ⟨q', hq', hthin⟩ := Option.map_eq_some_iff.1 hq
      obtain ⟨hthread, f, hf, hbarrier⟩ := event?_of_barrier hu hq'
      refine ⟨q', hq', hthin, hthread, h.marks hf fun hquiet => ?_⟩
      rw [hbarrier] at hquiet
      cases hquiet.1
    obtain ⟨q₁, hq₁, rfl, -, hmark₁⟩ := hfull hr
    obtain ⟨q₂, hq₂, rfl, hthread, hmark₂⟩ := hfull hr'
    obtain ⟨r₁, rfl, hr₁, hthin⟩ := eq_event_of_thinPoint h hp hpa
    obtain rfl := Masks.thin_inj hr₁ hmark₁ hthin
    obtain ⟨f, hf⟩ := h.exists_event hmark₂
    have hgroup' : s'.groups[group]? = some members := hs.groups ▸ hgroup
    refine .head' (.barrier hgroup' ((hs.kept group).1 hkept) hm hq₁ hm' hq₂) (hlead ?_)
    rw [pointAfter_eq]
    exact leads_of_rank h (Trace.event?_isSome_iff.1 ⟨f, hf⟩) (rank_succ_of_true hmark₂).le hq hqb

omit hs in
/-- Every point of the thinner trace that a link leaves is what a kept point stands for. -/
theorem exists_pointKept (ht : t.WellFormed) {a b : Point} (hab : Linked t s a b) :
    ∃ p, PointKept ms p ∧ thinPoint ms t p = a := by
  have hevent : ∀ {r e}, t.event? r = some e →
      ∃ p, PointKept ms p ∧ thinPoint ms t p = .event r := by
    intro r e he
    obtain ⟨q, f, hq, rfl, -⟩ := h.exists_marked he
    exact ⟨.event q, hq, thinPoint_event h hq⟩
  cases hab with
  | basic hbasic =>
    cases hbasic with
    | first => exact ⟨.start _, trivial, rfl⟩
    | next he => exact hevent he
    | fork he => exact hevent he
  | join => exact ⟨.finish _, trivial, rfl⟩
  | barrier hgroup hkept hm hr =>
    obtain ⟨-, e, he, -⟩ := event?_of_barrier ht hr
    exact hevent he

/-- A path from a kept point of the thinner trace is a path of the full one. -/
theorem transGen_full (ht : t.WellFormed) (hu : u.WellFormed) {p q a b : Point}
    (hp : PointKept ms p) (hq : PointKept ms q) (hpa : thinPoint ms t p = a)
    (hqb : thinPoint ms t q = b) (hab : TransGen (Linked t s) a b) :
    TransGen (Linked u s') p q := by
  induction hab generalizing q with
  | single hab => exact linked_full h hs ht hu hp hq hpa hqb hab
  | tail _ hbc ih =>
    obtain ⟨x, hx, hxb⟩ := exists_pointKept h ht hbc
    exact (ih hx hxb).trans (linked_full h hs ht hu hx hq hxb hqb hbc)

end HappensBefore

namespace Trace.Thinned

open HappensBefore Relation

variable {s s' : Choice} (h : t.Thinned u ms) (hs : s.Agree ms u s')

include h hs

/-- Paths between kept points are the same in both traces. -/
theorem transGen_iff (ht : t.WellFormed) (hu : u.WellFormed) {p q : Point}
    (hp : PointKept ms p) (hq : PointKept ms q) :
    TransGen (Linked t s) (thinPoint ms t p) (thinPoint ms t q) ↔ TransGen (Linked u s') p q := by
  constructor
  · exact transGen_full h hs ht hu hp hq rfl rfl
  · intro hpq
    refine (transGen_thin h hs ht hu hpq).resolve_right ?_
    rintro ⟨heq, hlt⟩
    exact lt_irrefl _ (thinPoint_inj h hp hq heq ▸ hlt)

/-- One trace has circles exactly if the other has. -/
theorem acyclic_iff (ht : t.WellFormed) (hu : u.WellFormed) :
    (∀ p, ¬ TransGen (Linked t s) p p) ↔ ∀ p, ¬ TransGen (Linked u s') p p := by
  constructor
  · intro hthin p hp
    rcases transGen_thin h hs ht hu hp with hpath | ⟨-, hlt⟩
    · exact hthin _ hpath
    · exact lt_irrefl _ hlt
  · intro hfull a ha
    obtain ⟨b, hab, -⟩ := TransGen.head'_iff.1 ha
    obtain ⟨p, hp, hpa⟩ := exists_pointKept h ht hab
    exact hfull p (transGen_full h hs ht hu hp hp hpa hpa ha)

end Trace.Thinned

end DataRace
