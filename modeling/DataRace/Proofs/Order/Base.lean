import DataRace.Order.HappensBefore
import DataRace.Proofs.Order.Graph
import DataRace.Proofs.Trace.Events
import Mathlib.Data.Prod.Lex

/-!
# Program order and forks

`HappensBefore.Basic` is the relation of program order and forks, with a start and an end for every
thread.  It is the edge relation of the graph that everything else is added to (`edge_base`).  In a
well-formed trace forks lead to later threads only, so the relation has no circles
(`acyclic_base`).
-/

namespace DataRace

namespace HappensBefore

open Relation OrderGraph

/-- The point of a thread at an event number: the event, or the end of the thread behind its last
event. -/
def pointAt (t : Trace) (thread : ThreadId) (index : Nat) : Point :=
  if index < (t.eventsOf thread).size then .event ⟨thread, index⟩ else .finish thread

/-- The point after an event is the point of its thread at the next number. -/
theorem pointAfter_eq (t : Trace) (r : EventRef) :
    pointAfter t r = pointAt t r.thread (r.index + 1) := rfl

/-- Program order and forks, one step at a time. -/
inductive Basic (t : Trace) : Point → Point → Prop
  /-- A thread starts before its first event. -/
  | first {thread : ThreadId} (h : thread < t.threadCount) :
      Basic t (.start thread) (pointAt t thread 0)
  /-- An event comes before the next event of its thread. -/
  | next {r : EventRef} {e : Event} (he : t.event? r = some e) : Basic t (.event r) (pointAfter t r)
  /-- A fork comes before the child starts. -/
  | fork {r : EventRef} {e : Event} {child : ThreadId} (he : t.event? r = some e)
      (hfork : e.kind = .fork child) : Basic t (.event r) (.start child)

/-! ### The graph of program order and forks -/

/-- Neighbours in a list stand at successive positions. -/
theorem mem_chainEdges {l : List Point} {a b : Point} :
    (a, b) ∈ chainEdges l ↔ ∃ k, l[k]? = some a ∧ l[k + 1]? = some b := by
  fun_induction chainEdges l with
  | case1 x y rest ih =>
    rw [List.mem_cons, ih]
    constructor
    · rintro (h | ⟨k, hk⟩)
      · cases h
        exact ⟨0, rfl, rfl⟩
      · exact ⟨k + 1, hk⟩
    · rintro ⟨k, hk⟩
      cases k with
      | zero =>
        obtain ⟨hx, hy⟩ := hk
        cases hx
        cases hy
        exact Or.inl rfl
      | succ k => exact Or.inr ⟨k, hk⟩
  | case2 l hl =>
    constructor
    · intro h
      cases h
    · rintro ⟨k, ha, hb⟩
      match l, hl with
      | [], _ => cases ha
      | [x], _ => cases hb
      | x :: y :: rest, hl => exact absurd rfl (hl x y rest)

variable {t : Trace}

/-- The events of a thread of the table. -/
theorem eventsOf_eq {i : ThreadId} {th : Thread} (hth : t.threads[i]? = some th) :
    t.eventsOf i = th.events := by
  unfold Trace.eventsOf
  rw [hth]

/-- The points of a thread by position: its start, its events, its end. -/
theorem getElem?_pointsOf (ht : t.WellFormed) {i : ThreadId} {th : Thread}
    (hth : t.threads[i]? = some th) (k : Nat) :
    (pointsOf th)[k]? =
      match k with
      | 0 => some (.start i)
      | k + 1 => if k ≤ (t.eventsOf i).size then some (pointAt t i k) else none := by
  have hid : th.id = i := ht.id_eq i th hth
  cases k with
  | zero =>
    rw [← hid]
    rfl
  | succ k =>
    unfold pointsOf pointAt
    rw [List.cons_append, List.getElem?_cons_succ, List.getElem?_append, List.length_map,
      Array.length_toList, List.getElem?_map, Array.getElem?_toList, eventsOf_eq hth, hid]
    dsimp only
    by_cases hk : k < th.events.size
    · have he := Array.getElem?_eq_getElem hk
      have href : (th.events[k]).ref = ⟨i, k⟩ := by
        have hfit := ht.fits i th hth k _ he
        unfold Event.ref
        rw [hfit.thread_eq, hfit.index_eq]
      rw [if_pos hk, he, if_pos hk.le, if_pos hk, Option.map_some, href]
    · rw [if_neg hk, if_neg hk]
      by_cases hle : k ≤ th.events.size
      · obtain rfl : k = th.events.size := hle.antisymm (Nat.le_of_not_lt hk)
        rw [if_pos hle, Nat.sub_self]
        rfl
      · rw [if_neg hle, List.getElem?_eq_none]
        rw [List.length_singleton]
        omega

/-- The points of a graph of program order and forks: a start and an end for every thread, and the
events. -/
theorem mem_points_base (ht : t.WellFormed) {p : Point} :
    p ∈ (base t).points ↔
      (∃ i < t.threadCount, p = .start i ∨ p = .finish i) ∨
        ∃ r e, t.event? r = some e ∧ p = .event r := by
  unfold base
  simp only [List.mem_flatMap, Array.mem_toList_iff, Array.mem_iff_getElem?, pointsOf,
    List.cons_append, List.mem_cons, List.mem_append, List.mem_map, List.not_mem_nil, or_false]
  constructor
  · rintro ⟨th, ⟨i, hi⟩, rfl | ⟨e, ⟨j, hj⟩, rfl⟩ | rfl⟩
    · exact Or.inl ⟨i, (Array.getElem?_eq_some_iff.1 hi).1, Or.inl (ht.id_eq i th hi ▸ rfl)⟩
    · have he : e ∈ t.events := Trace.mem_events_iff.2 ⟨i, th, hi, j, hj⟩
      exact Or.inr ⟨e.ref, e, ht.mem_events.1 he, rfl⟩
    · exact Or.inl ⟨i, (Array.getElem?_eq_some_iff.1 hi).1, Or.inr (ht.id_eq i th hi ▸ rfl)⟩
  · rintro (⟨i, hi, hp⟩ | ⟨r, e, he, rfl⟩)
    · have hth := Array.getElem?_eq_getElem hi
      have hid := ht.id_eq i _ hth
      refine ⟨_, ⟨i, hth⟩, ?_⟩
      rw [hid]
      rcases hp with rfl | rfl
      · exact Or.inl rfl
      · exact Or.inr (Or.inr rfl)
    · obtain ⟨th, hth, hj⟩ := Trace.event?_eq_some_iff.1 he
      exact ⟨th, ⟨_, hth⟩, Or.inr (Or.inl ⟨e, ⟨_, hj⟩, by rw [ht.ref_eq he]⟩)⟩

/-- The edges of the graph of program order and forks. -/
theorem edge_base (ht : t.WellFormed) {a b : Point} : (base t).Edge a b ↔ Basic t a b := by
  have hchain : (∃ th ∈ t.threads.toList, (a, b) ∈ chainEdges (pointsOf th)) ↔
      ∃ i < t.threadCount, ∃ k, (a = .start i ∧ k = 0 ∨ ∃ j, k = j + 1 ∧
        j < (t.eventsOf i).size ∧ a = .event ⟨i, j⟩) ∧ b = pointAt t i k := by
    constructor
    · rintro ⟨th, hth, hab⟩
      obtain ⟨i, hi⟩ := Array.mem_iff_getElem?.1 (Array.mem_toList_iff.1 hth)
      obtain ⟨k, ha, hb⟩ := mem_chainEdges.1 hab
      rw [getElem?_pointsOf ht hi] at ha hb
      dsimp only at hb
      split at hb
      · next hk =>
        cases hb
        refine ⟨i, (Array.getElem?_eq_some_iff.1 hi).1, k, ?_, rfl⟩
        cases k with
        | zero =>
          cases ha
          exact Or.inl ⟨rfl, rfl⟩
        | succ j =>
          dsimp only at ha
          rw [if_pos (Nat.le_of_succ_le hk)] at ha
          cases ha
          exact Or.inr ⟨j, rfl, hk, if_pos hk⟩
      · cases hb
    · rintro ⟨i, hi, k, ha, rfl⟩
      have hth := Array.getElem?_eq_getElem hi
      refine ⟨_, Array.getElem_mem_toList hi, mem_chainEdges.2 ⟨k, ?_, ?_⟩⟩
      · rw [getElem?_pointsOf ht hth]
        rcases ha with ⟨rfl, rfl⟩ | ⟨j, rfl, hj, rfl⟩
        · rfl
        · dsimp only
          rw [if_pos hj.le, pointAt, if_pos hj]
      · rw [getElem?_pointsOf ht hth]
        dsimp only
        rw [if_pos]
        rcases ha with ⟨-, rfl⟩ | ⟨j, rfl, hj, -⟩
        · exact Nat.zero_le _
        · exact hj
  have hforks : (a, b) ∈ t.events.filterMap forkEdge? ↔
      ∃ r e child, t.event? r = some e ∧ e.kind = .fork child ∧ a = .event r ∧
        b = .start child := by
    rw [List.mem_filterMap]
    constructor
    · rintro ⟨e, he, hedge⟩
      unfold forkEdge? at hedge
      split at hedge
      · next child hkind =>
        cases hedge
        exact ⟨e.ref, e, child, ht.mem_events.1 he, hkind, rfl, rfl⟩
      · cases hedge
    · rintro ⟨r, e, child, he, hkind, rfl, rfl⟩
      have href := ht.ref_eq he
      refine ⟨e, ht.mem_events.2 (href.symm ▸ he), ?_⟩
      unfold forkEdge?
      rw [hkind, href]
  unfold OrderGraph.Edge base
  rw [List.mem_append, List.mem_flatMap, hchain, hforks]
  constructor
  · rintro (⟨i, hi, k, ⟨rfl, rfl⟩ | ⟨j, rfl, hj, rfl⟩, rfl⟩ | ⟨r, e, child, he, hkind, rfl, rfl⟩)
    · exact .first hi
    · obtain ⟨e, he⟩ := Trace.event?_isSome_iff.2 (show (⟨i, j⟩ : EventRef).index < _ from hj)
      exact .next he
    · exact .fork he hkind
  · rintro (hi | he | ⟨he, hkind⟩)
    · exact Or.inl ⟨_, hi, 0, Or.inl ⟨rfl, rfl⟩, rfl⟩
    · next r e =>
      have hj := Trace.event?_isSome_iff.1 ⟨e, he⟩
      exact Or.inl ⟨r.thread, Trace.thread_lt he, r.index + 1, Or.inr ⟨r.index, rfl, hj, rfl⟩, rfl⟩
    · exact Or.inr ⟨_, _, _, he, hkind, rfl, rfl⟩

/-! ### No circles -/

/-- The points that events and threads have are points of the graph. -/
theorem pointAt_mem (ht : t.WellFormed) {thread : ThreadId} (h : thread < t.threadCount)
    (index : Nat) : pointAt t thread index ∈ (base t).points := by
  rw [mem_points_base ht]
  unfold pointAt
  split
  · next hindex =>
    obtain ⟨e, he⟩ :=
      Trace.event?_isSome_iff.2 (show (⟨thread, index⟩ : EventRef).index < _ from hindex)
    exact Or.inr ⟨_, e, he, rfl⟩
  · exact Or.inl ⟨thread, h, Or.inr rfl⟩

/-- Program order and forks join points of the graph. -/
theorem closed_base (ht : t.WellFormed) : (base t).Closed := by
  intro a b hab
  rw [edge_base ht] at hab
  cases hab with
  | @first thread h =>
    exact ⟨(mem_points_base ht).2 (Or.inl ⟨thread, h, Or.inl rfl⟩), pointAt_mem ht h 0⟩
  | @next r e he =>
    exact ⟨(mem_points_base ht).2 (Or.inr ⟨r, e, he, rfl⟩),
      pointAt_mem ht (Trace.thread_lt he) (r.index + 1)⟩
  | @fork r e child he hfork =>
    obtain ⟨-, th, hth, -⟩ := (ht.fits_event? he).fork child hfork
    exact ⟨(mem_points_base ht).2 (Or.inr ⟨r, e, he, rfl⟩),
      (mem_points_base ht).2 (Or.inl ⟨child, (Array.getElem?_eq_some_iff.1 hth).1, Or.inl rfl⟩)⟩

/-- The place of a point: its thread, and its position there.  Meeting points have none. -/
def place (t : Trace) : Point → ℕ ×ₗ ℕ
  | .start thread => toLex (thread, 0)
  | .event r => toLex (r.thread, r.index + 1)
  | .finish thread => toLex (thread, (t.eventsOf thread).size + 1)
  | .meet _ _ => toLex (0, 0)

/-- A point behind all events before an event number has a place behind them. -/
theorem lt_place_pointAt {thread : ThreadId} {index k : Nat} (hk : k ≤ index)
    (hle : index ≤ (t.eventsOf thread).size) :
    toLex ((thread : ℕ), k) < place t (pointAt t thread index) := by
  unfold pointAt
  split
  · exact Prod.Lex.toLex_lt_toLex.2 (Or.inr ⟨rfl, Nat.lt_succ_of_le hk⟩)
  · exact Prod.Lex.toLex_lt_toLex.2 (Or.inr ⟨rfl, Nat.lt_succ_of_le (hk.trans hle)⟩)

/-- Program order and forks lead to later places. -/
theorem Basic.place_lt (ht : t.WellFormed) {a b : Point} (h : Basic t a b) :
    place t a < place t b := by
  cases h with
  | first h => exact lt_place_pointAt (Nat.le_refl 0) (Nat.zero_le _)
  | @next r e he => exact lt_place_pointAt (Nat.le_refl _) (Trace.event?_isSome_iff.1 ⟨e, he⟩)
  | @fork r e child he hfork =>
    exact Prod.Lex.toLex_lt_toLex.2 (Or.inl ((ht.fits_event? he).fork child hfork).1)

/-- Program order and forks have no circles. -/
theorem acyclic_base (ht : t.WellFormed) : (base t).Acyclic := by
  have hplace : ∀ a b, TransGen (base t).Edge a b → place t a < place t b := by
    intro a b hab
    induction hab with
    | single hab => exact ((edge_base ht).1 hab).place_lt ht
    | tail _ hbc ih => exact ih.trans (((edge_base ht).1 hbc).place_lt ht)
  intro p hp
  exact lt_irrefl _ (hplace p p hp)

/-! ### Program order -/

/-- The events and the end of a thread come one after the other. -/
theorem pointAt_leads {i : ThreadId} {j k : Nat} (hjk : j ≤ k) (hk : k ≤ (t.eventsOf i).size) :
    ReflTransGen (Basic t) (pointAt t i j) (pointAt t i k) := by
  induction k, hjk using Nat.le_induction with
  | base => exact .refl
  | succ k hjk ih =>
    have hlt : (⟨i, k⟩ : EventRef).index < (t.eventsOf i).size := hk
    obtain ⟨e, he⟩ := Trace.event?_isSome_iff.2 hlt
    have hstep : Basic t (pointAt t i k) (pointAt t i (k + 1)) := by
      rw [show pointAt t i k = .event ⟨i, k⟩ from if_pos hlt]
      exact .next he
    exact (ih (Nat.le_of_succ_le hk)).tail hstep

/-- The point of an event that exists is the event. -/
theorem pointAt_event {r : EventRef} {e : Event} (he : t.event? r = some e) :
    pointAt t r.thread r.index = .event r :=
  if_pos (Trace.event?_isSome_iff.1 ⟨e, he⟩)

/-- The last point of a thread is its end. -/
theorem pointAt_size (t : Trace) (i : ThreadId) :
    pointAt t i (t.eventsOf i).size = .finish i :=
  if_neg (Nat.lt_irrefl _)

/-- Events of one thread are ordered by their numbers. -/
theorem event_leads {a b : EventRef} {ea eb : Event} (ha : t.event? a = some ea)
    (hb : t.event? b = some eb) (hthread : a.thread = b.thread) (hlt : a.index < b.index) :
    TransGen (Basic t) (.event a) (.event b) := by
  have hpath : ReflTransGen (Basic t) (pointAfter t a) (.event b) := by
    rw [← pointAt_event hb, ← hthread]
    refine pointAt_leads hlt ?_
    rw [hthread]
    exact (Trace.event?_isSome_iff.1 ⟨eb, hb⟩).le
  exact .head' (.next ha) hpath

/-- An event comes before the end of its thread. -/
theorem event_leads_finish {a : EventRef} {ea : Event} (ha : t.event? a = some ea) :
    TransGen (Basic t) (.event a) (.finish a.thread) := by
  have hpath : ReflTransGen (Basic t) (pointAfter t a) (.finish a.thread) := by
    rw [← pointAt_size t a.thread]
    exact pointAt_leads (Trace.event?_isSome_iff.1 ⟨ea, ha⟩) (Nat.le_refl _)
  exact .head' (.next ha) hpath

end HappensBefore

end DataRace
