import DataRace.Proofs.Trace.Forest
import Mathlib.Order.Lattice

/-!
# The events of a trace

Events are ordered by thread and number (`EventRef.Lt`).  In a well-formed trace the listed events
are exactly those that can be looked up by their name (`Trace.WellFormed.mem_events`), and the list
is strictly ascending (`Trace.WellFormed.sorted_events`).
-/

namespace DataRace

namespace EventRef

/-- One event name comes before another: by thread, then by number. -/
def Lt (a b : EventRef) : Prop := a.thread < b.thread ∨ a.thread = b.thread ∧ a.index < b.index

/-- No event comes before itself. -/
theorem Lt.irrefl (a : EventRef) : ¬ a.Lt a := by
  rintro (h | ⟨-, h⟩)
  · exact Nat.lt_irrefl _ h
  · exact Nat.lt_irrefl _ h

/-- The order of events is transitive. -/
theorem Lt.trans {a b c : EventRef} (hab : a.Lt b) (hbc : b.Lt c) : a.Lt c := by
  rcases hab with hab | ⟨hab, hab'⟩
  · rcases hbc with hbc | ⟨hbc, -⟩
    · exact Or.inl (Nat.lt_trans hab hbc)
    · exact Or.inl (hbc ▸ hab)
  · rcases hbc with hbc | ⟨hbc, hbc'⟩
    · exact Or.inl (hab ▸ hbc)
    · exact Or.inr ⟨hab.trans hbc, Nat.lt_trans hab' hbc'⟩

/-- Of two different events one comes before the other. -/
theorem lt_or_gt_of_ne {a b : EventRef} (h : a ≠ b) : a.Lt b ∨ b.Lt a := by
  rcases Nat.lt_trichotomy a.thread b.thread with ht | ht | ht
  · exact Or.inl (Or.inl ht)
  · rcases Nat.lt_trichotomy a.index b.index with hi | hi | hi
    · exact Or.inl (Or.inr ⟨ht, hi⟩)
    · exact absurd (show a = b by cases a; cases b; cases ht; cases hi; rfl) h
    · exact Or.inr (Or.inr ⟨ht.symm, hi⟩)
  · exact Or.inr (Or.inl ht)

/-- Events are compared by their names. -/
theorem ble_iff {a b : EventRef} : a.ble b = true ↔ a.Lt b ∨ a = b := by
  simp only [ble, Bool.or_eq_true, Bool.and_eq_true, decide_eq_true_eq, beq_iff_eq]
  constructor
  · rintro (h | ⟨ht, hi⟩)
    · exact Or.inl (Or.inl h)
    · rcases Nat.lt_or_eq_of_le hi with hi | hi
      · exact Or.inl (Or.inr ⟨ht, hi⟩)
      · exact Or.inr (by cases a; cases b; cases ht; cases hi; rfl)
  · rintro ((h | ⟨ht, hi⟩) | rfl)
    · exact Or.inl h
    · exact Or.inr ⟨ht, Nat.le_of_lt hi⟩
    · exact Or.inr ⟨rfl, Nat.le_refl _⟩

end EventRef

namespace Trace

variable {t : Trace}

/-- The events of a trace are those of its threads. -/
theorem mem_events_iff {e : Event} :
    e ∈ t.events ↔
      ∃ (i : ThreadId) (th : Thread), t.threads[i]? = some th ∧
        ∃ j : Nat, th.events[j]? = some e := by
  simp only [events, List.mem_flatMap, Array.mem_toList_iff, Array.mem_iff_getElem?]
  constructor
  · rintro ⟨th, ⟨i, hi⟩, hj⟩
    exact ⟨i, th, hi, hj⟩
  · rintro ⟨i, th, hi, hj⟩
    exact ⟨th, ⟨i, hi⟩, hj⟩

/-- An event that is looked up stands in a thread. -/
theorem event?_eq_some_iff {r : EventRef} {e : Event} :
    t.event? r = some e ↔
      ∃ th, t.threads[r.thread]? = some th ∧ th.events[r.index]? = some e := by
  unfold event? eventsOf
  cases t.threads[r.thread]? <;> simp

/-- An event exists exactly if its number is below the number of events of its thread. -/
theorem event?_isSome_iff {r : EventRef} :
    (∃ e, t.event? r = some e) ↔ r.index < (t.eventsOf r.thread).size := by
  unfold event?
  rw [← Option.isSome_iff_exists, isSome_getElem?]

/-- A thread with events exists. -/
theorem thread_lt {r : EventRef} {e : Event} (h : t.event? r = some e) :
    r.thread < t.threadCount := by
  obtain ⟨th, hth, -⟩ := event?_eq_some_iff.1 h
  exact (Array.getElem?_eq_some_iff.1 hth).1

namespace WellFormed

variable (ht : t.WellFormed)

include ht

/-- An event that is looked up has the name that it was looked up by. -/
theorem ref_eq {r : EventRef} {e : Event} (h : t.event? r = some e) : e.ref = r := by
  obtain ⟨th, hth, he⟩ := event?_eq_some_iff.1 h
  have hfit := ht.fits _ th hth _ e he
  unfold Event.ref
  rw [hfit.thread_eq, hfit.index_eq]

/-- The events of a trace are those that are found by their names. -/
theorem mem_events {e : Event} : e ∈ t.events ↔ t.event? e.ref = some e := by
  rw [mem_events_iff, event?_eq_some_iff]
  constructor
  · rintro ⟨i, th, hth, j, he⟩
    have hfit := ht.fits i th hth j e he
    obtain rfl : e.thread = i := hfit.thread_eq
    obtain rfl : e.index = j := hfit.index_eq
    exact ⟨th, hth, he⟩
  · rintro ⟨th, hth, he⟩
    exact ⟨_, th, hth, _, he⟩

/-- An event that is looked up suits its place. -/
theorem fits_event? {r : EventRef} {e : Event} (h : t.event? r = some e) :
    e.Fits t.arena t.threads r.thread (t.eventsOf r.thread) r.index := by
  obtain ⟨th, hth, he⟩ := event?_eq_some_iff.1 h
  have hevents : t.eventsOf r.thread = th.events := by
    unfold eventsOf
    rw [hth]
  rw [hevents]
  exact ht.fits _ th hth _ e he

/-- A thread is started by one event. -/
theorem fork_unique {q r : EventRef} {d e : Event} {child : ThreadId} (hd : t.event? q = some d)
    (he : t.event? r = some e) (hfork : d.kind = .fork child) (hfork' : e.kind = .fork child) :
    q = r := by
  obtain ⟨-, th, hth, hsite, -⟩ := (ht.fits_event? hd).fork child hfork
  obtain ⟨-, th', hth', hsite', -⟩ := (ht.fits_event? he).fork child hfork'
  cases hth.symm.trans hth'
  exact Option.some.inj (hsite.symm.trans hsite')

/-- Every event has a node. -/
theorem exists_node {e : Event} (h : e ∈ t.events) : ∃ n, t.arena.get? e.node = some n := by
  obtain ⟨n, hn, -⟩ := (ht.fits_event? (ht.mem_events.1 h)).node
  exact ⟨n, hn⟩

/-- A thread is started by an earlier one. -/
theorem starts_lt {a b : ThreadId} (h : Thread.Starts t.threads a b) : a < b := by
  obtain ⟨th, hth, hparent⟩ := h
  unfold Thread.parent? at hparent
  rcases Nat.eq_zero_or_pos b with rfl | hb
  · rw [ht.root th hth] at hparent
    cases hparent
  · obtain ⟨s, hsite, hlt, -⟩ := ht.sited b th hth hb
    rw [hsite] at hparent
    cases hparent
    exact hlt

/-- The threads that a thread leads to are not before it. -/
theorem descends_le {a b : ThreadId} (h : Relation.ReflTransGen (Thread.Starts t.threads) a b) :
    a ≤ b := by
  induction h with
  | refl => exact Nat.le_refl _
  | tail _ hstart ih => exact ih.trans (ht.starts_lt hstart).le

/-- The events of a trace are listed in ascending order. -/
theorem sorted_events : t.events.Pairwise fun a b => a.ref.Lt b.ref := by
  unfold events
  rw [List.flatMap_def, List.pairwise_flatten]
  refine ⟨?_, ?_⟩
  · intro l hl
    obtain ⟨th, hth, rfl⟩ := List.mem_map.1 hl
    obtain ⟨i, hi⟩ := Array.mem_iff_getElem?.1 (Array.mem_toList_iff.1 hth)
    rw [List.pairwise_iff_getElem]
    intro j k hj hk hjk
    have hfitj := ht.fits i th hi j _ (Array.getElem?_eq_getElem (by simpa using hj))
    have hfitk := ht.fits i th hi k _ (Array.getElem?_eq_getElem (by simpa using hk))
    refine Or.inr ⟨?_, ?_⟩
    · exact hfitj.thread_eq.trans hfitk.thread_eq.symm
    · exact hfitj.index_eq.trans_lt (hjk.trans_eq hfitk.index_eq.symm)
  · rw [List.pairwise_map, List.pairwise_iff_getElem]
    intro i k hi hk hik a ha b hb
    obtain ⟨j, hj⟩ := Array.mem_iff_getElem?.1 (Array.mem_toList_iff.1 ha)
    obtain ⟨l, hl⟩ := Array.mem_iff_getElem?.1 (Array.mem_toList_iff.1 hb)
    have hfita := ht.fits i _ (Array.getElem?_eq_getElem (by simpa using hi)) j a hj
    have hfitb := ht.fits k _ (Array.getElem?_eq_getElem (by simpa using hk)) l b hl
    exact Or.inl (hfita.thread_eq.trans_lt (hik.trans_eq hfitb.thread_eq.symm))

end WellFormed

end Trace

end DataRace
