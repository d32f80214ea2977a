import DataRace.Proofs.Order.Counts

/-!
# The order of clocks

A clock is at most another one if each of its counts is, and threads beyond the end of a clock count
zero.  So clocks of any lengths are ordered by their counts: two clocks that are at most each other
are the same up to zeros at the end (`VectorClock.Alike`).

Joining two clocks gives a least clock that is at least both, and this determines the join up to
zeros at the end (`VectorClock.isSupremum_iff`).  A join does not depend on the order or the number
of the clocks that are joined, not even in its length, which is why the clock of a point may be
joined from those before it in any order.  All laws together are `VectorClock.order_by_counts`.
-/

namespace DataRace

namespace VectorClock

variable {a b c d : VectorClock}

/-- Clocks that are the same up to zeros at the end. -/
def Alike (a b : VectorClock) : Prop :=
  ∃ counts k l, a.counts = counts ++ List.replicate k 0 ∧ b.counts = counts ++ List.replicate l 0

/-- Zeros at the end change no count. -/
theorem get_append_zeros (counts : List Nat) (k t : Nat) :
    get ⟨counts ++ List.replicate k 0⟩ t = counts.getD t 0 := by
  have hpad : pad counts (counts.length + k) = counts ++ List.replicate k 0 := by
    rw [pad, Nat.add_sub_cancel_left]
  rw [get, ← hpad, getD_pad]

/-- A clock with the same counts as a shorter one is that one with zeros at the end. -/
theorem counts_eq_pad (hlength : a.counts.length ≤ b.counts.length)
    (h : ∀ t, a.get t = b.get t) : b.counts = pad a.counts b.counts.length := by
  have heq : b = ⟨pad a.counts b.counts.length⟩ := by
    refine eq_of_get_eq ?_ fun t => ?_
    · rw [length_pad, Nat.max_eq_right hlength]
    · rw [← h t, get, get, getD_pad]
  exact congrArg counts heq

/-- Clocks are the same up to zeros at the end exactly if every thread has the same count. -/
theorem alike_iff : a.Alike b ↔ ∀ t, a.get t = b.get t := by
  constructor
  · rintro ⟨counts, k, l, ha, hb⟩ t
    obtain ⟨as⟩ := a
    obtain ⟨bs⟩ := b
    dsimp only at ha hb
    rw [ha, hb, get_append_zeros, get_append_zeros]
  · intro h
    rcases Nat.le_total a.counts.length b.counts.length with hlength | hlength
    · exact ⟨a.counts, 0, _, (List.append_nil _).symm, counts_eq_pad hlength h⟩
    · exact ⟨b.counts, _, 0, counts_eq_pad hlength fun t => (h t).symm, (List.append_nil _).symm⟩

/-! ### The order -/

/-- A clock is at most itself. -/
protected theorem le_refl (a : VectorClock) : a.le a = true := le_iff.2 fun _ => Nat.le_refl _

/-- Clocks that are ordered one after the other are ordered. -/
protected theorem le_trans (hab : a.le b = true) (hbc : b.le c = true) : a.le c = true :=
  le_iff.2 fun t => (le_iff.1 hab t).trans (le_iff.1 hbc t)

/-- Two clocks are at most each other exactly if every thread has the same count. -/
theorem le_and_le_iff : a.le b = true ∧ b.le a = true ↔ ∀ t, a.get t = b.get t := by
  rw [le_iff, le_iff, ← forall_and]
  exact forall_congr' fun t => Nat.le_antisymm_iff.symm

/-! ### Joins -/

/-- A least clock among those that are at least two clocks. -/
structure IsSupremum (d a b : VectorClock) : Prop where
  left : a.le d = true
  right : b.le d = true
  least : ∀ c, a.le c = true → b.le c = true → d.le c = true

/-- The join of two clocks is a least one that is at least both. -/
theorem isSupremum_join (a b : VectorClock) : (a.join b).IsSupremum a b where
  left := le_iff.2 fun t => get_join a b t ▸ Nat.le_max_left _ _
  right := le_iff.2 fun t => get_join a b t ▸ Nat.le_max_right _ _
  least _ hac hbc := le_iff.2 fun t =>
    get_join a b t ▸ Nat.max_le.2 ⟨le_iff.1 hac t, le_iff.1 hbc t⟩

/-- There is no other one, up to zeros at the end. -/
theorem isSupremum_iff : d.IsSupremum a b ↔ d.Alike (a.join b) := by
  have hjoin := isSupremum_join a b
  rw [alike_iff, ← le_and_le_iff]
  constructor
  · exact fun h => ⟨h.least _ hjoin.left hjoin.right, hjoin.least _ h.left h.right⟩
  · rintro ⟨hle, hge⟩
    exact ⟨VectorClock.le_trans hjoin.left hge, VectorClock.le_trans hjoin.right hge,
      fun c hac hbc => VectorClock.le_trans hle (hjoin.least c hac hbc)⟩

/-- Clocks can be joined in either order. -/
theorem join_comm (a b : VectorClock) : a.join b = b.join a := by
  refine eq_of_get_eq ?_ fun t => ?_
  · rw [length_join, length_join, Nat.max_comm]
  · rw [get_join, get_join, Nat.max_comm]

/-- Several clocks can be joined in any grouping. -/
theorem join_assoc (a b c : VectorClock) : (a.join b).join c = a.join (b.join c) := by
  refine eq_of_get_eq ?_ fun t => ?_
  · simp only [length_join, Nat.max_assoc]
  · simp only [get_join, Nat.max_assoc]

/-- Joining a clock with itself changes nothing. -/
theorem join_self (a : VectorClock) : a.join a = a := by
  refine eq_of_get_eq ?_ fun t => ?_
  · rw [length_join, Nat.max_self]
  · rw [get_join, Nat.max_self]

/-! ### Advancing -/

/-- A greater clock that is advanced at least as far is still greater. -/
theorem advance_le_advance {time time' : Nat} (hab : a.le b = true) (htime : time ≤ time')
    (thread : Nat) : (a.advance thread time).le (b.advance thread time') = true := by
  rw [le_iff] at hab ⊢
  intro t
  rw [get_advance, get_advance]
  split
  · exact max_le_max (hab t) htime
  · exact hab t

/-- An advanced clock is at least the clock. -/
theorem le_advance (a : VectorClock) (thread time : Nat) : a.le (a.advance thread time) = true := by
  rw [le_iff]
  intro t
  rw [get_advance]
  split
  · exact Nat.le_max_left _ _
  · exact Nat.le_refl _

/-! ### All laws -/

/-- Clocks of any lengths are ordered by their counts, and two clocks that are at most each other
have the same count of every thread.  The join of two clocks is a least one that is at least both,
the only one up to zeros at the end, and clocks can be joined in any order, grouping and number.
Advancing raises the count of one thread to at least the given one, leaves all others, and respects
the order. -/
theorem order_by_counts (a b c : VectorClock) :
    a.le a = true ∧ (a.le b = true → b.le c = true → a.le c = true) ∧
      (a.le b = true ∧ b.le a = true ↔ ∀ t, a.get t = b.get t) ∧
      (a.join b).IsSupremum a b ∧ (∀ d : VectorClock, d.IsSupremum a b ↔ d.Alike (a.join b)) ∧
      a.join b = b.join a ∧ (a.join b).join c = a.join (b.join c) ∧ a.join a = a ∧
      ∀ thread time, (a.advance thread time).get thread = max (a.get thread) time ∧
        (∀ t, t ≠ thread → (a.advance thread time).get t = a.get t) ∧
        a.le (a.advance thread time) = true ∧
        ∀ time', a.le b = true → time ≤ time' →
          (a.advance thread time).le (b.advance thread time') = true := by
  refine ⟨a.le_refl, VectorClock.le_trans, le_and_le_iff, isSupremum_join a b,
    fun _ => isSupremum_iff, join_comm a b, join_assoc a b c, join_self a,
    fun thread time => ⟨?_, fun t ht => ?_, le_advance a thread time,
      fun time' hab htime => advance_le_advance hab htime thread⟩⟩
  · rw [get_advance, if_pos rfl]
  · rw [get_advance, if_neg ht]

/-- A short clock, a longer one whose last counts are zero, and one that is greater than both. -/
theorem order_uneven :
    le ⟨[1]⟩ ⟨[1, 0, 0]⟩ = true ∧ le ⟨[1, 0, 0]⟩ ⟨[1, 2]⟩ = true ∧ le ⟨[1]⟩ ⟨[1, 2]⟩ = true ∧
      (∀ t, get ⟨[1]⟩ t = get ⟨[1, 0, 0]⟩ t) ∧ IsSupremum ⟨[1]⟩ ⟨[1]⟩ ⟨[1, 0, 0]⟩ ∧
      Alike ⟨[1]⟩ (join ⟨[1]⟩ ⟨[1, 0, 0]⟩) ∧ (3 : Nat) ≠ 0 ∧ get (advance ⟨[1]⟩ 3 5) 0 = 1 ∧
      (5 : Nat) ≤ 7 ∧ le (advance ⟨[1]⟩ 3 5) (advance ⟨[1, 0, 0]⟩ 3 7) = true := by
  obtain ⟨-, htrans, hboth, -, hunique, -, -, -, hadvance⟩ :=
    order_by_counts ⟨[1]⟩ ⟨[1, 0, 0]⟩ ⟨[1, 2]⟩
  have hab : le ⟨[1]⟩ ⟨[1, 0, 0]⟩ = true := by decide
  have hbc : le ⟨[1, 0, 0]⟩ ⟨[1, 2]⟩ = true := by decide
  have hsupremum : IsSupremum ⟨[1]⟩ ⟨[1]⟩ ⟨[1, 0, 0]⟩ :=
    ⟨by decide, by decide, fun _ hac _ => hac⟩
  obtain ⟨-, hother, -, hmono⟩ := hadvance 3 5
  exact ⟨hab, hbc, htrans hab hbc, hboth.1 ⟨hab, by decide⟩, hsupremum, (hunique _).1 hsupremum,
    by decide, hother 0 (by decide), by decide, hmono 7 hab (by decide)⟩

end VectorClock

end DataRace
