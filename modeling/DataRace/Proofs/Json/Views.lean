import DataRace.Json.Basic
import Mathlib.Algebra.Ring.Int.Defs
import Mathlib.Algebra.Ring.Nat
import Mathlib.Order.Basic
import Mathlib.Order.Lattice

/-!
# Numbers and lists in JSON

What the views of a value answer for values that records are written with: numbers within their
width, members by key, and lists written item by item.
-/

namespace DataRace

namespace Json

/-- A number below the bound of 32 bits is viewed as it is. -/
theorem nat32?_ofNat {n : Nat} (hn : n < 2 ^ 32) : (ofNat n).nat32? = some n :=
  if_pos hn

/-- A number below the bound of 64 bits is viewed as it is. -/
theorem nat64?_ofNat {n : Nat} (hn : n < 2 ^ 64) : (ofNat n).nat64? = some n :=
  if_pos hn

/-- An integer of 64 bits with a sign is viewed as it is. -/
theorem int64?_int {i : Int} (h : -2 ^ 63 ≤ i ∧ i < 2 ^ 63) : (Json.int i).int64? = some i :=
  if_pos h

/-- Integers of 64 bits are far from the greatest number. -/
theorem isSound_int {i : Int} (hi : i.natAbs < 2 ^ 64) : (Json.int i).isSound = true := by
  have hbound : 2 ^ 64 < Decimal.overflow := by decide +kernel
  have hlt : i.natAbs < Decimal.overflow := Nat.lt_trans hi hbound
  rw [isSound, Decimal.ofInt, Decimal.isFinite]
  generalize Decimal.overflow = bound at hlt
  split
  · rfl
  · simpa using hlt

/-- A number of 32 bits is sound. -/
theorem isSound_ofNat {n : Nat} (hn : n < 2 ^ 32) : (ofNat n).isSound = true :=
  isSound_int (by rw [Int.natAbs_natCast]; omega)

/-- A list of sound values is sound. -/
theorem soundItems_map {α : Type} {g : α → Json} {l : List α}
    (h : ∀ x ∈ l, (g x).isSound = true) : isSound.soundItems (l.map g) = true := by
  induction l with
  | nil => rfl
  | cons x xs ih => simp [isSound.soundItems, h x (by simp), ih fun y hy => h y (by simp [hy])]

/-- A list is no deeper than a bound for each of its values. -/
theorem depthItems_map_le {α : Type} {g : α → Json} {l : List α} {d : Nat}
    (h : ∀ x ∈ l, (g x).depth ≤ d) : depth.depthItems (l.map g) ≤ d := by
  induction l with
  | nil => exact Nat.zero_le d
  | cons x xs ih => exact max_le (h x (by simp)) (ih fun y hy => h y (by simp [hy]))

/-- A key occurs in one list of members, then in the other. -/
theorem occurrences_append (key : String) (ms ms' : List (String × Json)) :
    occurrences key (ms ++ ms') = occurrences key ms ++ occurrences key ms' :=
  List.filterMap_append

/-- A key that no member has does not occur. -/
theorem occurrences_eq_nil {key : String} {ms : List (String × Json)}
    (h : ∀ m ∈ ms, m.1 ≠ key) : occurrences key ms = [] := by
  rw [occurrences, List.filterMap_eq_nil_iff]
  intro m hm
  exact if_neg (h m hm)

/-- A list whose items are all read back is read back. -/
theorem mapM_map_some {α β : Type} {f : β → Option α} {g : α → β} {l : List α}
    (h : ∀ x ∈ l, f (g x) = some x) : (l.map g).mapM f = some l := by
  induction l with
  | nil => rfl
  | cons x xs ih =>
    simp [h x (by simp), ih fun y hy => h y (by simp [hy])]

end Json

end DataRace
