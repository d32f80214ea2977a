/-!
# Vector clocks

A vector clock counts, for each thread, how many of its events have happened.  A thread beyond the
end of a clock counts zero, so clocks of different lengths can be compared, and a clock grows when
a later thread is advanced.
-/

namespace DataRace

/-- Event counts by thread. -/
structure VectorClock where
  counts : List Nat
  deriving DecidableEq, Repr, Inhabited

namespace VectorClock

/-- No events of any of the given number of threads. -/
def new (threads : Nat) : VectorClock := ⟨List.replicate threads 0⟩

/-- The count of a thread. -/
def get (c : VectorClock) (thread : Nat) : Nat := c.counts.getD thread 0

/-- Counts with zeros appended up to a length. -/
def pad (counts : List Nat) (length : Nat) : List Nat :=
  counts ++ List.replicate (length - counts.length) 0

/-- Raises the count of a thread to at least the given one. -/
def advance (c : VectorClock) (thread time : Nat) : VectorClock :=
  ⟨(pad c.counts (thread + 1)).modify thread fun n => max n time⟩

/-- Counts stay below this bound. -/
def bound : Nat := Nat.pow 2 32

/-- Counts one more event of a thread; there is no clock with a count at the bound. -/
def increment? (c : VectorClock) (thread : Nat) : Option VectorClock :=
  if c.get thread + 1 < bound then some (c.advance thread (c.get thread + 1)) else none

/-- What is said of a count that would reach the bound. -/
def overflowMessage : String := "attempt to add with overflow"

/-- The greater count of each thread. -/
def join (a b : VectorClock) : VectorClock :=
  ⟨List.zipWith max (pad a.counts b.counts.length) (pad b.counts a.counts.length)⟩

/-- Whether every count of a clock is at most that of another. -/
def le (a b : VectorClock) : Bool :=
  (List.range a.counts.length).all fun t => a.get t ≤ b.get t

/-- Whether two clocks are not ordered. -/
def concurrent (a b : VectorClock) : Bool := !a.le b && !b.le a

end VectorClock

end DataRace
