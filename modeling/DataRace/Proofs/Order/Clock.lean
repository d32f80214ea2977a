import DataRace.Order.HappensBefore
import DataRace.Proofs.Order.Graph

/-!
# Clocks along a sorted graph

Joining clocks takes the greater count of each thread (`VectorClock.get_join`), and advancing a
clock raises one count (`VectorClock.get_advance`).

`OrderGraph.Counts` says what the clock of a point means: it has counted an event number of a thread
exactly if an event of the thread with at least this number leads to the point.  The clocks that are
computed along a sorted graph have this meaning (`HappensBefore.clocksOf_counts`).
-/

namespace DataRace

namespace VectorClock

/-- Padding changes no count. -/
theorem getD_pad (counts : List Nat) (length t : Nat) :
    (pad counts length).getD t 0 = counts.getD t 0 := by
  rw [pad, List.getD_eq_getElem?_getD, List.getD_eq_getElem?_getD, List.getElem?_append]
  split
  · rfl
  · next h =>
    rw [List.getElem?_eq_none (Nat.le_of_not_lt h), List.getElem?_replicate]
    split <;> rfl

/-- Padding makes a list at least as long as asked for. -/
theorem length_pad (counts : List Nat) (length : Nat) :
    (pad counts length).length = max counts.length length := by
  rw [pad, List.length_append, List.length_replicate]
  omega

/-- A new clock has counted nothing. -/
theorem get_new (threads t : Nat) : (new threads).get t = 0 := by
  rw [get, new, List.getD_eq_getElem?_getD, List.getElem?_replicate]
  split <;> rfl

/-- A joined clock has the greater count of each thread. -/
theorem get_join (a b : VectorClock) (t : Nat) : (a.join b).get t = max (a.get t) (b.get t) := by
  have hlen : (pad a.counts b.counts.length).length = (pad b.counts a.counts.length).length := by
    rw [length_pad, length_pad, Nat.max_comm]
  rw [get, get, get, ← getD_pad a.counts b.counts.length, ← getD_pad b.counts a.counts.length, join,
    List.getD_eq_getElem?_getD, List.getD_eq_getElem?_getD, List.getD_eq_getElem?_getD,
    List.getElem?_zipWith]
  by_cases ht : t < (pad a.counts b.counts.length).length
  · rw [List.getElem?_eq_getElem ht, List.getElem?_eq_getElem (hlen ▸ ht)]
    rfl
  · rw [List.getElem?_eq_none (Nat.le_of_not_lt ht), List.getElem?_eq_none (by omega)]
    rfl

/-- Advancing raises the count of one thread and leaves the others. -/
theorem get_advance (c : VectorClock) (thread time t : Nat) :
    (c.advance thread time).get t = if t = thread then max (c.get t) time else c.get t := by
  have hpad := getD_pad c.counts (thread + 1) t
  rw [get, get, ← hpad, advance, List.getD_eq_getElem?_getD, List.getD_eq_getElem?_getD,
    List.getElem?_modify]
  by_cases h : thread = t
  · subst h
    have hlt : thread < (pad c.counts (thread + 1)).length := by
      rw [length_pad]
      omega
    rw [List.getElem?_eq_getElem hlt]
    simp
  · have hne : ¬ t = thread := fun e => h e.symm
    simp [h, hne]

/-- A count is below that of a join of clocks exactly if it is below that of one of them. -/
theorem lt_get_foldl_join {k t : Nat} {cs : List VectorClock} {c : VectorClock} :
    k < (cs.foldl join c).get t ↔ k < c.get t ∨ ∃ d ∈ cs, k < d.get t := by
  induction cs generalizing c with
  | nil => simp
  | cons d cs ih =>
    rw [List.foldl_cons, ih, get_join, lt_max_iff]
    simp [or_assoc]

end VectorClock

namespace OrderGraph

open Relation

/-- A clock counts what leads to a point: an event number is below the count of a thread exactly if
an event of the thread with at least this number leads to the point. -/
def Counts (g : OrderGraph) (p : Point) (c : VectorClock) : Prop :=
  ∀ t k, k < c.get t ↔ ∃ i, k ≤ i ∧ ReflTransGen g.Edge (.event ⟨t, i⟩) p

end OrderGraph

namespace HappensBefore

open Relation OrderGraph

/-- The clock of a point counts what leads there if the clocks of the points right before it do. -/
theorem counts_clockAt {g : OrderGraph} {p : Point} {threads : Nat} {cs : List VectorClock}
    (hsound : ∀ c ∈ cs, ∃ q, g.Edge q p ∧ g.Counts q c)
    (hcomplete : ∀ q, g.Edge q p → ∃ c ∈ cs, g.Counts q c) :
    g.Counts p (clockAt threads cs p) := by
  have hjoined : ∀ t k, k < (cs.foldl VectorClock.join (VectorClock.new threads)).get t ↔
      ∃ i, k ≤ i ∧ ∃ q, ReflTransGen g.Edge (.event ⟨t, i⟩) q ∧ g.Edge q p := by
    intro t k
    rw [VectorClock.lt_get_foldl_join, VectorClock.get_new]
    constructor
    · rintro (h | ⟨c, hc, hk⟩)
      · exact absurd h (Nat.not_lt_zero k)
      · obtain ⟨q, hq, hcount⟩ := hsound c hc
        obtain ⟨i, hi, hpath⟩ := (hcount t k).1 hk
        exact ⟨i, hi, q, hpath, hq⟩
    · rintro ⟨i, hi, q, hpath, hq⟩
      obtain ⟨c, hc, hcount⟩ := hcomplete q hq
      exact Or.inr ⟨c, hc, (hcount t k).2 ⟨i, hi, hpath⟩⟩
  intro t k
  simp only [ReflTransGen.cases_tail_iff g.Edge _ p, and_or_left, exists_or, ← hjoined]
  cases p with
  | event r =>
    rw [clockAt, VectorClock.get_advance]
    have hself :
        (∃ i, k ≤ i ∧ Point.event r = Point.event ⟨t, i⟩) ↔ t = r.thread ∧ k ≤ r.index := by
      constructor
      · rintro ⟨i, hi, h⟩
        cases h
        exact ⟨rfl, hi⟩
      · rintro ⟨rfl, hi⟩
        exact ⟨r.index, hi, rfl⟩
    rw [hself]
    split
    · next h => simp only [h, true_and, lt_max_iff, Nat.lt_succ_iff, or_comm]
    · next h => simp only [h, false_and, false_or]
  | start thread => simp [clockAt]
  | finish thread => simp [clockAt]
  | meet group round => simp [clockAt]

/-- Along a sorted graph every point gets a clock that counts what leads there. -/
theorem clocksOf_counts {g : OrderGraph} {threads : Nat} {order : List Point}
    (h : ∀ l₁ p l₂, order = l₁ ++ p :: l₂ → ∀ q, g.Edge q p → q ∈ l₁) :
    ∀ p ∈ order, ∃ c, (clocksOf threads g.predecessors order)[p]? = some c ∧ g.Counts p c := by
  induction order using List.reverseRecOn with
  | nil => simp
  | append_singleton order p ih =>
    have hinitial := ih fun l₁ q l₂ hsplit => h l₁ q (l₂ ++ [p]) (by simp [hsplit])
    have hbefore : ∀ q, g.Edge q p → q ∈ order := h order p [] rfl
    have hnew : g.Counts p (clockAt threads ((g.predecessors.getD p []).filterMap
        fun q => (clocksOf threads g.predecessors order)[q]?) p) := by
      apply counts_clockAt
      · intro c hc
        obtain ⟨q, hq, hqc⟩ := List.mem_filterMap.1 hc
        rw [mem_predecessors] at hq
        obtain ⟨c', hc', hcount⟩ := hinitial q (hbefore q hq)
        rw [hqc] at hc'
        cases hc'
        exact ⟨q, hq, hcount⟩
      · intro q hq
        obtain ⟨c, hc, hcount⟩ := hinitial q (hbefore q hq)
        exact ⟨c, List.mem_filterMap.2 ⟨q, mem_predecessors.2 hq, hc⟩, hcount⟩
    intro q hq
    rw [clocksOf, List.foldl_append, List.foldl_cons, List.foldl_nil, ← clocksOf,
      Std.HashMap.getElem?_insert]
    by_cases hqp : p = q
    · subst hqp
      simpa using hnew
    · have hq' : q ∈ order := by
        rcases List.mem_append.1 hq with hq | hq
        · exact hq
        · exact absurd (List.mem_singleton.1 hq).symm hqp
      simpa [hqp] using hinitial q hq'

end HappensBefore

end DataRace
