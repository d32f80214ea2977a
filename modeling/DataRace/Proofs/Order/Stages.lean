import DataRace.Proofs.Order.Groups

/-!
# The graphs on the way to an order

Joins and barrier groups are added one after the other, so the order of a trace goes through a
sequence of graphs.  `HappensBefore.Stage` are the graphs that are kept, and `HappensBefore.Trial`
those that are made with one more barrier group before it is known whether the group closes a
circle.

Points are never taken away from a graph that is kept: each of these graphs begins with the points
of program order and forks, every one of them once, and has meeting points behind them
(`Arranged`).  A group that is left out takes away its own meeting points, which are the last ones
(`Trial.points_eq`), so a thread or an event has one number in all graphs (`Arranged.idxOf_eq`).
All edges lead between points, and what is kept has no circles (`Stage.sound`).
-/

namespace DataRace

namespace HappensBefore

open Relation OrderGraph

/-- The graph and the groups left out when some barrier groups were added behind all joins. -/
def afterGroups (t : Trace) (groups : List (List ThreadId)) : OrderGraph × List Nat :=
  groups.zipIdx.foldl (addGroup t) ((afterJoins t t.events).1, [])

/-- The graphs that are kept while the order of a trace is found: program order and forks with the
joins among the first events, and all joins with the first barrier groups. -/
inductive Stage (t : Trace) : OrderGraph → Prop
  | joins {es : List Event} (h : es <+: t.events) : Stage t (afterJoins t es).1
  | groups {groups first : List (List ThreadId)} (hgroups : t.barrierGroups = .ok groups)
      (h : first <+: groups) : Stage t (afterGroups t first).1

/-- A graph that is made from one that is kept with the next barrier group, to see whether the group
closes a circle. -/
inductive Trial (t : Trace) (g : OrderGraph) : OrderGraph → Prop
  | group {groups first : List (List ThreadId)} {members : List ThreadId}
      (hgroups : t.barrierGroups = .ok groups) (h : first ++ [members] <+: groups)
      (hg : (afterGroups t first).1 = g) : Trial t g (withGroup t g first.length members)

/-- A graph has the points of program order and forks, every point once, and behind them meeting
points of groups below a number. -/
structure Arranged (t : Trace) (bound : Nat) (g : OrderGraph) : Prop where
  initial : (base t).points <+: g.points
  nodup : g.points.Nodup
  meet_lt : ∀ group round, Point.meet group round ∈ g.points → group < bound

variable {t : Trace} {g g' : OrderGraph} {bound : Nat}

/-! ### Where points stand -/

/-- The position of a point in its thread is its place. -/
theorem place_of_pointsOf (ht : t.WellFormed) {i : ThreadId} {th : Thread}
    (hth : t.threads[i]? = some th) {k : Nat} {p : Point} (hp : (pointsOf th)[k]? = some p) :
    place t p = toLex ((i : ℕ), k) := by
  rw [getElem?_pointsOf ht hth] at hp
  cases k with
  | zero =>
    cases hp
    rfl
  | succ k =>
    dsimp only at hp
    split at hp
    · next hle =>
      cases hp
      unfold pointAt
      split
      · rfl
      · next hnot => rw [Nat.le_antisymm hle (Nat.le_of_not_lt hnot)]; rfl
    · cases hp

/-- Program order and forks list their points by place. -/
theorem sorted_points_base (ht : t.WellFormed) :
    (base t).points.Pairwise fun p q => place t p < place t q := by
  unfold base
  dsimp only
  rw [List.flatMap_def, List.pairwise_flatten]
  constructor
  · intro l hl
    obtain ⟨th, hth, rfl⟩ := List.mem_map.1 hl
    obtain ⟨i, hi⟩ := Array.mem_iff_getElem?.1 (Array.mem_toList_iff.1 hth)
    rw [List.pairwise_iff_getElem]
    intro j k hj hk hjk
    rw [place_of_pointsOf ht hi (List.getElem?_eq_getElem hj),
      place_of_pointsOf ht hi (List.getElem?_eq_getElem hk)]
    exact Prod.Lex.toLex_lt_toLex.2 (Or.inr ⟨rfl, hjk⟩)
  · rw [List.pairwise_map, List.pairwise_iff_getElem]
    intro i k hi hk hik p hp q hq
    obtain ⟨j, hj⟩ := List.mem_iff_getElem?.1 hp
    obtain ⟨l, hl⟩ := List.mem_iff_getElem?.1 hq
    rw [place_of_pointsOf ht (Array.getElem?_eq_getElem (by simpa using hi)) hj,
      place_of_pointsOf ht (Array.getElem?_eq_getElem (by simpa using hk)) hl]
    exact Prod.Lex.toLex_lt_toLex.2 (Or.inl hik)

/-- Program order and forks have no meeting points. -/
theorem meet_not_mem_base (ht : t.WellFormed) (group round : Nat) :
    Point.meet group round ∉ (base t).points := by
  rw [mem_points_base ht]
  rintro (⟨i, -, h | h⟩ | ⟨r, e, -, h⟩)
  · cases h
  · cases h
  · cases h

namespace Arranged

/-- Program order and forks are arranged. -/
theorem base (ht : t.WellFormed) (bound : Nat) (hpoints : g.points = (base t).points) :
    Arranged t bound g where
  initial := hpoints ▸ List.prefix_refl _
  nodup := by
    rw [hpoints]
    refine (sorted_points_base ht).imp ?_
    rintro p q hlt rfl
    exact lt_irrefl _ hlt
  meet_lt group round h := absurd (hpoints ▸ h) (meet_not_mem_base ht group round)

/-- With a greater number a graph is still arranged. -/
theorem mono (h : Arranged t bound g) {bound' : Nat} (hle : bound ≤ bound') :
    Arranged t bound' g :=
  ⟨h.initial, h.nodup, fun group round hmem => (h.meet_lt group round hmem).trans_le hle⟩

/-- With the meeting points of the next group a graph is still arranged. -/
theorem withGroup (h : Arranged t bound g) (members : List ThreadId) :
    Arranged t (bound + 1) (withGroup t g bound members) := by
  have hsplit : (HappensBefore.withGroup t g bound members).points = g.points ++
      (List.range (((members.map (barriersOf t)).map List.length).foldl max 0)).map
        (Point.meet bound) := rfl
  constructor
  · exact h.initial.trans ⟨_, hsplit.symm⟩
  · rw [hsplit, List.nodup_append]
    refine ⟨h.nodup, List.nodup_range.map fun k l hkl => by cases hkl; rfl, ?_⟩
    rintro p hp q hq rfl
    obtain ⟨k, -, rfl⟩ := List.mem_map.1 hq
    exact Nat.lt_irrefl _ (h.meet_lt bound k hp)
  · intro group round hmem
    rcases List.mem_append.1 (hsplit ▸ hmem) with hmem | hmem
    · exact (h.meet_lt group round hmem).trans (Nat.lt_succ_self _)
    · obtain ⟨k, -, heq⟩ := List.mem_map.1 hmem
      cases heq
      exact Nat.lt_succ_self _

/-- A point of program order and forks has one number in all graphs. -/
theorem idxOf_eq (h : Arranged t bound g) {p : Point} (hp : p ∈ (HappensBefore.base t).points) :
    g.points.idxOf p = (HappensBefore.base t).points.idxOf p := by
  obtain ⟨rest, hrest⟩ := h.initial
  rw [← hrest, List.idxOf_append_of_mem hp]

end Arranged

/-! ### Joins and groups, one by one -/

/-- One group more. -/
theorem afterGroups_concat (t : Trace) (groups : List (List ThreadId)) (members : List ThreadId) :
    afterGroups t (groups ++ [members]) =
      addGroup t (afterGroups t groups) (members, groups.length) := by
  unfold afterGroups
  rw [List.zipIdx_append, List.foldl_append]
  simp

/-- The graph with the first groups is arranged. -/
theorem arranged_afterGroups (ht : t.WellFormed) (groups : List (List ThreadId)) :
    Arranged t groups.length (afterGroups t groups).1 := by
  induction groups using List.reverseRecOn with
  | nil => exact .base ht 0 (joined_afterJoins ht t.events (List.prefix_refl _)).points
  | append_singleton groups members ih =>
    rw [afterGroups_concat, List.length_append, List.length_singleton]
    unfold addGroup
    dsimp only
    split
    · exact ih.withGroup members
    · exact ih.mono (Nat.le_succ _)

/-- All edges of a graph that is kept lead between its points, it has no circles, and its points
are those of program order and forks with meeting points behind them. -/
theorem Stage.sound (h : Stage t g) (ht : t.WellFormed) :
    g.Closed ∧ g.Acyclic ∧ ∃ bound, Arranged t bound g := by
  cases h with
  | joins h =>
    have hjoined := joined_afterJoins ht _ h
    exact ⟨hjoined.closed ht fun e he => h.subset he, hjoined.acyclic, 0, .base ht 0 hjoined.points⟩
  | @groups groups first hgroups h =>
    have hjoined := joined_afterJoins ht t.events (List.prefix_refl _)
    have hgrouped := grouped_foldl ht (fun p hp => hjoined.points.symm ▸ hp)
      (hjoined.closed ht fun e he => he) hjoined.acyclic first
    exact ⟨hgrouped.closed, hgrouped.acyclic, first.length, arranged_afterGroups ht first⟩

/-- A graph with one more group has its edges between its points, and its points are those of the
graph that it is made from with meeting points of the new group behind them. -/
theorem Trial.sound (h : Trial t g g') (ht : t.WellFormed) :
    Stage t g ∧ g'.Closed ∧ g.points <+: g'.points ∧ ∃ bound, Arranged t bound g' := by
  cases h with
  | @group groups first members hgroups h hg =>
    have hstage : Stage t g := hg ▸ .groups hgroups ((List.prefix_append first [members]).trans h)
    have harranged : Arranged t first.length g := hg ▸ arranged_afterGroups ht first
    obtain ⟨hclosed, -, -⟩ := hstage.sound ht
    refine ⟨hstage, closed_withGroup ht hclosed harranged.initial.subset _ _, ?_, _,
      harranged.withGroup members⟩
    exact ⟨_, rfl⟩

/-- The order of a trace ends with a graph that is kept. -/
theorem stage_of_ofTrace {o : HappensBefore} (h : ofTrace t = .ok o) : Stage t o.graph := by
  obtain ⟨⟨⟩, -, h⟩ := Except.bind_eq_ok.1 h
  obtain ⟨groups, hgroups, h⟩ := Except.bind_eq_ok.1 h
  dsimp only at h
  split at h
  · cases h
  · cases h
    exact .groups hgroups (List.prefix_refl _)

end HappensBefore

end DataRace
