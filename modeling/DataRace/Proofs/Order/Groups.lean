import DataRace.Proofs.Order.Joins

/-!
# Adding barrier groups

Barrier groups are added to the graph with joins one by one.  `HappensBefore.Meets` is what a group
adds: in each round every member that has a barrier goes through a meeting point.
`HappensBefore.Grouped` says what the graph is like after some groups: it has these edges for each
group that was not left out, and still no circles.
-/

namespace DataRace

namespace Trace

variable {t : Trace}

/-- The members started by events with nodes are found. -/
theorem exists_membersFrom {es : List Event} (h : ∀ e ∈ es, ∃ n, t.arena.get? e.node = some n)
    (run : Option (InstId × Nat)) : ∃ members, t.membersFrom run es = .ok members := by
  induction es generalizing run with
  | nil => exact ⟨[], rfl⟩
  | cons e es ih =>
    have hrest := fun run => ih (fun d hd => h d (List.mem_cons_of_mem _ hd)) run
    unfold membersFrom
    split
    · next child _ =>
      obtain ⟨n, hn⟩ := h e List.mem_cons_self
      refine Except.exists_bind (Arena.get_eq_ok.2 hn) ?_
      obtain ⟨members, hmembers⟩ := hrest _
      refine Except.exists_bind hmembers ?_
      cases t.spawnApi? child >>= ForkApi.team? with
      | some team => exact ⟨_, rfl⟩
      | none => exact ⟨_, rfl⟩
    · exact hrest none

/-- The groups of a well-formed trace are found. -/
theorem exists_barrierGroups (ht : t.WellFormed) : ∃ groups, t.barrierGroups = .ok groups := by
  have hmembers : ∃ members,
      t.threads.toList.mapM (fun th => t.membersFrom none th.events.toList) = .ok members := by
    refine Except.exists_mapM_eq_ok fun th hth => exists_membersFrom (fun e he => ?_) none
    exact ht.exists_node (List.mem_flatMap.2 ⟨th, hth, he⟩)
  obtain ⟨members, hmembers⟩ := hmembers
  exact ⟨_, Except.bind_eq_ok.2 ⟨members, hmembers, rfl⟩⟩

end Trace

namespace HappensBefore

open Relation OrderGraph

/-- A step through the meeting point of a round of a group. -/
inductive Meets (t : Trace) (group : Nat) (members : List ThreadId) : Point → Point → Prop
  /-- A member arrives. -/
  | arrive {m : ThreadId} {k : Nat} {r : EventRef} (hm : m ∈ members)
      (hr : (barriersOf t m)[k]? = some r) : Meets t group members (.event r) (.meet group k)
  /-- A member goes on. -/
  | leave {m : ThreadId} {k : Nat} {r : EventRef} (hm : m ∈ members)
      (hr : (barriersOf t m)[k]? = some r) : Meets t group members (.meet group k) (pointAfter t r)

variable {t : Trace}

/-- A barrier of a thread is an event of the thread. -/
theorem event?_of_barrier (ht : t.WellFormed) {m : ThreadId} {k : Nat} {r : EventRef}
    (h : (barriersOf t m)[k]? = some r) :
    r.thread = m ∧ ∃ e, t.event? r = some e ∧ e.kind = .barrier := by
  unfold barriersOf at h
  obtain ⟨e, he, hr⟩ := List.mem_filterMap.1 (List.mem_of_getElem? h)
  split at hr
  · next hkind =>
    cases hr
    obtain ⟨j, hj⟩ := Array.mem_iff_getElem?.1 (Array.mem_toList_iff.1 he)
    have hevent : t.event? ⟨m, j⟩ = some e := hj
    rw [ht.ref_eq hevent]
    exact ⟨rfl, e, hevent, hkind⟩
  · cases hr

/-- A number is below the greatest of a list exactly if it is below one of them. -/
theorem lt_foldl_max {l : List Nat} {k a : Nat} : k < l.foldl max a ↔ k < a ∨ ∃ n ∈ l, k < n := by
  induction l generalizing a with
  | nil => simp
  | cons n l ih =>
    rw [List.foldl_cons, ih, lt_max_iff]
    simp [or_assoc]

/-- The edges of one round of a group. -/
theorem mem_roundEdges {group k : Nat} {members : List ThreadId} {a b : Point} :
    (a, b) ∈ roundEdges t group k (members.map (barriersOf t)) ↔
      ∃ m ∈ members, ∃ r, (barriersOf t m)[k]? = some r ∧
        (a = .event r ∧ b = .meet group k ∨ a = .meet group k ∧ b = pointAfter t r) := by
  unfold roundEdges
  rw [List.flatMap_map, List.mem_flatMap]
  refine exists_congr fun m => and_congr_right fun _ => ?_
  cases (barriersOf t m)[k]? with
  | none => simp
  | some r => simp

/-- The edges of a graph with all rounds of a group. -/
theorem edge_withGroup {g : OrderGraph} {group : Nat} {members : List ThreadId} {a b : Point} :
    (withGroup t g group members).Edge a b ↔ g.Edge a b ∨ Meets t group members a b := by
  unfold withGroup OrderGraph.Edge
  dsimp only
  rw [List.mem_append, List.mem_flatMap]
  refine or_congr_right ⟨?_, ?_⟩
  · rintro ⟨k, -, hk⟩
    obtain ⟨m, hm, r, hr, ⟨rfl, rfl⟩ | ⟨rfl, rfl⟩⟩ := mem_roundEdges.1 hk
    · exact .arrive hm hr
    · exact .leave hm hr
  · have hround : ∀ {m k r}, m ∈ members → (barriersOf t m)[k]? = some r →
        k ∈ List.range (((members.map (barriersOf t)).map List.length).foldl max 0) := by
      intro m k r hm hr
      rw [List.mem_range, lt_foldl_max, List.map_map]
      exact Or.inr ⟨_, List.mem_map.2 ⟨m, hm, rfl⟩, (List.getElem?_eq_some_iff.1 hr).1⟩
    rintro (⟨hm, hr⟩ | ⟨hm, hr⟩)
    · exact ⟨_, hround hm hr, mem_roundEdges.2 ⟨_, hm, _, hr, Or.inl ⟨rfl, rfl⟩⟩⟩
    · exact ⟨_, hround hm hr, mem_roundEdges.2 ⟨_, hm, _, hr, Or.inr ⟨rfl, rfl⟩⟩⟩

/-- A group keeps the edges within the points. -/
theorem closed_withGroup (ht : t.WellFormed) {g : OrderGraph} (hg : g.Closed)
    (hpoints : (base t).points ⊆ g.points) (group : Nat) (members : List ThreadId) :
    (withGroup t g group members).Closed := by
  have hmeet : ∀ {m k r}, m ∈ members → (barriersOf t m)[k]? = some r →
      Point.meet group k ∈ (withGroup t g group members).points := by
    intro m k r hm hr
    unfold withGroup
    dsimp only
    rw [List.mem_append, List.mem_map]
    refine Or.inr ⟨k, ?_, rfl⟩
    rw [List.mem_range, lt_foldl_max, List.map_map]
    exact Or.inr ⟨_, List.mem_map.2 ⟨m, hm, rfl⟩, (List.getElem?_eq_some_iff.1 hr).1⟩
  have hold : ∀ {p}, p ∈ g.points → p ∈ (withGroup t g group members).points :=
    fun hp => List.mem_append_left _ hp
  intro a b hab
  rcases edge_withGroup.1 hab with hab | ⟨hm, hr⟩ | ⟨hm, hr⟩
  · exact ⟨hold (hg hab).1, hold (hg hab).2⟩
  · obtain ⟨-, e, he, -⟩ := event?_of_barrier ht hr
    exact ⟨hold (hpoints ((mem_points_base ht).2 (Or.inr ⟨_, e, he, rfl⟩))), hmeet hm hr⟩
  · obtain ⟨-, e, he, -⟩ := event?_of_barrier ht hr
    exact ⟨hmeet hm hr, hold (hpoints (pointAt_mem ht (Trace.thread_lt he) _))⟩

/-- The groups left out after one more group. -/
theorem addGroup_snd (t : Trace) (state : OrderGraph × List Nat)
    (group : List ThreadId × Nat) :
    (addGroup t state group).2 =
      if (withGroup t state.1 group.2 group.1).isAcyclic then state.2
      else state.2 ++ [group.2] := by
  obtain ⟨g, dropped⟩ := state
  unfold addGroup
  dsimp only
  split <;> rfl

/-- What the graph is like after the first of some groups were added. -/
structure Grouped (t : Trace) (joined : OrderGraph) (groups : List (List ThreadId)) (g : OrderGraph)
    (dropped : List Nat) : Prop where
  points : (base t).points ⊆ g.points
  edge : ∀ a b, g.Edge a b ↔ joined.Edge a b ∨
    ∃ i members, groups[i]? = some members ∧ i ∉ dropped ∧ Meets t i members a b
  closed : g.Closed
  acyclic : g.Acyclic
  dropped_lt : ∀ i ∈ dropped, i < groups.length

namespace Grouped

variable {joined g : OrderGraph} {groups : List (List ThreadId)} {dropped : List Nat}

/-- Without groups there is the graph with joins. -/
theorem nil (hpoints : (base t).points ⊆ joined.points) (hclosed : joined.Closed)
    (hacyclic : joined.Acyclic) : Grouped t joined [] joined [] where
  points := hpoints
  edge a b := by
    constructor
    · exact Or.inl
    · rintro (h | ⟨i, members, h, -⟩)
      · exact h
      · cases h
  closed := hclosed
  acyclic := hacyclic
  dropped_lt i hi := by cases hi

/-- One more group. -/
theorem concat (h : Grouped t joined groups g dropped) (ht : t.WellFormed)
    (members : List ThreadId) :
    Grouped t joined (groups ++ [members]) (addGroup t (g, dropped) (members, groups.length)).1
      (addGroup t (g, dropped) (members, groups.length)).2 := by
  have hsplit : ∀ {i ms}, (groups ++ [members])[i]? = some ms ↔
      groups[i]? = some ms ∨ i = groups.length ∧ members = ms := by
    intro i ms
    rw [List.getElem?_append]
    split
    · next hi => simp [Nat.ne_of_lt hi]
    · next hi =>
      rw [List.getElem?_singleton, List.getElem?_eq_none (Nat.le_of_not_lt hi)]
      split
      · simp
        omega
      · simp
        omega
  have hfresh : groups.length ∉ dropped := fun hmem => Nat.lt_irrefl _ (h.dropped_lt _ hmem)
  have hclosed := closed_withGroup ht h.closed h.points groups.length members
  unfold addGroup
  dsimp only
  split
  · next hacyclic =>
    refine ⟨List.subset_append_of_subset_left _ h.points, fun a b => ?_, hclosed,
      (isAcyclic_iff hclosed).1 hacyclic, ?_⟩
    · rw [edge_withGroup, h.edge, or_assoc]
      refine or_congr_right ⟨?_, ?_⟩
      · rintro (⟨i, ms, hms, hkept, hmeets⟩ | hmeets)
        · exact ⟨i, ms, hsplit.2 (Or.inl hms), hkept, hmeets⟩
        · exact ⟨_, _, hsplit.2 (Or.inr ⟨rfl, rfl⟩), hfresh, hmeets⟩
      · rintro ⟨i, ms, hms, hkept, hmeets⟩
        rcases hsplit.1 hms with hms | ⟨rfl, rfl⟩
        · exact Or.inl ⟨i, ms, hms, hkept, hmeets⟩
        · exact Or.inr hmeets
    · intro i hi
      rw [List.length_append]
      exact Nat.lt_add_right _ (h.dropped_lt i hi)
  · refine ⟨h.points, fun a b => ?_, h.closed, h.acyclic, ?_⟩
    · rw [h.edge]
      refine or_congr_right ⟨?_, ?_⟩
      · rintro ⟨i, ms, hms, hkept, hmeets⟩
        refine ⟨i, ms, hsplit.2 (Or.inl hms), ?_, hmeets⟩
        rw [List.mem_append, List.mem_singleton]
        rintro (hmem | rfl)
        · exact hkept hmem
        · exact Nat.lt_irrefl _ (List.getElem?_eq_some_iff.1 hms).1
      · rintro ⟨i, ms, hms, hkept, hmeets⟩
        rw [List.mem_append, List.mem_singleton] at hkept
        rcases hsplit.1 hms with hms | ⟨rfl, rfl⟩
        · exact ⟨i, ms, hms, fun hmem => hkept (Or.inl hmem), hmeets⟩
        · exact absurd (Or.inr rfl) hkept
    · intro i hi
      rw [List.length_append]
      rcases List.mem_append.1 hi with hi | hi
      · exact Nat.lt_add_right _ (h.dropped_lt i hi)
      · rw [List.mem_singleton.1 hi]
        exact Nat.lt_succ_self _

end Grouped

/-- The graph after all groups were added. -/
theorem grouped_foldl (ht : t.WellFormed) {joined : OrderGraph}
    (hpoints : (base t).points ⊆ joined.points) (hclosed : joined.Closed)
    (hacyclic : joined.Acyclic) (groups : List (List ThreadId)) :
    Grouped t joined groups (groups.zipIdx.foldl (addGroup t) (joined, [])).1
      (groups.zipIdx.foldl (addGroup t) (joined, [])).2 := by
  induction groups using List.reverseRecOn with
  | nil => exact .nil hpoints hclosed hacyclic
  | append_singleton groups members ih =>
    have hstep := ih.concat ht members
    rw [List.zipIdx_append, List.foldl_append]
    simpa using hstep

end HappensBefore

end DataRace
