import DataRace.Proofs.Order.Closure
import DataRace.Proofs.Order.Members
import DataRace.Proofs.Order.Stages

/-!
# The graph of an order

The graph of an order is laid out point by point and edge by edge: program order and forks first,
then the joins that were kept, then the rounds of the barrier groups that were kept
(`HappensBefore.afterGroups_laid_out`).

A group can only be tried by adding it in full.  `HappensBefore.tryGroup` takes the meeting points
of a group that closes a circle away again, the latest first, each with its edges, where taking a
point away moves the last point to its position.  That leaves the graph as it was, so the order is
the same as if the group had never been added (`HappensBefore.foldl_tryGroup_eq`).

Whatever was left out closes a circle in the final graph, too, since a graph only gains edges while
the order is found (`HappensBefore.graph_laid_out`).
-/

namespace DataRace

open Relation

namespace OrderGraph

/-- Takes the point at a position away, with its edges; the last point moves to that position. -/
def removeAt (g : OrderGraph) (position : Nat) : OrderGraph :=
  match g.points[position]? with
  | some p =>
    { points := (g.points.set position (g.points.getLastD p)).dropLast
      edges := g.edges.filter fun e => e.1 != p && e.2 != p }
  | none => g

/-- The last point goes without moving another. -/
theorem removeAt_length (ps : List Point) (p : Point) (es : List (Point × Point)) :
    removeAt ⟨ps ++ [p], es⟩ ps.length = ⟨ps, es.filter fun e => e.1 != p && e.2 != p⟩ := by
  simp [removeAt]

/-- The points at the end of a list go without moving another, if the latest is taken away first. -/
theorem foldl_removeAt (ps qs : List Point) (es : List (Point × Point)) :
    ((List.range qs.length).map (ps.length + ·)).reverse.foldl removeAt ⟨ps ++ qs, es⟩ =
      ⟨ps, es.filter fun e => decide (e.1 ∉ qs) && decide (e.2 ∉ qs)⟩ := by
  induction qs using List.reverseRecOn generalizing es with
  | nil => simp
  | append_singleton qs q ih =>
    have hlast := removeAt_length (ps ++ qs) q es
    rw [List.length_append, List.append_assoc] at hlast
    rw [List.length_append, List.length_singleton, List.range_succ, List.map_append,
      List.reverse_append, List.map_singleton, List.reverse_singleton, List.singleton_append,
      List.foldl_cons, hlast, ih, List.filter_filter]
    congr 2
    funext e
    by_cases h₁ : e.1 = q <;> by_cases h₂ : e.2 = q <;> simp [h₁, h₂]

/-- With more edges there is still a circle. -/
theorem Acyclic.of_le {g g' : OrderGraph} (h : g'.Acyclic) (hle : ∀ a b, g.Edge a b → g'.Edge a b) :
    g.Acyclic :=
  fun p hp => h p (TransGen.mono hle _ _ hp)

end OrderGraph

namespace HappensBefore

open OrderGraph

/-! ### Points and edges in order -/

/-- The edge of a join that is kept. -/
def joinEdge? (dropped : List EventRef) (e : Event) : Option (Point × Point) :=
  match e.kind with
  | .join (some child) => if e.ref ∈ dropped then none else some (.finish child, .event e.ref)
  | _ => none

/-- How many rounds a group has. -/
def roundsOf (t : Trace) (members : List ThreadId) : Nat :=
  ((members.map (barriersOf t)).map List.length).foldl max 0

/-- The meeting points of a group. -/
def meetsOf (t : Trace) (group : List ThreadId × Nat) : List Point :=
  (List.range (roundsOf t group.1)).map (.meet group.2)

/-- The edges of all rounds of a group. -/
def groupEdges (t : Trace) (group : List ThreadId × Nat) : List (Point × Point) :=
  (List.range (roundsOf t group.1)).flatMap fun k =>
    roundEdges t group.2 k (group.1.map (barriersOf t))

/-- The groups that are kept, with their positions. -/
def keptGroups (groups : List (List ThreadId)) (dropped : List Nat) : List (List ThreadId × Nat) :=
  groups.zipIdx.filter fun group => decide (group.2 ∉ dropped)

variable {t : Trace} {o : HappensBefore}

/-- The edges after the joins among the first events of a trace: one for each that is kept in the
end. -/
theorem edges_afterJoins (ht : t.WellFormed) (es : List Event) (h : es <+: t.events) :
    (afterJoins t es).1.edges =
      (base t).edges ++ es.filterMap (joinEdge? (afterJoins t t.events).2) := by
  induction es using List.reverseRecOn with
  | nil => simp [afterJoins]
  | append_singleton es e ih =>
    have hes : es <+: t.events := (List.prefix_append es [e]).trans h
    obtain ⟨rest, hrest⟩ := h
    have hstep : afterJoins t (es ++ [e]) = addJoin (afterJoins t es) e := by
      simp [afterJoins]
    have hfresh : e.ref ∉ (afterJoins t es).2 := by
      intro hmem
      obtain ⟨d, hd, hde⟩ := (joined_afterJoins ht es hes).mem_dropped _ hmem
      have hsorted := ht.sorted_events
      rw [← hrest, List.append_assoc] at hsorted
      exact EventRef.Lt.irrefl _ (hde ▸ (List.pairwise_append.1 hsorted).2.2 d hd e (by simp))
    have hfinal : e.ref ∈ (afterJoins t t.events).2 ↔ e.ref ∈ (addJoin (afterJoins t es) e).2 := by
      rw [← hstep]
      exact mem_dropped_of_split ht hrest.symm (by simp)
    rw [hstep, List.filterMap_append, ← List.append_assoc, ← ih hes]
    unfold addJoin at hfinal ⊢
    dsimp only at hfinal ⊢
    split
    · next child hjoin =>
      rw [hjoin] at hfinal
      dsimp only at hfinal
      split
      · next hreaches =>
        rw [if_pos hreaches] at hfinal
        have hdropped : e.ref ∈ (afterJoins t t.events).2 := hfinal.2 (by simp)
        simp [joinEdge?, hjoin, hdropped]
      · next hreaches =>
        rw [if_neg hreaches] at hfinal
        have hkept : e.ref ∉ (afterJoins t t.events).2 := fun hmem => hfresh (hfinal.1 hmem)
        simp [joinEdge?, hjoin, hkept, addEdge]
    · next hother =>
      have hnone : joinEdge? (afterJoins t t.events).2 e = none := by
        unfold joinEdge?
        split
        · next child hjoin => exact absurd hjoin (hother child)
        · rfl
      simp [hnone]

/-- One group more among those that are kept, or among those that are not. -/
theorem keptGroups_concat {groups : List (List ThreadId)} {dropped : List Nat}
    (h : ∀ i ∈ dropped, i < groups.length) (members : List ThreadId) :
    keptGroups (groups ++ [members]) dropped =
        keptGroups groups dropped ++ [(members, groups.length)] ∧
      keptGroups (groups ++ [members]) (dropped ++ [groups.length]) =
        keptGroups groups dropped := by
  have hnew : groups.length ∉ dropped := fun hmem => Nat.lt_irrefl _ (h _ hmem)
  unfold keptGroups
  rw [List.zipIdx_append, List.filter_append, List.filter_append]
  refine ⟨by simp [hnew], ?_⟩
  have hold : groups.zipIdx.filter (fun group => decide (group.2 ∉ dropped ++ [groups.length])) =
      groups.zipIdx.filter fun group => decide (group.2 ∉ dropped) := by
    refine List.filter_congr fun group hgroup => ?_
    have hlt := (List.mem_zipIdx hgroup).2.1
    have hne : group.2 ≠ groups.length := by omega
    simp [hne]
  rw [hold]
  simp

/-- The points and edges after some groups: those of the graph with joins, and then those of every
group that is kept. -/
theorem afterGroups_laid_out (ht : t.WellFormed) (groups : List (List ThreadId)) :
    (afterGroups t groups).1.points = (base t).points ++
        (keptGroups groups (afterGroups t groups).2).flatMap (meetsOf t) ∧
      (afterGroups t groups).1.edges = (afterJoins t t.events).1.edges ++
        (keptGroups groups (afterGroups t groups).2).flatMap (groupEdges t) := by
  induction groups using List.reverseRecOn with
  | nil =>
    have hjoined := joined_afterJoins ht t.events (List.prefix_refl _)
    simp [afterGroups, keptGroups, hjoined.points]
  | append_singleton groups members ih =>
    obtain ⟨hpoints, hedges⟩ := ih
    obtain ⟨hkept, hdropped⟩ :=
      keptGroups_concat (grouped_afterJoins ht groups).dropped_lt members
    rw [← afterGroups] at hkept hdropped
    rw [afterGroups_concat]
    unfold addGroup
    dsimp only
    split
    · rw [hkept, List.flatMap_append, List.flatMap_append, ← List.append_assoc, ← List.append_assoc,
        ← hpoints, ← hedges, List.flatMap_singleton, List.flatMap_singleton]
      exact ⟨rfl, rfl⟩
    · rw [hdropped]
      exact ⟨hpoints, hedges⟩

/-! ### Groups that are taken back -/

/-- Adds a group in full; if that closes a circle, its meeting points are taken away again, the
latest first. -/
def tryGroup (t : Trace) (state : OrderGraph × List Nat) (group : List ThreadId × Nat) :
    OrderGraph × List Nat :=
  let (g, dropped) := state
  let extended := withGroup t g group.2 group.1
  if extended.isAcyclic then (extended, dropped)
  else
    let positions := (List.range (roundsOf t group.1)).map (g.points.length + ·)
    (positions.reverse.foldl removeAt extended, dropped ++ [group.2])

/-- A group that is taken back leaves nothing behind. -/
theorem tryGroup_eq {g : OrderGraph} (hg : g.Closed) {group : List ThreadId × Nat}
    (hnew : ∀ k, Point.meet group.2 k ∉ g.points) (dropped : List Nat) :
    tryGroup t (g, dropped) group = addGroup t (g, dropped) group := by
  have hextended : withGroup t g group.2 group.1 =
      ⟨g.points ++ meetsOf t group, g.edges ++ groupEdges t group⟩ := rfl
  have hrounds : roundsOf t group.1 = (meetsOf t group).length := by simp [meetsOf]
  have hfresh : ∀ p ∈ meetsOf t group, p ∉ g.points := by
    intro p hp
    obtain ⟨k, -, rfl⟩ := List.mem_map.1 hp
    exact hnew k
  -- Edges that were there avoid the meeting points, and those of the group do not.
  have hold : g.edges.filter (fun e => decide (e.1 ∉ meetsOf t group) &&
      decide (e.2 ∉ meetsOf t group)) = g.edges := by
    refine List.filter_eq_self.2 fun e he => ?_
    obtain ⟨h₁, h₂⟩ := hg (show g.Edge e.1 e.2 from he)
    simp only [Bool.and_eq_true, decide_eq_true_eq]
    exact ⟨fun hmem => hfresh _ hmem h₁, fun hmem => hfresh _ hmem h₂⟩
  have hadded : (groupEdges t group).filter (fun e => decide (e.1 ∉ meetsOf t group) &&
      decide (e.2 ∉ meetsOf t group)) = [] := by
    refine List.filter_eq_nil_iff.2 fun e he => ?_
    obtain ⟨k, hk, hround⟩ := List.mem_flatMap.1 he
    have hmeet : Point.meet group.2 k ∈ meetsOf t group := List.mem_map.2 ⟨k, hk, rfl⟩
    obtain ⟨m, -, r, -, ⟨-, h⟩ | ⟨h, -⟩⟩ := mem_roundEdges.1 hround <;> simp [h, hmeet]
  unfold tryGroup addGroup
  dsimp only
  rw [hextended, hrounds, foldl_removeAt, List.filter_append, hold, hadded, List.append_nil]

/-- The order is the same if groups are tried and taken back. -/
theorem foldl_tryGroup_eq (ht : t.WellFormed) (groups : List (List ThreadId)) :
    groups.zipIdx.foldl (tryGroup t) ((afterJoins t t.events).1, []) = afterGroups t groups := by
  induction groups using List.reverseRecOn with
  | nil => rfl
  | append_singleton groups members ih =>
    have hgrouped := grouped_afterJoins ht groups
    have hnew : ∀ k, Point.meet groups.length k ∉ (afterGroups t groups).1.points := fun k hk =>
      Nat.lt_irrefl _ ((arranged_afterGroups ht groups).meet_lt _ k hk)
    rw [afterGroups_concat, List.zipIdx_append, List.foldl_append, ih, List.zipIdx_singleton,
      List.foldl_cons, List.foldl_nil, Nat.zero_add]
    exact @tryGroup_eq t _ hgrouped.closed (members, groups.length) hnew _

/-! ### What was left out -/

/-- A graph only gains edges when more groups are added. -/
theorem edges_afterGroups_grow (t : Trace) (groups more : List (List ThreadId)) :
    (afterGroups t groups).1.edges <+: (afterGroups t (groups ++ more)).1.edges := by
  induction more using List.reverseRecOn with
  | nil => simp
  | append_singleton more members ih =>
    rw [← List.append_assoc, afterGroups_concat]
    unfold addGroup
    dsimp only
    split
    · exact ih.trans (List.prefix_append _ _)
    · exact ih

/-- A group is left out because it closes a circle with the groups before it. -/
theorem exists_circle_of_dropped {groups : List (List ThreadId)} {i : Nat}
    (h : i ∈ (afterGroups t groups).2) :
    ∃ first members more, groups = first ++ members :: more ∧ first.length = i ∧
      (withGroup t (afterGroups t first).1 i members).isAcyclic = false := by
  induction groups using List.reverseRecOn with
  | nil => cases h
  | append_singleton groups members ih =>
    rw [afterGroups_concat, addGroup_snd] at h
    have hearlier : i ∈ (afterGroups t groups).2 → ∃ first members' more,
        groups ++ [members] = first ++ members' :: more ∧ first.length = i ∧
          (withGroup t (afterGroups t first).1 i members').isAcyclic = false := by
      intro hmem
      obtain ⟨first, members', more, rfl, hi, hcircle⟩ := ih hmem
      exact ⟨first, members', more ++ [members], by simp, hi, hcircle⟩
    split at h
    · exact hearlier h
    · next hcircle =>
      rcases List.mem_append.1 h with h | h
      · exact hearlier h
      · obtain rfl := List.mem_singleton.1 h
        exact ⟨groups, members, [], rfl, rfl, Bool.eq_false_iff.2 hcircle⟩

/-- What an order is found with: its groups, and its graph and what was left out as joins and then
groups are added one after the other. -/
theorem stages_of_ofTrace (h : ofTrace t = .ok o) :
    t.barrierGroups = .ok o.groups ∧ o.droppedJoins = (afterJoins t t.events).2 ∧
      afterGroups t o.groups = (o.graph, o.droppedGroups) := by
  obtain ⟨⟨⟩, -, h⟩ := Except.bind_eq_ok.1 h
  obtain ⟨groups, hgroups, h⟩ := Except.bind_eq_ok.1 h
  dsimp only at h
  split at h
  · cases h
  · cases h
    exact ⟨hgroups, rfl, rfl⟩

/-- The graph of an order, point by point and edge by edge. -/
structure LaidOut (t : Trace) (o : HappensBefore) : Prop where
  groups : t.barrierGroups = .ok o.groups
  /-- Behind the points of the threads there are the meeting points of the groups that are kept. -/
  points : o.graph.points =
    (base t).points ++ (keptGroups o.groups o.droppedGroups).flatMap (meetsOf t)
  /-- Program order and forks, then the joins and the groups that are kept. -/
  edges : o.graph.edges = (base t).edges ++ t.events.filterMap (joinEdge? o.droppedJoins) ++
    (keptGroups o.groups o.droppedGroups).flatMap (groupEdges t)
  shows : Shows t o.choice o.graph
  nodup : o.graph.points.Nodup
  /-- Each start, end and event stands where it stood at first. -/
  stored : ∀ p : Point, ((∃ i < t.threadCount, p = .start i ∨ p = .finish i) ∨
      ∃ r e, t.event? r = some e ∧ p = .event r) →
    ∃ k : Nat, (base t).points[k]? = some p ∧ o.graph.points[k]? = some p
  /-- Groups that were added in full and taken back have left nothing behind. -/
  tried : o.groups.zipIdx.foldl (tryGroup t) ((afterJoins t t.events).1, []) =
    (o.graph, o.droppedGroups)
  acyclic : o.graph.Acyclic

/-- The graph of every order that is found is laid out. -/
theorem laidOut_of_ofTrace (ht : t.WellFormed) (h : ofTrace t = .ok o) : LaidOut t o := by
  obtain ⟨hgroups, hjoins, hstages⟩ := stages_of_ofTrace h
  obtain ⟨hpoints, hedges⟩ := afterGroups_laid_out ht o.groups
  have harranged := arranged_afterGroups ht o.groups
  obtain ⟨-, hacyclic, -⟩ := (stage_of_ofTrace h).sound ht
  have hshows := (grouped_afterJoins ht o.groups).shows ht
  rw [← afterGroups, hstages, ← hjoins] at hshows
  rw [edges_afterJoins ht t.events (List.prefix_refl _), ← hjoins] at hedges
  rw [hstages] at hpoints hedges harranged
  refine ⟨hgroups, hpoints, hedges, hshows, harranged.nodup, ?_, ?_, hacyclic⟩
  · intro p hp
    obtain ⟨k, hk⟩ := List.mem_iff_getElem?.1 ((mem_points_base ht).2 hp)
    obtain ⟨rest, hrest⟩ := harranged.initial
    refine ⟨k, hk, ?_⟩
    rw [← hrest, List.getElem?_append_left (List.getElem?_eq_some_iff.1 hk).1]
    exact hk
  · rw [foldl_tryGroup_eq ht, hstages]

/-- The edge of a join that was left out closes a circle in the final graph. -/
theorem LaidOut.circle_of_join (h : LaidOut t o) (ht : t.WellFormed)
    (hjoins : o.droppedJoins = (afterJoins t t.events).2) {r : EventRef}
    (hr : r ∈ o.droppedJoins) :
    ∃ e child, t.event? r = some e ∧ e.kind = .join (some child) ∧
      ¬ (o.graph.addEdge (.finish child) (.event r)).Acyclic := by
  rw [hjoins] at hr
  obtain ⟨e, hmem, rfl, child, hjoin⟩ :=
    (mem_dropped_foldl hr).resolve_left List.not_mem_nil
  have he := ht.mem_events.1 hmem
  refine ⟨e, child, he, hjoin, fun hacyclic => ?_⟩
  -- The earlier joins that led back to the end of the child are all kept.
  have hpath : TransGen (Linked t o.choice) (.event e.ref) (.finish child) := by
    refine TransGen.mono ?_ _ _ ((mem_dropped_iff ht he hjoin).1 hr)
    rintro a b (hbasic | ⟨he', hjoin', hkept⟩ | ⟨hgroup, -⟩)
    · exact .basic hbasic
    · refine .join he' hjoin' ?_
      show _ ∉ o.droppedJoins
      rw [hjoins]
      exact hkept.2
    · cases hgroup
  have hold : TransGen (o.graph.addEdge (.finish child) (.event e.ref)).Edge (.event e.ref)
      (.finish child) :=
    TransGen.mono (fun _ _ hab => edge_addEdge.2 (Or.inl hab)) _ _
      ((h.shows.path_iff rfl rfl).2 hpath)
  exact hacyclic _ (hold.tail (edge_addEdge.2 (Or.inr ⟨rfl, rfl⟩)))

/-- The rounds of a group that was left out close a circle in the final graph. -/
theorem circle_of_group (ht : t.WellFormed)
    (hstages : afterGroups t o.groups = (o.graph, o.droppedGroups)) {i : Nat}
    (hi : i ∈ o.droppedGroups) :
    ∃ members, o.groups[i]? = some members ∧ ¬ (withGroup t o.graph i members).Acyclic := by
  have hdropped : i ∈ (afterGroups t o.groups).2 := by rw [hstages]; exact hi
  obtain ⟨first, members, more, hsplit, rfl, hcircle⟩ := exists_circle_of_dropped hdropped
  refine ⟨members, by rw [hsplit]; simp, fun hacyclic => ?_⟩
  have hgrouped := grouped_afterJoins ht first
  have hclosed := closed_withGroup ht hgrouped.closed hgrouped.points first.length members
  have hle : ∀ a b, (withGroup t (afterGroups t first).1 first.length members).Edge a b →
      (withGroup t o.graph first.length members).Edge a b := by
    intro a b hab
    have hgrows := (edges_afterGroups_grow t first (members :: more)).subset
    rw [← hsplit, hstages] at hgrows
    rw [edge_withGroup] at hab ⊢
    exact hab.imp_left fun hedge => hgrows hedge
  have hthen := (isAcyclic_iff hclosed).2 (hacyclic.of_le hle)
  rw [← afterGroups, hcircle] at hthen
  cases hthen

/-- The graph of the order of every trace that is built is laid out, and what was left out closes a
circle in it: the edge of every join, and the rounds of every group. -/
theorem graph_laid_out {c : Subject} (hbuild : Trace.build c = .ok t) :
    ∃ o, ofTrace t = .ok o ∧ LaidOut t o ∧
      (∀ r ∈ o.droppedJoins, ∃ e child, t.event? r = some e ∧ e.kind = .join (some child) ∧
        ¬ (o.graph.addEdge (.finish child) (.event r)).Acyclic) ∧
      ∀ i ∈ o.droppedGroups, ∃ members, o.groups[i]? = some members ∧
        ¬ (withGroup t o.graph i members).Acyclic := by
  have ht := Trace.build_wellFormed hbuild
  obtain ⟨o, ho, -⟩ := exists_ordered ht
  have h := laidOut_of_ofTrace ht ho
  obtain ⟨-, hjoins, hstages⟩ := stages_of_ofTrace ho
  exact ⟨o, ho, h, fun r hr => h.circle_of_join ht hjoins hr,
    fun i hi => circle_of_group ht hstages hi⟩

/-- Behind the points of the threads stands the meeting point of the team, which both members come
to and go on from. -/
theorem laid_out_teamTask :
    Trace.build TeamTask.subject = .ok TeamTask.trace ∧
      ∃ o, ofTrace TeamTask.trace = .ok o ∧ LaidOut TeamTask.trace o ∧
        o.graph.points = (base TeamTask.trace).points ++ [.meet 0 0] ∧
        [(.event ⟨1, 2⟩, .meet 0 0), (.meet 0 0, .finish 1), (.event ⟨3, 0⟩, .meet 0 0),
          (.meet 0 0, .finish 3)] <:+ o.graph.edges := by
  obtain ⟨o, ho, h, -⟩ := graph_laid_out TeamTask.build_eq
  obtain ⟨hgroups, hdropped⟩ :=
    (ordered_of_ofTrace (Trace.build_wellFormed TeamTask.build_eq) ho).teamTask
  refine ⟨TeamTask.build_eq, o, ho, h, ?_, ?_⟩
  · rw [h.points, hgroups, hdropped]
    rfl
  · rw [h.edges, hgroups, hdropped]
    exact List.suffix_append _ _

end HappensBefore

end DataRace
