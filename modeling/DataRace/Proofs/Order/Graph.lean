import DataRace.Order.Graph
import Mathlib.Data.Set.Finite.Lattice
import Mathlib.Logic.Relation
import Mathlib.Order.WellFounded

/-!
# Paths in order graphs

`OrderGraph.Edge` is the edge relation of a graph.  For a graph whose edges join its own points,
`OrderGraph.reaches` decides whether a path leads from one point to another (`reaches_iff`), and
`OrderGraph.sorted?` answers a list exactly if no path leads back to where it began
(`isAcyclic_iff`).  Such a list holds every point, and each point stands behind all points that
have an edge to it (`sorted?_spec`).  An edge may be added without closing a circle if its target
does not lead to its source (`Acyclic.addEdge`).
-/

namespace DataRace

namespace OrderGraph

open Relation

/-- An edge leads from one point to another. -/
def Edge (g : OrderGraph) (a b : Point) : Prop := (a, b) ∈ g.edges

/-- Every edge joins two points of the graph. -/
def Closed (g : OrderGraph) : Prop := ∀ ⦃a b⦄, g.Edge a b → a ∈ g.points ∧ b ∈ g.points

/-- No path leads back to where it began. -/
def Acyclic (g : OrderGraph) : Prop := ∀ p, ¬ TransGen g.Edge p p

/-! ### Neighbours -/

/-- Indexing adds the first pair in front of the row of its key. -/
theorem index_cons (a b : Point) (pairs : List (Point × Point)) :
    index ((a, b) :: pairs) =
      (index pairs).alter a fun row => some (b :: row.getD []) := rfl

/-- The index of a list of pairs has a value in the row of a key exactly if it has the pair. -/
theorem mem_index {pairs : List (Point × Point)} {a b : Point} :
    b ∈ (index pairs).getD a [] ↔ (a, b) ∈ pairs := by
  induction pairs with
  | nil => simp [index]
  | cons p pairs ih =>
    obtain ⟨x, y⟩ := p
    rw [index_cons, Std.HashMap.getD_alter]
    by_cases h : x = a
    · subst h
      simp [← ih, Std.HashMap.getD_eq_getD_getElem?]
    · have hne : ¬ a = x := fun e => h e.symm
      simp [h, hne, ih]

/-- The successors of a point are the targets of its edges. -/
theorem mem_successors {g : OrderGraph} {a b : Point} :
    b ∈ g.successors.getD a [] ↔ g.Edge a b := mem_index

/-- The predecessors of a point are the sources of the edges to it. -/
theorem mem_predecessors {g : OrderGraph} {a b : Point} :
    a ∈ g.predecessors.getD b [] ↔ g.Edge a b := by
  rw [predecessors, mem_index, Edge]
  simp

/-! ### Searching -/

/-- A step to a successor inside a set of points. -/
def StepIn (next : Std.HashMap Point (List Point)) (s : Std.HashSet Point) (a b : Point) : Prop :=
  b ∈ next.getD a [] ∧ b ∈ s

/-- A path inside a set that ends elsewhere than at a point either avoids the point, or goes on from
its last visit there. -/
theorem stepIn_erase {next : Std.HashMap Point (List Point)} {s : Std.HashSet Point}
    {p q goal : Point} (hne : p ≠ goal) (h : ReflTransGen (StepIn next s) q goal) :
    ReflTransGen (StepIn next (s.erase p)) q goal ∨
      ∃ r ∈ next.getD p [], r ∈ s.erase p ∧ ReflTransGen (StepIn next (s.erase p)) r goal := by
  induction h using ReflTransGen.head_induction_on with
  | refl => exact Or.inl .refl
  | @head q r hstep _ ih =>
    rcases ih with ih | ih
    · by_cases hr : r = p
      · subst hr
        rcases ih.cases_head with rfl | ⟨x, hx, hxs⟩
        · exact absurd rfl hne
        · exact Or.inr ⟨x, hx.1, hx.2, hxs⟩
      · have hr' : r ∈ s.erase p := by simpa [Std.HashSet.mem_erase, Ne.symm hr] using hstep.2
        exact Or.inl (ReflTransGen.head ⟨hstep.1, hr'⟩ ih)
    · exact Or.inr ih

/-- A path in a smaller set is a path in the larger one. -/
theorem stepIn_of_erase {next : Std.HashMap Point (List Point)} {s : Std.HashSet Point}
    {p q goal : Point} (h : ReflTransGen (StepIn next (s.erase p)) q goal) :
    ReflTransGen (StepIn next s) q goal :=
  ReflTransGen.mono (fun _ _ hab => ⟨hab.1, Std.HashSet.mem_of_mem_erase hab.2⟩) _ _ h

/-- The search finds its goal exactly if a path through unvisited points leads there from one of
the points to begin with. -/
theorem search_eq_true_iff (next : Std.HashMap Point (List Point)) (goal : Point)
    (unvisited : Std.HashSet Point) (todo : List Point) :
    search next goal unvisited todo = true ↔
      ∃ p ∈ todo, p ∈ unvisited ∧ ReflTransGen (StepIn next unvisited) p goal := by
  fun_induction search next goal unvisited todo with
  | case1 => simp
  | case2 unvisited rest hmem =>
    simp only [true_iff]
    exact ⟨goal, List.mem_cons_self, hmem, .refl⟩
  | case3 unvisited p rest hmem _ hne ih =>
    rw [ih]
    constructor
    · rintro ⟨q, hq, hqu, hpath⟩
      have hqu' : q ∈ unvisited := Std.HashSet.mem_of_mem_erase hqu
      rcases List.mem_append.1 hq with hq | hq
      · exact ⟨p, List.mem_cons_self, hmem, .head ⟨hq, hqu'⟩ (stepIn_of_erase hpath)⟩
      · exact ⟨q, List.mem_cons_of_mem _ hq, hqu', stepIn_of_erase hpath⟩
    · rintro ⟨q, hq, hqu, hpath⟩
      rcases stepIn_erase hne hpath with h | ⟨r, hr, hru, h⟩
      · by_cases hqp : q = p
        · subst hqp
          rcases h.cases_head with rfl | ⟨r, hr, hrs⟩
          · exact absurd rfl hne
          · exact ⟨r, List.mem_append_left _ hr.1, hr.2, hrs⟩
        · have hq' : q ∈ rest := by simpa [hqp] using hq
          refine ⟨q, List.mem_append_right _ hq', ?_, h⟩
          simpa [Std.HashSet.mem_erase, Ne.symm hqp] using hqu
      · exact ⟨r, List.mem_append_left _ hr, hru, h⟩
  | case4 unvisited p rest hmem ih =>
    rw [ih]
    constructor
    · rintro ⟨q, hq, h⟩
      exact ⟨q, List.mem_cons_of_mem _ hq, h⟩
    · rintro ⟨q, hq, hqu, h⟩
      rcases List.mem_cons.1 hq with rfl | hq
      · exact absurd hqu hmem
      · exact ⟨q, hq, hqu, h⟩

/-- Reachability in a graph is the existence of a path. -/
theorem reaches_iff {g : OrderGraph} (hg : g.Closed) {a b : Point} (ha : a ∈ g.points) :
    g.reaches a b = true ↔ ReflTransGen g.Edge a b := by
  rw [reaches, search_eq_true_iff]
  constructor
  · rintro ⟨p, hp, -, hpath⟩
    obtain rfl : p = a := by simpa using hp
    exact ReflTransGen.mono (fun _ _ h => mem_successors.1 h.1) _ _ hpath
  · intro hpath
    refine ⟨a, List.mem_cons_self, by simpa [Std.HashSet.mem_ofList] using ha, ?_⟩
    refine ReflTransGen.mono (fun x y h => ⟨mem_successors.2 h, ?_⟩) _ _ hpath
    simpa [Std.HashSet.mem_ofList] using (hg h).2

/-! ### Sorting -/

/-- In a list with the latest point first, the points right before each point stand behind it. -/
def Settled (before : Std.HashMap Point (List Point)) : List Point → Prop
  | [] => True
  | p :: ps => (∀ q ∈ before.getD p [], q ∈ ps) ∧ Settled before ps

/-- What sorting keeps: the placed points are those of the order so far, which is settled. -/
structure Frontier (before : Std.HashMap Point (List Point)) (placed : Std.HashSet Point)
    (order : List Point) : Prop where
  mem_placed : ∀ p, p ∈ placed ↔ p ∈ order
  settled : Settled before order

namespace Frontier

variable {before : Std.HashMap Point (List Point)} {placed : Std.HashSet Point}
  {order : List Point}

/-- A point is ready if the points right before it are in the order. -/
theorem ready_iff (h : Frontier before placed order) (p : Point) :
    (before.getD p []).all placed.contains = true ↔ ∀ q ∈ before.getD p [], q ∈ order := by
  rw [List.all_eq_true]
  exact forall₂_congr fun q _ => by
    rw [← h.mem_placed q, Std.HashSet.contains_iff_mem]

/-- A ready point can be placed. -/
theorem insert (h : Frontier before placed order) {p : Point}
    (hp : ∀ q ∈ before.getD p [], q ∈ order) :
    Frontier before (placed.insert p) (p :: order) where
  mem_placed q := by
    rw [Std.HashSet.mem_insert, h.mem_placed q, List.mem_cons, beq_iff_eq, eq_comm]
  settled := ⟨hp, h.settled⟩

end Frontier

/-- A pass keeps the frontier, and each point that it looks at ends in the order or is left. -/
theorem pass_spec {before : Std.HashMap Point (List Point)} {placed : Std.HashSet Point}
    {order : List Point} (h : Frontier before placed order) (ps left : List Point) :
    Frontier before (pass before ps placed order left).1 (pass before ps placed order left).2.1 ∧
      ∀ p, p ∈ (pass before ps placed order left).2.1 ∨ p ∈ (pass before ps placed order left).2.2 ↔
        p ∈ order ∨ p ∈ left ∨ p ∈ ps := by
  induction ps generalizing placed order left with
  | nil => exact ⟨h, fun p => by simp [pass]⟩
  | cons a ps ih =>
    rw [pass]
    split
    · next hready =>
      obtain ⟨hf, hmem⟩ := ih (h.insert ((h.ready_iff a).1 hready)) left
      refine ⟨hf, fun p => ?_⟩
      rw [hmem p, List.mem_cons, List.mem_cons]
      tauto
    · obtain ⟨hf, hmem⟩ := ih h (a :: left)
      refine ⟨hf, fun p => ?_⟩
      rw [hmem p, List.mem_cons, List.mem_cons]
      tauto

/-- A pass leaves no more points than it looks at. -/
theorem length_pass_le (before : Std.HashMap Point (List Point)) (ps : List Point)
    (placed : Std.HashSet Point) (order left : List Point) :
    (pass before ps placed order left).2.2.length ≤ left.length + ps.length := by
  induction ps generalizing placed order left with
  | nil => simp [pass]
  | cons a ps ih =>
    rw [pass]
    split
    · have := ih (placed.insert a) (a :: order) left
      rw [List.length_cons]
      omega
    · have := ih placed order (a :: left)
      rw [List.length_cons] at this ⊢
      omega

/-- A pass leaves only points that were left before or that it looks at. -/
theorem mem_of_mem_left_pass {before : Std.HashMap Point (List Point)} {ps : List Point}
    {placed : Std.HashSet Point} {order left : List Point} {p : Point}
    (hp : p ∈ (pass before ps placed order left).2.2) : p ∈ left ∨ p ∈ ps := by
  induction ps generalizing placed order left with
  | nil => exact Or.inl hp
  | cons a ps ih =>
    rw [pass] at hp
    split at hp
    · exact (ih hp).imp_right (List.mem_cons_of_mem _)
    · rcases ih hp with h | h
      · rcases List.mem_cons.1 h with rfl | h
        · exact Or.inr List.mem_cons_self
        · exact Or.inl h
      · exact Or.inr (List.mem_cons_of_mem _ h)

/-- A pass over points of which one is ready leaves fewer points. -/
theorem length_pass_lt {before : Std.HashMap Point (List Point)} {ps : List Point}
    {placed : Std.HashSet Point} {order : List Point} (h : Frontier before placed order)
    (left : List Point) {p : Point} (hp : p ∈ ps) (hready : ∀ q ∈ before.getD p [], q ∈ order) :
    (pass before ps placed order left).2.2.length < left.length + ps.length := by
  induction ps generalizing placed order left with
  | nil => cases hp
  | cons a ps ih =>
    rw [pass, List.length_cons]
    split
    · have := length_pass_le before ps (placed.insert a) (a :: order) left
      omega
    · next hnot =>
      have hpa : p ∈ ps := by
        rcases List.mem_cons.1 hp with rfl | hp
        · exact absurd ((h.ready_iff p).2 hready) hnot
        · exact hp
      have := ih h (a :: left) hpa hready
      rw [List.length_cons] at this
      omega

/-- What sorting answers is settled and has the points of the order so far and those that were
waiting. -/
theorem sort_eq_some {before : Std.HashMap Point (List Point)} {placed : Std.HashSet Point}
    {order waiting sorted : List Point} (h : Frontier before placed order)
    (hs : sort before placed order waiting = some sorted) :
    Settled before sorted.reverse ∧ ∀ p, p ∈ sorted ↔ p ∈ order ∨ p ∈ waiting := by
  fun_induction sort before placed order waiting with
  | case1 placed order waiting hempty =>
    obtain rfl : order.reverse = sorted := by simpa using hs
    rw [List.isEmpty_iff] at hempty
    subst hempty
    exact ⟨by simpa using h.settled, fun p => by simp⟩
  | case2 placed order waiting _ placed' order' left hpass hlt ih =>
    obtain ⟨hf, hmem⟩ := pass_spec h waiting []
    simp only [hpass] at hf hmem
    obtain ⟨hsettled, hsorted⟩ := ih hf hs
    refine ⟨hsettled, fun p => ?_⟩
    rw [hsorted p, List.mem_reverse, hmem p]
    simp
  | case3 => cases hs

/-- Sorting succeeds if whatever is left has a point without predecessors among what is left. -/
theorem sort_isSome {before : Std.HashMap Point (List Point)} {placed : Std.HashSet Point}
    {order waiting : List Point} (h : Frontier before placed order)
    (hclosed : ∀ p ∈ waiting, ∀ q ∈ before.getD p [], q ∈ order ∨ q ∈ waiting)
    (hmin : ∀ rest ⊆ waiting, rest ≠ [] → ∃ p ∈ rest, ∀ q ∈ before.getD p [], q ∉ rest) :
    (sort before placed order waiting).isSome = true := by
  fun_induction sort before placed order waiting with
  | case1 => rfl
  | case2 placed order waiting _ placed' order' left hpass hlt ih =>
    obtain ⟨hf, hmem⟩ := pass_spec h waiting []
    simp only [hpass] at hf hmem
    have hleft : left.reverse ⊆ waiting := by
      intro p hp
      have hp' : p ∈ (pass before waiting placed order []).2.2 := by
        rw [hpass]
        exact List.mem_reverse.1 hp
      exact (mem_of_mem_left_pass hp').resolve_left List.not_mem_nil
    refine ih hf ?_ fun rest hrest => hmin rest (List.Subset.trans hrest hleft)
    intro p hp q hq
    rw [List.mem_reverse]
    exact (hmem q).2 ((hclosed p (hleft hp) q hq).imp_right Or.inr)
  | case3 placed order waiting hempty placed' order' left hpass hlt =>
    have hne : waiting ≠ [] := by simpa using hempty
    obtain ⟨p, hp, hready⟩ := hmin waiting (List.Subset.refl _) hne
    have hlt' := length_pass_lt h [] hp fun q hq =>
      (hclosed p hp q hq).resolve_right (hready q hq)
    simp only [hpass, List.length_nil, Nat.zero_add] at hlt'
    exact absurd hlt' hlt

/-- In a settled list without its end, a point stands before every point that has an edge to it. -/
theorem Settled.of_append {before : Std.HashMap Point (List Point)} {l₁ l₂ : List Point} {p : Point}
    (h : Settled before (l₁ ++ p :: l₂)) : ∀ q ∈ before.getD p [], q ∈ l₂ := by
  induction l₁ with
  | nil => exact h.1
  | cons a l₁ ih => exact ih h.2

/-- A sorted list has the points of the graph, and each point stands behind all points that have an
edge to it. -/
theorem sorted?_spec {g : OrderGraph} {order : List Point} (h : g.sorted? = some order) :
    (∀ p, p ∈ order ↔ p ∈ g.points) ∧
      ∀ l₁ p l₂, order = l₁ ++ p :: l₂ → ∀ q, g.Edge q p → q ∈ l₁ := by
  have hinit : Frontier g.predecessors ∅ [] := ⟨by simp, trivial⟩
  obtain ⟨hsettled, hmem⟩ := sort_eq_some hinit h
  refine ⟨fun p => by simpa using hmem p, ?_⟩
  rintro l₁ p l₂ rfl q hq
  rw [List.reverse_append, List.reverse_cons, List.append_assoc] at hsettled
  simpa using hsettled.of_append q (mem_predecessors.2 hq)

/-- In a finite acyclic graph every list of points has a member to which no edge leads from
another. -/
theorem Acyclic.exists_minimal {g : OrderGraph} (h : g.Acyclic) {rest : List Point}
    (hne : rest ≠ []) : ∃ p ∈ rest, ∀ q, g.Edge q p → q ∉ rest := by
  let r : {p // p ∈ rest} → {p // p ∈ rest} → Prop := fun a b => TransGen g.Edge a b
  have : IsTrans _ r := ⟨fun _ _ _ => TransGen.trans⟩
  have : Std.Irrefl r := ⟨fun a => h a⟩
  have : Finite {p // p ∈ rest} := (List.finite_toSet rest).to_subtype
  have hwf : WellFounded r := Finite.wellFounded_of_trans_of_irrefl r
  obtain ⟨a, ha⟩ := List.exists_mem_of_ne_nil rest hne
  obtain ⟨p, -, hp⟩ := hwf.has_min Set.univ ⟨⟨a, ha⟩, trivial⟩
  exact ⟨p, p.2, fun q hq hmem => hp ⟨q, hmem⟩ trivial (.single hq)⟩

/-- A graph can be sorted exactly if no path leads back to where it began. -/
theorem isAcyclic_iff {g : OrderGraph} (hg : g.Closed) : g.isAcyclic = true ↔ g.Acyclic := by
  constructor
  · intro h
    obtain ⟨order, horder⟩ := Option.isSome_iff_exists.1 h
    obtain ⟨hmem, hbehind⟩ := sorted?_spec horder
    -- The first positions of points in the list increase along edges.
    have hidx : ∀ q p, g.Edge q p → order.idxOf q < order.idxOf p := by
      intro q p hqp
      obtain ⟨l₁, l₂, hsplit, hp⟩ := List.eq_append_cons_of_mem ((hmem p).2 (hg hqp).2)
      have hq : q ∈ l₁ := hbehind l₁ p l₂ hsplit q hqp
      rw [hsplit, List.idxOf_append_of_mem hq, List.idxOf_append_of_notMem hp]
      have := List.idxOf_lt_length_iff.2 hq
      omega
    have hpath : ∀ q p, TransGen g.Edge q p → order.idxOf q < order.idxOf p := by
      intro q p hqp
      induction hqp with
      | single hqp => exact hidx _ _ hqp
      | tail _ hstep ih => exact ih.trans (hidx _ _ hstep)
    exact fun p hp => (hpath p p hp).false
  · intro h
    refine sort_isSome ⟨by simp, trivial⟩ ?_ ?_
    · intro p hp q hq
      exact Or.inr (hg (mem_predecessors.1 hq)).1
    · intro rest _ hne
      obtain ⟨p, hp, hmin⟩ := h.exists_minimal hne
      exact ⟨p, hp, fun q hq => hmin q (mem_predecessors.1 hq)⟩

/-! ### Adding edges -/

/-- The edges of a graph with one edge more. -/
theorem edge_addEdge {g : OrderGraph} {a b x y : Point} :
    (g.addEdge a b).Edge x y ↔ g.Edge x y ∨ x = a ∧ y = b := by
  unfold Edge addEdge
  rw [List.mem_append, List.mem_singleton, Prod.mk.injEq]

/-- A path in a graph with one edge more goes without this edge, or up to it and on from it, unless
the edge closes a circle. -/
theorem transGen_addEdge {g : OrderGraph} {a b x y : Point} (hab : ¬ ReflTransGen g.Edge b a)
    (h : TransGen (g.addEdge a b).Edge x y) :
    TransGen g.Edge x y ∨ ReflTransGen g.Edge x a ∧ ReflTransGen g.Edge b y := by
  induction h with
  | single hstep =>
    rcases edge_addEdge.1 hstep with hold | ⟨rfl, rfl⟩
    · exact Or.inl (.single hold)
    · exact Or.inr ⟨.refl, .refl⟩
  | @tail y z _ hstep ih =>
    rcases edge_addEdge.1 hstep with hold | ⟨rfl, rfl⟩
    · rcases ih with hpath | ⟨hto, hfrom⟩
      · exact Or.inl (hpath.tail hold)
      · exact Or.inr ⟨hto, hfrom.tail hold⟩
    · rcases ih with hpath | ⟨-, hfrom⟩
      · exact Or.inr ⟨hpath.to_reflTransGen, .refl⟩
      · exact absurd hfrom hab

/-- An edge whose target does not lead to its source closes no circle. -/
theorem Acyclic.addEdge {g : OrderGraph} (hg : g.Acyclic) {a b : Point}
    (hab : ¬ ReflTransGen g.Edge b a) : (g.addEdge a b).Acyclic := by
  intro p hp
  rcases transGen_addEdge hab hp with hpath | ⟨hto, hfrom⟩
  · exact hg p hpath
  · exact hab (hfrom.trans hto)

end OrderGraph

end DataRace
