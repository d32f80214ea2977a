import DataRace.Proofs.Order.Groups

/-!
# Links

A `HappensBefore.Choice` tells which joins and which barrier groups take part in an order.
`HappensBefore.Linked` is the relation that such an order is made of: program order, forks, the
chosen joins, and for each chosen group the step from a barrier of one member to what comes after
the same round of another.

A graph that shows a choice goes through meeting points instead; between points of threads its paths
are the transitive closure of the links (`Shows.path_iff`), and it has a circle exactly if the links
have one (`Shows.acyclic_iff`).
-/

namespace DataRace

namespace HappensBefore

open Relation OrderGraph

/-- The joins and the barrier groups that take part in an order. -/
structure Choice where
  joins : EventRef → Prop
  groups : List (List ThreadId)
  /-- The groups that take part, by position. -/
  kept : Nat → Prop

/-- What an order is made of. -/
inductive Linked (t : Trace) (s : Choice) : Point → Point → Prop
  /-- Program order, and forks before the start of the child. -/
  | basic {a b : Point} (h : Basic t a b) : Linked t s a b
  /-- The end of a thread comes before a chosen join of it. -/
  | join {r : EventRef} {e : Event} {child : ThreadId} (he : t.event? r = some e)
      (hjoin : e.kind = .join (some child)) (hkept : s.joins r) :
      Linked t s (.finish child) (.event r)
  /-- In a chosen group, a barrier of any member comes before what follows the same round of every
  member. -/
  | barrier {group k : Nat} {members : List ThreadId} {m m' : ThreadId} {r r' : EventRef}
      (hgroup : s.groups[group]? = some members) (hkept : s.kept group)
      (hm : m ∈ members) (hr : (barriersOf t m)[k]? = some r)
      (hm' : m' ∈ members) (hr' : (barriersOf t m')[k]? = some r') :
      Linked t s (.event r) (pointAfter t r')

/-- A chosen join as an edge. -/
inductive Joins (t : Trace) (joins : EventRef → Prop) : Point → Point → Prop
  | join {r : EventRef} {e : Event} {child : ThreadId} (he : t.event? r = some e)
      (hjoin : e.kind = .join (some child)) (hkept : joins r) :
      Joins t joins (.finish child) (.event r)

/-- A graph with program order, forks and what was chosen. -/
def Shows (t : Trace) (s : Choice) (g : OrderGraph) : Prop :=
  ∀ a b, g.Edge a b ↔ (Basic t a b ∨ Joins t s.joins a b) ∨
    ∃ group members, s.groups[group]? = some members ∧ s.kept group ∧ Meets t group members a b

variable {t : Trace} {s : Choice} {g : OrderGraph}

/-- Joins that were not left out are chosen joins. -/
theorem kept_iff_joins (ht : t.WellFormed) {es : List Event} {dropped : List EventRef}
    {joins : EventRef → Prop} (hes : ∀ e ∈ es, e ∈ t.events)
    (hs : ∀ e ∈ t.events, joins e.ref ↔ e ∈ es ∧ e.ref ∉ dropped) {a b : Point} :
    Kept es dropped a b ↔ Joins t joins a b := by
  constructor
  · rintro ⟨he, hjoin, hkept⟩
    exact .join (ht.mem_events.1 (hes _ he)) hjoin ((hs _ (hes _ he)).2 ⟨he, hkept⟩)
  · rintro ⟨he, hjoin, hkept⟩
    have href := ht.ref_eq he
    have hmem := ht.mem_events.2 (href.symm ▸ he)
    obtain ⟨hes', hkept'⟩ := (hs _ hmem).1 (href.symm ▸ hkept)
    exact href ▸ .join hes' hjoin hkept'

/-- What links lead to: a point, or for a meeting point the barrier of some member. -/
def Led (t : Trace) (s : Choice) (a : Point) : Point → Prop
  | .meet group k => ∃ members m r, s.groups[group]? = some members ∧ s.kept group ∧
      m ∈ members ∧ (barriersOf t m)[k]? = some r ∧ ReflTransGen (Linked t s) a (.event r)
  | b => ReflTransGen (Linked t s) a b

/-- What leads to a point of a thread are links. -/
theorem led_iff {a b : Point} {i : ThreadId} (hb : threadOf? b = some i) :
    Led t s a b ↔ ReflTransGen (Linked t s) a b := by
  cases b with
  | meet => cases hb
  | start | event | finish => rfl

/-- Program order and forks begin and end in threads. -/
theorem Basic.threadOf? {a b : Point} (h : Basic t a b) :
    (∃ i, HappensBefore.threadOf? a = some i) ∧ ∃ i, HappensBefore.threadOf? b = some i := by
  cases h with
  | first => exact ⟨⟨_, rfl⟩, ⟨_, threadOf?_pointAt _ _⟩⟩
  | next => exact ⟨⟨_, rfl⟩, ⟨_, threadOf?_pointAt _ _⟩⟩
  | fork => exact ⟨⟨_, rfl⟩, ⟨_, rfl⟩⟩

namespace Shows

variable (h : Shows t s g)

include h

/-- A link is a path in the graph. -/
theorem path_of_linked {a b : Point} (hab : Linked t s a b) : TransGen g.Edge a b := by
  cases hab with
  | basic hbasic => exact .single ((h _ _).2 (Or.inl (Or.inl hbasic)))
  | join he hjoin hkept => exact .single ((h _ _).2 (Or.inl (Or.inr (.join he hjoin hkept))))
  | barrier hgroup hkept hm hr hm' hr' =>
    have harrive := (h _ _).2 (Or.inr ⟨_, _, hgroup, hkept, .arrive hm hr⟩)
    have hleave := (h _ _).2 (Or.inr ⟨_, _, hgroup, hkept, .leave hm' hr'⟩)
    exact .tail (.single harrive) hleave

/-- An edge to a point of a thread that follows links ends them with a link. -/
theorem linked_of_led {a b c : Point} (hab : Led t s a b) (hbc : g.Edge b c) {i : ThreadId}
    (hc : threadOf? c = some i) : TransGen (Linked t s) a c := by
  rcases (h b c).1 hbc with (hbasic | ⟨he, hjoin, hkept⟩) | ⟨group, members, hgroup, hkept, hm⟩
  · obtain ⟨⟨j, hj⟩, -⟩ := hbasic.threadOf?
    exact .tail' ((led_iff hj).1 hab) (.basic hbasic)
  · exact .tail' hab (.join he hjoin hkept)
  · cases hm with
    | arrive => cases hc
    | leave hm' hr' =>
      obtain ⟨members', m, r, hgroup', -, hm, hr, hpath⟩ := hab
      rw [hgroup] at hgroup'
      cases hgroup'
      exact .tail' hpath (.barrier hgroup hkept hm hr hm' hr')

/-- Paths in the graph follow links. -/
theorem led_of_path {a b : Point} {i : ThreadId} (ha : threadOf? a = some i)
    (hab : ReflTransGen g.Edge a b) : Led t s a b := by
  induction hab with
  | refl => exact (led_iff ha).2 .refl
  | @tail b c hab hbc ih =>
    cases hc : threadOf? c with
    | some j => exact (led_iff hc).2 (h.linked_of_led ih hbc hc).to_reflTransGen
    | none =>
      rcases (h b c).1 hbc with (hbasic | ⟨he, -, -⟩) | ⟨group, members, hgroup, hkept, hm⟩
      · obtain ⟨-, j, hj⟩ := hbasic.threadOf?
        rw [hc] at hj
        cases hj
      · cases hc
      · cases hm with
        | arrive hm hr => exact ⟨members, _, _, hgroup, hkept, hm, hr, ih⟩
        | leave =>
          rw [pointAfter_eq, threadOf?_pointAt] at hc
          cases hc

/-- Between points of threads, paths in the graph are the transitive closure of links. -/
theorem path_iff {a b : Point} {i j : ThreadId} (ha : threadOf? a = some i)
    (hb : threadOf? b = some j) : TransGen g.Edge a b ↔ TransGen (Linked t s) a b := by
  constructor
  · intro hab
    obtain ⟨c, hac, hcb⟩ := TransGen.tail'_iff.1 hab
    exact h.linked_of_led (h.led_of_path ha hac) hcb hb
  · exact TransGen.closed (fun _ _ => h.path_of_linked) _ _

/-- The graph has no circle exactly if the links have none. -/
theorem acyclic_iff : g.Acyclic ↔ ∀ p, ¬ TransGen (Linked t s) p p := by
  constructor
  · exact fun hg p hp => hg p (TransGen.closed (fun _ _ => h.path_of_linked) _ _ hp)
  · intro hlinks p hp
    cases hthread : threadOf? p with
    | some i => exact hlinks p ((h.path_iff hthread hthread).1 hp)
    | none =>
      -- A circle through a meeting point goes through what follows it.
      obtain ⟨q, hpq, hqp⟩ := TransGen.head'_iff.1 hp
      have hq : ∃ j, threadOf? q = some j := by
        rcases (h p q).1 hpq with (hbasic | hjoin) | ⟨group, members, -, -, hm⟩
        · exact hbasic.threadOf?.2
        · cases hjoin
          cases hthread
        · cases hm with
          | arrive => cases hthread
          | leave => exact ⟨_, threadOf?_pointAt _ _⟩
      obtain ⟨j, hj⟩ := hq
      exact hlinks q ((h.path_iff hj hj).1 (.tail' hqp hpq))

end Shows

namespace Grouped

variable {groups : List (List ThreadId)} {dropped : List Nat}

/-- The graph after some groups were added shows the joins and groups that were not left out. -/
theorem shows (h : Grouped t (afterJoins t t.events).1 groups g dropped) (ht : t.WellFormed) :
    Shows t ⟨(· ∉ (afterJoins t t.events).2), groups, (· ∉ dropped)⟩ g := by
  intro a b
  rw [h.edge, (joined_afterJoins ht t.events (List.prefix_refl _)).edge]
  exact or_congr_left (or_congr_right
    (kept_iff_joins ht (fun _ he => he) fun e he => (and_iff_right he).symm))

/-- With the rounds of one more group it shows that group, too. -/
theorem shows_withGroup (h : Grouped t (afterJoins t t.events).1 groups g dropped)
    (ht : t.WellFormed) (members : List ThreadId) :
    Shows t ⟨(· ∉ (afterJoins t t.events).2), groups ++ [members], (· ∉ dropped)⟩
      (withGroup t g groups.length members) := by
  intro a b
  rw [edge_withGroup, h.shows ht, or_assoc]
  refine or_congr_right ⟨?_, ?_⟩
  · rintro (⟨i, ms, hms, hkept, hmeets⟩ | hmeets)
    · refine ⟨i, ms, ?_, hkept, hmeets⟩
      rw [List.getElem?_append_left (List.getElem?_eq_some_iff.1 hms).1]
      exact hms
    · exact ⟨_, _, List.getElem?_concat_length, fun hmem => Nat.lt_irrefl _ (h.dropped_lt _ hmem),
        hmeets⟩
  · rintro ⟨i, ms, hms, hkept, hmeets⟩
    rcases Nat.lt_or_ge i groups.length with hlt | hge
    · rw [List.getElem?_append_left hlt] at hms
      exact Or.inl ⟨i, ms, hms, hkept, hmeets⟩
    · rw [List.getElem?_append_right hge, List.getElem?_singleton] at hms
      split at hms
      · next hzero =>
        cases hms
        obtain rfl := Nat.le_antisymm (Nat.le_of_sub_eq_zero hzero) hge
        exact Or.inr hmeets
      · cases hms

end Grouped

/-- The graph after all joins and then some groups were added. -/
theorem grouped_afterJoins (ht : t.WellFormed) (groups : List (List ThreadId)) :
    Grouped t (afterJoins t t.events).1 groups
      (groups.zipIdx.foldl (addGroup t) ((afterJoins t t.events).1, [])).1
      (groups.zipIdx.foldl (addGroup t) ((afterJoins t t.events).1, [])).2 := by
  have hjoined := joined_afterJoins ht t.events (List.prefix_refl _)
  exact grouped_foldl ht (hjoined.points ▸ List.Subset.refl _) (hjoined.closed ht fun _ he => he)
    hjoined.acyclic groups

/-- The joins before an event that are not left out. -/
def earlierJoins (t : Trace) (r : EventRef) : Choice where
  joins q := q.Lt r ∧ q ∉ (afterJoins t t.events).2
  groups := []
  kept _ := True

/-- A join is left out exactly if the earlier ones lead from it to the end of the thread that it
joins. -/
theorem mem_dropped_iff (ht : t.WellFormed) {r : EventRef} {e : Event} {child : ThreadId}
    (he : t.event? r = some e) (hjoin : e.kind = .join (some child)) :
    r ∈ (afterJoins t t.events).2 ↔
      TransGen (Linked t (earlierJoins t r)) (.event r) (.finish child) := by
  obtain rfl := ht.ref_eq he
  obtain ⟨es, rest, hsplit⟩ := List.append_of_mem (ht.mem_events.2 he)
  have hjoined := joined_afterJoins ht es ⟨e :: rest, hsplit.symm⟩
  have hsorted := ht.sorted_events
  rw [hsplit] at hsorted
  obtain ⟨-, hsorted', hbefore⟩ := List.pairwise_append.1 hsorted
  have hes : ∀ d ∈ es, d ∈ t.events := fun d hd => hsplit ▸ List.mem_append_left _ hd
  have hshows : Shows t (earlierJoins t e.ref) (afterJoins t es).1 := by
    intro a b
    rw [hjoined.edge]
    have hnone : ¬ ∃ (group : Nat) (members : List ThreadId),
        (earlierJoins t e.ref).groups[group]? = some members ∧
          (earlierJoins t e.ref).kept group ∧ Meets t group members a b := by
      rintro ⟨group, members, hgroup, -⟩
      cases hgroup
    rw [or_iff_left hnone]
    refine or_congr_right (kept_iff_joins ht hes fun d hd => ?_)
    have hsplit' : d ∈ es ↔ d.ref.Lt e.ref := by
      refine ⟨fun hd => hbefore d hd e List.mem_cons_self, fun hlt => ?_⟩
      rw [hsplit] at hd
      refine (List.mem_append.1 hd).resolve_right fun hd => ?_
      rcases List.mem_cons.1 hd with rfl | hd
      · exact EventRef.Lt.irrefl _ hlt
      · exact EventRef.Lt.irrefl _ (hlt.trans ((List.pairwise_cons.1 hsorted').1 d hd))
    rw [hsplit']
    refine and_congr_right fun hlt => not_congr ?_
    exact mem_dropped_of_split ht hsplit (hsplit'.2 hlt)
  have hlast : e.ref ∈ (afterJoins t t.events).2 ↔
      e.ref ∈ (addJoin (afterJoins t es) e).2 := by
    have hsplit' : t.events = (es ++ [e]) ++ rest := by rw [hsplit, List.append_assoc]; rfl
    rw [mem_dropped_of_split ht hsplit' (List.mem_append_right _ List.mem_cons_self)]
    unfold afterJoins
    rw [List.foldl_append]
    rfl
  have hfresh : e.ref ∉ (afterJoins t es).2 := by
    intro hmem
    obtain ⟨d, hd, hde⟩ := hjoined.mem_dropped _ hmem
    exact EventRef.Lt.irrefl _ (hde ▸ hbefore d hd e List.mem_cons_self)
  have hpoint : Point.event e.ref ∈ (afterJoins t es).1.points := by
    rw [hjoined.points, mem_points_base ht]
    exact Or.inr ⟨_, e, he, rfl⟩
  have hreaches : (afterJoins t es).1.reaches (.event e.ref) (.finish child) = true ↔
      TransGen (Linked t (earlierJoins t e.ref)) (.event e.ref) (.finish child) := by
    rw [reaches_iff (hjoined.closed ht hes) hpoint, reflTransGen_iff_eq_or_transGen,
      or_iff_right (fun heq => nomatch heq)]
    exact hshows.path_iff rfl rfl
  rw [hlast, ← hreaches]
  unfold addJoin
  rw [hjoin]
  dsimp only
  split
  · next htrue => simp [htrue]
  · next hfalse => simp [hfalse, hfresh]

end HappensBefore

end DataRace
