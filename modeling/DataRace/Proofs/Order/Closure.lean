import DataRace.Proofs.Order.Clock
import DataRace.Proofs.Order.Upward

/-!
# What happens before what

`HappensBefore.Link` is the relation that the order of a trace is made of: the links for the joins
and barrier groups that were not left out.  The order of every trace that is built is found, and on
existing events it is the transitive closure of these links (`before_iff_transGen`), although it is
read off a single count of a clock.

A join of a later thread puts all events of that thread before the join and before what follows it
(`join_of_later_thread`).  If all resolved joins are of this kind, no barrier group is left out
(`droppedGroups_eq_nil`).
-/

namespace DataRace

namespace HappensBefore

open Relation OrderGraph

/-- The joins and groups that were not left out. -/
def choice (o : HappensBefore) : Choice where
  joins r := r ∉ o.droppedJoins
  groups := o.groups
  kept group := group ∉ o.droppedGroups

/-- What the order of a trace is made of: program order, forks, and the joins and barrier groups
that were not left out. -/
def Link (t : Trace) (o : HappensBefore) : Point → Point → Prop := Linked t o.choice

/-- The order of a trace as it is found: its graph has program order, forks, and what was not left
out, and its clocks count what leads to their points. -/
structure Ordered (t : Trace) (o : HappensBefore) : Prop where
  groups : t.barrierGroups = .ok o.groups
  droppedJoins : o.droppedJoins = (afterJoins t t.events).2
  droppedGroups : o.droppedGroups =
    (o.groups.zipIdx.foldl (addGroup t) ((afterJoins t t.events).1, [])).2
  points : (base t).points ⊆ o.graph.points
  shows : Shows t o.choice o.graph
  closed : o.graph.Closed
  acyclic : o.graph.Acyclic
  counts : ∀ p ∈ o.graph.points, ∃ c, o.clocks[p]? = some c ∧ o.graph.Counts p c

variable {t : Trace}

/-- Forks and joins name threads that exist. -/
theorem checkThreads_eq_ok (ht : t.WellFormed) : checkThreads t = .ok () := by
  unfold checkThreads
  rw [if_pos]
  rw [List.all_eq_true]
  intro e he
  have hfit := ht.fits_event? (ht.mem_events.1 he)
  split
  · next child hkind =>
    obtain ⟨-, th, hth, -⟩ := hfit.fork child hkind
    exact decide_eq_true (Array.getElem?_eq_some_iff.1 hth).1
  · next child hkind => exact decide_eq_true (hfit.join child hkind).1
  · rfl

/-- The order of a well-formed trace is found. -/
theorem exists_ordered (ht : t.WellFormed) : ∃ o, ofTrace t = .ok o ∧ Ordered t o := by
  obtain ⟨groups, hgroups⟩ := Trace.exists_barrierGroups ht
  have hgrouped := grouped_afterJoins ht groups
  obtain ⟨final, hfinal⟩ :
      ∃ final, groups.zipIdx.foldl (addGroup t) ((afterJoins t t.events).1, []) = final := ⟨_, rfl⟩
  rw [hfinal] at hgrouped
  obtain ⟨order, horder⟩ :=
    Option.isSome_iff_exists.1 ((isAcyclic_iff hgrouped.closed).2 hgrouped.acyclic)
  obtain ⟨hmem, hbehind⟩ := sorted?_spec horder
  have hok : ofTrace t = .ok ⟨final.1, groups, final.2, (afterJoins t t.events).2,
      clocksOf t.threadCount final.1.predecessors order⟩ := by
    refine Except.bind_eq_ok.2
      ⟨(), checkThreads_eq_ok ht, Except.bind_eq_ok.2 ⟨groups, hgroups, ?_⟩⟩
    dsimp only
    rw [← afterJoins, hfinal, horder]
  refine ⟨_, hok, hgroups, rfl, ?_, hgrouped.points, hgrouped.shows ht, hgrouped.closed,
    hgrouped.acyclic, fun p hp => clocksOf_counts hbehind p ((hmem p).2 hp)⟩
  exact congrArg Prod.snd hfinal.symm

variable {o : HappensBefore}

/-- What links lead to is in every set of points that no link leaves. -/
theorem mem_of_link {S : Point → Prop} (hS : ∀ p q, Link t o p q → S p → S q) {p q : Point}
    (hp : S p) (hpath : TransGen (Link t o) p q) : S q := by
  induction hpath with
  | single hstep => exact hS _ _ hstep hp
  | tail _ hstep ih => exact hS _ _ hstep ih

namespace Ordered

variable (h : Ordered t o)

include h

/-! ### Reading the order off clocks -/

/-- Program order and forks lead along the graph. -/
theorem path_of_basic {a b : Point} (hab : TransGen (Basic t) a b) :
    TransGen o.graph.Edge a b :=
  TransGen.mono (fun a b hstep => (h.shows a b).2 (Or.inl (Or.inl hstep))) _ _ hab

/-- No join of a later thread is left out. -/
theorem not_mem_droppedJoins (ht : t.WellFormed) {q : EventRef} {e : Event} {child : ThreadId}
    (he : t.event? q = some e) (hjoin : e.kind = .join (some child)) (hlater : q.thread < child) :
    q ∉ o.droppedJoins := by
  obtain rfl := ht.ref_eq he
  rw [h.droppedJoins]
  exact not_mem_dropped ht (ht.mem_events.2 he) hjoin hlater

/-- If only later threads are joined, no barrier group is left out. -/
theorem droppedGroups_eq (ht : t.WellFormed)
    (hup : ∀ r e child, t.event? r = some e → e.kind = .join (some child) → r.thread < child) :
    o.droppedGroups = [] := by
  rw [h.droppedGroups]
  exact foldl_addGroup_snd ht hup fun members hmembers =>
    Trace.barrierGroups_spec ht h.groups hmembers

/-- The end of a later thread leads to every join of it. -/
theorem path_of_join (ht : t.WellFormed) {q : EventRef} {e : Event} {child : ThreadId}
    (he : t.event? q = some e) (hjoin : e.kind = .join (some child)) (hlater : q.thread < child) :
    TransGen o.graph.Edge (.finish child) (.event q) :=
  h.shows.path_of_linked (.join he hjoin (h.not_mem_droppedJoins ht he hjoin hlater))

/-- An event of the trace is a point of the graph. -/
theorem event_mem (ht : t.WellFormed) {r : EventRef} {e : Event} (he : t.event? r = some e) :
    Point.event r ∈ o.graph.points :=
  h.points ((mem_points_base ht).2 (Or.inr ⟨r, e, he, rfl⟩))

/-- An event of the graph is an event of the trace. -/
theorem event?_of_path (ht : t.WellFormed) {r : EventRef} {b : Point}
    (hpath : TransGen o.graph.Edge (.event r) b) : ∃ e, t.event? r = some e := by
  obtain ⟨c, hc, -⟩ := TransGen.head'_iff.1 hpath
  rcases (h.shows _ _).1 hc with (hbasic | hkept) | ⟨group, members, -, -, hm⟩
  · cases hbasic with
    | next he => exact ⟨_, he⟩
    | fork he => exact ⟨_, he⟩
  · cases hkept
  · cases hm with
    | arrive hm hr =>
      obtain ⟨-, e, he, -⟩ := event?_of_barrier ht hr
      exact ⟨e, he⟩

/-- Existing events are ordered as paths lead from one to the other. -/
theorem before_iff_path (ht : t.WellFormed) {a b : EventRef} {ea eb : Event}
    (ha : t.event? a = some ea) (hb : t.event? b = some eb) :
    o.before a b = true ↔ TransGen o.graph.Edge (.event a) (.event b) := by
  obtain ⟨ca, hca, -⟩ := h.counts _ (h.event_mem ht ha)
  obtain ⟨cb, hcb, hcount⟩ := h.counts _ (h.event_mem ht hb)
  unfold before clock?
  rw [hca, hcb, Option.isSome_some, Bool.true_and]
  split
  -- In one thread the numbers decide, for a path back would be a circle.
  · next hthread =>
    rw [Option.isSome_some, Bool.and_true, decide_eq_true_iff]
    constructor
    · exact fun hlt => h.path_of_basic (event_leads ha hb hthread hlt)
    · intro hpath
      by_contra hle
      rcases Nat.lt_or_eq_of_le (Nat.le_of_not_lt hle) with hlt | heq
      · exact h.acyclic _ (hpath.trans (h.path_of_basic (event_leads hb ha hthread.symm hlt)))
      · have hsame : a = b := by
          cases a
          cases b
          cases hthread
          cases heq
          rfl
        exact h.acyclic _ (hsame ▸ hpath)
  -- Across threads the clock decides, which counts what leads to the event.
  · next hthread =>
    dsimp only
    rw [decide_eq_true_iff, hcount]
    constructor
    · rintro ⟨i, hi, hpath⟩
      rcases Relation.reflTransGen_iff_eq_or_transGen.1 hpath with heq | hpath
      · cases heq
        exact absurd rfl hthread
      · obtain ⟨e, he⟩ := h.event?_of_path ht hpath
        rcases Nat.lt_or_eq_of_le hi with hlt | rfl
        · exact (h.path_of_basic (event_leads ha he rfl hlt)).trans hpath
        · exact hpath
    · exact fun hpath => ⟨a.index, Nat.le_refl _, hpath.to_reflTransGen⟩

/-- Existing events are ordered as links lead from one to the other. -/
theorem before_iff_link (ht : t.WellFormed) {a b : EventRef} {ea eb : Event}
    (ha : t.event? a = some ea) (hb : t.event? b = some eb) :
    o.before a b = true ↔ TransGen (Link t o) (.event a) (.event b) := by
  rw [h.before_iff_path ht ha hb]
  exact h.shows.path_iff rfl rfl

/-- What an event happens before is in every set of points that no link leaves. -/
theorem mem_of_before (ht : t.WellFormed) {a b : EventRef} {ea eb : Event}
    (ha : t.event? a = some ea) (hb : t.event? b = some eb) {S : Point → Prop}
    (hS : ∀ p q, Link t o p q → S p → S q) (hmem : S (.event a)) (hab : o.before a b = true) :
    S (.event b) :=
  mem_of_link hS hmem ((h.before_iff_link ht ha hb).1 hab)

end Ordered

/-- An order that was found is ordered. -/
theorem ordered_of_ofTrace (ht : t.WellFormed) (ho : ofTrace t = .ok o) : Ordered t o := by
  obtain ⟨o', ho', h⟩ := exists_ordered ht
  cases ho.symm.trans ho'
  exact h

/-- The order of every trace that is built is found.  On existing events it is the transitive
closure of the links, and a strict partial order. -/
theorem before_iff_transGen {c : Subject} (hbuild : Trace.build c = .ok t) :
    ∃ o, ofTrace t = .ok o ∧ t.barrierGroups = .ok o.groups ∧
      (∀ a b ea eb, t.event? a = some ea → t.event? b = some eb →
        (o.before a b = true ↔ TransGen (Link t o) (.event a) (.event b))) ∧
      (∀ a ea, t.event? a = some ea → ¬ o.before a a = true) ∧
      ∀ a b d ea eb ed, t.event? a = some ea → t.event? b = some eb → t.event? d = some ed →
        o.before a b = true → o.before b d = true → o.before a d = true := by
  have ht := Trace.build_wellFormed hbuild
  obtain ⟨o, ho, h⟩ := exists_ordered ht
  refine ⟨o, ho, h.groups, ?_, ?_, ?_⟩
  · exact fun a b ea eb ha hb => h.before_iff_link ht ha hb
  · intro a ea ha
    rw [h.before_iff_path ht ha ha]
    exact h.acyclic _
  · intro a b d ea eb ed ha hb hd hab hbd
    rw [h.before_iff_path ht ha hb] at hab
    rw [h.before_iff_path ht hb hd] at hbd
    rw [h.before_iff_path ht ha hd]
    exact hab.trans hbd

/-- In the program with a team only later threads are joined. -/
theorem joins_later_teamTask (r : EventRef) (e : Event) (child : ThreadId)
    (he : TeamTask.trace.event? r = some e) (hjoin : e.kind = .join (some child)) :
    r.thread < child := by
  have ht := Trace.build_wellFormed TeamTask.build_eq
  have hall : ∀ e ∈ TeamTask.trace.events, ∀ child, e.kind = .join (some child) →
      e.thread < child := by
    simp [TeamTask.trace, TeamTask.allThreads, TeamTask.masterEvents, TeamTask.mainEvents,
      Trace.events]
  obtain rfl := ht.ref_eq he
  exact hall e (ht.mem_events.2 he) child hjoin

/-- The members of its team are the two threads that the main thread starts. -/
theorem barrierGroups_teamTask : TeamTask.trace.barrierGroups = .ok [[1, 3]] := by cbv

/-- The order of this program keeps the barrier of the team. -/
theorem Ordered.teamTask (h : Ordered TeamTask.trace o) :
    o.groups = [[1, 3]] ∧ o.droppedGroups = [] :=
  ⟨Except.ok.inj (h.groups.symm.trans barrierGroups_teamTask),
    h.droppedGroups_eq (Trace.build_wellFormed TeamTask.build_eq) joins_later_teamTask⟩

/-- What one member of a team does before a barrier happens before what joins the other member,
which goes on behind that barrier. -/
theorem before_teamTask :
    Trace.build TeamTask.subject = .ok TeamTask.trace ∧
      ∃ o, ofTrace TeamTask.trace = .ok o ∧ o.groups = [[1, 3]] ∧
        o.before ⟨3, 0⟩ ⟨0, 2⟩ = true := by
  have ht := Trace.build_wellFormed TeamTask.build_eq
  obtain ⟨o, ho, -, hiff, -⟩ := before_iff_transGen TeamTask.build_eq
  have h := ordered_of_ofTrace ht ho
  obtain ⟨hgroups, hdropped⟩ := h.teamTask
  have hmeet : Link TeamTask.trace o (.event ⟨3, 0⟩) (.finish 1) := by
    refine @Linked.barrier TeamTask.trace o.choice 0 0 [1, 3] 3 1 ⟨3, 0⟩ ⟨1, 2⟩ ?_ ?_
      (by decide) rfl (by decide) rfl
    · rw [choice, hgroups]
      rfl
    · rw [choice, hdropped]
      exact List.not_mem_nil
  have hjoin : Link TeamTask.trace o (.finish 1) (.event ⟨0, 2⟩) :=
    .join (e := ⟨0, 2, 2, .join (some 1)⟩) rfl rfl
      (h.not_mem_droppedJoins ht (e := ⟨0, 2, 2, .join (some 1)⟩) rfl rfl (by decide))
  exact ⟨TeamTask.build_eq, o, ho, hgroups, (hiff _ _ _ _ rfl rfl).2 (.tail (.single hmeet) hjoin)⟩

/-- In every trace that is built, a join of a later thread comes after a fork of its own thread that
leads to that thread, is not left out, and comes after all events of that thread, as does everything
that follows it. -/
theorem join_of_later_thread {c : Subject} (hbuild : Trace.build c = .ok t) {r : EventRef}
    {e : Event} {child : ThreadId} (he : t.event? r = some e) (hjoin : e.kind = .join (some child))
    (hlater : r.thread < child) :
    (∃ j < r.index, ∃ f, t.event? ⟨r.thread, j⟩ = some f ∧ ∃ d, f.kind = .fork d ∧
        ReflTransGen (Thread.Starts t.threads) d child) ∧
      ∃ o, ofTrace t = .ok o ∧ r ∉ o.droppedJoins ∧
        ∀ a ea, t.event? a = some ea → a.thread = child →
          o.before a r = true ∧
            ∀ b eb, t.event? b = some eb → b.thread = r.thread → r.index < b.index →
              o.before a b = true := by
  have ht := Trace.build_wellFormed hbuild
  obtain ⟨o, ho, h⟩ := exists_ordered ht
  have hkept := h.not_mem_droppedJoins ht he hjoin hlater
  refine ⟨((ht.fits_event? he).join child hjoin).2 hlater, o, ho, hkept, ?_⟩
  intro a ea ha hchild
  have hpath : TransGen o.graph.Edge (.event a) (.event r) := by
    refine (h.path_of_basic (event_leads_finish ha)).trans ?_
    rw [hchild]
    exact h.shows.path_of_linked (.join he hjoin hkept)
  refine ⟨(h.before_iff_path ht ha he).2 hpath, ?_⟩
  intro b eb hb hthread hlt
  rw [h.before_iff_path ht ha hb]
  exact hpath.trans (h.path_of_basic (event_leads he hb hthread.symm hlt))

/-- What a child does happens before its join. -/
theorem join_forkJoin :
    Trace.build ForkJoin.subject = .ok ForkJoin.trace ∧
      ∃ o, ofTrace ForkJoin.trace = .ok o ∧ o.before ⟨1, 0⟩ ⟨0, 2⟩ = true := by
  obtain ⟨-, o, ho, -, hbefore⟩ :=
    @join_of_later_thread _ _ ForkJoin.build_eq ⟨0, 2⟩ ⟨0, 2, 2, .join (some 1)⟩ 1 rfl rfl
      (by decide)
  exact ⟨ForkJoin.build_eq, o, ho, (hbefore ⟨1, 0⟩ _ rfl rfl).1⟩

/-- In every trace that is built, if every resolved join is one of a later thread, the order is
found and no barrier group is left out. -/
theorem droppedGroups_eq_nil {c : Subject} (hbuild : Trace.build c = .ok t)
    (hup : ∀ r e child, t.event? r = some e → e.kind = .join (some child) → r.thread < child) :
    ∃ o, ofTrace t = .ok o ∧ o.droppedGroups = [] := by
  have ht := Trace.build_wellFormed hbuild
  obtain ⟨o, ho, h⟩ := exists_ordered ht
  exact ⟨o, ho, h.droppedGroups_eq ht hup⟩

/-- A team of two keeps its barrier. -/
theorem droppedGroups_teamTask :
    Trace.build TeamTask.subject = .ok TeamTask.trace ∧
      TeamTask.trace.barrierGroups = .ok [[1, 3]] ∧
      ∃ o, ofTrace TeamTask.trace = .ok o ∧ o.droppedGroups = [] :=
  ⟨TeamTask.build_eq, barrierGroups_teamTask,
    droppedGroups_eq_nil TeamTask.build_eq joins_later_teamTask⟩

end HappensBefore

end DataRace
