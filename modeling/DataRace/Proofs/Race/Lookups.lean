import DataRace.Proofs.Locks.Held
import DataRace.Proofs.Order.Closure
import DataRace.Proofs.Order.Members
import DataRace.Proofs.Order.Stages
import DataRace.Proofs.Race.Detect

/-!
# Looking for races cannot fail

The index of accesses, the order and the locks of a trace are found by looking up events, nodes,
threads and points by their names, and so are the races.  `Detector.Grounded` says that all of these
are there.  It holds of every trace that is built, so the search for its races has an answer: no
circle is left in the order, and no access is of an unknown event (`Detector.detect_total`).
-/

namespace DataRace

/-! ### Barrier groups -/

namespace Trace

variable {t : Trace}

/-- A thread that was started exists. -/
theorem StartedInRun.lt (ht : t.WellFormed) {parent first : ℕ} {i : ThreadId}
    (h : t.StartedInRun parent first i) : i < t.threadCount := by
  obtain ⟨j, e, he, hkind, -⟩ := h
  obtain ⟨-, th, hth, -⟩ := (ht.fits_event? he).fork i hkind
  exact (Array.getElem?_eq_some_iff.1 hth).1

/-- A barrier group has at least two members, and they exist. -/
theorem members_lt (ht : t.WellFormed) {groups : List (List ThreadId)}
    (h : t.barrierGroups = .ok groups) {members : List ThreadId} (hmembers : members ∈ groups) :
    1 < members.length ∧ ∀ i ∈ members, i < t.threadCount := by
  obtain ⟨parent, first, hstarted⟩ := barrierGroups_spec ht h hmembers
  refine ⟨?_, fun i hi => (hstarted i hi).lt ht⟩
  obtain ⟨lists, -, hgroups⟩ := Except.bind_eq_ok.1 h
  cases hgroups
  rw [List.mem_mergeSort, List.mem_filter] at hmembers
  exact of_decide_eq_true hmembers.2

/-- The thread that was started by a fork knows the fork node. -/
theorem WellFormed.exists_forkNode (ht : t.WellFormed) {i : ThreadId} {th : Thread}
    (hth : t.threads[i]? = some th) (hi : 0 < i) :
    ∃ id n, th.fork = some id ∧ t.arena.get? id = some n ∧ n.category = .fork := by
  obtain ⟨s, -, -, e, he, hkind⟩ := ht.sited i th hth hi
  have hfits := ht.fits_event? he
  obtain ⟨-, th', hth', -, hfork⟩ := hfits.fork i hkind
  obtain ⟨n, hn, hcategory⟩ := hfits.node
  rw [hth] at hth'
  cases hth'
  rw [hkind] at hcategory
  exact ⟨e.node, n, hfork, hn, hcategory⟩

end Trace

/-! ### All lookups -/

namespace Detector

open HappensBefore OrderGraph

/-- Everything that is looked up while the races of a trace are searched for is there. -/
structure Grounded (d : Detector) : Prop where
  /-- Events stand at their names, and their nodes are of the right category. -/
  event : ∀ e ∈ d.trace.events, d.trace.event? e.ref = some e ∧
    ∃ n, d.trace.arena.get? e.node = some n ∧ n.category = e.kind.category
  /-- Forks and joins name threads of the trace. -/
  named : ∀ e ∈ d.trace.events, ∀ i, e.kind = .fork i ∨ e.kind = .join (some i) →
    i < d.trace.threadCount
  /-- A thread that was started knows its fork node. -/
  spawn : ∀ (i : ThreadId) th, d.trace.threads[i]? = some th → 0 < i →
    ∃ id n, th.fork = some id ∧ d.trace.arena.get? id = some n ∧ n.category = .fork
  /-- The members of barrier groups exist, and so do their barriers. -/
  members : ∀ members ∈ d.order.groups, members ≠ [] ∧ ∀ i ∈ members, i < d.trace.threadCount ∧
    ∀ r ∈ barriersOf d.trace i, r.thread = i ∧ ∃ e, d.trace.event? r = some e
  /-- Every thread has a start and an end, and every event a point. -/
  thread : ∀ i < d.trace.threadCount,
    Point.start i ∈ d.order.graph.points ∧ Point.finish i ∈ d.order.graph.points
  point : ∀ r e, d.trace.event? r = some e → Point.event r ∈ d.order.graph.points
  /-- Edges lead between points, and every point has a clock. -/
  closed : d.order.graph.Closed
  clock : ∀ p ∈ d.order.graph.points, ∃ c, d.order.clocks[p]? = some c
  /-- Every event has a list of locks, and all of these were acquired at lock nodes. -/
  held : ∀ r e, d.trace.event? r = some e →
    ∃ row held, d.locks.held[r.thread]? = some row ∧ row[r.index]? = some held
  lock : ∀ r, ∀ id ∈ d.locks.heldAt r, ∃ n, d.trace.arena.get? id = some n ∧ n.category = .lock
  /-- The numbers of objects are positions. -/
  object : ∀ o id, d.memory.ids[o]? = some id → d.memory.object? id = some o
  /-- The accesses of an object are events of the trace, and tell a side of a race. -/
  access : ∀ id, ∀ a ∈ d.accesses id,
    (∃ e, d.trace.event? a.1 = some e) ∧ ∃ s, d.side a = .ok s

/-- A detector that knows its trace looks up nothing that is not there. -/
theorem Knows.grounded {d : Detector} {l : List Access} (h : d.Knows l) : d.Grounded where
  event e he := by
    have hevent := h.trace.mem_events.1 he
    exact ⟨hevent, (h.trace.fits_event? hevent).node⟩
  named e he i hkind := by
    have hfits := h.trace.fits_event? (h.trace.mem_events.1 he)
    rcases hkind with hkind | hkind
    · obtain ⟨-, th, hth, -⟩ := hfits.fork i hkind
      exact (Array.getElem?_eq_some_iff.1 hth).1
    · exact (hfits.join i hkind).1
  spawn i th hth hi := h.trace.exists_forkNode hth hi
  members members hmembers := by
    obtain ⟨htwo, hlt⟩ := Trace.members_lt h.trace h.order.groups hmembers
    refine ⟨List.ne_nil_of_length_pos (Nat.lt_of_succ_lt htwo), fun i hi => ⟨hlt i hi, ?_⟩⟩
    intro r hr
    obtain ⟨k, hk⟩ := List.mem_iff_getElem?.1 hr
    obtain ⟨hthread, e, he, -⟩ := event?_of_barrier h.trace hk
    exact ⟨hthread, e, he⟩
  thread i hi :=
    ⟨h.order.points ((mem_points_base h.trace).2 (Or.inl ⟨i, hi, Or.inl rfl⟩)),
      h.order.points ((mem_points_base h.trace).2 (Or.inl ⟨i, hi, Or.inr rfl⟩))⟩
  point r e he := h.order.event_mem h.trace he
  closed := h.order.closed
  clock p hp := (h.order.counts p hp).imp fun _ hc => hc.1
  held r e he := by
    rw [h.locks]
    exact LockSets.exists_row_iff.2 ⟨e, he⟩
  lock r id hid := by
    rw [h.locks] at hid
    obtain ⟨e, he, hkind, rfl⟩ := LockSets.exists_lock_of_mem_heldAt hid
    obtain ⟨n, hn, hcategory⟩ := (h.trace.fits_event? (h.trace.mem_events.1 he)).node
    rw [hkind] at hcategory
    exact ⟨n, hn, hcategory⟩
  object o id hid := (h.memory.ids o id).1 hid
  access id a ha := by
    obtain ⟨o, -, htouches⟩ := h.mem_accesses.1 ha
    obtain ⟨e, n, he, hn, hkind⟩ := htouches.exists_event
    refine ⟨⟨e, he⟩, ⟨a.1, a.2, n.inst, n.site.location⟩, ?_⟩
    exact (side_eq_ok ⟨o, htouches⟩).2 ⟨rfl, rfl, n, ⟨e, he, hn, hkind⟩, rfl, rfl⟩

/-- The races of a trace are those that the detector finds, also when no object is shared and the
order is not asked for. -/
theorem races_eq {t : Trace} {d : Detector} (h : ofTrace t = .ok d) : t.races = d.detect := by
  obtain ⟨memory, hmemory, h⟩ := Except.bind_eq_ok.1 h
  obtain ⟨order, horder, h⟩ := Except.bind_eq_ok.1 h
  cases h
  unfold Trace.races
  rw [hmemory]
  dsimp only [bind, Except.bind]
  split
  · next hempty =>
    unfold detect
    dsimp only
    rw [List.isEmpty_iff.1 hempty, List.mapM_nil]
    simp [bind, Except.bind, pure, Except.pure, keepFirst]
  · rw [horder]

/-- The races of every trace that is built are found.  The graphs that are kept on the way have no
circles, and neither has the last one.  Their edges lead between their points, and a thread or an
event has one number in all of them, also in those that are made with a barrier group that is left
out again.  Everything that is looked up is there. -/
theorem detect_total {c : Subject} {t : Trace} (hbuild : Trace.build c = .ok t) :
    ∃ d races, ofTrace t = .ok d ∧ d.trace = t ∧ d.detect = .ok races ∧ t.races = .ok races ∧
      Stage t d.order.graph ∧ d.Grounded ∧
      (∀ g, Stage t g → g.Closed ∧ g.Acyclic ∧ ∃ bound, Arranged t bound g) ∧
      (∀ g g', Trial t g g' →
        Stage t g ∧ g'.Closed ∧ g.points <+: g'.points ∧ ∃ bound, Arranged t bound g') ∧
      ∀ g, Stage t g ∨ (∃ g₀, Trial t g₀ g) → ∀ p ∈ (base t).points,
        g.points.idxOf p = (base t).points.idxOf p := by
  have ht := Trace.build_wellFormed hbuild
  obtain ⟨d, l, hd, hknows, rfl⟩ := exists_knows ht
  obtain ⟨races, hdetect, -⟩ := hknows.detect_spec
  obtain ⟨memory, -, hrest⟩ := Except.bind_eq_ok.1 hd
  obtain ⟨order, horder, hrest⟩ := Except.bind_eq_ok.1 hrest
  have hgraph : order = d.order := congrArg Detector.order (Except.ok.inj hrest)
  have hstage : ∀ g, Stage d.trace g → g.Closed ∧ g.Acyclic ∧ ∃ bound, Arranged d.trace bound g :=
    fun g hg => hg.sound ht
  have htrial : ∀ g g', Trial d.trace g g' → Stage d.trace g ∧ g'.Closed ∧
      g.points <+: g'.points ∧ ∃ bound, Arranged d.trace bound g' := fun g g' hg => hg.sound ht
  refine ⟨d, races, hd, rfl, hdetect, (races_eq hd).trans hdetect,
    hgraph ▸ stage_of_ofTrace horder, hknows.grounded, hstage, htrial, ?_⟩
  rintro g (hg | ⟨g₀, hg⟩) p hp
  · obtain ⟨-, -, bound, harranged⟩ := hstage g hg
    exact harranged.idxOf_eq hp
  · obtain ⟨-, -, -, bound, harranged⟩ := htrial g₀ g hg
    exact harranged.idxOf_eq hp

/-- Of a program with a team the order is found, with the round of its barrier group, and has no
circle. -/
theorem total_teamTask :
    Trace.build TeamTask.subject = .ok TeamTask.trace ∧
      ∃ d races, ofTrace TeamTask.trace = .ok d ∧ d.detect = .ok races ∧
        d.order.groups = [[1, 3]] ∧ d.order.graph.Acyclic ∧
        Point.meet 0 0 ∈ d.order.graph.points := by
  obtain ⟨d, races, hd, -, hdetect, -, hstage, hgrounded, hstages, -⟩ :=
    detect_total TeamTask.build_eq
  obtain ⟨-, hacyclic, -⟩ := hstages _ hstage
  obtain ⟨l, hknows, htrace⟩ := knows_of_ofTrace (Trace.build_wellFormed TeamTask.build_eq) hd
  have horder := hknows.order
  rw [htrace] at horder
  obtain ⟨hgroups, hdropped⟩ := horder.teamTask
  have hmeet : d.order.graph.Edge (.event ⟨3, 0⟩) (.meet 0 0) :=
    (horder.shows _ _).2 (Or.inr ⟨0, [1, 3], by rw [choice, hgroups]; rfl,
      by rw [choice, hdropped]; exact List.not_mem_nil, .arrive (m := 3) (by decide) rfl⟩)
  exact ⟨TeamTask.build_eq, d, races, hd, hdetect, hgroups, hacyclic, (hgrounded.closed hmeet).2⟩

end Detector

end DataRace
