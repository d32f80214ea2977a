import DataRace.Proofs.Locks.Classes
import DataRace.Proofs.Order.Closure
import DataRace.Proofs.SharedMemory
import DataRace.Race.Detect
import Mathlib.Data.Sym.Sym2

/-!
# Which races are found

`Detector.Racing` says when two accesses of an object race, whether or not the object passes the
test for shared objects.  For every trace that is built, the detector answers a list in strictly
ascending order with one race for each pair of instructions that has racing accesses, and this race
is the least of the pair (`Detector.detect_exact`).

What is found is stated in terms of the trace alone: which events touch an object (`Trace.Touches`),
which of them change it (`AccessType.Changes`), which links lead from one event to another
(`Detector.Precedes`), which locks an event holds (`LockSets.Holds`), and which operands certainly
denote one lock (`PointsTo.SurelySame`).  The detector finds the same by numbered objects, clocks
and lists of held lock nodes (`Detector.Knows.mem_accesses`, `Detector.Knows.isRacing_iff`).
-/

namespace DataRace

/-! ### Analyses -/

/-- An analysis succeeds with the races of a trace that is built. -/
theorem analyze_eq_ok {p : Program} {pointsTo : PointsTo} {s : Settings} {rs : List Race} :
    analyze p pointsTo s = .ok rs ↔ s.validate = .ok () ∧
      ∃ t, Trace.build ⟨p, pointsTo, s, Interface.standard⟩ = .ok t ∧ t.races = .ok rs := by
  unfold analyze
  constructor
  · intro h
    split at h
    · cases h
    · next hvalid =>
      split at h
      · cases h
      · next t ht =>
        split at h
        · cases h
        · next races hraces =>
          cases h
          exact ⟨hvalid, t, ht, hraces⟩
  · rintro ⟨hvalid, t, ht, hraces⟩
    rw [hvalid]
    dsimp only
    rw [ht]
    dsimp only
    rw [hraces]

/-! ### Conflicts -/

/-- Two events that access an object of a number. -/
structure Conflict where
  object : AccessedId
  first : EventRef
  second : EventRef

namespace Conflict

/-- Conflicts are ordered by object, first event and second event. -/
def Lt (x y : Conflict) : Prop :=
  x.object < y.object ∨
    x.object = y.object ∧ (x.first.Lt y.first ∨ x.first = y.first ∧ x.second.Lt y.second)

/-- The order of conflicts is transitive. -/
theorem Lt.trans {x y z : Conflict} (hxy : x.Lt y) (hyz : y.Lt z) : x.Lt z := by
  rcases hxy with hxy | ⟨ho, hxy⟩
  · rcases hyz with hyz | ⟨ho', -⟩
    · exact Or.inl (Nat.lt_trans hxy hyz)
    · exact Or.inl (ho' ▸ hxy)
  · rcases hyz with hyz | ⟨ho', hyz⟩
    · exact Or.inl (ho ▸ hyz)
    · refine Or.inr ⟨ho.trans ho', ?_⟩
      rcases hxy with hxy | ⟨hf, hxy⟩
      · rcases hyz with hyz | ⟨hf', -⟩
        · exact Or.inl (hxy.trans hyz)
        · exact Or.inl (hf' ▸ hxy)
      · rcases hyz with hyz | ⟨hf', hyz⟩
        · exact Or.inl (hf ▸ hyz)
        · exact Or.inr ⟨hf.trans hf', hxy.trans hyz⟩

/-- Of two different conflicts one comes before the other. -/
theorem lt_or_gt_of_ne {x y : Conflict} (h : x ≠ y) : x.Lt y ∨ y.Lt x := by
  obtain ⟨o, a, b⟩ := x
  obtain ⟨o', a', b'⟩ := y
  unfold Lt
  dsimp only
  rcases Nat.lt_trichotomy o o' with ho | rfl | ho
  · exact Or.inl (Or.inl ho)
  · by_cases ha : a = a'
    · subst ha
      have hb : b ≠ b' := fun hb => h (hb ▸ rfl)
      rcases EventRef.lt_or_gt_of_ne hb with hb | hb
      · exact Or.inl (Or.inr ⟨rfl, Or.inr ⟨rfl, hb⟩⟩)
      · exact Or.inr (Or.inr ⟨rfl, Or.inr ⟨rfl, hb⟩⟩)
    · rcases EventRef.lt_or_gt_of_ne ha with ha | ha
      · exact Or.inl (Or.inr ⟨rfl, Or.inl ha⟩)
      · exact Or.inr (Or.inr ⟨rfl, Or.inl ha⟩)
  · exact Or.inr (Or.inl ho)

end Conflict

namespace Race

/-- The object and the events of a race. -/
def conflict (r : Race) : Conflict := ⟨r.object, r.first.event, r.second.event⟩

/-- The two instructions of a race, in no order. -/
def instructions (r : Race) : Sym2 InstId := s(r.first.inst, r.second.inst)

/-- Races are compared by their conflicts. -/
theorem ble_iff {r s : Race} :
    r.ble s = true ↔ r.conflict.Lt s.conflict ∨ r.conflict = s.conflict := by
  unfold ble Conflict.Lt conflict
  simp only [Bool.or_eq_true, Bool.and_eq_true, decide_eq_true_eq, beq_iff_eq, bne_iff_ne,
    EventRef.ble_iff, Conflict.mk.injEq]
  constructor
  · rintro (h | ⟨ho, ⟨hne, h | h⟩ | ⟨hf, h | h⟩⟩)
    · exact Or.inl (Or.inl h)
    · exact Or.inl (Or.inr ⟨ho, Or.inl h⟩)
    · exact absurd h hne
    · exact Or.inl (Or.inr ⟨ho, Or.inr ⟨hf, h⟩⟩)
    · exact Or.inr ⟨ho, hf, h⟩
  · rintro ((h | ⟨ho, h | ⟨hf, h⟩⟩) | ⟨ho, hf, h⟩)
    · exact Or.inl h
    · refine Or.inr ⟨ho, Or.inl ⟨?_, Or.inl h⟩⟩
      intro heq
      exact EventRef.Lt.irrefl _ (heq ▸ h)
    · exact Or.inr ⟨ho, Or.inr ⟨hf, Or.inl h⟩⟩
    · exact Or.inr ⟨ho, Or.inr ⟨hf, Or.inr h⟩⟩

/-- The comparison of races is transitive. -/
theorem ble_trans (r s u : Race) (hrs : r.ble s = true) (hsu : s.ble u = true) :
    r.ble u = true := by
  rw [ble_iff] at *
  rcases hrs with hrs | hrs
  · rcases hsu with hsu | hsu
    · exact Or.inl (hrs.trans hsu)
    · exact Or.inl (hsu ▸ hrs)
  · rcases hsu with hsu | hsu
    · exact Or.inl (hrs ▸ hsu)
    · exact Or.inr (hrs.trans hsu)

/-- Any two races can be compared. -/
theorem ble_total (r s : Race) : (r.ble s || s.ble r) = true := by
  rw [Bool.or_eq_true, ble_iff, ble_iff]
  by_cases h : r.conflict = s.conflict
  · exact Or.inl (Or.inr h)
  · rcases Conflict.lt_or_gt_of_ne h with h | h
    · exact Or.inl (Or.inl h)
    · exact Or.inr (Or.inl h)

/-- The ordered pair of instructions of a race tells the pair without order. -/
theorem instPair_eq_iff {r s : Race} :
    r.instPair = s.instPair ↔ r.instructions = s.instructions := by
  have hanti : ∀ i j : InstId, i.val ≤ j.val → j.val ≤ i.val → i = j := by
    intro i j hij hji
    cases i
    cases j
    exact congrArg InstId.mk (Nat.le_antisymm hij hji)
  unfold instPair instructions
  generalize r.first.inst = i
  generalize r.second.inst = j
  generalize s.first.inst = k
  generalize s.second.inst = l
  rw [Sym2.eq_iff]
  by_cases hij : i.val ≤ j.val
  · by_cases hkl : k.val ≤ l.val
    · rw [if_pos hij, if_pos hkl, Prod.mk.injEq]
      refine ⟨Or.inl, ?_⟩
      rintro (h | ⟨rfl, rfl⟩)
      · exact h
      · obtain rfl := hanti _ _ hij hkl
        exact ⟨rfl, rfl⟩
    · rw [if_pos hij, if_neg hkl, Prod.mk.injEq]
      refine ⟨Or.inr, ?_⟩
      rintro (⟨rfl, rfl⟩ | h)
      · exact absurd hij hkl
      · exact h
  · by_cases hkl : k.val ≤ l.val
    · rw [if_neg hij, if_pos hkl, Prod.mk.injEq]
      refine ⟨fun ⟨h, h'⟩ => Or.inr ⟨h', h⟩, ?_⟩
      rintro (⟨rfl, rfl⟩ | ⟨h, h'⟩)
      · exact absurd hkl hij
      · exact ⟨h', h⟩
    · rw [if_neg hij, if_neg hkl, Prod.mk.injEq]
      refine ⟨fun ⟨h, h'⟩ => Or.inl ⟨h', h⟩, ?_⟩
      rintro (⟨h, h'⟩ | ⟨rfl, rfl⟩)
      · exact ⟨h', h⟩
      · exact absurd (Nat.le_of_lt (Nat.lt_of_not_le hij)) hkl

end Race

namespace Detector

/-! ### One race for each pair of instructions -/

/-- The races that are kept stand in the list in the same order. -/
theorem keepFirst_sublist (seen : List (InstId × InstId)) (l : List Race) :
    (keepFirst seen l).Sublist l := by
  induction l generalizing seen with
  | nil => exact .slnil
  | cons r l ih =>
    unfold keepFirst
    split
    · exact (ih seen).cons r
    · exact (ih _).cons_cons r

/-- A race that is kept has a pair of instructions that was not met before. -/
theorem not_mem_seen {seen : List (InstId × InstId)} {l : List Race} {r : Race}
    (h : r ∈ keepFirst seen l) : r.instPair ∉ seen := by
  induction l generalizing seen with
  | nil => cases h
  | cons s l ih =>
    unfold keepFirst at h
    split at h
    · exact ih h
    · next hs =>
      rcases List.mem_cons.1 h with rfl | h
      · exact hs
      · exact fun hmem => ih h (List.mem_cons_of_mem _ hmem)

/-- No two races that are kept have the same instructions. -/
theorem nodup_keepFirst (seen : List (InstId × InstId)) (l : List Race) :
    ((keepFirst seen l).map Race.instPair).Nodup := by
  induction l generalizing seen with
  | nil => exact List.nodup_nil
  | cons r l ih =>
    unfold keepFirst
    split
    · exact ih seen
    · rw [List.map_cons, List.nodup_cons]
      refine ⟨fun hmem => ?_, ih _⟩
      obtain ⟨s, hs, heq⟩ := List.mem_map.1 hmem
      exact not_mem_seen hs (heq ▸ List.mem_cons_self)

/-- In a sorted list, the race that is kept for a pair of instructions is the least of the pair. -/
theorem exists_mem_keepFirst {seen : List (InstId × InstId)} {l : List Race}
    (hl : l.Pairwise fun r s => r.ble s = true) {r : Race} (hr : r ∈ l)
    (hseen : r.instPair ∉ seen) :
    ∃ s ∈ keepFirst seen l, s.instPair = r.instPair ∧ s.ble r = true := by
  induction l generalizing seen with
  | nil => cases hr
  | cons a l ih =>
    obtain ⟨ha, hl⟩ := List.pairwise_cons.1 hl
    have hrefl : ∀ s : Race, s.ble s = true := fun s => Race.ble_iff.2 (Or.inr rfl)
    unfold keepFirst
    rcases List.mem_cons.1 hr with rfl | hr
    · rw [if_neg hseen]
      exact ⟨r, List.mem_cons_self, rfl, hrefl r⟩
    · split
      · exact ih hl hr hseen
      · by_cases hpair : a.instPair = r.instPair
        · exact ⟨a, List.mem_cons_self, hpair, ha r hr⟩
        · have hseen' : r.instPair ∉ a.instPair :: seen := by
            rw [List.mem_cons, not_or]
            exact ⟨fun heq => hpair heq.symm, hseen⟩
          obtain ⟨s, hs, hs'⟩ := ih hl hr hseen'
          exact ⟨s, List.mem_cons_of_mem _ hs, hs'⟩

/-! ### Pairs of accesses -/

/-- Accesses are compared by their events, then by their types. -/
theorem accessBle_iff {a b : EventRef × AccessType} :
    accessBle a b = true ↔ a.1.Lt b.1 ∨ a.1 = b.1 ∧ a.2.rank ≤ b.2.rank := by
  unfold accessBle
  simp only [Bool.or_eq_true, Bool.and_eq_true, bne_iff_ne, beq_iff_eq, decide_eq_true_eq,
    EventRef.ble_iff]
  refine or_congr_left ⟨fun ⟨hne, h⟩ => h.resolve_right hne, fun h => ⟨fun heq => ?_, Or.inl h⟩⟩
  exact EventRef.Lt.irrefl _ (heq ▸ h)

/-- The accesses of an object are listed in order. -/
theorem sorted_accesses (d : Detector) (id : AccessedId) :
    (d.accesses id).Pairwise fun a b => accessBle a b = true := by
  unfold accesses
  refine List.pairwise_mergeSort ?_ ?_ _
  · intro a b c hab hbc
    rw [accessBle_iff] at *
    rcases hab with hab | ⟨hab, hrank⟩
    · rcases hbc with hbc | ⟨hbc, -⟩
      · exact Or.inl (hab.trans hbc)
      · exact Or.inl (hbc ▸ hab)
    · rcases hbc with hbc | ⟨hbc, hrank'⟩
      · exact Or.inl (hab ▸ hbc)
      · exact Or.inr ⟨hab.trans hbc, hrank.trans hrank'⟩
  · intro a b
    rw [Bool.or_eq_true, accessBle_iff, accessBle_iff]
    by_cases h : a.1 = b.1
    · rcases Nat.le_total a.2.rank b.2.rank with hrank | hrank
      · exact Or.inl (Or.inr ⟨h, hrank⟩)
      · exact Or.inr (Or.inr ⟨h.symm, hrank⟩)
    · rcases EventRef.lt_or_gt_of_ne h with h | h
      · exact Or.inl (Or.inl h)
      · exact Or.inr (Or.inl h)

variable {d : Detector} {id : AccessedId} {o : ObjectId}

/-- In a sorted list one member stands before another that may not come before it. -/
theorem pair_sublist {α : Type} {R : α → α → Prop} {l : List α} (hl : l.Pairwise R) {a b : α}
    (ha : a ∈ l) (hb : b ∈ l) (hne : a ≠ b) (hba : ¬ R b a) : [a, b].Sublist l := by
  induction l with
  | nil => cases ha
  | cons c l ih =>
    obtain ⟨hc, hl⟩ := List.pairwise_cons.1 hl
    rcases List.mem_cons.1 ha with rfl | ha'
    · rcases List.mem_cons.1 hb with rfl | hb'
      · exact absurd rfl hne
      · exact (List.singleton_sublist.2 hb').cons_cons a
    · rcases List.mem_cons.1 hb with rfl | hb'
      · exact absurd (hc a ha') hba
      · exact (ih hl ha' hb').cons c

/-- The races of an access with later ones are those of the pairs that race. -/
theorem racesWith_spec (id : AccessedId) (o : ObjectId) {a : EventRef × AccessType}
    {l : List (EventRef × AccessType)} (ha : ∃ s, d.side a = .ok s)
    (hl : ∀ b ∈ l, ∃ s, d.side b = .ok s) :
    ∃ races, d.racesWith id o a l = .ok races ∧ ∀ r, r ∈ races ↔
      ∃ b ∈ l, d.isRacing a b = true ∧ ∃ sa sb, d.side a = .ok sa ∧ d.side b = .ok sb ∧
        r = .new id o sa sb := by
  induction l with
  | nil => exact ⟨[], rfl, fun r => by simp⟩
  | cons b l ih =>
    obtain ⟨races, hraces, hmem⟩ := ih fun b' hb' => hl b' (List.mem_cons_of_mem _ hb')
    obtain ⟨sa, hsa⟩ := ha
    obtain ⟨sb, hsb⟩ := hl b List.mem_cons_self
    unfold racesWith
    split
    · next hracing =>
      refine ⟨.new id o sa sb :: races, ?_, fun r => ?_⟩
      · rw [hsa, hsb, hraces]
        rfl
      · rw [List.mem_cons, hmem]
        constructor
        · rintro (rfl | ⟨b', hb', h⟩)
          · exact ⟨b, List.mem_cons_self, hracing, sa, sb, hsa, hsb, rfl⟩
          · exact ⟨b', List.mem_cons_of_mem _ hb', h⟩
        · rintro ⟨b', hb', hracing', sa', sb', hsa', hsb', rfl⟩
          rcases List.mem_cons.1 hb' with rfl | hb'
          · rw [hsa] at hsa'
            rw [hsb] at hsb'
            cases hsa'
            cases hsb'
            exact Or.inl rfl
          · exact Or.inr ⟨b', hb', hracing', sa', sb', hsa', hsb', rfl⟩
    · next hracing =>
      refine ⟨races, hraces, fun r => ?_⟩
      rw [hmem]
      constructor
      · rintro ⟨b', hb', h⟩
        exact ⟨b', List.mem_cons_of_mem _ hb', h⟩
      · rintro ⟨b', hb', hracing', h⟩
        rcases List.mem_cons.1 hb' with rfl | hb'
        · exact absurd hracing' hracing
        · exact ⟨b', hb', hracing', h⟩

/-- The races among accesses are those of the pairs that race, the earlier access first. -/
theorem racesAmong_spec (id : AccessedId) (o : ObjectId) {l : List (EventRef × AccessType)}
    (hl : ∀ a ∈ l, ∃ s, d.side a = .ok s) :
    ∃ races, d.racesAmong id o l = .ok races ∧ ∀ r, r ∈ races ↔
      ∃ a b, [a, b].Sublist l ∧ d.isRacing a b = true ∧ ∃ sa sb, d.side a = .ok sa ∧
        d.side b = .ok sb ∧ r = .new id o sa sb := by
  induction l with
  | nil => exact ⟨[], rfl, fun r => by simp⟩
  | cons c l ih =>
    have hl' : ∀ a ∈ l, ∃ s, d.side a = .ok s := fun a ha => hl a (List.mem_cons_of_mem _ ha)
    obtain ⟨rest, hrest, hmem⟩ := ih hl'
    obtain ⟨first, hfirst, hmem'⟩ :=
      racesWith_spec id o (hl c List.mem_cons_self) hl'
    refine ⟨first ++ rest, ?_, fun r => ?_⟩
    · unfold racesAmong
      rw [hfirst, hrest]
      rfl
    · rw [List.mem_append, hmem, hmem']
      constructor
      · rintro (⟨b, hb, h⟩ | ⟨a, b, hab, h⟩)
        · exact ⟨c, b, (List.singleton_sublist.2 hb).cons_cons c, h⟩
        · exact ⟨a, b, hab.cons c, h⟩
      · rintro ⟨a, b, hab, h⟩
        rcases List.sublist_cons_iff.1 hab with hab | ⟨l', heq, hb⟩
        · exact Or.inr ⟨a, b, hab, h⟩
        · cases heq
          exact Or.inl ⟨b, List.singleton_sublist.1 hb, h⟩

/-! ### The races of a trace -/

/-- An event happens before another if links lead from it to the other: program order, forks, joins
and barriers, without the joins and barriers that the order leaves out. -/
def Precedes (d : Detector) (a b : EventRef) : Prop :=
  Relation.TransGen (HappensBefore.Link d.trace d.order) (.event a) (.event b)

/-- Two accesses of an object race: the events are named in order and come from different threads,
one of them writes or frees the object, neither happens before the other, and no lock that is held
at one is certainly a lock that is held at the other. -/
structure Racing (d : Detector) (x : Conflict) : Prop where
  lt : x.first.Lt x.second
  threads : x.first.thread ≠ x.second.thread
  touches : ∃ o ta tb, d.memory.object? x.object = some o ∧ d.trace.Touches x.first o ta ∧
    d.trace.Touches x.second o tb ∧ (ta.Changes ∨ tb.Changes)
  unordered : ¬ d.Precedes x.first x.second ∧ ¬ d.Precedes x.second x.first
  unlocked : ∀ a b, LockSets.Holds d.trace x.first a → LockSets.Holds d.trace x.second b →
    ¬ d.trace.pointsTo.SurelySame a b

/-- One side of a race tells what the event does and where. -/
structure IsSide (t : Trace) (a : RaceAccess) (n : Node) : Prop where
  event : ∃ e, t.event? a.event = some e ∧ t.arena.get? e.node = some n ∧
    e.kind.access? = some a.access
  inst : a.inst = n.inst
  location : a.location = n.site.location

/-- A race tells what its conflict is about. -/
structure Describes (d : Detector) (r : Race) : Prop where
  object : d.memory.object? r.object = some r.abstractObject
  first : ∃ n, IsSide d.trace r.first n
  second : ∃ n, IsSide d.trace r.second n
  severity : r.severity = .ofAccesses r.first.access r.second.access

/-- The instruction of an event. -/
def instOf? (t : Trace) (r : EventRef) : Option InstId :=
  (t.event? r >>= t.node?).map Node.inst

/-- A detector that knows its trace. -/
structure Knows (d : Detector) (l : List Access) : Prop where
  trace : d.trace.WellFormed
  memory : d.memory.Indexes l
  mem : ∀ o type r, ⟨o, type, r⟩ ∈ l ↔ d.trace.Touches r o type
  order : HappensBefore.Ordered d.trace d.order
  locks : d.locks = .ofTrace d.trace

namespace IsSide

variable {t : Trace} {a b : RaceAccess} {n m : Node}

/-- The instruction of a side is that of its event. -/
theorem instOf?_eq (h : IsSide t a n) : instOf? t a.event = some a.inst := by
  obtain ⟨e, he, hn, -⟩ := h.event
  unfold instOf? Trace.node?
  rw [he, Option.bind_eq_bind, Option.bind_some, hn, h.inst]
  rfl

/-- An event makes accesses of one type. -/
theorem access_eq (h : IsSide t a n) {o : ObjectId} {type : AccessType}
    (htouches : t.Touches a.event o type) : a.access = type := by
  obtain ⟨e, he, -, hkind⟩ := h.event
  obtain ⟨e', -, he', -, hkind'⟩ := htouches.exists_event
  cases he.symm.trans he'
  exact Option.some.inj (hkind.symm.trans hkind')

/-- The event tells the whole side. -/
theorem unique (ha : IsSide t a n) (hb : IsSide t b m) (h : a.event = b.event) : a = b := by
  obtain ⟨event, access, inst, location⟩ := a
  obtain ⟨event', access', inst', location'⟩ := b
  obtain ⟨⟨e, he, hn, hkind⟩, hinst, hlocation⟩ := ha
  obtain ⟨⟨e', he', hn', hkind'⟩, hinst', hlocation'⟩ := hb
  dsimp only at *
  subst h
  rw [he] at he'
  cases he'
  rw [hn] at hn'
  cases hn'
  rw [hkind] at hkind'
  cases hkind'
  rw [hinst, hinst', hlocation, hlocation']

end IsSide

/-- The side that is made of an access. -/
theorem side_eq_ok {a : EventRef × AccessType} {s : RaceAccess}
    (ha : ∃ o, d.trace.Touches a.1 o a.2) :
    d.side a = .ok s ↔ s.event = a.1 ∧ s.access = a.2 ∧ ∃ n, IsSide d.trace s n := by
  obtain ⟨r, type⟩ := a
  obtain ⟨o, ha⟩ := ha
  obtain ⟨e, n, he, hn, hkind⟩ := ha.exists_event
  dsimp only at he hkind
  have hside : d.side (r, type) = .ok ⟨r, type, n.inst, n.site.location⟩ := by
    unfold side
    dsimp only
    rw [he]
    exact Except.bind_eq_ok.2 ⟨n, Arena.get_eq_ok.2 hn, rfl⟩
  have his : IsSide d.trace ⟨r, type, n.inst, n.site.location⟩ n :=
    ⟨⟨e, he, hn, hkind⟩, rfl, rfl⟩
  rw [hside]
  constructor
  · intro h
    cases h
    exact ⟨rfl, rfl, n, his⟩
  · rintro ⟨hevent, -, m, hs⟩
    rw [his.unique hs hevent.symm]

/-- The accesses of a number are those that the index holds of its object. -/
theorem mem_accesses_of_indexes {l : List Access} (h : d.memory.Indexes l)
    {a : EventRef × AccessType} :
    a ∈ d.accesses id ↔ ∃ o, d.memory.object? id = some o ∧ ⟨o, a.2, a.1⟩ ∈ l := by
  obtain ⟨r, type⟩ := a
  have hrows : (∃ k row, (k, row) ∈ (d.memory.table id).rows type ∧ r ∈ row) ↔
      ∃ o, d.memory.object? id = some o ∧ ⟨o, type, r⟩ ∈ l := by
    unfold SharedMemory.table SharedMemory.object?
    cases hentry : d.memory.objects[id]? with
    | none =>
      cases type <;> simp [AccessTable.rows, AccessTable.empty]
    | some entry =>
      obtain ⟨o, table⟩ := entry
      have hholds := h.holds id o table hentry type
      constructor
      · rintro ⟨k, row, hrow, hr⟩
        exact ⟨o, rfl, ((hholds.sound k row hrow).2 r hr).2⟩
      · rintro ⟨o', ho', hmem⟩
        cases ho'
        obtain ⟨row, hrow, hr⟩ := hholds.complete r hmem
        exact ⟨r.thread, row, hrow, hr⟩
  rw [← hrows]
  unfold accesses
  rw [List.mem_mergeSort]
  simp only [List.mem_flatMap, List.mem_map, Prod.mk.injEq, Prod.exists]
  constructor
  · rintro ⟨type', -, k, row, hrow, r', hr', rfl, rfl⟩
    exact ⟨k, row, hrow, hr'⟩
  · rintro ⟨k, row, hrow, hr⟩
    exact ⟨type, by cases type <;> simp, k, row, hrow, r, hr, rfl, rfl⟩

namespace Knows

variable {l : List Access} (h : d.Knows l)

include h

/-- The accesses of a number are those of its object. -/
theorem mem_accesses {a : EventRef × AccessType} :
    a ∈ d.accesses id ↔ ∃ o, d.memory.object? id = some o ∧ d.trace.Touches a.1 o a.2 := by
  simp only [mem_accesses_of_indexes h.memory, h.mem]

end Knows

/-- When two accesses are found to race. -/
theorem isRacing_eq_true_iff {a b : EventRef × AccessType} :
    d.isRacing a b = true ↔ a.1.thread ≠ b.1.thread ∧ (a.2.Changes ∨ b.2.Changes) ∧ a.1 ≠ b.1 ∧
      (¬ d.order.before a.1 b.1 = true ∧ ¬ d.order.before b.1 a.1 = true) ∧
      ¬ LockSets.sharesLock d.trace d.locks a.1 b.1 = true := by
  rw [← AccessType.conflicts_iff]
  unfold isRacing HappensBefore.concurrent
  simp only [Bool.and_eq_true, bne_iff_ne, Bool.not_eq_true', and_assoc, Bool.not_eq_true]

/-- A race of two sides of which the first is named first. -/
theorem new_eq {sa sb : RaceAccess} (hlt : sa.event.Lt sb.event) :
    Race.new id o sa sb = ⟨id, o, sa, sb, .ofAccesses sa.access sb.access⟩ := by
  unfold Race.new
  rw [if_pos (EventRef.ble_iff.2 (Or.inl hlt))]

namespace Knows

variable {l : List Access} (h : d.Knows l)

include h

/-- The clocks tell which events happen before which. -/
theorem before_iff_precedes {a b : EventRef} {e f : Event} (he : d.trace.event? a = some e)
    (hf : d.trace.event? b = some f) : d.order.before a b = true ↔ d.Precedes a b :=
  h.order.before_iff_link h.trace he hf

/-- The held lock nodes tell which events hold one lock. -/
theorem unlocked_iff {a b : EventRef} {e f : Event} (he : d.trace.event? a = some e)
    (hf : d.trace.event? b = some f) :
    ¬ LockSets.sharesLock d.trace d.locks a b = true ↔ ∀ x y, LockSets.Holds d.trace a x →
      LockSets.Holds d.trace b y → ¬ d.trace.pointsTo.SurelySame x y := by
  rw [h.locks, LockSets.sharesLock_iff_holds he hf]
  simp only [not_exists, not_and]

/-- Accesses of different threads are found to race if one of them changes memory, neither happens
before the other, and no lock that is held at one is certainly held at the other. -/
theorem isRacing_iff {a b : EventRef × AccessType} {e f : Event}
    (he : d.trace.event? a.1 = some e) (hf : d.trace.event? b.1 = some f) :
    d.isRacing a b = true ↔ a.1.thread ≠ b.1.thread ∧ (a.2.Changes ∨ b.2.Changes) ∧
      (¬ d.Precedes a.1 b.1 ∧ ¬ d.Precedes b.1 a.1) ∧
      ∀ x y, LockSets.Holds d.trace a.1 x → LockSets.Holds d.trace b.1 y →
        ¬ d.trace.pointsTo.SurelySame x y := by
  rw [isRacing_eq_true_iff, h.before_iff_precedes he hf, h.before_iff_precedes hf he,
    h.unlocked_iff he hf]
  exact and_congr_right fun hthread => and_congr_right fun _ =>
    and_iff_right fun heq => hthread (congrArg EventRef.thread heq)

/-- Every access has a side. -/
theorem exists_side {a : EventRef × AccessType} (ha : a ∈ d.accesses id) :
    ∃ s, d.side a = .ok s := by
  obtain ⟨o, -, htouches⟩ := h.mem_accesses.1 ha
  obtain ⟨e, n, he, hn, hkind⟩ := htouches.exists_event
  exact ⟨⟨a.1, a.2, n.inst, n.site.location⟩, (side_eq_ok ⟨o, htouches⟩).2
    ⟨rfl, rfl, n, ⟨e, he, hn, hkind⟩, rfl, rfl⟩⟩

/-- What is made of two accesses that are found to race is a race. -/
theorem racing_new (ho : d.memory.object? id = some o) {a b : EventRef × AccessType}
    (hab : [a, b].Sublist (d.accesses id)) (hracing : d.isRacing a b = true) {sa sb : RaceAccess}
    (hsa : d.side a = .ok sa) (hsb : d.side b = .ok sb) :
    (Race.new id o sa sb).object = id ∧ d.Racing (Race.new id o sa sb).conflict ∧
      d.Describes (Race.new id o sa sb) := by
  obtain ⟨oa, hoa, hta⟩ := h.mem_accesses.1 (hab.subset List.mem_cons_self)
  obtain ⟨ob, hob, htb⟩ :=
    h.mem_accesses.1 (hab.subset (List.mem_cons_of_mem _ List.mem_cons_self))
  obtain rfl : o = oa := Option.some.inj (ho.symm.trans hoa)
  obtain rfl : o = ob := Option.some.inj (ho.symm.trans hob)
  obtain ⟨hea, -, na, hna⟩ := (side_eq_ok ⟨o, hta⟩).1 hsa
  obtain ⟨heb, -, nb, hnb⟩ := (side_eq_ok ⟨o, htb⟩).1 hsb
  obtain ⟨ea, -, hea', -⟩ := hta.exists_event
  obtain ⟨eb, -, heb', -⟩ := htb.exists_event
  obtain ⟨hthreads, hconflict, hunordered, hunlocked⟩ := (h.isRacing_iff hea' heb').1 hracing
  have hlt : a.1.Lt b.1 := by
    have hle := List.pairwise_pair.1 ((d.sorted_accesses id).sublist hab)
    exact (accessBle_iff.1 hle).resolve_right fun heq =>
      hthreads (congrArg EventRef.thread heq.1)
  rw [new_eq (by rw [hea, heb]; exact hlt)]
  have hconflict' : (⟨id, sa.event, sb.event⟩ : Conflict) = ⟨id, a.1, b.1⟩ := by rw [hea, heb]
  refine ⟨rfl, ?_, ⟨ho, ⟨na, hna⟩, ⟨nb, hnb⟩, rfl⟩⟩
  rw [Race.conflict, hconflict']
  exact ⟨hlt, hthreads, ⟨o, a.2, b.2, ho, hta, htb, hconflict⟩, hunordered, hunlocked⟩

/-- The accesses of a race are found to race, and the race is made of them. -/
theorem exists_isRacing {r : Race} (hracing : d.Racing r.conflict) (hr : d.Describes r) :
    ∃ a b, [a, b].Sublist (d.accesses r.object) ∧ d.isRacing a b = true ∧
      ∃ sa sb, d.side a = .ok sa ∧ d.side b = .ok sb ∧
        r = .new r.object r.abstractObject sa sb := by
  obtain ⟨o, ta, tb, ho, hta, htb, hconflict⟩ := hracing.touches
  obtain ⟨na, hna⟩ := hr.first
  obtain ⟨nb, hnb⟩ := hr.second
  have hka : r.first.access = ta := hna.access_eq hta
  have hkb : r.second.access = tb := hnb.access_eq htb
  have hne : r.first.event ≠ r.second.event :=
    fun heq => hracing.threads (congrArg EventRef.thread heq)
  have hsub : [(r.first.event, ta), (r.second.event, tb)].Sublist (d.accesses r.object) := by
    refine pair_sublist (d.sorted_accesses r.object) (h.mem_accesses.2 ⟨o, ho, hta⟩)
      (h.mem_accesses.2 ⟨o, ho, htb⟩) (fun heq => hne (congrArg Prod.fst heq)) ?_
    rw [accessBle_iff]
    rintro (hlt | ⟨heq, -⟩)
    · exact EventRef.Lt.irrefl _ (hracing.lt.trans hlt)
    · exact hne heq.symm
  refine ⟨_, _, hsub, ?_, r.first, r.second, ?_, ?_, ?_⟩
  · obtain ⟨ea, -, hea, -⟩ := hta.exists_event
    obtain ⟨eb, -, heb, -⟩ := htb.exists_event
    exact (h.isRacing_iff hea heb).2
      ⟨hracing.threads, hconflict, hracing.unordered, hracing.unlocked⟩
  · exact (side_eq_ok ⟨o, hta⟩).2 ⟨rfl, hka, na, hna⟩
  · exact (side_eq_ok ⟨o, htb⟩).2 ⟨rfl, hkb, nb, hnb⟩
  · rw [new_eq hracing.lt, ← hr.severity]

/-- The races on an object are the conflicts that race there. -/
theorem racesOn_spec (id : AccessedId) :
    ∃ races, d.racesOn id = .ok races ∧
      ∀ r, r ∈ races ↔ r.object = id ∧ d.Racing r.conflict ∧ d.Describes r := by
  unfold racesOn
  split
  · next hnone =>
    refine ⟨[], rfl, fun r => ⟨fun hr => absurd hr List.not_mem_nil, ?_⟩⟩
    rintro ⟨rfl, -, hr⟩
    rw [hr.object] at hnone
    cases hnone
  · next o ho =>
    obtain ⟨races, hraces, hmem⟩ := racesAmong_spec id o fun a ha => h.exists_side ha
    refine ⟨races, hraces, fun r => ?_⟩
    rw [hmem]
    constructor
    · rintro ⟨a, b, hab, hracing, sa, sb, hsa, hsb, rfl⟩
      exact h.racing_new ho hab hracing hsa hsb
    · rintro ⟨rfl, hracing, hr⟩
      obtain rfl : r.abstractObject = o := Option.some.inj (hr.object.symm.trans ho)
      exact h.exists_isRacing hracing hr

/-- Every object that is accessed has a number. -/
theorem exists_object {r : EventRef} {type : AccessType} (ht : d.trace.Touches r o type) :
    ∃ id, d.memory.object? id = some o := by
  obtain ⟨id, hid⟩ := h.memory.complete ⟨o, type, r⟩ ((h.mem o type r).2 ht)
  exact ⟨id, (h.memory.ids o id).1 hid⟩

/-- An object with a race passes the test for shared objects. -/
theorem mem_shared {x : Conflict} (hx : d.Racing x) : x.object ∈ d.memory.shared := by
  obtain ⟨o, ta, tb, ho, hta, htb, hconflict⟩ := hx.touches
  unfold SharedMemory.object? at ho
  obtain ⟨⟨o', table⟩, hentry, rfl⟩ := Option.map_eq_some_iff.1 ho
  unfold SharedMemory.shared SharedMemory.isShared SharedMemory.table
  rw [List.mem_filter, List.mem_range, hentry]
  refine ⟨(Array.getElem?_eq_some_iff.1 hentry).1, ?_⟩
  exact AccessTable.isShared_of_holds (h.memory.holds _ _ _ hentry) ((h.mem _ _ _).2 hta)
    ((h.mem _ _ _).2 htb) hx.threads (AccessType.conflicts_iff.2 hconflict)

end Knows

/-- Every conflict that races is described by a race. -/
theorem Racing.exists_describes {x : Conflict} (hx : d.Racing x) :
    ∃ r, d.Describes r ∧ r.conflict = x := by
  obtain ⟨o, ta, tb, ho, hta, htb, -⟩ := hx.touches
  obtain ⟨ea, na, hea, hna, hka⟩ := hta.exists_event
  obtain ⟨eb, nb, heb, hnb, hkb⟩ := htb.exists_event
  refine ⟨⟨x.object, o, ⟨x.first, ta, na.inst, na.site.location⟩,
    ⟨x.second, tb, nb.inst, nb.site.location⟩, .ofAccesses ta tb⟩, ?_, rfl⟩
  exact ⟨ho, ⟨na, ⟨ea, hea, hna, hka⟩, rfl, rfl⟩, ⟨nb, ⟨eb, heb, hnb, hkb⟩, rfl, rfl⟩, rfl⟩

/-- The instructions of a conflict, in no order. -/
def instructions? (t : Trace) (x : Conflict) : Option (Sym2 InstId) := do
  return s(← instOf? t x.first, ← instOf? t x.second)

/-- The instructions of a race are those of its conflict. -/
theorem Describes.instructions?_eq {r : Race} (h : d.Describes r) :
    instructions? d.trace r.conflict = some r.instructions := by
  obtain ⟨na, hna⟩ := h.first
  obtain ⟨nb, hnb⟩ := h.second
  unfold instructions? Race.conflict
  rw [hna.instOf?_eq, hnb.instOf?_eq]
  rfl

/-- A conflict tells the whole race. -/
theorem Describes.unique {r s : Race} (hr : d.Describes r) (hs : d.Describes s)
    (h : r.conflict = s.conflict) : r = s := by
  obtain ⟨na, hna⟩ := hr.first
  obtain ⟨nb, hnb⟩ := hr.second
  obtain ⟨ma, hma⟩ := hs.first
  obtain ⟨mb, hmb⟩ := hs.second
  have hfirst := hna.unique hma (congrArg Conflict.first h)
  have hsecond := hnb.unique hmb (congrArg Conflict.second h)
  have hobject : r.object = s.object := congrArg Conflict.object h
  have habstract : r.abstractObject = s.abstractObject := by
    have hobject' := hr.object
    rw [hobject, hs.object] at hobject'
    exact (Option.some.inj hobject').symm
  have hseverity : r.severity = s.severity := by rw [hr.severity, hs.severity, hfirst, hsecond]
  cases r
  cases s
  dsimp only at *
  rw [hobject, habstract, hfirst, hsecond, hseverity]

/-- What a detector that knows its trace answers: the least race of each pair of instructions with
racing accesses, in ascending order. -/
theorem Knows.detect_spec {l : List Access} (h : d.Knows l) :
    ∃ races, d.detect = .ok races ∧
      races.Pairwise (fun r s => r.conflict.Lt s.conflict) ∧
      (races.map Race.instructions).Nodup ∧
      (∀ r ∈ races, d.Racing r.conflict ∧ d.Describes r) ∧
      ∀ x, d.Racing x → ∃ r ∈ races, instructions? d.trace x = some r.instructions ∧
        (r.conflict = x ∨ r.conflict.Lt x) := by
  obtain ⟨lists, hlists⟩ := Except.exists_mapM_eq_ok (l := d.memory.shared) (f := d.racesOn)
    fun id _ => (h.racesOn_spec id).imp fun _ hraces => hraces.1
  obtain ⟨sorted, hsorted⟩ : ∃ sorted, lists.flatten.mergeSort Race.ble = sorted := ⟨_, rfl⟩
  have hmem : ∀ r, r ∈ sorted ↔ d.Racing r.conflict ∧ d.Describes r := by
    intro r
    rw [← hsorted, List.mem_mergeSort, List.mem_flatten]
    constructor
    · rintro ⟨races, hraces, hr⟩
      obtain ⟨id, -, hid⟩ := (Except.mem_mapM hlists).1 hraces
      obtain ⟨races', hraces', hmem⟩ := h.racesOn_spec id
      rw [hid] at hraces'
      cases hraces'
      exact ((hmem r).1 hr).2
    · rintro ⟨hracing, hr⟩
      obtain ⟨races, hraces, hmem⟩ := h.racesOn_spec r.object
      refine ⟨races, (Except.mem_mapM hlists).2 ⟨r.object, h.mem_shared hracing, hraces⟩, ?_⟩
      exact (hmem r).2 ⟨rfl, hracing, hr⟩
  have hpair : sorted.Pairwise fun r s => r.ble s = true := by
    rw [← hsorted]
    exact List.pairwise_mergeSort Race.ble_trans Race.ble_total _
  have hsub := keepFirst_sublist [] sorted
  have hnodup := nodup_keepFirst [] sorted
  refine ⟨keepFirst [] sorted, ?_, ?_, ?_, fun r hr => (hmem r).1 (hsub.subset hr), ?_⟩
  · unfold detect
    rw [hlists, ← hsorted]
    rfl
  · have hdistinct := List.pairwise_map.1 hnodup
    refine ((hpair.sublist hsub).and hdistinct).imp_of_mem ?_
    rintro r s hr hs ⟨hle, hne⟩
    refine (Race.ble_iff.1 hle).resolve_right fun heq => hne ?_
    rw [((hmem r).1 (hsub.subset hr)).2.unique ((hmem s).1 (hsub.subset hs)).2 heq]
  · rw [List.Nodup, List.pairwise_map] at *
    exact hnodup.imp fun hne heq => hne (Race.instPair_eq_iff.2 heq)
  · intro x hx
    obtain ⟨r, hr, rfl⟩ := hx.exists_describes
    obtain ⟨s, hs, heq, hle⟩ :=
      exists_mem_keepFirst hpair ((hmem r).2 ⟨hx, hr⟩) List.not_mem_nil
    refine ⟨s, hs, ?_, (Race.ble_iff.1 hle).symm⟩
    rw [hr.instructions?_eq, Race.instPair_eq_iff.1 heq]

/-- For every well-formed trace there is a detector that knows it. -/
theorem exists_knows {t : Trace} (ht : t.WellFormed) :
    ∃ d l, ofTrace t = .ok d ∧ d.Knows l ∧ d.trace = t := by
  obtain ⟨m, l, hm, hindexes, hmem⟩ := SharedMemory.exists_indexes ht
  obtain ⟨o, ho, hordered⟩ := HappensBefore.exists_ordered ht
  refine ⟨⟨t, m, o, LockSets.ofTrace t⟩, l, ?_, ⟨ht, hindexes, hmem, hordered, rfl⟩, rfl⟩
  exact Except.bind_eq_ok.2 ⟨m, hm, Except.bind_eq_ok.2 ⟨o, ho, rfl⟩⟩

/-- A detector that was made of a trace knows it. -/
theorem knows_of_ofTrace {t : Trace} (ht : t.WellFormed) (hd : ofTrace t = .ok d) :
    ∃ l, d.Knows l ∧ d.trace = t := by
  obtain ⟨d', l, hd', hknows, htrace⟩ := exists_knows ht
  cases hd.symm.trans hd'
  exact ⟨l, hknows, htrace⟩

/-- The races of every trace that is built are found.  All accessed objects have numbers, and the
answer is a strictly ascending list with one race for each pair of instructions that has racing
accesses of an object of any number; this race is the least of its pair. -/
theorem detect_exact {c : Subject} {t : Trace} (hbuild : Trace.build c = .ok t) :
    ∃ d races, ofTrace t = .ok d ∧ d.trace = t ∧ d.detect = .ok races ∧
      (∀ r o type, t.Touches r o type → ∃ id, d.memory.object? id = some o) ∧
      races.Pairwise (fun r s => r.conflict.Lt s.conflict) ∧
      (races.map Race.instructions).Nodup ∧
      (∀ r ∈ races, d.Racing r.conflict ∧ d.Describes r) ∧
      ∀ x, d.Racing x → ∃ r ∈ races, instructions? t x = some r.instructions ∧
        (r.conflict = x ∨ r.conflict.Lt x) := by
  obtain ⟨d, l, hd, hknows, rfl⟩ := exists_knows (Trace.build_wellFormed hbuild)
  obtain ⟨races, hdetect, hraces⟩ := hknows.detect_spec
  exact ⟨d, races, hd, rfl, hdetect, fun r o type => hknows.exists_object, hraces⟩

end Detector

/-! ### The race of a child

In the program of `ForkJoin` the child frees what the main thread stores to between the fork and the
join. -/

namespace ForkJoin

open HappensBefore

variable {o : HappensBefore} {d : Detector}

/-- The events are a fork, a store and a join, and the free of the child. -/
theorem eq_of_event? {r : EventRef} {e : Event} (he : trace.event? r = some e) :
    r = e.ref ∧ (e = ⟨0, 0, 0, .fork 1⟩ ∨ e = ⟨0, 1, 1, .write⟩ ∨ e = ⟨0, 2, 2, .join (some 1)⟩ ∨
      e = ⟨1, 0, 3, .free⟩) := by
  have ht := Trace.build_wellFormed build_eq
  obtain rfl := ht.ref_eq he
  have hmem : e ∈ trace.events := ht.mem_events.2 he
  exact ⟨rfl, by simpa [Trace.events, trace] using hmem⟩

/-- Program order, the fork and the join. -/
def links : List (Point × Point) :=
  [(.start 0, .event ⟨0, 0⟩), (.event ⟨0, 0⟩, .event ⟨0, 1⟩), (.event ⟨0, 1⟩, .event ⟨0, 2⟩),
    (.event ⟨0, 2⟩, .finish 0), (.event ⟨0, 0⟩, .start 1), (.start 1, .event ⟨1, 0⟩),
    (.event ⟨1, 0⟩, .finish 1), (.finish 1, .event ⟨0, 2⟩)]

/-- The order is made of no other links. -/
theorem mem_links {p q : Point} (h : Link trace o p q) : (p, q) ∈ links := by
  cases h with
  | basic h =>
    cases h with
    | @first thread hthread =>
      obtain rfl | rfl := Nat.le_one_iff_eq_zero_or_eq_one.1 (Nat.lt_succ_iff.1 hthread)
      · decide
      · decide
    | next he =>
      obtain ⟨rfl, rfl | rfl | rfl | rfl⟩ := eq_of_event? he <;> decide
    | fork he hfork =>
      obtain ⟨rfl, rfl | rfl | rfl | rfl⟩ := eq_of_event? he <;> cases hfork
      decide
  | join he hjoin =>
    obtain ⟨rfl, rfl | rfl | rfl | rfl⟩ := eq_of_event? he <;> cases hjoin
    decide
  | barrier _ _ _ hr =>
    obtain ⟨-, e, he, hbarrier⟩ := event?_of_barrier (Trace.build_wellFormed build_eq) hr
    obtain ⟨-, rfl | rfl | rfl | rfl⟩ := eq_of_event? he <;> cases hbarrier

/-- The store and the free are not ordered: from neither of them links lead to the other. -/
theorem unordered :
    ¬ Relation.TransGen (Link trace o) (.event ⟨0, 1⟩) (.event ⟨1, 0⟩) ∧
      ¬ Relation.TransGen (Link trace o) (.event ⟨1, 0⟩) (.event ⟨0, 1⟩) := by
  have hclosed : ∀ S : List Point, (∀ l ∈ links, l.1 ∈ S → l.2 ∈ S) →
      ∀ p q, Link trace o p q → p ∈ S → q ∈ S := fun S hS p q hlink => hS _ (mem_links hlink)
  constructor
  · intro hpath
    have hmem := mem_of_link
      (hclosed [.event ⟨0, 1⟩, .event ⟨0, 2⟩, .finish 0] (by decide)) List.mem_cons_self hpath
    revert hmem
    decide
  · intro hpath
    have hmem := mem_of_link
      (hclosed [.event ⟨1, 0⟩, .finish 1, .event ⟨0, 2⟩, .finish 0] (by decide))
      List.mem_cons_self hpath
    revert hmem
    decide

/-- The main thread writes both objects that the pointer may point to, and the child frees them. -/
theorem touches_iff {r : EventRef} {x : ObjectId} {type : AccessType} :
    trace.Touches r x type ↔ x ∈ [(⟨0⟩ : ObjectId), ⟨1⟩] ∧
      (r = ⟨0, 1⟩ ∧ type = .write ∨ r = ⟨1, 0⟩ ∧ type = .free) := by
  constructor
  · intro h
    cases h with
    | read he hkind =>
      obtain ⟨-, rfl | rfl | rfl | rfl⟩ := eq_of_event? he <;> cases hkind
    | write he hkind hn hv ho =>
      obtain ⟨rfl, rfl | rfl | rfl | rfl⟩ := eq_of_event? he <;> cases hkind
      cases hn
      cases hv
      exact ⟨ho, Or.inl ⟨rfl, rfl⟩⟩
    | free he hkind hn hv ho =>
      obtain ⟨rfl, rfl | rfl | rfl | rfl⟩ := eq_of_event? he <;> cases hkind
      cases hn
      cases hv
      exact ⟨ho, Or.inr ⟨rfl, rfl⟩⟩
  · rintro ⟨hx, ⟨rfl, rfl⟩ | ⟨rfl, rfl⟩⟩
    · exact .write (e := ⟨0, 1, 1, .write⟩) (v := ⟨1⟩) rfl rfl rfl rfl hx
    · exact .free (e := ⟨1, 0, 3, .free⟩) (v := ⟨1⟩) rfl rfl rfl rfl hx

/-- The write and the free race on both objects, and nothing else does. -/
theorem racing_iff (ht : d.trace = trace) {x : Conflict} :
    d.Racing x ↔ x.first = ⟨0, 1⟩ ∧ x.second = ⟨1, 0⟩ ∧
      ∃ o ∈ [(⟨0⟩ : ObjectId), ⟨1⟩], d.memory.object? x.object = some o := by
  constructor
  · intro hx
    obtain ⟨o, ta, tb, ho, hta, htb, -⟩ := hx.touches
    rw [ht, touches_iff] at hta htb
    have hthreads := hx.threads
    have hlt := hx.lt
    obtain ⟨hmem, ⟨hfirst, -⟩ | ⟨hfirst, -⟩⟩ := hta <;>
      obtain ⟨-, ⟨hsecond, -⟩ | ⟨hsecond, -⟩⟩ := htb <;> rw [hfirst, hsecond] at hthreads hlt
    · exact absurd rfl hthreads
    · exact ⟨hfirst, hsecond, o, hmem, ho⟩
    · rcases hlt with hlt | ⟨hthread, -⟩
      · exact absurd hlt (by decide)
      · exact absurd hthread hthreads
    · exact absurd rfl hthreads
  · obtain ⟨id, a, b⟩ := x
    rintro ⟨rfl, rfl, o, hmem, ho⟩
    refine ⟨Or.inl Nat.zero_lt_one, Nat.zero_ne_one,
      ⟨o, .write, .free, ho, ?_, ?_, Or.inl (Or.inl rfl)⟩, ?_, ?_⟩
    · rw [ht, touches_iff]
      exact ⟨hmem, Or.inl ⟨rfl, rfl⟩⟩
    · rw [ht, touches_iff]
      exact ⟨hmem, Or.inr ⟨rfl, rfl⟩⟩
    · unfold Detector.Precedes
      rw [ht]
      exact unordered
    · intro p q hp
      rw [ht] at hp
      obtain ⟨-, -, node, hnode, -⟩ := (LockSets.holds_iff (e := ⟨0, 1, 1, .write⟩) rfl).1 hp
      obtain ⟨e, he, hkind, -⟩ := LockSets.exists_lock_of_mem_heldAt hnode
      rcases (eq_of_event? ((Trace.build_wellFormed build_eq).mem_events.1 he)).2 with
        rfl | rfl | rfl | rfl <;> cases hkind

/-- A race of the write and the free tells their instructions and how they access memory. -/
theorem sides_eq {r : Race} (hr : d.Describes r) (ht : d.trace = trace)
    (hfirst : r.first.event = ⟨0, 1⟩) (hsecond : r.second.event = ⟨1, 0⟩) :
    (r.first.inst = ⟨1⟩ ∧ r.first.access = .write) ∧
      r.second.inst = ⟨3⟩ ∧ r.second.access = .free := by
  obtain ⟨n, hn⟩ := hr.first
  obtain ⟨m, hm⟩ := hr.second
  rw [ht] at hn hm
  have hwrite : trace.Touches r.first.event ⟨0⟩ .write := by
    rw [hfirst, touches_iff]
    exact ⟨List.mem_cons_self, Or.inl ⟨rfl, rfl⟩⟩
  have hfree : trace.Touches r.second.event ⟨0⟩ .free := by
    rw [hsecond, touches_iff]
    exact ⟨List.mem_cons_self, Or.inr ⟨rfl, rfl⟩⟩
  have hinst := hn.instOf?_eq
  have hinst' := hm.instOf?_eq
  rw [hfirst] at hinst
  rw [hsecond] at hinst'
  exact ⟨⟨(Option.some.inj hinst).symm, hn.access_eq hwrite⟩,
    (Option.some.inj hinst').symm, hm.access_eq hfree⟩

end ForkJoin

namespace Detector

/-- The race of the store and the free is found. -/
theorem detect_forkJoin :
    Trace.build ForkJoin.subject = .ok ForkJoin.trace ∧
      ∃ d r, ofTrace ForkJoin.trace = .ok d ∧ d.detect = .ok [r] ∧
        r.first.event = ⟨0, 1⟩ ∧ r.second.event = ⟨1, 0⟩ ∧ r.instructions = s(⟨1⟩, ⟨3⟩) := by
  obtain ⟨d, races, hd, htrace, hdetect, hnumbered, -, hnodup, hraces, hcomplete⟩ :=
    detect_exact ForkJoin.build_eq
  have hall : ∀ r ∈ races, r.first.event = ⟨0, 1⟩ ∧ r.second.event = ⟨1, 0⟩ ∧
      r.instructions = s(⟨1⟩, ⟨3⟩) := by
    intro r hr
    obtain ⟨hracing, hdescribes⟩ := hraces r hr
    obtain ⟨hfirst, hsecond, -⟩ := (ForkJoin.racing_iff htrace).1 hracing
    obtain ⟨⟨hone, -⟩, hthree, -⟩ := ForkJoin.sides_eq hdescribes htrace hfirst hsecond
    exact ⟨hfirst, hsecond, by rw [Race.instructions, hone, hthree]⟩
  -- One race is there, and a second one would have the same instructions.
  obtain ⟨id, hid⟩ := hnumbered ⟨0, 1⟩ ⟨0⟩ .write
    (ForkJoin.touches_iff.2 ⟨List.mem_cons_self, Or.inl ⟨rfl, rfl⟩⟩)
  have hracing : d.Racing ⟨id, ⟨0, 1⟩, ⟨1, 0⟩⟩ :=
    (ForkJoin.racing_iff htrace).2 ⟨rfl, rfl, ⟨0⟩, List.mem_cons_self, hid⟩
  obtain ⟨r, hr, -⟩ := hcomplete _ hracing
  refine ⟨ForkJoin.build_eq, d, r, hd, ?_, hall r hr⟩
  rw [hdetect]
  cases races with
  | nil => cases hr
  | cons s rest =>
    cases rest with
    | nil => rw [List.mem_singleton.1 hr]
    | cons u rest =>
      have hne := (List.pairwise_cons.1 hnodup).1 u.instructions List.mem_cons_self
      rw [(hall s List.mem_cons_self).2.2,
        (hall u (List.mem_cons_of_mem _ List.mem_cons_self)).2.2] at hne
      exact absurd rfl hne

end Detector

end DataRace
