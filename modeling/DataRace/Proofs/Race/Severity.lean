import DataRace.Proofs.Classify.Sources
import DataRace.Proofs.Race.Detect

/-!
# Critical races are kept

Of the races with one pair of instructions only the first is kept, whatever its severity is.  In a
program that was accepted an instruction that releases memory is the source of no other access, so
the races of a pair involve a release all together or not at all
(`Detector.Describes.involvesFree_eq`), and the race that is kept is critical if any of them is
(`Detector.critical_kept`).
-/

namespace DataRace

/-- A type of access is that of a category. -/
theorem EventKind.category_of_access {k : EventKind} {type : AccessType}
    (h : k.access? = some type) :
    k.category.isAccess = true ∧ (k.category = .free ↔ type = .free) := by
  cases k <;> cases h <;> decide

namespace Detector

variable {c : Subject} {d : Detector} {r s : Race}

/-- A side of a race is a release exactly if its node is one. -/
theorem IsSide.free_iff {t : Trace} {a : RaceAccess} {n : Node} (h : IsSide t a n)
    (ht : t.WellFormed) : n.category.isAccess = true ∧ (n.category = .free ↔ a.access = .free) := by
  obtain ⟨e, he, hn, hkind⟩ := h.event
  obtain ⟨m, hm, hcategory⟩ := (ht.fits_event? he).node
  cases hn.symm.trans hm
  rw [hcategory]
  exact EventKind.category_of_access hkind

/-- Sides of races with one instruction are all releases or none. -/
theorem IsSide.access_eq_free_iff {t : Trace} {a b : RaceAccess} {n m : Node} (ha : IsSide t a n)
    (hb : IsSide t b m) (ht : t.WellFormed) (hstocked : c.Stocked t.arena)
    (hc : c.program.Identifies) (hinst : a.inst = b.inst) :
    a.access = .free ↔ b.access = .free := by
  obtain ⟨e, -, hn, -⟩ := ha.event
  obtain ⟨e', -, hm, -⟩ := hb.event
  obtain ⟨hna, hfree⟩ := ha.free_iff ht
  obtain ⟨hma, hfree'⟩ := hb.free_iff ht
  have hnode : n.inst = m.inst := ha.inst.symm.trans (hinst.trans hb.inst)
  exact hfree.symm.trans ((hstocked.free_iff hc hn hm hnode hna hma).trans hfree')

/-- A race is critical exactly if one side is a release. -/
theorem Describes.critical_iff (h : d.Describes r) :
    r.severity = .critical ↔ r.involvesFree = true := by
  rw [h.severity]
  unfold Race.involvesFree
  cases r.first.access <;> cases r.second.access <;> decide

/-- The races of a pair of instructions involve a release all together or not at all. -/
theorem Describes.involvesFree_eq (hr : d.Describes r) (hs : d.Describes s)
    (ht : d.trace.WellFormed) (hstocked : c.Stocked d.trace.arena) (hc : c.program.Identifies)
    (hpair : r.instPair = s.instPair) : r.involvesFree = s.involvesFree := by
  obtain ⟨n, hfirst⟩ := hr.first
  obtain ⟨m, hsecond⟩ := hr.second
  obtain ⟨n', hfirst'⟩ := hs.first
  obtain ⟨m', hsecond'⟩ := hs.second
  rw [Race.instPair_eq_iff, Race.instructions, Race.instructions, Sym2.eq_iff] at hpair
  rw [Bool.eq_iff_iff]
  unfold Race.involvesFree
  rw [Bool.or_eq_true, Bool.or_eq_true, beq_iff_eq, beq_iff_eq, beq_iff_eq, beq_iff_eq]
  rcases hpair with ⟨hsame, hsame'⟩ | ⟨hcross, hcross'⟩
  · rw [hfirst.access_eq_free_iff hfirst' ht hstocked hc hsame,
      hsecond.access_eq_free_iff hsecond' ht hstocked hc hsame']
  · rw [hfirst.access_eq_free_iff hsecond' ht hstocked hc hcross,
      hsecond.access_eq_free_iff hfirst' ht hstocked hc hcross']
    exact or_comm

/-- Deduplication hides no critical race of a program that was accepted.  For every race on an
object of any number, a race of its pair of instructions is kept, and it is critical exactly if the
former is.  Whether the races of a pair involve a release depends on the pair alone. -/
theorem critical_kept {name : String} {routines : List Routine}
    (hp : Program.ofRoutines name routines = .ok c.program) {t : Trace}
    (hbuild : Trace.build c = .ok t) :
    ∃ d races, ofTrace t = .ok d ∧ d.detect = .ok races ∧
      (∀ id, ∃ all, d.racesOn id = .ok all ∧ ∀ r ∈ all,
        (r.severity = .critical ↔ r.involvesFree = true) ∧
        ∃ s ∈ races, s.instPair = r.instPair ∧
          (s.severity = .critical ↔ r.severity = .critical)) ∧
      ∀ id id' all all', d.racesOn id = .ok all → d.racesOn id' = .ok all' →
        ∀ r ∈ all, ∀ s ∈ all', r.instPair = s.instPair → r.involvesFree = s.involvesFree := by
  have hc := Program.identifies_of_ofRoutines hp
  have hstocked := Trace.build_stocked hbuild
  obtain ⟨d, l, hd, hknows, rfl⟩ := exists_knows (Trace.build_wellFormed hbuild)
  obtain ⟨races, hdetect, -, -, hraces, hkept⟩ := hknows.detect_spec
  have hdescribes : ∀ {id all}, d.racesOn id = .ok all → ∀ r ∈ all,
      d.Racing r.conflict ∧ d.Describes r := by
    intro id all hall r hr
    obtain ⟨all', hall', hmem⟩ := hknows.racesOn_spec id
    cases hall.symm.trans hall'
    exact ((hmem r).1 hr).2
  refine ⟨d, races, hd, hdetect, fun id => ?_, fun id id' all all' hall hall' r hr s hs hpair => ?_⟩
  · obtain ⟨all, hall, -⟩ := hknows.racesOn_spec id
    refine ⟨all, hall, fun r hr => ?_⟩
    obtain ⟨hracing, hr⟩ := hdescribes hall r hr
    obtain ⟨s, hs, hinstructions, -⟩ := hkept _ hracing
    rw [hr.instructions?_eq, Option.some.injEq] at hinstructions
    have hpair := Race.instPair_eq_iff.2 hinstructions.symm
    have hs' := (hraces s hs).2
    refine ⟨hr.critical_iff, s, hs, hpair, ?_⟩
    rw [hs'.critical_iff, hr.critical_iff,
      hs'.involvesFree_eq hr hknows.trace hstocked hc hpair]
  · exact (hdescribes hall r hr).2.involvesFree_eq (hdescribes hall' s hs).2 hknows.trace hstocked
      hc hpair

/-- The child that frees what the main thread writes has a critical race on each of two objects. -/
theorem Knows.exists_critical_forkJoin {l : List Access} (h : d.Knows l)
    (ht : d.trace = ForkJoin.trace)
    {o : ObjectId} (ho : o ∈ [(⟨0⟩ : ObjectId), ⟨1⟩]) :
    ∃ id all, d.memory.object? id = some o ∧ d.racesOn id = .ok all ∧
      ∃ r ∈ all, r.severity = .critical ∧ r.instPair = (⟨1⟩, ⟨3⟩) := by
  have htouches : d.trace.Touches ⟨0, 1⟩ o .write := by
    rw [ht, ForkJoin.touches_iff]
    exact ⟨ho, Or.inl ⟨rfl, rfl⟩⟩
  obtain ⟨id, hid⟩ := h.exists_object htouches
  obtain ⟨all, hall, hmem⟩ := h.racesOn_spec id
  have hracing : d.Racing ⟨id, ⟨0, 1⟩, ⟨1, 0⟩⟩ :=
    (ForkJoin.racing_iff ht).2 ⟨rfl, rfl, o, ho, hid⟩
  obtain ⟨r, hr, hconflict⟩ := hracing.exists_describes
  obtain ⟨⟨hone, hwrite⟩, hthree, hfree⟩ := ForkJoin.sides_eq hr ht
    (congrArg Conflict.first hconflict) (congrArg Conflict.second hconflict)
  have hmem' : r ∈ all := by
    refine (hmem r).2 ⟨congrArg Conflict.object hconflict, ?_, hr⟩
    rw [hconflict]
    exact hracing
  refine ⟨id, all, hid, hall, r, hmem', ?_, ?_⟩
  · rw [hr.severity, hwrite, hfree]
    rfl
  · rw [Race.instPair, hone, hthree]
    rfl

/-- The writes and the free of two objects race with one pair of instructions.  One race is kept,
and it is critical. -/
theorem kept_forkJoin :
    ∃ d races id id' all all', ofTrace ForkJoin.trace = .ok d ∧ d.detect = .ok races ∧
      id ≠ id' ∧ d.racesOn id = .ok all ∧ d.racesOn id' = .ok all' ∧
      (∃ r ∈ all, r.severity = .critical ∧ r.instPair = (⟨1⟩, ⟨3⟩)) ∧
      (∃ r ∈ all', r.severity = .critical ∧ r.instPair = (⟨1⟩, ⟨3⟩)) ∧
      ∃ s ∈ races, s.severity = .critical ∧ s.instPair = (⟨1⟩, ⟨3⟩) := by
  have hp : Program.ofRoutines "forkjoin" [ForkJoin.main, ForkJoin.worker] =
      .ok ForkJoin.subject.program :=
    Program.ofRoutines_eq_ok_iff_nodup.2 ⟨by decide, by decide, rfl⟩
  obtain ⟨d, races, hd, hdetect, hkept, -⟩ := critical_kept hp ForkJoin.build_eq
  obtain ⟨l, hknows, htrace⟩ := knows_of_ofTrace (Trace.build_wellFormed ForkJoin.build_eq) hd
  obtain ⟨id, all, hid, hall, r, hr, hcritical, hpair⟩ :=
    hknows.exists_critical_forkJoin htrace (o := ⟨0⟩) (by decide)
  obtain ⟨id', all', hid', hall', hother⟩ :=
    hknows.exists_critical_forkJoin htrace (o := ⟨1⟩) (by decide)
  have hne : id ≠ id' := by
    rintro rfl
    rw [hid] at hid'
    cases hid'
  obtain ⟨found, hfound, hmem⟩ := hkept id
  cases hall.symm.trans hfound
  obtain ⟨-, s, hs, hsame, hworst⟩ := hmem r hr
  exact ⟨d, races, id, id', all, all', hd, hdetect, hne, hall, hall', ⟨r, hr, hcritical, hpair⟩,
    hother, s, hs, hworst.2 hcritical, hsame.trans hpair⟩

end Detector

end DataRace
