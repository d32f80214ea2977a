import DataRace.Proofs.Race.Lookups
import DataRace.Proofs.Workers.Races

/-!
# Races are backed by the program

A side of a race names an instruction, a place and a type of access.  It stands for an event, whose
node comes of an instruction of the program (`Trace.build_stocked`), and which touches the object of
the race through a pointer of that node.  So the named instruction exists, has the place, and makes
the access through a pointer that may point to the object (`analyze_backed`).
-/

namespace DataRace

/-- A side of a race on an object is backed by a program: the named instruction has the reported
place, and accesses memory as reported through a pointer that may point to the object. -/
def RaceAccess.Backed (a : RaceAccess) (p : Program) (pointsTo : PointsTo) (o : ObjectId) : Prop :=
  ∃ i v, p.instruction? a.inst = some i ∧ i.location = a.location ∧ i.Accesses v a.access ∧
    o ∈ pointsTo.objects v

namespace Detector

variable {c : Subject} {name : String} {routines : List Routine}

/-- A side of a race is backed if its event touches the object. -/
theorem IsSide.backed {t : Trace} {a : RaceAccess} {n : Node} {o : ObjectId} {type : AccessType}
    (h : IsSide t a n) (ht : t.WellFormed) (hstocked : c.Stocked t.arena)
    (hp : Program.ofRoutines name routines = .ok c.program) (htouches : t.Touches a.event o type) :
    a.Backed c.program t.pointsTo o := by
  obtain ⟨e, he, hn, hkind⟩ := h.event
  obtain ⟨e', n', v, he', hn', haccesses, ho⟩ := htouches.exists_accesses ht
  cases he.symm.trans he'
  cases hn.symm.trans hn'
  obtain rfl : a.access = type := h.access_eq htouches
  obtain ⟨i, hi, hyields⟩ := hstocked e.node n hn
  refine ⟨i, v, ?_, ?_, hyields.accesses v a.access haccesses, ho⟩
  · rw [h.inst, hyields.inst]
    exact Program.instruction?_of_has hp hi
  · rw [h.location, hyields.site]
    rfl

/-- Both sides of a race that is found are backed. -/
theorem Describes.backed {d : Detector} {r : Race} (h : d.Describes r) (hr : d.Racing r.conflict)
    (ht : d.trace.WellFormed) (hstocked : c.Stocked d.trace.arena)
    (hp : Program.ofRoutines name routines = .ok c.program) :
    r.first.Backed c.program d.trace.pointsTo r.abstractObject ∧
      r.second.Backed c.program d.trace.pointsTo r.abstractObject := by
  obtain ⟨n, hfirst⟩ := h.first
  obtain ⟨m, hsecond⟩ := h.second
  obtain ⟨o, ta, tb, ho, hta, htb, -⟩ := hr.touches
  obtain rfl : r.abstractObject = o := Option.some.inj (h.object.symm.trans ho)
  exact ⟨hfirst.backed ht hstocked hp hta, hsecond.backed ht hstocked hp htb⟩

end Detector

/-- Every race that the analysis of an accepted program reports is backed by the program on both
sides. -/
theorem analyze_backed {name : String} {routines : List Routine} {p : Program}
    (hp : Program.ofRoutines name routines = .ok p) {pointsTo : PointsTo} {s : Settings}
    {races : List Race} (h : analyze p pointsTo s = .ok races) :
    ∀ r ∈ races, r.first.Backed p pointsTo r.abstractObject ∧
      r.second.Backed p pointsTo r.abstractObject := by
  intro r hr
  obtain ⟨-, t, hbuild, hraces⟩ := analyze_eq_ok.1 h
  have hstocked := Trace.build_stocked hbuild
  have hpointsTo : t.pointsTo = pointsTo := by
    obtain ⟨_, _, -, -, rfl⟩ := Trace.build_ok hbuild
    rfl
  obtain ⟨d, l, hd, hknows, rfl⟩ := Detector.exists_knows (Trace.build_wellFormed hbuild)
  obtain ⟨found, hdetect, -, -, hfound, -⟩ := hknows.detect_spec
  rw [Detector.races_eq hd, hdetect] at hraces
  cases hraces
  obtain ⟨hracing, hdescribes⟩ := hfound r hr
  exact hpointsTo ▸ hdescribes.backed hracing hknows.trace hstocked hp

/-- Of three workers one reads and one releases; the race is reported, and backed. -/
theorem backed_trio :
    ∃ routines races,
      Program.ofRoutines "m" routines = .ok (Worker.program Worker.trio) ∧
      analyze (Worker.program Worker.trio) Worker.pointsTo
        { Settings.default with maxThreads := 4 } = .ok races ∧
      races ≠ [] ∧
      ∀ r ∈ races, r.first.Backed (Worker.program Worker.trio) Worker.pointsTo r.abstractObject ∧
        r.second.Backed (Worker.program Worker.trio) Worker.pointsTo r.abstractObject := by
  have hp : Program.ofRoutines "m" (Worker.main Worker.trio (Worker.trio.map Worker.join) ::
      Worker.trio.map Worker.routine) = .ok (Worker.program Worker.trio) :=
    Program.ofRoutines_eq_ok_iff_nodup.2 ⟨by decide, by decide, rfl⟩
  obtain ⟨-, -, races, -, -, hraces, -, hpairs, -⟩ :=
    Worker.employs_trio.exists_analyze (by decide)
      (show Worker.pointsTo.objects ⟨0⟩ = [⟨0⟩] from rfl)
      (s := { Settings.default with maxThreads := 4 }) rfl rfl rfl (by decide)
  refine ⟨_, races, hp, hraces, ?_, analyze_backed hp hraces⟩
  have hpair : ∃ pair, Worker.Contend (Worker.trio.map Worker.routine) ⟨0⟩ pair := by
    refine ⟨s(⟨10⟩, ⟨12⟩), ⟨1, 0⟩, ⟨2, 1⟩, _, _, .read, .free, ⟨0, _, rfl, rfl, rfl, rfl⟩,
      ⟨1, _, rfl, rfl, rfl, rfl⟩, by decide, rfl, rfl⟩
  obtain ⟨pair, hpair⟩ := hpair
  obtain ⟨r, hr, -⟩ := (hpairs pair).2 hpair
  exact List.ne_nil_of_mem hr

end DataRace
