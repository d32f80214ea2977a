import DataRace.Proofs.Order.Stretches
import DataRace.Proofs.Race.Lookups
import DataRace.Proofs.Thin.Locks
import DataRace.Proofs.Thin.Order

/-!
# Races of thinned traces

`Detector.Clash` says that two events race, without telling which object has which number.  An
access of the full trace stands behind a kept access of the same node with only quiet events in
between (`Trace.Stands`).  Both touch the same objects under the same locks and are ordered alike
with the events of other threads, so a trace and a thinned one race on the same pairs of
instructions (`Trace.Thinned.races_agree`).
-/

namespace DataRace

namespace Detector

/-- Two events race: they access one object from different threads, not both for reading, are not
ordered, and hold no common lock.  The event of the earlier thread comes first. -/
structure Clash (d : Detector) (a b : EventRef) : Prop where
  threads : a.thread < b.thread
  touches : ∃ o ta tb, d.trace.Touches a o ta ∧ d.trace.Touches b o tb ∧ ta.conflicts tb = true
  unordered : ¬ d.order.before a b = true ∧ ¬ d.order.before b a = true
  unlocked : ∀ x ∈ (d.locks.heldAt a).map (LockSets.lockOf d.trace),
    ∀ y ∈ (d.locks.heldAt b).map (LockSets.lockOf d.trace),
      LockSets.sameLock d.trace x y = false

variable {d : Detector} {l : List Access}

/-- No lock is shared if no two held lock nodes use one lock. -/
theorem not_sharesLock_iff {a b : EventRef} :
    ¬ LockSets.sharesLock d.trace d.locks a b = true ↔
      ∀ x ∈ (d.locks.heldAt a).map (LockSets.lockOf d.trace),
        ∀ y ∈ (d.locks.heldAt b).map (LockSets.lockOf d.trace),
          LockSets.sameLock d.trace x y = false := by
  unfold LockSets.sharesLock
  simp only [List.any_eq_true, not_exists, not_and, Bool.not_eq_true, List.forall_mem_map]

namespace Knows

variable (h : d.Knows l)

include h

/-- The events of a conflict that races do. -/
theorem clash {x : Conflict} (hx : d.Racing x) : d.Clash x.first x.second := by
  obtain ⟨o, ta, tb, -, hta, htb, hconflict⟩ := hx.touches
  obtain ⟨e, -, he, -⟩ := hta.exists_event
  obtain ⟨f, -, hf, -⟩ := htb.exists_event
  refine ⟨hx.lt.resolve_right fun heq => hx.threads heq.1,
    ⟨o, ta, tb, hta, htb, AccessType.conflicts_iff.2 hconflict⟩, ?_,
    not_sharesLock_iff.1 ((h.unlocked_iff he hf).2 hx.unlocked)⟩
  rw [h.before_iff_precedes he hf, h.before_iff_precedes hf he]
  exact hx.unordered

/-- Two events that race are a conflict that does, on the object of some number. -/
theorem exists_racing {a b : EventRef} (hab : d.Clash a b) : ∃ id, d.Racing ⟨id, a, b⟩ := by
  obtain ⟨o, ta, tb, hta, htb, hconflict⟩ := hab.touches
  obtain ⟨id, hid⟩ := h.exists_object hta
  obtain ⟨e, -, he, -⟩ := hta.exists_event
  obtain ⟨f, -, hf, -⟩ := htb.exists_event
  have hunordered := hab.unordered
  rw [h.before_iff_precedes he hf, h.before_iff_precedes hf he] at hunordered
  exact ⟨id, Or.inl hab.threads, Nat.ne_of_lt hab.threads,
    ⟨o, ta, tb, hid, hta, htb, AccessType.conflicts_iff.1 hconflict⟩, hunordered,
    (h.unlocked_iff he hf).1 (not_sharesLock_iff.2 hab.unlocked)⟩

end Knows

end Detector

namespace Trace

/-- The pairs of instructions that the races of a trace are reported for, each once. -/
theorem exists_races {t : Trace} (ht : t.WellFormed) :
    ∃ (d : Detector) (l : List Access) (rs : List Race),
      d.Knows l ∧ d.trace = t ∧ t.races = .ok rs ∧ (rs.map Race.instructions).Nodup ∧
      ∀ pair, (∃ r ∈ rs, r.instructions = pair) ↔
        ∃ x, d.Racing x ∧ Detector.instructions? t x = some pair := by
  obtain ⟨d, l, hd, hknows, rfl⟩ := Detector.exists_knows ht
  obtain ⟨races, hdetect, -, hnodup, hsound, hcomplete⟩ := hknows.detect_spec
  refine ⟨d, l, races, hknows, rfl, (Detector.races_eq hd).trans hdetect, hnodup, fun pair => ?_⟩
  constructor
  · rintro ⟨r, hr, rfl⟩
    obtain ⟨hracing, hdescribes⟩ := hsound r hr
    exact ⟨r.conflict, hracing, hdescribes.instructions?_eq⟩
  · rintro ⟨x, hx, hpair⟩
    obtain ⟨r, hr, hinst, -⟩ := hcomplete x hx
    exact ⟨r, hr, Option.some.inj (hinst.symm.trans hpair)⟩

/-- An event of a thinned trace does the same as an event of the full one, which follows the kept
event after a stretch of quiet events. -/
structure Stands (t u : Trace) (ms : Masks) (r q : EventRef) : Prop where
  stretch : ∃ j ≤ q.index, ms.Marks ⟨q.thread, j⟩ ∧ ms.thin ⟨q.thread, j⟩ = r ∧
    ∀ l, j ≤ l → l ≤ q.index → ∃ e, u.event? ⟨q.thread, l⟩ = some e ∧ e.kind.Quiet
  same : ∃ e f n, t.event? r = some e ∧ u.event? q = some f ∧ e.kind = f.kind ∧
    t.arena.get? e.node = some n ∧ u.arena.get? f.node = some n

namespace Stands

variable {t u : Trace} {ms : Masks} {r q r' q' : EventRef}

/-- Both events are of one thread. -/
theorem thread_eq (hs : Stands t u ms r q) : r.thread = q.thread := by
  obtain ⟨j, -, -, hthin, -⟩ := hs.stretch
  exact (congrArg EventRef.thread hthin).symm

/-- Both events come from one instruction. -/
theorem instOf?_eq (hs : Stands t u ms r q) : Detector.instOf? t r = Detector.instOf? u q := by
  obtain ⟨e, f, n, he, hf, -, hn, hn'⟩ := hs.same
  unfold Detector.instOf? node?
  rw [he, hf, Option.bind_eq_bind, Option.bind_some, Option.bind_some, hn, hn']

variable (h : t.Thinned u ms)

include h

/-- Both events touch the same objects. -/
theorem touches_iff (hs : Stands t u ms r q) (o : ObjectId) (type : AccessType) :
    t.Touches r o type ↔ u.Touches q o type := by
  obtain ⟨e, f, n, he, hf, hkind, hn, hn'⟩ := hs.same
  rw [Trace.touches_iff, Trace.touches_iff, he, hf, ← h.pointsTo]
  constructor
  · rintro ⟨e', m, ⟨⟩, hm, htype, ho⟩
    rw [hn] at hm
    cases hm
    exact ⟨f, n, rfl, hn', hkind ▸ htype, ho⟩
  · rintro ⟨f', m, ⟨⟩, hm, htype, ho⟩
    rw [hn'] at hm
    cases hm
    exact ⟨e, n, rfl, hn, hkind ▸ htype, ho⟩

/-- Both events hold the same locks. -/
theorem heldAt_eq (hs : Stands t u ms r q) :
    ((LockSets.ofTrace t).heldAt r).map (LockSets.lockOf t) =
      ((LockSets.ofTrace u).heldAt q).map (LockSets.lockOf u) := by
  obtain ⟨j, hj, hmark, rfl, hquiet⟩ := hs.stretch
  rw [h.heldAt_eq hmark, LockSets.heldAt_stretch hj fun l hl hl' =>
    (hquiet l hl hl').imp fun e he => ⟨he.1, fun _ => he.2.2⟩]

/-- Events of different threads are ordered alike. -/
theorem before_iff (ht : t.WellFormed) (hu : u.WellFormed) {o o' : HappensBefore}
    (ho : HappensBefore.Ordered t o) (ho' : HappensBefore.Ordered u o')
    (hs : Stands t u ms r q) (hs' : Stands t u ms r' q') (hthread : q.thread ≠ q'.thread) :
    o.before r r' = true ↔ o'.before q q' = true := by
  obtain ⟨j, hj, hmark, rfl, hquiet⟩ := hs.stretch
  obtain ⟨j', hj', hmark', rfl, hquiet'⟩ := hs'.stretch
  obtain ⟨f, hf, -⟩ := hquiet q.index hj (Nat.le_refl _)
  obtain ⟨f', hf', -⟩ := hquiet' j' (Nat.le_refl _) hj'
  have hfirst := ho'.before_stretch hu hj (fun l hl hl' =>
    (hquiet l hl hl').imp fun e he => ⟨he.1, he.2.1⟩) hf' hthread.symm
  have hsecond := ho'.before_stretch hu hj' (fun l hl hl' =>
    (hquiet' l hl hl').imp fun e he => ⟨he.1, he.2.1⟩) hf hthread
  rw [h.before_iff ht hu ho ho' hmark hmark', hfirst.1]
  exact hsecond.2

end Stands

/-- Accesses are quiet. -/
theorem quiet_of_access {k : EventKind} {type : AccessType} (hk : k.access? = some type) :
    k.Quiet := by
  cases k with
  | read | write | free => exact ⟨rfl, rfl⟩
  | fork | join | lock | unlock | barrier | call | «return» => cases hk

/-- Accesses are no joins. -/
theorem ne_join_of_access {k : EventKind} {type : AccessType} (hk : k.access? = some type)
    (child : Option ThreadId) : k ≠ .join child := by
  rintro rfl
  cases hk

namespace Thinned

variable {t u : Trace} {ms : Masks} (h : t.Thinned u ms)

include h

/-- An access that is kept is stood for by itself. -/
theorem stands_thin {q : EventRef} {e f : Event} (hf : u.event? q = some f) (hq : ms.Marks q)
    (he : t.event? (ms.thin q) = some e) {type : AccessType} (hkind : f.kind.access? = some type) :
    Stands t u ms (ms.thin q) q := by
  obtain ⟨e', he', halike⟩ := h.event?_thin hf hq
  rw [he] at he'
  cases he'
  obtain ⟨n, hn, hn'⟩ := halike.node (ne_join_of_access hkind)
  refine ⟨⟨q.index, Nat.le_refl _, hq, rfl, fun l hl hl' => ?_⟩, e, f, n, he, hf,
    halike.kind_eq, hn, hn'⟩
  obtain rfl := Nat.le_antisymm hl' hl
  exact ⟨f, hf, quiet_of_access hkind⟩

/-- Every access of the full trace is stood for by an event of the thinner one. -/
theorem exists_stands {q : EventRef} {f : Event} (hf : u.event? q = some f) {type : AccessType}
    (hkind : f.kind.access? = some type) : ∃ r, Stands t u ms r q := by
  have hf' : (u.eventsOf q.thread).toList[q.index]? = some f := Array.getElem?_toList.trans hf
  obtain ⟨m, hm⟩ := (h.thins q.thread).exists_mask hf'
  cases m with
  | true =>
    obtain ⟨e, he, -⟩ := h.event?_thin hf hm
    exact ⟨_, h.stands_thin hf hm he hkind⟩
  | false =>
    have hspare := (h.thins q.thread).spare q.index f hm hf'
    obtain ⟨j, g, hlt, hj, hg, hgkind, ⟨n, hn, hn'⟩, hbetween⟩ :=
      hspare.covered (by rw [hkind]; rfl)
    have hg' : u.event? ⟨q.thread, j⟩ = some g := Array.getElem?_toList.symm.trans hg
    have hgaccess : g.kind.access? = some type := hgkind ▸ hkind
    obtain ⟨e, he, halike⟩ := h.event?_thin hg' hj
    obtain ⟨m, hm₁, hm₂⟩ := halike.node (ne_join_of_access hgaccess)
    rw [hn] at hm₂
    cases hm₂
    refine ⟨_, ⟨j, hlt.le, hj, rfl, fun l hl hl' => ?_⟩, e, f, n, he, hf,
      halike.kind_eq.trans hgkind, hm₁, hn'⟩
    rcases Nat.lt_or_eq_of_le hl with hjl | rfl
    · rcases Nat.lt_or_eq_of_le hl' with hlq | rfl
      · obtain ⟨d, hd⟩ : ∃ d, u.event? ⟨q.thread, l⟩ = some d :=
          Trace.event?_isSome_iff.2 (hlq.trans (Trace.event?_isSome_iff.1 ⟨f, hf⟩))
        exact ⟨d, hd, hbetween l d hjl hlq (Array.getElem?_toList.trans hd)⟩
      · exact ⟨f, hf, hspare.quiet⟩
    · exact ⟨g, hg', quiet_of_access hgaccess⟩

/-- Every access of the thinner trace stands for an event of the full one. -/
theorem exists_stood {r : EventRef} {e : Event} (he : t.event? r = some e) {type : AccessType}
    (hkind : e.kind.access? = some type) : ∃ q, Stands t u ms r q := by
  obtain ⟨q, f, hq, rfl, hf, halike⟩ := h.exists_marked he
  exact ⟨q, h.stands_thin hf hq he (halike.kind_eq ▸ hkind)⟩

variable {d d' : Detector} {l l' : List Access}

/-- Events race exactly if those that they stand for do. -/
theorem clash_iff (hd : d.Knows l) (hd' : d'.Knows l') (ht : d.trace = t) (hu : d'.trace = u)
    {r r' q q' : EventRef} (hs : Stands t u ms r q) (hs' : Stands t u ms r' q') :
    d.Clash r r' ↔ d'.Clash q q' := by
  have htrace := hd.trace
  have htrace' := hd'.trace
  have horder := hd.order
  have horder' := hd'.order
  have hlocks := hd.locks
  have hlocks' := hd'.locks
  rw [ht] at htrace horder hlocks
  rw [hu] at htrace' horder' hlocks'
  have hthreads : r.thread < r'.thread ↔ q.thread < q'.thread := by
    rw [hs.thread_eq, hs'.thread_eq]
  have htouches : (∃ o ta tb, t.Touches r o ta ∧ t.Touches r' o tb ∧ ta.conflicts tb = true) ↔
      ∃ o ta tb, u.Touches q o ta ∧ u.Touches q' o tb ∧ ta.conflicts tb = true := by
    simp only [hs.touches_iff h, hs'.touches_iff h]
  have horders (hlt : q.thread < q'.thread) :
      (¬ d.order.before r r' = true ∧ ¬ d.order.before r' r = true) ↔
        ¬ d'.order.before q q' = true ∧ ¬ d'.order.before q' q = true := by
    rw [hs.before_iff h htrace htrace' horder horder' hs' (Nat.ne_of_lt hlt),
      hs'.before_iff h htrace htrace' horder horder' hs (Nat.ne_of_gt hlt)]
  have hsame : LockSets.sameLock t = LockSets.sameLock u := by
    unfold LockSets.sameLock
    rw [h.pointsTo]
  constructor
  · rintro ⟨hlt, hto, hun, hlo⟩
    rw [ht] at hto hlo
    rw [hlocks, hs.heldAt_eq h, hs'.heldAt_eq h, hsame] at hlo
    refine ⟨hthreads.1 hlt, hu ▸ htouches.1 hto, (horders (hthreads.1 hlt)).1 hun, ?_⟩
    rw [hu, hlocks']
    exact hlo
  · rintro ⟨hlt, hto, hun, hlo⟩
    rw [hu] at hto hlo
    rw [hlocks', ← hs.heldAt_eq h, ← hs'.heldAt_eq h, ← hsame] at hlo
    refine ⟨hthreads.2 hlt, ht ▸ htouches.2 hto, (horders hlt).2 hun, ?_⟩
    rw [ht, hlocks]
    exact hlo

/-- A trace and a thinned one race on the same pairs of instructions. -/
theorem races_agree (ht : t.WellFormed) (hu : u.WellFormed) :
    ∃ rs rs', t.races = .ok rs ∧ u.races = .ok rs' ∧
      ∀ pair, (∃ r ∈ rs, r.instructions = pair) ↔ ∃ r ∈ rs', r.instructions = pair := by
  obtain ⟨d, l, rs, hd, hdt, hrs, -, hpairs⟩ := exists_races ht
  obtain ⟨d', l', rs', hd', hdu, hrs', -, hpairs'⟩ := exists_races hu
  refine ⟨rs, rs', hrs, hrs', fun pair => ?_⟩
  rw [hpairs, hpairs']
  constructor
  · rintro ⟨x, hx, hpair⟩
    have hclash := hd.clash hx
    obtain ⟨o, ta, tb, hta, htb, -⟩ := hclash.touches
    obtain ⟨e, n, he, -, hkind⟩ := hta.exists_event
    obtain ⟨e', n', he', -, hkind'⟩ := htb.exists_event
    rw [hdt] at he he'
    obtain ⟨q, hs⟩ := h.exists_stood he hkind
    obtain ⟨q', hs'⟩ := h.exists_stood he' hkind'
    obtain ⟨id, hracing⟩ :=
      hd'.exists_racing ((h.clash_iff hd hd' hdt hdu hs hs').1 hclash)
    refine ⟨_, hracing, ?_⟩
    rw [← hpair]
    unfold Detector.instructions?
    rw [hs.instOf?_eq, hs'.instOf?_eq]
  · rintro ⟨x, hx, hpair⟩
    have hclash := hd'.clash hx
    obtain ⟨o, ta, tb, hta, htb, -⟩ := hclash.touches
    obtain ⟨e, n, he, -, hkind⟩ := hta.exists_event
    obtain ⟨e', n', he', -, hkind'⟩ := htb.exists_event
    rw [hdu] at he he'
    obtain ⟨r, hs⟩ := h.exists_stands he hkind
    obtain ⟨r', hs'⟩ := h.exists_stands he' hkind'
    obtain ⟨id, hracing⟩ :=
      hd.exists_racing ((h.clash_iff hd hd' hdt hdu hs hs').2 hclash)
    refine ⟨_, hracing, ?_⟩
    rw [← hpair]
    unfold Detector.instructions?
    rw [hs.instOf?_eq, hs'.instOf?_eq]

end Thinned

end Trace

end DataRace
