import DataRace.Proofs.Locks.Held
import DataRace.Proofs.Order.Closure

/-!
# Stretches without synchronisation

Only program order leads on from an event that does not fork, join or meet a barrier, and only
program order leads to one from another.  So a stretch of a thread without such events is ordered as
a whole with the events of other threads (`HappensBefore.Ordered.before_stretch`), in every trace
that is built (`HappensBefore.seen_alike`).  Where none of its events changes locks, it is guarded
as a whole too.
-/

namespace DataRace

open Relation

namespace HappensBefore

variable {t : Trace} {s : Choice} {o : HappensBefore}

/-- A point of a thread that is an event is the event of that number. -/
theorem eq_of_pointAt {i : ThreadId} {k : Nat} {r : EventRef} (h : pointAt t i k = .event r) :
    r = ⟨i, k⟩ := by
  unfold pointAt at h
  split at h
  · exact (Point.event.inj h).symm
  · cases h

/-- Only program order leads on from an event that does not synchronise. -/
theorem Linked.eq_pointAfter (ht : t.WellFormed) {r : EventRef} {e : Event}
    (he : t.event? r = some e) (hquiet : e.kind.isSync = false) {b : Point}
    (h : Linked t s (.event r) b) : b = pointAfter t r := by
  cases h with
  | basic hbasic =>
    cases hbasic with
    | next => rfl
    | fork he' hfork =>
      rw [he] at he'
      cases he'
      rw [hfork] at hquiet
      cases hquiet
  | barrier hgroup hkept hm hr hm' hr' =>
    obtain ⟨-, e', he', hbarrier⟩ := event?_of_barrier ht hr
    rw [he] at he'
    cases he'
    rw [hbarrier] at hquiet
    cases hquiet

/-- Only program order leads to an event that does not synchronise from one that does not. -/
theorem Linked.eq_event (ht : t.WellFormed) {i : ThreadId} {j : Nat} {e e' : Event}
    (he : t.event? ⟨i, j⟩ = some e) (he' : t.event? ⟨i, j + 1⟩ = some e')
    (hquiet : e.kind.isSync = false) (hquiet' : e'.kind.isSync = false) {a : Point}
    (h : Linked t s a (.event ⟨i, j + 1⟩)) : a = .event ⟨i, j⟩ := by
  generalize hb : Point.event ⟨i, j + 1⟩ = b at h
  cases h with
  | basic hbasic =>
    cases hbasic with
    | first => cases eq_of_pointAt hb.symm
    | @next r =>
      have heq := eq_of_pointAt hb.symm
      obtain ⟨i', j'⟩ := r
      cases heq
      rfl
    | fork => cases hb
  | join he'' hjoin =>
    cases hb
    rw [he'] at he''
    cases he''
    rw [hjoin] at hquiet'
    cases hquiet'
  | @barrier group k members m m' r r' hgroup hkept hm hr hm' hr' =>
    have heq := eq_of_pointAt hb.symm
    obtain ⟨-, f, hf, hbarrier⟩ := event?_of_barrier ht hr'
    obtain ⟨i', j'⟩ := r'
    cases heq
    rw [he] at hf
    cases hf
    rw [hbarrier] at hquiet
    cases hquiet

/-- A stretch of a thread without synchronisation is ordered as a whole with the events of other
threads. -/
theorem Ordered.before_stretch (h : Ordered t o) (ht : t.WellFormed) {i : ThreadId} {j k : Nat}
    (hjk : j ≤ k) (hquiet : ∀ l, j ≤ l → l ≤ k →
      ∃ e, t.event? ⟨i, l⟩ = some e ∧ e.kind.isSync = false)
    {r : EventRef} {f : Event} (hr : t.event? r = some f) (hthread : r.thread ≠ i) :
    (o.before ⟨i, j⟩ r = true ↔ o.before ⟨i, k⟩ r = true) ∧
      (o.before r ⟨i, j⟩ = true ↔ o.before r ⟨i, k⟩ = true) := by
  induction k, hjk using Nat.le_induction with
  | base => exact ⟨Iff.rfl, Iff.rfl⟩
  | succ k hjk ih =>
    obtain ⟨e, he, hquiet₁⟩ := hquiet k hjk (Nat.le_succ k)
    obtain ⟨e', he', hquiet₂⟩ := hquiet (k + 1) (Nat.le_succ_of_le hjk) (Nat.le_refl _)
    have hbelow := ih fun l hl hlk => hquiet l hl (Nat.le_succ_of_le hlk)
    have hne : ∀ l, Point.event ⟨i, l⟩ ≠ .event r := by
      intro l heq
      cases heq
      exact hthread rfl
    have hafter : pointAfter t ⟨i, k⟩ = .event ⟨i, k + 1⟩ := pointAt_event he'
    have hnext : Link t o (.event ⟨i, k⟩) (.event ⟨i, k + 1⟩) := hafter ▸ .basic (.next he)
    rw [hbelow.1, hbelow.2, h.before_iff_link ht he hr, h.before_iff_link ht he' hr,
      h.before_iff_link ht hr he, h.before_iff_link ht hr he']
    constructor
    · constructor
      · intro hpath
        obtain ⟨c, hc, hrest⟩ := TransGen.head'_iff.1 hpath
        rw [Linked.eq_pointAfter ht he hquiet₁ hc, hafter] at hrest
        exact (reflTransGen_iff_eq_or_transGen.1 hrest).resolve_left fun heq => hne _ heq.symm
      · exact fun hpath => .head hnext hpath
    · constructor
      · exact fun hpath => .tail hpath hnext
      · intro hpath
        obtain ⟨c, hrest, hc⟩ := TransGen.tail'_iff.1 hpath
        rw [Linked.eq_event ht he he' hquiet₁ hquiet₂ hc] at hrest
        exact (reflTransGen_iff_eq_or_transGen.1 hrest).resolve_left (hne _)

/-- In a trace that is built, the events of a stretch without forks, joins and barriers are ordered
alike with every event of another thread.  If no event of the stretch but the first changes locks,
they share locks alike too. -/
theorem seen_alike {c : Subject} (hbuild : Trace.build c = .ok t) {i : ThreadId} {j k : Nat}
    (hjk : j < k) {last : Event} (hlast : t.event? ⟨i, k⟩ = some last)
    (hquiet : ∀ l e, j ≤ l → l ≤ k → t.event? ⟨i, l⟩ = some e → e.kind.isSync = false) :
    ∃ o, ofTrace t = .ok o ∧ ∀ r f, t.event? r = some f → r.thread ≠ i →
      (o.before r ⟨i, j⟩ = true ↔ o.before r ⟨i, k⟩ = true) ∧
      (o.before ⟨i, j⟩ r = true ↔ o.before ⟨i, k⟩ r = true) ∧
      ((∀ l e, j < l → l ≤ k → t.event? ⟨i, l⟩ = some e → e.kind.isLocking = false) →
        (LockSets.sharesLock t (LockSets.ofTrace t) r ⟨i, j⟩ = true ↔
          LockSets.sharesLock t (LockSets.ofTrace t) r ⟨i, k⟩ = true)) := by
  have ht := Trace.build_wellFormed hbuild
  obtain ⟨o, ho, hordered⟩ := exists_ordered ht
  have hexists : ∀ l, l ≤ k → ∃ e, t.event? ⟨i, l⟩ = some e := fun l hl =>
    Trace.event?_isSome_iff.2 (Nat.lt_of_le_of_lt hl (Trace.event?_isSome_iff.1 ⟨last, hlast⟩))
  refine ⟨o, ho, fun r f hr hthread => ?_⟩
  obtain ⟨hfrom, hto⟩ := hordered.before_stretch ht (Nat.le_of_lt hjk)
    (fun l hl hlk => (hexists l hlk).imp fun e he => ⟨he, hquiet l e hl hlk he⟩) hr hthread
  refine ⟨hto, hfrom, fun hlocks => ?_⟩
  have hheld := LockSets.heldAt_stretch (Nat.le_of_lt hjk) fun l _ hlk =>
    (hexists l hlk).imp fun e he => ⟨he, fun hlt => hlocks l e hlt hlk he⟩
  unfold LockSets.sharesLock
  rw [hheld]

/-- Where a lock is taken and then stored, other threads see the store as they see the lock. -/
theorem seen_alike_guarded :
    Trace.build Guarded.subject = .ok Guarded.trace ∧ ∃ o, ofTrace Guarded.trace = .ok o ∧
      (o.before ⟨1, 1⟩ ⟨0, 2⟩ = true ↔ o.before ⟨1, 1⟩ ⟨0, 3⟩ = true) ∧
      (o.before ⟨0, 2⟩ ⟨1, 1⟩ = true ↔ o.before ⟨0, 3⟩ ⟨1, 1⟩ = true) ∧
      LockSets.sharesLock Guarded.trace (LockSets.ofTrace Guarded.trace) ⟨1, 1⟩ ⟨0, 2⟩ = true ∧
      LockSets.sharesLock Guarded.trace (LockSets.ofTrace Guarded.trace) ⟨1, 1⟩ ⟨0, 3⟩ = true := by
  have hstretch : ∀ l e, 2 ≤ l → l ≤ 3 → Guarded.trace.event? ⟨0, l⟩ = some e →
      e.kind.isSync = false ∧ (2 < l → e.kind.isLocking = false) := by
    intro l e hl hl' he
    obtain rfl | rfl : l = 2 ∨ l = 3 := by omega
    · cases he
      exact ⟨rfl, fun hlt => absurd hlt (Nat.lt_irrefl 2)⟩
    · cases he
      exact ⟨rfl, fun _ => rfl⟩
  obtain ⟨o, ho, halike⟩ := seen_alike Guarded.build_eq (by decide) rfl
    fun l e hl hl' he => (hstretch l e hl hl' he).1
  obtain ⟨hto, hfrom, hlocks⟩ := halike ⟨1, 1⟩ _ rfl (by decide)
  have hshares : LockSets.sharesLock Guarded.trace (LockSets.ofTrace Guarded.trace)
      ⟨1, 1⟩ ⟨0, 2⟩ = true := by decide +kernel
  refine ⟨Guarded.build_eq, o, ho, hto, hfrom, hshares, (hlocks ?_).1 hshares⟩
  exact fun l e hl hl' he => (hstretch l e (Nat.le_of_lt hl) hl' he).2 hl

end HappensBefore

end DataRace
