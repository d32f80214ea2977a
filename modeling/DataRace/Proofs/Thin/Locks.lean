import DataRace.Proofs.Locks.Held
import DataRace.Proofs.Thin.Links

/-!
# Locks of thinned traces

What is left out of a thinned trace changes no locks, so a kept event holds the same locks in both
traces (`Trace.Thinned.heldAt_eq`); the nodes that acquired them are compared by their operands.
-/

namespace DataRace

namespace Trace.Thinned

open LockSets

variable {t u : Trace} {ms : Masks} (h : t.Thinned u ms)

include h

/-- The same locks are held behind corresponding beginnings of a thread. -/
theorem heldAfter_eq (i : ThreadId) {k : Nat} (hk : k ≤ (u.eventsOf i).toList.length) :
    (heldAfter t ((t.eventsOf i).toList.take (rank (ms i) k))).map (lockOf t) =
      (heldAfter u ((u.eventsOf i).toList.take k)).map (lockOf u) := by
  have hthins := h.thins i
  induction k with
  | zero => rfl
  | succ k ih =>
    have hbefore := ih (Nat.le_of_succ_le hk)
    have hf := List.getElem?_eq_getElem hk
    obtain ⟨f, hfeq⟩ : ∃ f, (u.eventsOf i).toList[k] = f := ⟨_, rfl⟩
    rw [hfeq] at hf
    obtain ⟨m, hm⟩ := hthins.exists_mask hf
    rw [List.take_add_one, hf, Option.toList_some, heldAfter_concat]
    cases m with
    | false =>
      rw [rank_succ_of_false hm, hbefore,
        step_of_not_isLocking u _ (hthins.spare k f hm hf).quiet.2]
    | true =>
      obtain ⟨e, he, halike⟩ := hthins.kept k f hm hf
      rw [rank_succ_of_true hm, List.take_add_one, he, Option.toList_some, heldAfter_concat]
      generalize heldAfter t _ = held at hbefore ⊢
      generalize heldAfter u _ = held' at hbefore ⊢
      have hsame : (∀ child, f.kind ≠ .join child) → lockOf t e.node = lockOf u f.node := by
        intro hjoin
        obtain ⟨n, hn, hn'⟩ := halike.node hjoin
        unfold lockOf
        rw [hn, hn']
      unfold step
      rw [halike.kind_eq]
      split
      · next hkind =>
        have hlock := hsame fun child hc => nomatch hkind.symm.trans hc
        rw [List.map_append, List.map_append, hbefore, List.map_singleton, List.map_singleton,
          hlock]
      · next hkind =>
        have hlock := hsame fun child hc => nomatch hkind.symm.trans hc
        have hpoints : sameLock t = sameLock u := by
          unfold sameLock
          rw [h.pointsTo]
        rw [map_eraseLast (lockOf t) fun o => sameLock t o (lockOf t e.node),
          map_eraseLast (lockOf u) fun o => sameLock u o (lockOf u f.node), hbefore, hlock, hpoints]
      · exact hbefore

/-- A kept event holds the same locks in both traces. -/
theorem heldAt_eq {r : EventRef} (hr : ms.Marks r) :
    ((ofTrace t).heldAt (ms.thin r)).map (lockOf t) = ((ofTrace u).heldAt r).map (lockOf u) := by
  obtain ⟨f, hf⟩ := h.exists_event hr
  obtain ⟨e, he, -⟩ := h.event?_thin hf hr
  have hlt := (List.getElem?_eq_some_iff.1 (Array.getElem?_toList.trans hf)).1
  rw [LockSets.heldAt_eq hf, LockSets.heldAt_eq he]
  have heq := h.heldAfter_eq r.thread hlt
  rw [rank_succ_of_true hr] at heq
  exact heq

end Trace.Thinned

end DataRace
