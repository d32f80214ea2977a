import DataRace.Proofs.Order.Closure
import DataRace.Proofs.Trace.Kernels

/-!
# Kernels before what follows a synchronisation

Where a thread synchronises with the device it joins the kernels that are due.  They are its own
children, so these are joins of later threads and none of them is left out: the end of each kernel
leads to its join, and the join to all that the thread does from then on
(`HappensBefore.kernels_joined`).
-/

namespace DataRace

namespace Trace

variable {c : Subject} {t : Trace} {earlier later : List Visit} {v : Visit} {child : ThreadId}

/-- A kernel that is due has a join among the events that the visit adds. -/
theorem JoinsKernels.exists_join (h : t.JoinsKernels earlier v) (hchild : child ∈ t.due earlier v) :
    ∃ (j : Nat) (e : Event), v.after.self.events[j]? = some e ∧ t.Completes e child := by
  obtain ⟨joins, hevents, hjoins⟩ := h.joins
  obtain ⟨i, hi, rfl⟩ := List.mem_iff_getElem.1 hchild
  have hlt : i < joins.length := hjoins.length_eq ▸ hi
  refine ⟨v.before.self.events.size + i, joins[i], ?_, hjoins.get hi hlt⟩
  rw [hevents, Array.getElem?_append_right (Nat.le_add_right _ _), Nat.add_sub_cancel_left]
  simp [hlt]

/-- A kernel that is due was started by the thread that joins it. -/
theorem Toured.starts_due (h : Toured c (earlier ++ v :: later)) (hbuild : Trace.build c = .ok t)
    (hjoins : t.JoinsKernels earlier v) (hchild : child ∈ t.due earlier v) :
    Thread.Starts t.threads v.thread child ∧ t.isKernel child = true := by
  obtain ⟨⟨e, he, hkind⟩, hkernel⟩ := mem_launches.1 hchild
  obtain ⟨joins, hevents, -⟩ := hjoins.joins
  obtain ⟨j, hj⟩ := Array.mem_iff_getElem?.1 (Array.mem_toList_iff.1 (List.mem_of_mem_drop he))
  have hafter : v.after.self.events[j]? = some e := by
    rw [hevents, Array.getElem?_append_left (Array.getElem?_eq_some_iff.1 hj).1, hj]
  have hevent := h.event?_eq hbuild (List.mem_append_right _ List.mem_cons_self) hafter
  obtain ⟨-, th, hth, hsite, -⟩ := ((build_wellFormed hbuild).fits_event? hevent).fork child hkind
  exact ⟨⟨th, hth, by rw [Thread.parent?, hsite]; rfl⟩, hkernel⟩

end Trace

namespace HappensBefore

open Relation OrderGraph

variable {c : Subject} {t : Trace} {o : HappensBefore}

/-- In every trace that is built with the CUDA runtime, a visit of a node that synchronises with the
device or with a stream records one join for each kernel that its thread has launched since it last
synchronised, in the order of the launches, each on the companion join of the fork that started the
kernel, and nothing else.  All these kernels were started by the thread itself, and everything in
them happens before everything that the thread does later. -/
theorem kernels_joined (hbuild : Trace.build c = .ok t)
    (hruntime : Runtime.ofProgram c.program c.settings.runtime = .cuda) :
    (∃ log, Trace.Toured c log) ∧ ∃ o, ofTrace t = .ok o ∧
      ∀ earlier v later, Trace.Toured c (earlier ++ v :: later) → v.node.syncsDevice = true →
        t.JoinsKernels earlier v ∧
          (∀ j e, v.after.self.events[j]? = some e → t.event? ⟨v.thread, j⟩ = some e) ∧
            ∀ child ∈ t.due earlier v,
              (Thread.Starts t.threads v.thread child ∧ t.isKernel child = true) ∧
                ∀ a ea b eb, t.event? a = some ea → a.thread = child → t.event? b = some eb →
                  b.thread = v.thread → v.after.self.events.size ≤ b.index →
                    o.before a b = true := by
  have ht := Trace.build_wellFormed hbuild
  obtain ⟨o, ho, h⟩ := exists_ordered ht
  refine ⟨Trace.exists_toured hbuild, o, ho, fun earlier v later htour hsync => ?_⟩
  have hjoins := htour.joinsKernels hbuild hruntime hsync
  have hevent : ∀ j e, v.after.self.events[j]? = some e → t.event? ⟨v.thread, j⟩ = some e :=
    fun j e he => htour.event?_eq hbuild (List.mem_append_right _ List.mem_cons_self) he
  refine ⟨hjoins, hevent, fun child hchild => ⟨htour.starts_due hbuild hjoins hchild, ?_⟩⟩
  intro a ea b eb ha hthread hb hown hle
  have hstart := (htour.starts_due hbuild hjoins hchild).1
  obtain ⟨j, e, he, hjoin, -⟩ := hjoins.exists_join hchild
  have hj : j < b.index := (Array.getElem?_eq_some_iff.1 he).1.trans_le hle
  -- From the kernel to its end, to the join, and on in the thread that joins it.
  have hfinish := h.path_of_basic (event_leads_finish ha)
  rw [hthread] at hfinish
  have hjoined := hfinish.trans (h.path_of_join ht (hevent j e he) hjoin (ht.starts_lt hstart))
  rw [h.before_iff_path ht ha hb]
  exact hjoined.trans (h.path_of_basic (event_leads (hevent j e he) hb hown.symm hj))

/-- The main thread waits for the kernel that it launched, and stores after it. -/
theorem kernels_launch :
    Trace.build Launch.subject = .ok Launch.trace ∧
      Trace.Toured Launch.subject (Launch.earlier ++ Launch.sync :: Launch.later) ∧
        Launch.sync.node.syncsDevice = true ∧ Launch.trace.due Launch.earlier Launch.sync = [1] ∧
          Launch.trace.JoinsKernels Launch.earlier Launch.sync ∧
            ∃ o, ofTrace Launch.trace = .ok o ∧ o.before ⟨1, 0⟩ ⟨0, 2⟩ = true := by
  obtain ⟨-, o, ho, hall⟩ := kernels_joined Launch.build_eq rfl
  have hdue : Launch.trace.due Launch.earlier Launch.sync = [1] := rfl
  obtain ⟨hjoins, -, hbefore⟩ := hall Launch.earlier Launch.sync Launch.later Launch.toured rfl
  exact ⟨Launch.build_eq, Launch.toured, rfl, hdue, hjoins, o, ho,
    (hbefore 1 (hdue ▸ List.mem_singleton_self 1)).2 ⟨1, 0⟩ _ ⟨0, 2⟩ _ rfl rfl rfl rfl
      (Nat.le_refl _)⟩

end HappensBefore

end DataRace
