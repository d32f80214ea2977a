import DataRace.Proofs.Trace.Growth
import Mathlib.Order.Nat

/-!
# What a walk leaves alone

A walk appends to the events of its own thread, adds threads behind those that are there, and
changes none of the others; of its own thread in the table it changes at most the list of children
(`Walk.Grows.framed`).
-/

namespace DataRace

namespace Thread

/-- Two threads that are the same but for their children. -/
structure SameButChildren (a b : Thread) : Prop where
  id_eq : b.id = a.id
  entry_eq : b.entry = a.entry
  site_eq : b.site = a.site
  fork_eq : b.fork = a.fork
  events_eq : b.events = a.events

namespace SameButChildren

/-- A thread is the same as itself. -/
protected theorem refl (a : Thread) : a.SameButChildren a := ⟨rfl, rfl, rfl, rfl, rfl⟩

/-- Sameness but for children is transitive. -/
protected theorem trans {a b d : Thread} (h : a.SameButChildren b) (h' : b.SameButChildren d) :
    a.SameButChildren d :=
  ⟨h'.id_eq.trans h.id_eq, h'.entry_eq.trans h.entry_eq, h'.site_eq.trans h.site_eq,
    h'.fork_eq.trans h.fork_eq, h'.events_eq.trans h.events_eq⟩

end SameButChildren

end Thread

namespace Walk

/-- How a walk relates to the walk that it grew from. -/
structure Framed (w w' : Walk) : Prop where
  thread_eq : w'.self.thread = w.self.thread
  spawnedBy_eq : w'.self.spawnedBy = w.self.spawnedBy
  events : ∃ new, w'.self.events = w.self.events ++ new
  size_le : w.session.threads.size ≤ w'.session.threads.size
  others : ∀ i, i < w.session.threads.size → i ≠ w.self.thread →
    w'.session.threads[i]? = w.session.threads[i]?
  own : ∀ th, w.session.threads[w.self.thread]? = some th →
    ∃ th', w'.session.threads[w.self.thread]? = some th' ∧ th.SameButChildren th'

namespace Framed

/-- A walk that only changed its notes and what was looked up. -/
theorem of_eq {w w' : Walk} (hthread : w'.self.thread = w.self.thread)
    (hspawned : w'.self.spawnedBy = w.self.spawnedBy) (hevents : w'.self.events = w.self.events)
    (hthreads : w'.session.threads = w.session.threads) : Framed w w' where
  thread_eq := hthread
  spawnedBy_eq := hspawned
  events := ⟨#[], by rw [hevents, Array.append_empty]⟩
  size_le := hthreads ▸ le_rfl
  others i _ _ := by rw [hthreads]
  own th hth := ⟨th, by rw [hthreads, hth], .refl th⟩

/-- Nothing changed. -/
protected theorem refl (w : Walk) : Framed w w := of_eq rfl rfl rfl rfl

/-- Growth in two parts. -/
protected theorem trans {u v w : Walk} (huv : Framed u v) (hvw : Framed v w) : Framed u w where
  thread_eq := hvw.thread_eq.trans huv.thread_eq
  spawnedBy_eq := hvw.spawnedBy_eq.trans huv.spawnedBy_eq
  events := by
    obtain ⟨new, hnew⟩ := huv.events
    obtain ⟨more, hmore⟩ := hvw.events
    exact ⟨new ++ more, by rw [hmore, hnew, Array.append_assoc]⟩
  size_le := huv.size_le.trans hvw.size_le
  others i hi hne := by
    rw [hvw.others i (hi.trans_le huv.size_le) (huv.thread_eq ▸ hne), huv.others i hi hne]
  own th hth := by
    obtain ⟨th₁, hth₁, hsame₁⟩ := huv.own th hth
    obtain ⟨th₂, hth₂, hsame₂⟩ := hvw.own th₁ (huv.thread_eq ▸ hth₁)
    exact ⟨th₂, huv.thread_eq ▸ hth₂, hsame₁.trans hsame₂⟩

/-- Events are only added. -/
theorem events_le {w w' : Walk} (h : Framed w w') : w.self.events.size ≤ w'.self.events.size := by
  obtain ⟨new, hnew⟩ := h.events
  rw [hnew, Array.size_append]
  exact Nat.le_add_right _ _

/-- An event was added. -/
theorem record (w : Walk) (id : NodeId) (kind : EventKind) : Framed w (w.record id kind) where
  thread_eq := rfl
  spawnedBy_eq := rfl
  events := ⟨#[⟨w.self.thread, w.self.events.size, id, kind⟩], Array.push_eq_append⟩
  size_le := le_rfl
  others _ _ _ := rfl
  own th hth := ⟨th, hth, .refl th⟩

/-- A child was joined by the runtime. -/
theorem joinChild {w w' : Walk} {node : NodeId} {child : ThreadId}
    (h : w.joinChild node child = .ok w') : Framed w w' := by
  obtain ⟨hextends, join, n, -, -, hself⟩ := joinChild_spec h
  have hsettled : Framed w { w' with self := w.self.settle node child } :=
    of_eq rfl rfl rfl hextends.threads
  have hrecorded := hsettled.trans (record _ join (.join (some child)))
  have heq : ({ w' with self := w.self.settle node child } : Walk).record join (.join (some child))
      = w' := by
    rw [Walk.record, ← hself]
  rwa [heq] at hrecorded

/-- A handle was joined. -/
theorem joinHandle (c : Subject) (w : Walk) (id : NodeId) (handle : Operand) :
    Framed w (w.joinHandle c id handle) := by
  rw [Walk.joinHandle]
  split
  · next f _ =>
    have hsettled : Framed w { w with self := w.self.settle f.node f.child } :=
      of_eq rfl rfl rfl rfl
    exact hsettled.trans (record _ id _)
  · exact record w id _

end Framed

/-- The threads after a child was started: the new one is the last, and its parent has one more
child. -/
theorem beginFork_getElem? {w v : Walk} {id : NodeId} {target : String} {child : ThreadId}
    (h : w.beginFork id target = .ok (child, v)) (i : Nat) :
    v.session.threads[i]? =
      if i = w.self.thread then
        (w.session.threads.push (Thread.new child target
          (some ⟨w.self.thread, w.self.events.size⟩) (some id)))[i]?.map
            fun t => { t with children := t.children.push child }
      else if i = w.session.threads.size then
        some (Thread.new child target (some ⟨w.self.thread, w.self.events.size⟩) (some id))
      else w.session.threads[i]? := by
  obtain ⟨rfl, -, hthreads, -⟩ := beginFork_spec h
  rw [hthreads, Array.getElem?_modify]
  by_cases hi : w.self.thread = i
  · rw [if_pos hi, if_pos hi.symm]
  · rw [if_neg hi, if_neg fun h => hi h.symm, Array.getElem?_push]

/-- The threads after a thread was closed: it has its events. -/
theorem close_getElem? (w : Walk) (i : Nat) :
    w.close.session.threads[i]? =
      if i = w.self.thread then
        w.session.threads[i]?.map fun t => { t with events := w.self.events }
      else w.session.threads[i]? := by
  rw [close, Array.getElem?_modify]
  by_cases hi : w.self.thread = i
  · rw [if_pos hi, if_pos hi.symm]
  · rw [if_neg hi, if_neg fun h => hi h.symm]

/-- Closing a thread adds no thread. -/
theorem size_close (w : Walk) : w.close.session.threads.size = w.session.threads.size :=
  Array.size_modify

/-- Starting a child adds one thread. -/
theorem beginFork_size {w v : Walk} {id : NodeId} {target : String} {child : ThreadId}
    (h : w.beginFork id target = .ok (child, v)) :
    v.session.threads.size = w.session.threads.size + 1 := by
  obtain ⟨-, -, hthreads, -⟩ := beginFork_spec h
  rw [hthreads, Array.size_modify, Array.size_push]

/-- Growth leaves all threads alone but its own and those that it adds. -/
theorem Grows.framed {c : Subject} {r : Runtime} {w w' : Walk} (h : Grows c r w w') :
    Framed w w' := by
  induction h with
  | refl w => exact .refl w
  | trans _ _ ih₁ ih₂ => exact ih₁.trans ih₂
  | consult h => exact .of_eq rfl rfl rfl h.extends.threads
  | skip | meet | note => exact .of_eq rfl rfl rfl rfl
  | @record w id n kind => exact .record w id kind
  | @joinCompanion w _ id _ _ _ _ h =>
    exact joinCompanion_induction (P := Framed w) h (.of_eq rfl rfl rfl rfl)
      fun v f _ _ hv => hv.trans (.record v id _)
  | @joinHandle w id _ handle => exact .joinHandle c w id handle
  | @joinPending w _ _ h =>
    exact joinPending_induction (P := Framed w) h (.of_eq rfl rfl rfl rfl)
      fun _ _ _ _ hv hj => hv.trans (.joinChild hj)
  | @fork w v inner last id n api handle entry target child _ _ _ _ hbegin _ _ _ ihinner ihlast =>
    obtain ⟨hchild, -, -, hself⟩ := beginFork_spec hbegin
    have hframe : Framed (v.enterChild child api) last := ihinner.trans ihlast
    have hlast : last.self.thread = w.session.threads.size := hframe.thread_eq.trans hchild
    have hold : ∀ i, i < w.session.threads.size →
        last.close.session.threads[i]? = v.session.threads[i]? := by
      intro i hi
      rw [close_getElem?, if_neg fun h => hi.ne (h.trans hlast)]
      refine hframe.others i ?_ ?_
      · exact (beginFork_size hbegin).symm ▸ Nat.lt_succ_of_lt hi
      · exact hchild.symm ▸ hi.ne
    constructor
    · show v.self.thread = w.self.thread
      rw [hself]
      rfl
    · show v.self.spawnedBy = w.self.spawnedBy
      rw [hself]
      rfl
    · refine ⟨#[⟨w.self.thread, w.self.events.size, id, .fork child⟩], ?_⟩
      show v.self.events = _
      rw [hself]
      exact Array.push_eq_append
    · have hsize : v.session.threads.size ≤ last.session.threads.size := hframe.size_le
      rw [beginFork_size hbegin, ← size_close last] at hsize
      exact Nat.le_of_succ_le hsize
    · intro i hi hne
      refine (hold i hi).trans ?_
      rw [beginFork_getElem? hbegin, if_neg hne, if_neg hi.ne]
    · intro th hth
      have hi : w.self.thread < w.session.threads.size := (Array.getElem?_eq_some_iff.1 hth).1
      refine ⟨{ th with children := th.children.push child }, ?_, ⟨rfl, rfl, rfl, rfl, rfl⟩⟩
      refine (hold _ hi).trans ?_
      rw [beginFork_getElem? hbegin, if_pos rfl, Array.getElem?_push, if_neg hi.ne, hth]
      rfl

end Walk

end DataRace
