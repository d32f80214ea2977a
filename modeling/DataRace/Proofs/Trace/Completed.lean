import DataRace.Proofs.Trace.Timely
import DataRace.Proofs.Trace.Tree

/-!
# Completed threads

A thread is completed by an event that joins it through the companion join of the fork that started
it (`Trace.Completes`).  Which threads are completed is asked while a trace grows, of the events
that a walk has in its own thread and behind it (`Walk.Has`), but always as a question about the
final trace, which the walk is part of (`Walk.Under`): the forks, nodes and starts that the question
is about are the same from the moment on at which they are there.

Events change in two ways only.  A step of the walking thread alone adds some to its own
(`Walk.Appends`), and a child that ends adds its own and those behind it (`Walk.has_endFork`).
-/

namespace DataRace

open Relation

namespace Trace

variable {t : Trace}

/-- An event joins a thread through the companion join of the fork that started it. -/
def Completes (t : Trace) (e : Event) (child : ThreadId) : Prop :=
  e.kind = .join (some child) ∧ ∃ th fork, t.threads[child]? = some th ∧ th.fork = some fork ∧
    t.arena.companion? fork = some e.node

/-- How a thread was started is read off the node of its fork. -/
theorem spawnApi?_eq_some_iff {i : ThreadId} {api : ForkApi} :
    t.spawnApi? i = some api ↔ ∃ th fork n, t.threads[i]? = some th ∧ th.fork = some fork ∧
      t.arena.get? fork = some n ∧ n.forkApi? = some api := by
  simp only [spawnApi?, Option.bind_eq_bind, Option.bind_eq_some_iff]
  constructor
  · rintro ⟨th, hth, fork, hfork, n, hn, hapi⟩
    exact ⟨th, fork, n, hth, hfork, hn, hapi⟩
  · rintro ⟨th, fork, n, hth, hfork, hn, hapi⟩
    exact ⟨th, hth, fork, hfork, n, hn, hapi⟩

/-- The node of an event that completes a thread names the fork of the thread. -/
theorem Completes.fork_eq {e : Event} {child : ThreadId} (h : t.Completes e child) {n : Node}
    (hn : t.arena.get? e.node = some n) :
    ∃ th, t.threads[child]? = some th ∧ th.fork = n.companionOf? := by
  obtain ⟨-, th, fork, hth, hfork, hid⟩ := h
  obtain ⟨n', hn', hcompanion⟩ := Arena.companion?_spec hid
  cases hn.symm.trans hn'
  exact ⟨th, hth, hfork.trans hcompanion.symm⟩

end Trace

namespace Walk

variable {c : Subject} {r : Runtime} {t : Trace} {w v w' last : Walk}

/-! ### Events of a walk -/

/-- What a walk has is part of a trace. -/
structure Under (w : Walk) (t : Trace) : Prop where
  arena : w.session.arena.Extends t.arena
  threads : Thread.Preserved w.session.threads t.threads

/-- What grows into a part of a trace is part of it. -/
theorem Grows.under (h : Grows c r w w') (hw' : w'.Under t) : w.Under t :=
  ⟨h.arena_extends.trans hw'.arena, h.framed.preserved.trans hw'.threads⟩

/-- An event of the walking thread or of one behind it. -/
def Has (w : Walk) (q : EventRef) (e : Event) : Prop :=
  w.self.thread ≤ q.thread ∧ (w.eventsOf q.thread)[q.index]? = some e

/-- A thread is completed by an event of the walking thread or of one behind it. -/
def CompletedAt (w : Walk) (t : Trace) (child : ThreadId) (q : EventRef) : Prop :=
  ∃ e, w.Has q e ∧ t.Completes e child

/-- The events of a sound walk suit their places. -/
theorem Has.fits {q : EventRef} {e : Event} (h : w.Has q e) (hw : Sound w) :
    e.Fits w.session.arena w.session.threads q.thread (w.eventsOf q.thread) q.index := by
  obtain ⟨-, he⟩ := h
  rw [eventsOf] at he ⊢
  split at he
  · next hq =>
    rw [if_pos hq, hq]
    exact hw.own _ e he
  · next hq =>
    rw [if_neg hq]
    cases hth : w.session.threads[q.thread]? with
    | none =>
      rw [hth] at he
      cases he
    | some th =>
      rw [hth] at he
      exact hw.table _ th hth _ e he

/-- The threads of the events of a sound walk are there. -/
theorem Has.lt_size {q : EventRef} {e : Event} (h : w.Has q e) (hw : Sound w) :
    q.thread < w.session.threads.size := by
  obtain ⟨-, he⟩ := h
  rw [eventsOf] at he
  split at he
  · next hq => exact hq ▸ hw.inTable
  · by_contra hlt
    rw [Array.getElem?_eq_none (Nat.le_of_not_lt hlt)] at he
    cases he

/-- A thread that is completed is there. -/
theorem CompletedAt.lt_size {child : ThreadId} {q : EventRef} (h : w.CompletedAt t child q)
    (hw : Sound w) : child < w.session.threads.size := by
  obtain ⟨e, he, hkind, -⟩ := h
  exact ((he.fits hw).join child hkind).1

/-- A thread without events that is the last one has none behind it. -/
theorem not_has_start (hsize : w.self.thread + 1 = w.session.threads.size)
    (hevents : w.self.events = #[]) {q : EventRef} {e : Event} : ¬ w.Has q e := by
  rintro ⟨hle, he⟩
  rw [eventsOf] at he
  split at he
  · rw [hevents] at he
    cases he
  · next hne =>
    have hlt : w.self.thread < q.thread := Nat.lt_of_le_of_ne hle (Ne.symm hne)
    have hnobody : w.session.threads[q.thread]? = none :=
      Array.getElem?_eq_none (hsize.symm.trans_le hlt)
    rw [hnobody] at he
    cases he

/-- A step of the walking thread alone, which adds events. -/
structure Appends (w w' : Walk) (new : Array Event) : Prop where
  thread_eq : w'.self.thread = w.self.thread
  threads_eq : w'.session.threads = w.session.threads
  events_eq : w'.self.events = w.self.events ++ new

namespace Appends

/-- A step without events. -/
theorem of_eq (hthread : w'.self.thread = w.self.thread)
    (hthreads : w'.session.threads = w.session.threads)
    (hevents : w'.self.events = w.self.events) : Appends w w' #[] :=
  ⟨hthread, hthreads, by rw [hevents, Array.append_empty]⟩

/-- One step after the other. -/
protected theorem trans {new more : Array Event} (h : Appends w v new) (h' : Appends v w' more) :
    Appends w w' (new ++ more) :=
  ⟨h'.thread_eq.trans h.thread_eq, h'.threads_eq.trans h.threads_eq,
    by rw [h'.events_eq, h.events_eq, Array.append_assoc]⟩

/-- A tacit step adds events that name no other thread. -/
theorem of_tacit (h : Tacit w w') :
    ∃ new, Appends w w' new ∧ ∀ e ∈ new, e.kind.isLocal = true := by
  rcases h.events with hevents | ⟨e, hlocal, hevents⟩
  · exact ⟨#[], of_eq h.thread_eq h.threads_eq hevents,
      fun e he => absurd he (Array.not_mem_empty e)⟩
  · refine ⟨#[e], ⟨h.thread_eq, h.threads_eq, by rw [hevents, Array.push_eq_append]⟩, ?_⟩
    intro e' he'
    rw [Array.mem_singleton.1 he']
    exact hlocal

/-- A join by a handle adds an event of its node. -/
theorem joinHandle (c : Subject) (w : Walk) (id : NodeId) (handle : Operand) :
    ∃ child, Appends w (w.joinHandle c id handle)
      #[⟨w.self.thread, w.self.events.size, id, .join child⟩] := by
  rw [Walk.joinHandle]
  split
  · exact ⟨_, rfl, rfl, Array.push_eq_append⟩
  · exact ⟨_, rfl, rfl, Array.push_eq_append⟩

/-- A runtime's join of a child adds an event of the companion join. -/
theorem joinChild {node : NodeId} {child : ThreadId} (h : w.joinChild node child = .ok w') :
    ∃ join, w'.session.arena.companion? node = some join ∧
      Appends w w' #[⟨w.self.thread, w.self.events.size, join, .join (some child)⟩] := by
  obtain ⟨join, hid, hself⟩ := joinChild_companion h
  refine ⟨join, hid, ?_, (joinChild_spec h).1.threads, ?_⟩
  · rw [hself]
    rfl
  · rw [hself]
    exact Array.push_eq_append

/-- The joins of a runtime add joins. -/
theorem joinPending {directOnly : Bool} (h : w.joinPending directOnly = .ok w') :
    ∃ new, Appends w w' new ∧ ∀ e ∈ new, ∃ child, e.kind = .join child := by
  refine joinPending_induction (P := fun v => ∃ new, Appends w v new ∧
    ∀ e ∈ new, ∃ child, e.kind = .join child) h ⟨#[], of_eq rfl rfl rfl, ?_⟩ ?_
  · exact fun e he => absurd he (Array.not_mem_empty e)
  · rintro v v' p - ⟨new, hv, hnew⟩ hj
    obtain ⟨join, -, hstep⟩ := joinChild hj
    refine ⟨_, hv.trans hstep, fun e he => ?_⟩
    rcases Array.mem_append.1 he with he | he
    · exact hnew e he
    · rw [Array.mem_singleton.1 he]
      exact ⟨_, rfl⟩

/-- Added events come behind those that were there. -/
theorem has_iff {new : Array Event} (h : Appends w w' new) {q : EventRef} {e : Event} :
    w'.Has q e ↔ w.Has q e ∨
      q.thread = w.self.thread ∧ w.self.events.size ≤ q.index ∧
        new[q.index - w.self.events.size]? = some e := by
  obtain ⟨hthread, hthreads, hevents⟩ := h
  unfold Has eventsOf
  rw [hthread, hthreads, hevents]
  by_cases hq : q.thread = w.self.thread
  · rw [if_pos hq, if_pos hq, Array.getElem?_append]
    split
    · next hlt =>
      refine ⟨Or.inl, fun h => h.elim id fun ⟨_, hle, _⟩ => ?_⟩
      exact absurd hlt (Nat.not_lt.2 hle)
    · next hge =>
      have hge := Nat.le_of_not_lt hge
      rw [Array.getElem?_eq_none hge]
      constructor
      · exact fun h => Or.inr ⟨hq, hge, h.2⟩
      · rintro (⟨-, h⟩ | ⟨-, -, h⟩)
        · cases h
        · exact ⟨Nat.le_of_eq hq.symm, h⟩
  · rw [if_neg hq, if_neg hq]
    exact ⟨Or.inl, fun h => h.elim id fun ⟨heq, _⟩ => absurd heq hq⟩

/-- One added event comes last. -/
theorem has_push {e : Event} (h : Appends w w' #[e]) {q : EventRef} {e' : Event} :
    w'.Has q e' ↔ w.Has q e' ∨ q = ⟨w.self.thread, w.self.events.size⟩ ∧ e' = e := by
  rw [h.has_iff]
  refine or_congr_right ⟨?_, ?_⟩
  · rintro ⟨hthread, hle, he⟩
    obtain ⟨hlt, rfl⟩ := Array.getElem?_eq_some_iff.1 he
    obtain ⟨i, j⟩ := q
    obtain rfl : i = w.self.thread := hthread
    obtain rfl : j = w.self.events.size :=
      Nat.le_antisymm (Nat.le_of_sub_eq_zero (Nat.lt_one_iff.1 hlt)) hle
    exact ⟨rfl, by simp⟩
  · rintro ⟨rfl, rfl⟩
    exact ⟨rfl, Nat.le_refl _, by simp⟩

end Appends

section

variable {id : NodeId} {target : String} {child : ThreadId} {api : ForkApi} (handle : Operand)
  (hbegin : w.beginFork id target = .ok (child, v))
  (hframe : Framed (v.enterChild child api) last) (hlast : Sound last)

include hbegin hframe hlast

/-- The events after a child has ended: the parent has one more, the fork of the child, and the
child and the threads behind it have theirs. -/
theorem eventsOf_endFork (i : ThreadId) :
    (v.endFork r id api handle last.close).eventsOf i =
      if i = w.self.thread then
        w.self.events.push ⟨w.self.thread, w.self.events.size, id, .fork child⟩
      else if i < child then w.eventsOf i else last.eventsOf i := by
  obtain ⟨hchild, -⟩ := beginFork_spec hbegin
  obtain ⟨hown, hevents, -⟩ := endFork_spec hbegin r api handle last.close
  have hthread : last.self.thread = child := hframe.thread_eq
  rw [eventsOf, hown, hevents]
  split
  · rfl
  · next hi =>
    split
    · next hlt =>
      have hold : last.close.session.threads[i]? = w.session.threads[i]? := by
        rw [close_getElem?, if_neg fun heq => Nat.ne_of_lt hlt (heq.trans hthread)]
        refine (hframe.others i ?_ (Nat.ne_of_lt hlt)).trans ?_
        · show i < v.session.threads.size
          rw [beginFork_size hbegin, ← hchild]
          exact Nat.lt_succ_of_lt hlt
        · show v.session.threads[i]? = w.session.threads[i]?
          rw [beginFork_getElem? hbegin, if_neg hi, if_neg (hchild ▸ Nat.ne_of_lt hlt)]
      rw [eventsOf, if_neg hi, ← hold]
      rfl
    · exact hlast.eventsOf_close i

/-- After a child has ended there are the events that were there, the fork of the child, and the
events of the child and of the threads behind it. -/
theorem has_endFork (hw : Sound w) {q : EventRef} {e : Event} :
    (v.endFork r id api handle last.close).Has q e ↔
      w.Has q e ∨ (q = ⟨w.self.thread, w.self.events.size⟩ ∧
        e = ⟨w.self.thread, w.self.events.size, id, .fork child⟩) ∨ last.Has q e := by
  obtain ⟨hchild, -⟩ := beginFork_spec hbegin
  obtain ⟨hown, -⟩ := endFork_spec hbegin r api handle last.close
  have hthread : last.self.thread = child := hframe.thread_eq
  have hafter : w.self.thread < child := hchild ▸ hw.inTable
  have hbefore : w.Has q e → q.thread < child := fun h => hchild ▸ h.lt_size hw
  unfold Has at hbefore ⊢
  rw [hown, eventsOf_endFork handle hbegin hframe hlast, hthread]
  by_cases hq : q.thread = w.self.thread
  · have hwown : w.eventsOf q.thread = w.self.events := if_pos hq
    rw [if_pos hq, hwown, Array.getElem?_push]
    constructor
    · rintro ⟨hle, he⟩
      split at he
      · next hindex =>
        obtain ⟨i, j⟩ := q
        cases hq
        cases hindex
        cases he
        exact Or.inr (Or.inl ⟨rfl, rfl⟩)
      · exact Or.inl ⟨hle, he⟩
    · rintro (⟨hle, he⟩ | ⟨rfl, rfl⟩ | ⟨hle, -⟩)
      · rw [if_neg (Nat.ne_of_lt (Array.getElem?_eq_some_iff.1 he).1)]
        exact ⟨hle, he⟩
      · exact ⟨Nat.le_refl _, if_pos rfl⟩
      · exact absurd (hq ▸ hle) (Nat.not_le.2 hafter)
  · rw [if_neg hq]
    have hother : ¬ (q = ⟨w.self.thread, w.self.events.size⟩ ∧
        e = ⟨w.self.thread, w.self.events.size, id, .fork child⟩) := by
      rintro ⟨rfl, -⟩
      exact hq rfl
    by_cases hlt : q.thread < child
    · rw [if_pos hlt]
      refine ⟨Or.inl, ?_⟩
      rintro (h | h | ⟨hle, -⟩)
      · exact h
      · exact absurd h hother
      · exact absurd hlt (Nat.not_lt.2 hle)
    · rw [if_neg hlt]
      constructor
      · exact fun h => Or.inr (Or.inr ⟨Nat.le_of_not_lt hlt, h.2⟩)
      · rintro (h | h | ⟨hle, he⟩)
        · exact absurd (hbefore h) hlt
        · exact absurd h hother
        · exact ⟨hafter.le.trans hle, he⟩

end

/-- A child in a trace that a walk is part of: it was started by the walking thread, by the fork
node and the interface of the fork. -/
theorem child_of_under (hw : Sound w) {id : NodeId} {n : Node} {api : ForkApi} {target : String}
    {child : ThreadId} (hn : w.session.arena.get? id = some n) (hapi : n.forkApi? = some api)
    (hbegin : w.beginFork id target = .ok (child, v))
    (hgrows : Grows c r (v.enterChild child api) last) (hu : last.Under t) :
    Thread.Starts t.threads w.self.thread child ∧ t.spawnApi? child = some api ∧
      ∃ th, t.threads[child]? = some th ∧ th.fork = some id := by
  obtain ⟨hchild, harena, -⟩ := beginFork_spec hbegin
  have hget : v.session.threads[child]? = some (Thread.new child target
      (some ⟨w.self.thread, w.self.events.size⟩) (some id)) := by
    rw [beginFork_getElem? hbegin, if_neg (hchild ▸ hw.inTable.ne'), if_pos hchild]
  obtain ⟨harena', hthreads⟩ := hgrows.under hu
  obtain ⟨th, hth, -, hsite, hfork⟩ := hthreads child _ hget
  have hn' : t.arena.get? id = some n := harena' id n (harena.symm ▸ hn)
  exact ⟨⟨th, hth, by rw [Thread.parent?, hsite]; rfl⟩,
    Trace.spawnApi?_eq_some_iff.2 ⟨th, id, n, hth, hfork, hn', hapi⟩, th, hth, hfork⟩

end Walk

/-- When the main thread is closed, the events of the table are those that its walk has. -/
theorem Walk.Sound.has_iff_event? {w : Walk} (hw : w.Sound) (hmain : w.self.thread = 0)
    (arena : Arena) (program : Program) (pointsTo : PointsTo) (q : EventRef) (e : Event) :
    w.Has q e ↔ Trace.event? ⟨w.close.session.threads, arena, program, pointsTo⟩ q = some e := by
  have hevents : Trace.eventsOf ⟨w.close.session.threads, arena, program, pointsTo⟩ q.thread =
      w.eventsOf q.thread := by
    rw [← hw.eventsOf_close, Trace.eventsOf]
    cases w.close.session.threads[q.thread]? <;> rfl
  rw [Trace.event?, hevents]
  exact and_iff_right (hmain ▸ Nat.zero_le _)

/-- A trace that is built is what the walk of its main thread has in the end, and that walk joined
teams at once. -/
theorem Trace.build_walk {c : Subject} {t : Trace} (h : Trace.build c = .ok t) :
    ∃ s w, s.threads = #[Thread.new 0 c.settings.entry none none] ∧
      Walk.Timely c (Runtime.ofProgram c.program c.settings.runtime) ⟨s, Walker.start 0 none⟩ w ∧
      w.Clean ∧ w.Under t ∧ w.self.thread = 0 ∧
      w.session.threads.size = t.threads.size ∧ ∀ q e, w.Has q e ↔ t.event? q = some e := by
  obtain ⟨s, w, hthreads, htimely, hclean, rfl⟩ := build_timely h
  have hsound : w.Sound := htimely.grows.sound (.start hthreads)
  have hmain : w.self.thread = 0 := htimely.grows.framed.thread_eq
  exact ⟨s, w, hthreads, htimely, hclean, ⟨.refl _, Walk.preserved_close w⟩, hmain,
    (Walk.size_close w).symm, hsound.has_iff_event? hmain _ _ _⟩

/-- In a trace that is built, a thread that was started through an interface has a parent. -/
theorem Trace.exists_parent {c : Subject} {t : Trace} (hbuild : Trace.build c = .ok t)
    {i : ThreadId} {api : ForkApi} (hapi : t.spawnApi? i = some api) :
    ∃ parent, Thread.Starts t.threads parent i := by
  have ht := build_wellFormed hbuild
  obtain ⟨s, w, hthreads, htimely, -, hu, -⟩ := build_walk hbuild
  obtain ⟨th, fork, -, hth, hfork, -⟩ := spawnApi?_eq_some_iff.1 hapi
  have hpos : 0 < i := by
    refine Nat.pos_of_ne_zero fun hzero => ?_
    have hmain : s.threads[0]? = some (Thread.new 0 c.settings.entry none none) := by
      rw [hthreads]
      rfl
    obtain ⟨th', hth', -, -, hnone⟩ := (htimely.grows.under hu).threads 0 _ hmain
    cases (hzero ▸ hth).symm.trans hth'
    cases hfork.symm.trans hnone
  obtain ⟨site, hsite, -⟩ := ht.sited i th hth hpos
  exact ⟨site.thread, th, hth, by rw [Thread.parent?, hsite]; rfl⟩

end DataRace
