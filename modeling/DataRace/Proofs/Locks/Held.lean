import DataRace.LockSets
import DataRace.Proofs.Order.Base

/-!
# Held locks

The locks that are held at an event of a trace are those that are held behind the events of its
thread up to it (`LockSets.heldAt_eq`).  They are some of the nodes that lock events acquired, in
the order in which these were acquired (`LockSets.heldAfter_sublist`), and they stay the same as
long as no event changes locks (`LockSets.heldAt_stretch`).

The program of `Guarded` has a main thread that holds two locks and releases the first of them, and
a child that holds the first.
-/

namespace DataRace

namespace LockSets

variable {t : Trace} {es : List Event} {r : EventRef} {id : NodeId}

/-! ### Erasing -/

/-- Erasing leaves the other members in their order. -/
theorem eraseLast_sublist {α : Type} (p : α → Bool) (l : List α) :
    (eraseLast p l).Sublist l := by
  have herased := (List.eraseP_sublist (p := p) (l := l.reverse)).reverse
  rwa [List.reverse_reverse] at herased

/-- Erasing from a list and from its image. -/
theorem map_eraseLast {α β : Type} (φ : α → β) (p : β → Bool) (l : List α) :
    (eraseLast (fun a => p (φ a)) l).map φ = eraseLast p (l.map φ) := by
  unfold eraseLast
  rw [← List.map_reverse, List.eraseP_map, List.map_reverse]
  rfl

/-! ### Behind a list of events -/

/-- The locks held behind some events. -/
def heldAfter (t : Trace) (es : List Event) : List NodeId := es.foldl (step t) []

/-- The locks held behind one event more. -/
theorem heldAfter_concat (t : Trace) (es : List Event) (e : Event) :
    heldAfter t (es ++ [e]) = step t (heldAfter t es) e := List.foldl_append

/-- The nodes of the lock events of a list. -/
def acquired (es : List Event) : List NodeId :=
  (es.filter fun e => e.kind = .lock).map Event.node

/-- A lock event acquires its node. -/
theorem acquired_concat_of_lock (es : List Event) {e : Event} (h : e.kind = .lock) :
    acquired (es ++ [e]) = acquired es ++ [e.node] := by
  simp [acquired, h]

/-- Other events acquire nothing. -/
theorem acquired_concat_of_ne (es : List Event) {e : Event} (h : e.kind ≠ .lock) :
    acquired (es ++ [e]) = acquired es := by
  simp [acquired, h]

/-- An event that neither acquires nor releases changes no locks. -/
theorem step_of_not_isLocking (t : Trace) (held : List NodeId) {e : Event}
    (h : e.kind.isLocking = false) : step t held e = held := by
  unfold step
  split
  · next hkind => rw [hkind] at h; cases h
  · next hkind => rw [hkind] at h; cases h
  · rfl

/-- Locks are held in the order in which they were acquired. -/
theorem heldAfter_sublist (t : Trace) (es : List Event) :
    (heldAfter t es).Sublist (acquired es) := by
  induction es using List.reverseRecOn with
  | nil => exact List.Sublist.refl []
  | append_singleton es e ih =>
    rw [heldAfter_concat]
    unfold step
    split
    · next hkind =>
      rw [acquired_concat_of_lock es hkind]
      exact ih.append_right [e.node]
    · next hkind =>
      rw [acquired_concat_of_ne es (by simp [hkind])]
      exact (eraseLast_sublist _ _).trans ih
    · next hlock _ =>
      rw [acquired_concat_of_ne es hlock]
      exact ih

/-- The locks that are held behind some events were acquired by lock events among them. -/
theorem exists_lock_of_mem (h : id ∈ heldAfter t es) : ∃ e ∈ es, e.kind = .lock ∧ e.node = id := by
  obtain ⟨e, he, hnode⟩ := List.mem_map.1 ((heldAfter_sublist t es).subset h)
  obtain ⟨he, hkind⟩ := List.mem_filter.1 he
  exact ⟨e, he, of_decide_eq_true hkind, hnode⟩

/-! ### At an event -/

/-- The lists of a scan hold what is held behind each event. -/
theorem getElem?_scan (t : Trace) (held : List NodeId) {k : Nat} (hk : k < es.length) :
    (scan t held es)[k]? = some ((es.take (k + 1)).foldl (step t) held) := by
  induction es generalizing held k with
  | nil => cases hk
  | cons e es ih =>
    cases k with
    | zero => rfl
    | succ k => exact ih (step t held e) (Nat.lt_of_succ_lt_succ hk)

/-- A scan has a list for each event. -/
theorem length_scan (t : Trace) (held : List NodeId) (es : List Event) :
    (scan t held es).length = es.length := by
  induction es generalizing held with
  | nil => rfl
  | cons e es ih => exact congrArg Nat.succ (ih _)

/-- The locks held at an event of a trace. -/
theorem heldAt_eq {e : Event} (he : t.event? r = some e) :
    (ofTrace t).heldAt r = heldAfter t ((t.eventsOf r.thread).toList.take (r.index + 1)) := by
  obtain ⟨th, hth, hindex⟩ := Trace.event?_eq_some_iff.1 he
  have hlt := (Array.getElem?_eq_some_iff.1 hindex).1
  unfold heldAt ofTrace heldAfter
  rw [Array.getElem?_map, hth, HappensBefore.eventsOf_eq hth]
  dsimp only [Option.map_some]
  rw [List.getElem?_toArray, getElem?_scan t [] (Array.length_toList ▸ hlt), Option.getD_some]

/-- The locks are known at the events of a trace and nowhere else. -/
theorem exists_row_iff :
    (∃ row held, (ofTrace t).held[r.thread]? = some row ∧ row[r.index]? = some held) ↔
      ∃ e, t.event? r = some e := by
  unfold ofTrace
  simp only [Array.getElem?_map, Option.map_eq_some_iff, Trace.event?_eq_some_iff]
  constructor
  · rintro ⟨_, held, ⟨th, hth, rfl⟩, hheld⟩
    have hlt := (Array.getElem?_eq_some_iff.1 hheld).1
    rw [List.size_toArray, length_scan, Array.length_toList] at hlt
    exact ⟨_, th, hth, Array.getElem?_eq_getElem hlt⟩
  · rintro ⟨e, th, hth, he⟩
    have hlt := (Array.getElem?_eq_some_iff.1 he).1
    rw [← Array.length_toList, ← length_scan t [], ← List.size_toArray] at hlt
    exact ⟨_, _, ⟨th, hth, rfl⟩, Array.getElem?_eq_getElem hlt⟩

/-- Locks are held only at events. -/
theorem exists_event_of_mem_heldAt (h : id ∈ (ofTrace t).heldAt r) : ∃ e, t.event? r = some e := by
  unfold heldAt at h
  split at h
  · next row hrow =>
    cases hheld : row[r.index]? with
    | some held => exact exists_row_iff.1 ⟨row, held, hrow, hheld⟩
    | none =>
      rw [hheld] at h
      cases h
  · cases h

/-- Every lock that is held at an event was acquired by a lock event. -/
theorem exists_lock_of_mem_heldAt (h : id ∈ (ofTrace t).heldAt r) :
    ∃ e ∈ t.events, e.kind = .lock ∧ e.node = id := by
  obtain ⟨e, he⟩ := exists_event_of_mem_heldAt h
  rw [heldAt_eq he] at h
  obtain ⟨d, hd, hlock⟩ := exists_lock_of_mem h
  obtain ⟨th, hth, -⟩ := Trace.event?_eq_some_iff.1 he
  rw [HappensBefore.eventsOf_eq hth] at hd
  refine ⟨d, List.mem_flatMap.2 ⟨th, ?_, List.mem_of_mem_take hd⟩, hlock⟩
  exact Array.mem_toList_iff.2 (Array.mem_iff_getElem?.2 ⟨_, hth⟩)

/-- The same locks are held as long as no event changes them; the first event of a stretch may. -/
theorem heldAt_stretch {i : ThreadId} {j k : Nat} (hjk : j ≤ k)
    (hquiet : ∀ l, j ≤ l → l ≤ k →
      ∃ e, t.event? ⟨i, l⟩ = some e ∧ (j < l → e.kind.isLocking = false)) :
    (ofTrace t).heldAt ⟨i, j⟩ = (ofTrace t).heldAt ⟨i, k⟩ := by
  induction k, hjk using Nat.le_induction with
  | base => rfl
  | succ k hjk ih =>
    obtain ⟨e, he, -⟩ := hquiet k hjk (Nat.le_succ k)
    obtain ⟨e', he', hquiet'⟩ := hquiet (k + 1) (Nat.le_succ_of_le hjk) (Nat.le_refl _)
    have hlast : (t.eventsOf i).toList[k + 1]? = some e' := Array.getElem?_toList.trans he'
    have hstep := heldAfter_concat t ((t.eventsOf i).toList.take (k + 1)) e'
    rw [ih fun l hl hlk => hquiet l hl (Nat.le_succ_of_le hlk), heldAt_eq he, heldAt_eq he']
    dsimp only
    rw [List.take_add_one (i := k + 1), hlast, Option.toList_some, hstep,
      step_of_not_isLocking t _ (hquiet' (Nat.lt_succ_of_le hjk))]

end LockSets

/-! ### A program with locks -/

namespace Guarded

/-- Starts a child and stores while two locks are held, then releases the first of them through a
pointer that must alias it. -/
def main : Routine where
  name := "main"
  body :=
    [⟨⟨0⟩, .call (.direct "pthread_create") [.value ⟨0⟩, .null, .routine "worker"], none⟩,
      ⟨⟨1⟩, .call (.direct "pthread_mutex_lock") [.value ⟨1⟩], none⟩,
      ⟨⟨2⟩, .call (.direct "pthread_mutex_lock") [.value ⟨3⟩], none⟩,
      ⟨⟨3⟩, .store ⟨4⟩ false, none⟩,
      ⟨⟨4⟩, .call (.direct "pthread_mutex_unlock") [.value ⟨2⟩], none⟩,
      ⟨⟨5⟩, .call (.direct "pthread_join") [.value ⟨0⟩, .null], none⟩]

/-- Stores while it holds the first lock. -/
def worker : Routine where
  name := "worker"
  body :=
    [⟨⟨6⟩, .call (.direct "pthread_mutex_lock") [.value ⟨2⟩], none⟩,
      ⟨⟨7⟩, .store ⟨4⟩ false, none⟩]

/-- The program of both routines, with two pointers to one lock. -/
def subject : Subject where
  program := .index "guarded" [main, worker]
  pointsTo := ⟨#["lock", "x"], [(1, [⟨0⟩]), (2, [⟨0⟩]), (4, [⟨1⟩])], []⟩
  settings := { Settings.default with runtime := .pthread }
  chain := [.pthread]

/-- The nodes of the main routine. -/
def mainNodes : Array Node :=
  #[⟨⟨⟨0⟩, none⟩, .fork .pthreadCreate (.value ⟨0⟩) (.direct "worker")⟩,
    ⟨⟨⟨1⟩, none⟩, .lock .pthreadMutex (.value ⟨1⟩)⟩,
    ⟨⟨⟨2⟩, none⟩, .lock .pthreadMutex (.value ⟨3⟩)⟩,
    ⟨⟨⟨3⟩, none⟩, .write .store ⟨4⟩ false⟩,
    ⟨⟨⟨4⟩, none⟩, .unlock .pthreadMutex (.value ⟨2⟩)⟩,
    ⟨⟨⟨5⟩, none⟩, .join .pthreadJoin (.value ⟨0⟩) none⟩]

/-- All nodes. -/
def nodes : Array Node :=
  mainNodes ++ #[⟨⟨⟨6⟩, none⟩, .lock .pthreadMutex (.value ⟨2⟩)⟩,
    ⟨⟨⟨7⟩, none⟩, .write .store ⟨4⟩ false⟩]

/-- The events of the child. -/
def childEvents : Array Event := #[⟨1, 0, 6, .lock⟩, ⟨1, 1, 7, .write⟩]

/-- The main thread and the child, with the events of neither or of the child. -/
def threads (events : Array Event) : Array Thread :=
  #[⟨0, "main", none, none, #[], #[1]⟩, ⟨1, "worker", some ⟨0, 0⟩, some 0, events, #[]⟩]

/-- What was looked up before the child starts. -/
def early : Std.HashMap String (List NodeId) := Std.HashMap.insert ∅ "main" [0, 1, 2, 3, 4, 5]

/-- What was looked up in the end. -/
def late : Std.HashMap String (List NodeId) := early.insert "worker" [6, 7]

/-- The events of the main thread. -/
def mainEvents : Array Event :=
  #[⟨0, 0, 0, .fork 1⟩, ⟨0, 1, 1, .lock⟩, ⟨0, 2, 2, .lock⟩, ⟨0, 3, 3, .write⟩, ⟨0, 4, 4, .unlock⟩,
    ⟨0, 5, 5, .join (some 1)⟩]

/-- The trace of the program. -/
def trace : Trace where
  threads :=
    #[⟨0, "main", none, none, mainEvents, #[1]⟩,
      ⟨1, "worker", some ⟨0, 0⟩, some 0, childEvents, #[]⟩]
  arena := ⟨nodes⟩
  program := subject.program
  pointsTo := subject.pointsTo

/-- Both routines are found. -/
theorem definition_eq :
    subject.program.definition? "main" = some main ∧
      subject.program.definition? "worker" = some worker := by
  constructor <;>
    · simp only [subject, Program.definition?, Program.routine?, Program.index, List.foldl_cons,
        List.foldl_nil, Std.HashMap.getElem?_insert]
      rfl

/-- The nodes of the main routine are made at the first question. -/
theorem summary_main :
    Session.summary subject ⟨.empty, ∅, ∅, #[Thread.new 0 "main" none none]⟩ "main" =
      .ok (some [0, 1, 2, 3, 4, 5],
        ⟨⟨mainNodes⟩, early, ∅, #[Thread.new 0 "main" none none]⟩) := by
  rw [Session.summary, Std.HashMap.getElem?_empty, definition_eq.1]
  rfl

/-- The nodes of the child are made behind them. -/
theorem summary_worker :
    Session.summary subject ⟨⟨mainNodes⟩, early, ∅, threads #[]⟩ "worker" =
      .ok (some [6, 7], ⟨⟨nodes⟩, late, ∅, threads #[]⟩) := by
  have hnew : early["worker"]? = none := by simp [early]
  rw [Session.summary, hnew, definition_eq.2]
  rfl

/-- The child locks and stores. -/
theorem walk_worker :
    Walk.walk subject .pthread ["worker", "main"] ["worker"] [6, 7]
        ⟨⟨⟨nodes⟩, late, ∅, threads #[]⟩, Walker.start 1 (some .pthreadCreate)⟩ =
      .ok ⟨⟨⟨nodes⟩, late, ∅, threads #[]⟩,
        ⟨1, some .pthreadCreate, childEvents, none, [], [], [], []⟩⟩ := by
  rw [Walk.walk_cons_of_handle rfl rfl (by rw [Walk.handle]; rfl),
    Walk.walk_cons_of_handle rfl rfl (by rw [Walk.handle]; rfl), Walk.walk]
  rfl

/-- The main thread starts the child, locks, stores, unlocks and joins. -/
theorem walk_main :
    Walk.walk subject .pthread ["main"] ["main"] [0, 1, 2, 3, 4, 5]
        ⟨⟨⟨mainNodes⟩, early, ∅, #[Thread.new 0 "main" none none]⟩, Walker.start 0 none⟩ =
      .ok ⟨⟨⟨nodes⟩, late, ∅, threads childEvents⟩,
        ⟨0, none, mainEvents, none, [], [0], [], []⟩⟩ := by
  have hfork : Walk.handle subject .pthread ["main"] ["main"] 0
      ⟨⟨⟨0⟩, none⟩, .fork .pthreadCreate (.value ⟨0⟩) (.direct "worker")⟩
      ⟨⟨⟨mainNodes⟩, early, ∅, #[Thread.new 0 "main" none none]⟩, Walker.start 0 none⟩ =
        .ok ⟨⟨⟨nodes⟩, late, ∅, threads childEvents⟩,
          ⟨0, none, #[⟨0, 0, 0, .fork 1⟩], none, [⟨0, 1, .value ⟨0⟩⟩], [0], [], []⟩⟩ := by
    rw [Walk.handle]
    dsimp only
    rw [show subject.entryTargets (.direct "worker") = ["worker"] from rfl,
      Walk.forkAll_cons_of_walk (by decide) (by decide)
        (v := ⟨⟨⟨mainNodes⟩, early, ∅, threads #[]⟩,
          ⟨0, none, #[⟨0, 0, 0, .fork 1⟩], none, [], [0], [], []⟩⟩)
        rfl definition_eq.2 summary_worker walk_worker rfl, Walk.forkAll]
    rfl
  rw [Walk.walk_cons_of_handle rfl rfl hfork,
    Walk.walk_cons_of_handle rfl rfl (by rw [Walk.handle]; rfl),
    Walk.walk_cons_of_handle rfl rfl (by rw [Walk.handle]; rfl),
    Walk.walk_cons_of_handle rfl rfl (by rw [Walk.handle]; rfl),
    Walk.walk_cons_of_handle rfl rfl (by rw [Walk.handle]; rfl),
    Walk.walk_cons_of_handle rfl rfl (by rw [Walk.handle]; rfl), Walk.walk]
  rfl

/-- The program has its trace. -/
theorem build_eq : Trace.build subject = .ok trace := by
  have hentry : subject.program.routine? "main" = some main :=
    (Option.filter_eq_some_iff.1 definition_eq.1).1
  have hruntime : Runtime.ofProgram subject.program subject.settings.runtime = .pthread := rfl
  have hwalk : Trace.walkMain subject .pthread "main" = .ok ⟨⟨nodes⟩, late, ∅, trace.threads⟩ :=
    Except.bind_eq_ok.2 ⟨_, rfl, Except.bind_eq_ok.2 ⟨_, summary_main,
      Except.bind_eq_ok.2 ⟨_, walk_main, rfl⟩⟩⟩
  rw [Trace.build, show subject.settings.entry = "main" from rfl, hruntime]
  rw [hentry, hwalk]
  rfl

end Guarded

end DataRace
