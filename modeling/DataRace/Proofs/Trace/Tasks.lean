import DataRace.Proofs.Trace.Completed

/-!
# Tasks are completed once

What an OpenMP thread has pending are the tasks that it leads to through tasks and that nobody
completed yet.  A task that ends leaves its own pending tasks and then itself to its parent, a
member of a team completes all of them before it ends, and the other joins of a trace complete no
task, since the companion joins of a body are those of members and a join by a handle has no
companion node.

`Walk.Ledger` says this of a walk, with what is owed in the place of what is pending because
the runtime joins pending children one by one.  Every growth keeps it (`Walk.Timely.ledger`), so in
the end each task of a team was completed exactly once, in the thread of the team or in a task
between them.
-/

namespace DataRace

open Relation

namespace Trace

variable {t : Trace}

/-- One thread started another as a task. -/
def StartsTask (t : Trace) (a b : ThreadId) : Prop :=
  Thread.Starts t.threads a b ∧ t.spawnApi? b = some .ompTask

/-- A member of an OpenMP team. -/
def IsMember (t : Trace) (i : ThreadId) : Prop :=
  ∃ api, t.spawnApi? i = some api ∧ api.isTeamMember = true

/-- A companion join of a member of a team completes no task. -/
theorem Completes.not_task {e : Event} {child : ThreadId} (h : t.Completes e child) {n : Node}
    (hn : t.arena.get? e.node = some n)
    (hteam : ∀ fork, n.companionOf? = some fork → t.arena.TeamFork fork) :
    t.spawnApi? child ≠ some .ompTask := by
  intro htask
  obtain ⟨th, hth, hfork⟩ := h.fork_eq hn
  obtain ⟨th', fork, m, hth', hfork', hm, hapi⟩ := spawnApi?_eq_some_iff.1 htask
  cases hth.symm.trans hth'
  obtain ⟨m', hm', api, hapi', hmember⟩ := hteam fork (hfork.symm.trans hfork')
  cases hm.symm.trans hm'
  cases hapi.symm.trans hapi'
  cases hmember

/-! ### Chains of tasks -/

/-- A chain of tasks ends in a task. -/
theorem spawnApi?_of_chain {a b : ThreadId} (h : TransGen t.StartsTask a b) :
    t.spawnApi? b = some .ompTask := by
  obtain ⟨_, -, hstart⟩ := TransGen.tail'_iff.1 h
  exact hstart.2

namespace WellFormed

variable (ht : t.WellFormed) {a b d : ThreadId}

include ht

/-- A chain of tasks leads to a later thread. -/
theorem lt_of_chain (h : TransGen t.StartsTask a b) : a < b := by
  induction h with
  | single h => exact ht.starts_lt h.1
  | tail _ h ih => exact ih.trans (ht.starts_lt h.1)

/-- A chain of tasks that leads past the number of a thread that leads to its end goes through that
thread. -/
theorem chain_through (h : TransGen t.StartsTask a d)
    (hbd : ReflTransGen (Thread.Starts t.threads) b d) (hab : a < b) :
    TransGen t.StartsTask a b ∧ ReflTransGen t.StartsTask b d := by
  induction h with
  | @single d had =>
    rcases ReflTransGen.cases_tail hbd with rfl | ⟨q, hbq, hqd⟩
    · exact ⟨.single had, .refl⟩
    · obtain rfl := had.1.unique hqd
      exact absurd (ht.descends_le hbq) (Nat.not_le.2 hab)
  | @tail q d haq hqd ih =>
    rcases ReflTransGen.cases_tail hbd with rfl | ⟨q', hbq, hq'd⟩
    · exact ⟨haq.tail hqd, .refl⟩
    · obtain rfl := hqd.1.unique hq'd
      obtain ⟨hab', hbq'⟩ := ih hbq
      exact ⟨hab', hbq'.tail hqd⟩

end WellFormed

end Trace

namespace Walk

variable {c : Subject} {r : Runtime} {t : Trace} {w v w' last : Walk}

/-! ### Steps that complete no task -/

/-- A task is completed by an event of the walking thread or of one behind it. -/
def TaskDone (w : Walk) (t : Trace) (task : ThreadId) (q : EventRef) : Prop :=
  t.spawnApi? task = some .ompTask ∧ w.CompletedAt t task q

/-- A step of the walking thread alone that completes no task. -/
def Neutral (t : Trace) (w w' : Walk) : Prop :=
  ∃ new, Appends w w' new ∧
    ∀ e ∈ new, ∀ task, t.spawnApi? task = some .ompTask → ¬ t.Completes e task

namespace Neutral

/-- A step without events. -/
theorem of_eq (hthread : w'.self.thread = w.self.thread)
    (hthreads : w'.session.threads = w.session.threads)
    (hevents : w'.self.events = w.self.events) : Neutral t w w' :=
  ⟨#[], .of_eq hthread hthreads hevents, fun e he => absurd he (Array.not_mem_empty e)⟩

/-- A tacit step. -/
theorem of_tacit (h : Tacit w w') : Neutral t w w' := by
  obtain ⟨new, hstep, hnew⟩ := Appends.of_tacit h
  refine ⟨new, hstep, ?_⟩
  rintro e he task - ⟨hkind, -⟩
  have hlocal := hnew e he
  rw [hkind] at hlocal
  cases hlocal

/-- Joining members of a team. -/
theorem of_joinTeam (hw : w.Under t) {id fork : NodeId} {n : Node}
    (hn : w.session.arena.get? id = some n) (hfork : n.companionOf? = some fork)
    (hteam : w.session.arena.TeamFork fork) (h : w.joinCompanion id n fork = .ok w') :
    Neutral t w w' := by
  obtain ⟨hsession, hthread, -, -, -, new, hevents, hnew, -⟩ := joinCompanion_spec h
  refine ⟨new, ⟨hthread, by rw [hsession], hevents⟩, fun e he task htask hdone => ?_⟩
  rw [← (hnew e he).1] at hn
  refine hdone.not_task (hw.arena _ n hn) (fun fork' hfork' => ?_) htask
  cases hfork.symm.trans hfork'
  exact hteam.mono hw.arena

/-- Joining what a handle denotes. -/
theorem of_joinHandle (hw : w.Under t) {id : NodeId} {n : Node} (handle : Operand)
    (hn : w.session.arena.get? id = some n) (hnone : n.companionOf? = none) :
    Neutral t w (w.joinHandle c id handle) := by
  obtain ⟨child, hstep⟩ := Appends.joinHandle c w id handle
  refine ⟨_, hstep, fun e he task htask hdone => ?_⟩
  obtain rfl := Array.mem_singleton.1 he
  refine hdone.not_task (hw.arena _ n hn) (fun fork hfork => ?_) htask
  cases hnone.symm.trans hfork

/-- Such a step leaves alone which tasks are done. -/
theorem taskDone_iff (h : Neutral t w w') {task : ThreadId} {q : EventRef} :
    w'.TaskDone t task q ↔ w.TaskDone t task q := by
  obtain ⟨new, happends, hnew⟩ := h
  refine and_congr_right fun htask => exists_congr fun e => ?_
  rw [happends.has_iff]
  refine ⟨fun ⟨he, hdone⟩ => ⟨he.resolve_right ?_, hdone⟩, fun ⟨he, hdone⟩ => ⟨Or.inl he, hdone⟩⟩
  exact fun ⟨_, _, he⟩ => hnew e (Array.mem_of_getElem? he) task htask hdone

end Neutral

/-! ### Steps that complete tasks -/

/-- A runtime's join of a task completes this task and no other. -/
theorem taskDone_joinChild {node : NodeId} {child task : ThreadId} {q : EventRef}
    (hjoin : w.joinChild node child = .ok w') (hu : w'.Under t)
    (hchild : t.spawnApi? child = some .ompTask)
    (hfork : ∃ th, t.threads[child]? = some th ∧ th.fork = some node) :
    w'.TaskDone t task q ↔ w.TaskDone t task q ∨
      task = child ∧ q = ⟨w.self.thread, w.self.events.size⟩ := by
  obtain ⟨join, hid, happends⟩ := Appends.joinChild hjoin
  unfold TaskDone CompletedAt
  simp only [happends.has_push]
  constructor
  · rintro ⟨htask, e, he | ⟨rfl, rfl⟩, hcompletes⟩
    · exact Or.inl ⟨htask, e, he, hcompletes⟩
    · obtain ⟨hkind, -⟩ := hcompletes
      cases hkind
      exact Or.inr ⟨rfl, rfl⟩
  · rintro (⟨htask, e, he, hcompletes⟩ | ⟨rfl, rfl⟩)
    · exact ⟨htask, e, Or.inl he, hcompletes⟩
    · obtain ⟨th, hth, hfork⟩ := hfork
      exact ⟨hchild, _, Or.inr ⟨rfl, rfl⟩, rfl, th, node, hth, hfork, hu.arena.companion? hid⟩

/-- After a child has ended, those tasks are done that its parent had done, and those that were done
by the child and behind it. -/
theorem taskDone_endFork {id : NodeId} {target : String} {child task : ThreadId} {api : ForkApi}
    {q : EventRef} (hbegin : w.beginFork id target = .ok (child, v))
    (hframe : Framed (v.enterChild child api) last) (hlast : Sound last) (hw : Sound w)
    (handle : Operand) : (v.endFork r id api handle last.close).TaskDone t task q ↔
      w.TaskDone t task q ∨ last.TaskDone t task q := by
  unfold TaskDone CompletedAt
  simp only [has_endFork handle hbegin hframe hlast hw]
  constructor
  · rintro ⟨htask, e, he | ⟨-, rfl⟩ | he, hcompletes⟩
    · exact Or.inl ⟨htask, e, he, hcompletes⟩
    · obtain ⟨hkind, -⟩ := hcompletes
      cases hkind
    · exact Or.inr ⟨htask, e, he, hcompletes⟩
  · rintro (⟨htask, e, he, hcompletes⟩ | ⟨htask, e, he, hcompletes⟩)
    · exact ⟨htask, e, Or.inl he, hcompletes⟩
    · exact ⟨htask, e, Or.inr (Or.inr he), hcompletes⟩

/-! ### What is owed -/

/-- What a walk knows of the tasks that its thread leads to through tasks, and of the tasks of the
teams behind it: each of them is done once, in the thread that started it or in one that leads to
that thread through tasks, or it is still owed by the walking thread. -/
structure Ledger (t : Trace) (w : Walk) (owed : List Pending) : Prop where
  chain : ∀ p ∈ owed, TransGen t.StartsTask w.self.thread p.child
  there : ∀ p ∈ owed, p.child < w.session.threads.size
  fork_eq : ∀ p ∈ owed, ∃ th, t.threads[p.child]? = some th ∧ th.fork = some p.node
  nodup : (owed.map Pending.child).Nodup
  open_ : ∀ p ∈ owed, ∀ q, ¬ w.TaskDone t p.child q
  located : ∀ task q, w.TaskDone t task q → TransGen t.StartsTask q.thread task
  unique : ∀ task q q', w.TaskDone t task q → w.TaskDone t task q' → q = q'
  complete : ∀ task, TransGen t.StartsTask w.self.thread task →
    task < w.session.threads.size → task ∈ owed.map Pending.child ∨ ∃ q, w.TaskDone t task q
  members : ∀ i task, w.self.thread < i → t.IsMember i → TransGen t.StartsTask i task →
    task < w.session.threads.size → ∃ q, w.TaskDone t task q

namespace Ledger

variable {owed owed' : List Pending}

/-- A thread without events that is the last one owes nothing. -/
theorem start (ht : t.WellFormed) (hsize : w.self.thread + 1 = w.session.threads.size)
    (hevents : w.self.events = #[]) : Ledger t w [] := by
  have hnone : ∀ task q, ¬ w.TaskDone t task q := by
    rintro task q ⟨-, e, he, -⟩
    exact not_has_start hsize hevents he
  have hlast : ∀ {i task : ThreadId}, w.self.thread ≤ i → TransGen t.StartsTask i task →
      ¬ task < w.session.threads.size := by
    intro i task hle hchain hlt
    rw [← hsize] at hlt
    exact absurd (Nat.lt_of_lt_of_le (ht.lt_of_chain hchain) (Nat.le_of_lt_succ hlt))
      (Nat.not_lt.2 hle)
  constructor
  case chain => exact fun p hp => nomatch hp
  case there => exact fun p hp => nomatch hp
  case fork_eq => exact fun p hp => nomatch hp
  case nodup => exact .nil
  case open_ => exact fun p hp => nomatch hp
  case located => exact fun task q h => absurd h (hnone task q)
  case unique => exact fun task q _ h => absurd h (hnone task q)
  case complete => exact fun task hchain hlt => absurd hlt (hlast (Nat.le_refl _) hchain)
  case members => exact fun i task hi _ hchain hlt => absurd hlt (hlast hi.le hchain)

/-- The order in which tasks are owed does not matter. -/
theorem perm (h : Ledger t w owed) (hperm : owed.Perm owed') : Ledger t w owed' where
  chain p hp := h.chain p (hperm.mem_iff.2 hp)
  there p hp := h.there p (hperm.mem_iff.2 hp)
  fork_eq p hp := h.fork_eq p (hperm.mem_iff.2 hp)
  nodup := (hperm.map Pending.child).nodup_iff.1 h.nodup
  open_ p hp := h.open_ p (hperm.mem_iff.2 hp)
  located := h.located
  unique := h.unique
  complete task hchain hlt := (h.complete task hchain hlt).imp_left (hperm.map _).mem_iff.1
  members := h.members

/-- A step that completes no task. -/
theorem neutral (h : Ledger t w owed) (hstep : Neutral t w w') : Ledger t w' owed := by
  obtain ⟨new, ⟨hthread, hthreads, -⟩, -⟩ := id hstep
  constructor
  case chain =>
    rw [hthread]
    exact h.chain
  case there =>
    rw [hthreads]
    exact h.there
  case fork_eq => exact h.fork_eq
  case nodup => exact h.nodup
  case open_ =>
    simp only [hstep.taskDone_iff]
    exact h.open_
  case located =>
    simp only [hstep.taskDone_iff]
    exact h.located
  case unique =>
    simp only [hstep.taskDone_iff]
    exact h.unique
  case complete =>
    simp only [hstep.taskDone_iff, hthread, hthreads]
    exact h.complete
  case members =>
    simp only [hstep.taskDone_iff, hthread, hthreads]
    exact h.members

/-- A runtime's join of what is owed first. -/
theorem joinChild {p : Pending} (h : Ledger t w (p :: owed))
    (hjoin : w.joinChild p.node p.child = .ok w') (hu : w'.Under t) : Ledger t w' owed := by
  obtain ⟨_, -, happends⟩ := Appends.joinChild hjoin
  have hchain := h.chain p List.mem_cons_self
  have hdone : ∀ task q, w'.TaskDone t task q ↔ w.TaskDone t task q ∨
      task = p.child ∧ q = ⟨w.self.thread, w.self.events.size⟩ := fun _ _ =>
    taskDone_joinChild hjoin hu (Trace.spawnApi?_of_chain hchain) (h.fork_eq p List.mem_cons_self)
  have hopen := h.open_ p List.mem_cons_self
  obtain ⟨hnew, hnodup⟩ := List.nodup_cons.1 h.nodup
  have hthread := happends.thread_eq
  have hsize := congrArg Array.size happends.threads_eq
  constructor
  case chain =>
    rw [hthread]
    exact fun p' hp' => h.chain p' (List.mem_cons_of_mem _ hp')
  case there =>
    rw [hsize]
    exact fun p' hp' => h.there p' (List.mem_cons_of_mem _ hp')
  case fork_eq => exact fun p' hp' => h.fork_eq p' (List.mem_cons_of_mem _ hp')
  case nodup => exact hnodup
  case open_ =>
    intro p' hp' q hq
    rcases (hdone _ q).1 hq with hq | ⟨heq, -⟩
    · exact h.open_ p' (List.mem_cons_of_mem _ hp') q hq
    · exact hnew (heq ▸ List.mem_map_of_mem hp')
  case located =>
    intro task q hq
    rcases (hdone task q).1 hq with hq | ⟨rfl, rfl⟩
    · exact h.located task q hq
    · exact hchain
  case unique =>
    intro task q q' hq hq'
    rcases (hdone task q).1 hq with hq | ⟨rfl, rfl⟩ <;>
      rcases (hdone _ q').1 hq' with hq' | ⟨heq, rfl⟩
    · exact h.unique task q q' hq hq'
    · exact absurd hq (heq ▸ hopen q)
    · exact absurd hq' (hopen q')
    · rfl
  case complete =>
    intro task htaskchain hlt
    rw [hthread] at htaskchain
    rw [hsize] at hlt
    rcases h.complete task htaskchain hlt with howed | ⟨q, hq⟩
    · rcases List.mem_cons.1 howed with rfl | howed
      · exact Or.inr ⟨_, (hdone _ _).2 (Or.inr ⟨rfl, rfl⟩)⟩
      · exact Or.inl howed
    · exact Or.inr ⟨q, (hdone task q).2 (Or.inl hq)⟩
  case members =>
    intro i task hi hmember htaskchain hlt
    rw [hthread] at hi
    rw [hsize] at hlt
    obtain ⟨q, hq⟩ := h.members i task hi hmember htaskchain hlt
    exact ⟨q, (hdone task q).2 (Or.inl hq)⟩

/-- A runtime's joins of what is owed first. -/
theorem joinAll {due : List Pending} (h : Ledger t w (due ++ owed))
    (hjoin : due.foldlM (fun w p => w.joinChild p.node p.child) w = .ok w') (hu : w'.Under t) :
    Ledger t w' owed := by
  have hextends : ∀ (l : List Pending) (v : Walk),
      l.foldlM (fun w p => w.joinChild p.node p.child) v = .ok w' →
        v.session.Extends w'.session := by
    intro l
    induction l with
    | nil =>
      rintro v ⟨⟩
      exact .refl _
    | cons p l ih =>
      intro v hv
      obtain ⟨v', hv', hl⟩ := Except.bind_eq_ok.1 hv
      exact (joinChild_spec hv').1.trans (ih v' hl)
  induction due generalizing w with
  | nil =>
    cases hjoin
    exact h
  | cons p due ih =>
    obtain ⟨v, hv, hdue⟩ := Except.bind_eq_ok.1 hjoin
    have hsession := hextends due v hdue
    exact ih (joinChild h hv ⟨hsession.arena.trans hu.arena, hsession.threads ▸ hu.threads⟩) hdue

/-- A runtime's joins of pending children. -/
theorem joinPending (h : Ledger t w w.self.pending) {directOnly : Bool}
    (hjoin : w.joinPending directOnly = .ok w') (hu : w'.Under t) :
    Ledger t w' w'.self.pending := by
  rw [joinPending_pending hjoin]
  have hdue := List.filter_append_perm (fun p : Pending => p.isDirect || !directOnly) w.self.pending
  have hordered := List.filter_append_perm (fun p : Pending => p.isDirect)
    (w.self.pending.filter fun p => p.isDirect || !directOnly)
  have hperm := hdue.symm.trans (hordered.symm.append_right _)
  have hstart : Ledger t { w with self := { w.self with
      pending := w.self.pending.filter fun p => !(p.isDirect || !directOnly) } } w.self.pending :=
    h.neutral (.of_eq rfl rfl rfl)
  exact (hstart.perm hperm).joinAll hjoin hu

end Ledger

/-! ### What a child leaves -/

/-- What a child leaves to its parent when it ends: the tasks that the parent leads to through the
child are among those left or done, and the tasks of all teams that end with the child are done. -/
structure Leaves (t : Trace) (parent : ThreadId) (last : Walk) (more : List Pending) : Prop where
  chain : ∀ p ∈ more, TransGen t.StartsTask parent p.child
  there : ∀ p ∈ more, last.self.thread ≤ p.child ∧ p.child < last.session.threads.size
  fork_eq : ∀ p ∈ more, ∃ th, t.threads[p.child]? = some th ∧ th.fork = some p.node
  nodup : (more.map Pending.child).Nodup
  open_ : ∀ p ∈ more, ∀ q, ¬ last.TaskDone t p.child q
  complete : ∀ task, TransGen t.StartsTask parent task → last.self.thread ≤ task →
    task < last.session.threads.size → task ∈ more.map Pending.child ∨ ∃ q, last.TaskDone t task q
  members : ∀ i task, last.self.thread ≤ i → t.IsMember i → TransGen t.StartsTask i task →
    task < last.session.threads.size → ∃ q, last.TaskDone t task q

namespace Ledger

variable {owed more : List Pending} {parent : ThreadId}

/-- A task that is done behind a walk is a later thread. -/
theorem lt_of_taskDone (h : Ledger t w owed) (ht : t.WellFormed) {task : ThreadId} {q : EventRef}
    (hdone : w.TaskDone t task q) : w.self.thread < task := by
  have hchain := ht.lt_of_chain (h.located task q hdone)
  obtain ⟨-, e, ⟨hle, -⟩, -⟩ := hdone
  exact Nat.lt_of_le_of_lt hle hchain

/-- A task leaves what it owes, and itself. -/
theorem leaves_of_task (h : Ledger t last owed) (ht : t.WellFormed)
    (hstart : t.StartsTask parent last.self.thread) (hsound : Sound last)
    (hlead : ∀ i, last.self.thread ≤ i → i < last.session.threads.size →
      ReflTransGen (Thread.Starts t.threads) last.self.thread i) {id : NodeId}
    (hfork : ∃ th, t.threads[last.self.thread]? = some th ∧ th.fork = some id) :
    Leaves t parent last
      (owed.map indirect ++ [⟨id, last.self.thread, true⟩]) := by
  have hlt := ht.starts_lt hstart.1
  -- What is left is what was owed, with the same children, and the task itself.
  have hleft : ∀ {P : Pending → Prop}, (∀ p, P p → P (indirect p)) → (∀ p ∈ owed, P p) →
      P ⟨id, last.self.thread, true⟩ →
      ∀ p ∈ owed.map indirect ++ [⟨id, last.self.thread, true⟩], P p := by
    intro P hdirect howed hself p hp
    rcases List.mem_append.1 hp with hp | hp
    · obtain ⟨p', hp', rfl⟩ := List.mem_map.1 hp
      exact hdirect p' (howed p' hp')
    · rw [List.mem_singleton.1 hp]
      exact hself
  have hchildren : (owed.map indirect ++ [(⟨id, last.self.thread, true⟩ : Pending)]).map
      Pending.child = owed.map Pending.child ++ [last.self.thread] := by
    rw [List.map_append, List.map_map]
    rfl
  constructor
  case chain =>
    exact hleft (fun _ hp => hp) (fun p hp => .head hstart (h.chain p hp)) (.single hstart)
  case there =>
    exact hleft (fun _ hp => hp)
      (fun p hp => ⟨(ht.lt_of_chain (h.chain p hp)).le, h.there p hp⟩)
      ⟨Nat.le_refl _, hsound.inTable⟩
  case fork_eq => exact hleft (fun _ hp => hp) h.fork_eq hfork
  case nodup =>
    rw [hchildren, List.nodup_append]
    refine ⟨h.nodup, List.pairwise_singleton _ _, fun i hi j hj => ?_⟩
    obtain ⟨p, hp, rfl⟩ := List.mem_map.1 hi
    rw [List.mem_singleton.1 hj]
    exact (ht.lt_of_chain (h.chain p hp)).ne'
  case open_ =>
    exact hleft (fun _ hp => hp) h.open_ fun q hq =>
      Nat.lt_irrefl _ (h.lt_of_taskDone ht hq)
  case complete =>
    intro task hchain hle hin
    rw [hchildren]
    obtain ⟨-, hpath⟩ := ht.chain_through hchain (hlead task hle hin) hlt
    rcases reflTransGen_iff_eq_or_transGen.1 hpath with rfl | hpath
    · exact Or.inl (List.mem_append_right _ List.mem_cons_self)
    · exact (h.complete task hpath hin).imp_left (List.mem_append_left _)
  case members =>
    intro i task hle hmember hchain hin
    rcases Nat.eq_or_lt_of_le hle with rfl | hbehind
    · obtain ⟨api, hapi, hmember⟩ := hmember
      cases hapi.symm.trans hstart.2
      cases hmember
    · exact h.members i task hbehind hmember hchain hin

/-- Any other child leaves nothing; a member of a team owes nothing at its end. -/
theorem leaves_of_other (h : Ledger t last owed) (ht : t.WellFormed)
    (hstart : Thread.Starts t.threads parent last.self.thread)
    (hother : t.spawnApi? last.self.thread ≠ some .ompTask)
    (hmember : t.IsMember last.self.thread → owed = [])
    (hlead : ∀ i, last.self.thread ≤ i → i < last.session.threads.size →
      ReflTransGen (Thread.Starts t.threads) last.self.thread i) : Leaves t parent last [] := by
  constructor
  case chain => exact fun p hp => nomatch hp
  case there => exact fun p hp => nomatch hp
  case fork_eq => exact fun p hp => nomatch hp
  case nodup => exact .nil
  case open_ => exact fun p hp => nomatch hp
  case complete =>
    intro task hchain hle hin
    obtain ⟨hthrough, -⟩ := ht.chain_through hchain (hlead task hle hin) (ht.starts_lt hstart)
    exact absurd (Trace.spawnApi?_of_chain hthrough) hother
  case members =>
    intro i task hle hi hchain hin
    rcases Nat.eq_or_lt_of_le hle with rfl | hbehind
    · refine (h.complete task hchain hin).resolve_left ?_
      rw [hmember hi]
      exact List.not_mem_nil
    · exact h.members i task hbehind hi hchain hin

/-- A parent takes over what its child leaves. -/
theorem endFork {last : Walk} {owed' : List Pending} (h : Ledger t w owed)
    (hlast : Ledger t last owed') (hmore : Leaves t w.self.thread last more) (ht : t.WellFormed)
    (hw : Sound w) (hsound : Sound last) {id : NodeId} {target : String} {child : ThreadId}
    (hbegin : w.beginFork id target = .ok (child, v)) {api : ForkApi}
    (hframe : Framed (v.enterChild child api) last)
    (hstart : Thread.Starts t.threads w.self.thread child)
    (hlead : ∀ i, child ≤ i → i < last.session.threads.size →
      ReflTransGen (Thread.Starts t.threads) child i) (handle : Operand) :
    Ledger t (v.endFork r id api handle last.close) (owed ++ more) := by
  obtain ⟨hchild, -⟩ := beginFork_spec hbegin
  obtain ⟨hthread, -⟩ := endFork_spec hbegin r api handle last.close
  have hsize : (v.endFork r id api handle last.close).session.threads.size =
      last.session.threads.size := size_close last
  have hgrown : child ≤ last.session.threads.size := by
    have hle : v.session.threads.size ≤ last.session.threads.size := hframe.size_le
    rw [beginFork_size hbegin, ← hchild] at hle
    exact Nat.le_of_succ_le hle
  obtain rfl : last.self.thread = child := hframe.thread_eq
  have hdone : ∀ task q, (v.endFork r id api handle last.close).TaskDone t task q ↔
      w.TaskDone t task q ∨ last.TaskDone t task q :=
    fun _ _ => taskDone_endFork hbegin hframe hsound hw handle
  -- Tasks that were done before the child started are before it, those done since are behind it.
  have hbefore : ∀ {task q}, w.TaskDone t task q → task < last.self.thread :=
    fun hq => hchild ▸ hq.2.lt_size hw
  have hbehind : ∀ {task q}, last.TaskDone t task q → last.self.thread < task :=
    fun hq => hlast.lt_of_taskDone ht hq
  constructor
  case chain =>
    rw [hthread]
    exact fun p hp => (List.mem_append.1 hp).elim (h.chain p) (hmore.chain p)
  case there =>
    rw [hsize]
    intro p hp
    rcases List.mem_append.1 hp with hp | hp
    · exact Nat.lt_of_lt_of_le (h.there p hp) (hchild ▸ hgrown)
    · exact (hmore.there p hp).2
  case fork_eq => exact fun p hp => (List.mem_append.1 hp).elim (h.fork_eq p) (hmore.fork_eq p)
  case nodup =>
    rw [List.map_append, List.nodup_append]
    refine ⟨h.nodup, hmore.nodup, fun i hi j hj => ?_⟩
    obtain ⟨p, hp, rfl⟩ := List.mem_map.1 hi
    obtain ⟨p', hp', rfl⟩ := List.mem_map.1 hj
    have hlt : p.child < last.self.thread := hchild ▸ h.there p hp
    exact Nat.ne_of_lt (Nat.lt_of_lt_of_le hlt (hmore.there p' hp').1)
  case open_ =>
    intro p hp q hq
    rcases List.mem_append.1 hp with hp | hp <;> rcases (hdone _ q).1 hq with hq | hq
    · exact h.open_ p hp q hq
    · have hlt : p.child < last.self.thread := hchild ▸ h.there p hp
      exact Nat.lt_asymm hlt (hbehind hq)
    · exact absurd (hbefore hq) (Nat.not_lt.2 (hmore.there p hp).1)
    · exact hmore.open_ p hp q hq
  case located =>
    exact fun task q hq => ((hdone task q).1 hq).elim (h.located task q) (hlast.located task q)
  case unique =>
    intro task q q' hq hq'
    rcases (hdone task q).1 hq with hq | hq <;> rcases (hdone task q').1 hq' with hq' | hq'
    · exact h.unique task q q' hq hq'
    · exact absurd (hbefore hq) (Nat.lt_asymm (hbehind hq'))
    · exact absurd (hbefore hq') (Nat.lt_asymm (hbehind hq))
    · exact hlast.unique task q q' hq hq'
  case complete =>
    intro task hchain hin
    rw [hthread] at hchain
    rw [hsize] at hin
    rw [List.map_append, List.mem_append]
    rcases Nat.lt_or_ge task last.self.thread with hlt | hge
    · rcases h.complete task hchain (hchild ▸ hlt) with howed | ⟨q, hq⟩
      · exact Or.inl (Or.inl howed)
      · exact Or.inr ⟨q, (hdone task q).2 (Or.inl hq)⟩
    · rcases hmore.complete task hchain hge hin with hleft | ⟨q, hq⟩
      · exact Or.inl (Or.inr hleft)
      · exact Or.inr ⟨q, (hdone task q).2 (Or.inr hq)⟩
  case members =>
    intro i task hi hmember hchain hin
    rw [hthread] at hi
    rw [hsize] at hin
    rcases Nat.lt_or_ge i last.self.thread with hlt | hge
    · rcases Nat.lt_or_ge task last.self.thread with hlt' | hge'
      · obtain ⟨q, hq⟩ := h.members i task hi hmember hchain (hchild ▸ hlt')
        exact ⟨q, (hdone task q).2 (Or.inl hq)⟩
      -- A chain from there past the child would go through its parent.
      · obtain ⟨hthrough, -⟩ := ht.chain_through hchain (hlead task hge' hin) hlt
        obtain ⟨p, hip, hp⟩ := TransGen.tail'_iff.1 hthrough
        obtain rfl := hp.1.unique hstart
        have hle := ht.descends_le (ReflTransGen.mono (fun _ _ hab => hab.1) _ _ hip)
        exact absurd hle (Nat.not_le.2 hi)
    · obtain ⟨q, hq⟩ := hmore.members i task hge hmember hchain hin
      exact ⟨q, (hdone task q).2 (Or.inr hq)⟩

end Ledger

/-- What OpenMP programs do keeps the ledger of tasks. -/
theorem Timely.ledger (h : Timely c .openMp w w') (ht : t.WellFormed) (hw : Sound w)
    (hu : w'.Under t) (hl : Ledger t w w.self.pending) : Ledger t w' w'.self.pending := by
  induction h with
  | trans huv hvw ih₁ ih₂ =>
    have hv := hvw.grows.under hu
    exact ih₂ (huv.grows.sound hw) hu (ih₁ hw hv hl)
  | tacit _ htacit =>
    rw [htacit.pending_eq]
    exact hl.neutral (.of_tacit htacit)
  | joinTeam hn hfork hteam hid h =>
    have hpending := (joinCompanion_spec h).2.2.2.2.1
    rw [hpending]
    have hw' := (Grows.joinCompanion (c := c) (r := .openMp) hn hfork h).under hu
    exact hl.neutral (.of_joinTeam hw' hn hfork hteam h)
  | @joinHandle w id n handle hn hjoin hnone _ =>
    have hw' := (Grows.joinHandle (c := c) (r := .openMp) handle hn hjoin).under hu
    have hpending : (w.joinHandle c id handle).self.pending = w.self.pending := by
      rw [Walk.joinHandle]
      split <;> rfl
    rw [hpending]
    exact hl.neutral (.of_joinHandle hw' handle hn hnone)
  | joinPending _ h => exact hl.joinPending h hu
  | @fork w v inner last id n api handle entry target child hn heffect htarget hlimit hbegin hinner
      hlast hfinish _ ihinner ihlast =>
    obtain ⟨hsize, hentered⟩ := hw.startChild hn heffect hbegin
    have hgrows := (hinner.trans hlast).grows
    have hsound : Sound last := hgrows.sound hentered
    have hframe := hgrows.framed
    have hulast : last.Under t := ⟨hu.arena, (preserved_close last).trans hu.threads⟩
    have hledger : Ledger t last last.self.pending :=
      ihlast (hinner.grows.sound hentered) hulast (ihinner hentered (hlast.grows.under hulast)
        (.start ht hsize rfl))
    obtain ⟨hstart, hapi, hfork⟩ :=
      child_of_under hw hn (by simp [Node.forkApi?, heffect]) hbegin hgrows hulast
    have hthread : last.self.thread = child := hframe.thread_eq
    have hlead : ∀ i, child ≤ i → i < last.session.threads.size →
        ReflTransGen (Thread.Starts t.threads) child i := by
      intro i hle hlt
      rw [← hthread] at hle ⊢
      exact ReflTransGen.mono (fun _ _ => hulast.threads.starts) _ _ (hsound.leads_self hle hlt)
    have hleaves : Leaves t w.self.thread last (if api = .ompTask then
        last.self.pending.map indirect ++ [⟨id, last.self.thread, true⟩] else []) := by
      split
      · next htask =>
        subst htask
        subst hthread
        exact hledger.leaves_of_task ht ⟨hstart, hapi⟩ hsound hlead hfork
      · next hother =>
        subst hthread
        refine hledger.leaves_of_other ht hstart (fun htask => ?_) (fun hmember => ?_) hlead
        · exact hother (Option.some.inj (hapi.symm.trans htask))
        · obtain ⟨api', hapi', hmember⟩ := hmember
          cases hapi.symm.trans hapi'
          exact pending_of_finish hinner.grows.framed.spawnedBy_eq hmember hfinish
    have hspawned : last.close.self.spawnedBy = some api := hframe.spawnedBy_eq
    rw [pending_endFork hbegin hspawned]
    exact hl.endFork hledger hleaves ht hw hsound hbegin hframe hstart hlead handle

end Walk

namespace Trace

variable {c : Subject} {t : Trace}

/-- In a trace that is built with the OpenMP runtime, a task that a member of a team leads to
through tasks is completed by exactly one event, in the thread of the member or in a task between
them. -/
theorem existsUnique_completes (hbuild : Trace.build c = .ok t)
    (hruntime : Runtime.ofProgram c.program c.settings.runtime = .openMp) {team task : ThreadId}
    (hmember : t.IsMember team) (hchain : TransGen t.StartsTask team task) :
    (∃! q, ∃ e, t.event? q = some e ∧ t.Completes e task) ∧
      ∀ q e, t.event? q = some e → t.Completes e task →
        ReflTransGen t.StartsTask team q.thread ∧ TransGen t.StartsTask q.thread task := by
  have ht := build_wellFormed hbuild
  obtain ⟨s, w, hthreads, htimely, -, hu, hmain, hsize, hevents⟩ := build_walk hbuild
  rw [hruntime] at htimely
  have hledger : Walk.Ledger t w w.self.pending :=
    htimely.ledger ht (.start hthreads) hu (.start ht (by rw [hthreads]; rfl) rfl)
  have hdone : ∀ q, w.TaskDone t task q ↔ ∃ e, t.event? q = some e ∧ t.Completes e task := by
    intro q
    simp only [Walk.TaskDone, Walk.CompletedAt, hevents]
    exact and_iff_right (spawnApi?_of_chain hchain)
  have hpos : w.self.thread < team := by
    obtain ⟨api, hapi, -⟩ := hmember
    obtain ⟨parent, hstart⟩ := exists_parent hbuild hapi
    exact hmain ▸ Nat.zero_lt_of_lt (ht.starts_lt hstart)
  have hin : task < w.session.threads.size := by
    obtain ⟨_, -, hstart⟩ := TransGen.tail'_iff.1 hchain
    exact hsize ▸ hstart.1.lt_size
  obtain ⟨q, hq⟩ := hledger.members team task hpos hmember hchain hin
  refine ⟨⟨q, (hdone q).1 hq, fun q' hq' => hledger.unique task q' q ((hdone q').2 hq') hq⟩, ?_⟩
  intro q e he hcompletes
  have hlocated := hledger.located task q ((hdone q).2 ⟨e, he, hcompletes⟩)
  refine ⟨?_, hlocated⟩
  have hstarts : ∀ {a b}, TransGen t.StartsTask a b → ReflTransGen (Thread.Starts t.threads) a b :=
    fun h => (TransGen.mono (fun _ _ hab => hab.1) _ _ h).to_reflTransGen
  -- Of two threads on one chain the earlier leads to the later, and nothing leads to a member.
  rcases Nat.lt_trichotomy team q.thread with hlt | heq | hgt
  · exact (ht.chain_through hchain (hstarts hlocated) hlt).1.to_reflTransGen
  · exact heq ▸ .refl
  · have htask := spawnApi?_of_chain (ht.chain_through hlocated (hstarts hchain) hgt).1
    obtain ⟨api, hapi, hmember⟩ := hmember
    cases hapi.symm.trans htask
    cases hmember

end Trace

end DataRace
