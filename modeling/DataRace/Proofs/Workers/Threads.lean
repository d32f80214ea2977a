import DataRace.Proofs.Trace.Frame
import DataRace.Proofs.Workers.Bodies

/-!
# The threads of workers

What the walk of a program makes that starts workers and then joins them.  `Walk.Staffed` says how
far it has come: its events are forks, and each worker that was started has a thread with one event
for each instruction.  Starting one more worker keeps this (`Walk.Staffed.hire`), and the joins only
add events to the main thread, whatever they join.  So every such program has a trace in which the
main thread forks before it joins, and all other threads only access memory
(`Trace.exists_staffed`).
-/

namespace DataRace

/-! ### Accesses -/

/-- A node that makes the access of an instruction. -/
def Node.Carries (p : ValueId) (i : Instruction) (n : Node) : Prop :=
  n.inst = i.id ∧ ∃ type, i.accessOf? p = some type ∧ n.Accesses p type

/-- An event that makes the access of an instruction. -/
def Event.Performs (a : Arena) (p : ValueId) (i : Instruction) (e : Event) : Prop :=
  ∃ n type, a.get? e.node = some n ∧ n.inst = i.id ∧ i.accessOf? p = some type ∧
    n.Accesses p type ∧ e.kind.access? = some type

/-- The events of a thread make the accesses of a body in order. -/
def Event.Perform (a : Arena) (p : ValueId) (body : List Instruction) (events : Array Event) :
    Prop :=
  List.Forall₂ (Event.Performs a p) body events.toList

/-- The accesses are still made when there are more nodes. -/
theorem Event.Perform.mono {a b : Arena} {p : ValueId} {body : List Instruction}
    {events : Array Event} (h : Event.Perform a p body events) (hab : a.Extends b) :
    Event.Perform b p body events :=
  h.imp fun _ _ ⟨n, type, hn, hrest⟩ => ⟨n, type, hab _ n hn, hrest⟩

namespace Walk

variable {c : Subject} {r : Runtime} {ancestry opened : List String} {w : Walk} {p : ValueId}

/-- A node that accesses memory makes an event of that kind. -/
theorem handle_accesses {n : Node} {type : AccessType} (h : n.Accesses p type) (id : NodeId) :
    ∃ kind, kind.access? = some type ∧
      handle c r ancestry opened id n w = .ok (w.record id kind) := by
  cases type with
  | read =>
    obtain ⟨api, v, heffect⟩ := h
    exact ⟨.read, rfl, by rw [handle, heffect]⟩
  | write =>
    obtain ⟨api, v, heffect⟩ := h
    exact ⟨.write, rfl, by rw [handle, heffect]⟩
  | free =>
    obtain ⟨api, heffect⟩ := h
    exact ⟨.free, rfl, by rw [handle, heffect]⟩

variable (c ancestry opened) in
/-- A body of accesses is walked without any change but its events. -/
theorem walk_body {a : Arena} {body : List Instruction} {ids : List NodeId}
    (hlays : a.Lays (Node.Carries p) body ids) (ha : w.session.arena = a)
    (hskip : w.self.skipTo = none) :
    ∃ w' es, walk c .pthread ancestry opened ids w = .ok w' ∧ w'.session = w.session ∧
      w'.self.thread = w.self.thread ∧ w'.self.events.toList = w.self.events.toList ++ es ∧
      List.Forall₂ (Event.Performs a p) body es := by
  induction hlays generalizing w with
  | nil => exact ⟨w, [], by rw [walk], rfl, rfl, (List.append_nil _).symm, .nil⟩
  | @cons i id body ids hfirst _ ih =>
    obtain ⟨n, hn, hinst, type, htype, haccesses⟩ := hfirst
    obtain ⟨kind, hkind, hhandle⟩ := handle_accesses haccesses id
    obtain ⟨w', es, hwalk, hsession, hthread, hevents, hperforms⟩ :=
      ih (w := w.record id kind) ha hskip
    refine ⟨w', ⟨w.self.thread, w.self.events.size, id, kind⟩ :: es, ?_, hsession, hthread, ?_,
      .cons ⟨n, type, hn, hinst, htype, haccesses, hkind⟩ hperforms⟩
    · rw [walk_cons_of_handle (ha ▸ hn) hskip hhandle, hwalk]
    · rw [hevents]
      simp [record, Walker.record]

/-! ### Starting workers -/

/-- A child can be started from a thread of the table, and nothing is looked up for it. -/
theorem exists_beginFork (h : w.self.thread < w.session.threads.size) (id : NodeId) (f : String) :
    ∃ v, w.beginFork id f = .ok (w.session.threads.size, v) ∧
      v.session.summaries = w.session.summaries := by
  have hlt : w.self.thread < (w.session.threads.push (Thread.new w.session.threads.size f
      (some ⟨w.self.thread, w.self.events.size⟩) (some id))).size := by
    rw [Array.size_push]
    exact Nat.lt_succ_of_lt h
  refine ⟨_, Except.bind_eq_ok.2 ⟨_, if_pos hlt, rfl⟩, rfl⟩

/-- How far a walk has come that starts workers: it is in the main thread, all its events are forks,
each worker has a thread that makes its accesses, and no other routine was looked at. -/
structure Staffed (p : ValueId) (workers : List Routine) (w : Walk) : Prop where
  thread : w.self.thread = 0
  skip : w.self.skipTo = none
  forks : ∀ e ∈ w.self.events.toList, e.kind.Forks
  size : w.session.threads.size = workers.length + 1
  perform : ∀ (k : Nat) f, workers[k]? = some f → ∃ th, w.session.threads[k + 1]? = some th ∧
    Event.Perform w.session.arena p f.body th.events
  known : ∀ f : String, f ≠ "main" → f ∉ workers.map Routine.name → w.session.summaries[f]? = none

/-- What is asked of a routine that is started as a worker. -/
structure Employable (c : Subject) (p : ValueId) (f : Routine) : Prop where
  definition : c.program.definition? f.name = if f.body = [] then none else some f
  body : ∀ i ∈ f.body, ∃ type, i.accessOf? p = some type

/-- What the walk of a child does that was started for a worker: it makes the accesses of the body,
adds nodes, and looks at no other routine. -/
structure Works (p : ValueId) (f : Routine) (s : Session) (child : ThreadId) (inner : Walk) :
    Prop where
  thread : inner.self.thread = child
  threads : inner.session.threads = s.threads
  arena : s.arena.Extends inner.session.arena
  known : ∀ g, g ≠ f.name → inner.session.summaries[g]? = s.summaries[g]?
  perform : Event.Perform inner.session.arena p f.body inner.self.events

variable (ancestry) in
/-- The walk of a worker with a body. -/
theorem exists_walk_works (hchain : c.chain = Interface.standard) {f : Routine}
    (hf : Employable c p f) (hne : f.body ≠ []) {s : Session} (hnew : s.summaries[f.name]? = none)
    (child : ThreadId) :
    ∃ nodes s' inner, s.summary c f.name = .ok (nodes, s') ∧
      walk c .pthread (f.name :: ancestry) [f.name] (nodes.getD [])
        ⟨s', Walker.start child (some .pthreadCreate)⟩ = .ok inner ∧ Works p f s child inner := by
  have hdef := hf.definition
  rw [if_neg hne] at hdef
  have hmeans : ∀ i ∈ f.body, ∃ n, i.Means n ∧ Node.Carries p i n := by
    intro i hi
    obtain ⟨type, htype⟩ := hf.body i hi
    obtain ⟨n, hn, haccesses⟩ := Instruction.means_of_accessOf? htype
    exact ⟨n, hn, hn.inst, type, htype, haccesses⟩
  obtain ⟨d, ids, hclassify, hnodes, hextends, hlays⟩ :=
    Draft.exists_classifyAll (f := fun i => i) hmeans c.program c.settings ⟨s.arena, []⟩
  rw [List.map_id', ← hchain] at hclassify
  obtain ⟨s', hs'⟩ : ∃ s' : Session, s' = { s with
      arena := d.arena, summaries := s.summaries.insert f.name d.nodes } := ⟨_, rfl⟩
  have harena : s'.arena = d.arena := congrArg Session.arena hs'
  obtain ⟨inner, es, hwalk, hsession, hthread, hevents, hperforms⟩ :=
    walk_body c (f.name :: ancestry) [f.name]
      (w := ⟨s', Walker.start child (some .pthreadCreate)⟩) hlays harena rfl
  have hids : d.nodes = ids := hnodes
  refine ⟨some d.nodes, s', inner, hs' ▸ Session.summary_of_classifyAll hnew hdef hclassify,
    hids ▸ hwalk, hthread, ?_, ?_, fun g hg => ?_, ?_⟩
  · rw [hsession, hs']
  · rw [hsession, hs']
    exact hextends
  · rw [hsession, hs']
    exact Std.HashMap.getElem?_insert.trans (if_neg (by simpa using hg.symm))
  · rw [Event.Perform, hsession, harena, hevents]
    exact hperforms

variable (opened) in
/-- The child that is started for a worker, whether it has a body or not. -/
theorem exists_child (hchain : c.chain = Interface.standard) {f : Routine} (hf : Employable c p f)
    {v : Walk} {child : ThreadId} {id : NodeId} (operand : Operand) (hentry : f.name ∉ ancestry)
    (hlimit : w.session.threads.size < c.settings.maxThreads)
    (hbegin : w.beginFork id f.name = .ok (child, v))
    (hnew : v.session.summaries[f.name]? = none) :
    ∃ inner : Walk,
      forkAll c .pthread ancestry opened id .pthreadCreate operand [f.name] w =
        .ok (v.endFork .pthread id .pthreadCreate operand inner.close) ∧
      Works p f v.session child inner := by
  have hfinish : ∀ inner : Walk, inner.finish .pthread = .ok inner.close := fun inner =>
    finish_eq_ok.2 ⟨inner, rfl, rfl⟩
  have hend : ∀ v, forkAll c .pthread ancestry opened id .pthreadCreate operand [] v = .ok v :=
    fun v => by rw [forkAll]
  have hdef := hf.definition
  by_cases hempty : f.body = []
  · rw [if_pos hempty] at hdef
    refine ⟨v.enterChild child .pthreadCreate, ?_, rfl, rfl, .refl _, fun _ _ => rfl, ?_⟩
    · rw [forkAll_cons_of_none hentry hlimit hbegin hdef, hfinish]
      exact hend _
    · rw [hempty]
      exact .nil
  · rw [if_neg hempty] at hdef
    obtain ⟨nodes, s, inner, hsummary, hwalk, hworks⟩ :=
      exists_walk_works ancestry hchain hf hempty hnew child
    refine ⟨inner, ?_, hworks⟩
    rw [forkAll_cons_of_walk hentry hlimit hbegin hdef hsummary hwalk (hfinish _), hend]

/-- A fork whose child works for a new worker. -/
theorem Staffed.concat {workers : List Routine} (h : Staffed p workers w) {f : Routine}
    {id : NodeId} {v inner : Walk} (operand : Operand)
    (hbegin : (w.meetFork id).beginFork id f.name = .ok (workers.length + 1, v))
    (hsummaries : v.session.summaries = w.session.summaries)
    (hworks : Works p f v.session (workers.length + 1) inner) :
    Staffed p (workers ++ [f]) (v.endFork .pthread id .pthreadCreate operand inner.close) ∧
      w.session.arena.Extends inner.session.arena := by
  have hmeet : (w.meetFork id).session.threads.size = workers.length + 1 := h.size
  have hself : (w.meetFork id).self.thread = 0 := h.thread
  obtain ⟨-, harena, -, -⟩ := beginFork_spec hbegin
  obtain ⟨hthread, hevents, hskip, -⟩ :=
    endFork_spec hbegin .pthread .pthreadCreate operand inner.close
  have hextends : w.session.arena.Extends inner.session.arena := harena ▸ hworks.arena
  refine ⟨⟨hthread.trans hself, hskip.trans h.skip, ?_, ?_, ?_, ?_⟩, hextends⟩
  · intro e he
    rw [hevents, Array.toList_push] at he
    rcases List.mem_append.1 he with he | he
    · exact h.forks e he
    · rw [List.mem_singleton.1 he]
      exact ⟨_, rfl⟩
  · rw [List.length_append, List.length_singleton, ← hmeet, ← beginFork_size hbegin,
      ← hworks.threads]
    exact size_close inner
  · intro k g hg
    have hclosed := close_getElem? inner (k + 1)
    rw [hworks.thread, hworks.threads, beginFork_getElem? hbegin, hself, hmeet,
      if_neg (Nat.succ_ne_zero k)] at hclosed
    rw [List.getElem?_append] at hg
    split at hg
    · next hlt =>
      have hne : k + 1 ≠ workers.length + 1 := by omega
      obtain ⟨th, hth, hth'⟩ := h.perform k g hg
      rw [if_neg hne, if_neg hne] at hclosed
      exact ⟨th, hclosed.trans hth, hth'.mono hextends⟩
    · next hge =>
      have hzero := (List.getElem?_eq_some_iff.1 hg).1
      rw [List.length_singleton] at hzero
      obtain rfl : k = workers.length := by omega
      obtain rfl : f = g := by simpa using hg
      rw [if_pos rfl, if_pos rfl, Option.map_some] at hclosed
      exact ⟨_, hclosed, hworks.perform⟩
  · intro g hg hg'
    rw [List.map_append, List.mem_append, not_or] at hg'
    have hne : g ≠ f.name := fun heq => hg'.2 (by rw [heq]; exact List.mem_cons_self)
    exact ((hworks.known g hne).trans (by rw [hsummaries])).trans (h.known g hg hg'.1)

/-- Starting one more worker. -/
theorem Staffed.hire {workers : List Routine} (h : Staffed p workers w)
    (hchain : c.chain = Interface.standard) {f : Routine} (hf : Employable c p f)
    (hmain : f.name ≠ "main") (hnew : f.name ∉ workers.map Routine.name)
    (hlimit : workers.length + 1 < c.settings.maxThreads) {n : Node} (hn : n.Starts f.name)
    (id : NodeId) :
    ∃ w', handle c .pthread ["main"] ["main"] id n w = .ok w' ∧
      Staffed p (workers ++ [f]) w' ∧ w.session.arena.Extends w'.session.arena := by
  obtain ⟨operand, heffect⟩ := hn
  have hmeet : (w.meetFork id).session.threads.size = workers.length + 1 := h.size
  have hself : (w.meetFork id).self.thread = 0 := h.thread
  obtain ⟨v, hbegin, hsummaries⟩ := exists_beginFork (w := w.meetFork id)
    (by rw [hmeet, hself]; exact Nat.succ_pos _) id f.name
  rw [hmeet] at hbegin
  have hentry : f.name ∉ ["main"] := by simpa using hmain
  obtain ⟨inner, hfork, hworks⟩ :=
    exists_child ["main"] hchain hf operand hentry (hmeet ▸ hlimit) hbegin
      (hsummaries ▸ h.known f.name hmain hnew)
  obtain ⟨hstaffed, hextends⟩ := h.concat operand hbegin hsummaries hworks
  exact ⟨_, by rw [handle, heffect]; exact hfork, hstaffed, hextends⟩

/-- Starting all workers of a list, one after the other. -/
theorem Staffed.hireAll {a : Arena} {workers : List Worker} {ids : List NodeId}
    (hlays : a.Lays (fun x n => Node.Starts n x.routine.name) workers ids)
    (hchain : c.chain = Interface.standard) {hired : List Routine} (h : Staffed p hired w)
    (ha : a.Extends w.session.arena)
    (hworkers : ∀ x ∈ workers, Employable c p x.routine ∧ x.routine.name ≠ "main")
    (hnodup : (hired.map Routine.name ++ workers.map fun x => x.routine.name).Nodup)
    (hlimit : hired.length + workers.length < c.settings.maxThreads) (more : List NodeId) :
    ∃ w', walk c .pthread ["main"] ["main"] (ids ++ more) w =
        walk c .pthread ["main"] ["main"] more w' ∧
      Staffed p (hired ++ workers.map Worker.routine) w' ∧
      w.session.arena.Extends w'.session.arena := by
  induction hlays generalizing w hired with
  | nil => exact ⟨w, rfl, by simpa using h, .refl _⟩
  | @cons x id workers ids hfirst _ ih =>
    obtain ⟨n, hn, hstarts⟩ := hfirst
    obtain ⟨hf, hmain⟩ := hworkers x List.mem_cons_self
    rw [List.length_cons] at hlimit
    have hnew : x.routine.name ∉ hired.map Routine.name := by
      intro hmem
      rw [List.nodup_append] at hnodup
      exact hnodup.2.2 _ hmem _ List.mem_cons_self rfl
    obtain ⟨v, hhandle, hv, hextends⟩ :=
      h.hire hchain hf hmain hnew (by omega) hstarts id
    obtain ⟨w', hwalk, hw', hextends'⟩ := ih hv (ha.trans hextends)
      (fun y hy => hworkers y (List.mem_cons_of_mem _ hy)) (by simpa using hnodup)
      (by simpa [Nat.add_assoc, Nat.add_comm 1] using hlimit)
    refine ⟨w', ?_, by simpa using hw', hextends.trans hextends'⟩
    rw [List.cons_append, walk_cons_of_handle (ha _ _ hn) h.skip hhandle, hwalk]

/-! ### Joining them -/

/-- A join by a handle makes one join event, of whatever thread. -/
theorem joinHandle_spec (c : Subject) (w : Walk) (id : NodeId) (operand : Operand) :
    ∃ child, (w.joinHandle c id operand).session = w.session ∧
      (w.joinHandle c id operand).self.thread = w.self.thread ∧
      (w.joinHandle c id operand).self.skipTo = w.self.skipTo ∧
      (w.joinHandle c id operand).self.events =
        w.self.events.push ⟨w.self.thread, w.self.events.size, id, .join child⟩ := by
  unfold joinHandle
  split
  · exact ⟨_, rfl, rfl, rfl, rfl⟩
  · exact ⟨_, rfl, rfl, rfl, rfl⟩

variable (c ancestry opened) in
/-- A list of joins is walked without any change to the session. -/
theorem walk_joins {a : Arena} {joins : List Instruction} {ids : List NodeId}
    (hlays : a.Lays (fun _ n => Node.Awaits n) joins ids) (ha : w.session.arena = a)
    (hskip : w.self.skipTo = none) :
    ∃ w' es, walk c .pthread ancestry opened ids w = .ok w' ∧ w'.session = w.session ∧
      w'.self.thread = w.self.thread ∧ w'.self.events.toList = w.self.events.toList ++ es ∧
      ∀ e ∈ es, ∃ child, e.kind = .join child := by
  induction hlays generalizing w with
  | nil => exact ⟨w, [], by rw [walk], rfl, rfl, (List.append_nil _).symm, nofun⟩
  | @cons i id joins ids hfirst _ ih =>
    obtain ⟨n, hn, operand, heffect⟩ := hfirst
    have hhandle : handle c .pthread ancestry opened id n w = .ok (w.joinHandle c id operand) := by
      rw [handle, heffect]
    obtain ⟨child, hsession, hthread, hskip', hevents⟩ := joinHandle_spec c w id operand
    obtain ⟨w', es, hwalk, hsession', hthread', hevents', hes⟩ :=
      ih (w := w.joinHandle c id operand) (hsession ▸ ha) (hskip'.trans hskip)
    refine ⟨w', ⟨w.self.thread, w.self.events.size, id, .join child⟩ :: es, ?_,
      hsession'.trans hsession, hthread'.trans hthread, ?_, ?_⟩
    · rw [walk_cons_of_handle (ha ▸ hn) hskip hhandle, hwalk]
    · rw [hevents', hevents]
      simp
    · intro e he
      rcases List.mem_cons.1 he with rfl | he
      · exact ⟨child, rfl⟩
      · exact hes e he

end Walk

/-! ### The trace -/

namespace Program.Employs

variable {program : Program} {p : ValueId} {workers : List Worker} {joins : List Instruction}

/-- The names of the routines are different. -/
theorem nodup_names (h : program.Employs p workers joins) :
    ("main" :: workers.map fun x => x.routine.name).Nodup := by
  obtain ⟨name, routines, haccepted, hperm⟩ := h.accepted
  have hnodup := (hperm.map Routine.name).nodup_iff.1 (Program.nodup_names haccepted)
  simpa [Worker.main, Function.comp_def] using hnodup

/-- The main routine is found. -/
theorem routine?_main (h : program.Employs p workers joins) :
    program.routine? "main" = some (Worker.main workers joins) := by
  obtain ⟨name, routines, haccepted, hperm⟩ := h.accepted
  exact routine?_of_mem haccepted (hperm.mem_iff.2 List.mem_cons_self)

/-- Every worker can be started. -/
theorem employable (h : program.Employs p workers joins) {x : Worker} (hx : x ∈ workers)
    {c : Subject} (hc : c.program = program) : Walk.Employable c p x.routine := by
  obtain ⟨name, routines, haccepted, hperm⟩ := h.accepted
  refine ⟨?_, (h.uses x hx).body⟩
  rw [hc]
  exact definition?_of_mem haccepted
    (hperm.mem_iff.2 (List.mem_cons_of_mem _ (List.mem_map_of_mem hx)))

/-- The joins of the main routine are the calls that join the workers. -/
theorem exists_join (h : program.Employs p workers joins) {i : Instruction} (hi : i ∈ joins) :
    ∃ x ∈ workers, x.join = i :=
  List.mem_map.1 (h.joins.mem_iff.1 hi)

/-- The program only calls routines that release, start or join. -/
theorem mem_directCallees (h : program.Employs p workers joins) {f : String}
    (hf : f ∈ program.directCallees) : f ∈ "pthread_create" :: "pthread_join" :: releases := by
  obtain ⟨name, routines, haccepted, hperm⟩ := h.accepted
  obtain ⟨-, rfl⟩ := ofRoutines_eq_ok.1 haccepted
  obtain ⟨r, hr, hbody⟩ := List.mem_flatMap.1 hf
  obtain ⟨i, hi, hcallee⟩ := List.mem_filterMap.1 hbody
  rcases List.mem_cons.1 (hperm.mem_iff.1 hr) with rfl | hr
  · rcases List.mem_append.1 hi with hi | hi
    · obtain ⟨x, hx, rfl⟩ := List.mem_map.1 hi
      obtain ⟨attr, rest, haction⟩ := (h.uses x hx).create
      rw [Instruction.calleeName?, haction] at hcallee
      cases hcallee
      exact List.mem_cons_self
    · obtain ⟨x, hx, rfl⟩ := h.exists_join hi
      obtain ⟨rest, haction⟩ := (h.uses x hx).join
      rw [Instruction.calleeName?, haction] at hcallee
      cases hcallee
      exact List.mem_cons_of_mem _ List.mem_cons_self
  · obtain ⟨x, hx, rfl⟩ := List.mem_map.1 hr
    obtain ⟨type, htype⟩ := (h.uses x hx).body i hi
    exact List.mem_cons_of_mem _ (List.mem_cons_of_mem _ (Instruction.mem_releases htype hcallee))

/-- Nothing in the program points to another runtime. -/
theorem ofProgram_eq (h : program.Employs p workers joins) :
    Runtime.ofProgram program .auto = .pthread := by
  have hplain : ∀ f ∈ "pthread_create" :: "pthread_join" :: releases,
      Meaning.isLaunch f = false ∧ f.startsWith "__kmpc_fork" = false := by
    decide +kernel
  have hlaunch : ¬ program.directCallees.any Meaning.isLaunch = true := by
    rw [List.any_eq_true]
    rintro ⟨f, hf, hlaunch⟩
    simp [(hplain f (h.mem_directCallees hf)).1] at hlaunch
  have hfork : ¬ (program.directCallees.any fun f => f.startsWith "__kmpc_fork") = true := by
    rw [List.any_eq_true]
    rintro ⟨f, hf, hfork⟩
    rw [(hplain f (h.mem_directCallees hf)).2] at hfork
    cases hfork
  unfold Runtime.ofProgram
  dsimp only
  rw [if_neg hlaunch, if_neg hfork]

end Program.Employs

/-- A trace of a program that starts its workers before it joins any: the main thread forks before
it joins, and the other threads are the workers in order, each with one event for each
instruction. -/
structure Trace.Staffed (t : Trace) (p : ValueId) (workers : List Routine) : Prop where
  size : t.threads.size = workers.length + 1
  main : ∃ th forks joins, t.threads[0]? = some th ∧ th.events.toList = forks ++ joins ∧
    (∀ e ∈ forks, e.kind.Forks) ∧ ∀ e ∈ joins, ∃ child, e.kind = .join child
  perform : ∀ (k : Nat) f, workers[k]? = some f → ∃ th, t.threads[k + 1]? = some th ∧
    Event.Perform t.arena p f.body th.events

namespace Program.Employs

variable {program : Program} {p : ValueId} {workers : List Worker} {joins : List Instruction}

/-- The nodes of the main routine: those that start the workers, then those that join them. -/
theorem exists_classifyAll_main (h : program.Employs p workers joins) (s : Settings) :
    ∃ d ids ids', Draft.classifyAll program s Interface.standard ⟨.empty, []⟩
        (Worker.main workers joins).body = .ok d ∧ d.nodes = ids ++ ids' ∧
      d.arena.Lays (fun x n => Node.Starts n x.routine.name) workers ids ∧
      d.arena.Lays (fun _ n => Node.Awaits n) joins ids' := by
  obtain ⟨d, ids, hd, hids, -, hlays⟩ := Draft.exists_classifyAll (f := Worker.create)
    (fun x hx => Instruction.means_of_create (h.uses x hx)) program s ⟨.empty, []⟩
  have hjoins : ∀ i ∈ joins, ∃ n, i.Means n ∧ Node.Awaits n := by
    intro i hi
    obtain ⟨x, hx, rfl⟩ := h.exists_join hi
    exact Instruction.means_of_join (h.uses x hx)
  obtain ⟨d', ids', hd', hids', hextends, hlays'⟩ :=
    Draft.exists_classifyAll (f := fun i => i) (R := fun _ n => Node.Awaits n) hjoins program s d
  rw [List.map_id'] at hd'
  refine ⟨d', ids, ids', ?_, by rw [hids', hids, List.nil_append], hlays.mono hextends, hlays'⟩
  rw [Draft.classifyAll, Worker.main, List.foldlM_append, ← Draft.classifyAll, hd]
  exact hd'

/-- The main routine is looked at first, when there is one thread and no node. -/
theorem exists_summary_main (h : program.Employs p workers joins) (hne : workers ≠ [])
    {c : Subject} (hc : c.program = program) (hchain : c.chain = Interface.standard) :
    ∃ ids ids' s, Session.summary c { Session.empty with
          threads := #[Thread.new 0 "main" none none] } "main" = .ok (some (ids ++ ids'), s) ∧
      s.arena.Lays (fun x n => Node.Starts n x.routine.name) workers ids ∧
      s.arena.Lays (fun _ n => Node.Awaits n) joins ids' ∧
      Walk.Staffed p [] ⟨s, Walker.start 0 none⟩ := by
  obtain ⟨d, ids, ids', hd, hids, hlays, hlays'⟩ := h.exists_classifyAll_main c.settings
  have hdef : c.program.definition? "main" = some (Worker.main workers joins) := by
    rw [Program.definition?, hc, h.routine?_main]
    cases workers with
    | nil => exact absurd rfl hne
    | cons x workers => rfl
  have hclassify : Draft.classifyAll c.program c.settings c.chain ⟨.empty, []⟩
      (Worker.main workers joins).body = .ok d := by
    rw [hc, hchain]
    exact hd
  refine ⟨ids, ids', _,
    hids ▸ Session.summary_of_classifyAll Std.HashMap.getElem?_empty hdef hclassify, hlays, hlays',
    rfl, rfl, fun e he => absurd he List.not_mem_nil, rfl, fun k f hf => ?_, fun f hf _ => ?_⟩
  · cases hf
  · exact Std.HashMap.getElem?_insert.trans
      ((if_neg (by simpa using Ne.symm hf)).trans Std.HashMap.getElem?_empty)

end Program.Employs

/-- The trace of a main thread that has started all workers and then only joins. -/
theorem Walk.Staffed.trace {p : ValueId} {workers : List Routine} {w w' : Walk}
    (h : w.Staffed p workers) (hsession : w'.session = w.session)
    (hthread : w'.self.thread = w.self.thread) {es : List Event}
    (hevents : w'.self.events.toList = w.self.events.toList ++ es)
    (hes : ∀ e ∈ es, ∃ child, e.kind = .join child) (program : Program) (pointsTo : PointsTo) :
    Trace.Staffed ⟨w'.close.session.threads, w'.close.session.arena, program, pointsTo⟩ p
      workers := by
  have hmain : w'.self.thread = 0 := hthread.trans h.thread
  obtain ⟨th, hth⟩ : ∃ th, w'.session.threads[0]? = some th :=
    ⟨_, Array.getElem?_eq_getElem (by rw [hsession, h.size]; exact Nat.succ_pos _)⟩
  refine ⟨(Walk.size_close w').trans (hsession ▸ h.size), ⟨{ th with events := w'.self.events },
    w.self.events.toList, es, ?_, hevents, h.forks, hes⟩, fun k f hf => ?_⟩
  · exact (Walk.close_getElem? w' 0).trans (by rw [hmain, if_pos rfl, hth]; rfl)
  · obtain ⟨th', hth', hperform⟩ := h.perform k f hf
    refine ⟨th', (Walk.close_getElem? w' (k + 1)).trans ?_, ?_⟩
    · rw [hmain, if_neg (Nat.succ_ne_zero k), hsession, hth']
    · change Event.Perform w'.session.arena p f.body th'.events
      rw [hsession]
      exact hperform

/-- The walk of the main thread starts all workers and makes all joins. -/
theorem Program.Employs.exists_walkMain {program : Program} {p : ValueId} {workers : List Worker}
    {joins : List Instruction} (h : program.Employs p workers joins) (hne : workers ≠ [])
    {c : Subject} (hc : c.program = program) (hchain : c.chain = Interface.standard)
    (hlimit : workers.length < c.settings.maxThreads) :
    ∃ s, Trace.walkMain c .pthread "main" = .ok s ∧
      Trace.Staffed ⟨s.threads, s.arena, program, c.pointsTo⟩ p (workers.map Worker.routine) := by
  obtain ⟨ids, ids', s, hsummary, hlays, hlays', hfirst⟩ := h.exists_summary_main hne hc hchain
  have hnodup := List.nodup_cons.1 h.nodup_names
  obtain ⟨w, hwalk, hw, hextends⟩ := hfirst.hireAll hlays hchain (.refl _)
    (fun x hx => ⟨h.employable hx hc, fun heq => hnodup.1 (List.mem_map.2 ⟨x, hx, heq⟩)⟩)
    (by simpa using hnodup.2) (by simpa using hlimit) ids'
  obtain ⟨w', es, hwalk', hsession, hthread, hevents, hes⟩ :=
    Walk.walk_joins c ["main"] ["main"] (hlays'.mono hextends) rfl hw.skip
  refine ⟨w'.close.session, ?_, hw.trace hsession hthread hevents hes program c.pointsTo⟩
  refine Except.bind_eq_ok.2 ⟨_, rfl, Except.bind_eq_ok.2 ⟨_, hsummary,
    Except.bind_eq_ok.2 ⟨w', hwalk.trans hwalk', Except.bind_eq_ok.2 ⟨w'.close, ?_, rfl⟩⟩⟩⟩
  exact Walk.finish_eq_ok.2 ⟨w', rfl, rfl⟩

/-- A program with workers has a trace. -/
theorem Trace.exists_staffed {program : Program} {p : ValueId} {workers : List Worker}
    {joins : List Instruction} (h : program.Employs p workers joins) (hne : workers ≠ [])
    (pointsTo : PointsTo) {s : Settings} (hentry : s.entry = "main") (hruntime : s.runtime = .auto)
    (hlimit : workers.length < s.maxThreads) :
    ∃ t, Trace.build ⟨program, pointsTo, s, Interface.standard⟩ = .ok t ∧
      t.Staffed p (workers.map Worker.routine) ∧ t.pointsTo = pointsTo := by
  obtain ⟨session, hwalk, hstaffed⟩ :=
    h.exists_walkMain hne (c := ⟨program, pointsTo, s, Interface.standard⟩) rfl rfl hlimit
  have hbody : (Worker.main workers joins).isDeclaration = false := by
    cases workers with
    | nil => exact absurd rfl hne
    | cons x workers => rfl
  refine ⟨_, ?_, hstaffed, rfl⟩
  rw [build]
  simp only [hentry, h.routine?_main, hbody, hruntime, h.ofProgram_eq, hwalk]
  rfl

end DataRace
