import DataRace.Proofs.Trace.Walk

/-!
# How deep builds go

The functions that build a trace call each other, and Lean accepts them because a measure goes down.
Here they are written again without it: a loop goes over its list, and whatever enters a routine,
whether a call, the start of a thread or a question about effects on threads, goes one level deeper.
A run that is at level zero is cut off (`Cut`), so `Trace.buildTo` needs no measure, and is cut off
for every depth if the build does not end.

It is not cut off at depth `(n + 1) * (n + 2)` or beyond, where `n` is the number of names of the
program, and then answers what `Trace.build` answers (`Trace.buildTo_eq`).  A call leaves one name
less that is not open; a thread leaves one name less that does not lead to it, but opens all others
again; and a question about effects opens every name once.
-/

namespace DataRace

/-- An answer or a fault, or neither if the computation was cut off. -/
abbrev Cut (α : Type) := ExceptT Fault Option α

namespace Cut

variable {α β : Type}

/-- A computation that is cut off. -/
def off : Cut α := ExceptT.mk none

/-- A computation that is not cut off. -/
def whole (x : Except Fault α) : Cut α := ExceptT.mk (some x)

/-- Computations that are not cut off, one after the other. -/
theorem whole_bind (x : Except Fault α) (f : α → Except Fault β) :
    (whole x >>= fun a => whole (f a)) = whole (x >>= f) := by
  cases x <;> rfl

/-- What comes after a computation that is not cut off only matters where it has an answer. -/
theorem bind_congr {x : Except Fault α} {f : α → Cut β} {g : α → Except Fault β}
    (h : ∀ a, x = .ok a → f a = whole (g a)) : whole x >>= f = whole (x >>= g) := by
  cases x with
  | error e => rfl
  | ok a => exact h a rfl

end Cut

open Cut

namespace Session

/-- Whether one of several routines concerns other threads, as they are explored one by one. -/
def exploreAnyWith (explore : String → Session → Cut (Bool × Session)) :
    List String → Session → Cut (Bool × Session)
  | [], s => pure (false, s)
  | f :: fs, s => do
    let (answer, s) ← explore f s
    if answer then pure (true, s) else exploreAnyWith explore fs s

/-- Whether a routine concerns other threads, explored down to a depth. -/
def exploreTo (c : Subject) : Nat → List String → String → Session → Cut (Bool × Session)
  | 0, _, _, _ => off
  | depth + 1, path, f, s =>
    match s.effects[f]? with
    | some known => pure (known, s)
    | none =>
      if f ∈ path then pure (false, s)
      else
        match c.program.definition? f with
        | none => pure (false, { s with effects := s.effects.insert f false })
        | some _ => do
          let (ids, s) ← whole (s.summary c f)
          let nodes := s.nodesAt (ids.getD [])
          let (answer, s) ←
            if nodes.any concernsThreads then pure (true, s)
            else exploreAnyWith (exploreTo c depth (f :: path)) (calledBy c nodes) s
          pure (answer, { s with effects := s.effects.insert f answer })

variable {c : Subject}

/-- Exploring several routines is not cut off if exploring each is not. -/
theorem exploreAnyWith_eq {explore : String → Session → Cut (Bool × Session)} {path : List String}
    (h : ∀ f s, explore f s = whole (Session.explore c path f s)) (fs : List String) (s : Session) :
    exploreAnyWith explore fs s = whole (exploreAny c path fs s) := by
  induction fs generalizing s with
  | nil =>
    rw [exploreAnyWith, exploreAny]
    rfl
  | cons f fs ih =>
    rw [exploreAnyWith, exploreAny, h]
    refine bind_congr ?_
    rintro ⟨answer, s'⟩ -
    cases answer with
    | true => rfl
    | false => exact ih s'

/-- Exploring is not cut off below the number of names that are not on the path. -/
theorem exploreTo_eq {depth : Nat} {path : List String} (h : c.unseen path < depth) (f : String)
    (s : Session) : exploreTo c depth path f s = whole (explore c path f s) := by
  induction depth generalizing path f s with
  | zero => exact absurd h (Nat.not_lt_zero _)
  | succ depth ih =>
    rw [exploreTo, explore]
    cases s.effects[f]? with
    | some known => rfl
    | none =>
      dsimp only
      by_cases hpath : f ∈ path
      · rw [if_pos hpath, dif_pos hpath]
        rfl
      · rw [if_neg hpath, dif_neg hpath]
        split
        · next hdef =>
          split
          · rfl
          · next hsome =>
            rw [hdef] at hsome
            cases hsome
        · next hdef =>
          have hless := c.unseen_cons_lt hdef hpath
          split
          · next hnone =>
            rw [hdef] at hnone
            cases hnone
          · refine bind_congr ?_
            rintro ⟨ids, s'⟩ -
            dsimp only
            split
            · rfl
            · rw [exploreAnyWith_eq fun f s => ih (by omega) f s]
              exact whole_bind _ _

end Session

namespace Walk

/-- Whether a call is repeated, with effects on threads explored down to a depth. -/
def isRepeatedTo (c : Subject) (depth : Nat) (w : Walk) (target : String) (args : List Operand) :
    Cut (Bool × Walk) :=
  if c.settings.dedupCalls then do
    let (effects, session) ← Session.exploreTo c depth [] target w.session
    let w := { w with session }
    if effects then pure (false, w)
    else if w.self.expanded.contains (target, args) then pure (true, w)
    else
      pure (false, { w with self := { w.self with expanded := (target, args) :: w.self.expanded } })
  else pure (false, w)

/-- Walks each of the routines that a call may reach, where `enter` walks what is called. -/
def callAllWith (c : Subject) (depth : Nat)
    (enter : List String → List NodeId → Walk → Cut Walk) (opened : List String) (id : NodeId)
    (args : List Operand) : List String → Walk → Cut Walk
  | [], w => pure w
  | target :: targets, w => do
    let (nodes, session) ← whole (w.session.summary c target)
    let w : Walk := { w with session }
    if (c.program.definition? target).isNone ∨ target ∈ opened then
      callAllWith c depth enter opened id args targets w
    else
      let (repeated, w) ← w.isRepeatedTo c depth target args
      if repeated then callAllWith c depth enter opened id args targets w
      else
        let w ← enter (target :: opened) (nodes.getD []) (w.record id .call)
        callAllWith c depth enter opened id args targets (w.record id .return)

/-- Walks the child of a fork to its end, where `enter` walks what it runs. -/
def childWith (c : Subject) (r : Runtime)
    (enter : List String → List String → List NodeId → Walk → Cut Walk) (ancestry : List String)
    (entry : String) (inner : Walk) : Cut Walk := do
  let inner ←
    match c.program.definition? entry with
    | none => pure inner
    | some _ =>
      let (nodes, session) ← whole (inner.session.summary c entry)
      enter (entry :: ancestry) [entry] (nodes.getD []) { inner with session }
  whole (inner.finish r)

/-- Starts and walks one child for each entry, where `enter` walks what the children run. -/
def forkAllWith (c : Subject) (r : Runtime)
    (enter : List String → List String → List NodeId → Walk → Cut Walk) (ancestry : List String)
    (id : NodeId) (api : ForkApi) (handle : Operand) : List String → Walk → Cut Walk
  | [], w => pure w
  | entry :: entries, w =>
    if entry ∈ ancestry ∨ w.session.threads.size ≥ c.settings.maxThreads then
      forkAllWith c r enter ancestry id api handle entries w
    else do
      let (child, w) ← whole (w.beginFork id entry)
      let inner ← childWith c r enter ancestry entry (w.enterChild child api)
      forkAllWith c r enter ancestry id api handle entries (w.endFork r id api handle inner)

/-- What a node does by itself, where `enter` walks what is called or started. -/
def handleWith (c : Subject) (r : Runtime) (depth : Nat)
    (enter : List String → List String → List NodeId → Walk → Cut Walk)
    (ancestry opened : List String) (id : NodeId) (node : Node) (w : Walk) : Cut Walk :=
  match node.effect with
  | .fork api handle entry =>
    forkAllWith c r enter ancestry id api handle (c.entryTargets entry) (w.meetFork id)
  | .call api callee args =>
    if api.isRuntime then pure w
    else callAllWith c depth (enter ancestry) opened id args (c.callTargets callee) w
  | .read .. => pure (w.record id .read)
  | .write .. => pure (w.record id .write)
  | .free .. => pure (w.record id .free)
  | .lock .. => pure (w.record id .lock)
  | .unlock .. => pure (w.record id .unlock)
  | .barrier .. => pure (w.record id .barrier)
  | .join _ _ (some fork) => whole (w.joinCompanion id node fork)
  | .join _ handle none => pure (w.joinHandle c id handle)

/-- Walks the nodes of a routine, where `enter` walks what is called or started. -/
def walkWith (c : Subject) (r : Runtime) (depth : Nat)
    (enter : List String → List String → List NodeId → Walk → Cut Walk)
    (ancestry opened : List String) : List NodeId → Walk → Cut Walk
  | [], w => pure w
  | id :: rest, w => do
    let node ← whole (w.session.arena.get id)
    if w.isSkipped node then walkWith c r depth enter ancestry opened rest w
    else
      let (open?, w) ← whole (r.visit w.reach node opened.head? rest)
      let w ← if open? then handleWith c r depth enter ancestry opened id node w else pure w
      walkWith c r depth enter ancestry opened rest w

/-- Walks the nodes of a routine down to a depth. -/
def walkTo (c : Subject) (r : Runtime) :
    Nat → List String → List String → List NodeId → Walk → Cut Walk
  | 0, _, _, _, _ => off
  | depth + 1, ancestry, opened, nodes, w =>
    walkWith c r depth (walkTo c r depth) ancestry opened nodes w

variable {c : Subject} {r : Runtime} {depth : Nat} {ancestry opened : List String}

/-- Whether a call is repeated is found out at any depth beyond the number of names. -/
theorem isRepeatedTo_eq (h : c.unseen [] < depth) (w : Walk) (target : String)
    (args : List Operand) :
    w.isRepeatedTo c depth target args = whole (w.isRepeated c target args) := by
  rw [isRepeatedTo, isRepeated]
  split
  · rw [Session.exploreTo_eq h]
    refine bind_congr ?_
    rintro ⟨effects, session⟩ -
    simp only [List.contains_iff_mem]
    split
    · rfl
    · split
      · rfl
      · rfl
  · rfl

section

variable {enter : List String → List String → List NodeId → Walk → Cut Walk}
  (hasks : c.unseen [] < depth)
  (hcall : ∀ target routine, c.program.definition? target = some routine → target ∉ opened →
    ∀ nodes w, enter ancestry (target :: opened) nodes w =
      whole (walk c r ancestry (target :: opened) nodes w))
  (hfork : ∀ entry routine, c.program.definition? entry = some routine → entry ∉ ancestry →
    ∀ nodes w, enter (entry :: ancestry) [entry] nodes w =
      whole (walk c r (entry :: ancestry) [entry] nodes w))

include hasks hcall

/-- A call is not cut off if nothing is that it enters. -/
theorem callAllWith_eq (id : NodeId) (args : List Operand) (targets : List String) (w : Walk) :
    callAllWith c depth (enter ancestry) opened id args targets w =
      whole (callAll c r ancestry opened id args targets w) := by
  induction targets generalizing w with
  | nil =>
    rw [callAllWith, callAll]
    rfl
  | cons target targets ih =>
    rw [callAllWith, callAll_cons]
    refine bind_congr ?_
    rintro ⟨nodes, session⟩ -
    dsimp only
    split
    · exact ih _
    · next hpass =>
      obtain ⟨hdef, hopen⟩ := not_or.1 hpass
      obtain ⟨routine, hroutine⟩ := Option.ne_none_iff_exists'.1 (by simpa using hdef)
      rw [isRepeatedTo_eq hasks]
      refine bind_congr ?_
      rintro ⟨repeated, u⟩ -
      dsimp only
      split
      · exact ih u
      · rw [hcall target routine hroutine hopen]
        exact bind_congr fun v _ => ih _

omit hasks hcall

include hfork

/-- The child of a fork is not cut off if nothing is that it enters. -/
theorem forkAllWith_eq (id : NodeId) (api : ForkApi) (handle : Operand) (entries : List String)
    (w : Walk) :
    forkAllWith c r enter ancestry id api handle entries w =
      whole (forkAll c r ancestry opened id api handle entries w) := by
  induction entries generalizing w with
  | nil =>
    rw [forkAllWith, forkAll]
    rfl
  | cons entry entries ih =>
    rw [forkAllWith, forkAll]
    by_cases hancestry : entry ∈ ancestry
    · rw [if_pos (Or.inl hancestry), dif_pos hancestry]
      exact ih w
    · by_cases hlimit : w.session.threads.size ≥ c.settings.maxThreads
      · rw [if_pos (Or.inr hlimit), dif_neg hancestry, if_pos hlimit]
        exact ih w
      · rw [if_neg (not_or.2 ⟨hancestry, hlimit⟩), dif_neg hancestry, if_neg hlimit]
        refine bind_congr ?_
        rintro ⟨child, v⟩ -
        dsimp only
        rw [childWith]
        split
        · next hdef =>
          split
          · exact bind_congr fun last _ => ih _
          · next hsome =>
            rw [hdef] at hsome
            cases hsome
        · next routine hdef =>
          split
          · next hnone =>
            rw [hdef] at hnone
            cases hnone
          · rw [bind_assoc]
            refine bind_congr ?_
            rintro ⟨nodes, session⟩ -
            dsimp only
            rw [hfork entry routine hdef hancestry, bind_assoc]
            exact bind_congr fun inner _ => bind_congr fun last _ => ih _

include hasks hcall

/-- A node is not cut off if nothing is that it enters. -/
theorem handleWith_eq (id : NodeId) (node : Node) (w : Walk) :
    handleWith c r depth enter ancestry opened id node w =
      whole (handle c r ancestry opened id node w) := by
  rw [handleWith, handle]
  cases node.effect with
  | fork api operand entry => exact forkAllWith_eq hfork id api operand _ _
  | call api callee args =>
    dsimp only
    split
    · rfl
    · exact callAllWith_eq hasks hcall id args _ w
  | join api operand fork => cases fork <;> rfl
  | _ => rfl

/-- Nodes are not cut off if nothing is that they enter. -/
theorem walkWith_eq (nodes : List NodeId) (w : Walk) :
    walkWith c r depth enter ancestry opened nodes w =
      whole (walk c r ancestry opened nodes w) := by
  induction nodes generalizing w with
  | nil =>
    rw [walkWith, walk]
    rfl
  | cons id rest ih =>
    rw [walkWith, walk]
    refine bind_congr fun node _ => ?_
    split
    · exact ih w
    · refine bind_congr ?_
      rintro ⟨opens, v⟩ -
      cases opens with
      | true =>
        dsimp only
        rw [if_pos rfl, if_pos rfl, handleWith_eq hasks hcall hfork]
        exact bind_congr fun u _ => ih u
      | false => exact ih v

end

/-- How many levels may lie below a routine: for each name that may still start a thread, as many as
there are names, and those that may still be called. -/
def levels (c : Subject) (ancestry opened : List String) : Nat :=
  c.unseen ancestry * (c.unseen [] + 1) + c.unseen opened

/-- There are no more unseen names than names. -/
theorem unseen_le (c : Subject) (seen : List String) : c.unseen seen ≤ c.unseen [] := by
  unfold Subject.unseen
  rw [← List.countP_eq_length_filter, ← List.countP_eq_length_filter]
  exact List.countP_mono_left fun f _ _ => by simp

/-- Walking is not cut off at a depth that leaves room for all levels below, and for a question
about effects on the last. -/
theorem walkTo_eq (h : levels c ancestry opened + c.unseen [] + 1 < depth) (nodes : List NodeId)
    (w : Walk) :
    walkTo c r depth ancestry opened nodes w = whole (walk c r ancestry opened nodes w) := by
  induction depth generalizing ancestry opened nodes w with
  | zero => exact absurd h (Nat.not_lt_zero _)
  | succ depth ih =>
    rw [walkTo]
    refine walkWith_eq (by omega) ?_ ?_ nodes w
    · intro target routine hdef hopen nodes w
      refine ih ?_ nodes w
      have hless := c.unseen_cons_lt hdef hopen
      unfold levels at h ⊢
      omega
    · intro entry routine hdef hancestry nodes w
      refine ih ?_ nodes w
      have hless := c.unseen_cons_lt hdef hancestry
      have hopened := unseen_le c [entry]
      have hrows : c.unseen (entry :: ancestry) * (c.unseen [] + 1) + (c.unseen [] + 1) ≤
          c.unseen ancestry * (c.unseen [] + 1) := by
        rw [← Nat.succ_mul]
        exact Nat.mul_le_mul_right _ hless
      unfold levels at h ⊢
      omega

end Walk

namespace Trace

/-- Walks the main thread and all threads that it leads to, down to a depth. -/
def walkMainTo (c : Subject) (r : Runtime) (depth : Nat) (entry : String) : Cut Session := do
  let (main, session) ← whole (Session.empty.reserve entry none none)
  let (nodes, session) ← whole (session.summary c entry)
  let w ← Walk.walkTo c r depth [entry] [entry] (nodes.getD []) ⟨session, Walker.start main none⟩
  let w ← whole (w.finish r)
  pure w.session

/-- The trace of a subject, built down to a depth; none if it was cut off. -/
def buildTo (c : Subject) (depth : Nat) : Option (Except BuildError Trace) :=
  let entry := c.settings.entry
  match c.program.routine? entry with
  | none => some (.error (.entryNotFound entry))
  | some f =>
    if f.isDeclaration then some (.error (.entryWithoutBody entry))
    else
      match (walkMainTo c (Runtime.ofProgram c.program c.settings.runtime) depth entry).run with
      | none => none
      | some (.error e) => some (.error (.fault e))
      | some (.ok s) => some (.ok ⟨s.threads, s.arena, c.program, c.pointsTo⟩)

/-- A program with `n` names is built within depth `(n + 1) * (n + 2)`, whatever it calls, starts
and points to. -/
theorem buildTo_eq {c : Subject} {depth : Nat}
    (h : (c.unseen [] + 1) * (c.unseen [] + 2) ≤ depth) : buildTo c depth = some (build c) := by
  have hlevels : ∀ entry, Walk.levels c [entry] [entry] + c.unseen [] + 1 < depth := by
    intro entry
    have hrows : c.unseen [entry] * (c.unseen [] + 1) ≤ c.unseen [] * (c.unseen [] + 1) :=
      Nat.mul_le_mul_right _ (Walk.unseen_le c [entry])
    have hopened := Walk.unseen_le c [entry]
    have hsquare : (c.unseen [] + 1) * (c.unseen [] + 2) =
        c.unseen [] * (c.unseen [] + 1) + 2 * (c.unseen [] + 1) := by
      rw [Nat.mul_add, Nat.mul_comm _ 2, Nat.mul_comm _ (c.unseen [])]
    unfold Walk.levels
    omega
  have hmain : ∀ r entry, walkMainTo c r depth entry = whole (walkMain c r entry) := by
    intro r entry
    rw [walkMainTo, walkMain]
    refine bind_congr ?_
    rintro ⟨main, session⟩ -
    refine bind_congr ?_
    rintro ⟨nodes, session'⟩ -
    dsimp only
    rw [Walk.walkTo_eq (hlevels entry)]
    exact bind_congr fun inner _ => bind_congr fun last _ => rfl
  rw [buildTo, build]
  cases c.program.routine? c.settings.entry with
  | none => rfl
  | some f =>
    dsimp only
    by_cases hbody : f.isDeclaration = true
    · rw [if_pos hbody, if_pos hbody]
    · rw [if_neg hbody, if_neg hbody, hmain]
      cases walkMain c (Runtime.ofProgram c.program c.settings.runtime) c.settings.entry <;> rfl

end Trace

end DataRace
