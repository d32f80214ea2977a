import DataRace.Proofs.Classify.Sources
import DataRace.Proofs.Classify.Stems
import Mathlib.Data.List.Forall2

/-!
# The bodies of workers

A `Worker` is a routine that accesses memory through one pointer only, with the calls that start and
join it; `Worker.main` starts all workers of a list before it joins any.  Every instruction of such
a program means exactly one node (`Instruction.Means`), so the nodes of a body stand in the arena
one for each instruction, in order (`Draft.exists_classifyAll`).
-/

namespace DataRace

/-! ### Instructions -/

/-- How an instruction accesses what a pointer points to, if that is what it does: it loads, stores
or releases through the pointer. -/
def Instruction.accessOf? (p : ValueId) (i : Instruction) : Option AccessType :=
  match i.action with
  | .load q _ => if q = p then some .read else none
  | .store q _ => if q = p then some .write else none
  | .call (.direct f) (.value q :: _) => if q = p ∧ f ∈ releases then some .free else none
  | _ => none

/-- A routine with the handle it is started by and the calls that start and join it. -/
structure Worker where
  routine : Routine
  handle : ValueId
  create : Instruction
  join : Instruction

namespace Worker

/-- A worker accesses memory through one pointer only, and is started and joined by its handle. -/
structure Uses (w : Worker) (p : ValueId) : Prop where
  body : ∀ i ∈ w.routine.body, ∃ type, i.accessOf? p = some type
  create : ∃ attr rest, w.create.action =
    .call (.direct "pthread_create") (.value w.handle :: attr :: .routine w.routine.name :: rest)
  join : ∃ rest, w.join.action = .call (.direct "pthread_join") (.value w.handle :: rest)

/-- The main routine that starts workers in order and then makes some joins. -/
def main (workers : List Worker) (joins : List Instruction) : Routine :=
  ⟨"main", workers.map create ++ joins⟩

end Worker

/-- An accepted program of a main routine that starts all workers and then joins all of them, and of
the workers, which access memory through one pointer only. -/
structure Program.Employs (program : Program) (p : ValueId) (workers : List Worker)
    (joins : List Instruction) : Prop where
  accepted : ∃ name routines, ofRoutines name routines = .ok program ∧
    routines.Perm (Worker.main workers joins :: workers.map Worker.routine)
  uses : ∀ w ∈ workers, w.Uses p
  joins : joins.Perm (workers.map Worker.join)

/-! ### Nodes -/

/-- A node that starts a routine as a thread. -/
def Node.Starts (n : Node) (f : String) : Prop :=
  ∃ handle, n.effect = .fork .pthreadCreate handle (.direct f)

/-- A node that joins what a handle denotes. -/
def Node.Awaits (n : Node) : Prop := ∃ handle, n.effect = .join .pthreadJoin handle none

/-- An instruction means one node to the standard chain, whatever the program and the draft are. -/
structure Instruction.Means (i : Instruction) (n : Node) : Prop where
  inst : n.inst = i.id
  alone : n.companionOf? = none
  classify : ∀ (p : Program) (s : Settings) (d : Draft),
    Draft.classify p s Interface.standard d i = .ok (d.emit n)

namespace Instruction

variable {i : Instruction}

/-- A call of a routine that releases is known to the standard chain as such. -/
theorem meaning?_of_mem_releases {f : String} (h : f ∈ releases) :
    ∃ api, Chain.meaning? Interface.standard f = some (.free api) := by
  simp only [releases, List.mem_cons, List.not_mem_nil, or_false] at h
  rcases h with rfl | rfl | rfl
  · exact ⟨.free, rfl⟩
  · exact ⟨.cxxDelete, rfl⟩
  · exact ⟨.cxxDelete, rfl⟩

/-- An access means a node that makes the access. -/
theorem means_of_accessOf? {p : ValueId} {type : AccessType} (h : i.accessOf? p = some type) :
    ∃ n, i.Means n ∧ n.Accesses p type := by
  unfold accessOf? at h
  split at h
  · next q v haction =>
    obtain ⟨rfl, rfl⟩ : q = p ∧ AccessType.read = type := by simpa using h
    refine ⟨⟨i.site, .read .load q v⟩, ⟨rfl, rfl, fun _ _ d => ?_⟩, .load, v, rfl⟩
    simp [Draft.classify, haction, Node.load]
  · next q v haction =>
    obtain ⟨rfl, rfl⟩ : q = p ∧ AccessType.write = type := by simpa using h
    refine ⟨⟨i.site, .write .store q v⟩, ⟨rfl, rfl, fun _ _ d => ?_⟩, .store, v, rfl⟩
    simp [Draft.classify, haction, Node.store]
  · next f q rest haction =>
    obtain ⟨⟨rfl, hf⟩, rfl⟩ : (q = p ∧ f ∈ releases) ∧ AccessType.free = type := by simpa using h
    obtain ⟨api, hapi⟩ := meaning?_of_mem_releases hf
    refine ⟨⟨i.site, .free api q⟩, ⟨rfl, rfl, fun _ _ d => ?_⟩, api, rfl⟩
    simp only [Draft.classify, haction, Callee.name?, bind, Option.bind, hapi, Meaning.emit,
      Node.free, Node.pointer, Node.operand, Node.requireCall, isCall, args]
    rfl
  · cases h

/-- An access that calls a routine calls one that releases. -/
theorem mem_releases {p : ValueId} {type : AccessType} (h : i.accessOf? p = some type) {f : String}
    (hf : i.calleeName? = some f) : f ∈ releases := by
  unfold calleeName? at hf
  unfold accessOf? at h
  split at h
  · next haction =>
    rw [haction] at hf
    cases hf
  · next haction =>
    rw [haction] at hf
    cases hf
  · next q rest haction =>
    rw [haction] at hf
    cases hf
    split at h
    · next hrelease => exact hrelease.2
    · cases h
  · cases h

/-- The call that starts a worker means a fork of its routine. -/
theorem means_of_create {w : Worker} {p : ValueId} (h : w.Uses p) :
    ∃ n, w.create.Means n ∧ n.Starts w.routine.name := by
  obtain ⟨attr, rest, haction⟩ := h.create
  have hmeaning : Chain.meaning? Interface.standard "pthread_create" =
      some (.fork .pthreadCreate) :=
    Chain.meaning?_eq_some.2 ⟨.pthread, by decide, rfl⟩
  refine ⟨⟨w.create.site, .fork .pthreadCreate (.value w.handle) (.direct w.routine.name)⟩,
    ⟨rfl, rfl, fun _ _ d => ?_⟩, _, rfl⟩
  simp only [Draft.classify, haction, Callee.name?, bind, Option.bind, hmeaning, Meaning.emit,
    Node.fork, Node.operand, Node.requireCall, Node.forkWithEntry, isCall, args]
  rfl

/-- The call that joins a worker means a join of its handle. -/
theorem means_of_join {w : Worker} {p : ValueId} (h : w.Uses p) :
    ∃ n, w.join.Means n ∧ n.Awaits := by
  obtain ⟨rest, haction⟩ := h.join
  have hmeaning : Chain.meaning? Interface.standard "pthread_join" = some .join :=
    Chain.meaning?_eq_some.2 ⟨.pthread, by decide, rfl⟩
  refine ⟨⟨w.join.site, .join .pthreadJoin (.value w.handle) none⟩,
    ⟨rfl, rfl, fun _ _ d => ?_⟩, _, rfl⟩
  simp only [Draft.classify, haction, Callee.name?, bind, Option.bind, hmeaning, Meaning.emit,
    Node.join, Node.operand, Node.requireCall, isCall, args]
  rfl

end Instruction

/-! ### Bodies -/

/-- The items of a list have nodes in an arena, one each and in order. -/
def Arena.Lays {α : Type} (a : Arena) (R : α → Node → Prop) (xs : List α) (ids : List NodeId) :
    Prop :=
  List.Forall₂ (fun x id => ∃ n, a.get? id = some n ∧ R x n) xs ids

/-- What an arena lays stays laid when nodes are added. -/
theorem Arena.Lays.mono {α : Type} {a b : Arena} {R : α → Node → Prop} {xs : List α}
    {ids : List NodeId} (h : a.Lays R xs ids) (hab : a.Extends b) : b.Lays R xs ids :=
  h.imp fun _ id ⟨n, hn, hR⟩ => ⟨n, hab id n hn, hR⟩

namespace Draft

/-- The nodes of instructions that mean one node each. -/
theorem exists_classifyAll {α : Type} {f : α → Instruction} {R : α → Node → Prop} {xs : List α}
    (h : ∀ x ∈ xs, ∃ n, (f x).Means n ∧ R x n) (p : Program) (s : Settings) (d : Draft) :
    ∃ e ids, classifyAll p s Interface.standard d (xs.map f) = .ok e ∧ e.nodes = d.nodes ++ ids ∧
      d.arena.Extends e.arena ∧ e.arena.Lays R xs ids := by
  induction xs generalizing d with
  | nil => exact ⟨d, [], rfl, (List.append_nil _).symm, .refl _, .nil⟩
  | cons x xs ih =>
    obtain ⟨n, hmeans, hR⟩ := h x List.mem_cons_self
    obtain ⟨e, ids, hclassify, hnodes, hextends, hlays⟩ :=
      ih (fun y hy => h y (List.mem_cons_of_mem _ hy)) (d.emit n)
    refine ⟨e, (d.arena.push n).1 :: ids, ?_, ?_, (emit_extends d n).trans hextends,
      .cons ⟨n, hextends _ _ (Arena.get?_push d.arena n), hR⟩ hlays⟩
    · rw [classifyAll, List.map_cons, List.foldlM_cons, hmeans.classify]
      exact hclassify
    · rw [hnodes]
      exact List.append_assoc _ _ _

end Draft

/-- A routine that was not looked at yet is laid out in the arena. -/
theorem Session.summary_of_classifyAll {c : Subject} {s : Session} {f : String} {r : Routine}
    {d : Draft} (hnew : s.summaries[f]? = none) (hdef : c.program.definition? f = some r)
    (hd : Draft.classifyAll c.program c.settings c.chain ⟨s.arena, []⟩ r.body = .ok d) :
    s.summary c f =
      .ok (some d.nodes,
        { s with arena := d.arena, summaries := s.summaries.insert f d.nodes }) := by
  rw [summary, hnew, hdef]
  exact Except.bind_eq_ok.2 ⟨d, hd, rfl⟩

end DataRace
