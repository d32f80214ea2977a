import DataRace.Trace.Basic

/-!
# Barrier groups

The threads that meet at a barrier are those started with one team tag by one execution of a fork
instruction, which shows as a run of fork events of that instruction, one after the other, in the
parent.  `Trace.barrierGroups` lists the groups of at least two threads.
-/

namespace DataRace

/-- A thread started with a team tag: its parent, the number of the first fork event of the run
that started it, and its team. -/
structure Member where
  parent : ThreadId
  first : Nat
  team : Nat
  thread : ThreadId
  deriving DecidableEq, Repr

namespace Member

/-- Whether two members belong together. -/
def sameGroup (a b : Member) : Bool :=
  a.parent == b.parent && a.first == b.first && a.team == b.team

end Member

namespace Trace

/-- The members started by events of a thread.  `run` is the instruction and the first event of the
run of fork events that ends just before, if there is one. -/
def membersFrom (t : Trace) : Option (InstId × Nat) → List Event → Except Fault (List Member)
  | _, [] => .ok []
  | run, e :: es =>
    match e.kind with
    | .fork child => do
      let node ← t.arena.get e.node
      let first :=
        match run with
        | some (inst, first) => if inst = node.inst then first else e.index
        | none => e.index
      let members ← t.membersFrom (some (node.inst, first)) es
      match t.spawnApi? child >>= ForkApi.team? with
      | some team => .ok (⟨e.thread, first, team, child⟩ :: members)
      | none => .ok members
    | _ => t.membersFrom none es

/-- Adds a member to its group, or opens one. -/
def addMember : List (List Member) → Member → List (List Member)
  | [], m => [[m]]
  | g :: gs, m => if g.any m.sameGroup then (g ++ [m]) :: gs else g :: addMember gs m

/-- The groups of threads that meet at barriers, ordered by their first member. -/
def barrierGroups (t : Trace) : Except Fault (List (List ThreadId)) := do
  let members ← t.threads.toList.mapM fun th => t.membersFrom none th.events.toList
  let groups := (members.flatten.foldl addMember []).map fun g => g.map Member.thread
  .ok ((groups.filter fun g => decide (1 < g.length)).mergeSort fun a b =>
    decide (a.headD 0 ≤ b.headD 0))

end Trace

end DataRace
