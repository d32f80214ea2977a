import DataRace.Node.Basic
import DataRace.Program.Describe

/-!
# Faults

A fault is a program that an interface cannot make sense of: a call without the operands that its
interface prescribes, a region without an end, a position that does not exist.  An analysis that
meets one stops there.
-/

namespace DataRace

/-- What an operand or an instruction was wanted for. -/
inductive Role where
  | apiRead
  | apiWrite
  | free
  | forkHandle
  | forkEntry
  | fork
  | joinHandle
  | lock
  | unlock
  | barrier
  deriving DecidableEq, Repr

/-- The name of a role in diagnostics. -/
def Role.name : Role → String
  | .apiRead => "api read"
  | .apiWrite => "api write"
  | .free => "free"
  | .forkHandle => "fork handle"
  | .forkEntry => "fork entry"
  | .fork => "fork"
  | .joinHandle => "join handle"
  | .lock => "lock"
  | .unlock => "unlock"
  | .barrier => "barrier"

/-- The instructions that a node can be made of without an interface. -/
inductive Shape where
  | load
  | store
  | call
  deriving DecidableEq, Repr

/-- The name of a shape in diagnostics. -/
def Shape.name : Shape → String
  | .load => "load"
  | .store => "store"
  | .call => "call"

/-- The runtime entry that allocates the task started by a task call. -/
def taskAlloc : String := "__kmpc_omp_task_alloc"

/-- The operand of a task call that holds the allocated task. -/
def taskOperand : Nat := 2

/-- The operand of a task allocation that holds the task's routine. -/
def taskEntryOperand : Nat := 5

/-- Why an analysis stopped. -/
inductive Fault where
  /-- The instruction is no call. -/
  | notACall (role : Role) (inst : InstId)
  /-- The call has too few operands. -/
  | missingOperand (role : Role) (inst : InstId) (callee : Option String) (offset : Nat)
  /-- The operand is no pointer. -/
  | notAPointer (role : Role) (inst : InstId) (offset : Nat) (found : Operand)
  /-- The instruction does something else. -/
  | wrongShape (shape : Shape) (inst : InstId) (found : Action)
  /-- The entry of a fork is neither a routine nor a pointer. -/
  | notARoutine (inst : InstId) (found : Operand)
  /-- The task of a task call is not the result of a call. -/
  | taskNotAllocated (inst : InstId) (found : Option Operand)
  /-- The task of a task call is the result of something other than an allocation. -/
  | notATaskAllocation (inst alloc : InstId)
  /-- A task allocation names no routine. -/
  | taskWithoutRoutine (alloc : InstId)
  /-- The companion of a node that forks nothing was asked for. -/
  | notAFork (node : Node)
  /-- A region has no end in its routine. -/
  | unclosedRegion (opening closing : CallApi) (node : Node) (routine : Option String)
  /-- A companion join was met before its fork. -/
  | joinBeforeFork (node : Node) (thread fork : Nat)
  /-- A position that does not exist was used. -/
  | outOfRange
  /-- The order of events leads in a circle. -/
  | cyclicOrder
  /-- An access belongs to no event. -/
  | unknownEvent (thread index : Nat)
  deriving DecidableEq, Repr

/-- The wording of a fault, where it has one. -/
def Fault.message? : Fault → Option String
  | .notACall role inst =>
    some (role.name ++ ": instruction " ++ inst.label ++ " is not a call")
  | .missingOperand role inst callee offset =>
    some (role.name ++ ": call " ++ inst.label ++ " to " ++ callee.getD "<indirect>"
      ++ " has no operand " ++ toString offset)
  | .notAPointer role inst offset found =>
    some (role.name ++ ": operand " ++ toString offset ++ " of call " ++ inst.label
      ++ " must be a pointer value, found " ++ found.describe)
  | .wrongShape shape inst found =>
    some (shape.name ++ ": instruction " ++ inst.label ++ " is " ++ found.describe)
  | .notARoutine inst found =>
    some ("fork entry: operand " ++ found.describe ++ " of call " ++ inst.label
      ++ " is not a routine")
  | .taskNotAllocated inst found =>
    some ("__kmpc_omp_task " ++ inst.label ++ ": operand " ++ toString taskOperand
      ++ " must be the result of " ++ taskAlloc ++ ", found "
      ++ describeOption (found.map Operand.describe))
  | .notATaskAllocation inst alloc =>
    some ("__kmpc_omp_task " ++ inst.label ++ ": " ++ alloc.label ++ " is not a call to "
      ++ taskAlloc)
  | .taskWithoutRoutine alloc =>
    some (taskAlloc ++ " " ++ alloc.label ++ ": operand " ++ toString taskEntryOperand
      ++ " is not a task routine")
  | .notAFork node => some ("companion join requested for non-fork node " ++ node.label)
  | .unclosedRegion opening closing node routine =>
    some (opening.name ++ " region at " ++ node.label ++ " has no matching " ++ closing.name
      ++ " in " ++ routine.getD "<unknown>")
  | .joinBeforeFork node thread fork =>
    some ("companion join " ++ node.label ++ " in thread " ++ toString thread
      ++ " has no recorded fork n" ++ toString fork)
  | .outOfRange => none
  | .cyclicOrder => some "cycle left after join and barrier checks"
  | .unknownEvent thread index =>
    some ("access without an event: t" ++ toString thread ++ ":e" ++ toString index)

end DataRace
