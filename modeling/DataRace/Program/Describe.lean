import DataRace.Program.Basic
import DataRace.Text.Quoted

/-!
# Diagnostic forms

How operands, callees and actions are shown in diagnostics: the kind of thing with its content in
round brackets, or its named parts in braces.
-/

namespace DataRace

/-- Items between square brackets. -/
def describeList (items : List String) : String := "[" ++ String.intercalate ", " items ++ "]"

/-- A value that may be missing. -/
def describeOption (item : Option String) : String :=
  match item with
  | none => "None"
  | some s => "Some(" ++ s ++ ")"

/-- A record with its named parts. -/
def describeRecord (name : String) (parts : List (String × String)) : String :=
  name ++ " \x7b " ++ String.intercalate ", " (parts.map fun (k, v) => k ++ ": " ++ v) ++ " \x7d"

namespace ValueId

/-- A value in a diagnostic. -/
def describe (v : ValueId) : String := "ValueId(" ++ toString v.val ++ ")"

end ValueId

namespace Operand

/-- An operand in a diagnostic. -/
def describe : Operand → String
  | .value v => "Value(" ++ v.describe ++ ")"
  | .routine name => "Function(" ++ Quoted.quote name ++ ")"
  | .result i => "Result(InstId(" ++ toString i.val ++ "))"
  | .const c => "Const(" ++ toString c ++ ")"
  | .null => "Null"

end Operand

namespace Callee

/-- A callee in a diagnostic. -/
def describe : Callee → String
  | .direct name => "Direct(" ++ Quoted.quote name ++ ")"
  | .indirect v => "Indirect(" ++ v.describe ++ ")"

end Callee

namespace Action

/-- The parts of a memory access in a diagnostic. -/
def describeAccess (name : String) (ptr : ValueId) (isVolatile : Bool) : String :=
  describeRecord name
    [("ptr", ptr.describe), ("volatile", if isVolatile then "true" else "false")]

/-- An action in a diagnostic. -/
def describe : Action → String
  | .load ptr v => describeAccess "Load" ptr v
  | .store ptr v => describeAccess "Store" ptr v
  | .call callee args =>
    describeRecord "Call"
      [("callee", callee.describe), ("args", describeList (args.map Operand.describe))]
  | .other => "Other"

end Action

end DataRace
