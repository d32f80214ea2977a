import DataRace.Text.Numeral
import DataRace.Text.Printable

/-!
# Quoted text

The form in which diagnostics show a text: between double quotes, with quotes, backslashes and
everything that does not print escaped.  An apostrophe stands for itself.
-/

namespace DataRace

namespace Quoted

/-- A character inside the quotes. -/
def escape (c : Char) : List Char :=
  match c with
  | '"' => ['\\', '"']
  | '\\' => ['\\', '\\']
  | '\n' => ['\\', 'n']
  | '\t' => ['\\', 't']
  | '\r' => ['\\', 'r']
  | '\x00' => ['\\', '0']
  | c =>
    if Printable.isPlain c then [c]
    else '\\' :: 'u' :: '\x7b' :: Numeral.hex 1 c.toNat ++ ['\x7d']

/-- A text in quotes. -/
def quote (s : String) : String := String.ofList ('"' :: s.toList.flatMap escape ++ ['"'])

end Quoted

end DataRace
