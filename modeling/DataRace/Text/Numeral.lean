/-!
# Numerals

Digits, natural numbers written in a base, and decimal literals with a fraction and an exponent.

`ofDigits?` reads a nonempty run of digits of a base, `hex` writes a number in lower case base
sixteen with a fixed width.  `Decimal` is a literal kept exactly as a signed mantissa with a power
of ten; `Decimal.isFinite` tells whether the nearest double precision number is finite.
-/

namespace DataRace

namespace Numeral

/-- The value of a digit, if the character is a digit of the base (at most sixteen). -/
def digit? (base : Nat) (c : Char) : Option Nat :=
  let value :=
    if '0' ≤ c ∧ c ≤ '9' then some (c.toNat - '0'.toNat)
    else if 'a' ≤ c ∧ c ≤ 'f' then some (c.toNat - 'a'.toNat + 10)
    else if 'A' ≤ c ∧ c ≤ 'F' then some (c.toNat - 'A'.toNat + 10)
    else none
  value.filter (· < base)

/-- A decimal digit. -/
def isDigit (c : Char) : Bool := '0' ≤ c && c ≤ '9'

/-- The number written by a run of digits after a number that was read before it. -/
def readDigits? (base : Nat) : Nat → List Char → Option Nat
  | n, [] => some n
  | n, c :: cs => do
    let d ← digit? base c
    readDigits? base (n * base + d) cs

/-- The number written by a nonempty run of digits. -/
def ofDigits? (base : Nat) (cs : List Char) : Option Nat :=
  if cs.isEmpty then none else readDigits? base 0 cs

/-- The decimal digits of a number. -/
def decimal (n : Nat) : List Char := Nat.toDigits 10 n

/-- The lower case digit of a value below sixteen. -/
def hexDigit (d : Nat) : Char :=
  if d < 10 then Char.ofNat ('0'.toNat + d) else Char.ofNat ('a'.toNat + (d - 10))

/-- A number in base sixteen with at least the given number of digits, lower case. -/
def hex (width n : Nat) : List Char :=
  let digits := (Nat.toDigits 16 n).map Char.toLower
  List.replicate (width - digits.length) '0' ++ digits

end Numeral

/-- A decimal literal: `mantissa · 10 ^ exponent`, negated if `negative` is set. -/
structure Decimal where
  negative : Bool
  mantissa : Nat
  exponent : Int
  deriving DecidableEq, Repr

namespace Decimal

/-- Magnitudes from here on round to infinity in double precision: the midpoint between the
greatest finite number and `2 ^ 1024`. -/
def overflow : Nat := Nat.pow 2 1024 - Nat.pow 2 970

/-- Whether the nearest double precision number is finite.  Far exponents are decided by size
alone, so that no huge power is computed. -/
def isFinite (d : Decimal) : Bool :=
  if d.mantissa = 0 then true
  else
    match d.exponent with
    | .ofNat e => if e > 400 then false else d.mantissa * Nat.pow 10 e < overflow
    | .negSucc e =>
      if e + 1 > (Nat.toDigits 10 d.mantissa).length then true
      else d.mantissa < overflow * Nat.pow 10 (e + 1)

/-- An integer as a decimal literal. -/
def ofInt (i : Int) : Decimal := ⟨i < 0, i.natAbs, 0⟩

/-- The literal read from its parts: sign, digits before the point, digits after it and exponent.
The digits must be decimal digits. -/
def ofParts (negative : Bool) (whole fraction : List Char) (exponent : Int) : Decimal :=
  { negative
    mantissa := (Numeral.readDigits? 10 0 (whole ++ fraction)).getD 0
    exponent := exponent - fraction.length }

/-- A run of digits split off the front. -/
def digits (cs : List Char) : List Char × List Char := cs.span Numeral.isDigit

/-- The exponent part of a literal: nothing, or `e` with an optional sign and at least one digit.
Answers whether the part is there, its value and what follows; `none` for an `e` without digits. -/
def exponentPart? : List Char → Option (Option Int × List Char)
  | c :: cs =>
    if c = 'e' ∨ c = 'E' then
      let (negative, cs) :=
        match cs with
        | '-' :: r => (true, r)
        | '+' :: r => (false, r)
        | r => (false, r)
      let (ds, rest) := digits cs
      (Numeral.ofDigits? 10 ds).map fun n => (some (if negative then -(n : Int) else n), rest)
    else some (none, c :: cs)
  | [] => some (none, [])

end Decimal

end DataRace
