import DataRace.Yaml.Basic

/-!
# Plain scalars

What a scalar without quotes stands for.  The words for null, truth values and special numbers are
few and exact; an integer is decimal with an optional sign, or hexadecimal, octal or binary behind
`0x`, `0o` or `0b`; a decimal literal has a fraction or an exponent.  Digits behind a zero, digits
with underscores and everything else is text.
-/

namespace DataRace

namespace Yaml

/-- What a plain scalar stands for. -/
inductive Plain where
  | value (v : Yaml)
  /-- An integer of more than sixty-four bits. -/
  | tooWide
  | text

/-- The words for null. -/
def isNull (s : List Char) : Bool := s ∈ ["null", "Null", "NULL", "~"].map String.toList

/-- The words for truth values. -/
def truth? (s : List Char) : Option Bool :=
  if s ∈ ["true", "True", "TRUE"].map String.toList then some true
  else if s ∈ ["false", "False", "FALSE"].map String.toList then some false
  else none

/-- Whether a character is a sign. -/
def isSign (c : Char) : Bool := c == '+' || c == '-'

/-- A list without its first element, if that passes a test. -/
def stripIf (p : Char → Bool) : List Char → List Char
  | c :: cs => if p c then cs else c :: cs
  | [] => []

/-- Whether a scalar is a zero followed by further digits, which is no number. -/
def isZeroLed (s : List Char) : Bool :=
  match stripIf isSign s with
  | '0' :: c :: cs => (c :: cs).all Numeral.isDigit
  | _ => false

/-- The magnitude written behind a base mark or in decimal digits.  `whole` is the scalar that the
digits are part of. -/
def magnitude? (whole digits : List Char) : Option Nat :=
  match digits with
  | '0' :: 'x' :: ds => Numeral.ofDigits? 16 ds
  | '0' :: 'o' :: ds => Numeral.ofDigits? 8 ds
  | '0' :: 'b' :: ds => Numeral.ofDigits? 2 ds
  | ds => if isZeroLed whole then none else Numeral.ofDigits? 10 ds

/-- The integer that a scalar writes. -/
def integer? (s : List Char) : Option Int :=
  match s with
  | '-' :: ds => (magnitude? s ds).map fun n => -(n : Int)
  | _ => (magnitude? s (stripIf (· == '+') s)).map fun n => (n : Int)

/-- A finite number without trailing zeros in its mantissa. -/
def reduce : Nat → Decimal → Decimal
  | 0, d => d
  | n + 1, d =>
    if d.mantissa = 0 then ⟨false, 0, 0⟩
    else if d.mantissa % 10 = 0 then
      reduce n { d with mantissa := d.mantissa / 10, exponent := d.exponent + 1 }
    else d

/-- The decimal literal that a scalar writes: digits before or after a point, and an exponent. -/
def decimal? (s : List Char) : Option Decimal :=
  let (negative, cs) :=
    match s with
    | '-' :: r => (true, r)
    | r => (false, r)
  let (whole, rest) := Decimal.digits cs
  let (fraction, rest) :=
    match rest with
    | '.' :: r => Decimal.digits r
    | r => ([], r)
  if whole.isEmpty && fraction.isEmpty then none
  else
    match Decimal.exponentPart? rest with
    | some (exponent, []) =>
      let d := Decimal.ofParts negative whole fraction (exponent.getD 0)
      some (reduce (whole.length + fraction.length) d)
    | _ => none

/-- The number with a fraction, an exponent or a special name that a scalar writes.  Literals that
are too great for a finite number are text. -/
def float? (s : List Char) : Option Yaml :=
  let unsigned? :=
    match s with
    | '+' :: cs => if (cs.head?.map isSign).getD false then none else some cs
    | cs => some cs
  match unsigned? with
  | none => none
  | some cs =>
    if cs ∈ [".inf", ".Inf", ".INF"].map String.toList then some (.infinity false)
    else if s ∈ ["-.inf", "-.Inf", "-.INF"].map String.toList then some (.infinity true)
    else if s ∈ [".nan", ".NaN", ".NAN"].map String.toList then some .nan
    else ((decimal? cs).filter Decimal.isFinite).map .float

/-- What a plain scalar stands for. -/
def plain (s : List Char) : Plain :=
  if s.isEmpty || isNull s then .value .null
  else
    match truth? s with
    | some b => .value (.bool b)
    | none =>
      let other :=
        if isZeroLed s then Plain.text
        else
          match float? s with
          | some v => .value v
          | none => .text
      match integer? s with
      | some i =>
        if -(Int.pow 2 63) ≤ i ∧ i < Int.pow 2 64 then .value (.int i)
        else if -(Int.pow 2 127) ≤ i ∧ i < Int.pow 2 128 then .tooWide
        else other
      | none => other

/-- The integer of a scalar that is tagged as one. -/
def taggedInt? (s : List Char) : Option Yaml :=
  match integer? s with
  | some i => if -(Int.pow 2 63) ≤ i ∧ i < Int.pow 2 64 then some (.int i) else none
  | none => none

end Yaml

end DataRace
