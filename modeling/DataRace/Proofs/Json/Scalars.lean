import DataRace.Json.Printer
import DataRace.Json.Reader
import Mathlib.Data.List.Basic
import Mathlib.Data.List.TakeDrop
import Mathlib.Tactic.IntervalCases

/-!
# Scalars read back

What the printer writes for a value without inner values, the reader takes for the same value, and
stops right behind it.  A numeral has no end of its own: what follows must not prolong it
(`Delimits`).  A control character without a letter of its own is written by its code and comes
back as a sixteen bit unit (`unitOf`), which `textOf?` turns into the character again.
-/

namespace DataRace

/-! ### Numerals -/

namespace Numeral

/-- Digits in two parts are read one part after the other. -/
theorem readDigits?_append (base n : Nat) (xs ys : List Char) :
    readDigits? base n (xs ++ ys) =
      (readDigits? base n xs).bind fun m => readDigits? base m ys := by
  induction xs generalizing n with
  | nil => rfl
  | cons c cs ih =>
    cases hd : digit? base c with
    | none => simp [readDigits?, hd]
    | some d => simp [readDigits?, hd, ih]

/-- A digit is read as its number. -/
theorem digit?_digitChar {d : Nat} (hd : d < 10) : digit? 10 d.digitChar = some d := by
  interval_cases d <;> decide

/-- A number below ten has one digit. -/
theorem decimal_of_lt {n : Nat} (hn : n < 10) : decimal n = [n.digitChar] :=
  Nat.toDigits_of_lt_base hn

/-- The other numbers have their last digit behind those of the tenth. -/
theorem decimal_of_ge {n : Nat} (hn : 10 ≤ n) :
    decimal n = decimal (n / 10) ++ [(n % 10).digitChar] :=
  Nat.toDigits_of_base_le (by decide) hn

/-- A numeral has a digit. -/
theorem decimal_ne_nil (n : Nat) : decimal n ≠ [] :=
  Nat.toDigits_ne_nil

/-- A numeral names its number. -/
theorem readDigits?_decimal (n : Nat) : readDigits? 10 0 (decimal n) = some n := by
  induction n using Nat.strong_induction_on with
  | _ n ih =>
    by_cases hn : n < 10
    · simp [decimal_of_lt hn, readDigits?, digit?_digitChar hn]
    · have hlast : n % 10 < 10 := Nat.mod_lt _ (by decide)
      rw [decimal_of_ge (by omega), readDigits?_append, ih (n / 10) (by omega)]
      simp only [Option.bind_some, readDigits?, digit?_digitChar hlast, Option.bind_eq_bind]
      congr 1
      omega

/-- A numeral has only digits. -/
theorem isDigit_of_mem_decimal {n : Nat} {c : Char} (hc : c ∈ decimal n) : isDigit c = true := by
  have h := Nat.isDigit_of_mem_toDigits (by decide) (by decide) hc
  simpa only [isDigit, Char.isDigit, Bool.decide_and, ge_iff_le, Char.le_def] using h

/-- Only the numeral of zero starts with a zero. -/
theorem head?_decimal {n : Nat} (hn : 0 < n) : (decimal n).head? ≠ some '0' := by
  induction n using Nat.strong_induction_on with
  | _ n ih =>
    by_cases hlt : n < 10
    · simp [decimal_of_lt hlt]
      omega
    · rw [decimal_of_ge (by omega), List.head?_append_of_ne_nil _ (decimal_ne_nil _)]
      exact ih (n / 10) (by omega) (by omega)

/-- A numeral has no leading zero. -/
theorem decimal_ne_zero_cons (n : Nat) (c : Char) (cs : List Char) :
    decimal n ≠ '0' :: c :: cs := by
  intro h
  rcases Nat.eq_zero_or_pos n with rfl | hn
  · simp [decimal] at h
  · exact head?_decimal hn (by rw [h]; rfl)

end Numeral

namespace Json

/-- Text that does not prolong a number in front of it. -/
def Delimits (rest : List Char) : Prop :=
  ∀ c ∈ rest.head?, Numeral.isDigit c = false ∧ c ≠ '.' ∧ c ≠ 'e' ∧ c ≠ 'E'

/-- The end of a text prolongs no number. -/
theorem Delimits.nil : Delimits [] := by simp [Delimits]

/-- It is the first character that might prolong a number. -/
theorem Delimits.cons {c : Char} (hd : Numeral.isDigit c = false)
    (hc : c ≠ '.' ∧ c ≠ 'e' ∧ c ≠ 'E') (rest : List Char) : Delimits (c :: rest) := by
  intro d h
  obtain rfl : c = d := by simpa using h
  exact ⟨hd, hc⟩

/-- No exponent is read where the number ends. -/
theorem Delimits.exponentPart? {rest : List Char} (h : Delimits rest) :
    Decimal.exponentPart? rest = some (none, rest) := by
  cases rest with
  | nil => rfl
  | cons c cs =>
    obtain ⟨-, -, he, hE⟩ := h c rfl
    simp [Decimal.exponentPart?, he, hE]

/-- A run of digits ends where a numeral written before other text does. -/
theorem digits_append {ds rest : List Char} (hds : ∀ c ∈ ds, Numeral.isDigit c = true)
    (hrest : ∀ c ∈ rest.head?, Numeral.isDigit c = false) :
    Decimal.digits (ds ++ rest) = (ds, rest) := by
  rw [Decimal.digits, List.span_eq_takeWhile_dropWhile, List.takeWhile_append_of_pos hds,
    List.dropWhile_append_of_pos hds]
  cases rest with
  | nil => simp
  | cons c cs => simp [hrest c rfl]

/-- The characters of a sign. -/
def sign (negative : Bool) : List Char := if negative then ['-'] else []

/-- An integer is written as a sign and a numeral. -/
theorem writeInt_eq (i : Int) : writeInt i = sign (decide (i < 0)) ++ Numeral.decimal i.natAbs := by
  cases i with
  | ofNat n => rfl
  | negSucc n => simp [writeInt, sign, Int.negSucc_lt_zero]

/-- A numeral starts with a digit, never with a sign. -/
theorem decimal_append_ne_cons {n : Nat} {tail : List Char} {c : Char}
    (hc : Numeral.isDigit c = false) (r : List Char) : Numeral.decimal n ++ tail ≠ c :: r := by
  intro h
  have hhead := congrArg List.head? h
  rw [List.head?_append_of_ne_nil _ (Numeral.decimal_ne_nil n)] at hhead
  have hmem : c ∈ Numeral.decimal n := List.mem_of_head? hhead
  simp [Numeral.isDigit_of_mem_decimal hmem] at hc

/-- A signed numeral is read up to its exponent.  It is an integer if it has none, minus zero
apart. -/
theorem number?_numeral (negative : Bool) (n : Nat) {tail rest : List Char} {e : Option Int}
    (htail : ∀ c ∈ tail.head?, Numeral.isDigit c = false ∧ c ≠ '.')
    (he : Decimal.exponentPart? tail = some (e, rest)) :
    number? (sign negative ++ Numeral.decimal n ++ tail) =
      some (if e = none ∧ (negative = true → n ≠ 0) then .int (if negative then -(n : Int) else n)
        else .real ⟨negative, n, e.getD 0⟩, rest) := by
  have hds : Decimal.digits (Numeral.decimal n ++ tail) = (Numeral.decimal n, tail) :=
    digits_append (fun c hc => Numeral.isDigit_of_mem_decimal hc) fun c hc => (htail c hc).1
  have hsign : ∀ r, Numeral.decimal n ++ tail ≠ '-' :: r :=
    decimal_append_ne_cons (by decide)
  have hpoint : ∀ r, tail ≠ '.' :: r := by
    rintro r rfl
    exact (htail '.' rfl).2 rfl
  have hne := Numeral.decimal_ne_nil n
  have hz := Numeral.decimal_ne_zero_cons n
  cases negative <;> cases e <;>
    simp [number?, sign, hds, he, Decimal.ofParts, Numeral.readDigits?_decimal]
  -- left: a negative numeral without an exponent
  exact (apply_ite (fun v => some (v, rest)) _ _ _).symm

/-- A signed run of digits behind the `e` of a literal. -/
theorem exponentPart?_writeInt (i : Int) {rest : List Char}
    (h : ∀ c ∈ rest.head?, Numeral.isDigit c = false) :
    Decimal.exponentPart? ('e' :: writeInt i ++ rest) = some (some i, rest) := by
  have hds : ∀ n, Decimal.digits (Numeral.decimal n ++ rest) = (Numeral.decimal n, rest) := fun n =>
    digits_append (fun c hc => Numeral.isDigit_of_mem_decimal hc) h
  have hplus : ∀ r, Numeral.decimal i.natAbs ++ rest ≠ '+' :: r :=
    decimal_append_ne_cons (by decide)
  have hminus : ∀ r, Numeral.decimal i.natAbs ++ rest ≠ '-' :: r :=
    decimal_append_ne_cons (by decide)
  by_cases hi : i < 0
  · simp [writeInt_eq, sign, hi, Decimal.exponentPart?, hds, Numeral.ofDigits?,
      Numeral.readDigits?_decimal, Numeral.decimal_ne_nil, abs_of_neg hi]
  · simp [writeInt_eq, sign, hi, Decimal.exponentPart?, hds, Numeral.ofDigits?,
      Numeral.readDigits?_decimal, Numeral.decimal_ne_nil]
    omega

/-- An integer comes back exactly. -/
theorem number?_writeInt (i : Int) {rest : List Char} (h : Delimits rest) :
    number? (writeInt i ++ rest) = some (.int i, rest) := by
  rw [writeInt_eq, number?_numeral _ _ (fun c hc => ⟨(h c hc).1, (h c hc).2.1⟩) h.exponentPart?]
  by_cases hi : i < 0
  · have hne : i.natAbs ≠ 0 := by omega
    simp [hi, hne, abs_of_neg hi]
  · simp [hi]
    omega

/-- A decimal comes back exactly. -/
theorem number?_writeDecimal (d : Decimal) {rest : List Char} (h : Delimits rest) :
    number? (writeDecimal d ++ rest) = some (.real d, rest) := by
  have he := exponentPart?_writeInt d.exponent fun c hc => (h c hc).1
  have hnum := number?_numeral d.negative d.mantissa (by simp; decide) he
  simpa [writeDecimal, sign] using hnum

/-! ### Strings -/

/-- Whether a character is written by its code. -/
def isCoded (c : Char) : Bool :=
  c.toNat < 0x20 && c ∉ ['\n', '\t', '\r', '\x08', '\x0c']

/-- What the reader makes of a written character. -/
def unitOf (c : Char) : Unit16 := if isCoded c then .unit c.toNat else .char c

/-- The four digits of a control character name its code. -/
theorem hex_of_lt {n : Nat} (hn : n < 0x20) :
    ∃ a b c d, Numeral.hex 4 n = [a, b, c, d] ∧ hex4? a b c d = some n := by
  interval_cases n <;> exact ⟨_, _, _, _, rfl, by decide⟩

/-- A character that stands for itself. -/
theorem literal?_plain {c : Char} (hq : c ≠ '"') (hb : c ≠ '\\') (hc : ¬c.toNat < 0x20)
    (cs : List Char) :
    literal? (c :: cs) = (literal? cs).map fun r => (.char c :: r.1, r.2) := by
  rw [literal?.eq_def]
  split <;> simp_all [Option.map_eq_bind]

/-- A written character is read as its unit. -/
theorem literal?_escape (c : Char) (cs : List Char) :
    literal? (escape c ++ cs) = (literal? cs).map fun r => (unitOf c :: r.1, r.2) := by
  unfold escape
  split
  case h_8 _ hq hb hn ht hr hbs hf =>
    split
    · rename_i hlt
      obtain ⟨a, b, d, e, hhex, hcode⟩ := hex_of_lt hlt
      have hcoded : isCoded c = true := by simp [isCoded, hlt]; tauto
      simp [hhex, literal?, hcode, unitOf, hcoded, Option.map_eq_bind]
    · rename_i hlt
      have hcoded : isCoded c = false := by simp [isCoded, hlt]
      simp [literal?_plain hq hb hlt, unitOf, hcoded]
  all_goals simp [literal?, unescape?, unitOf, isCoded, Option.map_eq_bind]

/-- The inside of a written string is read up to the closing quote. -/
theorem literal?_flatMap_escape (s rest : List Char) :
    literal? (s.flatMap escape ++ '"' :: rest) = some (s.map unitOf, rest) := by
  induction s with
  | nil => rfl
  | cons c cs ih =>
    rw [List.flatMap_cons, List.append_assoc, literal?_escape, ih]
    rfl

/-- A unit outside the surrogates is a character, whatever comes behind it. -/
theorem textOf?_unit_cons {code : Nat} (h : code < 0xD800) (us : List Unit16) :
    textOf? (.unit code :: us) = (textOf? us).map (Char.ofNat code :: ·) := by
  cases us with
  | nil => simp [textOf?]; omega
  | cons u us =>
    have h1 : ¬(0xD800 ≤ code ∧ code < 0xDC00) := by omega
    have h2 : ¬(0xDC00 ≤ code ∧ code < 0xE000) := by omega
    have h3 : ¬(0xD800 ≤ code ∧ code < 0xE000) := by omega
    cases u with
    | char c => simp only [textOf?, if_neg h3]
    | unit low => simp only [textOf?, if_neg h1, if_neg h2]

/-- The units of a text are read as the text. -/
theorem textOf?_map_unitOf (s : List Char) : textOf? (s.map unitOf) = some s := by
  induction s with
  | nil => rfl
  | cons c cs ih =>
    by_cases hc : isCoded c = true
    · have hlt : c.toNat < 0xD800 := by
        simp [isCoded] at hc
        omega
      simp [unitOf, hc, textOf?_unit_cons hlt, ih]
    · simp [unitOf, hc, textOf?, ih]

/-! ### Tokens -/

/-- The token of a value without inner values. -/
def scalarToken : Json → Token
  | .str s => .text (some s)
  | .lone => .text none
  | v => .scalar v

/-- A written string is the token of a text. -/
theorem token?_quote (s : String) (rest : List Char) :
    token? (quote s ++ rest) = some (.text (some s), rest) := by
  have hlit := literal?_flatMap_escape s.toList rest
  simp [quote, token?, hlit, textOf?_map_unitOf]

/-- A word at the front of a text. -/
theorem word?_append (w rest : List Char) : word? w (w ++ rest) = some rest := by
  induction w with
  | nil => rfl
  | cons c cs ih => simp [word?, ih]

/-- A number starts with a digit or a minus sign. -/
theorem number?_eq_none {c : Char} (hd : Numeral.isDigit c = false) (hc : c ≠ '-')
    (cs : List Char) : number? (c :: cs) = none := by
  have hds : Decimal.digits (c :: cs) = ([], c :: cs) :=
    digits_append (List.forall_mem_nil _) (by simpa using hd)
  simp [number?, hc, hds]

/-- A number is no other token. -/
theorem token?_of_number? {cs rest : List Char} {v : Json} (h : number? cs = some (v, rest)) :
    token? cs = some (.scalar v, rest) := by
  unfold token?
  split
  case h_11 => simp [h]
  all_goals
    rw [number?_eq_none (by decide) (by decide)] at h
    cases h

/-- A written scalar is one token. -/
theorem token?_writeScalar {v : Json} (hv : v.depth = 0) {rest : List Char} (h : Delimits rest) :
    token? (writeScalar v ++ rest) = some (scalarToken v, rest) := by
  cases v with
  | null =>
    have hw : writeScalar .null = 'n' :: "ull".toList := by decide
    rw [hw, List.cons_append, token?, word?_append]
    rfl
  | bool b =>
    cases b with
    | true =>
      have hw : writeScalar (.bool true) = 't' :: "rue".toList := by decide
      rw [hw, List.cons_append, token?, word?_append]
      rfl
    | false =>
      have hw : writeScalar (.bool false) = 'f' :: "alse".toList := by decide
      rw [hw, List.cons_append, token?, word?_append]
      rfl
  | int i => exact token?_of_number? (number?_writeInt i h)
  | real d => exact token?_of_number? (number?_writeDecimal d h)
  | str s => exact token?_quote s rest
  | lone =>
    have hw : writeScalar .lone = ['"', '\\', 'u', 'd', '8', '0', '0', '"'] := by decide
    have hcode : hex4? 'd' '8' '0' '0' = some 0xD800 := by decide
    rw [hw]
    simp [token?, literal?, hcode, textOf?, scalarToken]
  | arr items => simp [depth] at hv
  | obj members => simp [depth] at hv

end Json

end DataRace
