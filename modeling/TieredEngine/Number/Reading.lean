import TieredEngine.Number.Binary
import TieredEngine.Text.Numeral

/-!
Reading floating-point literals: decimal digits with an optional point and exponent, hexadecimal
digits after `0x` with a binary exponent that must be present, underscores between digits, and the
words for infinity and not-a-number in any case. The result is rounded once to the nearest word; a
literal beyond the largest finite word is out of range.
-/
namespace TieredEngine.Number
open TieredEngine.Text

private def lowerAscii (s : List Char) : List Char := s.map Char.toLower

/-- The words for infinity and not-a-number. -/
def special? (s : List Char) : Option Datum :=
  let (sign, body) := match s with
    | '-' :: rest => (some true, rest)
    | '+' :: rest => (some false, rest)
    | _ => (none, s)
  let word := lowerAscii body
  if word = "inf".toList || word = "infinity".toList then some (.infinite (sign.getD false))
  else if word = "nan".toList && sign.isNone then
    some (.notANumber false (binary64.quietBit + 1))
  else none

/-- Digits of a mantissa read so far: their value, how many stand after the point. -/
structure Mantissa where
  value : Nat := 0
  fraction : Nat := 0
  sawPoint : Bool := false
  sawDigit : Bool := false

/-- Reads the longest run of digits, underscores and at most one point. -/
def readMantissa (base : Nat) : Mantissa → List Char → Mantissa × List Char
  | m, [] => (m, [])
  | m, c :: rest =>
    if c == '_' then readMantissa base m rest
    else if c == '.' then
      if m.sawPoint then (m, c :: rest) else readMantissa base { m with sawPoint := true } rest
    else match digitValue? c with
      | some d =>
        if d < base then
          readMantissa base { m with
            value := m.value * base + d
            fraction := if m.sawPoint then m.fraction + 1 else m.fraction
            sawDigit := true } rest
        else (m, c :: rest)
      | none => (m, c :: rest)

/-- Value of exponent digits; once it passes ten thousand further digits are ignored. -/
private def exponentValue : Nat → List Char → Nat × List Char
  | e, [] => (e, [])
  | e, c :: rest =>
    if c == '_' then exponentValue e rest
    else if c.isDigit then
      exponentValue (if e < 10000 then e * 10 + (c.toNat - '0'.toNat) else e) rest
    else (e, c :: rest)

private def readExponent (s : List Char) : Option (Int × List Char) :=
  let (negative, body) := splitSign s
  match body with
  | c :: _ =>
    if c.isDigit then
      let (e, rest) := exponentValue 0 body
      some (if negative then -(e : Int) else e, rest)
    else none
  | [] => none

/-- Exact value of `digits * 10 ^ exponent` with a bit that marks what was cut off; exponents far
outside the range of a double are replaced by ones just outside it. -/
def ofDecimal (negative : Bool) (digits : Nat) (exponent : Int) : Datum :=
  if digits = 0 then .finite negative 0 0
  else
    let size : Int := (Nat.toDigits 10 digits).length
    if 400 < size + exponent then .finite negative 1 4000
    else if size + exponent < -400 then .finite negative 1 (-4000)
    else if 0 ≤ exponent then .finite negative (digits * Nat.pow 10 exponent.toNat) 0
    else
      let (q, shift) := Datum.quotient 70 digits (Nat.pow 10 (-exponent).toNat)
      .finite negative q shift

/-- The sign, then digits, then an exponent: nothing else may follow. -/
def numeral? (s : List Char) : Option Datum := do
  let (negative, body) := splitSign s
  let (hex, digits) := match body with
    | '0' :: x :: c :: rest => if x.toLower == 'x' then (true, c :: rest) else (false, body)
    | _ => (false, body)
  let (m, rest) := readMantissa (if hex then 16 else 10) {} digits
  guard m.sawDigit
  let (e, rest) ← match rest with
    | [] => if hex then none else some ((0 : Int), rest)
    | c :: more =>
      if c.toLower == (if hex then 'p' else 'e') then readExponent more
      else if hex then none
      else some (0, rest)
  guard rest.isEmpty
  guard (!s.contains '_' || underscoresSeparateDigits s)
  if hex then
    let e := if m.value = 0 then 0 else e - 4 * m.fraction
    let size : Int := (m.value.log2 : Int)
    if 4000 < e + size then some (.finite negative (min m.value 1) 4000)
    else if e + size < -4000 then some (.finite negative (min m.value 1) (-4000))
    else some (.finite negative m.value e)
  else some (ofDecimal negative m.value (e - m.fraction))

/-- Reads a literal as a word of double width. -/
def readLiteral (s : List Char) : Except NumeralError Nat :=
  match special? s with
  | some d => .ok (binary64.write d)
  | none =>
    match numeral? s with
    | none => .error .malformed
    | some d =>
      let word := binary64.write d
      if (binary64.read word).isInfinite then .error .outOfRange else .ok word

end TieredEngine.Number
