/-!
Whole numbers written in text. A literal may carry a base mark (`0x`, `0o`, `0b`, or a leading
zero for octal) and underscores between digits; a plain numeral is decimal digits only. Digits are
read from left to right, and a value too large is reported as soon as it is seen, before any later
digit is looked at.
-/
namespace TieredEngine.Text

/-- Why a numeral was refused. -/
inductive NumeralError where
  | malformed
  | outOfRange
  deriving DecidableEq, Repr

def NumeralError.message : NumeralError → String
  | .malformed => "invalid syntax"
  | .outOfRange => "value out of range"

/-- Value of a digit or letter (`a` is ten), for any base up to 36. -/
def digitValue? (c : Char) : Option Nat :=
  if c.isDigit then some (c.toNat - '0'.toNat)
  else
    let l := c.toLower
    if 'a' ≤ l && l ≤ 'z' then some (l.toNat - 'a'.toNat + 10) else none

/-- What the underscore rule has just seen. -/
private inductive Seen where
  | start | digit | underscore | other
  deriving DecidableEq

private def underscoresFrom (hex : Bool) : Seen → List Char → Bool
  | seen, [] => seen != .underscore
  | seen, c :: rest =>
    if c.isDigit || (hex && 'a' ≤ c.toLower && c.toLower ≤ 'f') then underscoresFrom hex .digit rest
    else if c == '_' then seen == .digit && underscoresFrom hex .underscore rest
    else seen != .underscore && underscoresFrom hex .other rest

/-- Whether a literal has a minus sign, and the text after its sign. -/
def splitSign : List Char → Bool × List Char
  | '-' :: rest => (true, rest)
  | '+' :: rest => (false, rest)
  | s => (false, s)

/-- An underscore stands only between two digits; a base mark counts as a digit. -/
def underscoresSeparateDigits (s : List Char) : Bool :=
  let body := (splitSign s).2
  match body with
  | '0' :: b :: rest =>
    let l := b.toLower
    if l == 'b' || l == 'o' || l == 'x' then underscoresFrom (l == 'x') .digit rest
    else underscoresFrom false .start body
  | _ => underscoresFrom false .start body

/-- Reads digits of a base onto a value read so far, which has to stay below a limit. -/
def accumulate (base limit : Nat) (underscores : Bool) :
    Nat → List Char → Except NumeralError Nat
  | n, [] => .ok n
  | n, c :: rest =>
    if c == '_' && underscores then accumulate base limit underscores n rest
    else match digitValue? c with
      | none => .error .malformed
      | some d =>
        if base ≤ d then .error .malformed
        else if limit ≤ n * base + d then .error .outOfRange
        else accumulate base limit underscores (n * base + d) rest

/-- Base and remaining digits of a literal, by its mark. -/
def splitBase : List Char → Nat × List Char
  | '0' :: rest =>
    match rest with
    | b :: c :: more =>
      match b.toLower with
      | 'b' => (2, c :: more)
      | 'o' => (8, c :: more)
      | 'x' => (16, c :: more)
      | _ => (8, rest)
    | _ => (8, rest)
  | s => (10, s)

/-- An unsigned literal below `2 ^ bits`, with base mark and underscores. -/
def unsignedLiteral (bits : Nat) (s : List Char) : Except NumeralError Nat :=
  if s.isEmpty then .error .malformed
  else do
    let (base, digits) := splitBase s
    let n ← accumulate base (Nat.pow 2 bits) true 0 digits
    if s.contains '_' && !underscoresSeparateDigits s then .error .malformed else .ok n

/-- Digits of a base only, below `2 ^ bits`. -/
def unsignedDigits (base bits : Nat) (s : List Char) : Except NumeralError Nat :=
  if s.isEmpty then .error .malformed else accumulate base (Nat.pow 2 bits) false 0 s

/-- Decimal digits only, below `2 ^ bits`. -/
def unsignedDecimal (bits : Nat) (s : List Char) : Except NumeralError Nat :=
  unsignedDigits 10 bits s

/-- A sign and a magnitude that together fit `bits` bits in two's complement. -/
def withSign (bits : Nat) (magnitude : List Char → Except NumeralError Nat)
    (s : List Char) : Except NumeralError Int := do
  let (negative, body) := splitSign s
  let n ← magnitude body
  if negative then
    if n ≤ Nat.pow 2 (bits - 1) then .ok (-(n : Int)) else .error .outOfRange
  else if n < Nat.pow 2 (bits - 1) then .ok n else .error .outOfRange

/-- A signed literal that fits `bits` bits in two's complement. -/
def signedLiteral (bits : Nat) (s : List Char) : Except NumeralError Int :=
  withSign bits (unsignedLiteral bits) s

/-- Sign and digits of a base that fit `bits` bits in two's complement. -/
def signedDigits (base bits : Nat) (s : List Char) : Except NumeralError Int :=
  withSign bits (unsignedDigits base bits) s

/-- Sign and decimal digits that fit `bits` bits in two's complement. -/
def signedDecimal (bits : Nat) (s : List Char) : Except NumeralError Int := signedDigits 10 bits s

end TieredEngine.Text
