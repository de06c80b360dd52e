import TieredEngine.Number.Reading
import TieredEngine.Number.Shortest
import TieredEngine.Text.Case
import TieredEngine.Text.Quoted

/-!
Sizes in bytes as text. They are read in powers of 1024 and written in powers of 1000 or of 1024,
with four significant digits.
-/
namespace TieredEngine.Size
open TieredEngine TieredEngine.Number

/-- Why a text is not a size. -/
inductive ParseError where
  | size (text : String)
  | number (text : String) (cause : Text.NumeralError)
  | suffix (text : String)

def ParseError.message : ParseError → String
  | .size s => s!"invalid size: '{s}'"
  | .number s cause => s!"strconv.ParseFloat: parsing {Text.quoted s}: {cause.message}"
  | .suffix s => s!"invalid suffix: '{s}'"

/-- Number of factors 1024 that a lower-case letter stands for. -/
def letterPower? : Char → Option Nat
  | 'k' => some 1
  | 'm' => some 2
  | 'g' => some 3
  | 't' => some 4
  | 'p' => some 5
  | _ => none

/-- Factors of a unit in lower case: `b`, or a letter with an optional `b` or `ib`. Two bytes after
the letter are the most that is compared: what has grown longer by its lower case passes. -/
def unitPower? (unit : List Char) : Option Nat :=
  match unit with
  | [] => some 0
  | ['b'] => some 0
  | c :: rest =>
    let tail := String.ofList rest
    if ["", "b", "ib"].contains tail || 2 < tail.utf8ByteSize then letterPower? c else none

/-- The number up to the last digit, point or blank, and the unit after it. A blank between the
two belongs to neither. -/
def splitUnit (s : List Char) : List Char × List Char :=
  let isNumber (c : Char) : Bool := c.isDigit || c == '.' || c == ' '
  let unit := (s.reverse.takeWhile (!isNumber ·)).reverse
  let head := s.take (s.length - unit.length)
  (if head.getLast? == some ' ' then head.dropLast else head, unit)

/-- Whole bytes of a word of double width; what sixty-four bits cannot hold becomes the least
number. -/
def wholeBytes (d : Datum) : Int :=
  match d.truncated? with
  | some n =>
    if Int64.minValue.toInt ≤ n && n ≤ Int64.maxValue.toInt then n else Int64.minValue.toInt
  | none => Int64.minValue.toInt

/-- Reads a size. -/
def parse (text : String) : Except ParseError Int := do
  let s := text.toList
  if !s.any (fun c => c.isDigit || c == '.' || c == ' ') then throw (.size text)
  let (number, unit) := splitUnit s
  let value ← match readLiteral number with
    | .ok word => pure (binary64.read word)
    | .error cause => throw (.number (String.ofList number) cause)
  if value.compare? (.ofInt 0) == some .lt then throw (.size text)
  if unit.isEmpty then return wholeBytes value
  if 3 < (String.ofList unit).utf8ByteSize then throw (.suffix (String.ofList unit))
  let unit := Text.lower (String.ofList unit)
  match unitPower? unit.toList with
  | some 0 => return wholeBytes value
  | some n => return wholeBytes (binary64.round (.mul binary64 value (.ofInt (Nat.pow 1024 n))))
  | none => throw (.suffix unit)

/-- Four significant digits of a positive quotient, a half going to the even neighbour. -/
def fourDigits (num den : Nat) : Decimal :=
  let top := decimalMagnitude num den
  let (up, down) := powerFraction 10 (3 - top)
  let n := num * up
  let d := den * down
  let q := n / d
  let twice := 2 * (n % d)
  let rounded := if d < twice || (twice = d && q % 2 = 1) then q + 1 else q
  Decimal.trimZeros 8 rounded (top - 3)

/-- Four digits take an exponent part below `0.0001` and from ten thousand on. -/
def layout : Layout := ⟨-4, 4, 2⟩

def fourDigitText : Datum → String
  | .finite negative m e =>
    let body :=
      if m = 0 then "0"
      else
        let (up, down) := powerFraction 2 e
        layout.render (fourDigits (m * up) down)
    if negative then "-" ++ body else body
  | d => binary64.text d

/-- Divides by the base until the number is below it or the units are used up. -/
def scale (base : Nat) : Datum → List String → Datum × String
  | d, [] => (d, "")
  | d, [unit] => (d, unit)
  | d, unit :: more =>
    if d.compare? (.ofInt base) == some .lt then (d, unit)
    else scale base (binary64.round (.div binary64 d (.ofInt base))) more

def scaledText (base : Nat) (units : List String) (bytes : Int) : String :=
  let (d, unit) := scale base (binary64.round (.ofInt bytes)) units
  fourDigitText d ++ unit

/-- A size in powers of 1000. -/
def decimalText : Int → String :=
  scaledText 1000 ["B", "kB", "MB", "GB", "TB", "PB", "EB", "ZB", "YB"]

/-- A size in powers of 1024. -/
def binaryText : Int → String :=
  scaledText 1024 ["B", "KiB", "MiB", "GiB", "TiB", "PiB", "EiB", "ZiB", "YiB"]

end TieredEngine.Size
