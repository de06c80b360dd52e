import TieredEngine.Number.Binary
import TieredEngine.Text.Quoted

/-!
Spans of time in whole nanoseconds, sixty-four bits wide. They are written with the largest units
that fit: below a second in one unit with a fraction, from a second on as hours, minutes and
seconds. They are read as a sign and a sequence of decimal numbers with units.
-/
namespace TieredEngine.Time

abbrev Duration := Int64

namespace Duration

def nanosecond : Nat := 1
def microsecond : Nat := 1000
def millisecond : Nat := 1000000
def second : Nat := 1000000000
def minute : Nat := 60 * second
def hour : Nat := 60 * minute

def ofNat (n : Nat) : Duration := Int64.ofNat n

/-- The longest span. -/
def longest : Duration := Int64.maxValue

/-- `n / 10 ^ places` in decimal, without trailing zeros of the fraction. -/
def fraction (n places : Nat) : String :=
  let ds := Nat.toDigits 10 (n % Nat.pow 10 places)
  let padded := List.replicate (places - ds.length) '0' ++ ds
  let kept := (padded.reverse.dropWhile (· == '0')).reverse
  toString (n / Nat.pow 10 places) ++ (if kept.isEmpty then "" else "." ++ String.ofList kept)

def magnitudeText (n : Nat) : String :=
  if n = 0 then "0s"
  else if n < microsecond then s!"{n}ns"
  else if n < millisecond then fraction n 3 ++ "µs"
  else if n < second then fraction n 6 ++ "ms"
  else
    let rest := fraction (n % minute) 9 ++ "s"
    if n < minute then rest
    else
      let m := n / minute
      if m < 60 then s!"{m}m{rest}" else s!"{m / 60}h{m % 60}m{rest}"

def text (d : Duration) : String :=
  let z := d.toInt
  (if z < 0 then "-" else "") ++ magnitudeText z.natAbs

/-- Why a text is not a span of time. -/
inductive ParseError where
  | invalid (text : String)
  | missingUnit (text : String)
  | unknownUnit (unit text : String)
  deriving DecidableEq, Repr

/-- Quotes for these messages: every byte that is not plain ASCII is given in hexadecimal. -/
def quotedBytes (s : String) : String :=
  let shown := s.toUTF8.toList.map fun b =>
    let n := b.toNat
    if n == 0x22 || n == 0x5C then String.ofList ['\\', Char.ofNat n]
    else if n < 0x20 || 0x80 ≤ n then "\\x" ++ Text.hexPadded 2 n
    else String.singleton (Char.ofNat n)
  "\"" ++ String.join shown ++ "\""

def ParseError.message : ParseError → String
  | .invalid s => s!"time: invalid duration {quotedBytes s}"
  | .missingUnit s => s!"time: missing unit in duration {quotedBytes s}"
  | .unknownUnit u s => s!"time: unknown unit {quotedBytes u} in duration {quotedBytes s}"

def unit? : String → Option Nat
  | "ns" => some nanosecond
  | "us" | "µs" | "μs" => some microsecond
  | "ms" => some millisecond
  | "s" => some second
  | "m" => some minute
  | "h" => some hour
  | _ => none

private def digitsValue (ds : List Char) : Nat :=
  ds.foldl (fun n c => n * 10 + (c.toNat - '0'.toNat)) 0

/-- Whole part of a fraction's value in a unit, computed in double precision; digits beyond what
sixty-three bits hold are cut. -/
def fractionValue (digits : List Char) (unit : Nat) : Nat :=
  let step (acc : Nat × Nat × Bool) (c : Char) : Nat × Nat × Bool :=
    let (n, scale, full) := acc
    if full then acc
    else if n > (Nat.pow 2 63 - 1) / 10 then (n, scale, true)
    else
      let m := n * 10 + (c.toNat - '0'.toNat)
      if m > Nat.pow 2 63 then (n, scale, true) else (m, scale * 10, false)
  let (n, scale, _) := digits.foldl step (0, 1, false)
  let rounded (d : Number.Datum) : Number.Datum := Number.binary64.round d
  let factor := rounded (Number.Datum.div Number.binary64 (.ofInt unit) (.ofInt scale))
  let value := rounded (Number.Datum.mul Number.binary64 (rounded (.ofInt n)) factor)
  (value.truncated?.getD 0).toNat

/-- Adds numbers with units until the text ends. The total may reach `2 ^ 63`. -/
def parseTerms (whole : String) : Nat → Nat → List Char → Except ParseError Nat
  | 0, _, _ => .error (.invalid whole)
  | _ + 1, total, [] => .ok total
  | fuel + 1, total, s =>
    let int := s.takeWhile Char.isDigit
    let rest := s.dropWhile Char.isDigit
    let (frac, rest, point) := match rest with
      | '.' :: more => (more.takeWhile Char.isDigit, more.dropWhile Char.isDigit, true)
      | _ => ([], rest, false)
    let isUnit (c : Char) : Bool := c != '.' && !c.isDigit
    let unitChars := rest.takeWhile isUnit
    if digitsValue int > Nat.pow 2 63 then .error (.invalid whole)
    else if int.isEmpty && frac.isEmpty then
      let _ := point
      .error (.invalid whole)
    else if unitChars.isEmpty then .error (.missingUnit whole)
    else
      let u := String.ofList unitChars
      match unit? u with
      | none => .error (.unknownUnit u whole)
      | some scale =>
        let v := digitsValue int * scale
        if v > Nat.pow 2 63 then .error (.invalid whole)
        else
          let v := v + fractionValue frac scale
          if v > Nat.pow 2 63 || total + v > Nat.pow 2 63 then .error (.invalid whole)
          else parseTerms whole fuel (total + v) (rest.dropWhile isUnit)

def parse (s : String) : Except ParseError Duration :=
  let cs := s.toList
  let (negative, body) := match cs with
    | '-' :: rest => (true, rest)
    | '+' :: rest => (false, rest)
    | _ => (false, cs)
  if body = ['0'] then .ok 0
  else if body.isEmpty then .error (.invalid s)
  else do
    let n ← parseTerms s (body.length + 1) 0 body
    if negative then .ok (Int64.ofInt (-(n : Int)))
    else if n > Nat.pow 2 63 - 1 then .error (.invalid s)
    else .ok (Int64.ofNat n)

end Duration

end TieredEngine.Time
