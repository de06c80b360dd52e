/-!
Binary floating point on words. A word of a format is read as a sign, a whole mantissa and a power
of two, or as an infinity or a not-a-number; every operation computes the exact result on these and
rounds once, to the nearest word, ties to the even mantissa. Not-a-numbers keep their sign and
payload: an operation passes on its first not-a-number operand made quiet, and an invalid operation
gives the negative quiet one with an empty payload.
-/
namespace TieredEngine.Number

/-- A binary interchange format. -/
structure Format where
  /-- Significant bits, the leading one included. -/
  precision : Nat
  /-- Width of the exponent field. -/
  exponentBits : Nat
  deriving DecidableEq, Repr

def binary32 : Format := ⟨24, 8⟩
def binary64 : Format := ⟨53, 11⟩

/-- What a word stands for. -/
inductive Datum where
  | notANumber (negative : Bool) (payload : Nat)
  | infinite (negative : Bool)
  /-- Plus or minus `mantissa * 2 ^ exponent`. -/
  | finite (negative : Bool) (mantissa : Nat) (exponent : Int)
  deriving DecidableEq, Repr

namespace Format

/-- Width of the stored fraction. -/
def fractionBits (f : Format) : Nat := f.precision - 1

/-- Exponent field of infinities and not-a-numbers. -/
def specialField (f : Format) : Nat := Nat.pow 2 f.exponentBits - 1

/-- Power of two that the last bit of the smallest words stands for. -/
def leastExponent (f : Format) : Int :=
  2 - (Nat.pow 2 (f.exponentBits - 1) : Nat) - (f.fractionBits : Int)

/-- Payload bit that marks a not-a-number as quiet. -/
def quietBit (f : Format) : Nat := Nat.pow 2 (f.fractionBits - 1)

def signWord (f : Format) (negative : Bool) : Nat :=
  if negative then Nat.pow 2 (f.fractionBits + f.exponentBits) else 0

/-- Reads a word. -/
def read (f : Format) (word : Nat) : Datum :=
  let fraction := word % Nat.pow 2 f.fractionBits
  let field := word / Nat.pow 2 f.fractionBits % Nat.pow 2 f.exponentBits
  let negative := word.testBit (f.fractionBits + f.exponentBits)
  if field = f.specialField then
    if fraction = 0 then .infinite negative else .notANumber negative fraction
  else if field = 0 then .finite negative fraction f.leastExponent
  else .finite negative (fraction + Nat.pow 2 f.fractionBits) (f.leastExponent + field - 1)

/-- Whole number nearest to `m / 2 ^ shift`, ties to even. -/
def shiftNearest (m shift : Nat) : Nat :=
  let q := m / Nat.pow 2 shift
  let r := m % Nat.pow 2 shift
  if 2 * r > Nat.pow 2 shift || (2 * r = Nat.pow 2 shift && q % 2 = 1) then q + 1 else q

/-- The word without sign that is nearest to `mantissa * 2 ^ exponent`. -/
def roundMagnitude (f : Format) (mantissa : Nat) (exponent : Int) : Nat :=
  if mantissa = 0 then 0
  else
    let least := max (exponent + mantissa.log2 + 1 - f.precision) f.leastExponent
    let kept :=
      if least ≤ exponent then mantissa * Nat.pow 2 (exponent - least).toNat
      else shiftNearest mantissa (least - exponent).toNat
    let field := (least - f.leastExponent).toNat
    -- The leading one of the mantissa, and a carry out of it, move into the exponent field.
    min (field * Nat.pow 2 f.fractionBits + kept) (f.specialField * Nat.pow 2 f.fractionBits)

/-- The word nearest to a datum. -/
def write (f : Format) : Datum → Nat
  | .notANumber n payload =>
    f.signWord n + f.specialField * Nat.pow 2 f.fractionBits + payload % Nat.pow 2 f.fractionBits
  | .infinite n => f.signWord n + f.specialField * Nat.pow 2 f.fractionBits
  | .finite n m e => f.signWord n + f.roundMagnitude m e

/-- The datum of the nearest word. -/
def round (f : Format) (d : Datum) : Datum := f.read (f.write d)

end Format

namespace Datum

def isNotANumber : Datum → Bool
  | .notANumber .. => true
  | _ => false

def isInfinite : Datum → Bool
  | .infinite _ => true
  | _ => false

def isNegative : Datum → Bool
  | .notANumber n _ => n
  | .infinite n => n
  | .finite n _ _ => n

def isZero : Datum → Bool
  | .finite _ 0 _ => true
  | _ => false

def negate : Datum → Datum
  | .notANumber n p => .notANumber (!n) p
  | .infinite n => .infinite (!n)
  | .finite n m e => .finite (!n) m e

/-- The quiet form of a not-a-number of format `f`. -/
def quiet (f : Format) : Datum → Datum
  | .notANumber n p => .notANumber n (p ||| f.quietBit)
  | d => d

/-- Result of an invalid operation. -/
def invalid (f : Format) : Datum := .notANumber true f.quietBit

/-- A not-a-number carried from one format to another keeps the leading payload bits. -/
def carry (source target : Format) : Datum → Datum
  | .notANumber n p =>
    let moved := if target.fractionBits ≤ source.fractionBits
      then p / Nat.pow 2 (source.fractionBits - target.fractionBits)
      else p * Nat.pow 2 (target.fractionBits - source.fractionBits)
    .notANumber n (moved ||| target.quietBit)
  | d => d

/-- Signed mantissa scaled down to exponent `e`, which is at most the datum's own. -/
def scaled (negative : Bool) (mantissa : Nat) (own e : Int) : Int :=
  let m := (mantissa * Nat.pow 2 (own - e).toNat : Nat)
  if negative then -(m : Int) else m

/-- Exact sum; the sum of opposite finite numbers is positive zero. -/
def add (f : Format) : Datum → Datum → Datum
  | x@(.notANumber ..), _ => x.quiet f
  | _, y@(.notANumber ..) => y.quiet f
  | .infinite a, .infinite b => if a = b then .infinite a else invalid f
  | .infinite a, _ => .infinite a
  | _, .infinite b => .infinite b
  | .finite a m d, .finite b n e =>
    let least := min d e
    let sum := scaled a m d least + scaled b n e least
    if sum = 0 then .finite (a && b) 0 least
    else .finite (sum < 0) sum.natAbs least

def sub (f : Format) (x y : Datum) : Datum :=
  match y with
  | .notANumber .. => add f x y
  | _ => add f x y.negate

def mul (f : Format) : Datum → Datum → Datum
  | x@(.notANumber ..), _ => x.quiet f
  | _, y@(.notANumber ..) => y.quiet f
  | .infinite a, .infinite b => .infinite (a != b)
  | .infinite a, .finite b n _ => if n = 0 then invalid f else .infinite (a != b)
  | .finite a m _, .infinite b => if m = 0 then invalid f else .infinite (a != b)
  | .finite a m d, .finite b n e => .finite (a != b) (m * n) (d + e)

/-- Quotient of whole numbers with at least `bits` significant bits; the last bit is set when the
quotient is not exact, so that one rounding of the result is a rounding of the exact quotient. -/
def quotient (bits m n : Nat) : Nat × Int :=
  let shift := bits + n.log2 + 1 - m.log2
  let scaled := m * Nat.pow 2 shift
  let q := scaled / n
  let sticky := if scaled % n = 0 then 0 else 1
  (2 * q + sticky, -(shift : Int) - 1)

def div (f : Format) : Datum → Datum → Datum
  | x@(.notANumber ..), _ => x.quiet f
  | _, y@(.notANumber ..) => y.quiet f
  | .infinite _, .infinite _ => invalid f
  | .infinite a, .finite b _ _ => .infinite (a != b)
  | .finite a _ e, .infinite b => .finite (a != b) 0 e
  | .finite a m d, .finite b n e =>
    if n = 0 then if m = 0 then invalid f else .infinite (a != b)
    else if m = 0 then .finite (a != b) 0 d
    else
      let (q, shift) := quotient (f.precision + 2) m n
      .finite (a != b) q (d - e + shift)

/-- Remainder of the quotient truncated toward zero; it has the sign of the dividend. An invalid
operation gives the positive quiet not-a-number with payload one. -/
def rem (f : Format) : Datum → Datum → Datum
  | .finite a m d, .finite b n e =>
    if n = 0 then .notANumber false (f.quietBit + 1)
    else
      let least := min d e
      let r := (scaled false m d least).natAbs % (scaled false n e least).natAbs
      let _ := b
      .finite a r least
  | x@(.finite ..), .infinite _ => x
  | _, _ => .notANumber false (f.quietBit + 1)

/-- Order of two numbers; `none` when one of them is not a number. -/
def compare? : Datum → Datum → Option Ordering
  | .notANumber .., _ => none
  | _, .notANumber .. => none
  | .infinite a, .infinite b => some (if a = b then .eq else if a then .lt else .gt)
  | .infinite a, _ => some (if a then .lt else .gt)
  | _, .infinite b => some (if b then .gt else .lt)
  | .finite a m d, .finite b n e =>
    let least := min d e
    some (compare (scaled a m d least) (scaled b n e least))

/-- Whole part, rounded toward zero; infinities and not-a-numbers have none. -/
def truncated? : Datum → Option Int
  | .finite a m e =>
    let n : Nat := if 0 ≤ e then m * Nat.pow 2 e.toNat else m / Nat.pow 2 (-e).toNat
    some (if a then -(n : Int) else n)
  | _ => none

def ofInt (z : Int) : Datum := .finite (z < 0) z.natAbs 0

end Datum

end TieredEngine.Number
