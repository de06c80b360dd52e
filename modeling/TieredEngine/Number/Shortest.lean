import TieredEngine.Number.Binary

/-!
Decimal text of binary floating-point words. The digits are the fewest that read back to the same
word; among numerals of that length the nearest to the exact value is taken, and of two that are
equally near the one that ends in an even digit. A search over one, two, three digits and so on
looks, on each decimal grid, only at the two neighbours of the value, because if any point of a grid
reads back then one of these two does.
-/
namespace TieredEngine.Number

/-- `digits * 10 ^ exponent`, with no trailing zero in `digits` unless it is zero. -/
structure Decimal where
  digits : Nat
  exponent : Int
  deriving DecidableEq, Repr

/-- `base ^ e` as a fraction of whole numbers. -/
def powerFraction (base : Nat) (e : Int) : Nat × Nat :=
  if 0 ≤ e then (Nat.pow base e.toNat, 1) else (1, Nat.pow base (-e).toNat)

/-- The `k` with `10 ^ k ≤ num / den < 10 ^ (k + 1)`, for positive `num` and `den`. -/
def decimalMagnitude (num den : Nat) : Int :=
  let fits (k : Int) : Bool :=
    let (p, q) := powerFraction 10 k
    p * den ≤ num * q
  let bits : Int := (num.log2 : Int) - den.log2
  let guess := Int.fdiv ((bits - 1) * 30103) 100000
  if fits (guess + 2) then guess + 2
  else if fits (guess + 1) then guess + 1
  else if fits guess then guess
  else guess - 1

/-- The decimals that read back to `mantissa * 2 ^ exponent`, in quarters of its last bit: from
`low` to `high`, the ends included when the mantissa is even. -/
structure RoundingInterval where
  low : Nat
  high : Nat
  closed : Bool

def Format.interval (f : Format) (mantissa : Nat) (exponent : Int) : RoundingInterval :=
  let tight := mantissa = Nat.pow 2 f.fractionBits && f.leastExponent < exponent
  ⟨if tight then 4 * mantissa - 1 else 4 * mantissa - 2, 4 * mantissa + 2, mantissa % 2 = 0⟩

/-- Whether `n * 10 ^ k` lies in the interval whose unit is `num / den`. -/
def RoundingInterval.contains (iv : RoundingInterval) (num den n : Nat) (k : Int) : Bool :=
  let (p, q) := powerFraction 10 k
  let point := n * p * den
  let unit := q * num
  if iv.closed then iv.low * unit ≤ point && point ≤ iv.high * unit
  else iv.low * unit < point && point < iv.high * unit

/-- Removes trailing zeros from digits; at most `fuel` of them. -/
def Decimal.trimZeros : Nat → Nat → Int → Decimal
  | 0, n, k => ⟨n, k⟩
  | fuel + 1, n, k => if n % 10 = 0 && n ≠ 0 then trimZeros fuel (n / 10) (k + 1) else ⟨n, k⟩

private def searchDigits (iv : RoundingInterval) (num den value : Nat) (top : Int) :
    Nat → Nat → Decimal
  | 0, count =>
    let k := top - count + 1
    let (p, q) := powerFraction 10 k
    Decimal.trimZeros 20 (value * q * num / (p * den)) k
  | fuel + 1, count =>
    let k := top - count + 1
    let (p, q) := powerFraction 10 k
    -- The value is `value * num / den`; `below` is its floor on the grid `10 ^ k`.
    let below := value * q * num / (p * den)
    let rest := value * q * num % (p * den)
    let isNearer := 2 * rest < p * den || (2 * rest = p * den && below % 2 = 0)
    let okBelow := iv.contains num den below k
    let okAbove := iv.contains num den (below + 1) k
    if okBelow && (!okAbove || isNearer) then Decimal.trimZeros 20 below k
    else if okAbove then Decimal.trimZeros 20 (below + 1) k
    else searchDigits iv num den value top fuel (count + 1)

/-- Shortest decimal that reads back to the positive word `mantissa * 2 ^ exponent`. -/
def Format.shortest (f : Format) (mantissa : Nat) (exponent : Int) : Decimal :=
  let (num, den) := powerFraction 2 (exponent - 2)
  let top := decimalMagnitude (4 * mantissa * num) den
  searchDigits (f.interval mantissa exponent) num den (4 * mantissa) top 17 1

/-- How a decimal is laid out. -/
structure Layout where
  /-- Smallest decimal exponent written without an exponent part. -/
  least : Int
  /-- First decimal exponent from which on an exponent part is written. -/
  bound : Int
  /-- Fewest digits of an exponent part. -/
  exponentDigits : Nat
  deriving DecidableEq, Repr

/-- General layout: an exponent part below `0.0001` and from a million on, with its sign and at
least two digits. -/
def Layout.general : Layout := ⟨-4, 6, 2⟩

/-- An exponent part with its sign and at least `least` digits. -/
def exponentText (least : Nat) (e : Int) : String :=
  let ds := Nat.toDigits 10 e.natAbs
  (if e < 0 then "e-" else "e+") ++
    String.ofList (List.replicate (least - ds.length) '0' ++ ds)

/-- Digits laid out with a point where the layout wants one. -/
def Layout.render (l : Layout) (d : Decimal) : String :=
  let ds := Nat.toDigits 10 d.digits
  let top : Int := d.exponent + ds.length - 1
  if top < l.least || l.bound ≤ top then
    let fraction := ds.drop 1
    String.ofList (ds.take 1) ++
      (if fraction.isEmpty then "" else "." ++ String.ofList fraction) ++
      exponentText l.exponentDigits top
  else if 0 ≤ d.exponent then String.ofList (ds ++ List.replicate d.exponent.toNat '0')
  else if 0 ≤ top then
    let whole := top.toNat + 1
    String.ofList (ds.take whole) ++ "." ++ String.ofList (ds.drop whole)
  else "0." ++ String.ofList (List.replicate (-top - 1).toNat '0' ++ ds)

/-- Text of a datum of a format, in its shortest digits. -/
def Format.text (f : Format) : Datum → String
  | .notANumber .. => "NaN"
  | .infinite n => if n then "-Inf" else "+Inf"
  | .finite n m e =>
    let magnitude := if m = 0 then "0" else Layout.general.render (f.shortest m e)
    if n then "-" ++ magnitude else magnitude

end TieredEngine.Number
