import TieredEngine.Eval.Error
import TieredEngine.Ir.Value

/-!
Meaning of the operations on values. Integers are computed on sixty-four raw bits and brought back
to the normal form of the type, so that narrow arithmetic wraps; signedness matters only to
division, right shifts, order and conversion. The plain order comparisons read the raw bits as
signed for every type. Floating point is computed in double precision and rounded to the type.
-/
namespace TieredEngine.Eval
open TieredEngine.Ir TieredEngine.Number

/-- Shift amounts count modulo the width. -/
def shiftCount (t : Ty) (y : Value) : UInt64 :=
  if t.width = 0 then 0 else y.toWord &&& UInt64.ofNat (t.width - 1)

def floatBinary (op : Op) (a b : Datum) : Datum :=
  match op with
  | .fadd => a.add binary64 b
  | .fsub => a.sub binary64 b
  | .fmul => a.mul binary64 b
  | .fdiv => a.div binary64 b
  | .frem => a.rem binary64 b
  | _ => .finite false 0 0

/-- Arithmetic and bitwise operations on two values of the type `t`. -/
def binary (op : Op) (t : Ty) (x y : Value) : Except Cause Value :=
  if x.ty ≠ t ∨ y.ty ≠ t then .error (.binaryTypes op t x.ty y.ty)
  else if op.isFloat then
    if !t.isFloat then .error (.needsFloat op t)
    else .ok (Value.ofDatum t (floatBinary op x.widened y.widened))
  else if !t.isIntLike then .error (.needsInteger op t)
  else
    let a := x.bits
    let b := y.bits
    match op with
    | .add => .ok (Value.ofBits t (a + b))
    | .sub => .ok (Value.ofBits t (a - b))
    | .mul => .ok (Value.ofBits t (a * b))
    | .div =>
      if y.toWord = 0 then .error (.divideByZero op t)
      else if t.isSigned then .ok (Value.ofBits t (a.toInt64 / b.toInt64).toUInt64)
      else .ok (Value.ofBits t (x.toWord / y.toWord))
    | .rem =>
      if y.toWord = 0 then .error (.divideByZero op t)
      else if t.isSigned then .ok (Value.ofBits t (a.toInt64 % b.toInt64).toUInt64)
      else .ok (Value.ofBits t (x.toWord % y.toWord))
    | .and => .ok (Value.ofBits t (a &&& b))
    | .or => .ok (Value.ofBits t (a ||| b))
    | .xor => .ok (Value.ofBits t (a ^^^ b))
    | .shl => .ok (Value.ofBits t (a <<< shiftCount t y))
    | .shr =>
      if t.isSigned then .ok (Value.ofBits t (a.toInt64 >>> (shiftCount t y).toInt64).toUInt64)
      else .ok (Value.ofBits t (x.toWord >>> shiftCount t y))
    | _ => .error (.notBinary op)

def unary (op : Op) (t : Ty) (x : Value) : Except Cause Value :=
  if x.ty ≠ t then .error (.unaryTypes op t x.ty)
  else
    match op with
    | .neg =>
      if !t.isIntLike then .error (.needsInteger op t) else .ok (Value.ofBits t (0 - x.bits))
    | .not =>
      if t = .bool then .ok (Value.ofBool (!x.toBool))
      else if !t.isIntLike then .error (.needsInteger op t)
      else .ok (Value.ofBits t (~~~ x.bits))
    | .fneg =>
      if !t.isFloat then .error (.needsFloat op t)
      else .ok (Value.ofDatum t x.widened.negate)
    | _ => .error (.notUnary op)

/-- Ordered comparisons are false of a not-a-number; `fne` is its exception. -/
def floatCompare (op : Op) (a b : Datum) : Bool :=
  let order := a.compare? b
  match op with
  | .feq => order = some .eq
  | .fne => order ≠ some .eq
  | .flt => order = some .lt
  | .fle => order = some .lt || order = some .eq
  | .fgt => order = some .gt
  | .fge => order = some .gt || order = some .eq
  | .ford => !a.isNotANumber && !b.isNotANumber
  | .funo => a.isNotANumber || b.isNotANumber
  | _ => false

def compare (op : Op) (x y : Value) : Except Cause Value :=
  let t := x.ty
  if y.ty ≠ t then .error (.compareTypes op t y.ty)
  else if op.isFloat then
    if !t.isFloat then .error (.needsFloat op t)
    else .ok (Value.ofBool (floatCompare op x.datum y.datum))
  else if !t.isIntLike then .error (.needsInteger op t)
  else
    let a := x.bits.toInt64
    let b := y.bits.toInt64
    match op with
    | .eq => .ok (Value.ofBool (a == b))
    | .ne => .ok (Value.ofBool (a != b))
    | .lt => .ok (Value.ofBool (a < b))
    | .le => .ok (Value.ofBool (a ≤ b))
    | .gt => .ok (Value.ofBool (b < a))
    | .ge => .ok (Value.ofBool (b ≤ a))
    | .ult => .ok (Value.ofBool (x.toWord < y.toWord))
    | .ule => .ok (Value.ofBool (x.toWord ≤ y.toWord))
    | .ugt => .ok (Value.ofBool (y.toWord < x.toWord))
    | .uge => .ok (Value.ofBool (y.toWord ≤ x.toWord))
    | _ => .error (.notComparison op)

/-- The floating-point value nearest to an integer-like value, rounded once. -/
def intToFloat (target : Ty) (x : Value) : Value :=
  let n : Int := if x.ty.isSigned then x.toInt else x.bits.toNat
  match target with
  | .f32 => ⟨.f32, UInt64.ofNat (binary32.write (Datum.ofInt n))⟩
  | _ => ⟨.f64, UInt64.ofNat (binary64.write (Datum.ofInt n))⟩

/-- Truncates toward zero and saturates at the ends of the type; not-a-number gives zero. -/
def floatToInt (target : Ty) (d : Datum) : Value :=
  let w := target.width
  let (lo, hi) : Int × Int :=
    if target.isSigned then (-(Nat.pow 2 (w - 1) : Nat), (Nat.pow 2 (w - 1) : Nat) - 1)
    else (0, (Nat.pow 2 w : Nat) - 1)
  match d with
  | .notANumber .. => Value.zero target
  | .infinite negative => Value.ofInt target (if negative then lo else hi)
  | .finite .. => Value.ofInt target (max lo (min hi (d.truncated?.getD 0)))

/-- Conversion to the type `target`. To a boolean it tests for non-zero. -/
def cast (target : Ty) (x : Value) : Except Cause Value :=
  let source := x.ty
  if target = .void ∨ source = .void then .error (.badCast source target)
  else if target = .bool then
    if source.isFloat then .ok (Value.ofBool (!x.datum.isZero))
    else .ok (Value.ofBool (x.bits != 0))
  else if source.isIntLike then
    if target.isIntLike then .ok (Value.ofBits target x.bits) else .ok (intToFloat target x)
  else if target.isFloat then .ok (Value.ofDatum target x.widened)
  else .ok (floatToInt target x.datum)

/-- Choice between two values of one type by a boolean. -/
def select (c a b : Value) : Except Cause Value :=
  if c.ty ≠ .bool ∨ a.ty ≠ b.ty then .error (.selectTypes c.ty a.ty b.ty)
  else .ok (if c.toBool then a else b)

/-- Result of a pure instruction on known operands, if it has one of the type it declares. Division
by zero, ill-typed operands and operations with effects on the frame have none. -/
def fold? (i : Inst) (args : List Value) : Option Value :=
  let result : Option Value :=
    match args with
    | [a] =>
      if i.op = .copy then some a
      else if i.op.isUnary then (unary i.op i.ty a).toOption
      else if i.op = .cast then (cast i.ty a).toOption
      else none
    | [a, b] =>
      if i.op.isBinary then (binary i.op i.ty a b).toOption
      else if i.op.isCompare then (compare i.op a b).toOption
      else none
    | [c, a, b] => if i.op = .select then (select c a b).toOption else none
    | _ => none
  result.filter (·.ty == i.ty)

end TieredEngine.Eval
