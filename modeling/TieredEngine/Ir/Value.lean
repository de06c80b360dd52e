import TieredEngine.Ir.Ty
import TieredEngine.Number.Binary

/-!
Run-time values: a type and sixty-four raw bits. The bits are kept in the normal form of the type:
signed integers are sign-extended, unsigned ones zero-extended, a boolean is zero or one, and a
single-precision number occupies the low thirty-two bits.
-/
namespace TieredEngine.Ir

/-- Cuts raw bits to a type's width and extends them again by its signedness. -/
def normalize : Ty → UInt64 → UInt64
  | .void, _ => 0
  | .bool, b => b &&& 1
  | .i8, b => b.toUInt8.toInt8.toInt64.toUInt64
  | .i16, b => b.toUInt16.toInt16.toInt64.toUInt64
  | .i32, b => b.toUInt32.toInt32.toInt64.toUInt64
  | .u8, b => b &&& 0xff
  | .u16, b => b &&& 0xffff
  | .u32, b => b &&& 0xffffffff
  | .f32, b => b &&& 0xffffffff
  | .i64, b | .u64, b | .f64, b | .ptr, b => b

structure Value where
  ty : Ty
  bits : UInt64
  deriving DecidableEq, Repr, Inhabited

namespace Value

/-- The value of a type with the given raw bits, brought to normal form. -/
def ofBits (t : Ty) (bits : UInt64) : Value := ⟨t, normalize t bits⟩

/-- A whole number wrapped into a type. -/
def ofInt (t : Ty) (n : Int) : Value := ofBits t (Int64.ofInt n).toUInt64

def ofNat (t : Ty) (n : Nat) : Value := ofBits t (UInt64.ofNat n)

def ofBool (b : Bool) : Value := ⟨.bool, if b then 1 else 0⟩

def void : Value := ⟨.void, 0⟩

/-- The all-zero value of a type. -/
def zero (t : Ty) : Value := ⟨t, 0⟩

/-- All ones in the low bits of a width. -/
def widthMask (w : Nat) : UInt64 := UInt64.ofNat (Nat.pow 2 w - 1)

/-- The bits as a signed number. -/
def toInt (v : Value) : Int := v.bits.toInt64.toInt

/-- The bits of the type's width as an unsigned word. -/
def toWord (v : Value) : UInt64 :=
  if v.ty.isSigned then v.bits &&& widthMask v.ty.width else v.bits

def toBool (v : Value) : Bool := v.bits != 0

def isVoid (v : Value) : Bool := v.ty == .void

/-- The number a value stands for when read as floating point. -/
def datum (v : Value) : Number.Datum :=
  match v.ty with
  | .f32 => Number.binary32.read v.bits.toNat
  | _ => Number.binary64.read v.bits.toNat

/-- A single-precision number as it is held in double precision. -/
def widened (v : Value) : Number.Datum :=
  match v.ty with
  | .f32 => v.datum.carry Number.binary32 Number.binary64
  | _ => v.datum

/-- The floating-point value nearest to a double-precision number. -/
def ofDatum (t : Ty) (d : Number.Datum) : Value :=
  match t with
  | .f32 =>
    let rounded := Number.binary64.read (Number.binary64.write d)
    ⟨.f32, UInt64.ofNat (Number.binary32.write (rounded.carry Number.binary64 Number.binary32))⟩
  | _ => ⟨.f64, UInt64.ofNat (Number.binary64.write d)⟩

/-- Single-precision word nearest to the value. -/
def singleWord (v : Value) : Nat :=
  match v.ty with
  | .f32 => v.bits.toNat % Nat.pow 2 32
  | _ => Number.binary32.write (v.datum.carry Number.binary64 Number.binary32)

end Value

end TieredEngine.Ir
