import TieredEngine.Ir.Value
import TieredEngine.Number.Shortest
import TieredEngine.Number.Reading
import TieredEngine.Text.Blank
import TieredEngine.Text.Quoted
import TieredEngine.Text.Numeral

/-!
Values in text. A literal is written by its type: booleans as words, signed integers in decimal,
unsigned ones in decimal, addresses in hexadecimal, floating point in its shortest digits. Reading
accepts surrounding blanks, base marks and underscores, and wraps a number that is wider than the
type but fits sixty-four bits.
-/
namespace TieredEngine.Ir

/-- Text that is not a literal of the type. -/
structure LiteralError where
  ty : Ty
  text : String
  deriving DecidableEq, Repr

def LiteralError.message (e : LiteralError) : String :=
  s!"invalid {e.ty.name} literal {Text.quoted e.text}"

def unknownTypeMessage (name : String) : String := s!"unknown type {Text.quoted name}"

namespace Value

/-- The literal without its type; nothing for the empty value. -/
def literal (v : Value) : String :=
  match v.ty with
  | .void => ""
  | .bool => if v.toBool then "true" else "false"
  | .i8 | .i16 | .i32 | .i64 => toString v.toInt
  | .f32 => Number.binary32.text v.datum
  | .f64 => Number.binary64.text v.datum
  | .ptr => "0x" ++ String.ofList (Nat.toDigits 16 v.bits.toNat)
  | .u8 | .u16 | .u32 | .u64 => toString v.bits.toNat

/-- Type and literal. -/
def text (v : Value) : String :=
  match v.ty with
  | .void => "void"
  | t => t.name ++ " " ++ v.literal

def boolLiteral? (s : String) : Option Bool :=
  if ["1", "t", "T", "TRUE", "true", "True"].contains s then some true
  else if ["0", "f", "F", "FALSE", "false", "False"].contains s then some false
  else none

/-- Reads a literal of a type. -/
def parse (t : Ty) (text : String) : Except LiteralError Value :=
  let s := Text.trim text
  let bad : LiteralError := ⟨t, s⟩
  match t with
  | .void => .ok void
  | .bool =>
    match boolLiteral? s with
    | some b => .ok (ofBool b)
    | none => .error bad
  | .i8 | .i16 | .i32 | .i64 =>
    match Text.signedLiteral 64 s.toList with
    | .ok n => .ok (ofInt t n)
    | .error _ => .error bad
  | .f32 | .f64 =>
    match Number.readLiteral s.toList with
    | .ok word => .ok (ofDatum t (Number.binary64.read word))
    | .error _ => .error bad
  | .u8 | .u16 | .u32 | .u64 | .ptr =>
    match Text.unsignedLiteral 64 s.toList with
    | .ok n => .ok (ofNat t n)
    | .error _ => .error bad

end Value

end TieredEngine.Ir
