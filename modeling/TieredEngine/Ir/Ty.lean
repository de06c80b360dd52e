/-!
The types of registers and values: nothing, booleans, integers of four widths in both
signednesses, two floating-point widths and addresses.
-/
namespace TieredEngine.Ir

inductive Ty where
  | void | bool | i8 | i16 | i32 | i64 | u8 | u16 | u32 | u64 | f32 | f64 | ptr
  deriving DecidableEq, Repr, Inhabited

namespace Ty

/-- All types, in the order of their numbers. -/
def all : List Ty := [void, bool, i8, i16, i32, i64, u8, u16, u32, u64, f32, f64, ptr]

def name : Ty → String
  | void => "void"
  | bool => "bool"
  | i8 => "i8"
  | i16 => "i16"
  | i32 => "i32"
  | i64 => "i64"
  | u8 => "u8"
  | u16 => "u16"
  | u32 => "u32"
  | u64 => "u64"
  | f32 => "f32"
  | f64 => "f64"
  | ptr => "ptr"

def ofName? (s : String) : Option Ty := all.find? (·.name == s)

/-- Number of a type in listings of the types. -/
def code (t : Ty) : Nat := all.idxOf t

def ofCode? (n : Nat) : Option Ty := all[n]?

/-- Name shown for a number, which need not be a type's. -/
def codeName (n : Nat) : String :=
  match ofCode? n with
  | some t => t.name
  | none => s!"type({n})"

/-- Width in bits; nothing is zero bits wide. -/
def width : Ty → Nat
  | void => 0
  | bool => 1
  | i8 | u8 => 8
  | i16 | u16 => 16
  | i32 | u32 | f32 => 32
  | i64 | u64 | f64 | ptr => 64

/-- The eight integer types, booleans and addresses left out. -/
def isInteger : Ty → Bool
  | i8 | i16 | i32 | i64 | u8 | u16 | u32 | u64 => true
  | _ => false

def isSigned : Ty → Bool
  | i8 | i16 | i32 | i64 => true
  | _ => false

def isFloat : Ty → Bool
  | f32 | f64 => true
  | _ => false

/-- Types handled as integer words: integers, booleans and addresses. -/
def isIntLike (t : Ty) : Bool := t.isInteger || t == bool || t == ptr

end Ty

end TieredEngine.Ir
