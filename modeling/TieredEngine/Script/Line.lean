import TieredEngine.Crash
import TieredEngine.Ir.Literal
import TieredEngine.Ir.Op
import TieredEngine.Text.Blank
import TieredEngine.Text.Encoding

/-!
Lines of scripts. A script drives one of the parts of the engine by hand: each line is a verb with
operands, which are texts, numbers or lists. Reading an operand says what is wrong with it; a line
whose shape does not fit its verb is malformed.
-/
namespace TieredEngine.Script
open TieredEngine TieredEngine.Ir

inductive Operand where
  | text (s : String)
  | number (spelling : String)
  | list (items : List Operand)
  | other

/-- Why a line is not carried out. -/
inductive Error where
  | malformed
  | unknownType (name : String)
  | literal (e : LiteralError)
  | unknownOperation (name : String)
  | crashed (c : Crash)

def Error.message : Error → String
  | .malformed => "malformed line"
  | .unknownType s => unknownTypeMessage s
  | .literal e => e.message
  | .unknownOperation s => Op.unknownMessage s
  | .crashed _ => "crashed"

abbrev Reading := Except Error

def orMalformed {α : Type} : Option α → Reading α
  | some a => .ok a
  | none => .error .malformed

def orCrashed {α : Type} : Except Crash α → Reading α
  | .ok a => .ok a
  | .error c => .error (.crashed c)

def readType (name : String) : Reading Ty :=
  match Ty.ofName? name with
  | some t => .ok t
  | none => .error (.unknownType name)

/-- A value written as its type, a blank and its literal. -/
def readValue (s : String) : Reading Value := do
  let (name, rest) := Text.cut ' ' s
  (Value.parse (← readType name) (rest.getD "")).mapError .literal

namespace Operand

def asText : Operand → Reading String
  | text s => .ok s
  | _ => .error .malformed

def asList : Operand → Reading (List Operand)
  | list l => .ok l
  | _ => .error .malformed

def asInt : Operand → Reading Int
  | number s => orMalformed (Text.signedDecimal 128 s.toList).toOption
  | _ => .error .malformed

/-- A number that fits into so many bits. -/
def asNat (bits : Nat) : Operand → Reading Nat
  | number s => orMalformed (Text.unsignedDecimal bits s.toList).toOption
  | _ => .error .malformed

def asWord32 (o : Operand) : Reading UInt32 := return UInt32.ofNat (← o.asNat 32)

/-- A word given as a text, with a base mark if it is not decimal. -/
def asWord64 (o : Operand) : Reading UInt64 := do
  return UInt64.ofNat (← orMalformed (Text.unsignedLiteral 64 (← o.asText).toList).toOption)

def asType (o : Operand) : Reading Ty := do readType (← o.asText)

def asValue (o : Operand) : Reading Value := do readValue (← o.asText)

def asBytes (o : Operand) : Reading (List UInt8) := do
  orMalformed (Text.bytesOfHex? (← o.asText).toList)

end Operand

structure Line where
  verb : String
  operands : List Operand

/-- Reads one operand of a line. -/
def Line.get {α : Type} (l : Line) (read : Operand → Reading α) (i : Nat) : Reading α := do
  read (← orMalformed l.operands[i]?)

/-- Runs a script: each line changes the state or leaves it. -/
def run {σ α : Type} (step : σ → Line → Reading (α × σ)) : σ → List Line → List (Reading α) × σ
  | s, [] => ([], s)
  | s, l :: rest =>
    match step s l with
    | .ok (a, s) =>
      let (as, s) := run step s rest
      (.ok a :: as, s)
    | .error e =>
      let (as, s) := run step s rest
      (.error e :: as, s)

end TieredEngine.Script
