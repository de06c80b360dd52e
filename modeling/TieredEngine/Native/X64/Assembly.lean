import TieredEngine.Crash
import TieredEngine.Native.X64.Instr

/-!
Assembly: instructions whose jumps name labels, and the places where labels are bound. A label may
be bound after it is jumped to, and the last binding counts. Turning assembly into bytes replaces
each label by the distance from the end of the jump to the place it is bound at.
-/
namespace TieredEngine.Native.X64
open TieredEngine

/-- One line of assembly over labels of type `ℓ`. -/
inductive Line (ℓ : Type) where
  | instr (i : Instr ℓ)
  | bind (label : ℓ)
  deriving DecidableEq, Repr

namespace Assembly

variable {ℓ : Type}

def lineSize : Line ℓ → Nat
  | .instr i => i.size
  | .bind _ => 0

/-- Number of bytes the lines take. -/
def size (lines : List (Line ℓ)) : Nat := lines.foldl (fun n l => n + lineSize l) 0

/-- Where a label is bound last in lines that start at `start`. -/
def boundAt? [DecidableEq ℓ] (label : ℓ) : Nat → List (Line ℓ) → Option Nat
  | _, [] => none
  | start, .instr i :: rest => boundAt? label (start + i.size) rest
  | start, .bind l :: rest =>
    match boundAt? label start rest with
    | some p => some p
    | none => if l = label then some start else none

/-- Bytes of lines that start at `start`, the place of each jumped-to label being looked up. -/
def encodeFrom {ε : Type} (place : ℓ → Except ε Nat) :
    Nat → List (Line ℓ) → Except ε (List UInt8)
  | _, [] => .ok []
  | start, .bind _ :: rest => encodeFrom place start rest
  | start, .instr i :: rest => do
    let after := start + i.size
    let head ← match i.target? with
      | some l => do
        let p ← place l
        pure (i.mapTarget fun _ => Int32.ofInt ((p : Int) - after)).encode
      | none => pure (i.mapTarget fun _ => (0 : Int32)).encode
    return head ++ (← encodeFrom place after rest)

end Assembly

/-- A label that is jumped to and bound nowhere. -/
structure UnboundLabel where
  label : Nat
  deriving DecidableEq, Repr

def UnboundLabel.message (e : UnboundLabel) : String := s!"x64: label {e.label} is never bound"

/-- Assembly under construction, its labels numbered in the order they were made. -/
structure Assembler where
  lines : List (Line Nat) := []
  labels : Nat := 0
  deriving DecidableEq, Repr

namespace Assembler

def emit (a : Assembler) (i : Instr Nat) : Assembler := { a with lines := a.lines ++ [.instr i] }

def newLabel (a : Assembler) : Nat × Assembler := (a.labels, { a with labels := a.labels + 1 })

/-- Binds a label to the current place. -/
def bind (a : Assembler) (label : Nat) : Except Crash Assembler :=
  if label < a.labels then .ok { a with lines := a.lines ++ [.bind label] }
  else .error .outOfRange

def size (a : Assembler) : Nat := Assembly.size a.lines

/-- The bytes, if every label jumped to is bound. -/
def finish (a : Assembler) : Except (Fault UnboundLabel) (List UInt8) :=
  let place (label : Nat) : Except (Fault UnboundLabel) Nat :=
    if label < a.labels then
      match Assembly.boundAt? label 0 a.lines with
      | some p => .ok p
      | none => .error (.error ⟨label⟩)
    else .error (.crash .outOfRange)
  Assembly.encodeFrom place 0 a.lines

end Assembler

end TieredEngine.Native.X64
