import TieredEngine.Ir.Module

/-!
The calling convention of generated code. Integer words go to six integer registers in order,
floating-point words to eight floating-point registers; the result comes back in the first register
of its kind. A signature that needs more registers has no convention.
-/
namespace TieredEngine.Native
open TieredEngine.Ir

def maxIntArgs : Nat := 6
def maxFloatArgs : Nat := 8

/-- Where an argument goes: the kind of register and its position among those of that kind. -/
structure ArgPlace where
  isFloat : Bool
  index : Nat
  deriving DecidableEq, Repr

def ArgPlace.text (p : ArgPlace) : String :=
  (if p.isFloat then "float" else "int") ++ toString p.index

structure Convention where
  sig : Signature
  places : List ArgPlace
  ints : Nat
  floats : Nat
  deriving DecidableEq, Repr

/-- Why a signature has no convention. -/
inductive ConventionError where
  | tooManyFloats (sig : Signature)
  | tooManyInts (sig : Signature)
  | badParameter (sig : Signature) (position : Nat) (ty : Ty)
  deriving DecidableEq, Repr

def ConventionError.message : ConventionError → String
  | .tooManyFloats s => s!"signature {s.text}: more than {maxFloatArgs} float arguments"
  | .tooManyInts s => s!"signature {s.text}: more than {maxIntArgs} integer arguments"
  | .badParameter s i t => s!"signature {s.text}: parameter {i} has type {t.name}"

namespace Convention

/-- Gives the next parameter its register. -/
def place (c : Convention) (t : Ty) : Except ConventionError Convention :=
  if t.isFloat then
    if maxFloatArgs ≤ c.floats then .error (.tooManyFloats c.sig)
    else .ok { c with places := c.places ++ [⟨true, c.floats⟩], floats := c.floats + 1 }
  else if t.isIntLike then
    if maxIntArgs ≤ c.ints then .error (.tooManyInts c.sig)
    else .ok { c with places := c.places ++ [⟨false, c.ints⟩], ints := c.ints + 1 }
  else .error (.badParameter c.sig c.places.length t)

def ofSignature (sig : Signature) : Except ConventionError Convention :=
  sig.params.foldlM place ⟨sig, [], 0, 0⟩

/-- Words in the argument registers of both kinds. -/
structure Words where
  ints : Array UInt64 := Array.replicate 8 0
  floats : Array UInt64 := Array.replicate 8 0
  deriving DecidableEq, Repr

inductive ArgumentError where
  | count (expected got : Nat)
  | type (position : Nat) (expected got : Ty)
  deriving DecidableEq, Repr

def ArgumentError.message : ArgumentError → String
  | .count e g => s!"expected {e} arguments, got {g}"
  | .type i e g => s!"argument {i}: expected {e.name}, got {g.name}"

/-- Puts one argument into its register. -/
def putArgument (w : Words) (position : Nat) (t : Ty) (p : ArgPlace) (v : Value) :
    Except ArgumentError Words :=
  if v.ty != t then .error (.type position t v.ty)
  else if p.isFloat then .ok { w with floats := w.floats.setIfInBounds p.index v.bits }
  else .ok { w with ints := w.ints.setIfInBounds p.index v.bits }

def putArguments (w : Words) : Nat → List Ty → List ArgPlace → List Value →
    Except ArgumentError Words
  | i, t :: ts, p :: ps, v :: vs => do
    putArguments (← putArgument w i t p v) (i + 1) ts ps vs
  | _, _, _, _ => .ok w

/-- Words in the registers for a call with these arguments; unused registers hold zero. -/
def marshal (c : Convention) (args : List Value) : Except ArgumentError Words :=
  if args.length ≠ c.places.length then .error (.count c.places.length args.length)
  else putArguments {} 0 c.sig.params c.places args

/-- The result of a call from the first integer and floating-point register. -/
def unmarshal (c : Convention) (int float : UInt64) : Value :=
  match c.sig.ret with
  | .void => .void
  | t => Value.ofBits t (if t.isFloat then float else int)

end Convention

end TieredEngine.Native

/-!
Code generators. A generator turns a function into machine code that may stand anywhere in memory,
or says why it does not.
-/
namespace TieredEngine.Native

structure CompiledCode where
  name : String
  backend : String
  code : List UInt8
  convention : Option Convention
  deriving DecidableEq, Repr

/-- A generator does not compile a function. -/
structure CodegenError where
  backend : String
  function : String
  reason : String
  deriving DecidableEq, Repr

def CodegenError.message (e : CodegenError) : String :=
  s!"{e.backend}: cannot compile {e.function}: {e.reason}"

/-- Addresses of outside functions by name, the last definition first. -/
structure SymbolTable where
  entries : List (String × UInt64) := []
  deriving DecidableEq, Repr

/-- Defines a name, or defines it anew. -/
def SymbolTable.define (t : SymbolTable) (name : String) (addr : UInt64) : SymbolTable :=
  ⟨(name, addr) :: t.entries⟩

def SymbolTable.resolve? (t : SymbolTable) (name : String) : Option UInt64 :=
  (t.entries.find? (·.1 == name)).map (·.2)

end TieredEngine.Native
