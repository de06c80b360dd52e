import TieredEngine.Crash
import TieredEngine.Ir.Inst

/-!
What can go wrong while a function runs. Each cause has a kind, which callers act on, and a detail
text. An error also says in which function and block it arose; one without a function is about the
request itself.
-/
namespace TieredEngine.Eval
open TieredEngine.Ir

inductive ErrorKind where
  | missingRegister | typeMismatch | divideByZero | missingTerminator | unknownFunction
  | stackOverflow | unreachable | panic | argumentCount | badBranch
  deriving DecidableEq, Repr

namespace ErrorKind

/-- All kinds; the first has number one. -/
def all : List ErrorKind :=
  [missingRegister, typeMismatch, divideByZero, missingTerminator, unknownFunction, stackOverflow,
    unreachable, panic, argumentCount, badBranch]

def name : ErrorKind → String
  | missingRegister => "missing register"
  | typeMismatch => "type mismatch"
  | divideByZero => "divide by zero"
  | missingTerminator => "missing terminator"
  | unknownFunction => "unknown function"
  | stackOverflow => "stack overflow"
  | unreachable => "unreachable"
  | panic => "panic"
  | argumentCount => "argument count"
  | badBranch => "bad branch"

/-- Name shown for a number, which need not be a kind's. -/
def codeName (n : Nat) : String :=
  match n with
  | 0 => "kind(0)"
  | k + 1 => (all[k]?.map name).getD s!"kind({n})"

end ErrorKind

inductive Cause where
  | undefinedRegister (r : Reg)
  | undeclaredRegister (r : Reg)
  | phiWithoutPredecessor (block : BlockId)
  | phiWithoutInput (dest : Reg) (pred : BlockId)
  | loadUnknownGlobal (g : GlobalId)
  | registerType (r : Reg) (declared got : Ty)
  | operandCount (op : Op) (want got : Nat)
  | binaryTypes (op : Op) (ty left right : Ty)
  | unaryTypes (op : Op) (ty operand : Ty)
  | compareTypes (op : Op) (left right : Ty)
  | needsFloat (op : Op) (ty : Ty)
  | needsInteger (op : Op) (ty : Ty)
  | notBinary (op : Op)
  | notUnary (op : Op)
  | notComparison (op : Op)
  | badCast (source target : Ty)
  | selectTypes (cond yes no : Ty)
  | storeUnknownGlobal (g : GlobalId)
  | globalType (g : GlobalId) (declared got : Ty)
  | branchOn (ty : Ty)
  | switchOn (ty : Ty)
  | returnMissing (want : Ty)
  | returnType (got want : Ty)
  | argumentType (index : Nat) (got want : Ty)
  | hostResult (got want : Ty)
  | divideByZero (op : Op) (ty : Ty)
  | noTerminator (block : BlockId)
  | noFunction (id : FuncId)
  | unknownCallee (id : FuncId)
  | notImplemented (name : String)
  | depthExceeded (limit : Int)
  | reachedUnreachable
  | panicked (message : String)
  | argumentCount (got want : Nat)
  | missingBlock (block : BlockId)
  deriving DecidableEq, Repr

namespace Cause

def kind : Cause → ErrorKind
  | undefinedRegister _ | undeclaredRegister _ | phiWithoutPredecessor _ | phiWithoutInput ..
  | loadUnknownGlobal _ => .missingRegister
  | divideByZero .. => .divideByZero
  | noTerminator _ => .missingTerminator
  | noFunction _ | unknownCallee _ | notImplemented _ => .unknownFunction
  | depthExceeded _ => .stackOverflow
  | reachedUnreachable => .unreachable
  | panicked _ => .panic
  | argumentCount .. => .argumentCount
  | missingBlock _ => .badBranch
  | _ => .typeMismatch

def detail : Cause → String
  | undefinedRegister r => s!"register {r.text} is not defined"
  | undeclaredRegister r => s!"register {r.text} has no declared type"
  | phiWithoutPredecessor b => s!"phi in entry block {b.text} has no predecessor"
  | phiWithoutInput d p => s!"phi {d.text} has no incoming value for {p.text}"
  | loadUnknownGlobal g => s!"unknown global g{g.num}"
  | registerType r want got => s!"register {r.text} is {want.name}, cannot hold {got.name}"
  | operandCount op want got => s!"{op.name} expects {want} operands, got {got}"
  | binaryTypes op t a b => s!"{op.name} {t.name} applied to {a.name} and {b.name}"
  | unaryTypes op t a => s!"{op.name} {t.name} applied to {a.name}"
  | compareTypes op a b => s!"{op.name} compares {a.name} with {b.name}"
  | needsFloat op t => s!"{op.name} requires a float type, got {t.name}"
  | needsInteger op t => s!"{op.name} requires an integer type, got {t.name}"
  | notBinary op => s!"{op.name} is not a binary operator"
  | notUnary op => s!"{op.name} is not a unary operator"
  | notComparison op => s!"{op.name} is not a comparison"
  | badCast a b => s!"cannot cast {a.name} to {b.name}"
  | selectTypes c a b => s!"select {c.name} ? {a.name} : {b.name}"
  | storeUnknownGlobal g => s!"unknown global g{g.num}"
  | globalType g want got => s!"global g{g.num} has type {want.name}, cannot store {got.name}"
  | branchOn t => s!"branch condition is {t.name}"
  | switchOn t => s!"switch on {t.name}"
  | returnMissing t => s!"ret without value in function returning {t.name}"
  | returnType got want => s!"returns {got.name}, signature says {want.name}"
  | argumentType i got want => s!"argument {i} is {got.name}, want {want.name}"
  | hostResult got want => s!"host function returned {got.name}, want {want.name}"
  | divideByZero op t => s!"{op.name} {t.name} by zero"
  | noTerminator b => s!"block {b.text} has no terminator"
  | noFunction f => s!"no function with id f{f.num}"
  | unknownCallee f => s!"call to unknown function f{f.num}"
  | notImplemented name => s!"extern {name} has no implementation"
  | depthExceeded n => s!"call depth exceeds {n}"
  | reachedUnreachable => "reached unreachable terminator"
  | panicked m => m
  | argumentCount got want => s!"got {got} arguments, want {want}"
  | missingBlock b => s!"branch to missing block {b.text}"

end Cause

/-- A cause with the place it arose in. -/
structure Error where
  function : String := ""
  block : BlockId := ⟨0⟩
  cause : Cause
  deriving DecidableEq, Repr

namespace Error

def kind (e : Error) : ErrorKind := e.cause.kind

def message (e : Error) : String :=
  if e.function.isEmpty then s!"interp: {e.kind.name}: {e.cause.detail}"
  else s!"interp: {e.kind.name} in {e.function} at {e.block.text}: {e.cause.detail}"

end Error

/-- Why a run stopped without a value. Beside its own errors a run passes on those of host
functions and, where calls leave the evaluator, those of the caller's world `ε`. -/
inductive Halt (ε : Type) where
  | fault (e : Error)
  | host (function reason : String)
  | other (e : ε)
  | crash (c : Crash)
  | outOfFuel
  deriving DecidableEq, Repr

/-- What is said of a host function that failed. -/
def hostMessage (function reason : String) : String := s!"host function {function}: {reason}"

end TieredEngine.Eval
