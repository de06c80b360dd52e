import TieredEngine.Eval.Machine
import TieredEngine.Hotness.Tracker
import TieredEngine.Ir.WellFormed
import TieredEngine.Native.Convention
import TieredEngine.Native.Memory.Manager
import TieredEngine.Native.X64.Baseline
import TieredEngine.Native.X64.Machine
import TieredEngine.Session.Config

/-!
The state of a session and what it is set up with. A session runs the functions of one module. Each
function has a slot that says how it is run now: by the interpreter, or by code installed for one
of the compiled tiers. Calls are counted; a function that becomes hot is compiled for a higher tier
at once, or put into a queue that is worked off later.
-/
namespace TieredEngine.Session
open TieredEngine TieredEngine.Ir TieredEngine.Native

/-- Why a generator gives no code: it does not support the function, or it failed. -/
inductive CompileError where
  | unsupported (e : CodegenError)
  | broken (reason : String)
  deriving DecidableEq, Repr

/-- A code generator under the name that tiers refer to it by. -/
structure Backend where
  name : String
  compile : Function → Except (Fault CompileError) CompiledCode

/-- The built-in generator. -/
def Backend.x64 : Backend := {
  name := x64BackendName
  compile := fun f => (X64.Baseline.compile f).mapError fun
    | .error e => .error (.unsupported e)
    | .crash c => .crash c }

/-- Code that a function runs on. -/
structure Entry where
  tier : Tier
  addr : Nat
  convention : Convention
  backend : String
  /-- The installed bytes. -/
  code : List UInt8
  /-- The instructions at every offset of the bytes. -/
  program : X64.Program

/-- A function and how it is run. -/
structure Slot where
  function : Function
  /-- Absent while the function is interpreted. -/
  entry : Option Entry := none
  /-- A promotion has been granted and is not over. -/
  promoting : Bool := false
  /-- Rank of the highest tier for which there was no code. -/
  failed : Nat := 0
  promotions : Nat := 0

def Slot.tier (s : Slot) : Tier := (s.entry.map (·.tier)).getD .interpreted

/-- A granted promotion that waits. -/
structure Job where
  function : FuncId
  target : Tier
  deriving DecidableEq, Repr

/-- A run of a generator, for the record. -/
structure Attempt where
  function : FuncId
  name : String
  tier : Tier
  backend : String
  /-- Instructions of the optimised function. -/
  insts : Nat
  succeeded : Bool
  deriving DecidableEq, Repr

/-- Why code could not be installed. -/
inductive InstallFailure where
  | managerClosed
  | install (e : InstallError)
  | finish (errors : List MemoryError)
  deriving DecidableEq, Repr

def InstallFailure.message : InstallFailure → String
  | .managerClosed => managerClosedMessage
  | .install e => e.message
  | .finish es => String.intercalate "; " (es.map MemoryError.message)

structure Program where
  module : Module
  slots : Array Slot

structure State where
  tracker : Hotness.Tracker
  manager : Manager
  program : Option Program := none
  queue : List Job := []
  closed : Bool := false
  /-- The failure after which nothing is promoted any more. -/
  failure : Option InstallFailure := none
  /-- Granted promotions that are not over. -/
  inflight : Nat := 0
  promotions : Nat := 0
  failures : Nat := 0
  /-- Runs of generators, the last one first. -/
  attempts : List Attempt := []
  nativeCalls : Nat := 0

/-- Why a context is over. -/
inductive Cancellation where
  | canceled
  | deadlineExceeded
  deriving DecidableEq, Repr

def Cancellation.message : Cancellation → String
  | .canceled => "context canceled"
  | .deadlineExceeded => "context deadline exceeded"

/-- What can go wrong in a call of installed code. -/
inductive NativeError where
  | arguments (e : Convention.ArgumentError)
  | notInstalled
  | fault (e : Eval.Error)
  | host (function reason : String)
  deriving DecidableEq, Repr

def NativeError.message : NativeError → String
  | .arguments e => e.message
  | .notInstalled => "no function at address"
  | .fault e => e.message
  | .host f r => Eval.hostMessage f r

inductive Error where
  | closed
  | noModule
  | moduleRegistered
  | unknownFunction (id : FuncId)
  | invalidModule (name : String) (defects : List Defect)
  | noEntry (e : EntryError)
  | entryParameters (name : String) (count : Nat)
  | native (function : String) (tier : Tier) (e : NativeError)
  | install (e : InstallFailure)
  | context (e : Cancellation)
  | release (errors : List HeapError)
  deriving DecidableEq

def Error.message : Error → String
  | .closed => "session is closed"
  | .noModule => "no module registered"
  | .moduleRegistered => "session already has a module"
  | .unknownFunction id => s!"unknown function: f{id.num}"
  | .invalidModule name ds =>
    s!"invalid module {name}: " ++ String.intercalate "; " (ds.map Defect.message)
  | .noEntry e => e.message
  | .entryParameters name n => s!"entry function {name} takes {n} parameters"
  | .native f t e => s!"native call to {f}@{t.name}: {e.message}"
  | .install e => e.message
  | .context e => e.message
  | .release es => String.intercalate "; " (es.map HeapError.message)

/-- Why a call gives no value. -/
abbrev Halt := Eval.Halt Error

def Halt.message : Halt → String
  | .fault e => e.message
  | .host f r => Eval.hostMessage f r
  | .other e => e.message
  | .crash _ => "crashed"
  | .outOfFuel => "out of fuel"

end TieredEngine.Session

/-!
Ways to call installed code. The machine runs it. Where code cannot be run, a stand-in finds the
function that the installed symbol is named for and interprets it on globals of its own.
-/
namespace TieredEngine.Session
open TieredEngine TieredEngine.Ir TieredEngine.Native

/-- Calls an entry with arguments, with fuel, for a module whose code the manager holds. The first
number counts the calls of code that the session has made before. -/
abbrev Invoker :=
  Nat → Nat → Manager → Module → Entry → List Value → Except (Eval.Halt NativeError) Value

namespace Invoker

/-- Runs the code on the machine, each call from the state in which it finds the machine. Code that
does not return has no value. -/
def machineFrom (callers : Nat → X64.State) : Invoker := fun number fuel _ _ e args =>
  match e.convention.marshal args with
  | .error a => .error (.other (.arguments a))
  | .ok words =>
    match e.program.callFrom (callers number) fuel words with
    | none => .error .outOfFuel
    | some (.returned, s) =>
      .ok (e.convention.unmarshal (s.get .rax) (words.floats[0]?.getD 0))
    | some _ => .error (.crash .outOfRange)

/-- Runs the code on a machine that does nothing else. -/
def machine : Invoker := machineFrom fun _ => .idle

/-- Interprets the function that the symbol at the entry is named for, without host functions. -/
def standIn : Invoker := fun _ fuel manager m e args =>
  match e.convention.marshal args with
  | .error a => .error (.other (.arguments a))
  | .ok _ =>
    match manager.lookup e.addr with
    | none => .error (.other .notInstalled)
    | some symbol =>
      match m.lookup (Text.cut '@' symbol.name).1 with
      | .error c => .error (.crash c)
      | .ok none => .error (.other .notInstalled)
      | .ok (some f) =>
        (Eval.runAt { shared := false } m fuel 0 f.id args (⟨#[], [], ()⟩ : Eval.World Unit)).result

end Invoker

/-- What a failed native call means for the caller. -/
def Halt.ofNative (function : String) (tier : Tier) : Eval.Halt NativeError → Halt
  | .fault e => .other (.native function tier (.fault e))
  | .host f r => .other (.native function tier (.host f r))
  | .other e => .other (.native function tier e)
  | .crash c => .crash c
  | .outOfFuel => .outOfFuel

end TieredEngine.Session
