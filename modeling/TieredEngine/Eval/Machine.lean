import TieredEngine.Eval.Arith
import TieredEngine.Ir.Module

/-!
Running functions. A call has a frame of its own: a register file in which registers are defined
as they are written, and counters of the blocks entered and instructions finished. Entering a block
first reads the inputs of all its phis, then writes them together; then the instructions run in
order, and the terminator says where to go. A call leaves the frame through `Env.call`, so that the
caller decides how callees run. Every loop takes fuel, and running out of it is kept apart from
every other result.
-/
namespace TieredEngine.Eval
open TieredEngine.Ir

/-- A call of a function outside the module. -/
structure HostCall where
  name : String
  args : List Value
  deriving DecidableEq, Repr

/-- What runs can change: the globals, the record of host calls, and whatever the caller adds. -/
structure World (κ : Type) where
  globals : Array Value
  hostCalls : List HostCall := []
  rest : κ

/-- First values of the globals; one whose initial value has another type starts at zero. -/
def initialGlobals (m : Module) : Except Crash (Array Value) :=
  m.globals.mapM fun g? => do
    let g ← Crash.deref g?
    return if g.init.ty = g.ty then g.init else Value.zero g.ty

/-- Replaces a global; the type has to stay. -/
def storeGlobal (globals : Array Value) (id : GlobalId) (v : Value) : Except Cause (Array Value) :=
  match globals[id.num]? with
  | none => .error (.storeUnknownGlobal id)
  | some old =>
    if old.ty ≠ v.ty then .error (.globalType id old.ty v.ty)
    else .ok (globals.setIfInBounds id.num v)

/-- Blocks entered and instructions finished by one call, its callees not counted. -/
structure Stats where
  blocks : Nat := 0
  insts : Nat := 0
  deriving DecidableEq, Repr, Inhabited

structure Frame where
  function : Function
  regs : Array (Option Value)
  block : BlockId := ⟨0⟩
  stats : Stats := {}

/-- How calls are made from a frame: the callee and its arguments, run in the world. -/
abbrev Call (κ ε : Type) := FuncId → List Value → World κ → Except (Halt ε) Value × World κ

namespace Frame

/-- A cause located at the frame's current block. -/
def fail (fr : Frame) (c : Cause) : Error := ⟨fr.function.name, fr.block, c⟩

def get (fr : Frame) (r : Reg) : Except Error Value :=
  match (fr.regs[r.num]?).join with
  | some v => .ok v
  | none => .error (fr.fail (.undefinedRegister r))

def set (fr : Frame) (r : Reg) (v : Value) : Except Error Frame :=
  match fr.function.regType? r with
  | none => .error (fr.fail (.undeclaredRegister r))
  | some want =>
    if want ≠ v.ty then .error (fr.fail (.registerType r want v.ty))
    else .ok { fr with regs := fr.regs.setIfInBounds r.num (some v) }

/-- Values of the operands, of which there have to be `n`. -/
def operands (fr : Frame) (i : Inst) (n : Nat) : Except Error (List Value) :=
  if i.args.length ≠ n then .error (fr.fail (.operandCount i.op n i.args.length))
  else i.args.mapM fr.get

/-- Writes the values of phis one after the other. -/
def setAll (fr : Frame) : List (Reg × Value) → Except Error Frame
  | [] => .ok fr
  | (r, v) :: rest => do (← fr.set r v).setAll rest

/-- All inputs are read before any phi is written. -/
def resolvePhis (fr : Frame) (b : Block) (prev : Option BlockId) : Except Error Frame :=
  match prev with
  | none => .error (fr.fail (.phiWithoutPredecessor b.id))
  | some prev => do
    let values ← b.phis.mapM fun p =>
      match p.valueFor? prev with
      | none => .error (fr.fail (.phiWithoutInput p.dest prev))
      | some r => do return (p.dest, ← fr.get r)
    fr.setAll values

def located (fr : Frame) : Except Cause Value → Except Error Value
  | .ok v => .ok v
  | .error c => .error (fr.fail c)

/-- Value of an instruction that only reads the frame and the globals. -/
def value (fr : Frame) (globals : Array Value) (i : Inst) : Except Error Value := do
  match i.op with
  | .const => return i.const
  | .undef => return Value.zero i.ty
  | .copy =>
    match ← fr.operands i 1 with
    | [a] => return a
    | _ => throw (fr.fail (.operandCount i.op 1 i.args.length))
  | .cast =>
    match ← fr.operands i 1 with
    | [a] => fr.located (cast i.ty a)
    | _ => throw (fr.fail (.operandCount i.op 1 i.args.length))
  | .select =>
    match ← fr.operands i 3 with
    | [c, a, b] => fr.located (select c a b)
    | _ => throw (fr.fail (.operandCount i.op 3 i.args.length))
  | .loadGlobal =>
    match globals[i.global.num]? with
    | some v => return v
    | none => throw (fr.fail (.loadUnknownGlobal i.global))
  | .panic => throw (fr.fail (.panicked i.message))
  | op =>
    if op.isUnary then
      match ← fr.operands i 1 with
      | [a] => fr.located (unary op i.ty a)
      | _ => throw (fr.fail (.operandCount op 1 i.args.length))
    else
      match ← fr.operands i 2 with
      | [a, b] => fr.located (if op.isBinary then binary op i.ty a b else compare op a b)
      | _ => throw (fr.fail (.operandCount op 2 i.args.length))

variable {κ ε : Type}

/-- Makes a call; a result that is not wanted is dropped. -/
def callOut (call : Call κ ε) (known : FuncId → Bool) (fr : Frame) (w : World κ) (i : Inst) :
    Except (Halt ε) Frame × World κ :=
  if !known i.callee then (.error (.fault (fr.fail (.unknownCallee i.callee))), w)
  else
    match i.args.mapM fr.get with
    | .error e => (.error (.fault e), w)
    | .ok args =>
      match call i.callee args w with
      | (.error h, w) => (.error h, w)
      | (.ok v, w) =>
        if i.dest = .absent then (.ok fr, w) else ((fr.set i.dest v).mapError .fault, w)

/-- Runs one instruction. -/
def exec (call : Call κ ε) (known : FuncId → Bool) (fr : Frame) (w : World κ) (i : Inst) :
    Except (Halt ε) Frame × World κ :=
  match i.op with
  | .call => callOut call known fr w i
  | .storeGlobal =>
    match fr.operands i 1 with
    | .error e => (.error (.fault e), w)
    | .ok args =>
      match storeGlobal w.globals i.global (args.headD .void) with
      | .error c => (.error (.fault (fr.fail c)), w)
      | .ok globals => (.ok fr, { w with globals })
  | _ =>
    match fr.value w.globals i with
    | .error e => (.error (.fault e), w)
    | .ok v => ((fr.set i.dest v).mapError .fault, w)

/-- Runs instructions in order, up to the first that fails; a failure comes with the counters at
that point. -/
def execAll (call : Call κ ε) (known : FuncId → Bool) :
    List Inst → Frame → World κ → Except (Halt ε × Stats) Frame × World κ
  | [], fr, w => (.ok fr, w)
  | i :: rest, fr, w =>
    let stats := fr.stats
    match fr.exec call known w i with
    | (.error h, w) => (.error (h, stats), w)
    | (.ok fr, w) =>
      execAll call known rest { fr with stats := { stats with insts := stats.insts + 1 } } w

/-- Where a terminator leads. -/
inductive Next where
  | goto (target : BlockId)
  | done (v : Value)
  deriving DecidableEq

def terminate (fr : Frame) : Term → Except Error Next
  | .missing => .error (fr.fail (.noTerminator fr.block))
  | .br t => .ok (.goto t)
  | .condBr c y n => do
    let v ← fr.get c
    if !v.ty.isIntLike then throw (fr.fail (.branchOn v.ty))
    return .goto (if v.toBool then y else n)
  | .switch c cases d => do
    let v ← fr.get c
    if !v.ty.isIntLike then throw (fr.fail (.switchOn v.ty))
    match cases.find? (fun k => v == Value.ofInt v.ty k.value.toInt) with
    | some k => return .goto k.target
    | none => return .goto d
  | .ret none =>
    if fr.function.sig.ret ≠ .void then .error (fr.fail (.returnMissing fr.function.sig.ret))
    else .ok (.done .void)
  | .ret (some r) => do
    let v ← fr.get r
    if v.ty ≠ fr.function.sig.ret then throw (fr.fail (.returnType v.ty fr.function.sig.ret))
    return .done v
  | .unreachable => .error (fr.fail .reachedUnreachable)

/-- Result of a call with its counters, which count also when it failed. -/
structure Finished (κ ε : Type) where
  result : Except (Halt ε) Value
  stats : Stats
  world : World κ

/-- What running one block leads to: the end of the call, or the next block. -/
inductive Turn (κ ε : Type) where
  | stop (out : Finished κ ε)
  | go (fr : Frame) (w : World κ) (next : BlockId)

/-- The frame on entry to a block: the block is counted. -/
def arrive (fr : Frame) (cur : BlockId) : Frame :=
  { fr with block := cur, stats := { fr.stats with blocks := fr.stats.blocks + 1 } }

/-- Writes the phis of a block, if it has any. -/
def applyPhis (fr : Frame) (b : Block) (prev : Option BlockId) : Except Error Frame :=
  if b.phis.isEmpty then .ok fr else fr.resolvePhis b prev

/-- Runs the block `b` in a frame that has arrived there from `prev`. -/
def runBlock (call : Call κ ε) (known : FuncId → Bool) (fr : Frame) (w : World κ)
    (prev : Option BlockId) (b : Block) : Turn κ ε :=
  match fr.applyPhis b prev with
  | .error e => .stop ⟨.error (.fault e), fr.stats, w⟩
  | .ok fr =>
    match execAll call known b.insts fr w with
    | (.error (h, stats), w) => .stop ⟨.error h, stats, w⟩
    | (.ok fr, w) =>
      match fr.terminate b.term with
      | .error e => .stop ⟨.error (.fault e), fr.stats, w⟩
      | .ok (.done v) => .stop ⟨.ok v, fr.stats, w⟩
      | .ok (.goto next) => .go fr w next

/-- Runs the block with the number `cur`, entered from `prev`. -/
def turn (call : Call κ ε) (known : FuncId → Bool) (fr : Frame) (w : World κ)
    (prev : Option BlockId) (cur : BlockId) : Turn κ ε :=
  match fr.function.block? cur with
  | none => .stop ⟨.error (.fault (fr.fail (.missingBlock cur))), fr.stats, w⟩
  | some b => runBlock call known (fr.arrive cur) w prev b

/-- Runs from the block `cur`, entered from `prev`; each block costs one unit of fuel. -/
def run (call : Call κ ε) (known : FuncId → Bool) :
    Nat → Frame → World κ → Option BlockId → BlockId → Finished κ ε
  | 0, fr, w, _, _ => ⟨.error .outOfFuel, fr.stats, w⟩
  | fuel + 1, fr, w, prev, cur =>
    match turn call known fr w prev cur with
    | .stop out => out
    | .go fr w next => run call known fuel fr w (some cur) next

end Frame

/-- Implementations of functions outside the module, by name. What one does may depend on the calls
made before, the last one first. -/
abbrev Hosts := String → Option (List HostCall → List Value → Except String Value)

/-- How an evaluator is set up. -/
structure Setup where
  hosts : Hosts := fun _ => none
  maxDepth : Int := 1000
  /-- Calls work on the world's globals; otherwise each call starts from the initial ones. -/
  shared : Bool := true

/-- Binds arguments to parameter registers. -/
def bindParams (entry : BlockId) (fr : Frame) : List Reg → List Value → Except (Fault Error) Frame
  | [], _ => .ok fr
  | _ :: _, [] => .error (.crash .outOfRange)
  | r :: rs, a :: as =>
    match fr.set r a with
    | .ok fr => bindParams entry fr rs as
    | .error e => .error (.error { e with block := entry })

/-- Index of the first argument whose type is not the parameter's. -/
def firstMismatch : Nat → List Value → List Ty → Option (Nat × Ty × Ty)
  | i, a :: as, t :: ts => if a.ty ≠ t then some (i, a.ty, t) else firstMismatch (i + 1) as ts
  | _, _, _ => none

variable {κ ε : Type}

/-- Calls the host's implementation and records the call. -/
def callHost (hosts : Hosts) (f : Function) (args : List Value) (w : World κ) :
    Except (Halt ε) Value × World κ :=
  match hosts f.name with
  | none => (.error (.fault ⟨f.name, ⟨0⟩, .notImplemented f.name⟩), w)
  | some implementation =>
    let result := implementation w.hostCalls args
    let w := { w with hostCalls := ⟨f.name, args⟩ :: w.hostCalls }
    match result with
    | .error reason => (.error (.host f.name reason), w)
    | .ok v =>
      if v.ty ≠ f.sig.ret then
        (.error (.fault ⟨f.name, ⟨0⟩, .hostResult v.ty f.sig.ret⟩), w)
      else (.ok v, w)

/-- Runs one function at a call depth; `call` makes the calls of its body. -/
def enter (setup : Setup) (m : Module) (call : Call κ ε) (fuel depth : Nat) (id : FuncId)
    (args : List Value) (w : World κ) : Frame.Finished κ ε :=
  match m.function? id with
  | none => ⟨.error (.fault ⟨"", ⟨0⟩, .noFunction id⟩), {}, w⟩
  | some f =>
    let fail (c : Cause) : Frame.Finished κ ε := ⟨.error (.fault ⟨f.name, f.entry, c⟩), {}, w⟩
    if args.length ≠ f.sig.params.length then
      fail (.argumentCount args.length f.sig.params.length)
    else match firstMismatch 0 args f.sig.params with
    | some (i, got, want) => fail (.argumentType i got want)
    | none =>
      if f.isExternal then
        let (r, w) := callHost setup.hosts f args w
        ⟨r, {}, w⟩
      else if setup.maxDepth ≤ depth then fail (.depthExceeded setup.maxDepth)
      else
        match if setup.shared then .ok w.globals else initialGlobals m with
        | .error c => ⟨.error (.crash c), {}, w⟩
        | .ok globals =>
          let outer := w.globals
          let fr : Frame := { function := f, regs := Array.replicate f.regTypes.size none }
          match bindParams f.entry fr f.params args with
          | .error (.error e) => ⟨.error (.fault e), {}, w⟩
          | .error (.crash c) => ⟨.error (.crash c), {}, w⟩
          | .ok fr =>
            let known (id : FuncId) : Bool := id.num < m.functions.size
            let out := Frame.run call known fuel fr { w with globals } none f.entry
            if setup.shared then out
            else { out with world := { out.world with globals := outer } }

/-- Runs a function whose calls the evaluator makes itself, one level deeper each. -/
def runAt (setup : Setup) (m : Module) : Nat → Nat → FuncId → List Value → World κ →
    Frame.Finished κ ε
  | 0, _, _, _, w => ⟨.error .outOfFuel, {}, w⟩
  | fuel + 1, depth, id, args, w =>
    let call : Call κ ε := fun id args w =>
      let out := runAt setup m fuel (depth + 1) id args w
      (out.result, out.world)
    enter setup m call fuel depth id args w

/-- Fuel that no run of practical length uses up. -/
def ampleFuel : Nat := 1000000000000000

/-- Runs a function of a module from outside. -/
def run (setup : Setup) (m : Module) (id : FuncId) (args : List Value) (w : World κ) :
    Frame.Finished κ ε :=
  runAt setup m ampleFuel 0 id args w

end TieredEngine.Eval
