import TieredEngine.Ir.Module

/-!
Building modules step by step. Functions, globals, blocks and registers get the next free number.
Instructions go to the end of the current block; the first block of a function becomes current and
its entry. A step without a current block, or with a position out of range, crashes, and what it
changed before the crash stays. At the end the steps are data, so that all that can be built is what
some list of them leaves.
-/
namespace TieredEngine.Ir
open TieredEngine

/-- A function under construction, and the position of its current block. -/
structure FunctionBuilder where
  function : Function
  current : Option Nat := none

/-- Steps on one function; a crash keeps the changes made so far. -/
abbrev Build := ExceptT Crash (StateM FunctionBuilder)

namespace Build

def modifyFunction (g : Function → Function) : Build Unit :=
  modify fun b => { b with function := g b.function }

/-- Register of a parameter. -/
def param (i : Nat) : Build Reg := do
  match (← get).function.params[i]? with
  | some r => return r
  | none => throw .outOfRange

def newBlock : Build BlockId := do
  let n := (← get).function.blocks.size
  let id : BlockId := ⟨UInt32.ofNat n⟩
  modifyFunction fun f => { f with blocks := f.blocks.push (some { id }) }
  if (← get).current.isNone then
    modify fun b => { b with current := some n, function := { b.function with entry := id } }
  return id

def setBlock (id : BlockId) : Build Unit := do
  if id.num < (← get).function.blocks.size then modify fun b => { b with current := some id.num }
  else throw .outOfRange

def newReg (t : Ty) : Build Reg := do
  let r : Reg := ⟨UInt32.ofNat (← get).function.regTypes.size⟩
  modifyFunction fun f => { f with regTypes := f.regTypes.push t }
  return r

/-- Declared type of a register; void for one that is not declared. -/
def typeOf (r : Reg) : Build Ty := return ((← get).function.regType? r).getD .void

/-- Changes the current block. -/
def modifyCurrent (g : Block → Block) : Build Unit := do
  match (← get).current with
  | none => throw .nullReference
  | some n => modifyFunction fun f => { f with blocks := f.blocks.modify n (·.map g) }

/-- Adds an instruction and gives its destination. -/
def emit (i : Inst) : Build Reg := do
  modifyCurrent fun b => { b with insts := b.insts ++ [i] }
  return i.dest

def const (v : Value) : Build Reg := do
  emit { op := .const, dest := ← newReg v.ty, ty := v.ty, const := v }

def copy (x : Reg) : Build Reg := do
  let t ← typeOf x
  emit { op := .copy, dest := ← newReg t, ty := t, args := [x] }

/-- The result has the type of the left operand. -/
def binary (op : Op) (x y : Reg) : Build Reg := do
  let t ← typeOf x
  emit { op, dest := ← newReg t, ty := t, args := [x, y] }

def unary (op : Op) (x : Reg) : Build Reg := do
  let t ← typeOf x
  emit { op, dest := ← newReg t, ty := t, args := [x] }

def compare (op : Op) (x y : Reg) : Build Reg := do
  emit { op, dest := ← newReg .bool, ty := .bool, args := [x, y] }

def cast (target : Ty) (x : Reg) : Build Reg := do
  let dest ← newReg target
  emit { op := .cast, dest, ty := target, source := ← typeOf x, args := [x] }

def select (c x y : Reg) : Build Reg := do
  let t ← typeOf x
  emit { op := .select, dest := ← newReg t, ty := t, args := [c, x, y] }

/-- A call of a function that returns nothing has no destination. -/
def call (callee : FuncId) (ret : Ty) (args : List Reg) : Build Reg := do
  let dest ← if ret = .void then pure .absent else newReg ret
  emit { op := .call, dest, ty := ret, callee, args }

def loadGlobal (g : GlobalId) (t : Ty) : Build Reg := do
  emit { op := .loadGlobal, dest := ← newReg t, ty := t, global := g }

def storeGlobal (g : GlobalId) (v : Reg) : Build Unit := do
  let _ ← emit { op := .storeGlobal, ty := ← typeOf v, global := g, args := [v] }

def undef (t : Ty) : Build Reg := do
  emit { op := .undef, dest := ← newReg t, ty := t }

def panic (message : String) : Build Unit := do
  let _ ← emit { op := .panic, message }

def phi (t : Ty) : Build Reg := do
  let r ← newReg t
  modifyCurrent fun b => { b with phis := b.phis ++ [{ dest := r, ty := t }] }
  return r

def setFirstPhi (dest : Reg) (pred : BlockId) (value : Reg) : List Phi → Option (List Phi)
  | [] => none
  | p :: rest =>
    if p.dest = dest then some (p.setIncoming pred value :: rest)
    else (setFirstPhi dest pred value rest).map (p :: ·)

def setFirstBlock (dest : Reg) (pred : BlockId) (value : Reg) :
    List (Option Block) → List (Option Block)
  | [] => []
  | none :: rest => none :: setFirstBlock dest pred value rest
  | some b :: rest =>
    match setFirstPhi dest pred value b.phis with
    | some phis => some { b with phis } :: rest
    | none => some b :: setFirstBlock dest pred value rest

/-- Sets an input of the first phi with a destination; without one nothing happens. -/
def addIncoming (dest : Reg) (pred : BlockId) (value : Reg) : Build Unit :=
  modifyFunction fun f =>
    { f with blocks := (setFirstBlock dest pred value f.blocks.toList).toArray }

def terminate (t : Term) : Build Unit := modifyCurrent fun b => { b with term := t }

def br (target : BlockId) : Build Unit := terminate (.br target)

def condBr (c : Reg) (yes no : BlockId) : Build Unit := terminate (.condBr c yes no)

def switch (c : Reg) (default : BlockId) (cases : List SwitchCase) : Build Unit :=
  terminate (.switch c cases default)

def ret (v : Reg) : Build Unit := terminate (.ret (if v = .absent then none else some v))

def retVoid : Build Unit := terminate (.ret none)

def unreachable : Build Unit := terminate .unreachable

end Build

/-- A module under construction. -/
structure ModuleBuilder where
  name : String
  functions : Array FunctionBuilder := #[]
  globals : Array Global := #[]
  entryName : String := ""

namespace ModuleBuilder

def addGlobal (b : ModuleBuilder) (name : String) (init : Value) : GlobalId × ModuleBuilder :=
  let id : GlobalId := ⟨UInt32.ofNat b.globals.size⟩
  (id, { b with globals := b.globals.push { id, name, ty := init.ty, init } })

private def nextFunction (b : ModuleBuilder) : FuncId := ⟨UInt32.ofNat b.functions.size⟩

/-- Declares a function outside the module. -/
def addExternal (b : ModuleBuilder) (name : String) (params : List Ty) (ret : Ty) :
    FuncId × ModuleBuilder :=
  let id := b.nextFunction
  let f : Function := { id, name, sig := { params, ret, callConv := .c } }
  (id, { b with functions := b.functions.push { function := f } })

/-- Starts a function; its parameters are its first registers. -/
def addFunction (b : ModuleBuilder) (name : String) (params : List Ty) (ret : Ty) :
    FuncId × ModuleBuilder :=
  let id := b.nextFunction
  let f : Function := {
    id, name, sig := { params, ret }
    params := (List.range params.length).map fun i => ⟨UInt32.ofNat i⟩
    regTypes := params.toArray }
  (id, { b with functions := b.functions.push { function := f } })

/-- Runs steps on the function with a number. -/
def onFunction {α : Type} (b : ModuleBuilder) (id : FuncId) (steps : Build α) :
    Except Crash α × ModuleBuilder :=
  match b.functions[id.num]? with
  | none => (.error .outOfRange, b)
  | some fb =>
    let (r, fb) := (ExceptT.run steps).run fb
    (r, { b with functions := b.functions.setIfInBounds id.num fb })

def build (b : ModuleBuilder) : Module := {
  name := b.name
  functions := b.functions.map (·.function)
  globals := b.globals.map some
  entryName := b.entryName }

end ModuleBuilder

/-- A step on one function. -/
inductive BuildStep where
  | param (i : Nat)
  | newBlock
  | setBlock (id : BlockId)
  | newReg (t : Ty)
  | const (v : Value)
  | copy (x : Reg)
  | binary (op : Op) (x y : Reg)
  | unary (op : Op) (x : Reg)
  | compare (op : Op) (x y : Reg)
  | cast (target : Ty) (x : Reg)
  | select (c x y : Reg)
  | call (callee : FuncId) (t : Ty) (args : List Reg)
  | loadGlobal (g : GlobalId) (t : Ty)
  | storeGlobal (g : GlobalId) (v : Reg)
  | undef (t : Ty)
  | panic (message : String)
  | phi (t : Ty)
  | addIncoming (dest : Reg) (pred : BlockId) (value : Reg)
  | br (target : BlockId)
  | condBr (c : Reg) (yes no : BlockId)
  | switch (c : Reg) (default : BlockId) (cases : List SwitchCase)
  | ret (v : Reg)
  | retVoid
  | unreachable

def BuildStep.perform : BuildStep → Build Unit
  | .param i => discard (Build.param i)
  | .newBlock => discard Build.newBlock
  | .setBlock id => Build.setBlock id
  | .newReg t => discard (Build.newReg t)
  | .const v => discard (Build.const v)
  | .copy x => discard (Build.copy x)
  | .binary op x y => discard (Build.binary op x y)
  | .unary op x => discard (Build.unary op x)
  | .compare op x y => discard (Build.compare op x y)
  | .cast target x => discard (Build.cast target x)
  | .select c x y => discard (Build.select c x y)
  | .call callee t args => discard (Build.call callee t args)
  | .loadGlobal g t => discard (Build.loadGlobal g t)
  | .storeGlobal g v => Build.storeGlobal g v
  | .undef t => discard (Build.undef t)
  | .panic message => Build.panic message
  | .phi t => discard (Build.phi t)
  | .addIncoming dest pred value => Build.addIncoming dest pred value
  | .br target => Build.br target
  | .condBr c yes no => Build.condBr c yes no
  | .switch c default cases => Build.switch c default cases
  | .ret v => Build.ret v
  | .retVoid => Build.retVoid
  | .unreachable => Build.unreachable

namespace ModuleBuilder

/-- A step on a module. A step on one of its functions is possible when the function was begun, not
declared. -/
inductive Step where
  | addGlobal (name : String) (init : Value)
  | addExternal (name : String) (params : List Ty) (ret : Ty)
  | addFunction (name : String) (params : List Ty) (ret : Ty)
  | setEntry (name : String)
  | onFunction (id : FuncId) (step : BuildStep)

/-- Whether the function with a number was begun, so that steps can be made on it. -/
def begun (b : ModuleBuilder) (id : FuncId) : Bool :=
  (b.functions[id.num]?).any fun fb => fb.function.sig.callConv != .c

def perform (b : ModuleBuilder) : Step → ModuleBuilder
  | .addGlobal name init => (b.addGlobal name init).2
  | .addExternal name params ret => (b.addExternal name params ret).2
  | .addFunction name params ret => (b.addFunction name params ret).2
  | .setEntry name => { b with entryName := name }
  | .onFunction id step => if b.begun id then (b.onFunction id step.perform).2 else b

/-- The builder after steps on a module that had nothing. -/
def after (name : String) (steps : List Step) : ModuleBuilder := steps.foldl perform { name }

end ModuleBuilder

end TieredEngine.Ir
