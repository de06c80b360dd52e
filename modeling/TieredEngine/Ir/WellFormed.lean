import TieredEngine.Ir.Module

/-!
Structural checks of a module: numbers agree with positions, branches, phi inputs, callees and
globals exist, calls have as many arguments as the callee has parameters. Undefined registers,
types and missing terminators are not looked at here. The check trusts every global to be present.
-/
namespace TieredEngine.Ir

/-- What is wrong inside one function. -/
inductive FunctionDefect where
  | paramCount (registers params : Nat)
  | paramUntyped (r : Reg)
  | entryOutOfRange (entry : BlockId)
  | blockMissing (index : Nat)
  | blockNumber (id : BlockId) (index : Nat)
  | branchTarget (block target : BlockId)
  | phiPredecessor (block : BlockId) (dest : Reg) (pred : BlockId)
  | unknownCallee (block : BlockId) (callee : FuncId)
  | callArguments (block : BlockId) (callee : String) (got want : Nat)
  | unknownGlobal (block : BlockId) (global : GlobalId)
  deriving DecidableEq, Repr

def FunctionDefect.message : FunctionDefect → String
  | .paramCount r p => s!"{r} parameter registers for {p} signature parameters"
  | .paramUntyped r => s!"parameter register {r.text} has no type"
  | .entryOutOfRange b => s!"entry block {b.text} out of range"
  | .blockMissing i => s!"block #{i} is nil"
  | .blockNumber b i => s!"block id {b.text} does not match index {i}"
  | .branchTarget b t => s!"{b.text} branches to missing block {t.text}"
  | .phiPredecessor b r p => s!"{b.text} phi {r.text} names missing predecessor {p.text}"
  | .unknownCallee b f => s!"{b.text} calls unknown function f{f.num}"
  | .callArguments b f got want => s!"{b.text} calls {f} with {got} args, want {want}"
  | .unknownGlobal b g => s!"{b.text} references unknown global g{g.num}"

inductive Defect where
  | functionNumber (name : String) (id : FuncId) (index : Nat)
  | duplicateName (name : String)
  | inFunction (name : String) (d : FunctionDefect)
  | globalNumber (name : String) (id : GlobalId) (index : Nat)
  deriving DecidableEq, Repr

def Defect.message : Defect → String
  | .functionNumber n id i => s!"function {n}: id {id.num} does not match index {i}"
  | .duplicateName n => s!"function {n}: duplicate name"
  | .inFunction n d => s!"function {n}: {d.message}"
  | .globalNumber n id i => s!"global {n}: id {id.num} does not match index {i}"

/-- `.ok` is no defect; `when p d` is the defect `d` if `p` holds. -/
def defectIf {α : Type} (p : Bool) (d : α) : List α := if p then [d] else []

namespace Block

def instDefects (m : Module) (b : Block) (i : Inst) : List FunctionDefect :=
  match i.op with
  | .call =>
    match m.function? i.callee with
    | none => [.unknownCallee b.id i.callee]
    | some f => defectIf (f.sig.params.length != i.args.length)
        (.callArguments b.id f.name i.args.length f.sig.params.length)
  | .loadGlobal | .storeGlobal =>
    defectIf (m.global? i.global).isNone (.unknownGlobal b.id i.global)
  | _ => []

/-- Defects of the block at a position of a function with `count` blocks. -/
def defects (m : Module) (count index : Nat) (b : Block) : List FunctionDefect :=
  let inRange (id : BlockId) : Bool := id.num < count
  defectIf (b.id.num != index) (.blockNumber b.id index) ++
    b.term.successors.flatMap (fun s => defectIf (!inRange s) (.branchTarget b.id s)) ++
    b.phis.flatMap (fun p => p.incoming.flatMap fun i =>
      defectIf (!inRange i.pred) (.phiPredecessor b.id p.dest i.pred)) ++
    b.insts.flatMap (instDefects m b)

end Block

/-- Defects of one function; a declaration has none. -/
def Function.defects (m : Module) (f : Function) : List FunctionDefect :=
  if f.isExternal then []
  else
    defectIf (f.params.length != f.sig.params.length)
      (.paramCount f.params.length f.sig.params.length) ++
    f.params.flatMap (fun p => defectIf (f.regTypes.size ≤ p.num) (.paramUntyped p)) ++
    defectIf (f.blocks.size ≤ f.entry.num) (.entryOutOfRange f.entry) ++
    (f.blocks.toList.mapIdx fun i b? =>
      match b? with
      | none => [.blockMissing i]
      | some b => b.defects m f.blocks.size i).flatten

def functionDefects (m : Module) (i : Nat) (seen : List String) (f : Function) :
    List Defect :=
  defectIf (f.id.num != i) (.functionNumber f.name f.id i) ++
    defectIf (seen.contains f.name) (.duplicateName f.name) ++
    (f.defects m).map (.inFunction f.name)

/-- All defects of a module, functions first. -/
def Module.defects (m : Module) : Except Crash (List Defect) := do
  let functions := m.functions.toList
  let names := functions.map (·.name)
  let inFunctions := (functions.mapIdx fun i f => functionDefects m i (names.take i) f).flatten
  let inGlobals ← (m.globals.toList.mapIdx fun i g? => (i, g?)).mapM fun (i, g?) => do
    let g ← Crash.deref g?
    return defectIf (g.id.num != i) (Defect.globalNumber g.name g.id i)
  return inFunctions ++ inGlobals.flatten

end TieredEngine.Ir
