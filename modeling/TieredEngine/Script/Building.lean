import TieredEngine.Ir.Builder
import TieredEngine.Script.Line

/-!
Scripts that build modules. A line adds a global or a function, makes a function current, or adds
to the current function. All operands of a line are read before it changes anything; a line that
crashes keeps what it changed before.
-/
namespace TieredEngine.Script
open TieredEngine TieredEngine.Ir

/-- A module under construction and the function that lines add to. -/
structure Workbench where
  builder : ModuleBuilder
  current : Option FuncId := none

/-- What a line of a building script gives. -/
inductive Built where
  | id (n : Nat)
  | reg (r : Reg)
  | block (b : BlockId)
  | done
  | crashed

namespace Workbench

/-- A step on the current function. -/
def onCurrent {α : Type} (w : Workbench) (step : Build α) (give : α → Built) :
    Reading (Built × Workbench) := do
  let id ← orMalformed w.current
  match w.builder.onFunction id step with
  | (.ok a, builder) => return (give a, { w with builder })
  | (.error _, builder) => return (.crashed, { w with builder })

private def regAt (l : Line) (i : Nat) : Reading Reg := return ⟨← l.get (·.asWord32) i⟩
private def blockAt (l : Line) (i : Nat) : Reading BlockId := return ⟨← l.get (·.asWord32) i⟩
private def typeAt (l : Line) (i : Nat) : Reading Ty := l.get (·.asType) i
private def valueAt (l : Line) (i : Nat) : Reading Value := l.get (·.asValue) i

private def opAt (l : Line) (i : Nat) : Reading Op := do
  let name ← l.get (·.asText) i
  match Op.ofName? name with
  | some o => return o
  | none => throw (.unknownOperation name)

private def caseOf (o : Operand) : Reading SwitchCase := do
  match ← o.asList with
  | [x, y] => return ⟨Int64.ofInt (← x.asInt), ⟨← y.asWord32⟩⟩
  | _ => throw .malformed

/-- Name, parameter types and result type of a function. -/
private def headAt (l : Line) : Reading (String × List Ty × Ty) := do
  return (← l.get (·.asText) 0, ← (← l.get (·.asList) 1).mapM (·.asType), ← typeAt l 2)

/-- Lines that add instructions with a result. -/
def instruction? (l : Line) : Option (Reading (Build Reg)) :=
  let (r, t) := (regAt l, typeAt l)
  match l.verb with
  | "param" => some do
    let i ← l.get (·.asInt) 0
    return if i < 0 then throw .outOfRange else Build.param i.toNat
  | "reg" => some do return Build.newReg (← t 0)
  | "const" => some do return Build.const (← valueAt l 0)
  | "copy" => some do return Build.copy (← r 0)
  | "binary" => some do return Build.binary (← opAt l 0) (← r 1) (← r 2)
  | "unary" => some do return Build.unary (← opAt l 0) (← r 1)
  | "compare" => some do return Build.compare (← opAt l 0) (← r 1) (← r 2)
  | "cast" => some do return Build.cast (← t 0) (← r 1)
  | "select" => some do return Build.select (← r 0) (← r 1) (← r 2)
  | "call" => some do
    let callee : FuncId := ⟨← l.get (·.asWord32) 0⟩
    let ty ← t 1
    let args ← (l.operands.drop 2).mapM fun o => return (⟨← o.asWord32⟩ : Reg)
    return Build.call callee ty args
  | "load" => some do
    let global : GlobalId := ⟨← l.get (·.asWord32) 0⟩
    return Build.loadGlobal global (← t 1)
  | "undef" => some do return Build.undef (← t 0)
  | "phi" => some do return Build.phi (← t 0)
  | _ => none

/-- Lines that add something without a result. -/
def effect? (l : Line) : Option (Reading (Build Unit)) :=
  let (r, b) := (regAt l, blockAt l)
  match l.verb with
  | "set" => some do return Build.setBlock (← b 0)
  | "store" => some do
    let global : GlobalId := ⟨← l.get (·.asWord32) 0⟩
    return Build.storeGlobal global (← r 1)
  | "panic" => some do return Build.panic (← l.get (·.asText) 0)
  | "incoming" => some do return Build.addIncoming (← r 0) (← b 1) (← r 2)
  | "br" => some do return Build.br (← b 0)
  | "condbr" => some do return Build.condBr (← r 0) (← b 1) (← b 2)
  | "switch" => some do
    let c ← r 0
    let d ← b 1
    return Build.switch c d (← (l.operands.drop 2).mapM caseOf)
  | "ret" => some do return Build.ret (← r 0)
  | "retvoid" => some (.ok Build.retVoid)
  | "unreachable" => some (.ok Build.unreachable)
  | _ => none

/-- The last function of a name that was added with a body to come. -/
def functionNamed? (w : Workbench) (name : String) : Option FuncId :=
  let own := w.builder.functions.toList.filter fun f => f.function.sig.callConv != .c
  (own.reverse.find? (·.function.name == name)).map (·.function.id)

/-- Lines on the module. -/
def onModule (w : Workbench) (l : Line) : Reading (Built × Workbench) := do
  match l.verb with
  | "global" =>
    let name ← l.get (·.asText) 0
    let (id, builder) := w.builder.addGlobal name (← valueAt l 1)
    return (.id id.num, { w with builder })
  | "extern" =>
    let (name, params, ret) ← headAt l
    let (id, builder) := w.builder.addExternal name params ret
    return (.id id.num, { w with builder })
  | "func" =>
    let (name, params, ret) ← headAt l
    let (id, builder) := w.builder.addFunction name params ret
    return (.id id.num, ⟨builder, some id⟩)
  | "entry" =>
    let entryName ← l.get (·.asText) 0
    return (.done, { w with builder := { w.builder with entryName } })
  | "use" =>
    let id ← orMalformed (w.functionNamed? (← l.get (·.asText) 0))
    return (.done, { w with current := some id })
  | _ => throw .malformed

def step (w : Workbench) (l : Line) : Reading (Built × Workbench) := do
  match instruction? l, effect? l with
  | some step, _ => w.onCurrent (← step) .reg
  | none, some step => w.onCurrent (← step) fun _ => .done
  | none, none =>
    if l.verb = "block" then w.onCurrent Build.newBlock .block else w.onModule l

end Workbench

end TieredEngine.Script
