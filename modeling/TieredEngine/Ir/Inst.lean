import TieredEngine.Ir.Op
import TieredEngine.Ir.Value

/-!
Registers, blocks and functions are named by numbers. An instruction is an operation with all the
operands any operation can have; which of them count depends on the operation. A terminator ends a
block and says where control goes next.
-/
namespace TieredEngine.Ir

/-- A virtual register. -/
structure Reg where
  index : UInt32
  deriving DecidableEq, Repr, Inhabited

/-- The register number that stands for no register. -/
def Reg.absent : Reg := ⟨0xFFFFFFFF⟩

structure BlockId where
  index : UInt32
  deriving DecidableEq, Repr, Inhabited

structure FuncId where
  index : UInt32
  deriving DecidableEq, Repr, Inhabited

structure GlobalId where
  index : UInt32
  deriving DecidableEq, Repr, Inhabited

namespace Reg

def num (r : Reg) : Nat := r.index.toNat

def text (r : Reg) : String := if r = absent then "_" else s!"%{r.num}"

end Reg

def BlockId.num (b : BlockId) : Nat := b.index.toNat
def BlockId.text (b : BlockId) : String := s!"bb{b.num}"
def FuncId.num (f : FuncId) : Nat := f.index.toNat
def GlobalId.num (g : GlobalId) : Nat := g.index.toNat

/-- One instruction. A constant is `const`; a cast reads `source` and gives `ty`; a call names its
`callee`; loads and stores name a `global`; a panic carries its `message`. -/
structure Inst where
  op : Op := .const
  dest : Reg := .absent
  ty : Ty := .void
  args : List Reg := []
  const : Value := .void
  source : Ty := .void
  callee : FuncId := ⟨0⟩
  global : GlobalId := ⟨0⟩
  message : String := ""
  deriving DecidableEq, Repr, Inhabited

/-- Whether the instruction defines its destination. -/
def Inst.hasDest (i : Inst) : Bool :=
  i.dest != .absent && i.op != .storeGlobal && i.op != .panic

structure SwitchCase where
  value : Int64
  target : BlockId
  deriving DecidableEq, Inhabited

/-- How a block ends; `missing` when nothing was said. -/
inductive Term where
  | missing
  | br (target : BlockId)
  | condBr (cond : Reg) (yes no : BlockId)
  | switch (cond : Reg) (cases : List SwitchCase) (default : BlockId)
  | ret (value : Option Reg)
  | unreachable
  deriving DecidableEq, Inhabited

namespace Term

/-- Names of the kinds of terminators, in the order of their numbers. -/
def kindNames : List String := ["none", "br", "condbr", "switch", "ret", "unreachable"]

def kindName : Term → String
  | missing => "none"
  | br _ => "br"
  | condBr .. => "condbr"
  | switch .. => "switch"
  | ret _ => "ret"
  | unreachable => "unreachable"

/-- Name shown for a number of a kind, which need not be one. -/
def kindCodeName (n : Nat) : String := kindNames[n]?.getD s!"term({n})"

def unknownMessage (s : String) : String := s!"unknown terminator {Text.quoted s}"

/-- Blocks control may go to next, repetitions included. -/
def successors : Term → List BlockId
  | br t => [t]
  | condBr _ y n => [y, n]
  | switch _ cases d => cases.map (·.target) ++ [d]
  | _ => []

/-- Registers the terminator reads. -/
def uses : Term → List Reg
  | condBr c _ _ => [c]
  | switch c _ _ => [c]
  | ret (some v) => [v]
  | _ => []

end Term

/-- One input of a phi: the value taken when control comes from `pred`. -/
structure Incoming where
  pred : BlockId
  value : Reg
  deriving DecidableEq, Repr, Inhabited

/-- A phi chooses its value by the block control came from. `explicitEmpty` says that an empty list
of inputs was written out as one. -/
structure Phi where
  dest : Reg := ⟨0⟩
  ty : Ty := .void
  incoming : List Incoming := []
  explicitEmpty : Bool := false
  deriving DecidableEq, Repr, Inhabited

/-- First input for a predecessor. -/
def Phi.valueFor? (p : Phi) (pred : BlockId) : Option Reg :=
  (p.incoming.find? (·.pred == pred)).map (·.value)

/-- Replaces the input for a predecessor, or adds one. -/
def Phi.setIncoming (p : Phi) (pred : BlockId) (value : Reg) : Phi :=
  if p.incoming.any (·.pred == pred) then
    let rec replace : List Incoming → List Incoming
      | [] => []
      | i :: rest => if i.pred == pred then { i with value } :: rest else i :: replace rest
    { p with incoming := replace p.incoming }
  else { p with incoming := p.incoming ++ [⟨pred, value⟩] }

end TieredEngine.Ir
