import TieredEngine.Eval.Arith
import TieredEngine.Ir.Module

/-!
Constant folding. Blocks are visited in reverse postorder; an instruction all of whose operands are
known constants becomes the constant it computes, and a branch on a known condition becomes a plain
jump. Phi inputs along the edges that disappear are removed.
-/
namespace TieredEngine.Pass.ConstFold
open TieredEngine TieredEngine.Ir

/-- Constants found so far, the latest first. -/
abbrev Known := List (Reg × Value)

def lookup (k : Known) (r : Reg) : Option Value := (k.find? (·.1 == r)).map (·.2)

structure State where
  function : Function
  known : Known := []
  changed : Bool := false

/-- The constant that an instruction is turned into, if all its operands are known. -/
def foldInst? (k : Known) (i : Inst) : Option Value :=
  if i.op = .const || !i.hasDest || i.args.isEmpty then none
  else (i.args.mapM (lookup k)).bind (Eval.fold? i)

/-- Folds the instructions of a block in order. -/
def foldInsts : Known → List Inst → Known × List Inst × Bool
  | k, [] => (k, [], false)
  | k, i :: rest =>
    if i.op = .const then
      let (k, is, c) := foldInsts ((i.dest, i.const) :: k) rest
      (k, i :: is, c)
    else
      match foldInst? k i with
      | none =>
        let (k, is, c) := foldInsts k rest
        (k, i :: is, c)
      | some v =>
        let (k, is, _) := foldInsts ((i.dest, v) :: k) rest
        (k, { op := .const, dest := i.dest, ty := i.ty, const := v } :: is, true)

/-- Target of a branch whose condition is a known integer. -/
def knownTarget? (k : Known) : Term → Option BlockId
  | .condBr c yes no => do
    let v ← lookup k c
    guard v.ty.isIntLike
    return if v.toBool then yes else no
  | .switch c cases d => do
    let v ← lookup k c
    guard v.ty.isIntLike
    match cases.find? (fun s => Value.ofInt v.ty s.value.toInt == v) with
    | some s => return s.target
    | none => return d
  | _ => none

/-- Drops the inputs of a block's phis that come from a predecessor. -/
def dropInputs (pred : BlockId) (b : Block) : Block :=
  { b with phis := b.phis.map fun p =>
      { p with incoming := p.incoming.filter (·.pred != pred) } }

/-- Changes the block at a position; a missing one stays missing. -/
def modifyBlock (f : Function) (id : BlockId) (g : Block → Block) : Function :=
  { f with blocks := f.blocks.modify id.num (·.map g) }

/-- Turns a decided branch of the block at `id` into a jump. -/
def foldBranch (k : Known) (f : Function) (id : BlockId) (b : Block) : Function × Bool :=
  match knownTarget? k b.term with
  | none => (f, false)
  | some target =>
    let f := (b.term.successors.filter (· != target)).foldl
      (fun f s => modifyBlock f s (dropInputs b.id)) f
    (modifyBlock f id fun b => { b with term := .br target }, true)

def visit (s : State) (id : BlockId) : Except Crash State := do
  let b ← Crash.deref (s.function.block? id)
  let (known, insts, folded) := foldInsts s.known b.insts
  let f := modifyBlock s.function id fun b => { b with insts }
  let (function, jumped) := foldBranch known f id b
  return { function, known, changed := s.changed || folded || jumped }

def run (f : Function) : Except Crash (Function × Bool) := do
  let s ← (← f.reversePostorder).foldlM visit { function := f }
  return (s.function, s.changed)

end TieredEngine.Pass.ConstFold
