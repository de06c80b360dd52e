import TieredEngine.Crash
import TieredEngine.Ir.Inst
import TieredEngine.Text.Blank

/-!
Functions and modules. A function without blocks is a declaration of something outside the module.
Blocks and globals may be missing from their lists, and numbers may disagree with positions: the
checks of a module say so, and code that trusts a module unchecked can crash on it.
-/
namespace TieredEngine.Ir

inductive CallConv where
  | default | c
  deriving DecidableEq, Repr, Inhabited

def CallConv.name : CallConv → String
  | .default => "default"
  | .c => "c"

def CallConv.ofName? : String → Option CallConv
  | "" | "default" => some .default
  | "c" => some .c
  | _ => none

def CallConv.unknownMessage (s : String) : String :=
  s!"unknown calling convention {Text.quoted s}"

/-- Types of the parameters and of the result. `explicitEmpty` says that an empty list of
parameters was written out as one. -/
structure Signature where
  params : List Ty := []
  ret : Ty := .void
  callConv : CallConv := .default
  canThrow : Bool := false
  explicitEmpty : Bool := false
  deriving DecidableEq, Repr, Inhabited

def Signature.text (s : Signature) : String :=
  s!"({Text.commas (s.params.map Ty.name)}) -> {s.ret.name}"

/-- A basic block: phis, then instructions, then a terminator. -/
structure Block where
  id : BlockId := ⟨0⟩
  phis : List Phi := []
  insts : List Inst := []
  term : Term := .missing
  explicitEmpty : Bool := false
  deriving DecidableEq, Inhabited

/-- A function. `regTypes` gives the type of each register by its number. -/
structure Function where
  id : FuncId := ⟨0⟩
  name : String := ""
  sig : Signature := {}
  params : List Reg := []
  blocks : Array (Option Block) := #[]
  entry : BlockId := ⟨0⟩
  regTypes : Array Ty := #[]
  deriving DecidableEq, Inhabited

namespace Function

/-- A declaration without a body. -/
def isExternal (f : Function) : Bool := f.blocks.isEmpty

/-- The block with a number, if there is one at that position. -/
def block? (f : Function) (id : BlockId) : Option Block := (f.blocks[id.num]?).join

def regType? (f : Function) (r : Reg) : Option Ty := f.regTypes[r.num]?

/-- All blocks, none of them missing. -/
def allBlocks (f : Function) : Except Crash (List Block) :=
  f.blocks.toList.mapM Crash.deref

/-- Number of instructions, phis and terminators not counted. -/
def instCount (f : Function) : Except Crash Nat :=
  return (← f.allBlocks).foldl (fun n b => n + b.insts.length) 0

/-- The function with every present block changed. -/
def mapBlocks (f : Function) (g : Block → Block) : Function :=
  { f with blocks := f.blocks.map (·.map g) }

end Function

structure Global where
  id : GlobalId := ⟨0⟩
  name : String := ""
  ty : Ty := .void
  init : Value := .void
  deriving DecidableEq, Inhabited

structure Module where
  name : String := ""
  functions : Array Function := #[]
  globals : Array (Option Global) := #[]
  entryName : String := ""
  explicitEmpty : Bool := false
  deriving DecidableEq, Inhabited

/-- A module without the entry function it needs. -/
inductive EntryError where
  | notDefined (entry moduleName : String)
  | noCandidate (moduleName : String)
  deriving DecidableEq, Repr

def EntryError.message : EntryError → String
  | .notDefined entry m => s!"no entry function: {Text.quoted entry} not defined in module {m}"
  | .noCandidate m => s!"no entry function in module {m}"

namespace Module

def function? (m : Module) (id : FuncId) : Option Function := m.functions[id.num]?

def global? (m : Module) (id : GlobalId) : Option Global := (m.globals[id.num]?).join

/-- The function a name stands for: of several with that name the last one counts, and its number
is trusted to be its position. -/
def lookup (m : Module) (name : String) : Except Crash (Option Function) :=
  match m.functions.toList.reverse.find? (·.name == name) with
  | none => .ok none
  | some f => (Crash.index m.functions.toList f.id.num).map some

def externals (m : Module) : List Function := m.functions.toList.filter Function.isExternal

/-- The function a program starts with: the named entry if the module names one; else `main`; else
the last function whose name ends in `_main`. It has to have a body. -/
def entryFunction (m : Module) : Except (Fault EntryError) Function := do
  if m.entryName != "" then
    match ← Crash.lift (m.lookup m.entryName) with
    | some f => if !f.isExternal then return f
    | none => pure ()
    throw (.error (.notDefined m.entryName m.name))
  match ← Crash.lift (m.lookup "main") with
  | some f => if !f.isExternal then return f
  | none => pure ()
  match m.functions.toList.reverse.find?
      (fun f => !f.isExternal && (Text.dropTrailing? "_main" f.name).isSome) with
  | some f => return f
  | none => throw (.error (.noCandidate m.name))

end Module

end TieredEngine.Ir

/-!
The control-flow graph of a function. Edges are read off the terminators; a block is known to its
successors by the number it carries, which in a checked function is its position. The reverse
postorder lists the blocks reachable from the entry so that a block comes after every block that
lies on all paths to it.
-/
namespace TieredEngine.Ir.Function
open TieredEngine

/-- Every edge as source and target, in the order of blocks and terminators. -/
def edges (f : Function) : Except Crash (List (BlockId × BlockId)) :=
  return (← f.allBlocks).flatMap fun b => b.term.successors.map (b.id, ·)

/-- Blocks with an edge to a block, once per edge. -/
def predecessorsIn (edges : List (BlockId × BlockId)) (target : BlockId) : List BlockId :=
  (edges.filter (·.2 == target)).map (·.1)

/-- Blocks met so far, and those finished, the last one first. -/
structure Walk where
  seen : Array Bool
  finished : List BlockId

/-- Depth-first walk from a block; a target out of range is skipped. Each level of the walk marks a
new block, so as many levels as blocks are enough. -/
def walk (f : Function) : Nat → Walk → BlockId → Except Crash Walk
  | 0, w, _ => .ok w
  | fuel + 1, w, id =>
    match w.seen[id.num]? with
    | none | some true => .ok w
    | some false => do
      let b ← Crash.deref (f.block? id)
      let w ← b.term.successors.foldlM (walk f fuel)
        { w with seen := w.seen.setIfInBounds id.num true }
      return { w with finished := id :: w.finished }

/-- The reachable blocks, each before the blocks it dominates. -/
def reversePostorder (f : Function) : Except Crash (List BlockId) := do
  let n := f.blocks.size
  let w ← f.walk (n + 1) ⟨Array.replicate n false, []⟩ f.entry
  return w.finished

end TieredEngine.Ir.Function
