import TieredEngine.Ir.Module

/-!
Tree shaking keeps what a program can use: the functions reachable from the entry over calls, and
the globals those functions load or store. What is left is numbered anew in its old order, and
calls and global accesses are renumbered with it. An unknown entry leaves the module alone.
-/
namespace TieredEngine.Ship
open TieredEngine TieredEngine.Ir

structure ShakeStats where
  functionsRemoved : Int := 0
  externsRemoved : Int := 0
  globalsRemoved : Int := 0
  functionsKept : Int := 0
  externsKept : Int := 0
  deriving DecidableEq, Repr

def ShakeStats.text (s : ShakeStats) : String :=
  s!"Removed: {s.functionsRemoved} functions, {s.externsRemoved} externs, " ++
  s!"{s.globalsRemoved} globals; Kept: {s.functionsKept} functions, {s.externsKept} externs"

namespace TreeShake

/-- Instructions of a function, all blocks present. -/
def instsOf (f : Function) : Except Crash (List Inst) :=
  return (← f.allBlocks).flatMap (·.insts)

def callees (is : List Inst) : List FuncId :=
  (is.filter (·.op == .call)).map (·.callee)

def globalsUsed (is : List Inst) : List GlobalId :=
  (is.filter fun i => i.op == .loadGlobal || i.op == .storeGlobal).map (·.global)

/-- Functions and globals found to be used. -/
structure Live where
  functions : Array Bool
  globals : Array Bool

/-- Marks a callee that is new and puts it on the list of functions to look at. -/
def markCallee (s : Live × List FuncId) (id : FuncId) : Live × List FuncId :=
  match s.1.functions[id.num]? with
  | some false =>
    ({ s.1 with functions := s.1.functions.setIfInBounds id.num true }, id :: s.2)
  | _ => s

/-- Looks at the listed functions; every function gets on the list at most once. -/
def mark (m : Module) : Nat → Live → List FuncId → Except Crash Live
  | 0, live, _ => .ok live
  | _ + 1, live, [] => .ok live
  | fuel + 1, live, id :: rest => do
    let is ← match m.function? id with
      | some f => instsOf f
      | none => throw .outOfRange
    let globals := (globalsUsed is).foldl (fun a g => a.setIfInBounds g.num true) live.globals
    let (live, work) := (callees is).foldl markCallee ({ live with globals }, rest)
    mark m fuel live work

/-- What is used when the entry runs. -/
def liveFrom (m : Module) (entry : FuncId) : Except Crash Live :=
  mark m (m.functions.size + 1) {
    functions := (Array.replicate m.functions.size false).setIfInBounds entry.num true
    globals := Array.replicate m.globals.size false } [entry]

/-- New numbers by position; what is removed maps to zero. -/
def numbering (live : Array Bool) : Array Nat :=
  (live.foldl (fun (acc : Array Nat × Nat) l =>
    if l then (acc.1.push acc.2, acc.2 + 1) else (acc.1.push 0, acc.2)) (#[], 0)).1

/-- New number of an access; a position beyond the table was never checked. -/
def renumbered (table : Array Nat) (old : UInt32) : Except Crash UInt32 :=
  match table[old.toNat]? with
  | some n => .ok (UInt32.ofNat n)
  | none => .error .outOfRange

def renumberInst (functions globals : Array Nat) (i : Inst) : Except Crash Inst :=
  match i.op with
  | .call => return { i with callee := ⟨← renumbered functions i.callee.index⟩ }
  | .loadGlobal | .storeGlobal =>
    return { i with global := ⟨← renumbered globals i.global.index⟩ }
  | _ => .ok i

def renumberFunction (functions globals : Array Nat) (f : Function) : Except Crash Function := do
  let blocks ← f.blocks.mapM fun b? => do
    let b ← Crash.deref b?
    return some { b with insts := ← b.insts.mapM (renumberInst functions globals) }
  return { f with blocks }

/-- The entries that are marked, with their old positions. -/
def marked {α : Type} (live : Array Bool) (xs : Array α) : List α :=
  ((xs.toList.zip live.toList).filter (·.2)).map (·.1)

end TreeShake

/-- A shaken module, what was dropped, and the entry's new number. -/
structure Shaken where
  module : Module
  stats : ShakeStats
  entry : FuncId

open TreeShake in
/-- Shakes a module from an entry function. -/
def treeShake (m : Module) (entry : FuncId) : Except Crash Shaken := do
  if (m.function? entry).isNone then return ⟨m, {}, entry⟩
  let live ← liveFrom m entry
  let functionNumbers := numbering live.functions
  let globalNumbers := numbering live.globals
  let kept := (marked live.functions m.functions).mapIdx fun i f =>
    { f with id := ⟨UInt32.ofNat i⟩ }
  let globals := (marked live.globals m.globals).mapIdx fun i g => (i, g)
  let keptGlobals ← globals.mapM fun (i, g?) => do
    let g ← Crash.deref g?
    return some { g with id := ⟨UInt32.ofNat i⟩ }
  let functions ← kept.mapM (renumberFunction functionNumbers globalNumbers)
  let dropped := marked (live.functions.map (!·)) m.functions
  let stats : ShakeStats := {
    functionsRemoved := (dropped.filter (!·.isExternal)).length
    externsRemoved := (dropped.filter (·.isExternal)).length
    globalsRemoved := m.globals.size - keptGlobals.length
    functionsKept := (kept.filter (!·.isExternal)).length
    externsKept := (kept.filter (·.isExternal)).length }
  let newEntry : FuncId := ⟨UInt32.ofNat (functionNumbers[entry.num]?.getD 0)⟩
  return ⟨{ m with functions := functions.toArray, globals := keptGlobals.toArray }, stats,
    newEntry⟩

end TieredEngine.Ship
