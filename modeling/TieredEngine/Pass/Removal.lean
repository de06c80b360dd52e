import TieredEngine.Ir.Module

/-!
Removal of phis and instructions whose result nobody reads. Instructions with effects stay. What is
removed may have been the last reader of something else, so the removal is repeated until nothing
more goes.
-/
namespace TieredEngine.Pass.DeadCode
open TieredEngine TieredEngine.Ir

/-- Registers a block reads. -/
def blockUses (b : Block) : List Reg :=
  b.phis.flatMap (fun p => p.incoming.map (·.value)) ++ b.insts.flatMap (·.args) ++ b.term.uses

def keepInst (used : List Reg) (i : Inst) : Bool :=
  !i.hasDest || i.op.hasEffects || used.contains i.dest

def sweepBlock (used : List Reg) (b : Block) : Block :=
  { b with phis := b.phis.filter (used.contains ·.dest), insts := b.insts.filter (keepInst used) }

def size (blocks : List Block) : Nat :=
  blocks.foldl (fun n b => n + b.phis.length + b.insts.length) 0

/-- Sweeps until a sweep removes nothing; each sweep that goes on removes something. -/
def sweep : Nat → List Block → List Block
  | 0, blocks => blocks
  | fuel + 1, blocks =>
    let used := (blocks.flatMap blockUses).eraseDups
    let swept := blocks.map (sweepBlock used)
    if size swept = size blocks then blocks else sweep fuel swept

def run (f : Function) : Except Crash (Function × Bool) := do
  let blocks ← f.allBlocks
  let swept := sweep (size blocks + 1) blocks
  return ({ f with blocks := (swept.map some).toArray }, size swept ≠ size blocks)

end TieredEngine.Pass.DeadCode

/-!
Removal of blocks that cannot be reached from the entry. The remaining blocks keep their order and
are numbered anew; phi inputs from removed blocks go, and every branch is renumbered.
-/
namespace TieredEngine.Pass.Unreachable
open TieredEngine TieredEngine.Ir

/-- New numbers by old ones; of several blocks with one number the last counts. -/
abbrev Renumbering := List (BlockId × BlockId)

def lookup (m : Renumbering) (b : BlockId) : Option BlockId := (m.find? (·.1 == b)).map (·.2)

/-- A block without a new number is taken for the first one. -/
def target (m : Renumbering) (b : BlockId) : BlockId := (lookup m b).getD ⟨0⟩

def renumberTerm (m : Renumbering) : Term → Term
  | .br t => .br (target m t)
  | .condBr c y n => .condBr c (target m y) (target m n)
  | .switch c cases d =>
    .switch c (cases.map fun k => { k with target := target m k.target }) (target m d)
  | t => t

def renumberPhi (m : Renumbering) (p : Phi) : Phi :=
  { p with incoming := p.incoming.filterMap fun i =>
      (lookup m i.pred).map fun pred => { i with pred } }

def renumberBlock (m : Renumbering) (b : Block) : Block :=
  { b with id := target m b.id, phis := b.phis.map (renumberPhi m), term := renumberTerm m b.term }

/-- Whether a block is among the reachable ones; its number is trusted to be a position. -/
def isLive (live : Array Bool) (b : Block) : Except Crash Bool :=
  match live[b.id.num]? with
  | some l => .ok l
  | none => .error .outOfRange

def run (f : Function) : Except Crash (Function × Bool) := do
  let order ← f.reversePostorder
  if order.length = f.blocks.size then return (f, false)
  let live := order.foldl (fun a id => a.setIfInBounds id.num true)
    (Array.replicate f.blocks.size false)
  let kept ← (← f.allBlocks).filterM (isLive live)
  let m : Renumbering :=
    (kept.mapIdx fun i b => (b.id, (⟨UInt32.ofNat i⟩ : BlockId))).reverse
  let blocks := kept.map fun b => some (renumberBlock m b)
  return ({ f with blocks := blocks.toArray, entry := target m f.entry }, true)

end TieredEngine.Pass.Unreachable
