import TieredEngine.Ir.Module

/-!
Copy propagation. Every read of a register that is written by a copy becomes a read of the copied
register, provided both have the same declared type. The copies themselves stay.
-/
namespace TieredEngine.Pass.CopyProp
open TieredEngine TieredEngine.Ir

/-- Copied registers by destination; of several copies to one register the last counts. -/
abbrev Aliases := List (Reg × Reg)

def lookup (a : Aliases) (r : Reg) : Option Reg := (a.find? (·.1 == r)).map (·.2)

def insert (a : Aliases) (dest source : Reg) : Aliases :=
  (dest, source) :: a.filter (·.1 != dest)

def ofInst (f : Function) (a : Aliases) (i : Inst) : Aliases :=
  match i.op, i.args with
  | .copy, [source] =>
    match f.regType? i.dest, f.regType? source with
    | some d, some s =>
      if i.dest ≠ .absent ∧ d = s ∧ i.dest ≠ source then insert a i.dest source else a
    | _, _ => a
  | _, _ => a

def collect (f : Function) (blocks : List Block) : Aliases :=
  blocks.foldl (fun a b => b.insts.foldl (ofInst f) a) []

/-- Follows at most `fuel` copies back. -/
def follow (a : Aliases) : Nat → Reg → Reg
  | 0, r => r
  | fuel + 1, r =>
    match lookup a r with
    | none => r
    | some next => follow a fuel next

def resolve (a : Aliases) (r : Reg) : Reg := follow a (a.length + 1) r

def renameTerm (a : Aliases) : Term → Term
  | .condBr c y n => .condBr (resolve a c) y n
  | .switch c cases d => .switch (resolve a c) cases d
  | .ret (some v) => .ret (some (resolve a v))
  | t => t

def renameBlock (a : Aliases) (b : Block) : Block :=
  { b with
    phis := b.phis.map fun p =>
      { p with incoming := p.incoming.map fun i => { i with value := resolve a i.value } }
    insts := b.insts.map fun i => { i with args := i.args.map (resolve a) }
    term := renameTerm a b.term }

def run (f : Function) : Except Crash (Function × Bool) := do
  let a := collect f (← f.allBlocks)
  let g := f.mapBlocks (renameBlock a)
  return (g, g ≠ f)

end TieredEngine.Pass.CopyProp
