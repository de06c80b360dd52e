import TieredEngine.Ir.Module

/-!
Checks that machine code relies on: every register read is defined on all paths that lead to the
read, and operands and results have the declared types. Definedness is a forward analysis: what is
surely defined on entry to a block is what is defined at the end of all its reachable predecessors;
it starts from everything and shrinks to a fixed point. Unreachable blocks are not checked.
-/
namespace TieredEngine.Ir
open TieredEngine

inductive TypingCause where
  | undeclaredRead (what : String) (r : Reg)
  | undefinedRead (what : String) (r : Reg)
  | undeclaredWrite (what : String) (r : Reg)
  | wrongWrite (what : String) (got : Ty) (r : Reg) (declared : Ty)
  | phiInEntry
  | phiWithoutInput (dest : Reg) (pred : BlockId)
  | phiUndeclared (dest r : Reg)
  | phiUndefined (dest r : Reg) (pred : BlockId)
  | phiType (dest : Reg) (ty got : Ty) (pred : BlockId)
  | operandCount (what : String) (want got : Nat)
  | binaryTypes (what : String) (ty left right : Ty)
  | unaryTypes (what : String) (ty operand : Ty)
  | compareTypes (what : String) (left right : Ty)
  | badCast (source target : Ty)
  | selectTypes (cond yes no : Ty)
  | branchOn (what : String) (ty : Ty)
  | returnMissing (want : Ty)
  | returnType (got want : Ty)
  deriving DecidableEq, Repr

def TypingCause.message : TypingCause → String
  | .undeclaredRead w r => s!"{w} reads register {r.text} with no declared type"
  | .undefinedRead w r => s!"{w} reads register {r.text} before it is defined on every path"
  | .undeclaredWrite w r => s!"{w} writes register {r.text} with no declared type"
  | .wrongWrite w t r d => s!"{w} writes {t.name} to register {r.text} of type {d.name}"
  | .phiInEntry => "phi in entry block"
  | .phiWithoutInput d p => s!"phi {d.text} has no incoming value for {p.text}"
  | .phiUndeclared d r => s!"phi {d.text} reads register {r.text} with no declared type"
  | .phiUndefined d r p =>
    s!"phi {d.text} reads register {r.text} not defined at the end of {p.text}"
  | .phiType d t got p => s!"phi {d.text} of type {t.name} takes {got.name} from {p.text}"
  | .operandCount w want got => s!"{w} takes {want} operands, got {got}"
  | .binaryTypes w t a b => s!"{w} {t.name} applied to {a.name} and {b.name}"
  | .unaryTypes w t a => s!"{w} {t.name} applied to {a.name}"
  | .compareTypes w a b => s!"{w} compares {a.name} with {b.name}"
  | .badCast a b => s!"cannot cast {a.name} to {b.name}"
  | .selectTypes c a b => s!"select {c.name} ? {a.name} : {b.name}"
  | .branchOn w t => s!"{w} on {t.name}"
  | .returnMissing t => s!"ret without value in function returning {t.name}"
  | .returnType got want => s!"returns {got.name}, signature says {want.name}"

inductive TypingError where
  | parameter (function : String) (index : Nat) (r : Reg) (declared want : Ty)
  | inBlock (function : String) (block : BlockId) (cause : TypingCause)
  deriving DecidableEq, Repr

def TypingError.message : TypingError → String
  | .parameter f i r got want =>
    s!"function {f}: parameter {i} register {r.text} is {got.name}, signature says {want.name}"
  | .inBlock f b c => s!"function {f}: {b.text}: {c.message}"

/-- A set of registers, by number. -/
abbrev RegSet := Array Bool

namespace RegSet

def has (s : RegSet) (r : Reg) : Bool := s[r.num]?.getD false

/-- Adds a register; one beyond the declared ones is left out. -/
def insert (s : RegSet) (r : Reg) : RegSet := s.setIfInBounds r.num true

def inter (s t : RegSet) : RegSet := s.zipWith (· && ·) t

end RegSet

/-- Registers a block defines. -/
def Block.defs (b : Block) : List Reg :=
  b.phis.map (·.dest) ++ (b.insts.filter Inst.hasDest).map (·.dest)

/-- Surely defined registers on entry to and at the end of each reachable block, by position. -/
structure Definedness where
  entry : Array (Option RegSet)
  exit : Array (Option RegSet)

namespace Definedness

def before? (d : Definedness) (b : BlockId) : Option RegSet := (d.entry[b.num]?).join
def exit? (d : Definedness) (b : BlockId) : Option RegSet := (d.exit[b.num]?).join

end Definedness

namespace Function

def paramSet (f : Function) : RegSet :=
  f.params.foldl RegSet.insert (Array.replicate f.regTypes.size false)

/-- Starting point: everything is defined at the end of each reachable block. -/
def definednessStart (f : Function) (order : List BlockId) : Definedness :=
  let none' : Array (Option RegSet) := Array.replicate f.blocks.size none
  let full : RegSet := Array.replicate f.regTypes.size true
  { entry := none'.setIfInBounds f.entry.num (some f.paramSet)
    exit := order.foldl (fun a id => a.setIfInBounds id.num (some full)) none' }

/-- What is defined on entry to a block, given what is defined at the ends of its predecessors. -/
def entrySet (f : Function) (edges : List (BlockId × BlockId)) (d : Definedness) (id : BlockId) :
    RegSet :=
  if id = f.entry then f.paramSet
  else
    match (predecessorsIn edges id).filterMap d.exit? with
    | [] => Array.replicate f.regTypes.size false
    | s :: rest => rest.foldl RegSet.inter s

/-- One step of the analysis at a block; says whether its exit set changed. -/
def flowStep (f : Function) (edges : List (BlockId × BlockId)) (acc : Definedness × Bool)
    (id : BlockId) : Definedness × Bool :=
  let (d, changed) := acc
  match f.block? id with
  | none => acc
  | some b =>
    let cur := f.entrySet edges d id
    let next := b.defs.foldl RegSet.insert cur
    let entry := d.entry.setIfInBounds id.num (some cur)
    if d.exit? id = some next then ({ d with entry }, changed)
    else ({ entry, exit := d.exit.setIfInBounds id.num (some next) }, true)

/-- Repeats the pass over all blocks until nothing changes. Every pass that changes something takes
a register out of an exit set, so the number of registers times blocks bounds the passes. -/
def flow (f : Function) (edges : List (BlockId × BlockId)) (order : List BlockId) :
    Nat → Definedness → Definedness
  | 0, d => d
  | fuel + 1, d =>
    let (d, changed) := order.foldl (f.flowStep edges) (d, false)
    if changed then f.flow edges order fuel d else d

def definedness (f : Function) (edges : List (BlockId × BlockId)) (order : List BlockId) :
    Definedness :=
  f.flow edges order (order.length * f.regTypes.size + 2) (f.definednessStart order)

end Function

namespace Typing

/-- State of the check of one block: what is defined so far, and the errors, the last one first. -/
structure State where
  defined : RegSet
  causes : List TypingCause := []

abbrev Check := StateT State (Except Crash)

def report (c : TypingCause) : Check Unit := modify fun s => { s with causes := c :: s.causes }

/-- Looks a register up in the set of defined ones, which is trusted to be large enough. -/
def isDefined (r : Reg) : Check Bool := do
  match (← get).defined[r.num]? with
  | some b => return b
  | none => throw .outOfRange

/-- Type of a register that is read, and whether the read is fine. -/
def use (f : Function) (r : Reg) (what : String) : Check (Ty × Bool) := do
  match f.regType? r with
  | none =>
    report (.undeclaredRead what r)
    return (.void, false)
  | some t =>
    if ← isDefined r then return (t, true)
    report (.undefinedRead what r)
    return (t, false)

/-- A write of a type to a register. -/
def write (f : Function) (r : Reg) (t : Ty) (what : String) : Check Unit :=
  match f.regType? r with
  | none => report (.undeclaredWrite what r)
  | some want => if want ≠ t then report (.wrongWrite what t r want) else pure ()

def markDefined (r : Reg) : Check Unit := modify fun s => { s with defined := s.defined.insert r }

/-- Number of operands an operation takes; calls take any number. -/
def arity? (op : Op) : Option Nat :=
  match op with
  | .copy | .cast | .storeGlobal => some 1
  | .select => some 3
  | .const | .undef | .loadGlobal | .panic => some 0
  | .call => none
  | _ => if op.isUnary then some 1 else some 2

/-- A reachable predecessor has an input. -/
def checkEdge (d : Definedness) (p : Phi) (pred : BlockId) : Check Unit :=
  if (d.exit? pred).isSome && (p.valueFor? pred).isNone then
    report (.phiWithoutInput p.dest pred)
  else pure ()

/-- An input from a reachable predecessor is defined at its end and has the phi's type. The set of
what is defined there is trusted to be large enough. -/
def checkInput (f : Function) (d : Definedness) (p : Phi) (i : Incoming) : Check Unit :=
  match d.exit? i.pred with
  | none => pure ()
  | some out =>
    match f.regType? i.value with
    | none => report (.phiUndeclared p.dest i.value)
    | some t =>
      match out[i.value.num]? with
      | none => throw .outOfRange
      | some false => report (.phiUndefined p.dest i.value i.pred)
      | some true => if t ≠ p.ty then report (.phiType p.dest p.ty t i.pred) else pure ()

def checkPhi (f : Function) (edges : List (BlockId × BlockId)) (d : Definedness) (b : Block)
    (p : Phi) : Check Unit := do
  write f p.dest p.ty "phi"
  (Function.predecessorsIn edges b.id).forM (checkEdge d p)
  p.incoming.forM (checkInput f d p)

/-- Types against the operation, the operands being defined. As many as it takes are trusted to be
there. -/
def checkTypes (f : Function) (i : Inst) (types : List Ty) : Check Unit := do
  let what := i.op.name
  match i.op, types with
  | .const, _ => write f i.dest i.const.ty what
  | .undef, _ => write f i.dest i.ty what
  | .loadGlobal, _ => write f i.dest i.ty what
  | .copy, a :: _ => write f i.dest a what
  | .cast, a :: _ =>
    if a = .void ∨ i.ty = .void then report (.badCast a i.ty)
    write f i.dest i.ty what
  | .select, c :: a :: b :: _ =>
    if c ≠ .bool ∨ a ≠ b then report (.selectTypes c a b)
    write f i.dest a what
  | .call, _ =>
    if i.dest ≠ .absent ∧ (f.regType? i.dest).isNone then report (.undeclaredWrite what i.dest)
  | .storeGlobal, _ | .panic, _ => pure ()
  | .select, _ => throw .outOfRange
  | op, a :: rest =>
    if op.isUnary then
      if a ≠ i.ty then report (.unaryTypes what i.ty a)
      write f i.dest i.ty what
    else
      match rest with
      | [] => throw .outOfRange
      | b :: _ =>
        if op.isBinary then
          if a ≠ i.ty ∨ b ≠ i.ty then report (.binaryTypes what i.ty a b)
          write f i.dest i.ty what
        else
          if a ≠ b then report (.compareTypes what a b)
          write f i.dest .bool what
  | _, [] => throw .outOfRange

/-- An instruction that reads something undefined, or has the wrong number of operands, defines
nothing. -/
def checkInst (f : Function) (i : Inst) : Check Unit := do
  let what := i.op.name
  match arity? i.op with
  | some n =>
    if i.args.length ≠ n then
      report (.operandCount what n i.args.length)
      return
  | none => pure ()
  let uses ← i.args.mapM fun r => use f r what
  if uses.all (·.2) then
    checkTypes f i (uses.map (·.1))
    if i.hasDest then markDefined i.dest

def checkTerm (f : Function) (t : Term) : Check Unit := do
  match t with
  | .condBr c _ _ | .switch c _ _ =>
    let (ct, ok) ← use f c t.kindName
    if ok && !ct.isIntLike then report (.branchOn t.kindName ct)
  | .ret none => if f.sig.ret ≠ .void then report (.returnMissing f.sig.ret)
  | .ret (some v) =>
    let (rt, ok) ← use f v "ret"
    if ok && rt ≠ f.sig.ret then report (.returnType rt f.sig.ret)
  | _ => pure ()

def checkBlock (f : Function) (edges : List (BlockId × BlockId)) (d : Definedness) (b : Block) :
    Check Unit := do
  if !b.phis.isEmpty && b.id == f.entry then report .phiInEntry
  b.phis.forM (checkPhi f edges d b)
  b.phis.forM (markDefined ·.dest)
  b.insts.forM (checkInst f)
  checkTerm f b.term

end Typing

/-- Parameters whose register has another type than the signature says. -/
def Function.paramErrors (f : Function) : List TypingError :=
  ((f.params.zip f.sig.params).mapIdx fun i (r, want) =>
    match f.regType? r with
    | some t => if t ≠ want then [TypingError.parameter f.name i r t want] else []
    | none => []).flatten

/-- All typing errors of a function, in the order of the reachable blocks. -/
def Function.typingErrors (f : Function) : Except Crash (List TypingError) := do
  if f.isExternal then return []
  let edges ← f.edges
  let order ← f.reversePostorder
  let d := f.definedness edges order
  let inBlocks ← order.mapM fun id => do
    let b ← Crash.deref (f.block? id)
    let start : Typing.State := { defined := (d.before? b.id).getD #[] }
    let (_, s) ← (Typing.checkBlock f edges d b).run start
    return s.causes.reverse.map (.inBlock f.name b.id)
  return f.paramErrors ++ inBlocks.flatten

end TieredEngine.Ir
