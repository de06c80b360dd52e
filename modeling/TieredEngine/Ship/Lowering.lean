import TieredEngine.Ir.Module
import TieredEngine.Llvm.Syntax

/-!
Lowering a module to LLVM. Booleans become `i1`, integers and addresses integers of their width,
floating point `float` and `double`. The lowered program computes what evaluation computes: shift
counts are taken modulo the width, a division by zero ends in the runtime's panic, the least
integer divided by minus one wraps, and floating point goes to integers saturating.

Registers are replaced by the values they hold; only reachable blocks are lowered, and a value from
elsewhere is undefined. The first block of an LLVM function has no predecessors, so a function whose
entry is jumped to gets an extra block in front.
-/
namespace TieredEngine.Ship
open TieredEngine

/-- The runtime's function that reports a panic and ends the program. -/
def panicSymbol : String := "mirrt_panic"

/-- Name of an entry function that would otherwise be called `main` beside the wrapper. -/
def renamedMain : String := "_mir_main"

/-- Why a module has no lowering. -/
inductive LowerCause where
  | noType (t : Ir.Ty)
  | noConstant (t : Ir.Ty)
  | unknownCallee (f : Ir.FuncId)
  | loadUnknown (g : Ir.GlobalId)
  | storeUnknown (g : Ir.GlobalId)
  | badCast (source target : Ir.Ty)
  | switchOn (t : Ir.Ty)
  deriving DecidableEq, Repr

def LowerCause.message : LowerCause → String
  | .noType t => s!"type {t.name} has no LLVM representation"
  | .noConstant t => s!"constant of type {t.name} has no LLVM representation"
  | .unknownCallee f => s!"call to unknown function {f.num}"
  | .loadUnknown g => s!"load of unknown global {g.num}"
  | .storeUnknown g => s!"store to unknown global {g.num}"
  | .badCast a b => s!"cannot cast {a.name} to {b.name}"
  | .switchOn t => s!"switch on {t.name}"

inductive LowerError where
  | global (name : String) (c : LowerCause)
  | function (name : String) (c : LowerCause)
  | parameter (name : String) (position : Nat) (c : LowerCause)
  | inBlock (name : String) (b : Ir.BlockId) (c : LowerCause)
  | mainTaken
  deriving DecidableEq, Repr

def LowerError.message : LowerError → String
  | .global n c => s!"global {n}: {c.message}"
  | .function n c => s!"function {n}: {c.message}"
  | .parameter n i c => s!"function {n} parameter {i}: {c.message}"
  | .inBlock n b c => s!"function {n}: {b.text}: {c.message}"
  | .mainTaken => "cannot emit main wrapper: symbol main is already defined"

namespace Lowering
open TieredEngine.Llvm (Const Val BinOp IntPred FloatPred CastOp BlockName Operation)

/-- Type of a value; nothing has no type. -/
def valueType? : Ir.Ty → Option Llvm.Ty
  | .void => none
  | .f32 => some .float
  | .f64 => some .double
  | t => some (.int t.width)

def returnType (t : Ir.Ty) : Llvm.Ty := (valueType? t).getD .void

/-- Width of the integer type that stands for a type; types that are no integers use theirs too. -/
def intWidth (t : Ir.Ty) : Nat := if t = .void then 64 else t.width

/-- An integer constant with the bits of a word, read as a signed number of the type's width. -/
def intConst (t : Ir.Ty) (bits : UInt64) : Const :=
  match t with
  | .bool => .int 1 (if bits &&& 1 = 0 then 0 else 1)
  | .void => .int 64 0
  | t => .int t.width (Int.bmod bits.toNat (Nat.pow 2 t.width))

def constFor? (v : Ir.Value) : Option Const :=
  match v.ty with
  | .void => none
  | .f32 => some (.float .float v.widened)
  | .f64 => some (.float .double v.datum)
  | t => some (intConst t v.bits)

/-- Part of a conversion's name that says a type. -/
def typeSuffix : Ir.Ty → String
  | .f32 => "f32"
  | .f64 => "f64"
  | t => s!"i{t.width}"

/-- The module lowered so far, and the body that is being lowered. -/
structure State where
  globals : Array Llvm.Global := #[]
  functions : Array Llvm.Func := #[]
  /-- Functions by name, the last one first. -/
  declared : List (String × Nat) := []
  /-- Texts with their globals, the last one first. -/
  texts : List (String × Nat) := []
  nextId : Nat := 0
  /-- Blocks of the body, and the position of the one that is written to. -/
  blocks : Array Llvm.Block := #[]
  current : Nat := 0
  /-- Values of registers. -/
  values : Array (Option Val) := #[]
  /-- Number of extra blocks. -/
  aux : Nat := 0

abbrev Lower := StateT State (Except (Fault LowerCause))

def fail {α : Type} (c : LowerCause) : Lower α := throw (.error c)
def crash {α : Type} (c : Crash) : Lower α := throw (.crash c)

def orFail {α : Type} (c : LowerCause) : Option α → Lower α
  | some a => pure a
  | none => fail c

/-- Adds an instruction to a block of the body and gives its result. -/
def emitTo (block : Nat) (op : Operation) : Lower Val := do
  let s ← get
  let inst : Llvm.Inst := ⟨s.nextId, op⟩
  set { s with
    nextId := s.nextId + 1
    blocks := s.blocks.modify block fun b => { b with insts := b.insts ++ [inst] } }
  return .result inst.id op.ty

def emit (op : Operation) : Lower Val := do emitTo (← get).current op

def terminate (block : Nat) (t : Llvm.Term) : Lower Unit :=
  modify fun s => { s with blocks := s.blocks.modify block fun b => { b with term := some t } }

def newBlock (name : BlockName) : Lower Nat := do
  let s ← get
  set { s with blocks := s.blocks.push { name } }
  return s.blocks.size

/-- An extra block, named for what it is for. -/
def newAux (kind : String) : Lower (Nat × BlockName) := do
  modify fun s => { s with aux := s.aux + 1 }
  let name := BlockName.aux kind (← get).aux
  return (← newBlock name, name)

def define (r : Ir.Reg) (v : Val) : Lower Unit :=
  if r = .absent then pure ()
  else modify fun s => { s with values := s.values.setIfInBounds r.num (some v) }

/-- Value of a register; one that was not lowered is undefined. -/
def use (r : Ir.Reg) (t : Ir.Ty) : Lower Val := do
  match ((← get).values[r.num]?).join with
  | some v => return v
  | none => return .const (.undef ((valueType? t).getD (.int 64)))

def regType (f : Ir.Function) (r : Ir.Reg) : Ir.Ty := (f.regType? r).getD .void

def argReg (i : Ir.Inst) (n : Nat) : Lower Ir.Reg :=
  match i.args[n]? with
  | some r => pure r
  | none => crash .outOfRange

def arg (f : Ir.Function) (i : Ir.Inst) (n : Nat) : Lower Val := do
  let r ← argReg i n
  use r (regType f r)

/-- The function with a name, declared if there is none. -/
def declare (name : String) (ret param : Llvm.Ty) : Lower Nat := do
  let s ← get
  match s.declared.find? (·.1 == name) with
  | some (_, i) => return i
  | none =>
    let i := s.functions.size
    set { s with
      functions := s.functions.push { name, ret, params := [param], namedParams := false }
      declared := (name, i) :: s.declared }
    return i

/-- Address of a text closed by a zero byte; equal texts share one global. -/
def textAddress (text : String) : Lower Const := do
  let bytes := text.toUTF8.toList ++ [0]
  let s ← get
  match s.texts.find? (·.1 == text) with
  | some (_, g) => return .textAddress g bytes.length
  | none =>
    let g := s.globals.size
    set { s with
      globals := s.globals.push ⟨s!".str.{s.texts.length}", .text bytes⟩
      texts := (text, g) :: s.texts }
    return .textAddress g bytes.length

def emitCall (block callee : Nat) (args : List Val) : Lower Val := do
  match (← get).functions[callee]? with
  | some f => emitTo block (.call callee f.ret args)
  | none => crash .outOfRange

/-- Ends a block with the runtime's panic. -/
def trap (block : Nat) (message : String) : Lower Unit := do
  let callee ← declare panicSymbol .void .text
  let text ← textAddress message
  let _ ← emitCall block callee [.const text]
  terminate block .unreachable

/-- Integer comparisons take integers. -/
def icmp (p : IntPred) (x y : Val) : Lower Val :=
  if x.ty.isInt then emit (.icmp p x y) else crash .illTyped

def fcmp (p : FloatPred) (x y : Val) : Lower Val :=
  if x.ty.isFloat then emit (.fcmp p x y) else crash .illTyped

/-- Changes of width go the way they say. -/
def resize (op : CastOp) (x : Val) (width : Nat) : Lower Val :=
  match x.ty with
  | .int w =>
    if (if op = .trunc then width ≤ w else w ≤ width) then emit (.cast op x (.int width))
    else crash .illTyped
  | _ => crash .illTyped

/-- Narrow unsigned types compare as unsigned; words of full width compare as signed, whatever
their type. -/
def intPred (op : Ir.Op) (t : Ir.Ty) : IntPred :=
  let signed := t.isSigned || t.width == 64
  match op with
  | .eq => .eq
  | .ne => .ne
  | .ult => .ult
  | .ule => .ule
  | .ugt => .ugt
  | .uge => .uge
  | .lt => if signed then .slt else .ult
  | .le => if signed then .sle else .ule
  | .gt => if signed then .sgt else .ugt
  | _ => if signed then .sge else .uge

def floatPred : Ir.Op → FloatPred
  | .feq => .oeq
  | .fne => .une
  | .flt => .olt
  | .fle => .ole
  | .fgt => .ogt
  | .fge => .oge
  | .ford => .ord
  | _ => .uno

/-- The constants zero, one and minus one of a type. -/
def zeroOf (t : Ir.Ty) : Val := .const (intConst t 0)
def oneOf (t : Ir.Ty) : Val := .const (intConst t 1)
def onesOf (t : Ir.Ty) : Val := .const (intConst t 0xFFFFFFFFFFFFFFFF)

/-- Quotient or remainder. A zero divisor panics; for signed types a divisor of minus one is
replaced, because the least integer has no quotient by it. -/
def divide (op : Ir.Op) (t : Ir.Ty) (x y : Val) : Lower Val := do
  let isZero ← icmp .eq y (zeroOf t)
  let here := (← get).current
  let (trapBlock, trapName) ← newAux "divzero"
  let (restBlock, restName) ← newAux "div"
  terminate here (.condBr isZero trapName restName)
  trap trapBlock s!"{op.name} {t.name} by zero"
  modify fun s => { s with current := restBlock }
  let isDiv := op == .div
  if !t.isSigned then
    return ← emit (.binary (if isDiv then .udiv else .urem) x y)
  let isMinusOne ← icmp .eq y (onesOf t)
  let safe ← emit (.select isMinusOne (oneOf t) y)
  if isDiv then
    let q ← emit (.binary .sdiv x safe)
    let negated ← emit (.binary .sub (zeroOf t) x)
    emit (.select isMinusOne negated q)
  else
    let r ← emit (.binary .srem x safe)
    emit (.select isMinusOne (zeroOf t) r)

def binary (f : Ir.Function) (i : Ir.Inst) : Lower Val := do
  let t := i.ty
  let x ← arg f i 0
  let y ← arg f i 1
  let plain (op : BinOp) : Lower Val := emit (.binary op x y)
  let counted (op : BinOp) : Lower Val := do
    let count ← emit (.binary .and y (.const (intConst t (UInt64.ofNat t.width - 1))))
    emit (.binary op x count)
  match i.op with
  | .add => plain .add
  | .sub => plain .sub
  | .mul => plain .mul
  | .and => plain .and
  | .or => plain .or
  | .xor => plain .xor
  | .shl => counted .shl
  | .shr => counted (if t.isSigned then .ashr else .lshr)
  | .fadd => plain .fadd
  | .fsub => plain .fsub
  | .fmul => plain .fmul
  | .fdiv => plain .fdiv
  | .frem => plain .frem
  | op => divide op t x y

def cast (f : Ir.Function) (i : Ir.Inst) : Lower Val := do
  let operandType := regType f (← argReg i 0)
  let source := if i.source = .void then operandType else i.source
  let target := i.ty
  let x ← arg f i 0
  if target = .void || source = .void then fail (.badCast source target)
  else if target = .bool then
    if source = .bool then return x
    else if source.isFloat then
      let zero := Const.float ((valueType? source).getD .double) (.finite false 0 0)
      fcmp .une x (.const zero)
    else icmp .ne x (zeroOf source)
  else if source.isFloat then
    let sourceType := (valueType? source).getD .double
    let targetType := (valueType? target).getD .double
    if target.isFloat then
      if source.width < target.width then emit (.cast .fpext x targetType)
      else if target.width < source.width then emit (.cast .fptrunc x targetType)
      else return x
    else
      let kind := if target.isSigned then "fptosi" else "fptoui"
      let name := s!"llvm.{kind}.sat.{typeSuffix target}.{typeSuffix source}"
      let callee ← declare name (.int (intWidth target)) sourceType
      emitCall (← get).current callee [x]
  else if target.isFloat then
    emit (.cast (if source.isSigned then .sitofp else .uitofp) x
      ((valueType? target).getD .double))
  else if target.width < source.width then resize .trunc x target.width
  else if source.width < target.width then
    resize (if source.isSigned then .sext else .zext) x target.width
  else return x

def unary (f : Ir.Function) (i : Ir.Inst) : Lower Val := do
  let x ← arg f i 0
  match i.op with
  | .neg => emit (.binary .sub (zeroOf i.ty) x)
  | .not => emit (.binary .xor x (onesOf i.ty))
  | _ => emit (.fneg x)

def compare (f : Ir.Function) (i : Ir.Inst) : Lower Val := do
  let t := regType f (← argReg i 0)
  let x ← arg f i 0
  let y ← arg f i 1
  if i.op.isFloat then fcmp (floatPred i.op) x y else icmp (intPred i.op t) x y

/-- Lowers an instruction; `functions` and `globals` are how many of them the module has. -/
def inst (functions globals : Nat) (f : Ir.Function) (i : Ir.Inst) : Lower Unit := do
  match i.op with
  | .const => define i.dest (.const (← orFail (.noConstant i.const.ty) (constFor? i.const)))
  | .copy => define i.dest (← arg f i 0)
  | .cast => define i.dest (← cast f i)
  | .select =>
    let c ← arg f i 0
    let x ← arg f i 1
    let y ← arg f i 2
    define i.dest (← emit (.select c x y))
  | .call =>
    if functions ≤ i.callee.num then fail (.unknownCallee i.callee)
    let args ← i.args.mapM fun r => use r (regType f r)
    define i.dest (← emitCall (← get).current i.callee.num args)
  | .loadGlobal =>
    if globals ≤ i.global.num then fail (.loadUnknown i.global)
    let t ← orFail (.noType i.ty) (valueType? i.ty)
    define i.dest (← emit (.load t i.global.num))
  | .storeGlobal =>
    if globals ≤ i.global.num then fail (.storeUnknown i.global)
    let x ← arg f i 0
    match (← get).globals[i.global.num]? with
    | some g => if g.init.ty = x.ty then let _ ← emit (.store x i.global.num) else crash .illTyped
    | none => crash .outOfRange
  | .undef => define i.dest (.const (.undef (← orFail (.noType i.ty) (valueType? i.ty))))
  | .panic =>
    trap (← get).current i.message
    let (dead, _) ← newAux "dead"
    modify fun s => { s with current := dead }
  | op =>
    if op.isBinary then define i.dest (← binary f i)
    else if op.isUnary then define i.dest (← unary f i)
    else define i.dest (← compare f i)

/-- Cases that differ on the type of the condition; the first one of equal ones counts. -/
def distinctCases (t : Ir.Ty) : List Ir.SwitchCase → List UInt64 → List Ir.SwitchCase
  | [], _ => []
  | c :: rest, seen =>
    let bits := (Ir.Value.ofInt t c.value.toInt).bits
    if seen.contains bits then distinctCases t rest seen
    else c :: distinctCases t rest (bits :: seen)

/-- Lowered name of a block that is jumped to. -/
def target (f : Ir.Function) (b : Ir.BlockId) : Lower BlockName :=
  if b.num < f.blocks.size then pure (.block b.num) else crash .outOfRange

def term (f : Ir.Function) (t : Ir.Term) : Lower Unit := do
  let finish (t : Llvm.Term) : Lower Unit := do terminate (← get).current t
  match t with
  | .br succ => finish (.br (← target f succ))
  | .condBr c yes no =>
    let t := regType f c
    let cond ← use c t
    let cond ← if t = .bool then pure cond else icmp .ne cond (zeroOf t)
    let yes ← target f yes
    finish (.condBr cond yes (← target f no))
  | .switch c cases default =>
    let t := regType f c
    if !t.isIntLike then fail (.switchOn t)
    let cases ← (distinctCases t cases []).mapM fun k => do
      return (intConst t (Ir.Value.ofInt t k.value.toInt).bits, ← target f k.target)
    let cond ← use c t
    finish (.switch cond (← target f default) cases)
  | .ret (some r) =>
    if f.sig.ret = .void then finish (.ret none)
    else finish (.ret (some (← use r f.sig.ret)))
  | .ret none => finish (.ret none)
  | .missing | .unreachable => finish .unreachable

/-- Edges from a lowered terminator to a block: an LLVM phi has an input for each. -/
def edgeCount (f : Ir.Function) (t : Ir.Term) (succ : Ir.BlockId) : Nat :=
  let successors : List Ir.BlockId := match t with
    | .switch c cases d =>
      (distinctCases (regType f c) cases []).map (fun (k : Ir.SwitchCase) => k.target) ++ [d]
    | t => t.successors
  successors.count succ

/-- A block of the source that is lowered, and the position of the lowered one. -/
structure Placement where
  id : Ir.BlockId
  block : Ir.Block
  lowered : Nat

/-- A phi that waits for its inputs: the block it stands in, its position there and itself. -/
structure WaitingPhi where
  block : Ir.BlockId
  lowered : Nat
  position : Nat
  phi : Ir.Phi
  ty : Llvm.Ty

/-- Puts a phi into its block, without inputs. -/
def putPhi (id : Ir.BlockId) (lowered : Nat) (p : Ir.Phi) (position : Nat) : Lower WaitingPhi := do
  let ty ← orFail (.noType p.ty) (valueType? p.ty)
  define p.dest (← emitTo lowered (.phi ty []))
  return ⟨id, lowered, position, p, ty⟩

def putPhis (p : Placement) : Lower (List WaitingPhi) :=
  p.block.phis.zipIdx.mapM fun (phi, position) => putPhi p.id p.lowered phi position

/-- Lowers the instructions and the terminator of a block; gives its number and the name of the block
it is left in. -/
def fillBlock (functions globals : Nat) (f : Ir.Function) (p : Placement) :
    Lower (Nat × BlockName) := do
  modify fun s => { s with current := p.lowered }
  p.block.insts.forM (inst functions globals f)
  term f p.block.term
  let s ← get
  return (p.id.num, ((s.blocks[s.current]?).map (·.name)).getD .start)

/-- Inputs of a phi. A block that was not lowered gives none. -/
def phiInputs (f : Ir.Function) (hasStart : Bool) (exits : List (Nat × BlockName))
    (w : WaitingPhi) : Lower (List (Val × BlockName)) := do
  let first := if w.block == f.entry && hasStart then [(Val.const (.undef w.ty), BlockName.start)]
    else []
  let rest ← w.phi.incoming.mapM fun i => do
    match exits.find? (·.1 == i.pred.num), f.block? i.pred with
    | some (_, exit), some b =>
      let v ← use i.value w.phi.ty
      return List.replicate (edgeCount f b.term w.block) (v, exit)
    | _, _ => return []
  return first ++ rest.flatten

def setPhi (w : WaitingPhi) (inputs : List (Val × BlockName)) : Lower Unit :=
  modify fun s => { s with
    blocks := s.blocks.modify w.lowered fun b => { b with
      insts := b.insts.modify w.position fun i => { i with op := .phi w.ty inputs } } }

def completePhi (f : Ir.Function) (hasStart : Bool) (exits : List (Nat × BlockName))
    (w : WaitingPhi) : Lower Unit := do
  setPhi w (← phiInputs f hasStart exits w)

/-- An error in a block is reported with it. -/
def LowerError.ofFault (name : String) (b : Option Ir.BlockId) : Fault LowerCause → Fault LowerError
  | .crash c => .crash c
  | .error c => .error (match b with
    | some b => .inBlock name b c
    | none => .function name c)

/-- Lowering with errors placed in a function. -/
abbrev Placed := StateT State (Except (Fault LowerError))

def placed {α : Type} (name : String) (b : Option Ir.BlockId) (x : Lower α) : Placed α :=
  fun s => (x s).mapError (LowerError.ofFault name b)

def liftCrash {α : Type} (x : Except Crash α) : Placed α := fun s =>
  match x with
  | .ok a => .ok (a, s)
  | .error c => .error (.crash c)

/-- Puts the parameters into their registers. -/
def bindParams (f : Ir.Function) : Lower Unit := do
  for (r, i) in f.params.zipIdx do
    if r.num < f.regTypes.size then
      match f.sig.params[i]? with
      | some t => define r (.param i ((valueType? t).getD .void))
      | none => crash .outOfRange

/-- Makes the block in front of one whose entry is jumped to. -/
def startBlock (f : Ir.Function) : Lower Unit := do
  let start ← newBlock .start
  terminate start (.br (← target f f.entry))

def makeBlock (f : Ir.Function) (id : Ir.BlockId) : Placed Placement := do
  let b ← liftCrash (Crash.deref (f.block? id))
  return ⟨id, b, ← placed f.name none (newBlock (.block id.num))⟩

/-- Lowers the blocks of a body, in an order in which operands come before their uses. -/
def fillBody (functions globals : Nat) (f : Ir.Function) (order : List Ir.BlockId) (hasStart : Bool) :
    Placed Unit := do
  if hasStart then placed f.name none (startBlock f)
  let placements ← order.mapM (makeBlock f)
  let waiting ← placements.mapM fun p => placed f.name none (putPhis p)
  let exits ← placements.mapM fun p => placed f.name (some p.id) (fillBlock functions globals f p)
  waiting.flatten.forM fun w => placed f.name none (completePhi f hasStart exits w)

/-- Lowers the body of a function and adds its blocks to the function with its number. -/
def body (functions globals : Nat) (f : Ir.Function) : Placed Unit := do
  if functions ≤ f.id.num then throw (.crash .outOfRange)
  modify fun s => { s with
    blocks := #[], current := 0, aux := 0, values := Array.replicate f.regTypes.size none }
  placed f.name none (bindParams f)
  let order ← liftCrash f.reversePostorder
  let edges ← liftCrash f.edges
  fillBody functions globals f order (edges.any (·.2 == f.entry))
  modify fun s => { s with
    functions := s.functions.modify f.id.num fun g =>
      { g with blocks := g.blocks ++ s.blocks.toList } }

def globalOf (g : Ir.Global) : Except LowerError Llvm.Global :=
  let init := if g.init.ty = g.ty then g.init else Ir.Value.zero g.ty
  match constFor? init with
  | some c => .ok ⟨g.name, .const c⟩
  | none => .error (.global g.name (.noConstant init.ty))

def signatureOf (name : String) (f : Ir.Function) : Except LowerError Llvm.Func := do
  let params ← f.sig.params.zipIdx.mapM fun (t, i) =>
    match valueType? t with
    | some t => .ok t
    | none => .error (.parameter f.name i (.noType t))
  return { name, ret := returnType f.sig.ret, params }

/-- The wrapper: calls the entry with zeros and returns zero. -/
def mainWrapper (entry : Ir.Function) : Placed Unit := do
  let args := entry.sig.params.map fun t =>
    Val.const ((constFor? (Ir.Value.zero t)).getD (.undef .void))
  let s ← get
  match s.functions[entry.id.num]? with
  | none => throw (.crash .outOfRange)
  | some callee =>
    let call : Llvm.Inst := ⟨s.nextId, .call entry.id.num callee.ret args⟩
    let block : Llvm.Block :=
      { name := .entry, insts := [call], term := some (.ret (some (.const (.int 32 0)))) }
    set { s with
      functions := s.functions.push { name := "main", ret := .int 32, blocks := [block] } }

end Lowering

/-- How a module is lowered. -/
structure LowerOptions where
  triple : String := ""
  /-- The entry function, if a wrapper for it is wanted. -/
  wrapped : Option Ir.Function := none

open Lowering in
/-- Lowers a module. -/
def lower (m : Ir.Module) (o : LowerOptions) : Except (Fault LowerError) Llvm.Module := do
  let globals ← m.globals.toList.mapM fun g? => do
    let g ← Crash.lift (Crash.deref g?)
    (globalOf g).mapError .error
  let functions ← m.functions.toList.mapM fun f => do
    let isWrapped := o.wrapped.any fun e => e.id == f.id && f.name == "main"
    (signatureOf (if isWrapped then renamedMain else f.name) f).mapError .error
  let start : State := {
    globals := globals.toArray, functions := functions.toArray
    declared := (functions.zipIdx.map fun (f, i) => (f.name, i)).reverse }
  let lowered : Placed Unit := do
    for f in m.functions do
      if !f.isExternal then body m.functions.size m.globals.size f
    match o.wrapped with
    | none => pure ()
    | some entry =>
      if (← get).declared.any (·.1 == "main") then throw (.error .mainTaken)
      mainWrapper entry
  let ((), s) ← lowered start
  return { name := m.name, triple := o.triple, globals := s.globals, functions := s.functions }

end TieredEngine.Ship
