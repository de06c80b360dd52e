import TieredEngine.Ir.Module
import TieredEngine.Ir.Typing
import TieredEngine.Native.Convention
import TieredEngine.Native.X64.Assembly

/-!
The baseline generator. Every register of a function has an eight-byte slot in the stack frame, and
every instruction loads its operands from their slots, computes, brings the result to the normal
form of its type and stores it. Phis are copied on the edges of the graph: all inputs are read into
spare slots before any destination is written.

Only integer words are supported, and the code trusts that registers are defined and typed, so a
function is checked before code is made for it.
-/
namespace TieredEngine.Native.X64.Baseline
open TieredEngine TieredEngine.Ir

def backendName : String := "x64-baseline"

/-- Largest stack frame; with the return address and the saved `rbp` it stays below the room that
callers leave. -/
def maxFrame : Nat := 16000

/-- Why a function is not compiled. -/
inductive Refusal where
  | declaration
  | parameterCount (n : Nat)
  | frame (bytes : Nat)
  | returnType (t : Ty)
  | registerType (number : Nat) (t : Ty)
  | floatOperation (op : Op)
  | operation (op : Op)
  | floatCast (source target : Ty)
  | noTerminator (b : BlockId)
  | illTyped (errors : List TypingError)
  | convention (e : ConventionError)
  | missingBlock (b : BlockId)
  | missingInput (dest : Ir.Reg) (block source : BlockId)
  | unboundLabel

def Refusal.text : Refusal → String
  | .declaration => "extern declaration"
  | .parameterCount n => s!"{n} parameters"
  | .frame n => s!"stack frame of {n} bytes exceeds {maxFrame}"
  | .returnType t => s!"return type {t.name}"
  | .registerType r t => s!"register %{r} has type {t.name}"
  | .floatOperation op => s!"float operation {op.name}"
  | .operation op => op.name
  | .floatCast a b => s!"cast {a.name} to {b.name}"
  | .noTerminator b => s!"block {b.text} has no terminator"
  | .illTyped es => String.intercalate "; " (es.map TypingError.message)
  | .convention e => e.message
  | .missingBlock b => s!"branch to missing block {b.text}"
  | .missingInput d b s => s!"phi {d.text} in {b.text} has no value for {s.text}"
  | .unboundLabel => "x64: a label is never bound"

/-- Lowering refuses a function, or crashes on one that was not verified. -/
abbrev Lower := Except (Fault Refusal)

def refuse {α : Type} (r : Refusal) : Lower α := .error (.error r)

/-- Bytes of the frame: a slot for each register and for each phi of the block with the most, in
whole units of sixteen. -/
def frameSize (regs : Nat) (blocks : List Block) : Nat :=
  let phis := blocks.foldl (fun n b => max n b.phis.length) 0
  (8 * (regs + phis) + 15) / 16 * 16

def checkInst (i : Inst) : Lower Unit :=
  if i.op.isFloat then refuse (.floatOperation i.op)
  else match i.op with
    | .div | .rem => refuse (.operation i.op)
    | .cast =>
      if i.source.isFloat || i.ty.isFloat then refuse (.floatCast i.source i.ty) else .ok ()
    | .call | .loadGlobal | .storeGlobal | .panic => refuse (.operation i.op)
    | _ => .ok ()

def checkBlock (b : Block) : Lower Unit := do
  b.insts.forM checkInst
  if b.term = .missing then refuse (.noTerminator b.id)

/-- Checks the whole function before any code is made. -/
def check (f : Function) : Lower Unit := do
  if f.isExternal then refuse .declaration
  if X64.Reg.arguments.length < f.sig.params.length then
    refuse (.parameterCount f.sig.params.length)
  let blocks ← Crash.lift f.allBlocks
  let frame := frameSize f.regTypes.size blocks
  if maxFrame < frame then refuse (.frame frame)
  let isWord (t : Ty) : Bool := t == .void || t.isIntLike
  if !isWord f.sig.ret then refuse (.returnType f.sig.ret)
  match (f.regTypes.toList.mapIdx fun i t => (i, t)).find? (fun p => !isWord p.2) with
  | some (i, t) => refuse (.registerType i t)
  | none => pure ()
  blocks.forM checkBlock
  let errors ← Crash.lift f.typingErrors
  if !errors.isEmpty then refuse (.illTyped errors)

/-- Slot of a register, as a distance from `rbp`. -/
def slot (r : Ir.Reg) : Int32 := Int32.ofInt (-8 * ((r.num : Int) + 1))

/-- Spare slot for the copy of a phi, after the slots of all registers. -/
def spare (regs i : Nat) : Int32 := Int32.ofInt (-8 * ((regs : Int) + i + 1))

/-- Places in the code: the start of a block, and the copies on the edges out of one. -/
inductive Mark where
  | block (b : BlockId)
  | edge (source : BlockId) (number : Nat)
  deriving DecidableEq, Repr

abbrev Code := List (Instr Mark)

/-- Cuts a register to the width of a type and extends it again. -/
def normalizeCode (t : Ty) (r : X64.Reg) : Code :=
  match t with
  | .i8 => [.widen .signed8 r r]
  | .i16 => [.widen .signed16 r r]
  | .i32 => [.widen .signed32 r r]
  | .u8 => [.widen .zero8 r r]
  | .u16 => [.widen .zero16 r r]
  | .u32 => [.mov32 r r]
  | .bool => [.andImm r 1]
  | _ => []

/-- The flags' condition for a comparison of words. -/
def condFor? : Op → Option Cond
  | .eq => some .e
  | .ne => some .ne
  | .lt => some .l
  | .le => some .le
  | .gt => some .g
  | .ge => some .ge
  | .ult => some .b
  | .ule => some .be
  | .ugt => some .a
  | .uge => some .ae
  | _ => none

/-- Computes `rax op rcx` into `rax`. -/
def binaryCode (op : Op) (t : Ty) : Lower Code :=
  let counted (s : Shift) : Code := [.andImm .rcx (Int8.ofInt ((t.width : Int) - 1)), .shift s .rax]
  match op with
  | .add => .ok [.alu .add .rax .rcx]
  | .sub => .ok [.alu .sub .rax .rcx]
  | .mul => .ok [.imul .rax .rcx]
  | .and => .ok [.alu .and .rax .rcx]
  | .or => .ok [.alu .or .rax .rcx]
  | .xor => .ok [.alu .xor .rax .rcx]
  | .shl => .ok (counted .shl)
  | .shr => .ok (counted (if t.isSigned then .sar else .shr))
  | op => refuse (.operation op)

def argSlot (i : Inst) (n : Nat) : Lower Int32 :=
  (Crash.lift (Crash.index i.args n)).map slot

/-- Computes an instruction's value into `rax`. -/
def valueCode (i : Inst) : Lower Code := do
  match i.op with
  | .const => return [.movImm .rax i.const.bits]
  | .undef => return [.alu .xor .rax .rax]
  | .copy => return [.load .rax (← argSlot i 0)]
  | .neg => return [.load .rax (← argSlot i 0), .neg .rax] ++ normalizeCode i.ty .rax
  | .not =>
    let rest := if i.ty = .bool then [.xorImm .rax 1] else .not .rax :: normalizeCode i.ty .rax
    return .load .rax (← argSlot i 0) :: rest
  | .cast =>
    let rest := if i.ty = .bool then
        [.alu .test .rax .rax, .setcc .ne .rax, .widen .zero8 .rax .rax]
      else normalizeCode i.ty .rax
    return .load .rax (← argSlot i 0) :: rest
  | op =>
    if op.isBinary then
      let loads : Code := [.load .rax (← argSlot i 0), .load .rcx (← argSlot i 1)]
      return loads ++ (← binaryCode op i.ty) ++ normalizeCode i.ty .rax
    else match condFor? op with
      | some c =>
        return [.load .rax (← argSlot i 0), .load .rcx (← argSlot i 1), .alu .cmp .rax .rcx,
          .setcc c .rax, .widen .zero8 .rax .rax]
      | none => refuse (.operation op)

def instCode (i : Inst) : Lower Code := do
  if i.op = .select then
    return [.load .rax (← argSlot i 0), .load .rcx (← argSlot i 1), .load .rdx (← argSlot i 2),
      .alu .test .rax .rax, .cmov .ne .rdx .rcx, .store (slot i.dest) .rdx]
  return (← valueCode i) ++ [.store (slot i.dest) .rax]

/-- An edge to a block with phis, to be given its copies. -/
structure Edge where
  mark : Mark
  source : BlockId
  target : BlockId
  deriving DecidableEq, Repr

/-- Lowering a terminator collects the edges that need copies. -/
abbrev Branching := StateT (List Edge) Lower

/-- The place to jump to for a block: the block itself, or the copies in front of it. `here` is the
position of the block that is left. -/
def branchTo (f : Function) (here : BlockId) (b : Block) (succ : BlockId) : Branching Mark := do
  match f.block? succ with
  | none => throw (.error (.missingBlock succ))
  | some target =>
    if target.phis.isEmpty then return .block succ
    let edges ← get
    let mark := Mark.edge here edges.length
    set (edges ++ [⟨mark, b.id, succ⟩])
    return mark

def caseCode (f : Function) (here : BlockId) (b : Block) (t : Ty) (c : SwitchCase) :
    Branching Code := do
  let succ ← branchTo f here b c.target
  return [.movImm .rcx (Value.ofInt t c.value.toInt).bits, .alu .cmp .rax .rcx, .jcc .e succ]

def termCode (f : Function) (here : BlockId) (b : Block) : Branching Code := do
  match b.term with
  | .missing => throw (.error (.noTerminator b.id))
  | .br succ => return [.jmp (← branchTo f here b succ)]
  | .condBr cond yes no =>
    let yes ← branchTo f here b yes
    let no ← branchTo f here b no
    return [.load .rax (slot cond), .alu .test .rax .rax, .jcc .ne yes, .jmp no]
  | .switch cond cases default =>
    let t := (f.regType? cond).getD .void
    let cases ← cases.mapM (caseCode f here b t)
    let default ← branchTo f here b default
    return .load .rax (slot cond) :: (cases.flatten ++ [.jmp default])
  | .ret value =>
    let result := match value with
      | some r => .load .rax (slot r)
      | none => .alu .xor .rax .rax
    return [result, .alu .mov .rsp .rbp, .pop .rbp, .ret]
  | .unreachable => return [.ud2]

/-- Copies of the phis on an edge: all reads come before all writes. -/
def edgeCode (f : Function) (e : Edge) : Lower (List (Line Mark)) := do
  let phis := ((f.block? e.target).map (·.phis)).getD []
  let numbered := phis.mapIdx fun i p => (i, p)
  let regs := f.regTypes.size
  let reads ← numbered.mapM fun (i, p) => do
    match p.valueFor? e.source with
    | none => refuse (.missingInput p.dest e.target e.source)
    | some r => return ([.load .rax (slot r), .store (spare regs i) .rax] : Code)
  let writes : Code := numbered.flatMap fun (i, p) =>
    [.load .rax (spare regs i), .store (slot p.dest) .rax]
  let code : Code := reads.flatten ++ writes ++ [.jmp (.block e.target)]
  return .bind e.mark :: code.map .instr

def blockCode (f : Function) (here : BlockId) : Lower (List (Line Mark)) := do
  let b ← Crash.lift (Crash.deref (f.block? here))
  let insts ← b.insts.mapM instCode
  let (term, edges) ← (termCode f here b).run []
  let copies ← edges.mapM (edgeCode f)
  return .bind (.block here) :: (insts.flatten ++ term).map .instr ++ copies.flatten

/-- Brings an argument to the normal form of its type and stores it. -/
def paramCode (f : Function) (position : Nat) (p : Ir.Reg) : Lower Code := do
  let r ← Crash.lift (Crash.index X64.Reg.arguments position)
  let t ← Crash.lift (Crash.index f.sig.params position)
  return normalizeCode t r ++ [.store (slot p) r]

def entryCode (f : Function) (frame : Nat) : Lower Code := do
  let params ← (f.params.mapIdx fun i p => (i, p)).mapM fun (i, p) => paramCode f i p
  let room : Code := if 0 < frame then [.subRsp (Int32.ofNat frame)] else []
  return [.push .rbp, .alu .mov .rbp .rsp] ++ room ++ params.flatten

/-- The assembly of a function that has passed the check. -/
def lines (f : Function) : Lower (List (Line Mark)) := do
  let blocks ← Crash.lift f.allBlocks
  let entry ← entryCode f (frameSize f.regTypes.size blocks)
  let order ← Crash.lift f.reversePostorder
  let bodies ← order.mapM (blockCode f)
  return entry.map .instr ++ bodies.flatten

def machineCode (f : Function) : Lower (List UInt8) := do
  let lines ← lines f
  let place (m : Mark) : Lower Nat :=
    match Assembly.boundAt? m 0 lines with
    | some p => .ok p
    | none => refuse .unboundLabel
  Assembly.encodeFrom place 0 lines

def compileOrRefuse (f : Function) : Lower CompiledCode := do
  check f
  let convention ← (Convention.ofSignature f.sig).mapError (.error ∘ .convention)
  return {
    name := f.name, backend := backendName, code := ← machineCode f, convention := some convention }

def compile (f : Function) : Except (Fault CodegenError) CompiledCode :=
  (compileOrRefuse f).mapError fun
    | .error r => .error ⟨backendName, f.name, r.text⟩
    | .crash c => .crash c

end TieredEngine.Native.X64.Baseline
