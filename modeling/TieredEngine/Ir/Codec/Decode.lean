import TieredEngine.Ir.Module
import TieredEngine.Ir.Literal
import TieredEngine.Json.Mismatch
import TieredEngine.Text.Encoding

/-!
Reading module files. Fields may come in any order and any case, unknown fields are ignored, and
`null` leaves a field at its default. A repeated field is read over the earlier one: a record keeps
the fields that are not given again, a list is as long as the last one but its records are read
over those of the earlier list. The first error in the order of the text is the one reported. Text
after the module is ignored. A missing function is only noticed when the names are indexed, and
then it is a crash.
-/
namespace TieredEngine.Ir
open TieredEngine.Json (Node Mismatch)

/-- Why a text is not a module. -/
inductive DecodeError where
  | notJson (fault : Json.Fault)
  | mismatch (m : Mismatch)
  /-- Codes of types that are not written in base 64. -/
  | codes (offset : Nat)
  | unknownCode (code : UInt8)
  | unknownType (name : String)
  | unknownOp (name : String)
  | unknownTerm (name : String)
  | unknownCallConv (name : String)
  | literal (e : LiteralError)
  deriving DecidableEq, Repr

namespace DecodeError

def message : DecodeError → String
  | .notJson f => f.message
  | .mismatch m => m.message
  | .codes offset => Text.Base64.faultMessage offset
  | .unknownCode code => s!"unknown type code {code}"
  | .unknownType s => unknownTypeMessage s
  | .unknownOp s => Op.unknownMessage s
  | .unknownTerm s => Term.unknownMessage s
  | .unknownCallConv s => CallConv.unknownMessage s
  | .literal e => e.message

/-- Errors in the words and literals of a module, rather than in its form. -/
def isOfContent : DecodeError → Bool
  | .notJson _ | .mismatch _ | .codes _ | .unknownCode _ => false
  | _ => true

/-- The wording for a whole module. -/
def moduleMessage (e : DecodeError) : String := "failed to decode module: " ++ e.message

/-- A mismatch as it is seen from a record or list around it. -/
def inside (kind field : String) : DecodeError → DecodeError
  | .mismatch m => .mismatch (m.inside kind field)
  | e => e

/-- A mismatch in a unit that ends where the given text is left. -/
def upTo (stop : List Char) : DecodeError → DecodeError
  | .mismatch m => .mismatch (m.upTo stop)
  | e => e

end DecodeError

namespace Codec

abbrev Read (α : Type) := Except DecodeError α

/-- Goes through the members of an object, which is a record of the given kind; `null` has none. -/
def fields {α : Type} (kind : String) (n : Node) (start : α) (step : α → String → Node → Read α) :
    Read α :=
  match n with
  | .null _ => .ok start
  | .obj members _ => members.foldlM (fun acc m =>
      let key := m.1.toLower
      (step acc key m.2).mapError (·.inside kind key)) start
  | _ => .error (.mismatch (n.mismatch kind))

/-- Items of a list of the given kind, each read over the item of the earlier list at its place,
and whether it was spelled out as an empty one. -/
def items {α : Type} (kind : String) (old : List α) (n : Node) (item : Option α → Node → Read α) :
    Read (List α × Bool) :=
  match n with
  | .null _ => .ok ([], false)
  | .arr nodes _ => do
    let list ← nodes.zipIdx.mapM fun (node, i) =>
      (item old[i]? node).mapError (·.inside kind (toString i))
    return (list, nodes.isEmpty)
  | _ => .error (.mismatch (n.mismatch kind))

/-- A part that is read as a text of its own. -/
def unit {α : Type} (n : Node) (r : Read α) : Read α := r.mapError (·.upTo n.span.stop)

/-- A number of 32 bits, written with digits only. -/
def word32 (old : UInt32) (n : Node) : Read UInt32 :=
  match n with
  | .null _ => .ok old
  | _ => n.word32.mapError .mismatch

def int64 (old : Int64) (n : Node) : Read Int64 :=
  match n with
  | .null _ => .ok old
  | _ => n.int64.mapError .mismatch

def string (old : String) (n : Node) : Read String :=
  match n with
  | .null _ => .ok old
  | .str s _ => .ok s
  | _ => .error (.mismatch (n.mismatch "string"))

def bool (old : Bool) (n : Node) : Read Bool :=
  match n with
  | .null _ => .ok old
  | .bool b _ => .ok b
  | _ => .error (.mismatch (n.mismatch "bool"))

/-- A word that names a member of a closed list. -/
def word {α : Type} (kind : String) (ofName? : String → Option α) (unknown : String → DecodeError)
    (old : α) (n : Node) : Read α :=
  match n with
  | .null _ => .ok old
  | .str s _ =>
    match ofName? s with
    | some a => .ok a
    | none => .error (unknown s)
  | _ => .error (.mismatch ⟨.kind n.kindName, kind, []⟩)

def ty (old : Ty) (n : Node) : Read Ty := word "*mir.Type" Ty.ofName? .unknownType old n

def reg (old : Reg) (n : Node) : Read Reg := return ⟨← word32 old.index n⟩

def blockId (old : BlockId) (n : Node) : Read BlockId := return ⟨← word32 old.index n⟩

def regs (old : List Reg) (n : Node) : Read (List Reg × Bool) :=
  items "[]mir.Reg" old n fun r => reg (r.getD ⟨0⟩)

/-- A list of types: their names, or the bytes of their codes as one text. -/
def types (old : List Ty) (n : Node) : Read (List Ty × Bool) :=
  match n with
  | .str s _ => do
    let codes ← (Text.Base64.decode s).mapError .codes
    let list ← codes.mapM fun c => (Ty.ofCode? c.toNat).elim (.error (.unknownCode c)) .ok
    return (list, list.isEmpty)
  | .arr .. | .null _ => items "[]mir.Type" old n fun t => ty (t.getD .void)
  | _ => .error (.mismatch (n.mismatch "[]uint8"))

/-- Fields of a value: its type and the spelling of its literal. -/
structure ValueFields where
  ty : Ty := .void
  spelling : String := ""

def valueFields (n : Node) : Read ValueFields :=
  fields "mir.valueJSON" n ({} : ValueFields) fun v key node =>
    match key with
    | "type" => return { v with ty := ← ty v.ty node }
    | "value" => return { v with spelling := node.spelling }
    | _ => return v

/-- A value; its literal may be spelled as a number, a word or a string. -/
def value (n : Node) : Read Value := unit n do
  let raw ← valueFields n
  let literal := String.ofList (Text.trimWhere (· == '"') raw.spelling.toList)
  if literal.isEmpty then return Value.zero raw.ty
  match Value.parse raw.ty literal with
  | .ok v => return v
  | .error e => throw (.literal e)

/-- The constant of an instruction, which may be given as `null`. -/
def constant (n : Node) : Read Value :=
  match n with
  | .null _ => .ok .void
  | _ => value n

def inst (n : Node) : Read Inst := unit n <|
  fields "mir.instJSON" n ({} : Inst) fun i key node =>
    match key with
    | "op" => return { i with op := ← word "*mir.Op" Op.ofName? .unknownOp i.op node }
    | "dest" => return { i with dest := ← reg .absent node }
    | "type" => return { i with ty := ← ty i.ty node }
    | "args" => return { i with args := (← regs i.args node).1 }
    | "const" => return { i with const := ← constant node }
    | "from" => return { i with source := ← ty i.source node }
    | "callee" => return { i with callee := ⟨← word32 i.callee.index node⟩ }
    | "global" => return { i with global := ⟨← word32 i.global.index node⟩ }
    | "message" => return { i with message := ← string i.message node }
    | _ => return i

def switchCase (old : SwitchCase) (n : Node) : Read SwitchCase :=
  fields "mir.SwitchCase" n old fun c key node =>
    match key with
    | "value" => return { c with value := ← int64 c.value node }
    | "target" => return { c with target := ← blockId c.target node }
    | _ => return c

/-- All the fields a terminator can have. -/
structure TermFields where
  kind : String := "none"
  target : BlockId := ⟨0⟩
  cond : Reg := ⟨0⟩
  yes : BlockId := ⟨0⟩
  no : BlockId := ⟨0⟩
  cases : List SwitchCase := []
  default : BlockId := ⟨0⟩
  value : Reg := .absent

def kindName? (s : String) : Option String := Term.kindNames.find? (· == s)

def TermFields.term (t : TermFields) : Term :=
  match t.kind with
  | "br" => .br t.target
  | "condbr" => .condBr t.cond t.yes t.no
  | "switch" => .switch t.cond t.cases t.default
  | "ret" => .ret (if t.value = .absent then none else some t.value)
  | "unreachable" => .unreachable
  | _ => .missing

def termFields (n : Node) : Read TermFields :=
  fields "mir.termJSON" n ({} : TermFields) fun t key node =>
    match key with
    | "kind" => return { t with kind := ← word "*mir.TermKind" kindName? .unknownTerm t.kind node }
    | "target" => return { t with target := ← blockId ⟨0⟩ node }
    | "cond" => return { t with cond := ← reg ⟨0⟩ node }
    | "then" => return { t with yes := ← blockId ⟨0⟩ node }
    | "else" => return { t with no := ← blockId ⟨0⟩ node }
    | "cases" => do
      let (cases, _) ← items "[]mir.SwitchCase" t.cases node fun c => switchCase (c.getD ⟨0, ⟨0⟩⟩)
      return { t with cases }
    | "default" => return { t with default := ← blockId ⟨0⟩ node }
    | "value" => return { t with value := ← reg .absent node }
    | _ => return t

def term (n : Node) : Read Term := unit n do return TermFields.term (← termFields n)

def incoming (old : Incoming) (n : Node) : Read Incoming :=
  fields "mir.PhiIncoming" n old fun i key node =>
    match key with
    | "pred" => return { i with pred := ← blockId i.pred node }
    | "value" => return { i with value := ← reg i.value node }
    | _ => return i

def phi (old : Phi) (n : Node) : Read Phi :=
  fields "mir.Phi" n old fun p key node =>
    match key with
    | "dest" => return { p with dest := ← reg p.dest node }
    | "type" => return { p with ty := ← ty p.ty node }
    | "incoming" => do
      let (list, explicitEmpty) ← items "[]mir.PhiIncoming" p.incoming node fun i =>
        incoming (i.getD ⟨⟨0⟩, ⟨0⟩⟩)
      return { p with incoming := list, explicitEmpty }
    | _ => return p

def block (old : Block) (n : Node) : Read Block :=
  fields "mir.Block" n old fun b key node =>
    match key with
    | "id" => return { b with id := ← blockId b.id node }
    | "phis" =>
      return { b with phis := (← items "[]mir.Phi" b.phis node fun p => phi (p.getD {})).1 }
    | "insts" => do
      let (list, explicitEmpty) ← items "[]mir.Inst" b.insts node fun _ => inst
      return { b with insts := list, explicitEmpty }
    | "term" => return { b with term := ← term node }
    | _ => return b

def signature (old : Signature) (n : Node) : Read Signature :=
  fields "mir.Signature" n old fun s key node =>
    match key with
    | "params" => do
      let (list, explicitEmpty) ← types s.params node
      return { s with params := list, explicitEmpty }
    | "ret" => return { s with ret := ← ty s.ret node }
    | "callconv" => do
      let callConv ← word "*mir.CallConv" CallConv.ofName? .unknownCallConv s.callConv node
      return { s with callConv }
    | "can_throw" => return { s with canThrow := ← bool s.canThrow node }
    | _ => return s

/-- An entry of a list that may be missing. -/
def optional {α : Type} (start : α) (item : α → Node → Read α) (old : Option (Option α))
    (n : Node) : Read (Option α) :=
  match n with
  | .null _ => .ok none
  | _ => return some (← item (old.join.getD start) n)

def function (old : Function) (n : Node) : Read Function :=
  fields "mir.Function" n old fun f key node =>
    match key with
    | "id" => return { f with id := ⟨← word32 f.id.index node⟩ }
    | "name" => return { f with name := ← string f.name node }
    | "sig" => return { f with sig := ← signature f.sig node }
    | "params" => return { f with params := (← regs f.params node).1 }
    | "blocks" => do
      let (list, _) ← items "[]*mir.Block" f.blocks.toList node (optional {} block)
      return { f with blocks := list.toArray }
    | "entry" => return { f with entry := ← blockId f.entry node }
    | "regs" => return { f with regTypes := (← types f.regTypes.toList node).1.toArray }
    | _ => return f

def global (old : Global) (n : Node) : Read Global :=
  fields "mir.Global" n old fun g key node =>
    match key with
    | "id" => return { g with id := ⟨← word32 g.id.index node⟩ }
    | "name" => return { g with name := ← string g.name node }
    | "type" => return { g with ty := ← ty g.ty node }
    | "init" => return { g with init := ← value node }
    | _ => return g

/-- A module whose functions may still be missing. -/
structure ModuleFields where
  name : String := ""
  functions : List (Option Function) := []
  globals : List (Option Global) := []
  entryName : String := ""
  explicitEmpty : Bool := false

def moduleFields (n : Node) : Read ModuleFields :=
  fields "mir.Module" n ({} : ModuleFields) fun m key node =>
    match key with
    | "name" => return { m with name := ← string m.name node }
    | "functions" => do
      let (list, explicitEmpty) ←
        items "[]*mir.Function" m.functions node (optional {} function)
      return { m with functions := list, explicitEmpty }
    | "globals" => do
      let (globals, _) ← items "[]*mir.Global" m.globals node (optional {} global)
      return { m with globals }
    | "entry" => return { m with entryName := ← string m.entryName node }
    | _ => return m

end Codec

/-- Reads a module from a parsed value. -/
def Module.ofNode (n : Node) : Except (Fault DecodeError) Module := do
  let raw ← (Codec.unit n (Codec.moduleFields n)).mapError .error
  let functions ← Crash.lift (raw.functions.mapM Crash.deref)
  return {
    name := raw.name
    functions := functions.toArray
    globals := raw.globals.toArray
    entryName := raw.entryName
    explicitEmpty := raw.explicitEmpty }

/-- Reads the module at the start of a text. -/
def Module.decode (text : String) : Except (Fault DecodeError) Module :=
  match Json.readFirst text with
  | .ok n => Module.ofNode n
  | .error f => .error (.error (.notJson f))

/-- Reads the module at the start of a file. -/
def Module.decodeBytes (bytes : List UInt8) : Except (Fault DecodeError) Module :=
  Module.decode (Text.ofBytes bytes)

end TieredEngine.Ir
