import TieredEngine.Ir.Module
import TieredEngine.Ir.Literal
import TieredEngine.Json.Doc

/-!
The file form of modules. Fields that hold their default are left out where a reader puts the
default back: an absent register, an empty list, the number zero, the empty text. An empty list
that always has to be written is written as `null` unless it was spelled out.
-/
namespace TieredEngine.Ir
open TieredEngine.Json (Doc Escaping)

/-- A list that is left out when it is empty. -/
def omitEmpty (name : String) (items : List Doc) : List (String × Doc) :=
  if items.isEmpty then [] else [(name, .arr items)]

/-- A list that is always written. -/
def written (explicitEmpty : Bool) (items : List Doc) : Doc :=
  if items.isEmpty && !explicitEmpty then .null else .arr items

def regDoc (r : Reg) : Doc := Doc.ofNat r.num
def blockDoc (b : BlockId) : Doc := Doc.ofNat b.num

/-- Type and literal. Addresses, infinities and not-a-numbers are quoted. -/
def Value.doc (v : Value) : Doc :=
  match v.ty with
  | .void => .obj [("type", .str "void")]
  | t =>
    let special := t.isFloat && (v.datum.isNotANumber || v.datum.isInfinite)
    let literal : Doc := if t == .ptr || special then .str v.literal else .num v.literal
    .obj [("type", .str t.name), ("value", literal)]

def Value.json (v : Value) : String := v.doc.compact Escaping.file

def Inst.doc (i : Inst) : Doc :=
  .obj <|
    [("op", .str i.op.name)] ++
    (if i.hasDest then [("dest", regDoc i.dest)] else []) ++
    [("type", .str i.ty.name)] ++
    omitEmpty "args" (i.args.map regDoc) ++
    (if i.op = .const then [("const", i.const.doc)] else []) ++
    (if i.source = .void then [] else [("from", .str i.source.name)]) ++
    (if i.callee.num = 0 then [] else [("callee", Doc.ofNat i.callee.num)]) ++
    (if i.global.num = 0 then [] else [("global", Doc.ofNat i.global.num)]) ++
    (if i.message.isEmpty then [] else [("message", .str i.message)])

def SwitchCase.doc (c : SwitchCase) : Doc :=
  .obj [("value", Doc.ofInt c.value.toInt), ("target", blockDoc c.target)]

def Term.doc (t : Term) : Doc :=
  .obj <| ("kind", .str t.kindName) ::
    match t with
    | .br target => [("target", blockDoc target)]
    | .condBr c y n => [("cond", regDoc c), ("then", blockDoc y), ("else", blockDoc n)]
    | .switch c cases d =>
      [("cond", regDoc c)] ++ omitEmpty "cases" (cases.map SwitchCase.doc) ++
        [("default", blockDoc d)]
    | .ret (some v) => [("value", regDoc v)]
    | _ => []

def Phi.doc (p : Phi) : Doc :=
  .obj [("dest", regDoc p.dest), ("type", .str p.ty.name),
    ("incoming", written p.explicitEmpty (p.incoming.map fun i =>
      .obj [("pred", blockDoc i.pred), ("value", regDoc i.value)]))]

def Block.doc (b : Block) : Doc :=
  .obj <| [("id", blockDoc b.id)] ++ omitEmpty "phis" (b.phis.map Phi.doc) ++
    [("insts", written b.explicitEmpty (b.insts.map Inst.doc)), ("term", b.term.doc)]

def Signature.doc (s : Signature) : Doc :=
  .obj <|
    [("params", written s.explicitEmpty (s.params.map (.str ·.name))), ("ret", .str s.ret.name)] ++
    (if s.callConv = .default then [] else [("callconv", .str s.callConv.name)]) ++
    (if s.canThrow then [("can_throw", .bool true)] else [])

/-- An entry of a list that may be missing. -/
def orNull {α : Type} (f : α → Doc) : Option α → Doc
  | some a => f a
  | none => .null

def Function.doc (f : Function) : Doc :=
  .obj <|
    [("id", Doc.ofNat f.id.num), ("name", .str f.name), ("sig", f.sig.doc)] ++
    omitEmpty "params" (f.params.map regDoc) ++
    omitEmpty "blocks" (f.blocks.toList.map (orNull Block.doc)) ++
    [("entry", blockDoc f.entry)] ++
    omitEmpty "regs" (f.regTypes.toList.map (.str ·.name))

def Global.doc (g : Global) : Doc :=
  .obj [("id", Doc.ofNat g.id.num), ("name", .str g.name), ("type", .str g.ty.name),
    ("init", g.init.doc)]

def Module.doc (m : Module) : Doc :=
  .obj <|
    [("name", .str m.name),
      ("functions", written m.explicitEmpty (m.functions.toList.map Function.doc))] ++
    omitEmpty "globals" (m.globals.toList.map (orNull Global.doc)) ++
    (if m.entryName.isEmpty then [] else [("entry", .str m.entryName)])

/-- The text of a module file. -/
def Module.encode (m : Module) : String := m.doc.indented Escaping.file ++ "\n"

end TieredEngine.Ir
