import TieredEngine.Ir.Module
import TieredEngine.Ir.Literal

/-!
Readable listings of modules. A listing trusts the module's shape: a missing block or global, or a
parameter register beyond the signature, crashes it.
-/
namespace TieredEngine.Ir

def regList (rs : List Reg) : String := Text.commas (rs.map Reg.text)

def Inst.text (i : Inst) : String :=
  match i.op with
  | .const => s!"{i.dest.text} = const {i.const.text}"
  | .cast => s!"{i.dest.text} = cast {i.source.name} {regList i.args} to {i.ty.name}"
  | .call =>
    let target := s!"f{i.callee.num}({regList i.args})"
    if i.dest = .absent then "call " ++ target
    else s!"{i.dest.text} = call {i.ty.name} {target}"
  | .loadGlobal => s!"{i.dest.text} = load_global {i.ty.name} g{i.global.num}"
  | .storeGlobal => s!"store_global g{i.global.num}, {regList i.args}"
  | .panic => s!"panic {Text.quoted i.message}"
  | .undef => s!"{i.dest.text} = undef {i.ty.name}"
  | o => s!"{i.dest.text} = {o.name} {i.ty.name} {regList i.args}"

def Term.text : Term → String
  | .missing => "<missing terminator>"
  | .br t => s!"br {t.text}"
  | .condBr c y n => s!"condbr {c.text}, {y.text}, {n.text}"
  | .switch c cases d =>
    let shown := Text.commas (cases.map fun k => s!"{k.value.toInt}: {k.target.text}")
    s!"switch {c.text} [{shown}] default {d.text}"
  | .ret none => "ret"
  | .ret (some v) => s!"ret {v.text}"
  | .unreachable => "unreachable"

def Phi.text (p : Phi) : String :=
  let inputs := Text.commas (p.incoming.map fun i => s!"[{i.value.text}, {i.pred.text}]")
  s!"{p.dest.text} = phi {p.ty.name} {inputs}"

def Block.lines (b : Block) : List String :=
  [b.id.text ++ ":"] ++ b.phis.map (fun p => "  " ++ p.text) ++
    b.insts.map (fun i => "  " ++ i.text) ++ ["  " ++ b.term.text]

private def unlines (ls : List String) : String := ls.foldl (fun acc l => acc ++ l ++ "\n") ""

def Function.listing (f : Function) : Except Crash String := do
  let params ← f.params.mapIdx (fun i r => (i, r)) |>.mapM fun (i, r) => do
    return s!"{r.text}: {(← Crash.index f.sig.params i).name}"
  if f.isExternal then
    let types := Text.commas (f.sig.params.map Ty.name)
    return s!"extern {f.name}({types}) -> {f.sig.ret.name}\n"
  let blocks ← f.allBlocks
  let head := s!"func {f.name}({Text.commas params}) -> {f.sig.ret.name} \x7b\n"
  return head ++ unlines (blocks.flatMap Block.lines) ++ "\x7d\n"

def Module.listing (m : Module) : Except Crash String := do
  let globals ← m.globals.toList.mapM fun g? => do
    let g ← Crash.deref g?
    return s!"global @{g.name} = {g.init.text}\n"
  let functions ← m.functions.toList.mapM fun f => return "\n" ++ (← f.listing)
  return s!"module {m.name}\n" ++ String.join globals ++ String.join functions

end TieredEngine.Ir
