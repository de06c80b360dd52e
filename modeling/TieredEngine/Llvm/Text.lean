import TieredEngine.Llvm.Syntax
import TieredEngine.Number.Shortest
import TieredEngine.Text.Quoted

/-!
Text of LLVM modules. Names that are not plain identifiers are quoted, with bytes other than plain
ASCII in hexadecimal. An integer constant from 0x1000 on is written in hexadecimal where that has
markedly fewer different digits; a floating-point constant is written in decimal if its shortest
digits are its exact value, else as the hexadecimal word of the double-precision number.
-/
namespace TieredEngine.Llvm
open TieredEngine TieredEngine.Number

/-- Text in which every byte outside `keep` is given as a backslash and two digits. -/
def escaped (keep : UInt8 → Bool) (bytes : List UInt8) : String :=
  String.join <| bytes.map fun b =>
    if keep b then String.singleton (Char.ofNat b.toNat) else "\\" ++ Text.hexPaddedUpper 2 b.toNat

def isQuotable (b : UInt8) : Bool := 0x20 ≤ b && b < 0x7F && b != 0x22 && b != 0x5C

def quotedBytes (bytes : List UInt8) : String := "\"" ++ escaped isQuotable bytes ++ "\""

def quotedText (s : String) : String := quotedBytes s.toUTF8.toList

def isIdentChar (c : Char) : Bool :=
  c.isAlphanum || c == '$' || c == '-' || c == '.' || c == '_'

/-- Names of digits only are quoted, so that they are not taken for numbers. -/
def identifier (s : String) : String :=
  let isNumber := !s.isEmpty && s.toList.all Char.isDigit && s.toNat?.any (· < Nat.pow 2 64)
  if isNumber || !s.toList.all isIdentChar then quotedText s else s

namespace Ty

def render : Ty → String
  | void => "void"
  | int w => s!"i{w}"
  | float => "float"
  | double => "double"
  | bytes n => s!"[{n} x i8]"
  | ptr t => t.render ++ "*"

end Ty

def BlockName.text : BlockName → String
  | start => "start"
  | entry => "entry"
  | block n => s!"bb{n}"
  | aux kind n => s!"{kind}.{n}"

/-- Different digits as a share of how many there could be. -/
def variety (digits : List Char) (base : Nat) : Datum :=
  let distinct := digits.eraseDups.length
  binary64.round (Datum.div binary64 (.ofInt distinct) (.ofInt (min digits.length base)))

/-- Largest share of different hexadecimal digits at which they are used. -/
def varietyLimit (length : Nat) : Datum :=
  let wanted := if length ≤ 6 then 2 else if length ≤ 10 then 3 else 4
  binary64.round (Datum.div binary64 (.ofInt wanted) (.ofInt (min length 16)))

private def atMost (x y : Datum) : Bool := (x.compare? y).any (· != .gt)

private def plusHundredths (x : Datum) (n : Nat) : Datum :=
  let share := binary64.round (Datum.div binary64 (.ofInt n) (.ofInt 100))
  binary64.round (Datum.add binary64 x share)

/-- Whether a constant of at least 0x1000 is written in hexadecimal. -/
def prefersHex (n : Nat) : Bool :=
  let hex := Nat.toDigits 16 n
  let hexVariety := variety hex 16
  let decVariety := variety (Nat.toDigits 10 n) 10
  atMost hexVariety (plusHundredths (varietyLimit hex.length) 1) &&
    atMost (plusHundredths hexVariety 20) decVariety

def intText (width : Nat) (value : Int) : String :=
  if width = 1 then if value = 0 then "false" else "true"
  else if 0x1000 ≤ value && prefersHex value.toNat then
    "u0x" ++ Text.hexPaddedUpper 1 value.toNat
  else toString value

/-- Whether a decimal is exactly `mantissa * 2 ^ exponent`. -/
def isExact (d : Decimal) (mantissa : Nat) (exponent : Int) : Bool :=
  let (p, q) := powerFraction 10 d.exponent
  let (r, s) := powerFraction 2 exponent
  d.digits * p * s == mantissa * r * q

/-- Puts a point into a numeral that has none. -/
def withPoint (s : String) : String :=
  if s.contains '.' then s
  else
    let cs := s.toList
    String.ofList (cs.takeWhile (· != 'e') ++ ['.', '0'] ++ cs.dropWhile (· != 'e'))

def floatText (value : Datum) : String :=
  let word := "0x" ++ Text.hexPaddedUpper 1 (binary64.write value)
  match value with
  | .notANumber n _ =>
    "0x" ++ Text.hexPaddedUpper 1 (binary64.write (.notANumber n binary64.quietBit))
  | .infinite _ => word
  | .finite n m e =>
    if m = 0 then if n then "-0.0" else "0.0"
    else
      -- The mantissa is brought to the full precision, which a wider number may not have.
      let normal := binary64.round value
      match normal with
      | .finite _ m' e' =>
        let d := binary64.shortest m' e'
        if !isExact d m e then word
        else (if n then "-" else "") ++ withPoint (Layout.general.render d)
      | _ => word

/-- Names of globals and functions by position; the nameless ones are numbered. -/
structure Names where
  globals : Array String
  functions : Array String

def Names.ofModule (m : Module) : Names :=
  let name (acc : Array String × Nat) (s : String) : Array String × Nat :=
    if s.isEmpty then (acc.1.push s!"@{acc.2}", acc.2 + 1)
    else (acc.1.push ("@" ++ identifier s), acc.2)
  let (globals, next) := m.globals.foldl (fun acc g => name acc g.name) (#[], 0)
  let (functions, _) := m.functions.foldl (fun acc f => name acc f.name) (#[], next)
  ⟨globals, functions⟩

def Names.global (n : Names) (i : Nat) : String := n.globals[i]?.getD ""
def Names.function (n : Names) (i : Nat) : String := n.functions[i]?.getD ""

/-- What the text of an instruction needs to know: names, types of globals, numbers of results. -/
structure Scope where
  names : Names
  globalTypes : Array Ty
  namedParams : Bool
  numbers : List Nat

namespace Scope

def const (s : Scope) : Const → String
  | .int w v => intText w v
  | .float _ v => floatText v
  | .undef _ => "undef"
  | .textAddress g n => s!"bitcast ([{n} x i8]* {s.names.global g} to i8*)"

/-- An operand without its type. -/
def ident (s : Scope) : Val → String
  | .const c => s.const c
  | .param i _ => if s.namedParams then s!"%p{i}" else s!"%{i}"
  | .result id _ => s!"%{(s.numbers.idxOf? id).getD 0}"

def operand (s : Scope) (v : Val) : String := v.ty.render ++ " " ++ s.ident v

/-- The address of a global with its type. -/
def address (s : Scope) (g : Nat) : String :=
  s!"{((s.globalTypes[g]?).getD .void).render}* {s.names.global g}"

end Scope

def BinOp.name : BinOp → String
  | add => "add"
  | sub => "sub"
  | mul => "mul"
  | and => "and"
  | or => "or"
  | xor => "xor"
  | shl => "shl"
  | ashr => "ashr"
  | lshr => "lshr"
  | udiv => "udiv"
  | urem => "urem"
  | sdiv => "sdiv"
  | srem => "srem"
  | fadd => "fadd"
  | fsub => "fsub"
  | fmul => "fmul"
  | fdiv => "fdiv"
  | frem => "frem"

def IntPred.name : IntPred → String
  | eq => "eq"
  | ne => "ne"
  | slt => "slt"
  | sle => "sle"
  | sgt => "sgt"
  | sge => "sge"
  | ult => "ult"
  | ule => "ule"
  | ugt => "ugt"
  | uge => "uge"

def FloatPred.name : FloatPred → String
  | oeq => "oeq"
  | une => "une"
  | olt => "olt"
  | ole => "ole"
  | ogt => "ogt"
  | oge => "oge"
  | ord => "ord"
  | uno => "uno"

def CastOp.name : CastOp → String
  | trunc => "trunc"
  | zext => "zext"
  | sext => "sext"
  | sitofp => "sitofp"
  | uitofp => "uitofp"
  | fpext => "fpext"
  | fptrunc => "fptrunc"

private def commaList (l : List String) : String := String.intercalate ", " l

def Operation.text (s : Scope) : Operation → String
  | binary op x y => s!"{op.name} {s.operand x}, {s.ident y}"
  | fneg x => s!"fneg {s.operand x}"
  | icmp p x y => s!"icmp {p.name} {s.operand x}, {s.ident y}"
  | fcmp p x y => s!"fcmp {p.name} {s.operand x}, {s.ident y}"
  | cast op x t => s!"{op.name} {s.operand x} to {t.render}"
  | select c x y => s!"select {s.operand c}, {s.operand x}, {s.operand y}"
  | call f t args =>
    s!"call {t.render} {s.names.function f}({commaList (args.map s.operand)})"
  | load t g => s!"load {t.render}, {s.address g}"
  | store x g => s!"store {s.operand x}, {s.address g}"
  | phi t ins =>
    let inputs := ins.map fun (v, b) => s!"[ {s.ident v}, %{b.text} ]"
    s!"phi {t.render} {commaList inputs}"

def Inst.text (s : Scope) (i : Inst) : String :=
  if i.isNumbered then s!"{s.ident (.result i.id i.op.ty)} = {i.op.text s}" else i.op.text s

def Term.text (s : Scope) : Term → String
  | br t => s!"br label %{t.text}"
  | condBr c y n => s!"br {s.operand c}, label %{y.text}, label %{n.text}"
  | switch x d cases =>
    let lines := cases.map fun (c, b) => s!"\t\t{s.operand (.const c)}, label %{b.text}\n"
    s!"switch {s.operand x}, label %{d.text} [\n{String.join lines}\t]"
  | ret none => "ret void"
  | ret (some v) => s!"ret {s.operand v}"
  | unreachable => "unreachable"

def Block.text (s : Scope) (b : Block) : String :=
  let insts := b.insts.map fun i => s!"\t{i.text s}\n"
  let term := (b.term.map fun t => s!"\t{t.text s}\n").getD ""
  s!"{b.name.text}:\n" ++ String.join insts ++ term

/-- Results of a function in the order of their numbers. -/
def Func.numbered (f : Func) : List Nat :=
  f.blocks.flatMap fun b => (b.insts.filter Inst.isNumbered).map (·.id)

def Func.text (names : Names) (globalTypes : Array Ty) (name : String) (f : Func) : String :=
  let s : Scope := ⟨names, globalTypes, f.namedParams, f.numbered⟩
  let params := f.params.mapIdx fun i t => s.operand (.param i t)
  let head := s!"{f.ret.render} {name}({commaList params})"
  if f.blocks.isEmpty then s!"declare {head}\n"
  else
    let body := String.intercalate "\n" (f.blocks.map (Block.text s))
    "define " ++ head ++ " \x7b\n" ++ body ++ "\x7d\n"

def Global.text (name : String) (g : Global) : String :=
  match g.init with
  | .const c => s!"{name} = global {c.ty.render} {Scope.const ⟨⟨#[], #[]⟩, #[], true, []⟩ c}\n"
  | .text bs => s!"{name} = private constant {(Ty.bytes bs.length).render} c{quotedBytes bs}\n"

/-- The whole text: head lines, globals and functions, parted by blank lines. -/
def Module.text (m : Module) : String :=
  let names := Names.ofModule m
  let types := m.globals.map (·.init.ty)
  let source := if m.name.isEmpty then "" else s!"source_filename = {quotedText m.name}\n"
  let triple := if m.triple.isEmpty then "" else s!"target triple = {quotedText m.triple}\n"
  let head := source ++ triple
  let globals := String.join <|
    (names.globals.toList.zip m.globals.toList).map fun (n, g) => g.text n
  let functions := String.intercalate "\n" <|
    (names.functions.toList.zip m.functions.toList).map fun (n, f) => f.text names types n
  let parts := [head, globals, functions].filter (!·.isEmpty)
  String.intercalate "\n" parts

end TieredEngine.Llvm
