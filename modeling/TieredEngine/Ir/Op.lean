import TieredEngine.Text.Quoted

/-!
Operations of instructions and their classes. The order of the list is the order of their numbers.
-/
namespace TieredEngine.Ir

inductive Op where
  | const | copy
  | add | sub | mul | div | rem | and | or | xor | shl | shr
  | fadd | fsub | fmul | fdiv | frem
  | neg | not | fneg
  | eq | ne | lt | le | gt | ge | ult | ule | ugt | uge
  | feq | fne | flt | fle | fgt | fge | ford | funo
  | cast | select | call | loadGlobal | storeGlobal | undef | panic
  deriving DecidableEq, Repr, Inhabited

namespace Op

/-- All operations, in the order of their numbers. -/
def all : List Op :=
  [const, copy, add, sub, mul, div, rem, and, or, xor, shl, shr, fadd, fsub, fmul, fdiv, frem,
    neg, not, fneg, eq, ne, lt, le, gt, ge, ult, ule, ugt, uge, feq, fne, flt, fle, fgt, fge, ford,
    funo, cast, select, call, loadGlobal, storeGlobal, undef, panic]

def name : Op → String
  | const => "const"
  | copy => "copy"
  | add => "add"
  | sub => "sub"
  | mul => "mul"
  | div => "div"
  | rem => "rem"
  | and => "and"
  | or => "or"
  | xor => "xor"
  | shl => "shl"
  | shr => "shr"
  | fadd => "fadd"
  | fsub => "fsub"
  | fmul => "fmul"
  | fdiv => "fdiv"
  | frem => "frem"
  | neg => "neg"
  | not => "not"
  | fneg => "fneg"
  | eq => "eq"
  | ne => "ne"
  | lt => "lt"
  | le => "le"
  | gt => "gt"
  | ge => "ge"
  | ult => "ult"
  | ule => "ule"
  | ugt => "ugt"
  | uge => "uge"
  | feq => "feq"
  | fne => "fne"
  | flt => "flt"
  | fle => "fle"
  | fgt => "fgt"
  | fge => "fge"
  | ford => "ford"
  | funo => "funo"
  | cast => "cast"
  | select => "select"
  | call => "call"
  | loadGlobal => "load_global"
  | storeGlobal => "store_global"
  | undef => "undef"
  | panic => "panic"

def ofName? (s : String) : Option Op := all.find? (·.name == s)

def unknownMessage (s : String) : String := s!"unknown op {Text.quoted s}"

def code (o : Op) : Nat := all.idxOf o

def ofCode? (n : Nat) : Option Op := all[n]?

def codeName (n : Nat) : String :=
  match ofCode? n with
  | some o => o.name
  | none => s!"op({n})"

/-- Arithmetic and bitwise operations of two operands. -/
def isBinary : Op → Bool
  | add | sub | mul | div | rem | and | or | xor | shl | shr
  | fadd | fsub | fmul | fdiv | frem => true
  | _ => false

def isUnary : Op → Bool
  | neg | not | fneg => true
  | _ => false

def isCompare : Op → Bool
  | eq | ne | lt | le | gt | ge | ult | ule | ugt | uge
  | feq | fne | flt | fle | fgt | fge | ford | funo => true
  | _ => false

/-- Operations whose operands are floating point. -/
def isFloat : Op → Bool
  | fadd | fsub | fmul | fdiv | frem | fneg
  | feq | fne | flt | fle | fgt | fge | ford | funo => true
  | _ => false

/-- Operations that may not be dropped when their result is unused. -/
def hasEffects : Op → Bool
  | call | storeGlobal | panic | div | rem => true
  | _ => false

end Op

end TieredEngine.Ir
