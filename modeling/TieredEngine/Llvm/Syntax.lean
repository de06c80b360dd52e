import TieredEngine.Number.Binary

/-!
Modules of the LLVM language, as far as compiled programs use it: integers, floating point, global
variables, functions of basic blocks. Operands carry their types. The result of an instruction is
named by the number the instruction was made with; in text it is numbered by its place.
-/
namespace TieredEngine.Llvm

inductive Ty where
  | void
  | int (width : Nat)
  | float
  | double
  | bytes (length : Nat)
  | ptr (target : Ty)
  deriving DecidableEq, Repr, Inhabited

namespace Ty

def isInt : Ty → Bool
  | int _ => true
  | _ => false

def isFloat : Ty → Bool
  | float | double => true
  | _ => false

/-- Text the runtime takes. -/
def text : Ty := ptr (int 8)

end Ty

inductive Const where
  | int (width : Nat) (value : Int)
  /-- A floating-point constant is held in double precision. -/
  | float (ty : Ty) (value : Number.Datum)
  | undef (ty : Ty)
  /-- Address of the first byte of a global text. -/
  | textAddress (global : Nat) (length : Nat)
  deriving DecidableEq, Repr

def Const.ty : Const → Ty
  | int w _ => .int w
  | float t _ => t
  | undef t => t
  | textAddress .. => .text

/-- An operand. -/
inductive Val where
  | const (c : Const)
  | param (position : Nat) (ty : Ty)
  | result (inst : Nat) (ty : Ty)
  deriving DecidableEq, Repr

def Val.ty : Val → Ty
  | const c => c.ty
  | param _ t => t
  | result _ t => t

inductive BinOp where
  | add | sub | mul | and | or | xor | shl | ashr | lshr | udiv | urem | sdiv | srem
  | fadd | fsub | fmul | fdiv | frem
  deriving DecidableEq, Repr

inductive IntPred where
  | eq | ne | slt | sle | sgt | sge | ult | ule | ugt | uge
  deriving DecidableEq, Repr

/-- Ordered predicates are false, unordered ones true when an operand is not a number. -/
inductive FloatPred where
  | oeq | une | olt | ole | ogt | oge | ord | uno
  deriving DecidableEq, Repr

inductive CastOp where
  | trunc | zext | sext | sitofp | uitofp | fpext | fptrunc
  deriving DecidableEq, Repr

/-- Names of blocks: the extra first block, the block for one of the source, and blocks that an
operation needs on its way. -/
inductive BlockName where
  | start
  | entry
  | block (number : Nat)
  | aux (kind : String) (number : Nat)
  deriving DecidableEq, Repr

inductive Operation where
  | binary (op : BinOp) (x y : Val)
  | fneg (x : Val)
  | icmp (p : IntPred) (x y : Val)
  | fcmp (p : FloatPred) (x y : Val)
  | cast (op : CastOp) (x : Val) (result : Ty)
  | select (cond x y : Val)
  | call (callee : Nat) (ret : Ty) (args : List Val)
  | load (ty : Ty) (global : Nat)
  | store (x : Val) (global : Nat)
  | phi (ty : Ty) (incoming : List (Val × BlockName))
  deriving DecidableEq, Repr

def Operation.ty : Operation → Ty
  | binary _ x _ => x.ty
  | fneg x => x.ty
  | icmp .. => .int 1
  | fcmp .. => .int 1
  | cast _ _ t => t
  | select _ x _ => x.ty
  | call _ t _ => t
  | load t _ => t
  | store .. => .void
  | phi t _ => t

structure Inst where
  id : Nat
  op : Operation
  deriving DecidableEq, Repr

/-- Whether an instruction has a result that is numbered. -/
def Inst.isNumbered (i : Inst) : Bool :=
  match i.op with
  | .store .. => false
  | .call _ t _ => t != .void
  | _ => true

inductive Term where
  | br (target : BlockName)
  | condBr (cond : Val) (yes no : BlockName)
  | switch (x : Val) (default : BlockName) (cases : List (Const × BlockName))
  | ret (value : Option Val)
  | unreachable
  deriving DecidableEq, Repr

structure Block where
  name : BlockName
  insts : List Inst := []
  term : Option Term := none
  deriving DecidableEq, Repr

structure Func where
  name : String
  ret : Ty
  params : List Ty := []
  /-- Parameters of functions of the source have names. -/
  namedParams : Bool := true
  blocks : List Block := []
  deriving DecidableEq, Repr

inductive GlobalInit where
  | const (c : Const)
  /-- A private constant text; the closing zero byte belongs to it. -/
  | text (bytes : List UInt8)
  deriving DecidableEq, Repr

def GlobalInit.ty : GlobalInit → Ty
  | const c => c.ty
  | text bs => .bytes bs.length

structure Global where
  name : String
  init : GlobalInit
  deriving DecidableEq, Repr

structure Module where
  name : String := ""
  triple : String := ""
  globals : Array Global := #[]
  functions : Array Func := #[]
  deriving DecidableEq, Repr

end TieredEngine.Llvm
