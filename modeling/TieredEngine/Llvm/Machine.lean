import TieredEngine.Llvm.Syntax

/-!
What modules of the LLVM language do, as far as they compute with integers. A step carries out one
instruction or one terminator. Where the language leaves open what happens there is no step: after a
division by zero, a signed quotient that does not fit, a shift by the width or more, an operand that is
undefined or was never computed, the end of a block that must not be reached. There is none either for
what is no program of the language, such as operands of types that an operation does not take.

A function without blocks is one of the outside: it is called by its name, and what it does is up to the
outside, which has a state of its own.
-/
namespace TieredEngine.Llvm

/-- Bits of an integer type. -/
structure Word where
  width : Nat
  bits : BitVec width
  deriving DecidableEq, Repr

namespace Word

def ofBool (b : Bool) : Word := ⟨1, .ofBool b⟩

/-- The bits, if there are so many of them. -/
def at? (x : Word) (w : Nat) : Option (BitVec w) :=
  if same : x.width = w then some (x.bits.cast same) else none

/-- A single bit, as a truth value. -/
def truth? (x : Word) : Option Bool := (x.at? 1).map (· == 1)

end Word

/-- What a function is called with: a word, or the address of a text. -/
inductive Arg where
  | word (x : Word)
  | text (bytes : List UInt8)
  deriving DecidableEq, Repr

def Arg.ty : Arg → Ty
  | word x => .int x.width
  | text _ => .text

/-- Whether a result is one of a type; there is none of type void. -/
def Ty.gives : Ty → Option Word → Bool
  | void, none => true
  | int w, some x => x.width == w
  | _, _ => false

/-- The signed quotient of two words does not fit: it is that of the least word by minus one. -/
def overflows {w : Nat} (a b : BitVec w) : Bool := a == .intMin w && b == .allOnes w

def BinOp.apply? {w : Nat} (op : BinOp) (a b : BitVec w) : Option (BitVec w) :=
  match op with
  | add => some (a + b)
  | sub => some (a - b)
  | mul => some (a * b)
  | and => some (a &&& b)
  | or => some (a ||| b)
  | xor => some (a ^^^ b)
  | shl => if b.toNat < w then some (a <<< b.toNat) else none
  | lshr => if b.toNat < w then some (a >>> b.toNat) else none
  | ashr => if b.toNat < w then some (a.sshiftRight b.toNat) else none
  | udiv => if b = 0 then none else some (a / b)
  | urem => if b = 0 then none else some (a % b)
  | sdiv => if b = 0 || overflows a b then none else some (a.sdiv b)
  | srem => if b = 0 || overflows a b then none else some (a.srem b)
  | fadd | fsub | fmul | fdiv | frem => none

def IntPred.holds {w : Nat} (p : IntPred) (a b : BitVec w) : Bool :=
  match p with
  | eq => a == b
  | ne => a != b
  | slt => a.slt b
  | sle => a.sle b
  | sgt => b.slt a
  | sge => b.sle a
  | ult => a.ult b
  | ule => a.ule b
  | ugt => b.ult a
  | uge => b.ule a

/-- A change of width, which has to go the way it says. -/
def CastOp.apply? {w : Nat} (op : CastOp) (a : BitVec w) (n : Nat) : Option (BitVec n) :=
  match op with
  | trunc => if n < w then some (a.setWidth n) else none
  | zext => if w < n then some (a.setWidth n) else none
  | sext => if w < n then some (a.signExtend n) else none
  | sitofp | uitofp | fpext | fptrunc => none

/-- The input of a phi from a block. There may be several, for edges side by side; they have to be the
same. -/
def inputFrom? (inputs : List (Val × BlockName)) (n : BlockName) : Option Val :=
  match inputs.filter (·.2 == n) with
  | [] => none
  | (x, _) :: more => if more.all (·.1 == x) then some x else none

/-- A running call: its function, its arguments, the results computed so far, the block it is in, and the
instructions of the block that are left. -/
structure Activation where
  function : Func
  args : List Arg
  results : Nat → Option Word := fun _ => none
  block : Block
  rest : List Inst

namespace Activation

/-- An operand where the text gives its type, that of words of a width; constants have no other. -/
def read? (a : Activation) (w : Nat) : Val → Option (BitVec w)
  | .const (.int _ n) => some (.ofInt w n)
  | .const _ => none
  | .param k t =>
    match a.args[k]? with
    | some (.word x) => if t = .int w then x.at? w else none
    | _ => none
  | .result id t => if t = .int w then (a.results id).bind (·.at? w) else none

/-- An operand where the text gives the type that it has itself. -/
def operand? (a : Activation) (x : Val) : Option Word :=
  match x.ty with
  | .int w => (a.read? w x).map (⟨w, ·⟩)
  | _ => none

/-- What an operation computes from its operands alone. -/
def value? (a : Activation) : Operation → Option Word
  | .binary op x y => do
    let m ← a.operand? x
    return ⟨m.width, ← op.apply? m.bits (← a.read? m.width y)⟩
  | .icmp p x y => do
    let m ← a.operand? x
    return .ofBool (p.holds m.bits (← a.read? m.width y))
  | .cast op x (.int n) => do
    let m ← a.operand? x
    return ⟨n, ← op.apply? m.bits n⟩
  | .select c x y => do
    let b ← (← a.operand? c).truth?
    let m ← a.operand? x
    let n ← a.operand? y
    if m.width = n.width then return if b then m else n else none
  | _ => none

/-- What is passed for an argument. -/
def arg? (l : Module) (a : Activation) : Val → Option Arg
  | .const (.textAddress g n) =>
    match l.globals[g]? with
    | some ⟨_, .text bytes⟩ => if bytes.length = n then some (.text bytes) else none
    | _ => none
  | x => (a.operand? x).map .word

/-- The result of an instruction, if it has one. -/
def record (a : Activation) (id : Nat) (x? : Option Word) : Activation :=
  match x? with
  | some x => { a with results := fun k => if k = id then some x else a.results k }
  | none => a

/-- The number and the value of a phi: its input from the block that control comes from. -/
def phi? (a : Activation) (i : Inst) : Option (Nat × Word) :=
  match i.op with
  | .phi (.int w) inputs => do return (i.id, ⟨w, ← a.read? w (← inputFrom? inputs a.block.name)⟩)
  | _ => none

end Activation

def Inst.isPhi (i : Inst) : Bool :=
  match i.op with
  | .phi .. => true
  | _ => false

/-- Goes to a block: its phis are read together, and then written. -/
def Activation.goto? (a : Activation) (target : BlockName) : Option Activation := do
  let b ← a.function.blocks.find? (·.name == target)
  let values ← (b.insts.takeWhile Inst.isPhi).mapM a.phi?
  return { a with
    block := b
    rest := b.insts.dropWhile Inst.isPhi
    results := fun k => (values.lookup k).or (a.results k) }

/-- A case of a switch over words of a width. -/
def caseBits? (w : Nat) : Const → Option (BitVec w)
  | .int k n => if k = w then some (.ofInt w n) else none
  | _ => none

/-- Words of global variables, by position; texts are none. -/
abbrev Memory := Nat → Option Word

/-- Memory before anything runs. -/
def Module.memory (l : Module) : Memory := fun k =>
  match l.globals[k]? with
  | some ⟨_, .const (.int w n)⟩ => some ⟨w, .ofInt w n⟩
  | _ => none

/-- Functions of the outside, by name: what one gives, if it comes back. -/
abbrev Outside (σ : Type) := String → List Arg → σ → Option (Option Word × σ)

/-- The memory, the call that runs, the calls that wait for it with the numbers of their instructions,
and the state of the outside. -/
structure State (σ : Type) where
  memory : Memory
  active : Activation
  callers : List (Nat × Activation)
  outside : σ

/-- What a step leads to: the outermost call may be over. -/
inductive Next (σ : Type) where
  | step (s : State σ)
  | returned (result : Option Word) (memory : Memory) (outside : σ)

section

variable {σ : Type}

/-- A result goes to the call that waits for it. -/
def give (result : Option Word) (memory : Memory) (outside : σ) : List (Nat × Activation) → Next σ
  | [] => .returned result memory outside
  | (id, a) :: callers => .step ⟨memory, a.record id result, callers, outside⟩

/-- Calls the function at a position of the module. -/
def invoke (l : Module) (out : Outside σ) (k : Nat) (args : List Arg) (memory : Memory) (outside : σ)
    (callers : List (Nat × Activation)) : Option (Next σ) := do
  let f ← l.functions[k]?
  if args.map Arg.ty ≠ f.params then none
  else match f.blocks with
    | [] =>
      let (result, outside) ← out f.name args outside
      if f.ret.gives result then return give result memory outside callers else none
    | b :: _ => return .step ⟨memory, { function := f, args, block := b, rest := b.insts }, callers, outside⟩

/-- What the end of a block does. -/
def State.leave (s : State σ) : Term → Option (Next σ)
  | .br target => do return .step { s with active := ← s.active.goto? target }
  | .condBr c yes no => do
    let b ← (← s.active.operand? c).truth?
    return .step { s with active := ← s.active.goto? (if b then yes else no) }
  | .switch x default cases => do
    let m ← s.active.operand? x
    let keys ← cases.mapM fun (c, target) => (caseBits? m.width c).map (·, target)
    if (keys.map (·.1)).Nodup then
      return .step { s with active := ← s.active.goto? ((keys.lookup m.bits).getD default) }
    else none
  | .ret none =>
    if s.active.function.ret = .void then some (give none s.memory s.outside s.callers) else none
  | .ret (some x) => do
    let m ← s.active.operand? x
    if s.active.function.ret = .int m.width then
      return give (some m) s.memory s.outside s.callers
    else none
  | .unreachable => none

/-- One instruction, or the end of a block. -/
def next (l : Module) (out : Outside σ) (s : State σ) : Option (Next σ) :=
  match s.active.rest with
  | [] => s.active.block.term.bind s.leave
  | i :: rest =>
    let a := { s.active with rest }
    match i.op with
    | .load t g => do
      let x ← s.memory g
      if t = .int x.width then return .step { s with active := a.record i.id x } else none
    | .store x g => do
      let m ← s.active.operand? x
      let old ← s.memory g
      if old.width = m.width then
        return .step { s with
          active := a
          memory := fun k => if k = g then some m else s.memory k }
      else none
    | .call k ret xs => do
      let args ← xs.mapM (s.active.arg? l)
      let f ← l.functions[k]?
      if f.ret = ret then invoke l out k args s.memory s.outside ((i.id, a) :: s.callers) else none
    | op => do return .step { s with active := a.record i.id (← s.active.value? op) }

/-- So many steps. -/
def run (l : Module) (out : Outside σ) : Nat → Next σ → Option (Next σ)
  | 0, n => some n
  | steps + 1, .step s => (next l out s).bind (run l out steps)
  | _ + 1, .returned .. => none

/-- The call of a function of the outside that comes next, if one does: its name and its arguments. -/
def State.call? (l : Module) (s : State σ) : Option (String × List Arg) :=
  match s.active.rest with
  | ⟨_, .call k ret xs⟩ :: _ => do
    let args ← xs.mapM (s.active.arg? l)
    let f ← l.functions[k]?
    if f.blocks = [] ∧ f.ret = ret ∧ args.map Arg.ty = f.params then return (f.name, args) else none
  | _ => none

end

end TieredEngine.Llvm
