import TieredEngine.Native.Convention
import TieredEngine.Native.X64.Decode

/-!
What machine code does. A machine has sixteen registers, the flags, and a stack of eight-byte words
that a caller lends to the code; code reads and writes no other memory. A call puts the argument
words into their registers, pushes a return address and runs from the first byte; it is over when
the return address is popped. Whatever the processor would leave undefined, and whatever it would
do outside the lent stack, stops the machine with a fault.
-/
namespace TieredEngine.Native.X64

/-- What conditional instructions ask of the last comparison: whether its sides were equal, whether
the left one was below the right one, and the same for signed numbers. -/
structure Flags where
  equal : Bool
  below : Bool
  less : Bool
  deriving DecidableEq, Repr

/-- Flags of a comparison of two words. -/
def Flags.ofCompare (a b : UInt64) : Flags := ⟨a == b, a < b, a.toInt64 < b.toInt64⟩

/-- Flags of a word that came from a logical operation: a comparison with zero. -/
def Flags.ofWord (w : UInt64) : Flags := ofCompare w 0

def Cond.holds (f : Flags) : Cond → Bool
  | .b => f.below
  | .ae => !f.below
  | .e => f.equal
  | .ne => !f.equal
  | .be => f.below || f.equal
  | .a => !(f.below || f.equal)
  | .l => f.less
  | .ge => !f.less
  | .le => f.less || f.equal
  | .g => !(f.less || f.equal)

/-- Bytes of the stack that a caller lends. -/
def stackBytes : Nat := 16384

/-- Distance of the first stack pointer from the bottom of the stack. -/
def stackTop : Nat := 16320

/-- Address of the bottom of the stack. -/
def stackBase : UInt64 := 0x7F0000000000

/-- The return address of the outermost call. -/
def returnAddress : UInt64 := 0x7E0000000000

structure State where
  /-- Registers by number. -/
  regs : Array UInt64
  /-- Absent after an instruction that leaves flags undefined. -/
  flags : Option Flags := none
  /-- Words of the stack, the bottom one first. -/
  stack : Array UInt64
  /-- Offset of the next instruction in the code. -/
  ip : Nat := 0
  deriving DecidableEq, Repr

namespace State

def get (s : State) (r : Reg) : UInt64 := s.regs[r.code]?.getD 0

def set (s : State) (r : Reg) (w : UInt64) : State :=
  { s with regs := s.regs.setIfInBounds r.code w }

def withFlags (s : State) (f : Flags) : State := { s with flags := some f }

def dropFlags (s : State) : State := { s with flags := none }

/-- Position in the stack of the word at an address. -/
def wordAt? (s : State) (addr : UInt64) : Option Nat :=
  let d := (addr - stackBase).toNat
  if d % 8 = 0 && d / 8 < s.stack.size then some (d / 8) else none

/-- The word at a position of the stack. -/
def stackWord (s : State) (i : Nat) : UInt64 := s.stack[i]?.getD 0

def setStackWord (s : State) (i : Nat) (w : UInt64) : State :=
  { s with stack := s.stack.setIfInBounds i w }

end State

def Alu.result (op : Alu) (a b : UInt64) : UInt64 :=
  match op with
  | .mov => b
  | .add => a + b
  | .sub | .cmp => a - b
  | .and | .test => a &&& b
  | .or => a ||| b
  | .xor => a ^^^ b

/-- Whether the result goes to the first register. -/
def Alu.writes : Alu → Bool
  | .cmp | .test => false
  | _ => true

/-- Flags after the operation, given those before. -/
def Alu.flags (op : Alu) (old : Option Flags) (a b : UInt64) : Option Flags :=
  match op with
  | .mov => old
  | .add => none
  | .sub | .cmp => some (.ofCompare a b)
  | .and | .or | .xor | .test => some (.ofWord (op.result a b))

def Widen.apply (w : Widen) (x : UInt64) : UInt64 :=
  match w with
  | .signed8 => x.toInt64.toInt8.toInt64.toUInt64
  | .signed16 => x.toInt64.toInt16.toInt64.toUInt64
  | .signed32 => x.toInt64.toInt32.toInt64.toUInt64
  | .zero8 => x &&& 0xFF
  | .zero16 => x &&& 0xFFFF

/-- The count is taken modulo the width. -/
def Shift.apply (s : Shift) (x count : UInt64) : UInt64 :=
  match s with
  | .shl => x <<< count
  | .shr => x >>> count
  | .sar => (x.toInt64 >>> count.toInt64).toUInt64

/-- How a run of machine code ends. -/
inductive Stop where
  | returned
  /-- An instruction that exists to stop the program. -/
  | trapped
  | faulted
  deriving DecidableEq, Repr

/-- One instruction's work: the next state, or the end of the run with the last state. -/
abbrev Step := Except (Stop × State) State

/-- Reads the word at an address into a register. -/
def State.load (s : State) (r : Reg) (addr : UInt64) : Step :=
  match s.wordAt? addr with
  | some i => .ok (s.set r (s.stackWord i))
  | none => .error (.faulted, s)

/-- Writes a word at an address. -/
def State.store (s : State) (addr w : UInt64) : Step :=
  match s.wordAt? addr with
  | some i => .ok (s.setStackWord i w)
  | none => .error (.faulted, s)

/-- Takes the word that the stack pointer points to. -/
def State.pop (s : State) : Except (Stop × State) (UInt64 × State) :=
  let sp := s.get .rsp
  match s.wordAt? sp with
  | some i => .ok (s.stackWord i, s.set .rsp (sp + 8))
  | none => .error (.faulted, s)

/-- Moves the stack pointer down and puts a word there. -/
def State.push (s : State) (w : UInt64) : Step :=
  let sp := s.get .rsp - 8
  (s.set .rsp sp).store sp w

/-- The address of a byte on the frame that `rbp` points to. -/
def frameAddress (s : State) (disp : Int32) : UInt64 := s.get .rbp + disp.toInt64.toUInt64

/-- Goes to a distance from the next instruction. -/
def State.jump (s : State) (distance : Int32) : Step :=
  match (s.ip : Int) + distance.toInt with
  | .ofNat ip => .ok { s with ip }
  | .negSucc _ => .error (.faulted, s)

/-- Runs one instruction; `ip` is already the end of it. -/
def Instr.step (s : State) : Instr Int32 → Step
  | push r => s.push (s.get r)
  | pop r => do
    let (w, s) ← s.pop
    return s.set r w
  | subRsp n =>
    let (a, b) := (s.get .rsp, n.toInt64.toUInt64)
    .ok ((s.set .rsp (a - b)).withFlags (.ofCompare a b))
  | ret => do
    let (w, s) ← s.pop
    throw (if w = returnAddress then .returned else .faulted, s)
  | ud2 => .error (.trapped, s)
  | alu op dst src =>
    let (a, b) := (s.get dst, s.get src)
    let t := { s with flags := op.flags s.flags a b }
    .ok (if op.writes then t.set dst (op.result a b) else t)
  | movImm r imm => .ok (s.set r imm)
  | load r disp => s.load r (frameAddress s disp)
  | store disp r => s.store (frameAddress s disp) (s.get r)
  | widen w dst src => .ok (s.set dst (w.apply (s.get src)))
  | mov32 dst src => .ok (s.set dst (s.get src &&& 0xFFFFFFFF))
  | imul dst src => .ok (s.set dst (s.get dst * s.get src)).dropFlags
  | andImm r imm =>
    let w := s.get r &&& imm.toInt64.toUInt64
    .ok ((s.set r w).withFlags (.ofWord w))
  | xorImm r imm =>
    let w := s.get r ^^^ imm.toInt64.toUInt64
    .ok ((s.set r w).withFlags (.ofWord w))
  | neg r =>
    let w := s.get r
    .ok ((s.set r (0 - w)).withFlags (.ofCompare 0 w))
  | not r => .ok (s.set r (s.get r ^^^ 0xFFFFFFFFFFFFFFFF))
  | shift k r => .ok (s.set r (k.apply (s.get r) (s.get .rcx))).dropFlags
  | setcc c r =>
    match s.flags with
    | none => .error (.faulted, s)
    | some f =>
      let low : UInt64 := if c.holds f then 1 else 0
      .ok (s.set r ((s.get r &&& 0xFFFFFFFFFFFFFF00) ||| low))
  | cmov c dst src =>
    match s.flags with
    | none => .error (.faulted, s)
    | some f => .ok (if c.holds f then s.set dst (s.get src) else s)
  | jmp d => s.jump d
  | jcc c d =>
    match s.flags with
    | none => .error (.faulted, s)
    | some f => if c.holds f then s.jump d else .ok s

/-- The instruction that starts at each offset of the code, with its length. -/
abbrev Program := Array (Option (Instr Int32 × Nat))

/-- The instruction at the front of some bytes. -/
def instrAt (bytes : List UInt8) : Option (Instr Int32 × Nat) :=
  match decode bytes with
  | .ok (d, n) => d.instr?.map (·, n)
  | .error _ => none

/-- Reads the code at every offset. -/
def Program.ofBytes (bytes : List UInt8) : Program :=
  let rec from' : List UInt8 → Program → Program
    | [], acc => acc
    | b :: rest, acc => from' rest (acc.push (instrAt (b :: rest)))
  from' bytes #[]

def Program.step (p : Program) (s : State) : Step :=
  match p[s.ip]? with
  | some (some (i, n)) => i.step { s with ip := s.ip + n }
  | _ => .error (.faulted, s)

/-- Runs until the code stops; nothing if the fuel does not suffice. -/
def Program.run (p : Program) : Nat → State → Option (Stop × State)
  | 0, _ => none
  | fuel + 1, s =>
    match p.step s with
    | .ok s => run p fuel s
    | .error e => some e

/-- The state in which a call starts that a caller makes with these argument words: the words are put
into their registers, the return address is pushed, and control goes to the first byte. The other
registers, the flags and the rest of the stack are as the caller has them. -/
def State.calling (caller : State) (words : Convention.Words) : State :=
  let s := (Reg.arguments.zip words.ints.toList).foldl (fun s (r, w) => s.set r w) caller
  let sp := caller.get .rsp - 8
  { (s.set .rsp sp).setStackWord ((sp - stackBase).toNat / 8) returnAddress with ip := 0 }

/-- A caller that holds nothing but the stack that it lends. -/
def State.idle : State := {
  regs := (Array.replicate 16 0).setIfInBounds Reg.rsp.code (stackBase + UInt64.ofNat stackTop)
  stack := Array.replicate (stackBytes / 8) 0 }

/-- The state in which a call by an idle caller starts. -/
def State.ofCall (words : Convention.Words) : State := State.idle.calling words

/-- Calls the code from a state of the caller, with arguments placed by its convention. -/
def Program.callFrom (p : Program) (caller : State) (fuel : Nat) (words : Convention.Words) :
    Option (Stop × State) :=
  p.run fuel (caller.calling words)

/-- Calls the code from an idle caller. -/
def Program.call (p : Program) (fuel : Nat) (words : Convention.Words) : Option (Stop × State) :=
  p.callFrom .idle fuel words

end TieredEngine.Native.X64
