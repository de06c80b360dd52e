import TieredEngine.Native.X64.Reg

/-!
The instructions that generated code consists of, and their bytes. An instruction is generic in how
a jump names its target: while code is written targets are labels, in finished code they are
distances from the end of the jump.
-/
namespace TieredEngine.Native.X64

/-- Operations that read two registers and write the first, or only compare them. -/
inductive Alu where
  | mov | add | sub | and | or | xor | cmp | test
  deriving DecidableEq, Repr

/-- Moves that widen the low part of a register, with its sign or with zeros. -/
inductive Widen where
  | signed8 | signed16 | signed32 | zero8 | zero16
  deriving DecidableEq, Repr

/-- Shifts by the count in the low byte of `rcx`. -/
inductive Shift where
  | shl | shr | sar
  deriving DecidableEq, Repr

inductive Instr (τ : Type) where
  | push (r : Reg)
  | pop (r : Reg)
  | subRsp (n : Int32)
  | ret
  | ud2
  | alu (op : Alu) (dst src : Reg)
  | movImm (r : Reg) (imm : UInt64)
  /-- Reads eight bytes at `rbp + disp`. -/
  | load (r : Reg) (disp : Int32)
  /-- Writes eight bytes at `rbp + disp`. -/
  | store (disp : Int32) (r : Reg)
  | widen (w : Widen) (dst src : Reg)
  /-- Moves the low half and clears the high one. -/
  | mov32 (dst src : Reg)
  | imul (dst src : Reg)
  | andImm (r : Reg) (imm : Int8)
  | xorImm (r : Reg) (imm : Int8)
  | neg (r : Reg)
  | not (r : Reg)
  | shift (s : Shift) (r : Reg)
  /-- Sets the low byte. Only the first four registers have their own low byte here. -/
  | setcc (c : Cond) (r : Reg)
  | cmov (c : Cond) (dst src : Reg)
  | jmp (target : τ)
  | jcc (c : Cond) (target : τ)
  deriving DecidableEq, Repr

def Alu.opcode : Alu → UInt8
  | .mov => 0x89
  | .add => 0x01
  | .sub => 0x29
  | .and => 0x21
  | .or => 0x09
  | .xor => 0x31
  | .cmp => 0x39
  | .test => 0x85

def Widen.opcode : Widen → List UInt8
  | .signed8 => [0x0F, 0xBE]
  | .signed16 => [0x0F, 0xBF]
  | .signed32 => [0x63]
  | .zero8 => [0x0F, 0xB6]
  | .zero16 => [0x0F, 0xB7]

/-- Number of the shift within its group of instructions. -/
def Shift.digit : Shift → UInt8
  | .shl => 4
  | .shr => 5
  | .sar => 7

/-- Least significant byte first. -/
def bytes32 (w : UInt32) : List UInt8 :=
  [w.toUInt8, (w >>> 8).toUInt8, (w >>> 16).toUInt8, (w >>> 24).toUInt8]

/-- Least significant byte first. -/
def bytes64 (w : UInt64) : List UInt8 := bytes32 w.toUInt32 ++ bytes32 (w >>> 32).toUInt32

/-- Prefix that asks for 64-bit operands and carries the high bits of both registers. -/
def wideFor (reg rm : Reg) : UInt8 := (0x48 : UInt8) ||| (reg.high <<< 2) ||| rm.high

def modRm (mode reg rm : UInt8) : UInt8 := (mode <<< 6) ||| ((reg &&& 7) <<< 3) ||| (rm &&& 7)

namespace Instr

/-- Two registers with 64-bit operands. -/
def registers (reg rm : Reg) (op : List UInt8) : List UInt8 :=
  wideFor reg rm :: (op ++ [modRm 3 reg.low rm.low])

/-- One register; the operation is chosen by a digit in place of the other register. -/
def grouped (digit : UInt8) (rm : Reg) (op : UInt8) : List UInt8 :=
  [wideFor .rax rm, op, modRm 3 digit rm.low]

/-- A register and the eight bytes at `rbp + disp`. -/
def frameAccess (op : UInt8) (r : Reg) (disp : Int32) : List UInt8 :=
  [wideFor r .rbp, op, modRm 2 r.low Reg.rbp.low] ++ bytes32 disp.toUInt32

def extended (r : Reg) : List UInt8 := if r.isExtended then [0x41] else []

def encode : Instr Int32 → List UInt8
  | push r => extended r ++ [0x50 + r.low]
  | pop r => extended r ++ [0x58 + r.low]
  | subRsp n => [0x48, 0x81, modRm 3 5 Reg.rsp.low] ++ bytes32 n.toUInt32
  | ret => [0xC3]
  | ud2 => [0x0F, 0x0B]
  | alu op dst src => registers src dst [op.opcode]
  | movImm r imm => [wideFor .rax r, 0xB8 + r.low] ++ bytes64 imm
  | load r disp => frameAccess 0x8B r disp
  | store disp r => frameAccess 0x89 r disp
  | widen w dst src => registers dst src w.opcode
  | mov32 dst src =>
    (if dst.isExtended || src.isExtended then [(0x40 : UInt8) ||| (dst.high <<< 2) ||| src.high]
      else []) ++
      [0x8B, modRm 3 dst.low src.low]
  | imul dst src => registers dst src [0x0F, 0xAF]
  | andImm r imm => grouped 4 r 0x83 ++ [imm.toUInt8]
  | xorImm r imm => grouped 6 r 0x83 ++ [imm.toUInt8]
  | neg r => grouped 3 r 0xF7
  | not r => grouped 2 r 0xF7
  | shift s r => grouped s.digit r 0xD3
  | setcc c r => [0x0F, 0x90 + c.code, modRm 3 0 r.low]
  | cmov c dst src => registers dst src [0x0F, 0x40 + c.code]
  | jmp rel => 0xE9 :: bytes32 rel.toUInt32
  | jcc c rel => [0x0F, 0x80 + c.code] ++ bytes32 rel.toUInt32

/-- The instruction with another name for its target, if it is a jump. -/
def mapTarget {σ τ : Type} (f : σ → τ) : Instr σ → Instr τ
  | push r => push r
  | pop r => pop r
  | subRsp n => subRsp n
  | ret => ret
  | ud2 => ud2
  | alu op dst src => alu op dst src
  | movImm r imm => movImm r imm
  | load r disp => load r disp
  | store disp r => store disp r
  | widen w dst src => widen w dst src
  | mov32 dst src => mov32 dst src
  | imul dst src => imul dst src
  | andImm r imm => andImm r imm
  | xorImm r imm => xorImm r imm
  | neg r => neg r
  | not r => not r
  | shift s r => shift s r
  | setcc c r => setcc c r
  | cmov c dst src => cmov c dst src
  | jmp l => jmp (f l)
  | jcc c l => jcc c (f l)

def target? {τ : Type} : Instr τ → Option τ
  | jmp l => some l
  | jcc _ l => some l
  | _ => none

/-- Number of bytes; it does not depend on where a jump goes. -/
def size {τ : Type} (i : Instr τ) : Nat := (i.mapTarget fun _ => (0 : Int32)).encode.length

end Instr

end TieredEngine.Native.X64
