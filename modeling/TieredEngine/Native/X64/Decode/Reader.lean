import TieredEngine.Native.X64.Decode.Mark
import TieredEngine.Native.X64.Reg

/-!
Reading an instruction after its prefixes. An opcode leads to a choice by operand size, by prefix,
by the digit or the kind of the operand byte, and in the end to a name and the forms of its
operands. All bytes of an instruction are read before its operands are judged.
-/
namespace TieredEngine.Native.X64

inductive DecodeError where
  | truncated | unrecognized
  deriving DecidableEq, Repr

def DecodeError.message : DecodeError → String
  | .truncated => "truncated instruction"
  | .unrecognized => "unrecognized instruction"

/-- A place in memory: a base, a scaled index and a distance. A scale may stand without an index. -/
structure Mem where
  base : Option Register := none
  index : Option (Nat × Option Register) := none
  disp : Int64 := 0
  deriving DecidableEq, Repr

inductive Operand where
  | reg (r : Register)
  | mem (m : Mem)
  | imm (v : Int64)
  | rel (v : Int32)
  deriving DecidableEq, Repr

def Operand.isMem : Operand → Bool
  | .mem _ => true
  | _ => false

/-- A name with its operands. -/
structure Body where
  mnemonic : String
  args : List Operand := []
  deriving DecidableEq, Repr

namespace Decode

/-- What the byte after the opcode says. -/
structure ModRm where
  byte : UInt8
  /-- Number of a register, or a digit that belongs to the opcode. -/
  reg : Nat
  rm : Nat
  /-- The place in memory, unless `rm` is a register. -/
  mem : Option Mem
  deriving DecidableEq, Repr

/-- State of a reader: the bytes left, the number of those read, and which prefixes have shown
their effect. -/
structure State where
  rest : List UInt8
  used : Nat
  marks : List Mark
  rexUsed : UInt8 := 0
  modRm : Option ModRm := none
  deriving DecidableEq, Repr

abbrev Reader := ReaderT Marks (StateT State (Except DecodeError))

def fail {α : Type} : Reader α := throw .unrecognized

def byte : Reader UInt8 := do
  let s ← get
  match s.rest with
  | [] => throw .truncated
  | b :: rest =>
    set { s with rest, used := s.used + 1 }
    return b

/-- So many bytes as one number, the lowest byte first. -/
def number : Nat → Reader Nat
  | 0 => return 0
  | n + 1 => do
    let low ← byte
    return low.toNat + 256 * (← number n)

/-- The text of the instruction shows the effect of the prefix at a place. -/
def imply (place : Option Nat) : Reader Unit :=
  match place with
  | none => return
  | some i => modify fun s => { s with marks := s.marks.modify i ({ · with implied := true }) }

/-- A bit of the widening prefix had an effect. -/
def useRex (b : UInt8) : Reader Unit := modify fun s => { s with rexUsed := s.rexUsed ||| b }

/-- Operands are 32 bits wide unless a prefix says 64 or 16. -/
def size : Reader Width := do
  let m ← read
  return if m.rexBit 3 then .qword else if m.data.isSome then .word else .dword

/-- Chooses by the width of operands. -/
def bySize {α : Type} (word dword qword : Reader α) : Reader α := do
  match ← size with
  | .qword =>
    useRex RexBit.w.code
    qword
  | .word =>
    imply (← read).data
    word
  | _ =>
    imply (← read).data
    dword

/-- Chooses by the width of addresses, 32 or 64 bits. -/
def byAddress {α : Type} (short long : Reader α) : Reader α := do
  let m ← read
  if m.address.isSome then
    imply m.address
    short
  else long

/-- Prefixes that choose among instructions of one opcode. -/
inductive Need where
  | f3 | f2 | x66 | plain
  deriving DecidableEq, Repr

/-- Whether a choice applies. Under a long prefix its own field decides. -/
def Need.met (m : Marks) (need : Need) : Bool :=
  match need with
  | .plain => true
  | .f3 => if m.vex == .absent then m.repeats.any (·.2 == 0xF3) else m.vexChoice == 2
  | .f2 => if m.vex == .absent then m.repeats.any (·.2 == 0xF2) else m.vexChoice == 3
  | .x66 => if m.vex == .absent then m.data.isSome else m.vexChoice == 1

/-- The first choice that applies. A repeat prefix without a choice of its own rules out 66. -/
def pick {α : Type} (m : Marks) : List (Need × α) → Option (Need × α)
  | [] => none
  | (need, a) :: rest =>
    if need == .x66 && m.vex == .absent && m.repeats.isSome then none
    else if need.met m then some (need, a)
    else pick m rest

/-- Chooses by prefix. -/
def byPrefix {α : Type} (rows : List (Need × Reader α)) : Reader α := do
  let m ← read
  match pick m rows with
  | none => fail
  | some (need, next) =>
    if m.vex == .absent then
      match need with
      | .f3 | .f2 => imply (m.repeats.map Prod.fst)
      | .x66 => imply m.data
      | .plain => pure ()
    next

/-- Chooses by the long prefix. -/
def byVex {α : Type} (two three plain : Reader α) : Reader α := do
  match (← read).vex with
  | .absent => plain
  | .two _ => two
  | .three .. => three

/-- Under a long prefix that names another opcode map there is no such instruction. -/
def inMap {α : Type} (map : Nat) (next : Reader α) : Reader α := do
  if (← read).vexMap = map then next else fail

/-- First general register of addresses. -/
def addressBase : Reader Register := do
  return if (← read).address.isSome then .eax else .rax

def distance32 : Reader Int64 := return Int64.ofNat (← number 4)

def distance8 : Reader Int64 := return (← byte).toInt8.toInt64

/-- Distance after the operand byte. -/
def distance (mode : Nat) (absolute : Bool) : Reader Int64 :=
  if mode = 2 || absolute then distance32
  else if mode = 1 then distance8
  else return 0

/-- The number of a register with its fourth bit, which a prefix holds. -/
def extended (is : Bool) (bit : RexBit) (n : Nat) : Reader Nat := do
  if is then
    useRex bit.code
    return n + 8
  else return n

/-- Memory with an index: a further byte holds the scale, the index and the base. -/
def scaled (mode : Nat) : Reader Mem := do
  let m ← read
  let first ← addressBase
  let s := (← byte).toNat
  let base ← extended m.extendsBase .b (s % 8)
  let index ← extended m.extendsIndex .x (s / 8 % 8)
  let absolute := mode == 0 && s % 8 == 5
  return {
    base := if absolute then none else some (first.add base)
    index := some (Nat.pow 2 (s / 64), if index = 4 then none else some (first.add index))
    disp := ← distance mode absolute }

/-- Reads the operand byte with what belongs to it, once. -/
def modRm : Reader ModRm := do
  match (← get).modRm with
  | some m => return m
  | none =>
    let marks ← read
    let b ← byte
    let mode := b.toNat / 64
    let reg ← extended (marks.rexBit 2) .r (b.toNat / 8 % 8)
    let low := b.toNat % 8
    let m ← if low = 4 && mode ≠ 3 then
        pure { byte := b, reg, rm := low, mem := some (← scaled mode) : ModRm }
      else do
        let rm ← extended marks.extendsBase .b low
        if mode = 3 then pure { byte := b, reg, rm, mem := none : ModRm }
        else
          let first ← addressBase
          let relative := mode == 0 && low == 5
          let disp ← distance mode relative
          let base := if relative then if marks.address.isSome then .eip else .rip
            else first.add rm
          pure { byte := b, reg, rm, mem := some { base := some base, disp } : ModRm }
    modify ({ · with modRm := some m })
    return m

/-- Chooses by the digit in the operand byte. -/
def byDigit {α : Type} (row : Nat → Reader α) : Reader α := do
  row ((← modRm).byte.toNat / 8 % 8)

/-- Chooses by whether the operand byte names memory. -/
def byMemory {α : Type} (register memory : Reader α) : Reader α := do
  match (← get).rest with
  | [] => throw .truncated
  | b :: _ => if b.toNat / 64 = 3 then register else memory

/-- Takes the next byte if it stands for an instruction of its own, else goes on before it. -/
def byNext {α : Type} (special : Nat → Option (Reader α)) (others : Reader α) : Reader α := do
  match (← get).rest with
  | [] => throw .truncated
  | b :: _ =>
    match special b.toNat with
    | some next =>
      let _ ← byte
      next
    | none => others

/-- Classes of registers. -/
inductive Class where
  | general (w : Width)
  | mm | xmm | segment | control | debug | test
  deriving DecidableEq, Repr

def Class.first : Class → Register
  | general .byte => .al
  | general .word => .ax
  | general .dword => .eax
  | general .qword => .rax
  | mm => .mm0
  | xmm => .xmm0
  | segment => .es
  | control => .cr0
  | debug => .dr0
  | test => .tr0

/-- How an instruction gives an operand. -/
inductive Form where
  | const (v : Int64)
  | fixed (r : Register)
  | imm8 | imm8u | imm16 | imm16u | imm32 | imm64
  | rel8 | rel16 | rel32
  /-- Memory at an address that stands in the instruction. -/
  | address
  | mem
  /-- The register that the operand byte names first. -/
  | reg (c : Class)
  | regOrMem (c : Class)
  /-- As above, but memory is refused. -/
  | regOnly (c : Class)
  /-- As above, but memory is taken for a register. -/
  | regForced (c : Class)
  /-- The register in the low bits of the opcode. -/
  | inOpcode (c : Class) (n : Nat)
  /-- A register of the floating-point stack. -/
  | stack (n : Nat)
  | wide
  | wideOrMem
  deriving DecidableEq, Repr

namespace Form

def usesModRm : Form → Bool
  | mem | reg _ | regOrMem _ | regOnly _ | regForced _ | wide | wideOrMem => true
  | _ => false

/-- Reads the bytes of a constant. -/
def fetch : Form → Reader Nat
  | imm8 | imm8u | rel8 => number 1
  | imm16 | imm16u | rel16 => number 2
  | imm32 | rel32 => number 4
  | imm64 => number 8
  | address => do if (← read).address.isSome then number 4 else number 8
  | _ => return 0

end Form

/-- A register by its distance from the first of its class. Byte registers 4 to 7 are second bytes
unless the widening prefix is there. -/
def register (c : Class) (n : Nat) : Reader Operand := do
  if c == .general .byte && 4 ≤ n && (← read).rex.isSome then
    useRex 0x40
    return .reg (Register.spb.add (n - 4))
  else return .reg (c.first.add n)

/-- The register that the operand byte names first. -/
def firstRegister (c : Class) (n : Nat) : Reader Operand := do
  match c with
  | .mm | .test => return .reg (c.first.add (n % 8))
  | .control =>
    let m ← read
    imply m.lock
    return .reg (c.first.add (if m.lock.isSome then n + 8 else n))
  | .segment => if n % 8 < 6 then return .reg (c.first.add (n % 8)) else fail
  | _ => register c n

/-- The register that the operand byte names in place of memory. -/
def secondRegister (c : Class) (n : Nat) : Reader Operand :=
  if c == .mm then return .reg (c.first.add (n % 8)) else register c n

/-- The bit of a long prefix that extends the first register is stored inverted. -/
def wideFirst (m : Marks) : Bool :=
  match m.vex with
  | .two b | .three b _ => !bit b 7
  | .absent => false

def wideSecond (m : Marks) : Bool :=
  match m.vex with
  | .three b _ => bit b 6
  | _ => false

/-- The operand of a form, given the constant that was read for it. -/
def operand (f : Form) (v : Nat) : Reader Operand := do
  match f with
  | .const c => return .imm c
  | .fixed r => return .reg r
  | .imm8 => return .imm (UInt8.ofNat v).toInt8.toInt64
  | .imm8u | .imm16u => return .imm (Int64.ofNat v)
  | .imm16 => return .imm (UInt16.ofNat v).toInt16.toInt64
  | .imm32 => return .imm (UInt32.ofNat v).toInt32.toInt64
  | .imm64 => return .imm (UInt64.ofNat v).toInt64
  | .rel8 => return .rel (UInt8.ofNat v).toInt8.toInt32
  | .rel16 => return .rel (UInt16.ofNat v).toInt16.toInt32
  | .rel32 => return .rel (UInt32.ofNat v).toInt32
  | .address =>
    imply (← read).segment
    return .mem { disp := (UInt64.ofNat v).toInt64 }
  | .mem =>
    match (← modRm).mem with
    | some m => return .mem m
    | none => fail
  | .reg c => firstRegister c (← modRm).reg
  | .regOrMem c =>
    match ← modRm with
    | ⟨_, _, _, some m⟩ => return .mem m
    | ⟨_, _, rm, none⟩ => secondRegister c rm
  | .regOnly c =>
    match ← modRm with
    | ⟨_, _, _, some _⟩ => fail
    | ⟨_, _, rm, none⟩ => secondRegister c rm
  | .regForced c =>
    let n ← extended ((← read).rexBit 0) .b ((← modRm).byte.toNat % 8)
    return .reg (c.first.add n)
  | .inOpcode c n => register c (← extended ((← read).rexBit 0) .b n)
  | .stack n => return .reg (Register.st0.add n)
  | .wide => return .reg (Register.xmm0.add ((← modRm).reg + if wideFirst (← read) then 8 else 0))
  | .wideOrMem =>
    match ← modRm with
    | ⟨_, _, _, some m⟩ => return .mem m
    | ⟨_, _, rm, none⟩ =>
      return .reg (Register.xmm0.add (rm + if wideSecond (← read) then 8 else 0))

/-- An instruction with operands of the given forms. -/
def inst (mnemonic : String) (forms : List Form) : Reader Body := do
  if forms.any Form.usesModRm then let _ ← modRm
  let constants ← forms.mapM Form.fetch
  let args ← (forms.zip constants).mapM fun (f, v) => operand f v
  return ⟨mnemonic, args⟩

/-- An instruction whose forms depend on the width of operands. -/
def sized (mnemonic : String) (forms : Width → List Form) : Reader Body :=
  bySize (inst mnemonic (forms .word)) (inst mnemonic (forms .dword)) (inst mnemonic (forms .qword))

/-- A constant for operands of a width; at most 32 bits are stored. -/
def immFor : Width → Form
  | .byte => .imm8u
  | .word => .imm16
  | _ => .imm32

/-- The register of the accumulator of a width. -/
def accumulator (w : Width) : Form := .fixed (Class.general w).first

abbrev r8 : Form := .reg (.general .byte)
abbrev r32 : Form := .reg (.general .dword)
abbrev rm8 : Form := .regOrMem (.general .byte)
abbrev rm16 : Form := .regOrMem (.general .word)
abbrev rm32 : Form := .regOrMem (.general .dword)
abbrev rm64 : Form := .regOrMem (.general .qword)

def reg (w : Width) : Form := .reg (.general w)

def regMem (w : Width) : Form := .regOrMem (.general w)

end Decode

end TieredEngine.Native.X64
