import TieredEngine.Text.Encoding

/-!
The bytes before an instruction. Some change the operands, some choose among instructions of one
opcode, and some are only hints; a listing names those that the text of the instruction does not
imply.
-/
namespace TieredEngine.Native.X64
open TieredEngine

inductive MarkKind where
  | byte (b : UInt8)
  | data16 | addr32
  /-- A conditional jump is predicted not to be taken, or to be taken. -/
  | notTaken | taken
  | bound | acquire | release
  deriving DecidableEq, Repr

structure Mark where
  kind : MarkKind
  /-- The text of the instruction shows what the byte does. -/
  implied : Bool := false
  deriving DecidableEq, Repr

/-- The byte that stands for a mark. -/
def MarkKind.code : MarkKind → UInt8
  | byte b => b
  | data16 => 0x66
  | addr32 => 0x67
  | notTaken => 0x2E
  | taken => 0x3E
  | bound | acquire => 0xF2
  | release => 0xF3

/-- Names of single bytes. -/
def markNames : List (Nat × String) := [
  (0xF0, "LOCK"), (0xF2, "REPN"), (0xF3, "REP"), (0x26, "ES"), (0x2E, "CS"), (0x36, "SS"),
  (0x3E, "DS"), (0x64, "FS"), (0x65, "GS"), (0x66, "DATASIZE"), (0x67, "ADDRSIZE"), (0x40, "REX")]

/-- A bit of a byte, counted from the lowest. -/
def bit (b : UInt8) (k : Nat) : Bool := b.toNat / Nat.pow 2 k % 2 == 1

private def letterIf (c : Bool) (s : String) : String := if c then s else ""

def MarkKind.name : MarkKind → String
  | byte b =>
    match markNames.lookup b.toNat with
    | some name => name
    | none =>
      if b.toNat / 16 = 4 then
        "REX." ++ letterIf (bit b 3) "W" ++ letterIf (bit b 2) "R" ++ letterIf (bit b 1) "X" ++
          letterIf (bit b 0) "B"
      else s!"Prefix({Text.hexMarked b.toNat})"
  | data16 => "DATA16"
  | addr32 => "ADDR32"
  | notTaken => "PN"
  | taken => "PT"
  | bound => "BND"
  | acquire => "XACQUIRE"
  | release => "XRELEASE"

/-- The mark of a byte before an instruction. -/
def MarkKind.ofByte (b : UInt8) : MarkKind :=
  if b = 0x66 then .data16 else if b = 0x67 then .addr32 else .byte b

/-- The long prefix of vector instructions, of two or three bytes. -/
inductive Vex where
  | absent
  | two (b : UInt8)
  | three (b c : UInt8)
  deriving DecidableEq, Repr

/-- What was found before an instruction: every byte in order, and the places of those that count,
the last of each group. -/
structure Marks where
  all : List Mark := []
  lock : Option Nat := none
  repeats : Option (Nat × UInt8) := none
  segment : Option Nat := none
  data : Option Nat := none
  address : Option Nat := none
  /-- The byte that widens operands and extends register numbers. -/
  rex : Option UInt8 := none
  vex : Vex := .absent
  deriving DecidableEq, Repr

namespace Marks

def push (m : Marks) (b : UInt8) : Marks := { m with all := m.all ++ [⟨.ofByte b, false⟩] }

def isRex (b : UInt8) : Bool := b.toNat / 16 == 4

/-- Takes the bytes of the five groups off the front. -/
def readGroups (m : Marks) : List UInt8 → Marks × List UInt8
  | [] => (m, [])
  | b :: rest =>
    let here := some m.all.length
    let m' := m.push b
    if b = 0xF0 then readGroups { m' with lock := here } rest
    else if b = 0xF2 || b = 0xF3 then readGroups { m' with repeats := some (m.all.length, b) } rest
    else if b = 0x26 || b = 0x2E || b = 0x36 || b = 0x3E then readGroups m' rest
    else if b = 0x64 || b = 0x65 then readGroups { m' with segment := here } rest
    else if b = 0x66 then readGroups { m' with data := here } rest
    else if b = 0x67 then readGroups { m' with address := here } rest
    else (m, b :: rest)

/-- A long prefix can stand only at the start. -/
def readVex : List UInt8 → Marks × List UInt8
  | 0xC5 :: b :: rest => ({ all := [⟨.byte 0xC5, false⟩, ⟨.byte b, false⟩], vex := .two b }, rest)
  | 0xC4 :: b :: c :: rest =>
    ({ all := [⟨.byte 0xC4, false⟩, ⟨.byte b, false⟩, ⟨.byte c, false⟩], vex := .three b c }, rest)
  | bytes => ({}, bytes)

/-- Takes all bytes before the opcode off the front. -/
def read (bytes : List UInt8) : Marks × List UInt8 :=
  let (m, rest) := readVex bytes
  let (m, rest) := readGroups m rest
  match rest with
  | b :: more =>
    if isRex b && m.vex == .absent then ({ m.push b with rex := some b }, more) else (m, rest)
  | [] => (m, [])

def rexBit (m : Marks) (k : Nat) : Bool := m.rex.any (bit · k)

/-- How many bytes stand before the opcode, the one that widens operands apart. -/
def groupCount (m : Marks) : Nat := m.all.length - (if m.rex.isSome then 1 else 0)

/-- Whether the base register, or that of an index, has a number above seven. -/
def extendsBase (m : Marks) : Bool :=
  m.rexBit 0 || match m.vex with
    | .three b _ => !bit b 5
    | _ => false

def extendsIndex (m : Marks) : Bool :=
  m.rexBit 1 || match m.vex with
    | .three b _ => !bit b 6
    | _ => false

/-- The opcode map that a long prefix names. -/
def vexMap (m : Marks) : Nat :=
  match m.vex with
  | .three b _ => b.toNat % 4
  | _ => 1

/-- What a long prefix says in place of the bytes 66, F3 and F2. -/
def vexChoice (m : Marks) : Nat :=
  match m.vex with
  | .two b => b.toNat % 4
  | .three _ c => c.toNat % 4
  | .absent => 0

end Marks

/-- Bits of the byte that widens operands. -/
inductive RexBit where
  | w | r | x | b
  deriving DecidableEq, Repr

def RexBit.code : RexBit → UInt8
  | w => 8
  | r => 4
  | x => 2
  | b => 1

end TieredEngine.Native.X64
