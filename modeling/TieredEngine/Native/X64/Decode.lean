import TieredEngine.Native.X64.Decode.Extended
import TieredEngine.Native.X64.Instr

/-!
Reading machine code: prefixes, opcode and operands of one instruction are taken off the front of a
list of bytes. An instruction that generated code can consist of is recognised in what was read.
-/
namespace TieredEngine.Native.X64

/-- An instruction as it is written in a listing. -/
structure Decoded where
  /-- Names of the prefixes that are written before it. -/
  prefixes : List String := []
  mnemonic : String
  args : List Operand := []
  deriving DecidableEq, Repr

namespace Decode

/-- No instruction has more bytes. -/
def maxLength : Nat := 15

/-- An instruction before its prefixes are judged. -/
structure Draft where
  body : Body
  /-- First byte of the opcode. -/
  opcode : UInt8
  marks : Marks
  state : State

namespace Draft

def imply (d : Draft) (place : Option Nat) : Draft :=
  match place with
  | none => d
  | some i =>
    let marks := d.state.marks.modify i ({ · with implied := true })
    { d with state := { d.state with marks } }

def mapMarks (d : Draft) (f : List Mark → List Mark) : Draft :=
  { d with state := { d.state with marks := f d.state.marks } }

def hasMem (d : Draft) : Bool := d.state.modRm.any (·.mem.isSome)

/-- An exchange of the accumulator with itself does nothing; repeated, it is a pause. -/
def nameIdle (d : Draft) : Draft :=
  if d.body.mnemonic != "XCHG" || d.opcode != 0x90 then d
  else if d.marks.repeats.any (·.2 == 0xF3) then
    { d.imply (d.marks.repeats.map Prod.fst) with body := ⟨"PAUSE", []⟩ }
  else if d.body.args.head?.any [.reg .rax, .reg .eax, .reg .ax].contains then
    let shown := d.mapMarks fun marks =>
      match d.marks.data with
      | some i => marks.modify i ({ · with implied := false })
      | none => marks
    { shown with body := ⟨"NOP", []⟩ }
  else d

/-- Operands of an instruction on strings: what it reads from, writes to and works with. -/
inductive StringArg where
  /-- Memory at the source index; another segment can be chosen for it. -/
  | source
  | target
  /-- Memory at the base register; another segment can be chosen for it. -/
  | table
  | fixed (r : Register)
  deriving DecidableEq, Repr

def stringArgs (name : String) : List StringArg :=
  let acc : List (String × Register) := [("B", .al), ("W", .ax), ("D", .eax), ("Q", .rax)]
  let stems : List (String × (Register → List StringArg)) := [
    ("INS", fun _ => [.target, .fixed .dx]), ("OUTS", fun _ => [.fixed .dx, .source]),
    ("MOVS", fun _ => [.target, .source]), ("CMPS", fun _ => [.source, .target]),
    ("LODS", fun r => [.fixed r, .source]), ("STOS", fun r => [.target, .fixed r]),
    ("SCAS", fun r => [.fixed r, .target])]
  if name == "XLATB" then [.table]
  else
    (acc.findSome? fun (tail, r) =>
      (stems.find? fun s => s.1 ++ tail == name).map fun s => s.2 r).getD []

/-- Instructions on strings name their registers by themselves. -/
def addStringArgs (d : Draft) : Draft :=
  if !d.body.args.isEmpty then d
  else
    let args := stringArgs d.body.mnemonic
    if args.isEmpty then d
    else
      let first : Register := if d.marks.address.isSome then .eax else .rax
      let place (n : Nat) : Operand := .mem { base := some (first.add n) }
      let operands := args.map fun
        | .source => place 6
        | .target => place 7
        | .table => place 3
        | .fixed r => .reg r
      let segment := if args.any fun a => a == .source || a == .table then d.marks.segment else none
      { (d.imply d.marks.address).imply segment with body := ⟨d.body.mnemonic, operands⟩ }

/-- Memory shows the width of addresses and its segment. -/
def implyMemory (d : Draft) : Draft :=
  if d.hasMem then (d.imply d.marks.address).imply d.marks.segment else d

def isConditionalJump (name : String) : Bool := condNames.any fun c => name == "J" ++ c

def isLoop (name : String) : Bool :=
  ["LOOP", "LOOPE", "LOOPNE", "JCXZ", "JECXZ", "JRCXZ"].contains name

/-- Changes the last mark before the opcode for which there is something to change. -/
def changeLast (f : Mark → Option MarkKind) : List Mark → List Mark
  | [] => []
  | m :: rest =>
    if rest.any (f · |>.isSome) then m :: changeLast f rest
    else match f m with
    | some kind => ⟨kind, false⟩ :: rest
    | none => m :: rest

/-- Two segment prefixes of conditional jumps are predictions, and one repeat prefix of jumps and
calls bounds where they go. -/
def nameHints (d : Draft) : Draft :=
  let name := d.body.mnemonic
  let n := d.marks.groupCount
  let onGroups (f : Mark → Option MarkKind) (d : Draft) : Draft :=
    d.mapMarks fun marks => changeLast f (marks.take n) ++ marks.drop n
  let predict : Mark → Option MarkKind := fun m =>
    if m.kind.code = 0x2E then some .notTaken
    else if m.kind.code = 0x3E then some .taken
    else none
  let bounded : Mark → Option MarkKind := fun m =>
    if m.kind = .byte 0xF2 && !m.implied then some .bound else none
  let d := if isConditionalJump name || isLoop name then onGroups predict d else d
  if isConditionalJump name || ["JMP", "CALL", "RET"].contains name then onGroups bounded d else d

/-- Instructions that the lock prefix makes indivisible if they write to memory. -/
def lockable : List String := [
  "ADD", "ADC", "AND", "BTC", "BTR", "BTS", "CMPXCHG", "CMPXCHG8B", "CMPXCHG16B", "DEC", "INC",
  "NEG", "NOT", "OR", "SBB", "SUB", "XOR", "XADD", "XCHG"]

/-- Whether the lock prefix is there and not part of the opcode. -/
def hasLock (d : Draft) : Bool :=
  match d.marks.lock with
  | some i => (d.state.marks[i]?).any (!·.implied)
  | none => false

/-- Repeat prefixes of indivisible writes begin or end a transaction. -/
def nameElisions (d : Draft) : Draft :=
  if !d.body.args.head?.any Operand.isMem then d
  else
    let name := d.body.mnemonic
    let locked := (d.hasLock && lockable.contains name) || name == "XCHG"
    let moved := name == "MOV" && [0x88, 0x89, 0xC6, 0xC7].contains d.opcode.toNat
    d.mapMarks fun marks => marks.map fun m =>
      if m.implied then m
      else if m.kind = .byte 0xF2 && locked then ⟨.acquire, false⟩
      else if m.kind = .byte 0xF3 && (locked || moved) then ⟨.release, false⟩
      else m

/-- The widening prefix is implied if all its bits had an effect. -/
def implyRex (d : Draft) : Draft :=
  match d.marks.rex with
  | none => d
  | some rex =>
    let used := if d.state.rexUsed = 0 then 0 else d.state.rexUsed ||| 0x40
    if rex &&& ~~~used = 0 then d.imply (some d.marks.groupCount) else d

/-- Prefixes that a listing shows. -/
def shownMarks (marks : List Mark) : List String :=
  ((marks.takeWhile (·.kind != .byte 0)).filter (!·.implied)).map (·.kind.name)

def finish (d : Draft) : Decoded :=
  let d := d.nameIdle.addStringArgs.implyMemory.nameHints.nameElisions.implyRex
  ⟨shownMarks d.state.marks, d.body.mnemonic, d.body.args⟩

end Draft

/-- Opcode and operands after the prefixes. -/
def opcode (first : UInt8) : Reader Body := do
  if first = 0x0F then extended0F (← byte).toNat else general first.toNat

/-- A byte by itself, listed as a prefix without an instruction. -/
def stub (b : UInt8) : Decoded := ⟨[(MarkKind.ofByte b).name], "Op(0)", []⟩

end Decode

open Decode in
/-- Reads one instruction; gives it with the number of its bytes. Where the bytes stop short, or
prefixes stand before no instruction, the first byte is listed by itself. -/
def decode (bytes : List UInt8) : Except DecodeError (Decoded × Nat) :=
  match bytes.take maxLength with
  | [] => .error .truncated
  | b :: more =>
    let (marks, rest) := Marks.read (b :: more)
    match rest with
    | [] => .ok (stub b, 1)
    | op :: rest =>
      let start : State := { rest, used := marks.all.length + 1, marks := marks.all }
      match ((opcode op).run marks).run start with
      | .ok (body, state) => .ok ((Draft.mk body op marks state).finish, state.used)
      | .error .truncated => .ok (stub b, 1)
      | .error .unrecognized =>
        if marks.groupCount = 0 then .error .unrecognized else .ok (stub b, 1)

/-- What generated code can name: part of a general register, memory at a distance from one, a
constant or a jump. -/
inductive Plain where
  | reg (w : Width) (r : Reg)
  | mem (base : Reg) (disp : Int32)
  | imm (v : Int64)
  | rel (v : Int32)
  deriving DecidableEq, Repr

def Operand.plain? : Operand → Option Plain
  | .reg r => r.general?.map fun (w, r) => .reg w r
  | .mem ⟨some base, none, disp⟩ =>
    match base.general? with
    | some (.qword, r) => some (.mem r disp.toInt32)
    | _ => none
  | .mem _ => none
  | .imm v => some (.imm v)
  | .rel v => some (.rel v)

namespace Decoded

def condOf? (mark name : String) : Option Cond :=
  Cond.all.find? fun c => name == mark ++ Decode.condName c.code.toNat

/-- Register moves and arithmetic on whole registers. -/
def alu? : String → Option Alu
  | "MOV" => some .mov
  | "ADD" => some .add
  | "SUB" => some .sub
  | "AND" => some .and
  | "OR" => some .or
  | "XOR" => some .xor
  | "CMP" => some .cmp
  | "TEST" => some .test
  | _ => none

def shift? : String → Option Shift
  | "SHL" => some .shl
  | "SHR" => some .shr
  | "SAR" => some .sar
  | _ => none

/-- The instruction of generated code with a name and operands, if there is one. -/
def instrOf? (name : String) (args : List Plain) : Option (Instr Int32) :=
  match name, args with
  | "RET", [] => some .ret
  | "UD2", [] => some .ud2
  | "PUSH", [.reg .qword r] => some (.push r)
  | "POP", [.reg .qword r] => some (.pop r)
  | "SUB", [.reg .qword .rsp, .imm v] => some (.subRsp v.toInt32)
  | "AND", [.reg .qword r, .imm v] => some (.andImm r v.toInt8)
  | "XOR", [.reg .qword r, .imm v] => some (.xorImm r v.toInt8)
  | "MOV", [.reg .qword r, .imm v] => some (.movImm r v.toUInt64)
  | "MOV", [.reg .qword r, .mem .rbp disp] => some (.load r disp)
  | "MOV", [.mem .rbp disp, .reg .qword r] => some (.store disp r)
  | "MOV", [.reg .dword dst, .reg .dword src] => some (.mov32 dst src)
  | "MOVSX", [.reg .qword dst, .reg .byte src] => some (.widen .signed8 dst src)
  | "MOVSX", [.reg .qword dst, .reg .word src] => some (.widen .signed16 dst src)
  | "MOVSXD", [.reg .qword dst, .reg .dword src] => some (.widen .signed32 dst src)
  | "MOVZX", [.reg .qword dst, .reg .byte src] => some (.widen .zero8 dst src)
  | "MOVZX", [.reg .qword dst, .reg .word src] => some (.widen .zero16 dst src)
  | "IMUL", [.reg .qword dst, .reg .qword src] => some (.imul dst src)
  | "NEG", [.reg .qword r] => some (.neg r)
  | "NOT", [.reg .qword r] => some (.not r)
  | "JMP", [.rel v] => some (.jmp v)
  | name, [.reg .qword dst, .reg .qword src] =>
    match alu? name with
    | some op => some (.alu op dst src)
    | none => (condOf? "CMOV" name).map (.cmov · dst src)
  | name, [.reg .qword r, .reg .byte .rcx] => (shift? name).map (.shift · r)
  | name, [.reg .byte r] => (condOf? "SET" name).map (.setcc · r)
  | name, [.rel v] => (condOf? "J" name).map (.jcc · v)
  | _, _ => none

/-- The instruction of generated code that was read, if it is one. -/
def instr? (d : Decoded) : Option (Instr Int32) :=
  if d.prefixes.isEmpty then (d.args.mapM Operand.plain?).bind (instrOf? d.mnemonic) else none

end Decoded

end TieredEngine.Native.X64
