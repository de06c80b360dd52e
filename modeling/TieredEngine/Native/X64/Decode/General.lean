import TieredEngine.Native.X64.Decode.Reader

/-!
Instructions with an opcode of one byte. Those of the floating-point stack have the opcodes D8 to DF:
an operand byte that names memory goes with a digit; one that names a register is an opcode of its
own.
-/
namespace TieredEngine.Native.X64.Decode

/-- Instructions with memory, by opcode and digit. -/
def stackMemoryNames : List (List String) := [
  ["FADD", "FMUL", "FCOM", "FCOMP", "FSUB", "FSUBR", "FDIV", "FDIVR"],
  ["FLD", "", "FST", "FSTP", "FLDENV", "FLDCW", "FNSTENV", "FNSTCW"],
  ["FIADD", "FIMUL", "FICOM", "FICOMP", "FISUB", "FISUBR", "FIDIV", "FIDIVR"],
  ["FILD", "FISTTP", "FIST", "FISTP", "", "FLD", "", "FSTP"],
  ["FADD", "FMUL", "FCOM", "FCOMP", "FSUB", "FSUBR", "FDIV", "FDIVR"],
  ["FLD", "FISTTP", "FST", "FSTP", "FRSTOR", "", "FNSAVE", "FNSTSW"],
  ["FIADD", "FIMUL", "FICOM", "FICOMP", "FISUB", "FISUBR", "FIDIV", "FIDIVR"],
  ["FILD", "FISTTP", "FIST", "FISTP", "FBLD", "FILD", "FBSTP", "FISTP"]]

/-- Instructions without operands, by opcode and operand byte. -/
def stackPlainNames : List ((Nat × Nat) × String) := [
  ((1, 0xD0), "FNOP"), ((1, 0xE0), "FCHS"), ((1, 0xE1), "FABS"), ((1, 0xE4), "FTST"),
  ((1, 0xE5), "FXAM"), ((1, 0xE8), "FLD1"), ((1, 0xE9), "FLDL2T"), ((1, 0xEA), "FLDL2E"),
  ((1, 0xEB), "FLDPI"), ((1, 0xEC), "FLDLG2"), ((1, 0xED), "FLDLN2"), ((1, 0xEE), "FLDZ"),
  ((1, 0xF0), "F2XM1"), ((1, 0xF1), "FYL2X"), ((1, 0xF2), "FPTAN"), ((1, 0xF3), "FPATAN"),
  ((1, 0xF4), "FXTRACT"), ((1, 0xF5), "FPREM1"), ((1, 0xF6), "FDECSTP"), ((1, 0xF7), "FINCSTP"),
  ((1, 0xF8), "FPREM"), ((1, 0xF9), "FYL2XP1"), ((1, 0xFA), "FSQRT"), ((1, 0xFB), "FSINCOS"),
  ((1, 0xFC), "FRNDINT"), ((1, 0xFD), "FSCALE"), ((1, 0xFE), "FSIN"), ((1, 0xFF), "FCOS"),
  ((2, 0xE9), "FUCOMPP"), ((3, 0xE2), "FNCLEX"), ((3, 0xE3), "FNINIT"), ((6, 0xD9), "FCOMPP")]

/-- Which registers of the stack an instruction names. -/
inductive StackArgs where
  | top | other | both | reversed
  deriving DecidableEq, Repr

def StackArgs.forms (n : Nat) : StackArgs → List Form
  | top => [.stack 0]
  | other => [.stack n]
  | both => [.stack 0, .stack n]
  | reversed => [.stack n, .stack 0]

/-- Instructions with a register of the stack, by opcode and digit. -/
def stackRegisterNames : List ((Nat × Nat) × (String × StackArgs)) := [
  ((0, 0), ("FADD", .both)), ((0, 1), ("FMUL", .both)), ((0, 2), ("FCOM", .other)),
  ((0, 3), ("FCOMP", .other)), ((0, 4), ("FSUB", .both)), ((0, 5), ("FSUBR", .both)),
  ((0, 6), ("FDIV", .both)), ((0, 7), ("FDIVR", .both)), ((1, 0), ("FLD", .other)),
  ((1, 1), ("FXCH", .other)), ((2, 0), ("FCMOVB", .both)), ((2, 1), ("FCMOVE", .both)),
  ((2, 2), ("FCMOVBE", .both)), ((2, 3), ("FCMOVU", .both)), ((3, 0), ("FCMOVNB", .both)),
  ((3, 1), ("FCMOVNE", .both)), ((3, 2), ("FCMOVNBE", .both)), ((3, 3), ("FCMOVNU", .both)),
  ((3, 5), ("FUCOMI", .both)), ((3, 6), ("FCOMI", .both)), ((4, 0), ("FADD", .reversed)),
  ((4, 1), ("FMUL", .reversed)), ((4, 4), ("FSUBR", .reversed)), ((4, 5), ("FSUB", .reversed)),
  ((4, 6), ("FDIVR", .reversed)), ((4, 7), ("FDIV", .reversed)), ((5, 0), ("FFREE", .other)),
  ((5, 2), ("FST", .other)), ((5, 3), ("FSTP", .other)), ((5, 4), ("FUCOM", .other)),
  ((5, 5), ("FUCOMP", .other)), ((6, 0), ("FADDP", .reversed)), ((6, 1), ("FMULP", .reversed)),
  ((6, 4), ("FSUBRP", .reversed)), ((6, 5), ("FSUBP", .reversed)), ((6, 6), ("FDIVRP", .reversed)),
  ((6, 7), ("FDIVP", .reversed)), ((7, 0), ("FFREEP", .other)), ((7, 5), ("FUCOMIP", .both)),
  ((7, 6), ("FCOMIP", .both))]

/-- An operand byte that is an opcode of its own. -/
def stackSpecial (row b : Nat) : Option (Reader Body) :=
  if b < 0xC0 then none
  else if row = 7 && b = 0xE0 then some (inst "FNSTSW" [.fixed .ax])
  else match stackPlainNames.lookup (row, b) with
  | some name => some (inst name [])
  | none =>
    (stackRegisterNames.lookup (row, b / 8 % 8)).map fun (name, args) =>
      inst name (args.forms (b % 8))

/-- Opcodes from D8 on, by their distance from it. -/
def floatingPoint (row : Nat) : Reader Body :=
  byNext (stackSpecial row) <| byDigit fun digit =>
    match (stackMemoryNames[row]?.bind (·[digit]?)).getD "" with
    | "" => fail
    | name => inst name [.mem]

/-- Names of the sixteen conditions by number. -/
def condNames : List String :=
  ["O", "NO", "B", "AE", "E", "NE", "BE", "A", "S", "NS", "P", "NP", "L", "GE", "LE", "G"]

def condName (n : Nat) : String := condNames[n % 16]?.getD ""

def aluNames : List String := ["ADD", "OR", "ADC", "SBB", "AND", "SUB", "XOR", "CMP"]

def aluName (n : Nat) : String := aluNames[n % 8]?.getD ""

/-- The first eight rows: two-operand arithmetic in six forms each. -/
def arithmetic (n : Nat) : Reader Body :=
  let name := aluName (n / 8)
  match n % 8 with
  | 0 => inst name [rm8, r8]
  | 1 => sized name fun w => [regMem w, reg w]
  | 2 => inst name [r8, rm8]
  | 3 => sized name fun w => [reg w, regMem w]
  | 4 => inst name [accumulator .byte, .imm8u]
  | 5 => sized name fun w => [accumulator w, immFor w]
  | _ => fail

/-- Shifts and rotations by digit. -/
def shiftName? : Nat → Option String
  | 0 => some "ROL"
  | 1 => some "ROR"
  | 2 => some "RCL"
  | 3 => some "RCR"
  | 4 => some "SHL"
  | 5 => some "SHR"
  | 7 => some "SAR"
  | _ => none

/-- Shifts of a byte, or of a full operand, by some count. -/
def shifts (full : Bool) (count : Form) : Reader Body :=
  byDigit fun digit =>
    match shiftName? digit with
    | none => fail
    | some name =>
      if full then sized name fun w => [regMem w, count] else inst name [rm8, count]

/-- Tests, negations, multiplications and divisions, by digit. -/
def unaryGroup (full : Bool) : Reader Body :=
  let ofKind (name : String) (more : Width → List Form) : Reader Body :=
    if full then sized name fun w => regMem w :: more w else inst name (rm8 :: more .byte)
  byDigit fun digit =>
    match digit with
    | 0 => ofKind "TEST" fun w => [immFor w]
    | 2 => ofKind "NOT" fun _ => []
    | 3 => ofKind "NEG" fun _ => []
    | 4 => ofKind "MUL" fun _ => []
    | 5 => ofKind "IMUL" fun _ => []
    | 6 => ofKind "DIV" fun _ => []
    | 7 => ofKind "IDIV" fun _ => []
    | _ => fail

/-- Operands of instructions that work on the stack have 16 or 64 bits. -/
def stackWidth : Width → Width
  | .word => .word
  | _ => .qword

/-- Steps, calls, jumps and pushes, by digit. -/
def stepGroup : Reader Body :=
  byDigit fun digit =>
    match digit with
    | 0 => sized "INC" fun w => [regMem w]
    | 1 => sized "DEC" fun w => [regMem w]
    | 2 => inst "CALL" [rm64]
    | 3 => sized "LCALL" fun _ => [.mem]
    | 4 => inst "JMP" [rm64]
    | 5 => sized "LJMP" fun _ => [.mem]
    | 6 => sized "PUSH" fun w => [regMem (stackWidth w)]
    | _ => fail

/-- The segment registers go to and from registers of any width; memory always has 16 bits. -/
def segmentMove (load : Bool) : Reader Body :=
  sized "MOV" fun w => if load then [.reg .segment, regMem w] else [regMem w, .reg .segment]

/-- Instructions on strings, of which each width has a name. -/
def stringNames (word dword qword : String) : Reader Body :=
  bySize (inst word []) (inst dword []) (inst qword [])

/-- The vector moves that share their opcode with an instruction of this map. -/
def wideMoves (load : Bool) (plain : Reader Body) : Reader Body :=
  let forms : List Form := if load then [.wide, .wideOrMem] else [.wideOrMem, .wide]
  let moves := byPrefix [(.f3, inst "VMOVDQU" forms), (.x66, inst "VMOVDQA" forms)]
  byVex moves (inMap 1 moves) plain

/-- Opcodes from 40 to 8F. -/
def secondQuarter (n : Nat) : Reader Body :=
  if n < 0x50 then fail
  else if n < 0x58 then sized "PUSH" fun w => [.inOpcode (.general (stackWidth w)) (n % 8)]
  else if n < 0x60 then sized "POP" fun w => [.inOpcode (.general (stackWidth w)) (n % 8)]
  else if n / 16 = 7 then
    let jump := inst ("J" ++ condName n) [.rel8]
    if n = 0x77 then byVex (inst "VZEROUPPER" []) (inMap 1 (inst "VZEROUPPER" [])) jump
    else if n = 0x7F then wideMoves false jump
    else jump
  else match n with
  | 0x63 => sized "MOVSXD" fun w => [reg w, rm32]
  | 0x68 => sized "PUSH" fun w => [immFor w]
  | 0x69 => sized "IMUL" fun w => [reg w, regMem w, immFor w]
  | 0x6A => inst "PUSH" [.imm8]
  | 0x6B => sized "IMUL" fun w => [reg w, regMem w, .imm8]
  | 0x6C => inst "INSB" []
  | 0x6D => stringNames "INSW" "INSD" "INSD"
  | 0x6E => inst "OUTSB" []
  | 0x6F => wideMoves true (stringNames "OUTSW" "OUTSD" "OUTSD")
  | 0x80 => byDigit fun digit => inst (aluName digit) [rm8, .imm8u]
  | 0x81 => byDigit fun digit => sized (aluName digit) fun w => [regMem w, immFor w]
  | 0x83 => byDigit fun digit => sized (aluName digit) fun w => [regMem w, .imm8]
  | 0x84 => inst "TEST" [rm8, r8]
  | 0x85 => sized "TEST" fun w => [regMem w, reg w]
  | 0x86 => inst "XCHG" [rm8, r8]
  | 0x87 => sized "XCHG" fun w => [regMem w, reg w]
  | 0x88 => inst "MOV" [rm8, r8]
  | 0x89 => sized "MOV" fun w => [regMem w, reg w]
  | 0x8A => inst "MOV" [r8, rm8]
  | 0x8B => sized "MOV" fun w => [reg w, regMem w]
  | 0x8C => segmentMove false
  | 0x8D => sized "LEA" fun w => [reg w, .mem]
  | 0x8E => segmentMove true
  | 0x8F =>
    byDigit fun digit =>
      if digit = 0 then sized "POP" fun w => [regMem (stackWidth w)] else fail
  | _ => fail

/-- Opcodes from 90 to BF. -/
def thirdQuarter (n : Nat) : Reader Body :=
  if n < 0x98 then sized "XCHG" fun w => [.inOpcode (.general w) (n % 8), accumulator w]
  else if n / 8 = 0x16 then inst "MOV" [.inOpcode (.general .byte) (n % 8), .imm8u]
  else if n / 8 = 0x17 then
    sized "MOV" fun w =>
      [.inOpcode (.general w) (n % 8), if w == .qword then .imm64 else immFor w]
  else match n with
  | 0x98 => stringNames "CBW" "CWDE" "CDQE"
  | 0x99 => stringNames "CWD" "CDQ" "CQO"
  | 0x9B => inst "FWAIT" []
  | 0x9C => stringNames "PUSHF" "PUSHFQ" "PUSHFQ"
  | 0x9D => stringNames "POPF" "POPFQ" "POPFQ"
  | 0x9E => inst "SAHF" []
  | 0x9F => inst "LAHF" []
  | 0xA0 => inst "MOV" [accumulator .byte, .address]
  | 0xA1 => sized "MOV" fun w => [accumulator w, .address]
  | 0xA2 => inst "MOV" [.address, accumulator .byte]
  | 0xA3 => sized "MOV" fun w => [.address, accumulator w]
  | 0xA4 => inst "MOVSB" []
  | 0xA5 => stringNames "MOVSW" "MOVSD" "MOVSQ"
  | 0xA6 => inst "CMPSB" []
  | 0xA7 => stringNames "CMPSW" "CMPSD" "CMPSQ"
  | 0xA8 => inst "TEST" [accumulator .byte, .imm8u]
  | 0xA9 => sized "TEST" fun w => [accumulator w, immFor w]
  | 0xAA => inst "STOSB" []
  | 0xAB => stringNames "STOSW" "STOSD" "STOSQ"
  | 0xAC => inst "LODSB" []
  | 0xAD => stringNames "LODSW" "LODSD" "LODSQ"
  | 0xAE => inst "SCASB" []
  | 0xAF => stringNames "SCASW" "SCASD" "SCASQ"
  | _ => fail

/-- Ports are read and written through an accumulator of at most 32 bits. -/
def portWidth : Width → Width
  | .word => .word
  | _ => .dword

/-- A constant to a register or memory, unless the byte after the opcode begins a transaction. -/
def constantMove (special : Reader Body) (move : Reader Body) : Reader Body :=
  byNext (fun b => if b = 0xF8 then some special else none) <|
    byDigit fun digit => if digit = 0 then move else fail

/-- Opcodes from C0 to FF. -/
def lastQuarter (n : Nat) : Reader Body :=
  match n with
  | 0xC0 => shifts false .imm8u
  | 0xC1 => shifts true .imm8u
  | 0xC2 => inst "RET" [.imm16u]
  | 0xC3 => inst "RET" []
  | 0xC6 => constantMove (inst "XABORT" [.imm8u]) (inst "MOV" [rm8, .imm8u])
  | 0xC7 =>
    constantMove (bySize (inst "XBEGIN" [.rel16]) (inst "XBEGIN" [.rel32]) (inst "XBEGIN" [.rel32]))
      (sized "MOV" fun w => [regMem w, immFor w])
  | 0xC8 => inst "ENTER" [.imm16u, .imm8u]
  | 0xC9 => sized "LEAVE" fun _ => []
  | 0xCA => inst "LRET" [.imm16u]
  | 0xCB => inst "LRET" []
  | 0xCC => inst "INT" [.const 3]
  | 0xCD => inst "INT" [.imm8u]
  | 0xCF => stringNames "IRET" "IRETD" "IRETQ"
  | 0xD0 => shifts false (.const 1)
  | 0xD1 => shifts true (.const 1)
  | 0xD2 => shifts false (.fixed .cl)
  | 0xD3 => shifts true (.fixed .cl)
  | 0xD7 => inst "XLATB" []
  | 0xE0 => inst "LOOPNE" [.rel8]
  | 0xE1 => inst "LOOPE" [.rel8]
  | 0xE2 => inst "LOOP" [.rel8]
  | 0xE3 => byAddress (inst "JECXZ" [.rel8]) (inst "JRCXZ" [.rel8])
  | 0xE4 => inst "IN" [accumulator .byte, .imm8u]
  | 0xE5 => sized "IN" fun w => [accumulator (portWidth w), .imm8u]
  | 0xE6 => inst "OUT" [.imm8u, accumulator .byte]
  | 0xE7 =>
    let store := byPrefix [(.x66, inst "VMOVNTDQ" [.mem, .wide])]
    byVex store (inMap 1 store) (sized "OUT" fun w => [.imm8u, accumulator (portWidth w)])
  | 0xE8 => sized "CALL" fun _ => [.rel32]
  | 0xE9 => sized "JMP" fun _ => [.rel32]
  | 0xEB => inst "JMP" [.rel8]
  | 0xEC => inst "IN" [accumulator .byte, .fixed .dx]
  | 0xED => sized "IN" fun w => [accumulator (portWidth w), .fixed .dx]
  | 0xEE => inst "OUT" [.fixed .dx, accumulator .byte]
  | 0xEF => sized "OUT" fun w => [.fixed .dx, accumulator (portWidth w)]
  | 0xF1 => inst "ICEBP" []
  | 0xF4 => inst "HLT" []
  | 0xF5 => inst "CMC" []
  | 0xF6 => unaryGroup false
  | 0xF7 => unaryGroup true
  | 0xF8 => inst "CLC" []
  | 0xF9 => inst "STC" []
  | 0xFA => inst "CLI" []
  | 0xFB => inst "STI" []
  | 0xFC => inst "CLD" []
  | 0xFD => inst "STD" []
  | 0xFE =>
    byDigit fun digit =>
      match digit with
      | 0 => inst "INC" [rm8]
      | 1 => inst "DEC" [rm8]
      | _ => fail
  | 0xFF => stepGroup
  | _ => if n / 8 = 0x1B then floatingPoint (n % 8) else fail

/-- Opcodes of one byte. -/
def general (n : Nat) : Reader Body :=
  if n < 0x40 then
    if n = 0x2A then
      byVex (arithmetic n) (inMap 2 (byPrefix [(.x66, inst "VMOVNTDQA" [.wide, .mem])]))
        (arithmetic n)
    else arithmetic n
  else if n < 0x90 then secondQuarter n
  else if n < 0xC0 then thirdQuarter n
  else lastQuarter n

end TieredEngine.Native.X64.Decode
