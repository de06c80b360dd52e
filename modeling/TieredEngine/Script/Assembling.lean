import TieredEngine.Native.X64.Assembly
import TieredEngine.Script.Line

/-!
Assembly scripts: a line is an instruction by its mnemonic, or makes or binds a label.
-/
namespace TieredEngine.Script
open TieredEngine TieredEngine.Native.X64

private def registerAt (l : Line) (i : Nat) : Reading Reg := do
  orMalformed (Reg.ofName? (← l.get (·.asText) i))

private def condAt (l : Line) (i : Nat) : Reading Cond := do
  orMalformed (Cond.ofName? (← l.get (·.asText) i))

/-- Labels are numbered from zero; a negative number is no label's. -/
private def labelAt (l : Line) (i : Nat) : Reading Nat := do
  let n ← l.get (·.asInt) i
  return if n < 0 then Nat.pow 2 64 else n.toNat

/-- Mnemonics with two registers. -/
def twoRegisters? : String → Option (Reg → Reg → Instr Nat)
  | "mov" => some (.alu .mov)
  | "add" => some (.alu .add)
  | "sub" => some (.alu .sub)
  | "and" => some (.alu .and)
  | "or" => some (.alu .or)
  | "xor" => some (.alu .xor)
  | "cmp" => some (.alu .cmp)
  | "test" => some (.alu .test)
  | "movsx8" => some (.widen .signed8)
  | "movsx16" => some (.widen .signed16)
  | "movsxd" => some (.widen .signed32)
  | "movzx8" => some (.widen .zero8)
  | "movzx16" => some (.widen .zero16)
  | "mov32" => some .mov32
  | "imul" => some .imul
  | _ => none

/-- Mnemonics with one register. -/
def oneRegister? : String → Option (Reg → Instr Nat)
  | "push" => some .push
  | "pop" => some .pop
  | "neg" => some .neg
  | "not" => some .not
  | "shl" => some (.shift .shl)
  | "shr" => some (.shift .shr)
  | "sar" => some (.shift .sar)
  | _ => none

/-- The instruction of a line. -/
def instrOf (l : Line) : Reading (Instr Nat) := do
  match twoRegisters? l.verb, oneRegister? l.verb with
  | some f, _ => return f (← registerAt l 0) (← registerAt l 1)
  | none, some f => return f (← registerAt l 0)
  | none, none =>
    match l.verb with
    | "ret" => return .ret
    | "ud2" => return .ud2
    | "subrsp" => return .subRsp (Int32.ofInt (← l.get (·.asInt) 0))
    | "movimm" => return .movImm (← registerAt l 0) (← l.get (·.asWord64) 1)
    | "load" => return .load (← registerAt l 0) (Int32.ofInt (← l.get (·.asInt) 1))
    | "store" => return .store (Int32.ofInt (← l.get (·.asInt) 0)) (← registerAt l 1)
    | "andimm8" => return .andImm (← registerAt l 0) (Int8.ofInt (← l.get (·.asInt) 1))
    | "xorimm8" => return .xorImm (← registerAt l 0) (Int8.ofInt (← l.get (·.asInt) 1))
    | "setcc" => return .setcc (← condAt l 0) (← registerAt l 1)
    | "cmov" => return .cmov (← condAt l 0) (← registerAt l 1) (← registerAt l 2)
    | "jmp" => return .jmp (← labelAt l 0)
    | "jcc" => return .jcc (← condAt l 0) (← labelAt l 1)
    | _ => throw .malformed

/-- Adds a line; gives the size of the code so far. -/
def assemble (a : Assembler) (l : Line) : Reading (Nat × Assembler) := do
  let a ← match l.verb with
    | "label" => pure a.newLabel.2
    | "bind" => do orCrashed (a.bind (← labelAt l 0))
    | _ => do pure (a.emit (← instrOf l))
  return (a.size, a)

end TieredEngine.Script
