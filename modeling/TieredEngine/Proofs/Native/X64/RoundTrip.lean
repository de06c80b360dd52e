import TieredEngine.Proofs.Native.X64.Decoding

/-!
Every instruction of generated code is decoded from its own bytes, whatever follows them, and as
what it is listed as. The instructions fall into shapes: two registers, a register and a place in
the frame, one register with a digit, and those without an operand byte, which are few enough to be
read one by one.
-/
namespace TieredEngine.Native.X64

def Alu.name : Alu → String
  | .mov => "MOV"
  | .add => "ADD"
  | .sub => "SUB"
  | .and => "AND"
  | .or => "OR"
  | .xor => "XOR"
  | .cmp => "CMP"
  | .test => "TEST"

def Widen.name : Widen → String
  | .signed8 | .signed16 => "MOVSX"
  | .signed32 => "MOVSXD"
  | .zero8 | .zero16 => "MOVZX"

/-- How much of the register a widening move reads. -/
def Widen.width : Widen → Width
  | .signed8 | .zero8 => .byte
  | .signed16 | .zero16 => .word
  | .signed32 => .dword

def Shift.name : Shift → String
  | .shl => "SHL"
  | .shr => "SHR"
  | .sar => "SAR"

/-- What a conditional instruction has behind its name. -/
def Cond.suffix : Cond → String
  | .b => "B"
  | .ae => "AE"
  | .e => "E"
  | .ne => "NE"
  | .be => "BE"
  | .a => "A"
  | .l => "L"
  | .ge => "GE"
  | .le => "LE"
  | .g => "G"

namespace Decode

/-- The place in the frame that an instruction names. -/
def frameOperand (disp : Int32) : Operand :=
  .mem { base := some (Register.rax.add 5), disp := Int64.ofNat disp.toUInt32.toNat }

end Decode

open Decode in
/-- Name and operands of an instruction of generated code, as a listing has them. -/
def Instr.listed : Instr Int32 → Decoded
  | push r => ⟨[], "PUSH", [regOperand .qword r]⟩
  | pop r => ⟨[], "POP", [regOperand .qword r]⟩
  | subRsp n => ⟨[], "SUB", [regOperand .qword .rsp, .imm n.toInt64]⟩
  | ret => ⟨[], "RET", []⟩
  | ud2 => ⟨[], "UD2", []⟩
  | alu op dst src => ⟨[], op.name, [regOperand .qword dst, regOperand .qword src]⟩
  | movImm r imm => ⟨[], "MOV", [regOperand .qword r, .imm imm.toInt64]⟩
  | load r disp => ⟨[], "MOV", [regOperand .qword r, frameOperand disp]⟩
  | store disp r => ⟨[], "MOV", [frameOperand disp, regOperand .qword r]⟩
  | widen w dst src => ⟨[], w.name, [regOperand .qword dst, regOperand w.width src]⟩
  | mov32 dst src => ⟨[], "MOV", [regOperand .dword dst, regOperand .dword src]⟩
  | imul dst src => ⟨[], "IMUL", [regOperand .qword dst, regOperand .qword src]⟩
  | andImm r imm => ⟨[], "AND", [regOperand .qword r, .imm imm.toInt64]⟩
  | xorImm r imm => ⟨[], "XOR", [regOperand .qword r, .imm imm.toInt64]⟩
  | neg r => ⟨[], "NEG", [regOperand .qword r]⟩
  | not r => ⟨[], "NOT", [regOperand .qword r]⟩
  | shift s r => ⟨[], s.name, [regOperand .qword r, regOperand .byte .rcx]⟩
  | setcc c r => ⟨[], "SET" ++ c.suffix, [regOperand .byte r]⟩
  | cmov c dst src => ⟨[], "CMOV" ++ c.suffix, [regOperand .qword dst, regOperand .qword src]⟩
  | jmp distance => ⟨[], "JMP", [.rel distance]⟩
  | jcc c distance => ⟨[], "J" ++ c.suffix, [.rel distance]⟩

/-- Only the first four registers have a low byte that an instruction without a prefix can name. -/
def Instr.Legible {τ : Type} : Instr τ → Prop
  | .setcc _ r => r.code < 4
  | _ => True

namespace Decode

/-- After the byte 0F the next byte chooses the instruction. -/
theorem Reads.extended {rex : Option UInt8} {next : UInt8} {start : Nat} {more : List UInt8}
    {body : Body} (reads : Reads rex (extended0F next.toNat) (start + 1) more body) :
    Reads rex (opcode 0x0F) start (next :: more) body := by
  refine ⟨fun rest => ?_⟩
  obtain ⟨s, ran, marks, used, counts⟩ := reads.run rest
  refine ⟨s, ran, marks, ?_, counts⟩
  rw [used, List.length_cons]
  omega

/-- An instruction behind the widening prefix. -/
theorem spells_wide {reg rm : X64.Reg} {op : UInt8} {more : List UInt8} {name : String}
    {args : List Operand} (reads : Reads (some (wideFor reg rm)) (opcode op) 2 more ⟨name, args⟩)
    (short : more.length ≤ 13) (other : name ≠ "XCHG") (operands : args ≠ []) :
    Spells (wideFor reg rm :: op :: more) ⟨[], name, args⟩ := by
  refine @spells_of_reads (some (wideFor reg rm)) ?_ op (fun none => nomatch none) more _ reads
    short other (.inl operands)
  rintro b ⟨⟩
  rw [wideFor_eq]
  exact (marks_wide _ _).2.2.2

section TwoRegisters

theorem spells_alu (op : Alu) (dst src : X64.Reg) :
    Spells (Instr.alu op dst src).encode (Instr.alu op dst src).listed := by
  have row : opcode op.opcode = sized op.name (fun w => [regMem w, Decode.reg w]) := by
    cases op <;> rfl
  have reads := reads_store (fun w => [regMem w, Decode.reg w]) rfl op.name 2 dst src
  rw [← row] at reads
  exact spells_wide reads (by simp) (by cases op <;> decide) (List.cons_ne_nil _ _)

theorem spells_widen (w : Widen) (dst src : X64.Reg) :
    Spells (Instr.widen w dst src).encode (Instr.widen w dst src).listed := by
  -- all but one of these have the byte 0F before their own
  have long : ∀ next : UInt8,
      extended0F next.toNat = sized w.name (fun v => [Decode.reg v, .regOrMem (.general w.width)]) →
      Spells (Instr.registers dst src [0x0F, next]) (Instr.widen w dst src).listed := by
    intro next row
    have reads := reads_load
      (fun v => [Decode.reg v, .regOrMem (.general w.width)]) w.width rfl w.name 3 dst src
    rw [← row] at reads
    exact spells_wide reads.extended (by simp) (by cases w <;> decide) (List.cons_ne_nil _ _)
  cases w with
  | signed8 => exact long 0xBE rfl
  | signed16 => exact long 0xBF rfl
  | zero8 => exact long 0xB6 rfl
  | zero16 => exact long 0xB7 rfl
  | signed32 =>
    have reads := reads_load (fun w => [Decode.reg w, rm32]) .dword rfl "MOVSXD" 2 dst src
    have row : opcode 0x63 = sized "MOVSXD" (fun w => [Decode.reg w, rm32]) := rfl
    rw [← row] at reads
    exact spells_wide reads (by simp) (by decide) (List.cons_ne_nil _ _)

theorem spells_imul (dst src : X64.Reg) :
    Spells (Instr.imul dst src).encode (Instr.imul dst src).listed := by
  have reads := reads_load (fun w => [Decode.reg w, regMem w]) .qword rfl "IMUL" 3 dst src
  have row : extended0F (0xAF : UInt8).toNat =
      sized "IMUL" (fun w => [Decode.reg w, regMem w]) := rfl
  rw [← row] at reads
  exact spells_wide reads.extended (by simp) (by decide) (List.cons_ne_nil _ _)

theorem spells_cmov (c : Cond) (dst src : X64.Reg) :
    Spells (Instr.cmov c dst src).encode (Instr.cmov c dst src).listed := by
  have reads := reads_load (fun w => [Decode.reg w, regMem w]) .qword rfl
    ("CMOV" ++ c.suffix) 3 dst src
  have row : extended0F (0x40 + c.code).toNat =
      sized ("CMOV" ++ c.suffix) (fun w => [Decode.reg w, regMem w]) := by
    cases c <;> rfl
  rw [← row] at reads
  exact spells_wide reads.extended (by simp) (by cases c <;> decide) (List.cons_ne_nil _ _)

end TwoRegisters

section Frame

theorem spells_load (r : X64.Reg) (disp : Int32) :
    Spells (Instr.load r disp).encode (Instr.load r disp).listed := by
  obtain ⟨mode, digit, low⟩ := modRm_parts 2 (by decide) (r.code % 8) (Nat.mod_lt _ (by decide)) .rbp
  have reads : Reads (some (wideFor r .rbp)) (opcode 0x8B) 2
      (X64.modRm 2 r.low Reg.rbp.low :: (bytes32 disp.toUInt32 ++ []))
      ⟨"MOV", [regOperand .qword r, frameOperand disp]⟩ := by
    rw [wideFor_eq]
    exact reads_two [] (enters_frame (fun w => [Decode.reg w, regMem w]) mode low disp.toUInt32
      rfl rfl) rfl rfl (fun _ _ => rfl) (operand_first (by decide) r digit 0)
      fun used rest => ⟨_, rfl, .inl rfl⟩
  rw [List.append_nil] at reads
  exact spells_wide reads (by simp [bytes32]) (by decide) (List.cons_ne_nil _ _)

theorem spells_store (r : X64.Reg) (disp : Int32) :
    Spells (Instr.store disp r).encode (Instr.store disp r).listed := by
  obtain ⟨mode, digit, low⟩ := modRm_parts 2 (by decide) (r.code % 8) (Nat.mod_lt _ (by decide)) .rbp
  have reads : Reads (some (wideFor r .rbp)) (opcode 0x89) 2
      (X64.modRm 2 r.low Reg.rbp.low :: (bytes32 disp.toUInt32 ++ []))
      ⟨"MOV", [frameOperand disp, regOperand .qword r]⟩ := by
    rw [wideFor_eq]
    exact reads_two [] (enters_frame (fun w => [regMem w, Decode.reg w]) mode low disp.toUInt32
      rfl rfl) rfl rfl (fun _ _ => rfl) (fun _ _ => rfl)
      fun used rest => ⟨_, operand_first (by decide) r digit 0 used rest, .inl rfl⟩
  rw [List.append_nil] at reads
  exact spells_wide reads (by simp [bytes32]) (by decide) (List.cons_ne_nil _ _)

end Frame

section Digit

/-- The digits of the operations on one register. -/
theorem enters_grouped {row : Nat → Reader Body} {forms : Width → List Form} {f : Form}
    {fs : List Form} {name : String} {digit : Nat} (small : digit < 8) (r : X64.Reg)
    (chosen : row digit = sized name forms) (form : forms .qword = f :: fs) (start : Nat) :
    Enters false r.isExtended (X64.modRm 3 (UInt8.ofNat digit) r.low) none [] start (byDigit row)
      name (f :: fs) := by
  obtain ⟨mode, same, -⟩ := modRm_parts 3 (by decide) digit small r
  exact enters_digit mode ((congrArg row same).trans chosen) form

theorem operand_grouped {digit : Nat} (small : digit < 8) (r : X64.Reg) (used : Nat)
    (rest : List UInt8) :
    operand rm64 0 (.ofRex (some (wideByte false r.isExtended)))
      (wideState false r.isExtended (X64.modRm 3 (UInt8.ofNat digit) r.low) none used rest) =
      .ok (regOperand .qword r,
        wideState false r.isExtended (X64.modRm 3 (UInt8.ofNat digit) r.low) none used rest) :=
  operand_second (by decide) r (modRm_parts 3 (by decide) digit small r).2.2 0 used rest

theorem wideFor_rax (r : X64.Reg) : wideFor .rax r = wideByte false r.isExtended := wideFor_eq .rax r

/-- An operation on one register and nothing else. -/
theorem spells_grouped (name : String) (op : UInt8) (digit : Nat) (r : X64.Reg)
    (group : ∃ row, opcode op = byDigit row ∧ row digit = sized name fun w => [regMem w])
    (small : digit < 8) (other : name ≠ "XCHG") :
    Spells (Instr.grouped (UInt8.ofNat digit) r op) ⟨[], name, [regOperand .qword r]⟩ := by
  have reads : Reads (some (wideFor .rax r)) (opcode op) 2
      [X64.modRm 3 (UInt8.ofNat digit) r.low] ⟨name, [regOperand .qword r]⟩ := by
    obtain ⟨row, same, chosen⟩ := group
    rw [wideFor_rax, same]
    exact reads_one (enters_grouped small r chosen rfl 2) rfl rfl (operand_grouped small r)
  exact spells_wide reads (by simp) other (List.cons_ne_nil _ _)

/-- An operation on one register and a constant, which may follow the operand byte. -/
theorem spells_grouped_constant {v : Nat} {g : Form} {y : Operand} {constant : List UInt8}
    (name : String) (op : UInt8) (digit : Nat) (r : X64.Reg) (forms : Width → List Form)
    (form : forms .qword = [rm64, g])
    (group : ∃ row, opcode op = byDigit row ∧ row digit = sized name forms) (small : digit < 8)
    (other : name ≠ "XCHG") (few : constant.length ≤ 12)
    (fetch : ∀ m used rest marks rexUsed operand,
      g.fetch m ⟨constant ++ rest, used, marks, rexUsed, operand⟩ =
        .ok (v, ⟨rest, used + constant.length, marks, rexUsed, operand⟩))
    (second : ∀ m s, operand g v m s = .ok (y, s)) :
    Spells (Instr.grouped (UInt8.ofNat digit) r op ++ constant)
      ⟨[], name, [regOperand .qword r, y]⟩ := by
  have reads : Reads (some (wideFor .rax r)) (opcode op) 2
      (X64.modRm 3 (UInt8.ofNat digit) r.low :: ([] ++ constant))
      ⟨name, [regOperand .qword r, y]⟩ := by
    obtain ⟨row, same, chosen⟩ := group
    rw [wideFor_rax, same]
    exact reads_two constant (enters_grouped small r chosen form 2) rfl rfl
      (fun used rest => fetch _ used rest _ _ _) (operand_grouped small r)
      fun used rest => ⟨_, second _ _, .inl rfl⟩
  exact spells_wide reads (by simp; omega) other (List.cons_ne_nil _ _)

theorem spells_neg (r : X64.Reg) : Spells (Instr.neg r).encode (Instr.neg r).listed := by
  have group : ∃ row, unaryGroup true = byDigit row ∧
      row 3 = sized "NEG" fun w => [regMem w] := by
    unfold unaryGroup
    exact ⟨_, rfl, rfl⟩
  exact spells_grouped "NEG" 0xF7 3 r group (by decide) (by decide)

theorem spells_not (r : X64.Reg) : Spells (Instr.not r).encode (Instr.not r).listed := by
  have group : ∃ row, unaryGroup true = byDigit row ∧
      row 2 = sized "NOT" fun w => [regMem w] := by
    unfold unaryGroup
    exact ⟨_, rfl, rfl⟩
  exact spells_grouped "NOT" 0xF7 2 r group (by decide) (by decide)

theorem spells_shift (s : Shift) (r : X64.Reg) :
    Spells (Instr.shift s r).encode (Instr.shift s r).listed := by
  have group : opcode 0xD3 = shifts true (.fixed .cl) := rfl
  have counted : ∀ digit : Nat, digit < 8 → shiftName? digit = some s.name →
      Spells (Instr.grouped (UInt8.ofNat digit) r 0xD3 ++ []) (Instr.shift s r).listed := by
    intro digit small named
    refine spells_grouped_constant s.name 0xD3 digit r (fun w => [regMem w, .fixed .cl]) rfl
      ⟨_, group, ?_⟩ small (by cases s <;> decide) (by decide) (fun _ _ _ _ _ _ => rfl)
      (fun _ _ => rfl)
    simp only [named, if_true]
  cases s with
  | shl => exact counted 4 (by decide) rfl
  | shr => exact counted 5 (by decide) rfl
  | sar => exact counted 7 (by decide) rfl

/-- A constant of one byte behind the operand byte. -/
theorem spells_imm8 (name : String) (digit : Nat) (small : digit < 8)
    (named : aluName digit = name) (other : name ≠ "XCHG") (r : X64.Reg) (imm : Int8) :
    Spells (Instr.grouped (UInt8.ofNat digit) r 0x83 ++ [imm.toUInt8])
      ⟨[], name, [regOperand .qword r, .imm imm.toInt64]⟩ := by
  have group : opcode 0x83 =
      byDigit fun digit => sized (aluName digit) fun w => [regMem w, .imm8] := rfl
  refine spells_grouped_constant name 0x83 digit r (fun w => [regMem w, .imm8]) rfl
    ⟨_, group, congrArg (sized · _) named⟩ small other (by simp) (fun _ _ _ _ _ _ => rfl) ?_
  intro m s
  show Except.ok (Operand.imm (UInt8.ofNat (imm.toUInt8.toNat + 256 * 0)).toInt8.toInt64, s) = _
  rw [Nat.mul_zero, Nat.add_zero, UInt8.ofNat_toNat]
  rfl

theorem spells_subRsp (n : Int32) : Spells (Instr.subRsp n).encode (Instr.subRsp n).listed := by
  have group : opcode 0x81 =
      byDigit fun digit => sized (aluName digit) fun w => [regMem w, immFor w] := rfl
  refine spells_grouped_constant "SUB" 0x81 5 .rsp (fun w => [regMem w, immFor w]) rfl
    ⟨_, group, rfl⟩ (by decide) (by decide) (by simp [bytes32])
    (fun _ used rest marks rexUsed operand => run_number32 n.toUInt32 rest used marks rexUsed operand)
    ?_
  intro m s
  show Except.ok (Operand.imm (UInt32.ofNat n.toUInt32.toNat).toInt32.toInt64, s) = _
  rw [UInt32.ofNat_toNat]
  rfl

end Digit

section InOpcode

/-- An instruction without a prefix. -/
theorem spells_plain {op : UInt8} (starts : startsOpcode op = true) {more : List UInt8}
    {body : Body} (reads : Reads none (opcode op) 1 more body) (short : more.length ≤ 13)
    (name : body.mnemonic ≠ "XCHG")
    (args : body.args ≠ [] ∨ Draft.stringArgs body.mnemonic = []) :
    Spells (op :: more) ⟨[], body.mnemonic, body.args⟩ :=
  @spells_of_reads none (fun _ none => nomatch none) op (fun _ => starts) more body reads short name
    args

/-- Reading a register from the opcode uses the one bit of the prefix. -/
theorem Reads.of_short {r : Reader Body} {body : Body}
    (run : ∀ rest, r (.ofRex (some 0x41)) ⟨rest, 2, (Marks.ofRex (some 0x41)).all, 0, none⟩ =
      .ok (body, ⟨rest, 2, (Marks.ofRex (some 0x41)).all, 0 ||| RexBit.b.code, none⟩)) :
    Reads (some 0x41) r 2 [] body := by
  refine ⟨fun rest => ⟨_, run rest, rfl, rfl, ?_⟩⟩
  rintro b ⟨⟩
  show Counts 0x41 (0 ||| RexBit.b.code)
  decide

/-- An instruction whose only operand is a register in its opcode. -/
theorem spells_inOpcode (name : String) (other : name ≠ "XCHG") (op : UInt8) (r : X64.Reg)
    (starts : startsOpcode op = true)
    (plain : r.isExtended = false → Reads none (opcode op) 1 [] ⟨name, [regOperand .qword r]⟩)
    (prefixed : r.isExtended = true →
      Reads (some 0x41) (opcode op) 2 [] ⟨name, [regOperand .qword r]⟩) :
    Spells (Instr.extended r ++ [op]) ⟨[], name, [regOperand .qword r]⟩ := by
  unfold Instr.extended
  by_cases extended : r.isExtended = true
  · rw [if_pos extended]
    refine @spells_of_reads (some 0x41) ?_ op (fun none => nomatch none) [] _ (prefixed extended)
      (by decide) other (.inl (List.cons_ne_nil _ _))
    rintro b ⟨⟩
    decide
  · rw [if_neg extended]
    exact spells_plain starts (plain (by simpa using extended)) (by decide) other
      (.inl (List.cons_ne_nil _ _))

theorem spells_push (r : X64.Reg) : Spells (Instr.push r).encode (Instr.push r).listed := by
  refine spells_inOpcode "PUSH" (by decide) (0x50 + r.low) r (by cases r <;> decide) (fun own => ?_)
    fun own => ?_
  · refine ⟨fun rest => ?_⟩
    cases r <;> first | exact absurd own (by decide) | exact ⟨_, rfl, rfl, rfl, by rintro _ ⟨⟩⟩
  · refine .of_short fun rest => ?_
    cases r <;> first | exact absurd own (by decide) | rfl

theorem spells_pop (r : X64.Reg) : Spells (Instr.pop r).encode (Instr.pop r).listed := by
  refine spells_inOpcode "POP" (by decide) (0x58 + r.low) r (by cases r <;> decide) (fun own => ?_)
    fun own => ?_
  · refine ⟨fun rest => ?_⟩
    cases r <;> first | exact absurd own (by decide) | exact ⟨_, rfl, rfl, rfl, by rintro _ ⟨⟩⟩
  · refine .of_short fun rest => ?_
    cases r <;> first | exact absurd own (by decide) | rfl

theorem spells_movImm (r : X64.Reg) (imm : UInt64) :
    Spells (Instr.movImm r imm).encode (Instr.movImm r imm).listed := by
  have reads : Reads (some (wideFor .rax r)) (opcode (0xB8 + r.low)) 2 (bytes64 imm)
      ⟨"MOV", [regOperand .qword r, .imm imm.toInt64]⟩ := by
    have row : opcode (0xB8 + r.low) = sized "MOV" fun w =>
        [.inOpcode (.general w) (r.code % 8), if w == .qword then .imm64 else immFor w] := by
      cases r <;> rfl
    obtain ⟨wide, -, -, -⟩ := marks_wide false r.isExtended
    have base : (Marks.ofRex (some (wideByte false r.isExtended))).rexBit 0 = r.isExtended := by
      cases r.isExtended <;> decide
    rw [wideFor_rax, row]
    refine ⟨fun rest => ⟨⟨rest, 10, _, wideUsed false r.isExtended, none⟩, ?_, rfl, rfl, ?_⟩⟩
    · rw [run_sized_wide wide]
      show inst "MOV" [.inOpcode (.general .qword) (r.code % 8), .imm64] _ _ = _
      rw [run_inst_inOpcode _ _ _ _ rfl]
      show (number 8 _ _ >>= _) = _
      rw [run_number64, ok_bind]
      simp only [operand, run_bind, run_read, ok_bind, base, run_extended, r.code_split,
        run_register .qword (by decide), run_pure, UInt64.ofNat_toNat]
      rfl
    · rintro b ⟨⟩
      exact (wideUsed_counts _ _).1
  exact spells_wide reads (by simp [bytes64, bytes32]) (by decide) (List.cons_ne_nil _ _)

end InOpcode

section Short

/-- The prefix of an instruction with 32-bit operands, where a register needs one. -/
def shortPrefix (dst src : X64.Reg) : Option UInt8 :=
  if dst.isExtended || src.isExtended then some ((0x40 : UInt8) ||| (dst.high <<< 2) ||| src.high)
  else none

theorem shortPrefix_marks (dst src : X64.Reg) :
    (Marks.ofRex (shortPrefix dst src)).rexBit 3 = false ∧
      (Marks.ofRex (shortPrefix dst src)).rexBit 2 = dst.isExtended ∧
      (Marks.ofRex (shortPrefix dst src)).extendsBase = src.isExtended ∧
      (Marks.ofRex (shortPrefix dst src)).data = none ∧
      (∀ b ∈ shortPrefix dst src, Marks.isRex b = true) ∧
      ∀ b ∈ shortPrefix dst src, Counts b (0 ||| (if dst.isExtended then RexBit.r.code else 0) |||
        (if src.isExtended then RexBit.b.code else 0)) := by
  have high : ∀ r : X64.Reg, r.high = if r.isExtended then 1 else 0 := by
    intro r
    cases r <;> rfl
  unfold shortPrefix
  rw [high, high]
  generalize dst.isExtended = first
  generalize src.isExtended = second
  cases first <;> cases second <;> decide +kernel

/-- A move of 32 bits. -/
theorem spells_mov32 (dst src : X64.Reg) :
    Spells (Instr.mov32 dst src).encode (Instr.mov32 dst src).listed := by
  obtain ⟨narrow, reg, base, data, isRex, counts⟩ := shortPrefix_marks dst src
  obtain ⟨direct, digit, low⟩ := modRm_parts 3 (by decide) (dst.code % 8) (Nat.mod_lt _ (by decide)) src
  have mode : (X64.modRm 3 dst.low src.low).toNat / 64 = 3 := direct
  have reads : Reads (shortPrefix dst src) (opcode 0x8B) ((shortPrefix dst src).toList.length + 1)
      [X64.modRm 3 dst.low src.low] ⟨"MOV", [regOperand .dword dst, regOperand .dword src]⟩ := by
    have row : opcode 0x8B = sized "MOV" fun w => [Decode.reg w, regMem w] := rfl
    have first : dst.code = (X64.modRm 3 dst.low src.low).toNat / 8 % 8 +
        (if dst.isExtended then 8 else 0) :=
      dst.code_split.symm.trans (congrArg (· + _) digit.symm)
    have second : src.code = (X64.modRm 3 dst.low src.low).toNat % 8 +
        (if src.isExtended then 8 else 0) :=
      src.code_split.symm.trans (congrArg (· + _) low.symm)
    refine ⟨fun rest => ⟨⟨rest, _, _, _, some ⟨X64.modRm 3 dst.low src.low, dst.code, src.code,
      none⟩⟩, ?_, rfl, rfl, counts⟩⟩
    rw [row, run_sized_plain narrow data, run_inst_two _ _ _ rfl rfl, List.cons_append,
      run_modRm_registers mode, reg, base, ← first, ← second, ok_bind]
    rfl
  have whole : (Instr.mov32 dst src).encode =
      (shortPrefix dst src).toList ++ 0x8B :: [X64.modRm 3 dst.low src.low] := by
    unfold shortPrefix
    simp only [Instr.encode]
    split <;> rfl
  rw [whole]
  exact spells_of_reads isRex (fun _ => by decide) reads (by simp) (by simp)
    (.inl (List.cons_ne_nil _ _))

theorem spells_setcc (c : Cond) (r : X64.Reg) (low : r.code < 4) :
    Spells (Instr.setcc c r).encode (Instr.setcc c r).listed := by
  have reads : Reads none (opcode 0x0F) 1 [0x90 + c.code, X64.modRm 3 0 r.low]
      ⟨"SET" ++ c.suffix, [regOperand .byte r]⟩ := by
    refine ⟨fun rest => ?_⟩
    cases c <;> cases r <;>
      first | exact absurd low (by decide) | exact ⟨_, rfl, rfl, rfl, by rintro _ ⟨⟩⟩
  refine spells_plain (by decide) reads (by simp) ?_ (.inl (List.cons_ne_nil _ _))
  show "SET" ++ c.suffix ≠ "XCHG"
  cases c <;> decide

/-- The reading of a jump's distance. -/
theorem reads_jump (r : Reader Body) (name : String) (row : r = sized name fun _ => [.rel32])
    (start : Nat) (distance : Int32) :
    Reads none r start (bytes32 distance.toUInt32) ⟨name, [.rel distance]⟩ := by
  refine ⟨fun rest => ⟨⟨rest, start + 4, [], 0, none⟩, ?_, rfl, rfl, by rintro _ ⟨⟩⟩⟩
  have same : (UInt32.ofNat distance.toUInt32.toNat).toInt32 = distance := by
    rw [UInt32.ofNat_toNat]
    rfl
  rw [row, run_sized_plain rfl rfl, run_inst_constant _ _ rfl]
  show (number 4 _ _ >>= _) = _
  rw [run_number32, ok_bind]
  show Except.ok ((⟨name, [Operand.rel (UInt32.ofNat distance.toUInt32.toNat).toInt32]⟩ : Body), _) = _
  rw [same]
  rfl

theorem spells_jmp (distance : Int32) :
    Spells (Instr.jmp distance).encode (Instr.jmp distance).listed :=
  spells_plain (by decide) (reads_jump (opcode 0xE9) "JMP" rfl 1 distance) (by simp [bytes32])
    (show "JMP" ≠ "XCHG" by decide) (.inl (List.cons_ne_nil _ _))

theorem spells_jcc (c : Cond) (distance : Int32) :
    Spells (Instr.jcc c distance).encode (Instr.jcc c distance).listed := by
  have row : extended0F (0x80 + c.code).toNat = sized ("J" ++ c.suffix) fun _ => [.rel32] := by
    cases c <;> rfl
  refine spells_plain (by decide) (reads_jump _ _ row 2 distance).extended (by simp [bytes32]) ?_
    (.inl (List.cons_ne_nil _ _))
  show "J" ++ c.suffix ≠ "XCHG"
  cases c <;> decide

end Short

end Decode

open Decode in
/-- An instruction of generated code is decoded as what it is listed as. -/
theorem spells_encode (i : Instr Int32) (legible : i.Legible) : Spells i.encode i.listed := by
  cases i with
  | push r => exact spells_push r
  | pop r => exact spells_pop r
  | subRsp n => exact spells_subRsp n
  | ret =>
    have reads : Reads none (opcode 0xC3) 1 [] ⟨"RET", []⟩ :=
      ⟨fun rest => ⟨_, rfl, rfl, rfl, by rintro _ ⟨⟩⟩⟩
    exact spells_plain (by decide) reads (by decide) (by decide) (.inr (by decide))
  | ud2 =>
    have reads : Reads none (opcode 0x0F) 1 [0x0B] ⟨"UD2", []⟩ :=
      ⟨fun rest => ⟨_, rfl, rfl, rfl, by rintro _ ⟨⟩⟩⟩
    exact spells_plain (by decide) reads (by decide) (by decide) (.inr (by decide))
  | alu op dst src => exact spells_alu op dst src
  | movImm r imm => exact spells_movImm r imm
  | load r disp => exact spells_load r disp
  | store disp r => exact spells_store r disp
  | widen w dst src => exact spells_widen w dst src
  | mov32 dst src => exact spells_mov32 dst src
  | imul dst src => exact spells_imul dst src
  | andImm r imm => exact spells_imm8 "AND" 4 (by decide) rfl (by decide) r imm
  | xorImm r imm => exact spells_imm8 "XOR" 6 (by decide) rfl (by decide) r imm
  | neg r => exact spells_neg r
  | not r => exact spells_not r
  | shift s r => exact spells_shift s r
  | setcc c r => exact spells_setcc c r legible
  | cmov c dst src => exact spells_cmov c dst src
  | jmp distance => exact spells_jmp distance
  | jcc c distance => exact spells_jcc c distance

section Recognised

open Decode

theorem plain?_frameOperand (disp : Int32) : (frameOperand disp).plain? = some (.mem .rbp disp) := by
  have base : (Register.rax.add 5).general? = some (.qword, .rbp) := rfl
  have same : (Int64.ofNat disp.toUInt32.toNat).toInt32 = disp := by
    apply Int32.toBitVec_inj.mp
    simp
  simp only [frameOperand, Operand.plain?, base, same]

variable {name : String} {x y : Operand} {p q : Plain} {i : Instr Int32}

theorem instr?_one (plain : x.plain? = some p) (meaning : Decoded.instrOf? name [p] = some i) :
    Decoded.instr? ⟨[], name, [x]⟩ = some i := by
  simpa [Decoded.instr?, plain] using meaning

theorem instr?_two (first : x.plain? = some p) (second : y.plain? = some q)
    (meaning : Decoded.instrOf? name [p, q] = some i) :
    Decoded.instr? ⟨[], name, [x, y]⟩ = some i := by
  simpa [Decoded.instr?, first, second] using meaning

/-- A listing is that of one instruction only. -/
theorem instr?_listed (i : Instr Int32) : i.listed.instr? = some i := by
  cases i with
  | push r => exact instr?_one (plain?_regOperand _ _) rfl
  | pop r => exact instr?_one (plain?_regOperand _ _) rfl
  | subRsp n =>
    refine instr?_two (plain?_regOperand _ _) rfl ?_
    show some (Instr.subRsp n.toInt64.toInt32) = _
    rw [Int32.toInt32_toInt64]
  | ret => rfl
  | ud2 => rfl
  | alu op dst src =>
    refine instr?_two (plain?_regOperand _ _) (plain?_regOperand _ _) ?_
    cases op with
    -- the stack pointer has its own subtraction
    | sub => cases dst <;> rfl
    | _ => rfl
  | movImm r imm => exact instr?_two (plain?_regOperand _ _) rfl rfl
  | load r disp => exact instr?_two (plain?_regOperand _ _) (plain?_frameOperand _) rfl
  | store disp r => exact instr?_two (plain?_frameOperand _) (plain?_regOperand _ _) rfl
  | widen w dst src =>
    refine instr?_two (plain?_regOperand _ _) (plain?_regOperand _ _) ?_
    cases w <;> rfl
  | mov32 dst src => exact instr?_two (plain?_regOperand _ _) (plain?_regOperand _ _) rfl
  | imul dst src => exact instr?_two (plain?_regOperand _ _) (plain?_regOperand _ _) rfl
  | andImm r imm =>
    refine instr?_two (plain?_regOperand _ _) rfl ?_
    show some (Instr.andImm r imm.toInt64.toInt8) = _
    rw [Int8.toInt8_toInt64]
  | xorImm r imm =>
    refine instr?_two (plain?_regOperand _ _) rfl ?_
    show some (Instr.xorImm r imm.toInt64.toInt8) = _
    rw [Int8.toInt8_toInt64]
  | neg r => exact instr?_one (plain?_regOperand _ _) rfl
  | not r => exact instr?_one (plain?_regOperand _ _) rfl
  | shift s r =>
    refine instr?_two (plain?_regOperand _ _) (plain?_regOperand _ _) ?_
    cases s <;> rfl
  | setcc c r =>
    refine instr?_one (plain?_regOperand _ _) ?_
    cases c <;> rfl
  | cmov c dst src =>
    refine instr?_two (plain?_regOperand _ _) (plain?_regOperand _ _) ?_
    cases c <;> rfl
  | jmp distance => exact instr?_one rfl rfl
  | jcc c distance =>
    refine instr?_one rfl ?_
    cases c <;> rfl

/-- An instruction of generated code is decoded from the front of what starts with its bytes. -/
theorem instrAt_encode (i : Instr Int32) (legible : i.Legible) (rest : List UInt8) :
    instrAt (i.encode ++ rest) = some (i, i.encode.length) := by
  rw [instrAt, spells_encode i legible rest]
  show i.listed.instr?.map (·, i.encode.length) = _
  rw [instr?_listed]
  rfl

end Recognised

end TieredEngine.Native.X64
