import TieredEngine.Native.X64.Machine

/-!
The decoder reads back what was encoded. A generated instruction has at most one prefix, so the
judgement of prefixes leaves it alone; what remains is the reading of an opcode, of the byte that
names registers, and of constants with the lowest byte first.
-/
namespace TieredEngine.Native.X64

namespace Reg

theorem code_lt (r : Reg) : r.code < 16 := by cases r <;> decide

theorem code_split (r : Reg) : r.code % 8 + (if r.isExtended then 8 else 0) = r.code := by
  cases r <;> rfl

theorem ofCode_code (r : Reg) : ofCode r.code = r := by cases r <;> rfl

end Reg

/-- The prefix of an instruction with 64-bit operands, by the high bits of its registers. -/
def wideByte (reg rm : Bool) : UInt8 :=
  0x48 ||| (if reg then 4 else 0) ||| (if rm then 1 else 0)

theorem wideFor_eq (reg rm : Reg) : wideFor reg rm = wideByte reg.isExtended rm.isExtended := by
  cases reg <;> cases rm <;> rfl

/-- The parts of an operand byte. -/
theorem modRm_parts (mode : Nat) (small : mode < 4) (digit : Nat) (low : digit < 8) (rm : Reg) :
    (modRm (UInt8.ofNat mode) (UInt8.ofNat digit) rm.low).toNat / 64 = mode ∧
      (modRm (UInt8.ofNat mode) (UInt8.ofNat digit) rm.low).toNat / 8 % 8 = digit ∧
      (modRm (UInt8.ofNat mode) (UInt8.ofNat digit) rm.low).toNat % 8 = rm.code % 8 := by
  have modes : ∀ mode < 4, ∀ digit < 8, ∀ low < 8,
      (modRm (UInt8.ofNat mode) (UInt8.ofNat digit) (UInt8.ofNat low)).toNat / 64 = mode ∧
      (modRm (UInt8.ofNat mode) (UInt8.ofNat digit) (UInt8.ofNat low)).toNat / 8 % 8 = digit ∧
      (modRm (UInt8.ofNat mode) (UInt8.ofNat digit) (UInt8.ofNat low)).toNat % 8 = low := by
    decide +kernel
  exact modes mode small digit low (rm.code % 8) (Nat.mod_lt _ (by decide))

/-- The bytes of a word make up the word. -/
theorem sum_bytes32 (w : UInt32) :
    w.toUInt8.toNat + 256 * ((w >>> 8).toUInt8.toNat + 256 * ((w >>> 16).toUInt8.toNat +
      256 * ((w >>> 24).toUInt8.toNat + 256 * 0))) = w.toNat := by
  have bound := w.toNat_lt
  simp only [UInt32.toNat_toUInt8, UInt32.toNat_shiftRight, UInt32.reduceToNat,
    Nat.shiftRight_eq_div_pow, Nat.reduceMod, Nat.reducePow]
  omega

/-- As above, for the bytes as they stand in a list. -/
theorem sum_bytes64 (w : UInt64) : ∃ a b c d e f g h : UInt8, bytes64 w = [a, b, c, d, e, f, g, h] ∧
    a.toNat + 256 * (b.toNat + 256 * (c.toNat + 256 * (d.toNat + 256 * (e.toNat + 256 *
      (f.toNat + 256 * (g.toNat + 256 * (h.toNat + 256 * 0))))))) = w.toNat := by
  have low := sum_bytes32 w.toUInt32
  have high := sum_bytes32 (w >>> 32).toUInt32
  have whole : w.toUInt32.toNat + 4294967296 * (w >>> 32).toUInt32.toNat = w.toNat := by
    have bound := w.toNat_lt
    simp only [UInt64.toNat_toUInt32, UInt64.toNat_shiftRight, UInt64.reduceToNat,
      Nat.shiftRight_eq_div_pow, Nat.reduceMod, Nat.reducePow]
    omega
  refine ⟨_, _, _, _, _, _, _, _, rfl, ?_⟩
  rw [← whole, ← low, ← high]
  clear whole low high
  generalize w.toUInt32.toUInt8.toNat = a
  omega

/-- Prefixes of generated code: none, or one that widens operands or extends registers. -/
def Marks.ofRex (rex : Option UInt8) : Marks :=
  { all := rex.toList.map fun b => ⟨.byte b, false⟩, rex }

namespace Decode

section Running

variable {α β : Type} {m : Marks} {s : State}

theorem run_bind (x : Reader α) (f : α → Reader β) :
    (x >>= f) m s = (x m s >>= fun p => f p.1 m p.2) := rfl

theorem run_pure (a : α) : (pure a : Reader α) m s = .ok (a, s) := rfl

theorem run_read : (read : Reader Marks) m s = .ok (m, s) := rfl

theorem run_get : (get : Reader State) m s = .ok (s, s) := rfl

theorem run_modify (f : State → State) : (modify f : Reader Unit) m s = .ok ((), f s) := rfl

theorem ok_bind {ε γ δ : Type} (a : γ) (f : γ → Except ε δ) : (Except.ok a >>= f) = f a := rfl

theorem run_byte (b : UInt8) (rest : List UInt8) (used : Nat) (marks : List Mark) (rexUsed : UInt8)
    (operand : Option ModRm) :
    byte m ⟨b :: rest, used, marks, rexUsed, operand⟩ =
      .ok (b, ⟨rest, used + 1, marks, rexUsed, operand⟩) := rfl

/-- Four bytes are read as one number. -/
theorem run_number32 (w : UInt32) (rest : List UInt8) (used : Nat) (marks : List Mark)
    (rexUsed : UInt8) (operand : Option ModRm) :
    number 4 m ⟨bytes32 w ++ rest, used, marks, rexUsed, operand⟩ =
      .ok (w.toNat, ⟨rest, used + 4, marks, rexUsed, operand⟩) := by
  rw [← sum_bytes32 w]
  rfl

/-- Eight bytes are read as one number. -/
theorem run_number64 (w : UInt64) (rest : List UInt8) (used : Nat) (marks : List Mark)
    (rexUsed : UInt8) (operand : Option ModRm) :
    number 8 m ⟨bytes64 w ++ rest, used, marks, rexUsed, operand⟩ =
      .ok (w.toNat, ⟨rest, used + 8, marks, rexUsed, operand⟩) := by
  obtain ⟨a, b, c, d, e, f, g, h, bytes, sum⟩ := sum_bytes64 w
  rw [bytes, ← sum]
  rfl

/-- The fourth bit of a register's number counts, and is noted. -/
theorem run_extended (is : Bool) (bit : RexBit) (n : Nat) (rest : List UInt8) (used : Nat)
    (marks : List Mark) (rexUsed : UInt8) (operand : Option ModRm) :
    extended is bit n m ⟨rest, used, marks, rexUsed, operand⟩ =
      .ok (n + (if is then 8 else 0),
        ⟨rest, used, marks, rexUsed ||| (if is then bit.code else 0), operand⟩) := by
  cases is with
  | true => rfl
  | false =>
    simp only [extended, Bool.false_eq_true, if_false, Nat.add_zero, UInt8.or_zero]
    rfl

/-- Operands have 64 bits under the widening prefix. -/
theorem run_sized_wide (wide : m.rexBit 3 = true) (name : String) (forms : Width → List Form)
    (rest : List UInt8) (used : Nat) (marks : List Mark) (rexUsed : UInt8)
    (operand : Option ModRm) :
    sized name forms m ⟨rest, used, marks, rexUsed, operand⟩ =
      inst name (forms .qword) m ⟨rest, used, marks, rexUsed ||| 8, operand⟩ := by
  unfold sized bySize size
  simp only [run_bind, run_read, ok_bind, wide, if_true, run_pure]
  rfl

/-- Without prefixes operands have 32 bits. -/
theorem run_sized_plain (narrow : m.rexBit 3 = false) (data : m.data = none) (name : String)
    (forms : Width → List Form) : sized name forms m s = inst name (forms .dword) m s := by
  unfold sized bySize size
  simp only [run_bind, run_read, ok_bind, narrow, data, Bool.false_eq_true, if_false,
    Option.isSome_none, run_pure, imply]

/-- An operand byte that names two registers. -/
theorem run_modRm_registers {b : UInt8} (mode : b.toNat / 64 = 3) (rest : List UInt8) (used : Nat)
    (marks : List Mark) (rexUsed : UInt8) :
    modRm m ⟨b :: rest, used, marks, rexUsed, none⟩ =
      let read : ModRm := ⟨b, b.toNat / 8 % 8 + (if m.rexBit 2 then 8 else 0),
        b.toNat % 8 + (if m.extendsBase then 8 else 0), none⟩
      .ok (read, ⟨rest, used + 1, marks, rexUsed ||| (if m.rexBit 2 then RexBit.r.code else 0) |||
        (if m.extendsBase then RexBit.b.code else 0), some read⟩) := by
  unfold modRm
  simp only [run_bind, run_get, run_read, ok_bind, run_byte, run_extended, mode, ne_eq, not_true,
    decide_false, Bool.and_false, Bool.false_eq_true, if_false, if_true, run_pure, run_modify]

/-- An operand byte that names a register and the memory at a distance from `rbp`. -/
theorem run_modRm_frame {b : UInt8} (mode : b.toNat / 64 = 2) (base : b.toNat % 8 = 5)
    (short : m.extendsBase = false) (address : m.address = none) (disp : UInt32)
    (rest : List UInt8) (used : Nat) (marks : List Mark) (rexUsed : UInt8) :
    modRm m ⟨b :: (bytes32 disp ++ rest), used, marks, rexUsed, none⟩ =
      let read : ModRm := ⟨b, b.toNat / 8 % 8 + (if m.rexBit 2 then 8 else 0), 5,
        some { base := some (Register.rax.add 5), disp := Int64.ofNat disp.toNat }⟩
      .ok (read, ⟨rest, used + 5, marks, rexUsed ||| (if m.rexBit 2 then RexBit.r.code else 0),
        some read⟩) := by
  unfold modRm
  simp only [run_bind, run_get, run_read, ok_bind, run_byte, run_extended, mode, base, short,
    distance, distance32, addressBase, address, run_number32, run_pure, run_modify, UInt8.or_zero,
    Nat.reduceEqDiff, Nat.reduceBEq, ne_eq, not_false_eq_true, decide_true, decide_false,
    Bool.false_and, Bool.true_or, Bool.false_eq_true, if_true, if_false, Option.isSome_none]

theorem run_modRm_again (r : ModRm) (rest : List UInt8) (used : Nat) (marks : List Mark)
    (rexUsed : UInt8) : modRm m ⟨rest, used, marks, rexUsed, some r⟩ =
      .ok (r, ⟨rest, used, marks, rexUsed, some r⟩) := rfl

/-- A register of more than a byte. -/
theorem run_register (w : Width) (long : w ≠ .byte) (n : Nat) :
    register (.general w) n m s = .ok (.reg ((Class.general w).first.add n), s) := by
  have class_ : (Class.general w == Class.general .byte) = false := by cases w <;> simp_all
  simp only [register, class_, Bool.false_and, Bool.false_eq_true, if_false]
  rfl

/-- The first and the second register of an operand byte, for operands of more than a byte. -/
theorem run_operand_reg (w : Width) (long : w ≠ .byte) (v : Nat) (r : ModRm) (rest : List UInt8)
    (used : Nat) (marks : List Mark) (rexUsed : UInt8) :
    operand (.reg (.general w)) v m ⟨rest, used, marks, rexUsed, some r⟩ =
      .ok (.reg ((Class.general w).first.add r.reg), ⟨rest, used, marks, rexUsed, some r⟩) := by
  simp only [operand, run_bind, run_modRm_again, ok_bind, firstRegister]
  exact run_register w long r.reg

theorem run_operand_rm (w : Width) (long : w ≠ .byte) (v : Nat) (b : UInt8) (reg rm : Nat)
    (rest : List UInt8) (used : Nat) (marks : List Mark) (rexUsed : UInt8) :
    operand (.regOrMem (.general w)) v m ⟨rest, used, marks, rexUsed, some ⟨b, reg, rm, none⟩⟩ =
      .ok (.reg ((Class.general w).first.add rm),
        ⟨rest, used, marks, rexUsed, some ⟨b, reg, rm, none⟩⟩) := by
  simp only [operand, run_bind, run_modRm_again, ok_bind, secondRegister]
  exact run_register w long rm

/-- One operand without a constant. -/
theorem run_inst_one (name : String) (f : Form) (reads : f.usesModRm = true)
    (plain : f.fetch = pure 0) : inst name [f] m s =
      (modRm m s >>= fun p => operand f 0 m p.2 >>= fun a => .ok (⟨name, [a.1]⟩, a.2)) := by
  simp only [inst, List.any_cons, reads, Bool.true_or, if_true, run_bind]
  cases modRm m s with
  | error e => rfl
  | ok p =>
    simp only [ok_bind, plain, List.mapM_cons, List.mapM_nil, run_bind, run_pure,
      List.zip_cons_cons, List.zip_nil_right]
    cases operand f 0 m p.2 <;> rfl

/-- One operand that is a constant. -/
theorem run_inst_constant (name : String) (f : Form) (constant : f.usesModRm = false) :
    inst name [f] m s =
      (f.fetch m s >>= fun v => operand f v.1 m v.2 >>= fun a => .ok (⟨name, [a.1]⟩, a.2)) := by
  simp only [inst, List.any_cons, List.any_nil, constant, Bool.or_false, Bool.false_eq_true,
    if_false, run_bind, run_pure, ok_bind, List.mapM_cons, List.mapM_nil]
  cases f.fetch m s with
  | error e => rfl
  | ok v =>
    simp only [ok_bind, List.zip_cons_cons, List.zip_nil_right, List.mapM_cons, List.mapM_nil,
      run_bind, run_pure]
    cases operand f v.1 m v.2 <;> rfl

/-- A register in the opcode, and a constant. -/
theorem run_inst_inOpcode (name : String) (c : Class) (n : Nat) (g : Form)
    (constant : g.usesModRm = false) : inst name [.inOpcode c n, g] m s =
      (g.fetch m s >>= fun v => operand (.inOpcode c n) 0 m v.2 >>= fun a =>
        operand g v.1 m a.2 >>= fun b => .ok (⟨name, [a.1, b.1]⟩, b.2)) := by
  have own : (Form.inOpcode c n).usesModRm = false := rfl
  have plain : (Form.inOpcode c n).fetch = pure 0 := rfl
  simp only [inst, List.any_cons, List.any_nil, constant, own, plain, Bool.or_false,
    Bool.false_eq_true, if_false, run_bind, run_pure, ok_bind, List.mapM_cons, List.mapM_nil]
  cases g.fetch m s with
  | error e => rfl
  | ok v =>
    simp only [ok_bind, List.zip_cons_cons, List.zip_nil_right, List.mapM_cons, List.mapM_nil,
      run_bind, run_pure]
    cases operand (.inOpcode c n) 0 m v.2 with
    | error e => rfl
    | ok a =>
      simp only [ok_bind]
      cases operand g v.1 m a.2 <;> rfl

/-- Two operands of which only the first needs the operand byte. -/
theorem run_inst_two (name : String) (f g : Form) (reads : f.usesModRm = true)
    (plain : f.fetch = pure 0) : inst name [f, g] m s =
      (modRm m s >>= fun p => g.fetch m p.2 >>= fun v => operand f 0 m v.2 >>= fun a =>
        operand g v.1 m a.2 >>= fun b => .ok (⟨name, [a.1, b.1]⟩, b.2)) := by
  simp only [inst, List.any_cons, reads, Bool.true_or, if_true, run_bind]
  cases modRm m s with
  | error e => rfl
  | ok p =>
    simp only [ok_bind, plain, List.mapM_cons, List.mapM_nil, run_bind, run_pure]
    cases g.fetch m p.2 with
    | error e => rfl
    | ok v =>
      simp only [ok_bind, List.zip_cons_cons, List.zip_nil_right, List.mapM_cons, List.mapM_nil,
        run_bind, run_pure]
      cases operand f 0 m v.2 with
      | error e => rfl
      | ok a =>
        simp only [ok_bind]
        cases operand g v.1 m a.2 <;> rfl

end Running

/-- Each bit of the prefix had an effect. -/
def Counts (rex used : UInt8) : Prop := rex &&& ~~~ (if used = 0 then 0 else used ||| 0x40) = 0

instance (rex used : UInt8) : Decidable (Counts rex used) :=
  inferInstanceAs (Decidable (_ = _))

/-- Bytes that a reader takes for an instruction, whatever follows them, and in which each bit of
the prefix counts. The reader starts after `start` bytes. -/
structure Reads (rex : Option UInt8) (r : Reader Body) (start : Nat) (more : List UInt8)
    (body : Body) : Prop where
  run : ∀ rest, ∃ s, r (.ofRex rex) ⟨more ++ rest, start, (Marks.ofRex rex).all, 0, none⟩ =
      .ok (body, s) ∧
    s.marks = (Marks.ofRex rex).all ∧ s.used = start + more.length ∧
    ∀ b ∈ rex, Counts b s.rexUsed

/-- The judgement of prefixes changes nothing. -/
theorem finish_eq {rex : Option UInt8} (isRex : ∀ b ∈ rex, Marks.isRex b = true) {body : Body}
    (name : body.mnemonic ≠ "XCHG") (args : body.args ≠ [] ∨ Draft.stringArgs body.mnemonic = [])
    (op : UInt8) {s : State} (marks : s.marks = (Marks.ofRex rex).all)
    (counts : ∀ b ∈ rex, Counts b s.rexUsed) :
    (Draft.mk body op (.ofRex rex) s).finish = ⟨[], body.mnemonic, body.args⟩ := by
  let d : Draft := ⟨body, op, .ofRex rex, s⟩
  have idle : d.nameIdle = d := by
    unfold Draft.nameIdle
    rw [if_pos]
    simp [d, name]
  have strings : d.addStringArgs = d := by
    unfold Draft.addStringArgs
    rcases args with some | none
    · rw [if_pos]
      simpa [d] using some
    · simp [d, none]
  have memory : d.implyMemory = d := by
    unfold Draft.implyMemory
    split <;> rfl
  have count : d.marks.groupCount = 0 := by
    cases rex <;> rfl
  have same : ∀ marks : List Mark, { d with state := { s with marks := marks } } = d ↔
      marks = s.marks := by
    intro marks
    constructor
    · intro equal
      exact congrArg (fun d : Draft => d.state.marks) equal
    · rintro rfl
      rfl
  have hints : d.nameHints = d := by
    unfold Draft.nameHints Draft.mapMarks
    simp only [count, List.take_zero, List.drop_zero, Draft.changeLast, List.nil_append]
    split <;> split <;> rfl
  have elisions : d.nameElisions = d := by
    unfold Draft.nameElisions Draft.mapMarks
    split
    · rfl
    · refine (same _).mpr ?_
      show s.marks.map _ = s.marks
      rw [marks]
      cases rex with
      | none => rfl
      | some b =>
        have prefixed := isRex b rfl
        have plain : b ≠ 0xF2 ∧ b ≠ 0xF3 := by
          constructor <;> rintro rfl <;> simp [Marks.isRex] at prefixed
        simp [Marks.ofRex, plain.1, plain.2]
  unfold Draft.finish
  rw [show Draft.mk body op (.ofRex rex) s = d from rfl, idle, strings, memory, hints, elisions]
  cases rex with
  | none => simp [Draft.implyRex, d, marks, Marks.ofRex, Draft.shownMarks]
  | some b =>
    have used : b &&& ~~~ (if s.rexUsed = 0 then 0 else s.rexUsed ||| 0x40) = 0 := counts b rfl
    simp only [Draft.implyRex, Draft.imply, d, marks, Marks.ofRex, used, if_true, Decoded.mk.injEq,
      and_self, and_true]
    unfold Draft.shownMarks
    rw [List.map_eq_nil_iff, List.filter_eq_nil_iff]
    intro mark member
    have own := (List.takeWhile_sublist _).mem member
    simp_all [Marks.groupCount, Marks.ofRex]

/-- Bytes that can only be an opcode when an instruction starts with them. -/
def startsOpcode (b : UInt8) : Bool :=
  !Marks.isRex b &&
    !([0xF0, 0xF2, 0xF3, 0x26, 0x2E, 0x36, 0x3E, 0x64, 0x65, 0x66, 0x67, 0xC4, 0xC5].contains b)

theorem read_prefixes {rex : Option UInt8} (isRex : ∀ b ∈ rex, Marks.isRex b = true) {op : UInt8}
    (starts : rex = none → startsOpcode op = true) (rest : List UInt8) :
    Marks.read (rex.toList ++ op :: rest) = (.ofRex rex, op :: rest) := by
  cases rex with
  | none =>
    have plain := starts rfl
    simp only [startsOpcode, List.contains_cons, List.contains_nil, Bool.or_false, Bool.and_eq_true,
      Bool.not_eq_true', Bool.or_eq_false_iff, beq_eq_false_iff_ne] at plain
    simp [Marks.read, Marks.readVex, Marks.readGroups, Marks.ofRex, plain]
  | some b =>
    have prefixed := isRex b rfl
    have plain : ∀ n : UInt8, Marks.isRex n = false → b ≠ n := by
      rintro n other rfl
      rw [prefixed] at other
      cases other
    simp [Marks.read, Marks.readVex, Marks.readGroups, Marks.ofRex, Marks.push, MarkKind.ofByte,
      prefixed, plain 0xF0 (by decide), plain 0xF2 (by decide), plain 0xF3 (by decide),
      plain 0x26 (by decide), plain 0x2E (by decide), plain 0x36 (by decide),
      plain 0x3E (by decide), plain 0x64 (by decide), plain 0x65 (by decide),
      plain 0x66 (by decide), plain 0x67 (by decide), plain 0xC4 (by decide),
      plain 0xC5 (by decide)]

/-- What the bytes are decoded as, whatever follows them. -/
def Spells (bytes : List UInt8) (d : Decoded) : Prop :=
  ∀ rest, decode (bytes ++ rest) = .ok (d, bytes.length)

/-- Bytes that are read as an instruction are decoded as it. -/
theorem spells_of_reads {rex : Option UInt8} (isRex : ∀ b ∈ rex, Marks.isRex b = true)
    {op : UInt8} (starts : rex = none → startsOpcode op = true) {more : List UInt8} {body : Body}
    (reads : Reads rex (opcode op) (rex.toList.length + 1) more body) (short : more.length ≤ 13)
    (name : body.mnemonic ≠ "XCHG")
    (args : body.args ≠ [] ∨ Draft.stringArgs body.mnemonic = []) :
    Spells (rex.toList ++ op :: more) ⟨[], body.mnemonic, body.args⟩ := by
  intro rest
  have few : rex.toList.length ≤ 1 := by cases rex <;> simp
  let kept := rest.take (maxLength - (rex.toList ++ op :: more).length)
  have cut : (rex.toList ++ op :: more ++ rest).take maxLength =
      rex.toList ++ op :: (more ++ kept) := by
    rw [List.take_append, List.take_of_length_le (by simp [maxLength]; omega)]
    simp [kept]
  obtain ⟨s, ran, marks, used, counts⟩ := reads.run kept
  have finished := finish_eq isRex name args op marks counts
  have first : ∃ b front, rex.toList ++ op :: (more ++ kept) = b :: front := by
    cases rex with
    | none => exact ⟨_, _, rfl⟩
    | some b => exact ⟨_, _, rfl⟩
  obtain ⟨b, front, whole⟩ := first
  have prefixes := read_prefixes isRex starts (more ++ kept)
  rw [whole] at prefixes
  have length : (Marks.ofRex rex).all.length = rex.toList.length := by simp [Marks.ofRex]
  unfold decode
  rw [cut, whole]
  simp only [prefixes, length]
  rw [show ((opcode op).run (Marks.ofRex rex)).run
    ⟨more ++ kept, rex.toList.length + 1, (Marks.ofRex rex).all, 0, none⟩ = .ok (body, s) from ran]
  simp only [finished, used, List.length_append, List.length_cons]
  congr 2
  omega

/-- What the prefix of 64-bit operands says. -/
theorem marks_wide (reg rm : Bool) :
    (Marks.ofRex (some (wideByte reg rm))).rexBit 3 = true ∧
      (Marks.ofRex (some (wideByte reg rm))).rexBit 2 = reg ∧
      (Marks.ofRex (some (wideByte reg rm))).extendsBase = rm ∧
      Marks.isRex (wideByte reg rm) = true := by
  cases reg <;> cases rm <;> decide

section Wide

/-- The bits of the prefix that count once both registers are known. -/
def wideUsed (reg rm : Bool) : UInt8 :=
  8 ||| (if reg then RexBit.r.code else 0) ||| (if rm then RexBit.b.code else 0)

theorem wideUsed_counts : ∀ reg rm, Counts (wideByte reg rm) (wideUsed reg rm) ∧
    Counts (wideByte reg rm) (wideUsed reg rm ||| 0x40) := by
  decide

/-- State of a reader of 64-bit operands once the operand byte `b` has been read. -/
def wideState (reg rm : Bool) (b : UInt8) (place : Option Mem) (used : Nat) (rest : List UInt8) :
    State := {
  rest, used
  marks := (Marks.ofRex (some (wideByte reg rm))).all
  rexUsed := wideUsed reg rm
  modRm := some ⟨b, b.toNat / 8 % 8 + (if reg then 8 else 0), b.toNat % 8 + (if rm then 8 else 0),
    place⟩ }

/-- The reading of an operand leaves the state alone, but for a note that there is a prefix. -/
def Leaves (s t : State) : Prop := t = s ∨ t = { s with rexUsed := s.rexUsed ||| 0x40 }

theorem wide_counts {reg rm : Bool} {b : UInt8} {place : Option Mem} {used : Nat}
    {rest : List UInt8} {t : State} (leaves : Leaves (wideState reg rm b place used rest) t) :
    t.marks = (Marks.ofRex (some (wideByte reg rm))).all ∧ t.used = used ∧
      ∀ p ∈ some (wideByte reg rm), Counts p t.rexUsed := by
  rcases leaves with rfl | rfl
  · refine ⟨rfl, rfl, fun p same => ?_⟩
    cases same
    exact (wideUsed_counts reg rm).1
  · refine ⟨rfl, rfl, fun p same => ?_⟩
    cases same
    exact (wideUsed_counts reg rm).2

theorem run_modRm_wide {m : Marks} (reg rm : Bool) (b : UInt8) (place : Option Mem) (used : Nat)
    (rest : List UInt8) : modRm m (wideState reg rm b place used rest) =
      .ok (⟨b, b.toNat / 8 % 8 + (if reg then 8 else 0), b.toNat % 8 + (if rm then 8 else 0), place⟩,
        wideState reg rm b place used rest) := rfl

/-- The instruction at the operand byte `b` is read with operands of the forms. -/
def Enters (reg rm : Bool) (b : UInt8) (place : Option Mem) (bytes : List UInt8) (start : Nat)
    (r : Reader Body) (name : String) (forms : List Form) : Prop :=
  ∀ rest, r (.ofRex (some (wideByte reg rm)))
    ⟨b :: (bytes ++ rest), start, (Marks.ofRex (some (wideByte reg rm))).all, 0, none⟩ =
      inst name forms (.ofRex (some (wideByte reg rm)))
        (wideState reg rm b place (start + 1 + bytes.length) rest)

variable {reg rm : Bool} {b : UInt8} {place : Option Mem} {start : Nat} {bytes : List UInt8}
  {name : String} {f g : Form} {x y : Operand}

/-- The operand byte may have been read before. -/
theorem inst_of_modRm {m : Marks} {s t : State} {r : ModRm} (needs : f.usesModRm = true)
    (fs : List Form) (read : modRm m s = .ok (r, t)) (again : modRm m t = .ok (r, t)) :
    inst name (f :: fs) m s = inst name (f :: fs) m t := by
  simp only [inst, List.any_cons, needs, Bool.true_or, if_true, run_bind, read, again]

theorem enters_sized {forms : Width → List Form} {fs : List Form}
    (form : forms .qword = f :: fs) (needs : f.usesModRm = true) {r : ModRm}
    (read : ∀ rest, modRm (.ofRex (some (wideByte reg rm)))
      ⟨b :: (bytes ++ rest), start, (Marks.ofRex (some (wideByte reg rm))).all, 0 ||| 8, none⟩ =
        .ok (r, wideState reg rm b place (start + 1 + bytes.length) rest))
    (known : ∀ rest, (wideState reg rm b place (start + 1 + bytes.length) rest).modRm = some r) :
    Enters reg rm b place bytes start (sized name forms) name (f :: fs) := by
  intro rest
  rw [run_sized_wide (marks_wide reg rm).1, form]
  refine inst_of_modRm needs fs (read rest) ?_
  have same := known rest
  simp only [wideState] at same ⊢
  rw [same]
  rfl

/-- An instruction whose operand byte names two registers. -/
theorem enters_registers {forms : Width → List Form} {fs : List Form} (mode : b.toNat / 64 = 3)
    (form : forms .qword = f :: fs) (needs : f.usesModRm = true) :
    Enters reg rm b none [] start (sized name forms) name (f :: fs) := by
  refine enters_sized form needs (fun rest => ?_) fun _ => rfl
  obtain ⟨_, first, second, _⟩ := marks_wide reg rm
  rw [List.nil_append, run_modRm_registers mode]
  simp only [first, second]
  rfl

/-- An instruction whose operand byte names a register and a place in the frame. -/
theorem enters_frame (forms : Width → List Form) {fs : List Form} (mode : b.toNat / 64 = 2)
    (base : b.toNat % 8 = 5) (disp : UInt32) (form : forms .qword = f :: fs)
    (needs : f.usesModRm = true) :
    Enters reg false b (some { base := some (Register.rax.add 5), disp := Int64.ofNat disp.toNat })
      (bytes32 disp) start (sized name forms) name (f :: fs) := by
  refine enters_sized form needs (fun rest => ?_) fun _ => rfl
  obtain ⟨_, first, second, _⟩ := marks_wide reg false
  rw [run_modRm_frame mode base second rfl]
  simp only [first, wideState, wideUsed, base, Bool.false_eq_true, if_false, UInt8.or_zero,
    Nat.add_zero]
  rfl

/-- An instruction that is chosen by the digit in the operand byte. -/
theorem enters_digit {row : Nat → Reader Body} {forms : Width → List Form} {fs : List Form}
    (mode : b.toNat / 64 = 3) (chosen : row (b.toNat / 8 % 8) = sized name forms)
    (form : forms .qword = f :: fs) :
    Enters reg rm b none [] start (byDigit row) name (f :: fs) := by
  intro rest
  obtain ⟨wide, first, second, _⟩ := marks_wide reg rm
  simp only [byDigit, run_bind, List.nil_append]
  rw [run_modRm_registers mode]
  simp only [ok_bind, chosen]
  rw [run_sized_wide wide, form]
  simp only [first, second, wideState]
  cases reg <;> cases rm <;> rfl

/-- An instruction of one operand. -/
theorem reads_one {r : Reader Body} (enters : Enters reg rm b place bytes start r name [f])
    (needs : f.usesModRm = true) (plain : f.fetch = pure 0)
    (first : ∀ used rest, operand f 0 (.ofRex (some (wideByte reg rm)))
      (wideState reg rm b place used rest) = .ok (x, wideState reg rm b place used rest)) :
    Reads (some (wideByte reg rm)) r start (b :: bytes) ⟨name, [x]⟩ := by
  refine ⟨fun rest => ⟨wideState reg rm b place (start + 1 + bytes.length) rest, ?_, ?_⟩⟩
  · rw [List.cons_append, enters rest, run_inst_one _ _ needs plain, run_modRm_wide, ok_bind, first,
      ok_bind]
  · obtain ⟨marks, same, counts⟩ := wide_counts (.inl rfl : Leaves (wideState reg rm b place
      (start + 1 + bytes.length) rest) _)
    exact ⟨marks, by rw [same, List.length_cons]; omega, counts⟩

/-- An instruction of two operands, the second of which may be a constant after the operand byte. -/
theorem reads_two {r : Reader Body} {v : Nat} (constant : List UInt8)
    (enters : Enters reg rm b place bytes start r name [f, g])
    (needs : f.usesModRm = true) (plain : f.fetch = pure 0)
    (fetch : ∀ used rest, g.fetch (.ofRex (some (wideByte reg rm)))
      (wideState reg rm b place used (constant ++ rest)) =
        .ok (v, wideState reg rm b place (used + constant.length) rest))
    (first : ∀ used rest, operand f 0 (.ofRex (some (wideByte reg rm)))
      (wideState reg rm b place used rest) = .ok (x, wideState reg rm b place used rest))
    (second : ∀ used rest, ∃ t, operand g v (.ofRex (some (wideByte reg rm)))
      (wideState reg rm b place used rest) = .ok (y, t) ∧
        Leaves (wideState reg rm b place used rest) t) :
    Reads (some (wideByte reg rm)) r start (b :: (bytes ++ constant)) ⟨name, [x, y]⟩ := by
  refine ⟨fun rest => ?_⟩
  obtain ⟨t, ran, leaves⟩ := second (start + 1 + bytes.length + constant.length) rest
  refine ⟨t, ?_, ?_⟩
  · rw [List.cons_append, List.append_assoc, enters (constant ++ rest),
      run_inst_two _ _ _ needs plain, run_modRm_wide, ok_bind, fetch, ok_bind, first, ok_bind, ran,
      ok_bind]
  · obtain ⟨marks, same, counts⟩ := wide_counts leaves
    refine ⟨marks, ?_, counts⟩
    rw [same, List.length_cons, List.length_append]
    omega

/-- How a listing names part of a general register. -/
def regOperand (w : Width) (r : X64.Reg) : Operand :=
  if w = .byte ∧ 4 ≤ r.code then .reg (Register.spb.add (r.code - 4))
  else .reg ((Class.general w).first.add r.code)

theorem plain?_regOperand (w : Width) (r : X64.Reg) :
    (regOperand w r).plain? = some (.reg w r) := by
  cases w <;> cases r <;> rfl

theorem operand_first {w : Width} (long : w ≠ .byte) (r : X64.Reg)
    (digit : b.toNat / 8 % 8 = r.code % 8) (v used : Nat) (rest : List UInt8) :
    operand (.reg (.general w)) v (.ofRex (some (wideByte r.isExtended rm)))
      (wideState r.isExtended rm b place used rest) =
      .ok (regOperand w r, wideState r.isExtended rm b place used rest) := by
  have named : regOperand w r = .reg ((Class.general w).first.add
      (b.toNat / 8 % 8 + (if r.isExtended then 8 else 0))) := by
    rw [digit, r.code_split, regOperand, if_neg (fun part => long part.1)]
  rw [named]
  exact run_operand_reg w long v _ _ _ _ _

theorem operand_second {w : Width} (long : w ≠ .byte) (r : X64.Reg)
    (low : b.toNat % 8 = r.code % 8) (v used : Nat) (rest : List UInt8) :
    operand (.regOrMem (.general w)) v (.ofRex (some (wideByte reg r.isExtended)))
      (wideState reg r.isExtended b none used rest) =
      .ok (regOperand w r, wideState reg r.isExtended b none used rest) := by
  have named : regOperand w r = .reg ((Class.general w).first.add
      (b.toNat % 8 + (if r.isExtended then 8 else 0))) := by
    rw [low, r.code_split, regOperand, if_neg (fun part => long part.1)]
  rw [named]
  exact run_operand_rm w long v _ _ _ _ _ _ _

/-- The second register of an operand byte, of any width. -/
theorem operand_part (w : Width) (r : X64.Reg) (low : b.toNat % 8 = r.code % 8) (v used : Nat)
    (rest : List UInt8) : ∃ t,
    operand (.regOrMem (.general w)) v (.ofRex (some (wideByte reg r.isExtended)))
      (wideState reg r.isExtended b none used rest) = .ok (regOperand w r, t) ∧
        Leaves (wideState reg r.isExtended b none used rest) t := by
  by_cases long : w = .byte
  · subst long
    have byte_ : operand (.regOrMem (.general .byte)) v (.ofRex (some (wideByte reg r.isExtended)))
        (wideState reg r.isExtended b none used rest) =
        register (.general .byte) (b.toNat % 8 + (if r.isExtended then 8 else 0))
          (.ofRex (some (wideByte reg r.isExtended)))
          (wideState reg r.isExtended b none used rest) := rfl
    rw [byte_, low, r.code_split]
    by_cases high : 4 ≤ r.code
    · refine ⟨_, ?_, .inr rfl⟩
      simp only [register, beq_self_eq_true, high, decide_true, Bool.and_self, if_true, run_bind,
        run_read, ok_bind, regOperand, and_self]
      rfl
    · refine ⟨_, ?_, .inl rfl⟩
      simp only [register, high, decide_false, Bool.and_false, if_false, regOperand, and_false]
      rfl
  · exact ⟨_, operand_second long r low v used rest, .inl rfl⟩

/-- An instruction on two registers that writes the second one its operand byte names. -/
theorem reads_store (forms : Width → List Form)
    (form : forms .qword = [rm64, .reg (.general .qword)]) (name : String) (start : Nat)
    (dst src : X64.Reg) :
    Reads (some (wideFor src dst)) (sized name forms) start [X64.modRm 3 src.low dst.low]
      ⟨name, [regOperand .qword dst, regOperand .qword src]⟩ := by
  obtain ⟨mode, digit, low⟩ := modRm_parts 3 (by decide) (src.code % 8) (Nat.mod_lt _ (by decide)) dst
  rw [wideFor_eq]
  exact reads_two [] (enters_registers mode form rfl) rfl rfl (fun _ _ => rfl)
    (operand_second (by decide) dst low 0)
    fun used rest => ⟨_, operand_first (by decide) src digit 0 used rest, .inl rfl⟩

/-- An instruction on two registers that writes the first one its operand byte names. -/
theorem reads_load (forms : Width → List Form) (w : Width)
    (form : forms .qword = [.reg (.general .qword), .regOrMem (.general w)])
    (name : String) (start : Nat) (dst src : X64.Reg) :
    Reads (some (wideFor dst src)) (sized name forms) start [X64.modRm 3 dst.low src.low]
      ⟨name, [regOperand .qword dst, regOperand w src]⟩ := by
  obtain ⟨mode, digit, low⟩ := modRm_parts 3 (by decide) (dst.code % 8) (Nat.mod_lt _ (by decide)) src
  rw [wideFor_eq]
  exact reads_two [] (enters_registers mode form rfl) rfl rfl (fun _ _ => rfl)
    (operand_first (by decide) dst digit 0) (operand_part w src low 0)

end Wide

end Decode

end TieredEngine.Native.X64
