import TieredEngine.Proofs.Eval.Steps
import TieredEngine.Proofs.Ir.NormalForm
import TieredEngine.Proofs.Native.X64.Generated
import TieredEngine.Proofs.Native.X64.Slots

/-!
The code of single instructions. From slots that hold normal values the code of an instruction
computes, in `rax`, the bits of the value that evaluation gives; every operation is met at every
width and signedness by one argument about words.
-/
namespace TieredEngine.Native.X64
open TieredEngine TieredEngine.Ir TieredEngine.Eval

/-- Code that leaves a word in `rax` and nothing else that lasts. -/
def Yields (code : Baseline.Code) (s : State) (w : UInt64) : Prop :=
  ∃ t, runStraight code s = .ok t ∧ s.Keeps t ∧ t.get .rax = w

namespace Yields

variable {s : State}

theorem nil (whole : s.Whole) : Yields [] s (s.get .rax) := ⟨s, rfl, .refl whole, rfl⟩

/-- An instruction in front of code. -/
theorem cons {i : Instr Baseline.Mark} {code : Baseline.Code} {t : State} {w : UInt64}
    (first : (i.mapTarget fun _ => (0 : Int32)).step s = .ok t) (keeps : s.Keeps t)
    (rest : Yields code t w) : Yields (i :: code) s w := by
  obtain ⟨u, ran, kept, held⟩ := rest
  refine ⟨u, ?_, keeps.trans kept, held⟩
  rw [runStraight, first]
  exact ran

/-- A last instruction. -/
theorem last {i : Instr Baseline.Mark} {t : State}
    (only : (i.mapTarget fun _ => (0 : Int32)).step s = .ok t) (keeps : s.Keeps t) :
    Yields [i] s (t.get .rax) :=
  cons only keeps (nil keeps.whole)

end Yields

section Normalize

variable {s : State}

/-- Bringing a register to the normal form of a type. -/
theorem normalize_runs {t : Ty} (word : t.isIntLike = true) {r : X64.Reg} (other : r ≠ .rbp)
    (whole : s.Whole) : ∃ u, runStraight (Baseline.normalizeCode t r) s = .ok u ∧ s.Keeps u ∧
      u.get r = normalize t (s.get r) ∧ ∀ x, x ≠ r → u.get x = s.get x := by
  have written : ∀ w, s.Keeps (s.set r w) ∧ (s.set r w).get r = w ∧
      ∀ x, x ≠ r → (s.set r w).get x = s.get x := by
    intro w
    refine ⟨(State.Keeps.refl whole).set other w, ?_, fun x away => ?_⟩
    · rw [State.get_set whole, if_pos rfl]
    · rw [State.get_set whole, if_neg away]
  cases t with
  | i8 =>
    refine ⟨_, rfl, ?_⟩
    rw [Ir.normalize, ← toInt8_toInt64]
    exact written _
  | i16 =>
    refine ⟨_, rfl, ?_⟩
    rw [Ir.normalize, ← toInt16_toInt64]
    exact written _
  | i32 =>
    refine ⟨_, rfl, ?_⟩
    rw [Ir.normalize, ← toInt32_toInt64]
    exact written _
  | u8 => exact ⟨_, rfl, written _⟩
  | u16 => exact ⟨_, rfl, written _⟩
  | u32 => exact ⟨_, rfl, written _⟩
  | bool =>
    obtain ⟨keeps, own, away⟩ := written (s.get r &&& 1)
    exact ⟨_, rfl, keeps.withFlags _, own, away⟩
  | i64 => exact ⟨s, rfl, .refl whole, rfl, fun _ _ => rfl⟩
  | u64 => exact ⟨s, rfl, .refl whole, rfl, fun _ _ => rfl⟩
  | ptr => exact ⟨s, rfl, .refl whole, rfl, fun _ _ => rfl⟩
  | void => cases word
  | f32 => cases word
  | f64 => cases word

/-- Normalizing ends code that leaves a word. -/
theorem Yields.normalize {code : Baseline.Code} {w : UInt64} (yields : Yields code s w) {t : Ty}
    (word : t.isIntLike = true) :
    Yields (code ++ Baseline.normalizeCode t .rax) s (Ir.normalize t w) := by
  obtain ⟨u, ran, keeps, held⟩ := yields
  obtain ⟨v, more, kept, normal, _⟩ := normalize_runs word (by decide : X64.Reg.rax ≠ .rbp) keeps.whole
  refine ⟨v, ?_, keeps.trans kept, by rw [normal, held]⟩
  rw [runStraight_append ran]
  exact more

end Normalize

section Compare

variable {s : State}

/-- The low byte of a register, set to zero or one and widened. -/
theorem low_byte (w : UInt64) (b : Bool) :
    ((w &&& 0xFFFFFFFFFFFFFF00) ||| (if b then 1 else 0)) &&& 0xFF = if b then 1 else 0 := by
  have apart : 0xFFFFFFFFFFFFFF00 &&& 0xFF = 0 := by decide
  apply UInt64.toNat_inj.mp
  cases b <;> simp [Nat.and_or_distrib_right, Nat.and_assoc, apart]

/-- Turning a condition on the flags into a boolean. -/
theorem yields_setcc {f : Flags} (known : s.flags = some f) (whole : s.Whole) (c : Cond) :
    Yields [.setcc c .rax, .widen .zero8 .rax .rax] s (Value.ofBool (c.holds f)).bits := by
  have first : ((Instr.setcc c .rax : Instr Baseline.Mark).mapTarget fun _ => (0 : Int32)).step s =
      .ok (s.set .rax ((s.get .rax &&& 0xFFFFFFFFFFFFFF00) ||| (if c.holds f then 1 else 0))) := by
    simp only [Instr.mapTarget, Instr.step, known]
  have kept := (State.Keeps.refl whole).set (by decide : X64.Reg.rax ≠ .rbp)
    ((s.get .rax &&& 0xFFFFFFFFFFFFFF00) ||| (if c.holds f then 1 else 0))
  refine .cons first kept ?_
  have own := Yields.last (i := .widen .zero8 .rax .rax) rfl
    ((State.Keeps.refl kept.whole).set (by decide : X64.Reg.rax ≠ .rbp) _)
  simp only [State.get_set kept.whole, State.get_set whole, if_true, Widen.apply, low_byte] at own
  exact own

/-- Comparing two registers. -/
theorem yields_compare (whole : s.Whole) (c : Cond) :
    Yields [.alu .cmp .rax .rcx, .setcc c .rax, .widen .zero8 .rax .rax] s
      (Value.ofBool (c.holds (.ofCompare (s.get .rax) (s.get .rcx)))).bits := by
  let t : State := { s with flags := some (.ofCompare (s.get .rax) (s.get .rcx)) }
  have kept : s.Keeps t := ⟨whole, rfl, rfl⟩
  exact .cons rfl kept (yields_setcc rfl kept.whole c)

/-- Conditions on the flags of a comparison say what comparing the values says. -/
theorem compare_holds {op : Op} {c : Cond} (cond : Baseline.condFor? op = some c) {x y v : Value}
    (left : x.Normal) (right : y.Normal) (compared : Eval.compare op x y = .ok v) :
    v = Value.ofBool (c.holds (.ofCompare x.bits y.bits)) := by
  have whole : op.isFloat = false := by cases op <;> first | rfl | cases cond
  have types : y.ty = x.ty := by
    by_contra different
    simp [Eval.compare, different] at compared
  have word : x.ty.isIntLike = true := by
    by_contra other
    simp [Eval.compare, types, whole, Bool.eq_false_iff.mpr other] at compared
  have order := toWord_lt_iff types left right
  have order' := toWord_lt_iff types.symm right left
  simp only [Eval.compare, types, whole, word, ne_eq, not_true, if_false, Bool.not_true,
    Bool.false_eq_true] at compared
  have equal : (x.bits.toInt64 == y.bits.toInt64) = (x.bits == y.bits) := by
    rw [Bool.eq_iff_iff]
    simp [← Int64.toBitVec_inj, ← UInt64.toBitVec_inj]
  have most : x.toWord ≤ y.toWord ↔ x.bits ≤ y.bits := by
    rw [← UInt64.not_lt, ← UInt64.not_lt, order']
  have least : y.toWord ≤ x.toWord ↔ y.bits ≤ x.bits := by
    rw [← UInt64.not_lt, ← UInt64.not_lt, order]
  cases op with
  | eq =>
    cases cond
    cases compared
    exact congrArg Value.ofBool equal
  | ne =>
    cases cond
    cases compared
    exact congrArg (fun b => Value.ofBool !b) equal
  | lt =>
    cases cond
    cases compared
    rfl
  | le =>
    cases cond
    cases compared
    refine congrArg Value.ofBool ?_
    show _ = (decide (x.bits.toInt64 < y.bits.toInt64) || (x.bits == y.bits))
    rw [← equal, Bool.eq_iff_iff]
    simp [Int64.le_iff_lt_or_eq]
  | gt =>
    cases cond
    cases compared
    refine congrArg Value.ofBool ?_
    show _ = !(decide (x.bits.toInt64 < y.bits.toInt64) || (x.bits == y.bits))
    rw [← equal, Bool.eq_iff_iff, decide_eq_true_iff, ← Int64.not_le, Int64.le_iff_lt_or_eq]
    simp
  | ge =>
    cases cond
    cases compared
    refine congrArg Value.ofBool ?_
    show _ = !decide (x.bits.toInt64 < y.bits.toInt64)
    rw [Bool.eq_iff_iff]
    simp
  | ult =>
    cases cond
    cases compared
    exact congrArg Value.ofBool (decide_eq_decide.mpr order)
  | ule =>
    cases cond
    cases compared
    refine congrArg Value.ofBool ?_
    show _ = (decide (x.bits < y.bits) || (x.bits == y.bits))
    rw [Bool.eq_iff_iff]
    simp [most, UInt64.le_iff_lt_or_eq]
  | ugt =>
    cases cond
    cases compared
    refine congrArg Value.ofBool ?_
    show _ = !(decide (x.bits < y.bits) || (x.bits == y.bits))
    rw [Bool.eq_iff_iff, decide_eq_true_iff, order', ← UInt64.not_le, UInt64.le_iff_lt_or_eq]
    simp
  | uge =>
    cases cond
    cases compared
    refine congrArg Value.ofBool ?_
    show _ = !decide (x.bits < y.bits)
    rw [Bool.eq_iff_iff]
    simp [least]
  | _ => cases cond

end Compare

section Arithmetic

variable {s : State}

/-- An operation on `rax` and another register. -/
theorem yields_alu (whole : s.Whole) {op : Alu} (writes : op.writes = true) (src : X64.Reg) :
    Yields [.alu op .rax src] s (op.result (s.get .rax) (s.get src)) := by
  let t : State := { s with flags := op.flags s.flags (s.get .rax) (s.get src) }
  have kept : s.Keeps t := ⟨whole, rfl, rfl⟩
  have only : (Instr.alu op .rax src).step s =
      .ok (t.set .rax (op.result (s.get .rax) (s.get src))) := by
    simp only [Instr.step, writes, if_true]
    rfl
  have own := Yields.last (i := .alu op .rax src) only (kept.set (by decide) _)
  rwa [State.get_set kept.whole, if_pos rfl] at own

/-- The count of a shift is cut to the width. -/
theorem count_eq {t : Ty} (word : t.isIntLike = true) {y : Value} (type : y.ty = t) :
    y.bits &&& (Int8.ofInt ((t.width : Int) - 1)).toInt64.toUInt64 = shiftCount t y := by
  have mask : (Int8.ofInt ((t.width : Int) - 1)).toInt64.toUInt64 = UInt64.ofNat (t.width - 1) := by
    cases t <;> first | decide | cases word
  have inside : Value.widthMask t.width &&& UInt64.ofNat (t.width - 1) =
      UInt64.ofNat (t.width - 1) := by
    cases t <;> decide
  have wide : t.width ≠ 0 := by cases t <;> first | decide | cases word
  rw [mask, shiftCount, if_neg wide, Value.toWord, type]
  split
  · rw [UInt64.and_assoc, inside]
  · rfl

/-- Shifting `rax` by the count in `rcx`. -/
theorem yields_shift (whole : s.Whole) (k : Shift) {t : Ty} (word : t.isIntLike = true) {y : Value}
    (type : y.ty = t) (count : s.get .rcx = y.bits) :
    Yields [.andImm .rcx (Int8.ofInt ((t.width : Int) - 1)), .shift k .rax] s
      (k.apply (s.get .rax) (shiftCount t y)) := by
  let cut := s.get .rcx &&& (Int8.ofInt ((t.width : Int) - 1)).toInt64.toUInt64
  let u := (s.set .rcx cut).withFlags (.ofWord cut)
  have kept : s.Keeps u := ((State.Keeps.refl whole).set (by decide) cut).withFlags _
  have own := Yields.last (i := .shift k .rax) rfl
    ((State.Keeps.refl kept.whole).set (by decide : X64.Reg.rax ≠ .rbp)
      (k.apply (u.get .rax) (u.get .rcx))).dropFlags
  have result : (State.set u .rax (k.apply (u.get .rax) (u.get .rcx))).dropFlags.get .rax =
      k.apply (s.get .rax) (shiftCount t y) := by
    show (State.set u .rax (k.apply (u.get .rax) (u.get .rcx))).get .rax = _
    rw [State.get_set kept.whole, if_pos rfl]
    show k.apply ((s.set .rcx cut).get .rax) ((s.set .rcx cut).get .rcx) = _
    rw [State.get_set whole, State.get_set whole, if_neg (by decide), if_pos rfl, ← count_eq word type,
      ← count]
  rw [result] at own
  exact .cons rfl kept own

/-- Arithmetic on two registers, brought to normal form, is arithmetic on values. -/
theorem yields_binary {op : Op} {t : Ty} {code : Baseline.Code}
    (made : Baseline.binaryCode op t = .ok code) {x y v : Value}
    (computed : binary op t x y = .ok v) (whole : s.Whole) (rax : s.get .rax = x.bits)
    (rcx : s.get .rcx = y.bits) : Yields (code ++ Baseline.normalizeCode t .rax) s v.bits := by
  have integer : op.isFloat = false := by cases op <;> first | rfl | cases made
  have types : x.ty = t ∧ y.ty = t := by
    by_contra different
    rw [not_and_or] at different
    simp [binary, different] at computed
  have word : t.isIntLike = true := by
    by_contra other
    simp [binary, types.1, types.2, integer, Bool.eq_false_iff.mpr other] at computed
  have plain : ∀ a : Alu, a.writes = true → code = [.alu a .rax .rcx] →
      v = Value.ofBits t (a.result x.bits y.bits) →
      Yields (code ++ Baseline.normalizeCode t .rax) s v.bits := by
    rintro a writes rfl rfl
    have own := (yields_alu whole writes .rcx).normalize word
    rwa [rax, rcx] at own
  have shifted : ∀ k : Shift,
      code = [.andImm .rcx (Int8.ofInt ((t.width : Int) - 1)), .shift k .rax] →
      v = Value.ofBits t (k.apply x.bits (shiftCount t y)) →
      Yields (code ++ Baseline.normalizeCode t .rax) s v.bits := by
    rintro k rfl rfl
    have own := (yields_shift whole k word types.2 rcx).normalize word
    rwa [rax] at own
  simp only [binary, types, integer, word, ne_eq, not_true, or_self, if_false, Bool.not_true,
    Bool.false_eq_true] at computed
  cases op with
  | add => exact plain .add rfl (by cases made; rfl) (by cases computed; rfl)
  | sub => exact plain .sub rfl (by cases made; rfl) (by cases computed; rfl)
  | and => exact plain .and rfl (by cases made; rfl) (by cases computed; rfl)
  | or => exact plain .or rfl (by cases made; rfl) (by cases computed; rfl)
  | xor => exact plain .xor rfl (by cases made; rfl) (by cases computed; rfl)
  | mul =>
    cases made
    cases computed
    have own := Yields.last (i := .imul .rax .rcx) rfl
      ((State.Keeps.refl whole).set (by decide : X64.Reg.rax ≠ .rbp)
        (s.get .rax * s.get .rcx)).dropFlags
    have result : (s.set .rax (s.get .rax * s.get .rcx)).dropFlags.get .rax = x.bits * y.bits := by
      show (s.set .rax (s.get .rax * s.get .rcx)).get .rax = _
      rw [State.get_set whole, if_pos rfl, rax, rcx]
    rw [result] at own
    exact own.normalize word
  | shl => exact shifted .shl (by cases made; rfl) (by cases computed; rfl)
  | shr =>
    by_cases signed : t.isSigned = true
    · simp only [signed, if_true] at computed
      refine shifted .sar ?_ (by cases computed; rfl)
      simp only [Baseline.binaryCode, signed, if_true] at made
      cases made
      rfl
    · simp only [signed, Value.toWord, types.1] at computed
      refine shifted .shr ?_ (by cases computed; rfl)
      simp only [Baseline.binaryCode, signed] at made
      cases made
      rfl
  | _ => cases made

/-- Negation. -/
theorem yields_neg {t : Ty} {x v : Value} (computed : unary .neg t x = .ok v) (whole : s.Whole)
    (rax : s.get .rax = x.bits) : Yields (.neg .rax :: Baseline.normalizeCode t .rax) s v.bits := by
  have type : x.ty = t := by
    by_contra different
    simp [unary, different] at computed
  have word : t.isIntLike = true := by
    by_contra other
    simp [unary, type, Bool.eq_false_iff.mpr other] at computed
  simp only [unary, type, word, ne_eq, not_true, if_false, Bool.not_true, Bool.false_eq_true]
    at computed
  cases computed
  have own := Yields.last (i := .neg .rax) rfl
    (((State.Keeps.refl whole).set (by decide : X64.Reg.rax ≠ .rbp)
      (0 - s.get .rax)).withFlags (.ofCompare 0 (s.get .rax)))
  have result : ((s.set .rax (0 - s.get .rax)).withFlags (.ofCompare 0 (s.get .rax))).get .rax =
      0 - x.bits := by
    show (s.set .rax (0 - s.get .rax)).get .rax = _
    rw [State.get_set whole, if_pos rfl, rax]
  rw [result] at own
  exact own.normalize word

/-- Complement; of a boolean the low bit is turned over. -/
theorem yields_not {t : Ty} {x v : Value} (normal : x.Normal) (computed : unary .not t x = .ok v)
    (whole : s.Whole) (rax : s.get .rax = x.bits) :
    Yields (if t = .bool then [.xorImm .rax 1] else .not .rax :: Baseline.normalizeCode t .rax) s
      v.bits := by
  have type : x.ty = t := by
    by_contra different
    simp [unary, different] at computed
  by_cases boolean : t = .bool
  · simp only [unary, type, boolean, ne_eq, not_true, if_false, if_true] at computed
    rw [if_pos boolean]
    cases computed
    have own := Yields.last (i := .xorImm .rax 1) rfl
      (((State.Keeps.refl whole).set (by decide : X64.Reg.rax ≠ .rbp)
        (s.get .rax ^^^ (1 : Int8).toInt64.toUInt64)).withFlags _)
    have result : ((s.set .rax (s.get .rax ^^^ (1 : Int8).toInt64.toUInt64)).withFlags
        (.ofWord (s.get .rax ^^^ (1 : Int8).toInt64.toUInt64))).get .rax =
        (Value.ofBool !x.toBool).bits := by
      show (s.set .rax (s.get .rax ^^^ (1 : Int8).toInt64.toUInt64)).get .rax = _
      rw [State.get_set whole, if_pos rfl, rax]
      rcases Value.bits_of_bool normal (type.trans boolean) with zero | one
      · simp only [Value.toBool, zero]
        decide
      · simp only [Value.toBool, one]
        decide
    rwa [result] at own
  · rw [if_neg boolean]
    have word : t.isIntLike = true := by
      by_contra other
      simp [unary, type, boolean, Bool.eq_false_iff.mpr other] at computed
    simp only [unary, type, boolean, word, ne_eq, not_true, if_false, Bool.not_true,
      Bool.false_eq_true] at computed
    cases computed
    have own := Yields.last (i := .not .rax) rfl
      ((State.Keeps.refl whole).set (by decide : X64.Reg.rax ≠ .rbp)
        (s.get .rax ^^^ 0xFFFFFFFFFFFFFFFF))
    rw [State.get_set whole, if_pos rfl, rax] at own
    have ones : x.bits ^^^ 0xFFFFFFFFFFFFFFFF = ~~~ x.bits := by
      apply UInt64.toBitVec_inj.mp
      exact BitVec.xor_allOnes
    rw [ones] at own
    exact own.normalize word

/-- Conversion between integer words; to a boolean it tests for non-zero. -/
theorem yields_cast {t : Ty} {x v : Value} (source : x.ty.isFloat = false)
    (target : t.isFloat = false) (computed : Eval.cast t x = .ok v) (whole : s.Whole)
    (rax : s.get .rax = x.bits) :
    Yields (if t = .bool then [.alu .test .rax .rax, .setcc .ne .rax, .widen .zero8 .rax .rax]
      else Baseline.normalizeCode t .rax) s v.bits := by
  have proper : t ≠ .void ∧ x.ty ≠ .void := by
    by_contra void
    rw [not_and_or, not_not, not_not] at void
    simp [Eval.cast, void] at computed
  by_cases boolean : t = .bool
  · simp only [Eval.cast, boolean, source, proper.2, reduceCtorEq, or_self, if_false, if_true,
      Bool.false_eq_true] at computed
    rw [if_pos boolean]
    cases computed
    let u : State := { s with flags := some (.ofWord (s.get .rax &&& s.get .rax)) }
    have kept : s.Keeps u := ⟨whole, rfl, rfl⟩
    have own := Yields.cons (i := .alu .test .rax .rax) rfl kept (yields_setcc rfl kept.whole .ne)
    have same : Cond.ne.holds (.ofWord (s.get .rax &&& s.get .rax)) = (x.bits != 0) := by
      rw [rax, UInt64.and_self]
      rfl
    rwa [same] at own
  · rw [if_neg boolean]
    have words : t.isIntLike = true ∧ x.ty.isIntLike = true := by
      obtain ⟨void, void'⟩ := proper
      constructor
      · cases t <;> first | rfl | contradiction
      · generalize x.ty = u at *
        cases u <;> first | rfl | contradiction
    simp only [Eval.cast, boolean, proper, words, or_self, if_false, if_true] at computed
    cases computed
    have own := (Yields.nil whole).normalize words.1
    rwa [rax, List.nil_append] at own

end Arithmetic

section Instructions

variable {s : State} {b : Nat}

/-- The slot of a register holds a value. -/
structure State.Holds (s : State) (b : Nat) (r : Ir.Reg) (v : Value) : Prop where
  below : r.num < b
  held : s.slot b r.num = v.bits
  normal : v.Normal
  word : v.ty.isFloat = false

theorem State.Keeps.holds {t : State} (keeps : s.Keeps t) {r : Ir.Reg} {v : Value}
    (holds : s.Holds b r v) : t.Holds b r v :=
  ⟨holds.below, (keeps.slot b r.num).trans holds.held, holds.normal, holds.word⟩

/-- Loading an operand. -/
theorem runStraight_load {r : Ir.Reg} {v : Value} (frame : s.OnFrame b) (holds : s.Holds b r v)
    (x : X64.Reg) (code : Baseline.Code) :
    runStraight (.load x (Baseline.slot r) :: code) s = runStraight code (s.set x v.bits) := by
  have loaded : ((Instr.load x (Baseline.slot r) : Instr Baseline.Mark).mapTarget
      fun _ => (0 : Int32)).step s = .ok (s.set x (s.slot b r.num)) := frame.load holds.below x
  rw [runStraight, loaded, holds.held]
  rfl

/-- Loading an operand in front of code. -/
theorem Yields.load {code : Baseline.Code} {w : UInt64} {r : Ir.Reg} {v : Value} (x : X64.Reg)
    (other : x ≠ .rbp) (frame : s.OnFrame b) (holds : s.Holds b r v)
    (rest : Yields code (s.set x v.bits) w) : Yields (.load x (Baseline.slot r) :: code) s w := by
  obtain ⟨t, ran, keeps, held⟩ := rest
  refine ⟨t, ?_, ((State.Keeps.refl frame.whole).set other v.bits).trans keeps, held⟩
  rw [runStraight_load frame holds]
  exact ran

/-- One operand in `rax`. -/
theorem argSlot_one {i : Inst} {d : Int32} (made : Baseline.argSlot i 0 = .ok d) {x : Value}
    (args : List.Forall₂ (s.Holds b) i.args [x]) :
    ∃ r, d = Baseline.slot r ∧ s.Holds b r x := by
  obtain ⟨r, found, rfl⟩ := Baseline.argSlot_eq_ok.mp made
  generalize i.args = rs at args found
  cases args with
  | cons first rest =>
    cases found
    exact ⟨_, rfl, first⟩

theorem Yields.loadBoth {i : Inst} {first second : Int32} (made : Baseline.argSlot i 0 = .ok first)
    (made' : Baseline.argSlot i 1 = .ok second) {x y : Value}
    (args : List.Forall₂ (s.Holds b) i.args [x, y]) (frame : s.OnFrame b) {code : Baseline.Code}
    {w : UInt64}
    (rest : ∀ t : State, t.Whole → t.get .rax = x.bits → t.get .rcx = y.bits → Yields code t w) :
    Yields (.load .rax first :: .load .rcx second :: code) s w := by
  obtain ⟨r, found, rfl⟩ := Baseline.argSlot_eq_ok.mp made
  obtain ⟨r', found', rfl⟩ := Baseline.argSlot_eq_ok.mp made'
  generalize i.args = rs at args found found'
  cases args with
  | cons left others =>
    cases others with
    | cons right none =>
      cases none
      cases found
      cases found'
      have kept := (State.Keeps.refl frame.whole).set (by decide : X64.Reg.rax ≠ .rbp) x.bits
      refine .load .rax (by decide) frame left (.load .rcx (by decide) (kept.onFrame frame)
        (kept.holds right) (rest _ ((State.whole_set _ _).mpr kept.whole) ?_ ?_))
      · rw [State.get_set kept.whole, if_neg (by decide), State.get_set frame.whole, if_pos rfl]
      · rw [State.get_set kept.whole, if_pos rfl]

/-- Operations of one operand, once the operand is in `rax`. -/
theorem Yields.loadOne {i : Inst} {d : Int32} (made : Baseline.argSlot i 0 = .ok d) {x : Value}
    (args : List.Forall₂ (s.Holds b) i.args [x]) (frame : s.OnFrame b) {code : Baseline.Code}
    {w : UInt64} (rest : ∀ t : State, t.Whole → t.get .rax = x.bits → Yields code t w) :
    Yields (.load .rax d :: code) s w := by
  obtain ⟨r, rfl, held⟩ := argSlot_one made args
  refine .load .rax (by decide) frame held (rest _ ((State.whole_set _ _).mpr frame.whole) ?_)
  rw [State.get_set frame.whole, if_pos rfl]

/-- The code of an instruction's value computes what evaluation computes. -/
theorem yields_value {i : Inst} {code : Baseline.Code} (made : Baseline.valueCode i = .ok code)
    (allowed : Baseline.checkInst i = .ok ()) {vs : List Value}
    (args : List.Forall₂ (s.Holds b) i.args vs) {globals : Array Value} {v : Value}
    (computed : compute globals i vs = .ok v) (frame : s.OnFrame b) : Yields code s v.bits := by
  have whole := frame.whole
  unfold Baseline.valueCode at made
  split at made
  · next op =>
    cases made
    simp only [compute, op] at computed
    cases computed
    have own := Yields.last (i := .movImm .rax i.const.bits) rfl
      ((State.Keeps.refl whole).set (by decide : X64.Reg.rax ≠ .rbp) i.const.bits)
    rwa [State.get_set whole, if_pos rfl] at own
  · next op =>
    cases made
    simp only [compute, op] at computed
    cases computed
    have own := yields_alu whole (by rfl : Alu.xor.writes = true) .rax
    rwa [show Alu.xor.result (s.get .rax) (s.get .rax) = 0 from UInt64.xor_self] at own
  · next op =>
    obtain ⟨d, found, same⟩ := bind_eq_ok.mp made
    cases same
    rcases vs with _ | ⟨x, _ | ⟨y, vs⟩⟩ <;> simp only [compute, op] at computed <;> cases computed
    exact .loadOne found args frame fun t whole held => held ▸ .nil whole
  · next op =>
    obtain ⟨d, found, same⟩ := bind_eq_ok.mp made
    cases same
    rw [compute_eq_operate (by rw [op]; decide), op] at computed
    rcases vs with _ | ⟨x, _ | ⟨y, vs⟩⟩ <;>
      simp only [operate, Op.isUnary, if_true, reduceCtorEq] at computed
    exact .loadOne found args frame fun t whole held => yields_neg computed whole held
  · next op =>
    obtain ⟨d, found, same⟩ := bind_eq_ok.mp made
    cases same
    rw [compute_eq_operate (by rw [op]; decide), op] at computed
    rcases vs with _ | ⟨x, _ | ⟨y, vs⟩⟩ <;>
      simp only [operate, Op.isUnary, if_true, reduceCtorEq] at computed
    obtain ⟨_, _, held⟩ := argSlot_one found args
    exact .loadOne found args frame fun t whole rax => yields_not held.normal computed whole rax
  · next op =>
    obtain ⟨d, found, same⟩ := bind_eq_ok.mp made
    cases same
    rcases vs with _ | ⟨x, _ | ⟨y, vs⟩⟩ <;> simp only [compute, op, reduceCtorEq] at computed
    obtain ⟨_, _, held⟩ := argSlot_one found args
    have target : i.ty.isFloat = false := by
      simp only [Baseline.checkInst, op, Op.isFloat, Bool.false_eq_true, if_false] at allowed
      split at allowed
      · cases allowed
      · next words =>
        rw [Bool.or_eq_true, not_or] at words
        exact Bool.eq_false_iff.mpr words.2
    exact .loadOne found args frame fun t whole rax => yields_cast held.word target computed whole rax
  · split at made
    · next isBinary =>
      obtain ⟨d, found, more⟩ := bind_eq_ok.mp made
      obtain ⟨d', found', more⟩ := bind_eq_ok.mp more
      obtain ⟨inner, coded, same⟩ := bind_eq_ok.mp more
      cases same
      rw [compute_eq_operate (Op.not_plain (.inr (.inl isBinary)))] at computed
      have notUnary := Op.isUnary_of_binary isBinary
      rcases vs with _ | ⟨x, _ | ⟨y, _ | ⟨z, vs⟩⟩⟩ <;>
        simp only [operate, notUnary, isBinary, if_true, Bool.false_eq_true, if_false,
          reduceCtorEq] at computed
      exact .loadBoth found found' args frame fun t whole rax rcx =>
        yields_binary coded computed whole rax rcx
    · next notBinary =>
      split at made
      · next c cond =>
        obtain ⟨d, found, more⟩ := bind_eq_ok.mp made
        obtain ⟨d', found', same⟩ := bind_eq_ok.mp more
        cases same
        have compares : i.op.isCompare = true := by
          generalize i.op = op at cond
          cases op <;> first | rfl | cases cond
        have notUnary := (Op.other_of_compare compares).1
        rw [compute_eq_operate (Op.not_plain (.inr (.inr compares)))] at computed
        rcases vs with _ | ⟨x, _ | ⟨y, _ | ⟨z, vs⟩⟩⟩ <;>
          simp only [operate, notUnary, notBinary, Bool.false_eq_true, if_false, reduceCtorEq]
            at computed
        refine .loadBoth found found' args frame fun t whole rax rcx => ?_
        have normal : x.Normal ∧ y.Normal := by
          generalize i.args = rs at args
          cases args with
          | cons left others =>
            cases others with
            | cons right _ => exact ⟨left.normal, right.normal⟩
        rw [compare_holds cond normal.1 normal.2 computed, ← rax, ← rcx]
        exact yields_compare whole c
      · cases made

end Instructions

end TieredEngine.Native.X64
