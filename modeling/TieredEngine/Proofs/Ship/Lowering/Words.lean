import TieredEngine.Llvm.Machine
import TieredEngine.Proofs.Eval.Integers
import TieredEngine.Ship.Lowering

/-!
What lowered operations compute. Evaluation brings sixty-four bits to the normal form of a type; lowered
code has as many bits as the type is wide. On these bits each operation gives what evaluation gives, and
it is one that the language defines: counts of shifts are below the width, and the divisors that are
divided by are neither zero nor, for signed types, minus one.
-/
namespace TieredEngine

namespace Ir

theorem Ty.isFloat_of_isIntLike {t : Ty} (word : t.isIntLike = true) : t.isFloat = false := by
  cases t <;> first | rfl | cases word

/-- The word that lowered code has for a value. -/
def Value.word (v : Value) : Llvm.Word := ⟨v.ty.width, v.low v.ty.width⟩

/-- Patterns and words are the same. -/
theorem Value.word_of_pattern {v : Value} {p : Pattern} (same : v.pattern = p) :
    v.word = ⟨p.width, p.bits⟩ := by
  rw [← same]
  rfl

/-- The word that lowered code has for a result, if it has one. -/
def Value.word? (v : Value) : Option Llvm.Word := if v.ty = .void then none else some v.word

/-- The low bits are those of the number. -/
theorem Value.low_eq_ofInt (v : Value) {n : Nat} (narrow : n ≤ 64) : v.low n = .ofInt n v.number := by
  apply BitVec.eq_of_toNat_eq
  have agree : v.number % (2 ^ n : Nat) = (v.bits.toNat : Int) % (2 ^ n : Nat) := by
    refine v.number_modEq.of_dvd ?_
    exact_mod_cast Nat.pow_dvd_pow 2 narrow
  rw [BitVec.toNat_ofInt, agree, ← Int.natCast_mod, Int.toNat_natCast, low, BitVec.toNat_setWidth]
  rfl

theorem Ty.ofInt_wrap (t : Ty) (n : Int) : BitVec.ofInt t.width (t.wrap n) = .ofInt t.width n := by
  apply BitVec.eq_of_toNat_eq
  have agree : t.wrap n % (2 ^ t.width : Nat) = n % (2 ^ t.width : Nat) := by
    unfold wrap
    split
    · exact Int.bmod_emod
    · exact Int.emod_emod_of_dvd _ (dvd_refl _)
  rw [BitVec.toNat_ofInt, BitVec.toNat_ofInt, agree]

/-- Values in normal form that have the same type and the same low bits are the same. -/
theorem Value.eq_of_low {t : Ty} {x y : Value} (word : t.isIntLike = true) (left : x.Normal)
    (right : y.Normal) (type : x.ty = t) (type' : y.ty = t) (same : x.low t.width = y.low t.width) :
    x = y := by
  obtain ⟨_, p⟩ := x
  obtain ⟨_, q⟩ := y
  cases type
  cases type'
  have bits : p = q := UInt64.toBitVec_inj.mp (by
    rw [← show normalize _ p = p from left, ← show normalize _ q = q from right, toBitVec_normalize word,
      toBitVec_normalize word]
    exact congrArg _ same)
  rw [bits]

end Ir

namespace Eval
open Ir
open Llvm (BinOp IntPred)

variable {t : Ty} {x y : Value}

/-- A conversion between words gives a pattern: of a boolean, whether the operand is not zero; of
another type, the operand's, its width changed by the operand's signedness. -/
theorem cast_pattern {t : Ty} {v w : Value} (normal : v.Normal) (source : v.ty.isIntLike = true)
    (target : t.isIntLike = true) (computed : cast t v = .ok w) :
    w.pattern = if t = .bool then ⟨1, .ofBool (v.pattern.bits ≠ 0)⟩
      else ⟨t.width, v.ty.extend t.width v.pattern.bits⟩ := by
  have types : t ≠ .void ∧ v.ty ≠ .void := by
    constructor
    · rintro rfl
      cases target
    · intro void
      rw [void] at source
      cases source
  have words := Ty.isFloat_of_isIntLike source
  unfold cast at computed
  simp only [types, words, source, target, or_self, if_false, if_true, Bool.false_eq_true]
    at computed
  split at computed
  · next boolean =>
    cases computed
    rw [if_pos boolean]
    simp only [ne_eq, Value.pattern_eq_zero normal source]
    by_cases nothing : v.bits = 0
    · rw [nothing]
      rfl
    · rw [bne_iff_ne.mpr nothing, decide_eq_true nothing]
      rfl
  · next other =>
    cases computed
    rw [if_neg other]
    exact Value.pattern_ofBits normal source target

theorem Gives.shows {r : Except Cause Value} {n : Int} (gives : Gives r t n) :
    Shows r t (.ofInt t.width n) := by
  obtain ⟨v, ran, type, normal, number⟩ := gives
  exact ⟨v, ran, type, normal, number ▸ v.low_eq_ofInt t.width_le⟩

theorem Gives.shows_wrap {r : Except Cause Value} {n : Int} (gives : Gives r t (t.wrap n)) :
    Shows r t (.ofInt t.width n) :=
  t.ofInt_wrap n ▸ gives.shows

/-- Operations that are lowered to one of the same kind. -/
def plainOp? : Op → Option BinOp
  | .add => some .add
  | .sub => some .sub
  | .mul => some .mul
  | .and => some .and
  | .or => some .or
  | .xor => some .xor
  | _ => none

/-- Shifts, which are lowered with the count cut to the width. -/
def shiftOp? (t : Ty) : Op → Option BinOp
  | .shl => some .shl
  | .shr => some (if t.isSigned then .ashr else .lshr)
  | _ => none

section Shifts

variable {w : Nat}

/-- A shift to the left multiplies by a power of two. -/
theorem ofInt_shiftLeft (n : Int) (k : Nat) : BitVec.ofInt w n <<< k = .ofInt w (n * 2 ^ k) := by
  have power : BitVec.twoPow w k = .ofInt w (2 ^ k) := by
    apply BitVec.eq_of_toNat_eq
    rw [BitVec.toNat_twoPow, BitVec.toNat_ofInt]
    norm_cast
  rw [BitVec.shiftLeft_eq_mul_twoPow, power, BitVec.ofInt_mul]

/-- A shift to the right that keeps the sign divides the signed number by a power of two. -/
theorem sshiftRight_eq_ofInt (b : BitVec w) (k : Nat) : b.sshiftRight k = .ofInt w (b.toInt / 2 ^ k) := by
  rw [← BitVec.ofInt_toInt (x := b.sshiftRight k), BitVec.toInt_sshiftRight, Int.shiftRight_eq_div_pow]
  norm_cast

/-- One that brings in zeros divides the unsigned number. -/
theorem ushiftRight_eq_ofInt (b : BitVec w) (k : Nat) : b >>> k = .ofInt w (b.toNat / 2 ^ k) := by
  have small : b.toNat / 2 ^ k < 2 ^ w := Nat.lt_of_le_of_lt (Nat.div_le_self _ _) b.isLt
  have quotient : (b.toNat : Int) / 2 ^ k = (b.toNat / 2 ^ k : Nat) := by
    rw [Int.natCast_ediv, Int.natCast_pow]
    rfl
  apply BitVec.eq_of_toNat_eq
  rw [BitVec.toNat_ushiftRight, Nat.shiftRight_eq_div_pow, quotient, BitVec.toNat_ofInt,
    ← Int.natCast_mod, Int.toNat_natCast, Nat.mod_eq_of_lt small]

end Shifts

section Binary

variable (word : t.isIntLike = true) (left : x.ty = t) (right : y.ty = t)
include word left right

theorem plain_shows {op : Op} {lowered : BinOp} (plain : plainOp? op = some lowered) :
    ∃ b, lowered.apply? (x.low t.width) (y.low t.width) = some b ∧ Shows (binary op t x y) t b := by
  have numbers := x.low_eq_ofInt t.width_le
  have numbers' := y.low_eq_ofInt t.width_le
  cases op <;> cases plain
  case add =>
    refine ⟨_, rfl, ?_⟩
    rw [numbers, numbers', ← BitVec.ofInt_add]
    exact (gives_add word left right).shows_wrap
  case sub =>
    refine ⟨_, rfl, ?_⟩
    rw [numbers, numbers', BitVec.sub_eq_add_neg, ← BitVec.ofInt_neg, ← BitVec.ofInt_add]
    exact (gives_sub word left right).shows_wrap
  case mul =>
    refine ⟨_, rfl, ?_⟩
    rw [numbers, numbers', ← BitVec.ofInt_mul]
    exact (gives_mul word left right).shows_wrap
  case and => exact ⟨_, rfl, shows_and word left right⟩
  case or => exact ⟨_, rfl, shows_or word left right⟩
  case xor => exact ⟨_, rfl, shows_xor word left right⟩

variable (normal : x.Normal) (normal' : y.Normal)

include normal' in
omit left in
/-- The count of a shift, cut to the width. -/
theorem toNat_count : (y.low t.width &&& .ofInt t.width (t.width - 1)).toNat =
    (y.number % t.width).toNat := by
  have small : (BitVec.ofInt t.width (t.width - 1)).toNat = t.width - 1 ∧ t.width ≠ 0 ∧
      (UInt64.ofNat (t.width - 1)).toNat = t.width - 1 := by
    cases t <;> first | decide | cases word
  have whole := Value.toNat_toWord normal' (by rw [right]; exact word)
  rw [right] at whole
  rw [← toNat_shiftCount word right, shiftCount, if_neg small.2.1, BitVec.toNat_and, small.1,
    UInt64.toNat_and, small.2.2, whole]

include normal normal' in
theorem counted_shows {op : Op} {lowered : BinOp} (shift : shiftOp? t op = some lowered) :
    ∃ b, lowered.apply? (x.low t.width) (y.low t.width &&& .ofInt t.width (t.width - 1)) = some b ∧
      Shows (binary op t x y) t b := by
  have count := toNat_count word right normal'
  have positive : (0 : Int) < t.width := by cases t <;> first | decide | cases word
  have below : (y.low t.width &&& .ofInt t.width (t.width - 1)).toNat < t.width := by
    have inside := Int.emod_lt_of_pos y.number positive
    omega
  have number := Value.number_eq normal (by rw [left]; exact word)
  rw [left] at number
  cases op <;> cases shift
  case shl =>
    refine ⟨_, if_pos below, ?_⟩
    rw [count, x.low_eq_ofInt t.width_le, ofInt_shiftLeft]
    exact (gives_shl word left right).shows_wrap
  case shr =>
    have gives := (gives_shr word left right normal).shows
    cases signed : t.isSigned with
    | true =>
      rw [signed, if_pos rfl] at number
      refine ⟨_, if_pos below, ?_⟩
      rw [count, sshiftRight_eq_ofInt, ← number]
      exact gives
    | false =>
      rw [signed, if_neg Bool.false_ne_true] at number
      refine ⟨_, if_pos below, ?_⟩
      rw [count, ushiftRight_eq_ofInt, ← number]
      exact gives

end Binary

section Division

/-- What a signed divisor is replaced by. -/
def safeDivisor {w : Nat} (b : BitVec w) : BitVec w := if b = .ofInt w (-1) then .ofInt w 1 else b

/-- The language defines the division by what a divisor is replaced by. -/
theorem safeDivisor_defined (signed : t.isSigned = true) (a : BitVec t.width) {b : BitVec t.width}
    (some : b ≠ 0) : ¬ (safeDivisor b = 0 || Llvm.overflows a (safeDivisor b)) = true := by
  have units : BitVec.ofInt t.width 1 ≠ 0 ∧ BitVec.ofInt t.width 1 ≠ .allOnes t.width ∧
      BitVec.ofInt t.width (-1) = .allOnes t.width := by
    cases t <;> first | decide | cases signed
  have apart : safeDivisor b ≠ 0 ∧ safeDivisor b ≠ .allOnes t.width := by
    unfold safeDivisor
    rw [units.2.2]
    split
    · exact ⟨units.1, units.2.1⟩
    · next other => exact ⟨some, other⟩
  rw [Bool.or_eq_true, decide_eq_true_iff, Llvm.overflows, Bool.and_eq_true, beq_iff_eq, beq_iff_eq]
  exact fun bad => bad.elim apart.1 fun both => apart.2 both.2

variable (word : t.isIntLike = true) (left : x.ty = t) (right : y.ty = t) (normal : x.Normal)
  (normal' : y.Normal) (some : y.low t.width ≠ 0)
include word left right normal normal' some

omit word left right normal normal' in
theorem number_ne_zero : y.number ≠ 0 := by
  intro zero
  rw [y.low_eq_ofInt t.width_le, zero] at some
  exact some (BitVec.eq_of_toInt_eq (by simp))

theorem unsigned_shows (unsigned : t.isSigned = false) :
    (∃ q, BinOp.udiv.apply? (x.low t.width) (y.low t.width) = Option.some q ∧
      Shows (binary .div t x y) t q) ∧
    ∃ r, BinOp.urem.apply? (x.low t.width) (y.low t.width) = Option.some r ∧
      Shows (binary .rem t x y) t r := by
  have divisor := number_ne_zero some
  have dividend := Value.number_eq normal (by rw [left]; exact word)
  have divisor' := Value.number_eq normal' (by rw [right]; exact word)
  rw [left, unsigned, if_neg Bool.false_ne_true] at dividend
  rw [right, unsigned, if_neg Bool.false_ne_true] at divisor'
  refine ⟨⟨_, if_neg some, ?_⟩, ⟨_, if_neg some, ?_⟩⟩
  · have quotient : x.low t.width / y.low t.width = .ofInt t.width (x.number.tdiv y.number) := by
      apply BitVec.eq_of_toNat_eq
      rw [BitVec.toNat_udiv, BitVec.toNat_ofInt, dividend, divisor', ← Int.ofNat_tdiv, ← Int.natCast_mod,
        Int.toNat_natCast, Nat.mod_eq_of_lt]
      exact Nat.lt_of_le_of_lt (Nat.div_le_self _ _) (BitVec.isLt _)
    rw [quotient]
    exact (gives_div word left right normal' divisor).shows_wrap
  · have remainder : x.low t.width % y.low t.width = .ofInt t.width (x.number.tmod y.number) := by
      apply BitVec.eq_of_toNat_eq
      rw [BitVec.toNat_umod, BitVec.toNat_ofInt, dividend, divisor', ← Int.ofNat_tmod,
        ← Int.natCast_mod (_ % _), Int.toNat_natCast]
      exact (Nat.mod_eq_of_lt (Nat.lt_of_le_of_lt (Nat.mod_le _ _) (BitVec.isLt _))).symm
    rw [remainder]
    exact (gives_rem word left right normal' divisor).shows_wrap

theorem signed_shows (signed : t.isSigned = true) :
    (∃ q, BinOp.sdiv.apply? (x.low t.width) (safeDivisor (y.low t.width)) = Option.some q ∧
      Shows (binary .div t x y) t
        (if y.low t.width = .ofInt t.width (-1) then .ofInt t.width 0 - x.low t.width else q)) ∧
    ∃ r, BinOp.srem.apply? (x.low t.width) (safeDivisor (y.low t.width)) = Option.some r ∧
      Shows (binary .rem t x y) t
        (if y.low t.width = .ofInt t.width (-1) then .ofInt t.width 0 else r) := by
  have divisor := number_ne_zero some
  have dividend := Value.number_eq normal (by rw [left]; exact word)
  have divisor' := Value.number_eq normal' (by rw [right]; exact word)
  rw [left, if_pos signed] at dividend
  rw [right, if_pos signed] at divisor'
  have defined := safeDivisor_defined signed (x.low t.width) some
  have quotient := (gives_div word left right normal' divisor).shows_wrap
  have remainder := (gives_rem word left right normal' divisor).shows_wrap
  have minus : y.low t.width = .ofInt t.width (-1) → y.number = -1 := by
    intro ones
    rw [divisor', ones]
    cases t <;> first | decide | cases signed
  refine ⟨⟨_, if_neg defined, ?_⟩, ⟨_, if_neg defined, ?_⟩⟩
  · unfold safeDivisor
    split
    · next ones =>
      rw [minus ones, Int.tdiv_neg, Int.tdiv_one, BitVec.ofInt_neg] at quotient
      rw [x.low_eq_ofInt t.width_le, BitVec.sub_eq_add_neg]
      simpa using quotient
    · have same : (x.low t.width).sdiv (y.low t.width) =
          .ofInt t.width (x.number.tdiv y.number) := by
        apply BitVec.eq_of_toInt_eq
        rw [BitVec.toInt_sdiv, BitVec.toInt_ofInt, dividend, divisor']
      rw [same]
      exact quotient
  · unfold safeDivisor
    split
    · next ones =>
      rw [minus ones, Int.tmod_neg, Int.tmod_one] at remainder
      exact remainder
    · have same : (x.low t.width).srem (y.low t.width) =
          .ofInt t.width (x.number.tmod y.number) := by
        rw [dividend, divisor', ← BitVec.toInt_srem, BitVec.ofInt_toInt]
      rw [same]
      exact remainder

end Division

section Unary

variable (word : t.isIntLike = true) (left : x.ty = t)
include word left

theorem neg_shows : Shows (unary .neg t x) t (.ofInt t.width 0 - x.low t.width) := by
  have shows := (gives_neg word left).shows_wrap
  rw [BitVec.ofInt_neg, ← x.low_eq_ofInt t.width_le] at shows
  simpa [BitVec.sub_eq_add_neg] using shows

theorem not_shows (normal : x.Normal) :
    Shows (unary .not t x) t (x.low t.width ^^^ .ofInt t.width (-1)) := by
  have ones : BitVec.ofInt t.width (-1) = .allOnes t.width := by cases t <;> decide
  rw [ones, BitVec.xor_allOnes]
  exact shows_not word left normal

end Unary

section Compare

/-- Which types lowered code compares as signed. -/
theorem rank_eq {v : Value} (normal : v.Normal) (word : v.ty.isIntLike = true) :
    rank v = if v.ty.isSigned || v.ty.width == 64 then (v.low v.ty.width).toInt
      else (v.low v.ty.width).toNat := by
  have number := Value.number_eq normal word
  obtain ⟨t, bits⟩ := v
  cases t <;> first | rfl | exact number | cases word

variable (word : x.ty.isIntLike = true) (same : y.ty = x.ty) (left : x.Normal) (right : y.Normal)
include word same left right

theorem compare_holds {op : Op} (compares : op.isCompare = true) (plain : op.isFloat = false) :
    compare op x y = .ok (.ofBool
      ((Ship.Lowering.intPred op x.ty).holds (x.low x.ty.width) (y.low x.ty.width))) := by
  have ranks := rank_eq left word
  have ranks' := rank_eq right (by rw [same]; exact word)
  rw [same] at ranks'
  obtain ⟨lt, le, gt, ge⟩ := compares_rank word same left right
  obtain ⟨ult, ule, ugt, uge⟩ := compares_low word same left right
  have equal : (x.bits.toInt64 == y.bits.toInt64) = (x.low x.ty.width == y.low x.ty.width) := by
    rw [Bool.eq_iff_iff, beq_iff_eq, beq_iff_eq, ← Int64.toInt_inj, toInt_eq_rank left word,
      toInt_eq_rank right (by rw [same]; exact word), ranks, ranks']
    split
    · exact BitVec.toInt_inj
    · rw [Int.natCast_inj, BitVec.toNat_inj]
  cases op <;> first | exact absurd compares (by decide) | exact absurd plain (by decide) | skip
  case eq =>
    refine Eq.trans ?_ (congrArg (fun b => Except.ok (Value.ofBool b)) equal)
    simp [compare, Op.isFloat, same, word]
  case ne =>
    refine Eq.trans ?_ (congrArg (fun b => Except.ok (Value.ofBool !b)) equal)
    simp [compare, Op.isFloat, same, word]
    rfl
  case ult => rw [ult]; rfl
  case ule => rw [ule]; rfl
  case ugt => rw [ugt]; rfl
  case uge => rw [uge]; rfl
  all_goals
    simp only [lt, le, gt, ge, Ship.Lowering.intPred, ranks, ranks']
    split <;> simp [IntPred.holds, BitVec.slt_eq_decide, BitVec.sle_eq_decide, BitVec.ult_eq_decide,
      BitVec.ule_eq_decide]

end Compare

end Eval

namespace Ship.Lowering
open Ir

variable {t : Ty}

/-- A constant has the bits of its word. -/
theorem intConst_eq (word : t.isIntLike = true) (bits : UInt64) :
    ∃ n, intConst t bits = .int t.width n ∧ BitVec.ofInt t.width n = bits.toBitVec.setWidth t.width := by
  have signed : ∀ w : Nat, BitVec.ofInt w (Int.bmod bits.toNat (Nat.pow 2 w)) = bits.toBitVec.setWidth w := by
    intro w
    apply BitVec.eq_of_toNat_eq
    have agree : Int.bmod bits.toNat (Nat.pow 2 w) % (2 ^ w : Nat) = (bits.toNat : Int) % (2 ^ w : Nat) :=
      Int.bmod_emod
    rw [BitVec.toNat_ofInt, BitVec.toNat_setWidth, agree, ← Int.natCast_mod, Int.toNat_natCast]
    rfl
  have bit : BitVec.ofInt 1 (if bits &&& 1 = 0 then 0 else 1) = bits.toBitVec.setWidth 1 := by
    have low : (bits &&& 1).toNat = bits.toNat % 2 := by
      rw [UInt64.toNat_and]
      exact Nat.and_one_is_mod _
    have zero : bits &&& 1 = 0 ↔ bits.toNat % 2 = 0 := by
      rw [← UInt64.toNat_inj, low]
      rfl
    apply BitVec.eq_of_toNat_eq
    rw [BitVec.toNat_setWidth, UInt64.toNat_toBitVec, Nat.pow_one]
    rcases Nat.mod_two_eq_zero_or_one bits.toNat with even | odd
    · rw [if_pos (zero.mpr even), even]
      rfl
    · rw [if_neg (fun even => by have := zero.mp even; omega), odd]
      rfl
  cases t with
  | bool => exact ⟨_, rfl, bit⟩
  | void | f32 | f64 => cases word
  | i8 | u8 => exact ⟨_, rfl, signed 8⟩
  | i16 | u16 => exact ⟨_, rfl, signed 16⟩
  | i32 | u32 => exact ⟨_, rfl, signed 32⟩
  | i64 | u64 | ptr => exact ⟨_, rfl, signed 64⟩

end Ship.Lowering

end TieredEngine
