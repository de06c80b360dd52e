import Mathlib.Algebra.Ring.Nat
import Mathlib.Data.Int.ModEq
import TieredEngine.Eval.Arith
import TieredEngine.Ir.Module

/-!
Values in normal form. Bringing bits to normal form twice is the same as once, so whatever is made
from raw bits is normal; a normal word of a signed type lies at one of the two ends of the unsigned
words, a normal boolean is zero or one. The constants of a module are what its values start from.

The word of a boolean, an integer or an address in normal form is a pattern of as many bits as its
type is wide, extended to sixty-four by the signedness of the type; read as a number by that
signedness, it is the only one in the range of the type that agrees with the raw bits modulo two to
the width.
-/
namespace TieredEngine

namespace Number.Format

/-- A word of a format has a sign, an exponent and a fraction, and no more bits. -/
theorem write_lt (f : Format) (d : Datum) :
    f.write d < 2 ^ (f.fractionBits + f.exponentBits + 1) := by
  have sign : ∀ negative, f.signWord negative ≤ 2 ^ (f.fractionBits + f.exponentBits) := by
    intro negative
    unfold signWord
    split
    · exact Nat.le_refl _
    · exact Nat.zero_le _
  have fraction : 0 < 2 ^ f.fractionBits := Nat.two_pow_pos _
  have special : f.specialField * 2 ^ f.fractionBits + 2 ^ f.fractionBits =
      2 ^ (f.fractionBits + f.exponentBits) := by
    have field : f.specialField + 1 = 2 ^ f.exponentBits := Nat.sub_add_cancel (Nat.two_pow_pos _)
    rw [← Nat.succ_mul, Nat.succ_eq_add_one, field, ← Nat.pow_add, Nat.add_comm]
  rw [Nat.pow_succ]
  cases d with
  | notANumber negative payload =>
    have below := Nat.mod_lt payload fraction
    have signed := sign negative
    show _ + _ * 2 ^ _ + _ % 2 ^ _ < _
    omega
  | infinite negative =>
    have signed := sign negative
    show _ + _ * 2 ^ _ < _
    omega
  | finite negative m e =>
    have magnitude : f.roundMagnitude m e ≤ f.specialField * 2 ^ f.fractionBits := by
      unfold roundMagnitude
      split
      · exact Nat.zero_le _
      · exact Nat.min_le_right _ _
    have signed := sign negative
    show _ + f.roundMagnitude m e < _
    omega

end Number.Format

namespace Ir

namespace Value

/-- The bits are in the normal form of the type. -/
def Normal (v : Value) : Prop := normalize v.ty v.bits = v.bits

instance (v : Value) : Decidable v.Normal := inferInstanceAs (Decidable (_ = _))

end Value

section Narrowing

/-- Cutting off high bits is the same for signed and unsigned words. -/
theorem toInt8_toInt64 (w : UInt64) : w.toInt64.toInt8 = w.toUInt8.toInt8 := by
  apply Int8.toBitVec_inj.mp
  simp [BitVec.signExtend_eq_setWidth_of_le]

theorem toInt16_toInt64 (w : UInt64) : w.toInt64.toInt16 = w.toUInt16.toInt16 := by
  apply Int16.toBitVec_inj.mp
  simp [BitVec.signExtend_eq_setWidth_of_le]

theorem toInt32_toInt64 (w : UInt64) : w.toInt64.toInt32 = w.toUInt32.toInt32 := by
  apply Int32.toBitVec_inj.mp
  simp [BitVec.signExtend_eq_setWidth_of_le]

end Narrowing

theorem normalize_normalize (t : Ty) (w : UInt64) :
    normalize t (normalize t w) = normalize t w := by
  cases t with
  | i8 =>
    simp only [normalize]
    rw [← toInt8_toInt64 (Int64.toUInt64 _), Int64.toInt64_toUInt64, Int8.toInt8_toInt64]
  | i16 =>
    simp only [normalize]
    rw [← toInt16_toInt64 (Int64.toUInt64 _), Int64.toInt64_toUInt64, Int16.toInt16_toInt64]
  | i32 =>
    simp only [normalize]
    rw [← toInt32_toInt64 (Int64.toUInt64 _), Int64.toInt64_toUInt64, Int32.toInt32_toInt64]
  | _ => simp [normalize, UInt64.and_assoc]

theorem normalize_zero (t : Ty) : normalize t 0 = 0 := by cases t <;> rfl

namespace Value

@[simp] theorem ty_ofBits (t : Ty) (w : UInt64) : (ofBits t w).ty = t := rfl

theorem normal_ofBits (t : Ty) (w : UInt64) : (ofBits t w).Normal := normalize_normalize t w

theorem normal_zero (t : Ty) : (zero t).Normal := normalize_zero t

theorem normal_ofBool (b : Bool) : (ofBool b).Normal := by cases b <;> decide

/-- A single-precision word has no bits above its thirty-two. -/
theorem normal_single (d : Number.Datum) :
    Normal ⟨.f32, UInt64.ofNat (Number.binary32.write d)⟩ := by
  have small : Number.binary32.write d < 2 ^ 32 := Number.binary32.write_lt d
  apply UInt64.toNat_inj.mp
  show (UInt64.ofNat (Number.binary32.write d) &&& 0xffffffff).toNat = _
  rw [UInt64.toNat_and, UInt64.toNat_ofNat', Nat.mod_eq_of_lt (by omega)]
  show Number.binary32.write d &&& (2 ^ 32 - 1) = _
  rw [Nat.and_two_pow_sub_one_eq_mod, Nat.mod_eq_of_lt small]

theorem normal_ofDatum (t : Ty) (d : Number.Datum) : (ofDatum t d).Normal := by
  cases t with
  | f32 => exact normal_single _
  | _ => rfl

theorem ofBits_bits {v : Value} (normal : v.Normal) : ofBits v.ty v.bits = v := by
  unfold ofBits
  rw [normal]

/-- A normal boolean is zero or one. -/
theorem bits_of_bool {v : Value} (normal : v.Normal) (boolean : v.ty = .bool) :
    v.bits = 0 ∨ v.bits = 1 := by
  have low : v.bits &&& 1 = v.bits := by simpa [Normal, boolean, normalize] using normal
  have number := congrArg UInt64.toNat low
  simp only [UInt64.toNat_and, UInt64.reduceToNat, Nat.and_one_is_mod] at number
  rcases (by omega : v.bits.toNat = 0 ∨ v.bits.toNat = 1) with zero | one
  · exact .inl (UInt64.toNat_inj.mp zero)
  · exact .inr (UInt64.toNat_inj.mp one)

theorem ofBool_toBool {v : Value} (normal : v.Normal) (boolean : v.ty = .bool) :
    ofBool v.toBool = v := by
  obtain ⟨t, w⟩ := v
  subst boolean
  rcases bits_of_bool normal rfl with rfl | rfl <;> rfl

end Value

/-- A sign-extended word is near zero from either side. -/
theorem signExtend_range {n : Nat} (low : 0 < n) (high : n ≤ 64) (x : BitVec n) :
    (x.signExtend 64).toNat < 2 ^ (n - 1) ∨ 2 ^ 64 - 2 ^ (n - 1) ≤ (x.signExtend 64).toNat := by
  have bound := x.isLt
  have small : 2 ^ n ≤ 2 ^ 64 := Nat.pow_le_pow_right (by decide) high
  have double : 2 ^ n = 2 * 2 ^ (n - 1) := by
    rw [← Nat.pow_succ']
    congr 1
    omega
  rw [BitVec.toNat_signExtend, BitVec.toNat_setWidth, Nat.mod_eq_of_lt (by omega)]
  by_cases negative : x.msb = true
  · have top := BitVec.msb_eq_true_iff_two_mul_ge.mp negative
    rw [if_pos negative]
    omega
  · have top := BitVec.msb_eq_false_iff_two_mul_lt.mp (by simpa using negative)
    rw [if_neg negative]
    omega

/-- A normal word of a signed type is near zero from either side. -/
theorem normal_range {t : Ty} (signed : t.isSigned = true) {w : UInt64}
    (normal : normalize t w = w) :
    w.toNat < 2 ^ (t.width - 1) ∨ 2 ^ 64 - 2 ^ (t.width - 1) ≤ w.toNat := by
  rw [← normal]
  cases t with
  | i8 => exact signExtend_range (by decide) (by decide) w.toUInt8.toBitVec
  | i16 => exact signExtend_range (by decide) (by decide) w.toUInt16.toBitVec
  | i32 => exact signExtend_range (by decide) (by decide) w.toUInt32.toBitVec
  | i64 =>
    have bound := w.toNat_lt
    simp only [normalize, Ty.width, Nat.reducePow, Nat.reduceSub]
    omega
  | _ => cases signed

/-- Words of a width, as numbers. -/
theorem toNat_and_widthMask (t : Ty) (w : UInt64) :
    (w &&& Value.widthMask t.width).toNat = w.toNat % 2 ^ t.width := by
  have mask : ∀ n ≤ 64, (Value.widthMask n).toNat = 2 ^ n - 1 := by decide
  have narrow : t.width ≤ 64 := by cases t <;> decide
  rw [UInt64.toNat_and, mask _ narrow, Nat.and_two_pow_sub_one_eq_mod]

/-- Cutting numbers near zero to the width of a type keeps their order. -/
theorem mod_lt_mod_iff {t : Ty} (signed : t.isSigned = true) {a b : Nat} (left : a < 2 ^ 64)
    (right : b < 2 ^ 64) (near : a < 2 ^ (t.width - 1) ∨ 2 ^ 64 - 2 ^ (t.width - 1) ≤ a)
    (near' : b < 2 ^ (t.width - 1) ∨ 2 ^ 64 - 2 ^ (t.width - 1) ≤ b) :
    a % 2 ^ t.width < b % 2 ^ t.width ↔ a < b := by
  cases t with
  | i8 =>
    simp only [Ty.width, Nat.reducePow, Nat.reduceSub] at near near' ⊢
    omega
  | i16 =>
    simp only [Ty.width, Nat.reducePow, Nat.reduceSub] at near near' ⊢
    omega
  | i32 =>
    simp only [Ty.width, Nat.reducePow, Nat.reduceSub] at near near' ⊢
    omega
  | i64 =>
    simp only [Ty.width, Nat.reducePow] at *
    omega
  | _ => cases signed

/-- Normal words of one type are in the same order as the unsigned words of its width. -/
theorem toWord_lt_iff {x y : Value} (same : y.ty = x.ty) (left : x.Normal) (right : y.Normal) :
    x.toWord < y.toWord ↔ x.bits < y.bits := by
  unfold Value.toWord
  rw [same]
  unfold Value.Normal at left right
  rw [same] at right
  split
  · next signed =>
    rw [UInt64.lt_iff_toNat_lt, UInt64.lt_iff_toNat_lt, toNat_and_widthMask,
      toNat_and_widthMask]
    exact mod_lt_mod_iff signed x.bits.toNat_lt y.bits.toNat_lt (normal_range signed left)
      (normal_range signed right)
  · rfl

/-- Constants of the instructions of a block that have one. -/
def Block.constants (b : Block) : List Value := (b.insts.filter (·.op = .const)).map (·.const)

/-- Blocks of a function that are not missing. -/
def Function.presentBlocks (f : Function) : List Block := f.blocks.toList.filterMap fun b? => b?

/-- Constants of the instructions of a module and initial values of its globals. -/
def Module.constants (m : Module) : List Value :=
  m.functions.toList.flatMap (fun f => f.presentBlocks.flatMap Block.constants) ++
    (m.globals.toList.filterMap fun g? => g?).map (·.init)

/-- A constant that a function has is one of the module. -/
theorem Module.mem_constants_of_inst {m : Module} {id : FuncId} {f : Function}
    (found : m.function? id = some f) {place : BlockId} {b : Block} (block : f.block? place = some b)
    {i : Inst} (member : i ∈ b.insts) (op : i.op = .const) : i.const ∈ m.constants := by
  refine List.mem_append_left _ (List.mem_flatMap.mpr ⟨f, ?_, List.mem_flatMap.mpr ⟨b, ?_, ?_⟩⟩)
  · exact Array.mem_toList_iff.mpr (Array.mem_of_getElem? found)
  · have present : some b ∈ f.blocks := by
      refine Array.mem_of_getElem? (i := place.num) ?_
      unfold Function.block? at block
      cases there : f.blocks[place.num]? with
      | none => simp [there] at block
      | some b? => simpa [there] using block
    exact List.mem_filterMap.mpr ⟨some b, Array.mem_toList_iff.mpr present, rfl⟩
  · exact List.mem_map_of_mem (List.mem_filter.mpr ⟨member, by simp [op]⟩)

theorem Module.mem_constants_of_global {m : Module} {g : Global} (member : some g ∈ m.globals) :
    g.init ∈ m.constants := by
  refine List.mem_append_right _ (List.mem_map_of_mem ?_)
  exact List.mem_filterMap.mpr ⟨some g, Array.mem_toList_iff.mpr member, rfl⟩

section Patterns

/-- A word of some width. -/
structure Pattern where
  width : Nat
  bits : BitVec width
  deriving DecidableEq

/-- The bits of a value that its type has room for. -/
def Value.pattern (v : Value) : Pattern := ⟨v.ty.width, v.bits.toBitVec.setWidth v.ty.width⟩

/-- Change of width by the signedness of a type. -/
def Ty.extend {w : Nat} (t : Ty) (n : Nat) (x : BitVec w) : BitVec n :=
  if t.isSigned then x.signExtend n else x.setWidth n

variable {w n : Nat} {t : Ty}

theorem Ty.extend_of_le (narrower : n ≤ w) (x : BitVec w) : t.extend n x = x.setWidth n := by
  unfold extend
  split
  · exact x.signExtend_eq_setWidth_of_le narrower
  · rfl

/-- Cutting off what was extended. -/
theorem Ty.setWidth_extend {m : Nat} (narrower : n ≤ m) (x : BitVec w) :
    (t.extend m x).setWidth n = t.extend n x := by
  unfold extend
  split
  · apply BitVec.eq_of_getLsbD_eq
    intro i inside
    rw [BitVec.getLsbD_setWidth, BitVec.getLsbD_signExtend, BitVec.getLsbD_signExtend,
      decide_eq_true (Nat.lt_of_lt_of_le inside narrower), Bool.true_and]
  · exact BitVec.setWidth_setWidth_of_le x narrower

/-- A pattern that keeps its width stays as it is. -/
theorem Pattern.extend {p : Pattern} (t : Ty) (same : p.width = n) :
    (⟨n, t.extend n p.bits⟩ : Pattern) = p := by
  subst same
  rw [Ty.extend_of_le (Nat.le_refl _), BitVec.setWidth_eq]

/-- A single bit says whether it is not zero. -/
theorem Pattern.truth {p : Pattern} (single : p.width = 1) :
    (⟨1, .ofBool (p.bits ≠ 0)⟩ : Pattern) = p := by
  have bit : ∀ b : BitVec 1, BitVec.ofBool (b ≠ 0) = b := by decide
  obtain ⟨m, b⟩ := p
  subst single
  exact congrArg (Pattern.mk 1) (bit b)

/-- The normal form is the pattern extended to a whole word. -/
theorem toBitVec_normalize (word : t.isIntLike = true) (x : UInt64) :
    (normalize t x).toBitVec = t.extend 64 (x.toBitVec.setWidth t.width) := by
  have masked : ∀ n ≤ 64, x.toBitVec &&& BitVec.ofNat 64 (2 ^ n - 1) =
      (x.toBitVec.setWidth n).setWidth 64 := by
    intro n small
    apply BitVec.eq_of_toNat_eq
    have room : 2 ^ n ≤ 2 ^ 64 := Nat.pow_le_pow_right (by decide) small
    rw [BitVec.toNat_and, BitVec.toNat_ofNat, BitVec.toNat_setWidth, BitVec.toNat_setWidth,
      Nat.mod_eq_of_lt (by omega), Nat.and_two_pow_sub_one_eq_mod,
      Nat.mod_eq_of_lt (Nat.lt_of_lt_of_le (Nat.mod_lt _ (Nat.two_pow_pos n)) room)]
  cases t with
  | bool => exact masked 1 (by decide)
  | u8 => exact masked 8 (by decide)
  | u16 => exact masked 16 (by decide)
  | u32 => exact masked 32 (by decide)
  | i8 => rfl
  | i16 => rfl
  | i32 => rfl
  | i64 => simp [normalize, Ty.extend, Ty.width, Ty.isSigned, BitVec.signExtend_eq]
  | u64 => simp [normalize, Ty.extend, Ty.width, Ty.isSigned]
  | ptr => simp [normalize, Ty.extend, Ty.width, Ty.isSigned]
  | _ => cases word

theorem Ty.width_le (t : Ty) : t.width ≤ 64 := by cases t <;> decide

/-- The low bits of a value. -/
def Value.low (v : Value) (n : Nat) : BitVec n := v.bits.toBitVec.setWidth n

/-- Bringing bits to normal form leaves those that the type has room for. -/
theorem Value.low_ofBits (word : t.isIntLike = true) (x : UInt64) :
    (ofBits t x).low t.width = x.toBitVec.setWidth t.width := by
  show (normalize t x).toBitVec.setWidth t.width = _
  rw [toBitVec_normalize word, Ty.setWidth_extend t.width_le, Ty.extend_of_le (Nat.le_refl _),
    BitVec.setWidth_eq]

/-- Taking a value's bits to another type changes the width of its pattern by the signedness of
the type that the value had. -/
theorem Value.pattern_ofBits {v : Value} (normal : v.Normal) (source : v.ty.isIntLike = true)
    (target : t.isIntLike = true) :
    (Value.ofBits t v.bits).pattern = ⟨t.width, v.ty.extend t.width v.pattern.bits⟩ := by
  have whole : v.bits.toBitVec = v.ty.extend 64 (v.bits.toBitVec.setWidth v.ty.width) := by
    rw [← toBitVec_normalize source, normal]
  show (⟨t.width, (ofBits t v.bits).low t.width⟩ : Pattern) = _
  rw [low_ofBits target, whole, Ty.setWidth_extend t.width_le]
  rfl

/-- A normal value is zero when its pattern is. -/
theorem Value.pattern_eq_zero {v : Value} (normal : v.Normal) (source : v.ty.isIntLike = true) :
    v.pattern.bits = 0 ↔ v.bits = 0 := by
  constructor
  · intro zero
    apply UInt64.toBitVec_inj.mp
    rw [← normal, toBitVec_normalize source]
    show v.ty.extend 64 v.pattern.bits = _
    rw [zero]
    unfold Ty.extend
    split
    · exact (BitVec.signExtend_eq_setWidth_of_msb_false BitVec.msb_zero).trans
        (BitVec.setWidth_zero _ _)
    · exact BitVec.setWidth_zero _ _
  · intro zero
    unfold pattern
    rw [zero]
    simp


section Numbers

variable {t : Ty}

/-- The number that a word stands for by the signedness of its type. -/
def Value.number (v : Value) : Int := if v.ty.isSigned then v.toInt else v.bits.toNat

/-- The number in the range of a type that agrees with `n` modulo two to the width. -/
def Ty.wrap (t : Ty) (n : Int) : Int :=
  if t.isSigned then n.bmod (2 ^ t.width) else n % (2 ^ t.width : Nat)

theorem Ty.wrap_eq_of_modEq {a b : Int} (same : a ≡ b [ZMOD 2 ^ 64]) : t.wrap a = t.wrap b := by
  have narrow : a % (2 ^ t.width : Nat) = b % (2 ^ t.width : Nat) := by
    refine same.of_dvd ?_
    exact_mod_cast Nat.pow_dvd_pow 2 t.width_le
  unfold wrap
  split
  · rw [← Int.emod_bmod, narrow, Int.emod_bmod]
  · exact narrow

/-- What is left of a number in range after a division by a power of two is in range. -/
theorem Ty.wrap_ediv {n : Int} (inside : t.wrap n = n) (k : Nat) :
    t.wrap (n / 2 ^ k) = n / 2 ^ k := by
  have positive : (0 : Int) < 2 ^ k := Int.pow_pos (by decide)
  have falls : 0 ≤ n → 0 ≤ n / 2 ^ k ∧ n / 2 ^ k ≤ n := fun nonneg =>
    ⟨Int.ediv_nonneg nonneg positive.le, Int.ediv_le_self _ nonneg⟩
  have rises : n < 0 → n ≤ n / 2 ^ k ∧ n / 2 ^ k < 0 := by
    intro negative
    have grows : n * 2 ^ k ≤ n * 1 := Int.mul_le_mul_of_nonpos_left negative.le positive
    rw [Int.mul_one] at grows
    exact ⟨Int.le_ediv_of_mul_le positive grows, Int.ediv_neg_of_neg_of_pos negative positive⟩
  have room : 0 < 2 ^ t.width := Nat.two_pow_pos _
  unfold wrap at inside ⊢
  split
  · next signed =>
    rw [if_pos signed] at inside
    have low := @Int.le_bmod n _ room
    have high := @Int.bmod_lt n _ room
    rw [inside] at low high
    apply Int.bmod_eq_of_le <;> omega
  · next unsigned =>
    rw [if_neg unsigned] at inside
    have low := Int.emod_nonneg n (by omega : ((2 ^ t.width : Nat) : Int) ≠ 0)
    have high := Int.emod_lt_of_pos n (by omega : (0 : Int) < (2 ^ t.width : Nat))
    rw [inside] at low high
    apply Int.emod_eq_of_lt <;> omega

/-- The number of a word agrees with its bits. -/
theorem Value.number_modEq (v : Value) : v.number ≡ v.bits.toNat [ZMOD 2 ^ 64] := by
  unfold number
  split
  · show v.bits.toBitVec.toInt ≡ _ [ZMOD 2 ^ 64]
    rw [BitVec.toInt_eq_toNat_bmod]
    exact Int.bmod_emod
  · rfl

theorem Value.number_ofBits (word : t.isIntLike = true) (x : UInt64) :
    (ofBits t x).number = t.wrap x.toNat := by
  have whole := toBitVec_normalize word x
  unfold number Ty.wrap
  rw [ty_ofBits]
  split
  · next signed =>
    show (normalize t x).toBitVec.toInt = _
    rw [whole, Ty.extend, if_pos signed, BitVec.toInt_signExtend_of_le t.width_le,
      BitVec.toInt_setWidth]
    rfl
  · next unsigned =>
    show ((normalize t x).toBitVec.toNat : Int) = _
    have small : 2 ^ t.width ≤ 2 ^ 64 := Nat.pow_le_pow_right (by decide) t.width_le
    have below := Nat.mod_lt x.toNat (Nat.two_pow_pos t.width)
    rw [whole, Ty.extend, if_neg unsigned, BitVec.toNat_setWidth, BitVec.toNat_setWidth,
      UInt64.toNat_toBitVec, Nat.mod_eq_of_lt (Nat.lt_of_lt_of_le below small), Int.natCast_mod]

variable {v : Value}

/-- The number of a normal value is that of its pattern. -/
theorem Value.number_eq (normal : v.Normal) (word : v.ty.isIntLike = true) :
    v.number = if v.ty.isSigned then (v.low v.ty.width).toInt else (v.low v.ty.width).toNat := by
  have agree := number_ofBits word v.bits
  rw [ofBits_bits normal] at agree
  rw [agree, Ty.wrap, low]
  split
  · rw [BitVec.toInt_setWidth]
    rfl
  · rw [BitVec.toNat_setWidth, Int.natCast_mod]
    rfl

/-- The number of a normal value is in the range of its type. -/
theorem Value.wrap_number (normal : v.Normal) (word : v.ty.isIntLike = true) :
    v.ty.wrap v.number = v.number := by
  have agree := number_ofBits word v.bits
  rw [ofBits_bits normal] at agree
  rw [agree]
  exact (Ty.wrap_eq_of_modEq (agree ▸ v.number_modEq)).trans rfl

theorem Value.number_eq_zero_iff : v.number = 0 ↔ v.bits = 0 := by
  unfold number toInt
  split
  · rw [← Int64.toInt_zero, Int64.toInt_inj]
    constructor
    · intro zero
      exact congrArg Int64.toUInt64 zero
    · intro zero
      rw [zero]
      rfl
  · rw [Int.natCast_eq_zero, ← UInt64.toNat_inj]
    rfl

/-- The unsigned word of a normal value is its pattern. -/
theorem Value.toNat_toWord (normal : v.Normal) (word : v.ty.isIntLike = true) :
    v.toWord.toNat = (v.low v.ty.width).toNat := by
  unfold toWord
  split
  · rw [toNat_and_widthMask, low, BitVec.toNat_setWidth]
    rfl
  · next unsigned =>
    have agree := number_eq normal word
    rw [if_neg unsigned, number, if_neg unsigned] at agree
    exact_mod_cast agree

end Numbers

end Patterns

end Ir

end TieredEngine
