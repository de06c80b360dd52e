import TieredEngine.Proofs.Ir.NormalForm

/-!
Integer operations, in terms of the numbers that words stand for. All of them work on sixty-four raw
bits and bring the result to normal form; what comes out is the exact result wrapped into the type,
the smallest number divided by minus one and shifts by negative counts included. The bitwise
operations and the unsigned order work on the patterns, and the plain order goes by the numbers, but
for the two types of sixty-four unsigned bits, which it reads as two's complement.
-/
namespace TieredEngine.Eval
open TieredEngine.Ir

/-- An operation gives the normal value of a type that stands for a number. -/
def Gives (r : Except Cause Value) (t : Ty) (n : Int) : Prop :=
  ∃ v, r = .ok v ∧ v.ty = t ∧ v.Normal ∧ v.number = n

/-- An operation gives the normal value of a type that has a pattern. -/
def Shows (r : Except Cause Value) (t : Ty) (b : BitVec t.width) : Prop :=
  ∃ v, r = .ok v ∧ v.ty = t ∧ v.Normal ∧ v.low t.width = b

variable {t : Ty} {x y : Value}

theorem gives_ofBits (word : t.isIntLike = true) {w : UInt64} {n : Int}
    (same : w.toNat ≡ n [ZMOD 2 ^ 64]) : Gives (.ok (.ofBits t w)) t (t.wrap n) := by
  refine ⟨_, rfl, rfl, Value.normal_ofBits _ _, ?_⟩
  rw [Value.number_ofBits word]
  exact Ty.wrap_eq_of_modEq same

theorem shows_ofBits (word : t.isIntLike = true) {w : UInt64} {b : BitVec t.width}
    (same : w.toBitVec.setWidth t.width = b) : Shows (.ok (.ofBits t w)) t b :=
  ⟨_, rfl, rfl, Value.normal_ofBits _ _, (Value.low_ofBits word w).trans same⟩

/-- A word of a signed number agrees with it. -/
theorem toUInt64_modEq (n : Int64) : n.toUInt64.toNat ≡ n.toInt [ZMOD 2 ^ 64] := by
  show (n.toBitVec.toNat : Int) ≡ n.toBitVec.toInt [ZMOD 2 ^ 64]
  rw [BitVec.toInt_eq_toNat_bmod]
  exact Int.bmod_emod.symm

theorem emod_modEq (n : Nat) : ((n % 2 ^ 64 : Nat) : Int) ≡ n [ZMOD 2 ^ 64] := by
  rw [Int.natCast_mod]
  exact Int.mod_modEq _ _

section Arithmetic

variable (word : t.isIntLike = true) (left : x.ty = t) (right : y.ty = t)
include word left right

/-- Two words of one type pass the checks that every operation makes first. -/
theorem passes {a b c r : Except Cause Value} :
    (if x.ty ≠ t ∨ y.ty ≠ t then a else if false = true then b
      else if (!t.isIntLike) = true then c else r) = r := by
  simp [left, right, word]

theorem gives_add : Gives (binary .add t x y) t (t.wrap (x.number + y.number)) := by
  have computed : binary .add t x y = .ok (.ofBits t (x.bits + y.bits)) :=
    passes word left right
  rw [computed]
  refine gives_ofBits word ?_
  rw [UInt64.toNat_add]
  refine (emod_modEq _).trans ?_
  rw [Int.natCast_add]
  exact x.number_modEq.symm.add y.number_modEq.symm

theorem gives_sub : Gives (binary .sub t x y) t (t.wrap (x.number - y.number)) := by
  have computed : binary .sub t x y = .ok (.ofBits t (x.bits - y.bits)) :=
    passes word left right
  rw [computed]
  refine gives_ofBits word ?_
  refine Int.ModEq.trans ?_ (x.number_modEq.symm.sub y.number_modEq.symm)
  have below := y.bits.toNat_lt
  have whole : ((2 ^ 64 - y.bits.toNat + x.bits.toNat : Nat) : Int) =
      x.bits.toNat - y.bits.toNat + 2 ^ 64 := by omega
  rw [UInt64.toNat_sub]
  refine (emod_modEq _).trans ?_
  rw [whole]
  exact Int.add_modEq_right

theorem gives_mul : Gives (binary .mul t x y) t (t.wrap (x.number * y.number)) := by
  have computed : binary .mul t x y = .ok (.ofBits t (x.bits * y.bits)) :=
    passes word left right
  rw [computed]
  refine gives_ofBits word ?_
  rw [UInt64.toNat_mul]
  refine (emod_modEq _).trans ?_
  rw [Int.natCast_mul]
  exact x.number_modEq.symm.mul y.number_modEq.symm

end Arithmetic

theorem gives_neg (word : t.isIntLike = true) (left : x.ty = t) :
    Gives (unary .neg t x) t (t.wrap (-x.number)) := by
  have computed : unary .neg t x = .ok (.ofBits t (0 - x.bits)) := by
    unfold unary
    simp [left, word]
  rw [computed]
  refine gives_ofBits word ?_
  refine Int.ModEq.trans ?_ x.number_modEq.symm.neg
  have below := x.bits.toNat_lt
  have whole : ((2 ^ 64 - x.bits.toNat : Nat) : Int) = -x.bits.toNat + 2 ^ 64 := by omega
  rw [UInt64.toNat_sub]
  refine (emod_modEq _).trans ?_
  rw [UInt64.toNat_zero, Nat.add_zero, whole]
  exact Int.add_modEq_right

/-- Unsigned words are read as they are. -/
theorem toWord_of_unsigned {v : Value} (unsigned : v.ty.isSigned = false) : v.toWord = v.bits := by
  simp [Value.toWord, unsigned]

section Division

/-- A divisor is found to be zero when it is. -/
theorem toWord_eq_zero_iff (normal : y.Normal) (word : y.ty.isIntLike = true) :
    y.toWord = 0 ↔ y.number = 0 := by
  rw [← UInt64.toNat_inj, Value.toNat_toWord normal word, Value.number_eq normal word]
  show _ = 0 ↔ _
  split
  · rw [← BitVec.toInt_zero, BitVec.toInt_inj, ← BitVec.toNat_inj]
    rfl
  · rw [Int.natCast_eq_zero]

variable (word : t.isIntLike = true) (left : x.ty = t) (right : y.ty = t)
include word left right

theorem binary_div : binary .div t x y =
    if y.toWord = 0 then .error (.divideByZero .div t)
    else if t.isSigned then .ok (.ofBits t (x.bits.toInt64 / y.bits.toInt64).toUInt64)
    else .ok (.ofBits t (x.toWord / y.toWord)) := passes word left right

theorem binary_rem : binary .rem t x y =
    if y.toWord = 0 then .error (.divideByZero .rem t)
    else if t.isSigned then .ok (.ofBits t (x.bits.toInt64 % y.bits.toInt64).toUInt64)
    else .ok (.ofBits t (x.toWord % y.toWord)) := passes word left right

variable (normal : y.Normal)
include normal

theorem divides_by_zero (zero : y.number = 0) : ∀ op : Op, op = .div ∨ op = .rem →
    binary op t x y = .error (.divideByZero op t) := by
  have nothing : y.toWord = 0 :=
    (toWord_eq_zero_iff normal (by rw [right]; exact word)).mpr zero
  rintro op (rfl | rfl)
  · rw [binary_div word left right, if_pos nothing]
  · rw [binary_rem word left right, if_pos nothing]

theorem gives_div (some : y.number ≠ 0) :
    Gives (binary .div t x y) t (t.wrap (x.number.tdiv y.number)) := by
  have divisor : y.toWord ≠ 0 :=
    (toWord_eq_zero_iff normal (by rw [right]; exact word)).not.mpr some
  rw [binary_div word left right, if_neg divisor]
  cases signed : t.isSigned with
  | true =>
    refine gives_ofBits word ((toUInt64_modEq _).trans ?_)
    rw [Int64.toInt_div, Value.number, Value.number, left, right, if_pos signed, if_pos signed]
    exact Int.bmod_emod
  | false =>
    have dividend := toWord_of_unsigned (v := x) (by rw [left, signed])
    have plain := toWord_of_unsigned (v := y) (by rw [right, signed])
    refine gives_ofBits word ?_
    rw [dividend, plain, UInt64.toNat_div, Value.number, Value.number, left, right, signed]
    exact Int.ModEq.refl _

theorem gives_rem (some : y.number ≠ 0) :
    Gives (binary .rem t x y) t (t.wrap (x.number.tmod y.number)) := by
  have divisor : y.toWord ≠ 0 :=
    (toWord_eq_zero_iff normal (by rw [right]; exact word)).not.mpr some
  rw [binary_rem word left right, if_neg divisor]
  cases signed : t.isSigned with
  | true =>
    refine gives_ofBits word ((toUInt64_modEq _).trans ?_)
    rw [Int64.toInt_mod, Value.number, Value.number, left, right, if_pos signed, if_pos signed]
    exact Int.ModEq.refl _
  | false =>
    have dividend := toWord_of_unsigned (v := x) (by rw [left, signed])
    have plain := toWord_of_unsigned (v := y) (by rw [right, signed])
    refine gives_ofBits word ?_
    rw [dividend, plain, UInt64.toNat_mod, Value.number, Value.number, left, right, signed]
    exact Int.ModEq.refl _

end Division

section Bitwise

variable (word : t.isIntLike = true) (left : x.ty = t) (right : y.ty = t)
include word left right

theorem shows_and : Shows (binary .and t x y) t (x.low t.width &&& y.low t.width) := by
  have computed : binary .and t x y = .ok (.ofBits t (x.bits &&& y.bits)) :=
    passes word left right
  rw [computed]
  exact shows_ofBits word BitVec.setWidth_and

theorem shows_or : Shows (binary .or t x y) t (x.low t.width ||| y.low t.width) := by
  have computed : binary .or t x y = .ok (.ofBits t (x.bits ||| y.bits)) :=
    passes word left right
  rw [computed]
  exact shows_ofBits word BitVec.setWidth_or

theorem shows_xor : Shows (binary .xor t x y) t (x.low t.width ^^^ y.low t.width) := by
  have computed : binary .xor t x y = .ok (.ofBits t (x.bits ^^^ y.bits)) :=
    passes word left right
  rw [computed]
  exact shows_ofBits word BitVec.setWidth_xor

end Bitwise

theorem shows_not (word : t.isIntLike = true) (left : x.ty = t) (normal : x.Normal) :
    Shows (unary .not t x) t (~~~ x.low t.width) := by
  by_cases boolean : t = .bool
  · subst boolean
    have computed : unary .not .bool x = .ok (.ofBool (!x.toBool)) := by
      unfold unary
      simp [left]
    rw [computed]
    refine ⟨_, rfl, rfl, Value.normal_ofBool _, ?_⟩
    rcases Value.bits_of_bool normal left with zero | one
    · simp only [Value.toBool, Value.low, zero]
      rfl
    · simp only [Value.toBool, Value.low, one]
      rfl
  · have computed : unary .not t x = .ok (.ofBits t (~~~ x.bits)) := by
      unfold unary
      simp [left, word, boolean]
    rw [computed]
    exact shows_ofBits word (BitVec.setWidth_not t.width_le)

section Shifts

/-- A signed word shifted to the right is divided and rounded down. -/
theorem toInt_shiftRight {c : UInt64} (few : c.toNat < 64) (n : Int64) :
    (n >>> c.toInt64).toInt = n.toInt / 2 ^ c.toNat := by
  have plain : c.toBitVec.msb = false := by
    rw [BitVec.msb_eq_false_iff_two_mul_lt, UInt64.toNat_toBitVec]
    omega
  have count : (c.toBitVec.smod 64#64).toNat = c.toNat := by
    have small : c.toBitVec < 64#64 := few
    have other : (64#64).msb = false := by decide
    rw [BitVec.smod_eq, plain, other]
    show (c.toBitVec % 64#64).toNat = _
    rw [BitVec.umod_eq_of_lt small, UInt64.toNat_toBitVec]
  have shifted : (n >>> c.toInt64).toInt =
      (n.toBitVec.sshiftRight (c.toBitVec.smod 64#64).toNat).toInt := rfl
  rw [shifted, count, BitVec.toInt_sshiftRight, Int.shiftRight_eq_div_pow]
  norm_cast

/-- Counts go round at the width, those read from negative numbers too. -/
theorem toNat_shiftCount (word : t.isIntLike = true) (right : y.ty = t) :
    (shiftCount t y).toNat = (y.number % t.width).toNat := by
  have width_pos : t.width ≠ 0 := by cases t <;> first | decide | cases word
  have masked : ∀ w : UInt64,
      (w &&& UInt64.ofNat (t.width - 1)).toNat = w.toNat % t.width := by
    intro w
    rw [UInt64.toNat_and]
    cases t with
    | void | f32 | f64 => cases word
    | bool => exact Nat.and_two_pow_sub_one_eq_mod _ 0
    | i8 | u8 => exact Nat.and_two_pow_sub_one_eq_mod _ 3
    | i16 | u16 => exact Nat.and_two_pow_sub_one_eq_mod _ 4
    | i32 | u32 => exact Nat.and_two_pow_sub_one_eq_mod _ 5
    | i64 | u64 | ptr => exact Nat.and_two_pow_sub_one_eq_mod _ 6
  have divides : t.width ∣ 2 ^ t.width ∧ t.width ∣ 2 ^ 64 := by
    cases t <;> first | decide | cases word
  have same : y.toWord.toNat % t.width = y.bits.toNat % t.width := by
    unfold Value.toWord
    split
    · rw [toNat_and_widthMask, right, Nat.mod_mod_of_dvd _ divides.1]
    · rfl
  have agree : y.number % t.width = (y.bits.toNat : Int) % t.width :=
    y.number_modEq.of_dvd (by exact_mod_cast divides.2)
  rw [shiftCount, if_neg width_pos, masked, same, agree, ← Int.natCast_mod, Int.toNat_natCast]

theorem shiftCount_lt (word : t.isIntLike = true) (right : y.ty = t) :
    (shiftCount t y).toNat < 64 := by
  have positive : 0 < t.width := by cases t <;> first | decide | cases word
  have below := Int.emod_lt_of_pos y.number (by omega : (0 : Int) < t.width)
  have narrow := t.width_le
  rw [toNat_shiftCount word right]
  omega

variable (word : t.isIntLike = true) (left : x.ty = t) (right : y.ty = t)
include word left right

theorem gives_shl :
    Gives (binary .shl t x y) t (t.wrap (x.number * 2 ^ (y.number % t.width).toNat)) := by
  have computed : binary .shl t x y = .ok (.ofBits t (x.bits <<< shiftCount t y)) :=
    passes word left right
  rw [computed]
  refine gives_ofBits word ?_
  rw [UInt64.toNat_shiftLeft, Nat.mod_eq_of_lt (shiftCount_lt word right), Nat.shiftLeft_eq,
    toNat_shiftCount word right]
  refine (emod_modEq _).trans ?_
  rw [Int.natCast_mul, Int.natCast_pow]
  exact x.number_modEq.symm.mul_right _

theorem gives_shr (normal : x.Normal) :
    Gives (binary .shr t x y) t (x.number / 2 ^ (y.number % t.width).toNat) := by
  have inside : t.wrap x.number = x.number := by
    rw [← left]
    exact Value.wrap_number normal (by rw [left]; exact word)
  have few := shiftCount_lt word right
  have computed : binary .shr t x y =
      if t.isSigned then .ok (.ofBits t (x.bits.toInt64 >>> (shiftCount t y).toInt64).toUInt64)
      else .ok (.ofBits t (x.toWord >>> shiftCount t y)) := passes word left right
  rw [computed, ← Ty.wrap_ediv inside, ← toNat_shiftCount word right]
  cases signed : t.isSigned with
  | true =>
    have shifted : (x.bits.toInt64 >>> (shiftCount t y).toInt64).toInt =
        x.number / 2 ^ (shiftCount t y).toNat := by
      rw [toInt_shiftRight few, Value.number, left, if_pos signed]
      rfl
    refine gives_ofBits word ((toUInt64_modEq _).trans ?_)
    rw [shifted]
  | false =>
    refine gives_ofBits word ?_
    rw [toWord_of_unsigned (by rw [left, signed]), UInt64.toNat_shiftRight, Nat.mod_eq_of_lt few,
      Nat.shiftRight_eq_div_pow, Value.number, left, signed]
    simp only [Bool.false_eq_true, if_false]
    norm_cast

end Shifts

section Order

/-- The number that the plain order goes by: sixty-four unsigned bits are read as two's complement. -/
def rank (v : Value) : Int :=
  if v.ty = .u64 ∨ v.ty = .ptr then (v.low 64).toInt else v.number

theorem width_le_of_unsigned (word : t.isIntLike = true) (unsigned : ¬t.isSigned = true)
    (other : ¬(t = .u64 ∨ t = .ptr)) : t.width ≤ 32 := by
  cases t with
  | bool | u8 | u16 | u32 => decide
  | u64 => exact absurd (.inl rfl) other
  | ptr => exact absurd (.inr rfl) other
  | i8 | i16 | i32 | i64 => exact absurd rfl unsigned
  | void | f32 | f64 => cases word

theorem toInt_eq_rank {v : Value} (normal : v.Normal) (word : v.ty.isIntLike = true) :
    v.bits.toInt64.toInt = rank v := by
  unfold rank
  split
  · rw [Value.low, BitVec.setWidth_eq]
    rfl
  · next other =>
    by_cases signed : v.ty.isSigned = true
    · rw [Value.number, if_pos signed]
      rfl
    · -- what is left is at most thirty-two bits wide
      have inside := Value.wrap_number normal word
      have narrow : 2 ^ v.ty.width ≤ 2 ^ 32 :=
        Nat.pow_le_pow_right (by decide) (width_le_of_unsigned word signed other)
      have below := Int.emod_lt_of_pos v.number (by have := Nat.two_pow_pos v.ty.width; omega :
        (0 : Int) < (2 ^ v.ty.width : Nat))
      rw [Ty.wrap, if_neg signed] at inside
      rw [inside] at below
      rw [Value.number, if_neg signed] at below ⊢
      show v.bits.toBitVec.toInt = _
      rw [BitVec.toInt_eq_toNat_of_lt (by rw [UInt64.toNat_toBitVec]; omega),
        UInt64.toNat_toBitVec]

variable (word : x.ty.isIntLike = true) (same : y.ty = x.ty) (left : x.Normal) (right : y.Normal)
include word same left right

/-- The plain order goes by the numbers, but for words of sixty-four unsigned bits. -/
theorem compares_rank :
    compare .lt x y = .ok (.ofBool (rank x < rank y)) ∧
      compare .le x y = .ok (.ofBool (rank x ≤ rank y)) ∧
      compare .gt x y = .ok (.ofBool (rank y < rank x)) ∧
      compare .ge x y = .ok (.ofBool (rank y ≤ rank x)) := by
  have ranks := toInt_eq_rank left word
  have ranks' := toInt_eq_rank right (by rw [same]; exact word)
  unfold compare
  simp [same, word, Op.isFloat, Int64.lt_iff_toInt_lt, Int64.le_iff_toInt_le, ranks,
    ranks']

/-- The unsigned order goes by the patterns. -/
theorem compares_low :
    compare .ult x y = .ok (.ofBool (x.low x.ty.width < y.low x.ty.width)) ∧
      compare .ule x y = .ok (.ofBool (x.low x.ty.width ≤ y.low x.ty.width)) ∧
      compare .ugt x y = .ok (.ofBool (y.low x.ty.width < x.low x.ty.width)) ∧
      compare .uge x y = .ok (.ofBool (y.low x.ty.width ≤ x.low x.ty.width)) := by
  have words := Value.toNat_toWord left word
  have words' := Value.toNat_toWord right (by rw [same]; exact word)
  rw [same] at words'
  unfold compare
  simp [same, word, Op.isFloat, UInt64.lt_iff_toNat_lt, UInt64.le_iff_toNat_le, words,
    words', BitVec.lt_def, BitVec.le_def]

end Order

section Conversion

theorem gives_cast (source : x.ty.isIntLike = true) {u : Ty} (target : u.isIntLike = true)
    (wide : u ≠ .bool) : Gives (cast u x) u (u.wrap x.number) := by
  have types : u ≠ .void ∧ x.ty ≠ .void := by
    constructor
    · rintro rfl
      cases target
    · intro void
      rw [void] at source
      cases source
  have computed : cast u x = .ok (.ofBits u x.bits) := by
    unfold Eval.cast
    simp [types, wide, source, target]
  rw [computed]
  exact gives_ofBits target x.number_modEq.symm

theorem gives_cast_bool (source : x.ty.isIntLike = true) :
    Gives (cast .bool x) .bool (if x.number = 0 then 0 else 1) := by
  have types : x.ty ≠ .void ∧ x.ty.isFloat = false := by
    cases type : x.ty <;> simp_all [Ty.isIntLike, Ty.isInteger, Ty.isFloat]
  have computed : cast .bool x = .ok (.ofBool (x.bits != 0)) := by
    unfold Eval.cast
    simp [types]
  rw [computed]
  refine ⟨_, rfl, rfl, Value.normal_ofBool _, ?_⟩
  simp only [Value.number_eq_zero_iff]
  by_cases zero : x.bits = 0
  · rw [zero]
    rfl
  · rw [if_neg zero, bne_iff_ne.mpr zero]
    rfl

end Conversion

/-- What each operation gives for two normal values of a boolean, integer or address type, in terms
of the numbers and the patterns that they stand for. -/
theorem integers_as_numbers {t : Ty} (word : t.isIntLike = true) {x y : Value} (left : x.ty = t)
    (right : y.ty = t) (normal : x.Normal) (normal' : y.Normal) :
    Gives (binary .add t x y) t (t.wrap (x.number + y.number)) ∧
      Gives (binary .sub t x y) t (t.wrap (x.number - y.number)) ∧
      Gives (binary .mul t x y) t (t.wrap (x.number * y.number)) ∧
      (y.number = 0 → ∀ op : Op, op = .div ∨ op = .rem →
        binary op t x y = .error (.divideByZero op t)) ∧
      (y.number ≠ 0 → Gives (binary .div t x y) t (t.wrap (x.number.tdiv y.number)) ∧
        Gives (binary .rem t x y) t (t.wrap (x.number.tmod y.number))) ∧
      Shows (binary .and t x y) t (x.low t.width &&& y.low t.width) ∧
      Shows (binary .or t x y) t (x.low t.width ||| y.low t.width) ∧
      Shows (binary .xor t x y) t (x.low t.width ^^^ y.low t.width) ∧
      Shows (unary .not t x) t (~~~ x.low t.width) ∧
      Gives (binary .shl t x y) t (t.wrap (x.number * 2 ^ (y.number % t.width).toNat)) ∧
      Gives (binary .shr t x y) t (x.number / 2 ^ (y.number % t.width).toNat) ∧
      Gives (unary .neg t x) t (t.wrap (-x.number)) ∧
      (compare .ult x y = .ok (.ofBool (x.low t.width < y.low t.width)) ∧
        compare .ule x y = .ok (.ofBool (x.low t.width ≤ y.low t.width)) ∧
        compare .ugt x y = .ok (.ofBool (y.low t.width < x.low t.width)) ∧
        compare .uge x y = .ok (.ofBool (y.low t.width ≤ x.low t.width))) ∧
      (compare .lt x y = .ok (.ofBool (rank x < rank y)) ∧
        compare .le x y = .ok (.ofBool (rank x ≤ rank y)) ∧
        compare .gt x y = .ok (.ofBool (rank y < rank x)) ∧
        compare .ge x y = .ok (.ofBool (rank y ≤ rank x))) ∧
      (∀ u : Ty, u.isIntLike = true → u ≠ .bool → Gives (cast u x) u (u.wrap x.number)) ∧
      Gives (cast .bool x) .bool (if x.number = 0 then 0 else 1) := by
  refine ⟨gives_add word left right, gives_sub word left right, gives_mul word left right,
    divides_by_zero word left right normal', fun some => ⟨?_, ?_⟩, shows_and word left right,
    shows_or word left right, shows_xor word left right, shows_not word left normal,
    gives_shl word left right, gives_shr word left right normal, gives_neg word left, ?_, ?_, ?_,
    ?_⟩
  · exact gives_div word left right normal' some
  · exact gives_rem word left right normal' some
  · subst left
    exact compares_low word right normal normal'
  · subst left
    exact compares_rank word right normal normal'
  · subst left
    exact fun u => gives_cast word
  · subst left
    exact gives_cast_bool word

/-- The smallest number divided by minus one is itself again. -/
theorem integers_as_numbers_smallest :
    (∃ x y : Value, x = .ofInt .i8 (-128) ∧ y = .ofInt .i8 (-1) ∧ x.Normal ∧ y.Normal ∧
      Gives (binary .div .i8 x y) .i8 (-128) ∧ Gives (binary .rem .i8 x y) .i8 0 ∧
      Gives (binary .shl .i8 x y) .i8 0 ∧ Gives (cast .u16 x) .u16 65408) := by
  have normal : (Value.ofInt .i8 (-128)).Normal ∧ (Value.ofInt .i8 (-1)).Normal := by decide
  obtain ⟨-, -, -, -, division, -, -, -, -, left, -, -, -, -, conversion, -⟩ :=
    integers_as_numbers (t := .i8) rfl rfl rfl normal.1 normal.2
  obtain ⟨quotient, remainder⟩ := division (by decide)
  exact ⟨_, _, rfl, rfl, normal.1, normal.2, quotient, remainder, left,
    conversion .u16 rfl (by decide)⟩

end TieredEngine.Eval
