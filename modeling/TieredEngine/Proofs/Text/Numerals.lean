import Mathlib.Algebra.Ring.Int.Defs
import Mathlib.Algebra.Ring.Nat
import TieredEngine.Text.Blank
import TieredEngine.Text.Numeral

/-!
Numerals are read as they were written: the digits of a number in a base give the number back, and
so do its decimal literal, with a sign or without, and its hexadecimal one after the base mark.
-/
namespace TieredEngine.Text

theorem digitValue?_digitChar : ∀ d < 16, digitValue? d.digitChar = some d := by decide

theorem digitChar_ne_underscore : ∀ d < 16, d.digitChar ≠ '_' := by decide

/-- The digits of a positive number do not start with a zero. -/
theorem head?_toDigits {b n : Nat} (base : 1 < b) (positive : 0 < n) :
    (Nat.toDigits b n).head? ≠ some '0' := by
  induction n using Nat.base_induction b base with
  | single m small =>
    rw [Nat.toDigits_of_lt_base small]
    simp
    omega
  | digit m k small more ih =>
    obtain ⟨c, cs, text⟩ := List.exists_cons_of_ne_nil (Nat.toDigits_ne_nil (n := m) (b := b))
    rw [← Nat.toDigits_append_toDigits base more small, text]
    simpa [text] using ih more

theorem mem_toDigits {b n : Nat} (base : 1 < b) {c : Char} (member : c ∈ Nat.toDigits b n) :
    ∃ d < b, c = d.digitChar := by
  induction n using Nat.base_induction b base with
  | single m small =>
    rw [Nat.toDigits_of_lt_base small, List.mem_singleton] at member
    exact ⟨m, small, member⟩
  | digit m k small more ih =>
    rw [← Nat.toDigits_append_toDigits base more small, List.mem_append] at member
    rcases member with early | last
    · exact ih early
    · rw [Nat.toDigits_of_lt_base small, List.mem_singleton] at last
      exact ⟨k, small, last⟩

theorem accumulate_append (base limit : Nat) (underscores : Bool) (n : Nat) (xs ys : List Char) :
    accumulate base limit underscores n (xs ++ ys) =
      (accumulate base limit underscores n xs >>= fun m =>
        accumulate base limit underscores m ys) := by
  induction xs generalizing n with
  | nil => rfl
  | cons x xs ih =>
    rw [List.cons_append, accumulate, accumulate]
    split
    · exact ih n
    · split
      · rfl
      · split
        · rfl
        · split
          · rfl
          · exact ih _

/-- Reading the digits of a number gives the number. -/
theorem accumulate_toDigits {base limit n : Nat} (low : 1 < base) (high : base ≤ 16)
    (fits : n < limit) (underscores : Bool) :
    accumulate base limit underscores 0 (Nat.toDigits base n) = .ok n := by
  have digit : ∀ m d, d < base → m * base + d < limit →
      accumulate base limit underscores m [d.digitChar] = .ok (m * base + d) := by
    intro m d small bounded
    have other := digitChar_ne_underscore d (by omega)
    rw [accumulate, if_neg (by simp [other]), digitValue?_digitChar d (by omega)]
    simp only [accumulate]
    rw [if_neg (by omega), if_neg (by omega)]
  induction n using Nat.base_induction base low with
  | single m small =>
    rw [Nat.toDigits_of_lt_base small, digit 0 m small (by omega)]
    simp
  | digit m k small more ih =>
    have below : m < limit := by
      have : m ≤ base * m := Nat.le_mul_of_pos_left m (by omega)
      omega
    rw [← Nat.toDigits_append_toDigits low more small, accumulate_append, ih below,
      Nat.toDigits_of_lt_base small]
    exact (digit m k small (by rw [Nat.mul_comm]; exact fits)).trans (by rw [Nat.mul_comm])

theorem not_underscore_mem_toDigits {b n : Nat} (base : 1 < b) (narrow : b ≤ 16) :
    '_' ∉ Nat.toDigits b n := by
  intro member
  obtain ⟨d, small, equal⟩ := mem_toDigits base member
  exact digitChar_ne_underscore d (by omega) equal.symm

theorem unsignedLiteral_toDigits {bits n : Nat} (fits : n < 2 ^ bits) :
    unsignedLiteral bits (Nat.toDigits 10 n) = .ok n := by
  have plain : '_' ∉ Nat.toDigits 10 n := not_underscore_mem_toDigits (by decide) (by decide)
  have read : accumulate 10 (2 ^ bits) true 0 (Nat.toDigits 10 n) = .ok n :=
    accumulate_toDigits (by decide) (by decide) fits true
  rcases Nat.eq_zero_or_pos n with rfl | positive
  · rfl
  · have base : splitBase (Nat.toDigits 10 n) = (10, Nat.toDigits 10 n) := by
      have first := head?_toDigits (b := 10) (by decide) positive
      rw [splitBase.eq_def]
      split <;> simp_all
    rw [unsignedLiteral, if_neg (by simp), base]
    simp [read, plain, bind, Except.bind]

/-- A hexadecimal literal, with its mark. -/
theorem unsignedLiteral_hex {bits n : Nat} (fits : n < 2 ^ bits) :
    unsignedLiteral bits ('0' :: 'x' :: Nat.toDigits 16 n) = .ok n := by
  have plain : '_' ∉ Nat.toDigits 16 n := not_underscore_mem_toDigits (by decide) (by decide)
  have read : accumulate 16 (2 ^ bits) true 0 (Nat.toDigits 16 n) = .ok n :=
    accumulate_toDigits (by decide) (by decide) fits true
  obtain ⟨c, cs, text⟩ := List.exists_cons_of_ne_nil (Nat.toDigits_ne_nil (n := n) (b := 16))
  have base : splitBase ('0' :: 'x' :: Nat.toDigits 16 n) = (16, Nat.toDigits 16 n) := by
    rw [text]
    rfl
  rw [unsignedLiteral, if_neg (by simp), base]
  simp [read, plain, bind, Except.bind]

/-- The characters of a whole number with its sign. -/
def signedDigitsOf (z : Int) : List Char :=
  if 0 ≤ z then Nat.toDigits 10 z.toNat else '-' :: Nat.toDigits 10 (-z).toNat

theorem toList_toString_int (z : Int) : (toString z).toList = signedDigitsOf z := by
  rw [Int.toString_eq_repr, Int.repr_eq_if, signedDigitsOf]
  split <;> simp

/-- A sign is told from the digits of a number. -/
theorem head?_toDigits_ne {b n : Nat} (base : 1 < b) {c : Char} (other : ∀ d < b, d.digitChar ≠ c) :
    (Nat.toDigits b n).head? ≠ some c := by
  intro first
  obtain ⟨d, small, equal⟩ := mem_toDigits base (List.mem_of_mem_head? first)
  exact other d small equal.symm

theorem splitSign_toDigits (n : Nat) :
    splitSign (Nat.toDigits 10 n) = (false, Nat.toDigits 10 n) := by
  have minus := head?_toDigits_ne (n := n) (b := 10) (c := '-') (by decide) (by decide)
  have plus := head?_toDigits_ne (n := n) (b := 10) (c := '+') (by decide) (by decide)
  rw [splitSign.eq_def]
  split <;> simp_all

theorem withSign_digits {bits : Nat} {magnitude : List Char → Except NumeralError Nat} {n m : Nat}
    (read : magnitude (Nat.toDigits 10 n) = .ok m) (fits : m < 2 ^ (bits - 1)) :
    withSign bits magnitude (Nat.toDigits 10 n) = .ok m := by
  simp [withSign, splitSign_toDigits, read, bind, Except.bind, fits]

theorem withSign_minus {bits : Nat} {magnitude : List Char → Except NumeralError Nat}
    {cs : List Char} {m : Nat} (read : magnitude cs = .ok m) (fits : m ≤ 2 ^ (bits - 1)) :
    withSign bits magnitude ('-' :: cs) = .ok (-m) := by
  simp [withSign, splitSign, read, bind, Except.bind, fits]

theorem signedLiteral_signedDigitsOf {z : Int} (low : -2 ^ 63 ≤ z) (high : z < 2 ^ 63) :
    signedLiteral 64 (signedDigitsOf z) = .ok z := by
  unfold signedLiteral signedDigitsOf
  split
  case isTrue positive =>
    rw [withSign_digits (unsignedLiteral_toDigits (by omega)) (by omega),
      Int.toNat_of_nonneg positive]
  case isFalse negative =>
    rw [withSign_minus (unsignedLiteral_toDigits (by omega)) (by omega)]
    congr
    omega

/-- A text without the trimmed characters is left as it is. -/
theorem trimWhere_of_forall {p : Char → Bool} {cs : List Char} (none : ∀ c ∈ cs, p c = false) :
    trimWhere p cs = cs := by
  have kept : ∀ ds : List Char, (∀ c ∈ ds, p c = false) → ds.dropWhile p = ds := by
    intro ds free
    cases ds with
    | nil => rfl
    | cons d ds => simp [free d (by simp)]
  rw [trimWhere, kept cs none, kept cs.reverse (by simpa using none), List.reverse_reverse]

theorem trim_of_forall {s : String} (none : ∀ c ∈ s.toList, isBlank c = false) : trim s = s := by
  rw [trim, trimWhere_of_forall none, String.ofList_toList]

end TieredEngine.Text
