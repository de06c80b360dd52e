import Mathlib.Tactic.IntervalCases
import Mathlib.Tactic.Ring
import TieredEngine.Number.Shortest
import TieredEngine.Proofs.Json.Numbers

/-!
The text of a floating-point number is spelled by the grammar of numbers: whatever digits are laid
out, a whole part without a leading zero comes first, then a fraction or none, then an exponent with
its sign or none. The two infinities, which no digits spell, have one word each.
-/
namespace TieredEngine.Number
open TieredEngine.Json

theorem isDigit_of_mem_replicate {k : Nat} {c : Char} (member : c ∈ List.replicate k '0') :
    c.isDigit := by
  rw [List.eq_of_mem_replicate member]
  rfl

/-- Zeros and digits, in either order, are digits. -/
theorem isDigit_of_mem_padded {ds : List Char} (all : Digits ds) {k : Nat} {c : Char}
    (member : c ∈ List.replicate k '0' ∨ c ∈ ds) : c.isDigit := by
  rcases member with zero | digit
  · exact isDigit_of_mem_replicate zero
  · exact all.digits c digit

theorem exponent_exponentText (least : Nat) (e : Int) : Exponent (exponentText least e).toList := by
  have padded : Digits (List.replicate (least - (Nat.toDigits 10 e.natAbs).length) '0' ++
      Nat.toDigits 10 e.natAbs) :=
    ⟨by simp, fun _ member => isDigit_of_mem_padded (digits_toDigits _) (List.mem_append.mp member)⟩
  refine .inr ⟨if e < 0 then '-' else '+', _, ?_, padded, ?_⟩
  · split <;> simp
  · unfold exponentText
    split <;> simp

theorem whole_take {ds : List Char} (whole : Whole ds) {k : Nat} (some : 0 < k) :
    Whole (ds.take k) := by
  obtain ⟨k, rfl⟩ := Nat.exists_eq_succ_of_ne_zero (Nat.ne_zero_of_lt some)
  rcases whole with rfl | ⟨all, noZero⟩
  · exact .inl (by simp)
  · obtain ⟨c, more, rfl, -⟩ := all.cons
    refine .inr ⟨⟨by simp, fun x member => all.digits x (List.mem_of_mem_take member)⟩, ?_⟩
    simpa using noZero

theorem whole_padded {ds : List Char} (whole : Whole ds) {k : Nat} (clean : ds = ['0'] → k = 0) :
    Whole (ds ++ List.replicate k '0') := by
  by_cases zero : ds = ['0']
  · rw [clean zero]
    simpa using whole
  · obtain ⟨all, noZero⟩ := whole.resolve_left zero
    obtain ⟨c, more, rfl, -⟩ := all.cons
    refine .inr ⟨⟨by simp, ?_⟩, by simpa using noZero⟩
    intro x member
    exact isDigit_of_mem_padded all (List.mem_append.mp member).symm

/-- A first digit alone is a whole part, even a zero. -/
theorem whole_first {ds : List Char} (all : Digits ds) : Whole (ds.take 1) := by
  obtain ⟨c, more, rfl, digit⟩ := all.cons
  by_cases zero : c = '0'
  · exact .inl (by simp [zero])
  · exact .inr ⟨⟨by simp, by simpa using digit⟩, by simpa using zero⟩

theorem fraction_drop {ds : List Char} (all : Digits ds) (k : Nat) :
    Fraction (if (ds.drop k).isEmpty then [] else '.' :: ds.drop k) := by
  split
  case isTrue => exact .inl rfl
  case isFalse some =>
    exact .inr ⟨_, ⟨by simpa using some, fun x member => all.digits x (List.mem_of_mem_drop member)⟩,
      rfl⟩

/-- A decimal that is not a padded zero is laid out as a number. -/
theorem magnitude_render (l : Layout) {d : Decimal}
    (clean : d.digits = 0 → d.exponent ≤ 0 ∨ l.bound ≤ d.exponent) :
    Magnitude (l.render d).toList := by
  have digits := digits_toDigits d.digits
  have whole := whole_toDigits d.digits
  have zero : Nat.toDigits 10 d.digits = ['0'] → d.digits = 0 := by
    intro text
    have value := Nat.ofDigitChars_ten_toDigits (n := d.digits)
    rw [text] at value
    exact value.symm
  unfold Layout.render
  generalize Nat.toDigits 10 d.digits = ds at digits whole zero
  have size : 0 < ds.length := List.length_pos_iff.mpr digits.nonempty
  dsimp only
  generalize top : d.exponent + (ds.length : Int) - 1 = e
  split
  case isTrue =>
    refine ⟨ds.take 1, if (ds.drop 1).isEmpty then [] else '.' :: ds.drop 1,
      (exponentText l.exponentDigits e).toList, whole_first digits,
      fraction_drop digits 1, exponent_exponentText _ _, ?_⟩
    split <;> simp
  case isFalse plain =>
    simp only [Bool.or_eq_true, decide_eq_true_eq, not_or, Int.not_lt, Int.not_le] at plain
    split
    case isTrue high =>
      have clear : ds = ['0'] → d.exponent.toNat = 0 := by
        intro alone
        rw [alone, List.length_singleton] at top
        rcases clean (zero alone) with low | large <;> omega
      exact ⟨_, [], [], whole_padded whole clear, .inl rfl, .inl rfl, by simp⟩
    case isFalse low =>
      split
      case isTrue inside =>
        have more : (ds.drop (e.toNat + 1)).isEmpty = false := by simp; omega
        refine ⟨ds.take (e.toNat + 1), _, [], whole_take whole (Nat.succ_pos _),
          fraction_drop digits (e.toNat + 1), .inl rfl, ?_⟩
        simp [more]
      case isFalse below =>
        have padded : Digits (List.replicate (-e - 1).toNat '0' ++ ds) :=
          ⟨by simp [digits.nonempty],
            fun _ member => isDigit_of_mem_padded digits (List.mem_append.mp member)⟩
        exact ⟨['0'], _, [], .inl rfl, .inr ⟨_, padded, rfl⟩, .inl rfl, by simp⟩

/-- The shortest text of a finite number is a number. -/
theorem numberText_text (f : Format) (negative : Bool) {m : Nat} {e : Int}
    (clean : m ≠ 0 → (f.shortest m e).digits = 0 →
      (f.shortest m e).exponent ≤ 0 ∨ Layout.general.bound ≤ (f.shortest m e).exponent) :
    NumberText (f.text (.finite negative m e)).toList := by
  have magnitude :
      Magnitude (if m = 0 then "0" else Layout.general.render (f.shortest m e)).toList := by
    split
    case isTrue => exact Whole.magnitude (.inl rfl)
    case isFalse some => exact magnitude_render _ (clean some)
  unfold Format.text
  cases negative
  · exact magnitude.number
  · simpa using magnitude.negative

/-- A word that is read as an infinity is the one that the infinity is written as. -/
theorem Format.write_infinite_of_read {f : Format} {w : Nat} {negative : Bool}
    (fits : w < 2 ^ (f.fractionBits + f.exponentBits + 1)) (read : f.read w = .infinite negative) :
    f.write (.infinite negative) = w := by
  unfold Format.read at read
  dsimp only at read
  split at read
  case isFalse => split at read <;> cases read
  case isTrue special =>
    split at read
    case isFalse => cases read
    case isTrue whole =>
      injection read with sign
      simp only [Format.specialField, Nat.pow_eq] at special whole
      have upper : w / 2 ^ (f.fractionBits + f.exponentBits) < 2 := by
        rw [Nat.div_lt_iff_lt_mul (Nat.two_pow_pos _), ← Nat.pow_succ']
        exact fits
      have parts : w = 2 ^ f.fractionBits * (2 ^ f.exponentBits *
          (w / 2 ^ (f.fractionBits + f.exponentBits)) + (2 ^ f.exponentBits - 1)) := by
        rw [Nat.pow_add, ← Nat.div_div_eq_div_mul, ← special, Nat.div_add_mod]
        rw [Nat.mul_div_cancel' (Nat.dvd_of_mod_eq_zero whole)]
      rw [Nat.testBit_eq_decide_div_mod_eq, Nat.mod_eq_of_lt upper] at sign
      generalize w / 2 ^ (f.fractionBits + f.exponentBits) = q at parts sign upper
      subst sign
      rw [parts]
      interval_cases q
      · simp [Format.write, Format.signWord, Format.specialField, Nat.mul_comm]
      · simp [Format.write, Format.signWord, Format.specialField, Nat.pow_add]
        ring

end TieredEngine.Number
