import TieredEngine.Json.Mismatch
import TieredEngine.Proofs.Text.Numerals

/-!
The grammar of numbers, and the reader's part of it: a number is read as far as it goes when it
stands at the end of a value. Whole numbers are written by that grammar, and are read back from it
into the words they came from.
-/
namespace TieredEngine.Json
open TieredEngine.Text (signedDigitsOf)

/-- A text in which a value has ended: nothing is left, or a comma or a line break comes next. -/
def Ended (rest : List Char) : Prop := ∀ c ∈ rest.head?, c = ',' ∨ c = '\n'

/-- Digits, of which there is at least one. -/
structure Digits (ds : List Char) : Prop where
  nonempty : ds ≠ []
  digits : ∀ c ∈ ds, c.isDigit

/-- A whole part: a zero alone, or digits that do not start with a zero. -/
def Whole (ds : List Char) : Prop := ds = ['0'] ∨ Digits ds ∧ ds.head? ≠ some '0'

/-- A fraction, which may be missing. -/
def Fraction (cs : List Char) : Prop := cs = [] ∨ ∃ ds, Digits ds ∧ cs = '.' :: ds

/-- An exponent with its sign, which may be missing. -/
def Exponent (cs : List Char) : Prop :=
  cs = [] ∨ ∃ sign ds, (sign = '+' ∨ sign = '-') ∧ Digits ds ∧ cs = 'e' :: sign :: ds

/-- The text of a number without its sign. -/
def Magnitude (cs : List Char) : Prop :=
  ∃ whole fraction exponent, Whole whole ∧ Fraction fraction ∧ Exponent exponent ∧
    cs = whole ++ fraction ++ exponent

/-- The text of a number. -/
def NumberText (cs : List Char) : Prop :=
  ∃ sign magnitude, (sign = [] ∨ sign = ['-']) ∧ Magnitude magnitude ∧ cs = sign ++ magnitude

/-- The next character, if there is one, is not a digit. -/
def StopsDigits (rest : List Char) : Prop := ∀ c ∈ rest.head?, ¬ c.isDigit

theorem takeDigits_append {ds rest : List Char} (all : Digits ds) (stop : StopsDigits rest)
    (near : List Char) (misfit : Nat → Misfit) :
    takeDigits near misfit (ds ++ rest) = .ok (ds, rest) := by
  have none : rest.takeWhile Char.isDigit = [] ∧ rest.dropWhile Char.isDigit = rest := by
    cases rest with
    | nil => simp
    | cons c rest =>
      have other : ¬ c.isDigit := stop c rfl
      simp [other]
  have taken : (ds ++ rest).takeWhile Char.isDigit = ds := by
    rw [List.takeWhile_append_of_pos all.digits, none.1, List.append_nil]
  have left : (ds ++ rest).dropWhile Char.isDigit = rest := by
    rw [List.dropWhile_append_of_pos all.digits, none.2]
  unfold takeDigits
  rw [taken, left]
  split
  · exact absurd rfl all.nonempty
  · exact absurd rfl all.nonempty
  · rfl

theorem Digits.cons {ds : List Char} (all : Digits ds) :
    ∃ c more, ds = c :: more ∧ c.isDigit := by
  obtain ⟨c, more, rfl⟩ := List.exists_cons_of_ne_nil all.nonempty
  exact ⟨c, more, rfl, all.digits c (by simp)⟩

theorem Whole.cons {ds : List Char} (whole : Whole ds) : ∃ c more, ds = c :: more ∧ c.isDigit := by
  rcases whole with rfl | ⟨all, -⟩
  · exact ⟨'0', [], rfl, by decide⟩
  · exact all.cons

theorem readInteger_append {ds rest : List Char} (whole : Whole ds) (stop : StopsDigits rest)
    (near : List Char) : readInteger near (ds ++ rest) = .ok (ds, rest) := by
  rcases whole with rfl | ⟨all, noZero⟩
  · rfl
  · obtain ⟨c, more, rfl, -⟩ := all.cons
    have read := takeDigits_append all stop near .digit
    rw [readInteger.eq_def]
    split
    · simp_all
    · exact read

theorem readFraction_append {cs rest : List Char} (fraction : Fraction cs) (stop : StopsDigits rest)
    (noPoint : rest.head? ≠ some '.') (near : List Char) :
    readFraction near (cs ++ rest) = .ok (cs, rest) := by
  rcases fraction with rfl | ⟨ds, all, rfl⟩
  · rw [List.nil_append, readFraction.eq_def]
    split
    · simp at noPoint
    · rfl
  · rw [List.cons_append, readFraction, takeDigits_append all stop]
    rfl

theorem Ended.stopsDigits {rest : List Char} (ended : Ended rest) : StopsDigits rest := by
  intro c next
  rcases ended c next with rfl | rfl <;> decide

theorem readExponent_append {cs rest : List Char} (exponent : Exponent cs) (ended : Ended rest)
    (near : List Char) : readExponent near (cs ++ rest) = .ok (cs, rest) := by
  rcases exponent with rfl | ⟨sign, ds, signs, all, rfl⟩
  · cases rest with
    | nil => rfl
    | cons c rest =>
      have next : c = ',' ∨ c = '\n' := ended c rfl
      rw [List.nil_append, readExponent, if_neg]
      rcases next with rfl | rfl <;> decide
  · rcases signs with rfl | rfl
    all_goals
      simp only [List.cons_append, readExponent, splitExponentSign,
        takeDigits_append all ended.stopsDigits]
      rfl

/-- What follows the whole part or the fraction of a number neither goes on with digits nor, after
the fraction, with a point. -/
theorem stops_after_fraction {cs rest : List Char} (exponent : Exponent cs) (ended : Ended rest) :
    StopsDigits (cs ++ rest) ∧ (cs ++ rest).head? ≠ some '.' := by
  rcases exponent with rfl | ⟨sign, ds, -, -, rfl⟩
  · refine ⟨ended.stopsDigits, ?_⟩
    intro next
    rcases ended '.' next with point | point <;> exact absurd point (by decide)
  · exact ⟨by simp [StopsDigits], by simp⟩

theorem stops_after_whole {cs rest : List Char} (fraction : Fraction cs) (stop : StopsDigits rest) :
    StopsDigits (cs ++ rest) := by
  rcases fraction with rfl | ⟨ds, -, rfl⟩
  · exact stop
  · simp [StopsDigits]

theorem splitSign_append {sign whole : List Char} (signs : sign = [] ∨ sign = ['-'])
    (isWhole : Whole whole) (rest : List Char) :
    splitSign (sign ++ (whole ++ rest)) = (sign, whole ++ rest) := by
  rcases signs with rfl | rfl
  · obtain ⟨c, more, rfl, digit⟩ := isWhole.cons
    rw [List.nil_append, splitSign.eq_def]
    split
    · simp_all
    · rfl
  · rfl

/-- A number at the end of a value is read whole. -/
theorem readNumber_append {cs rest : List Char} (number : NumberText cs) (ended : Ended rest) :
    readNumber (cs ++ rest) = .ok (cs, rest) := by
  obtain ⟨sign, _, signs, ⟨whole, fraction, exponent, isWhole, isFraction, isExponent, rfl⟩, rfl⟩ :=
    number
  obtain ⟨afterFraction, noPoint⟩ := stops_after_fraction isExponent ended
  have afterWhole := stops_after_whole isFraction afterFraction
  have text : sign ++ (whole ++ fraction ++ exponent) ++ rest =
      sign ++ (whole ++ (fraction ++ (exponent ++ rest))) := by simp
  rw [text, readNumber, splitSign_append signs isWhole]
  simp only [readInteger_append isWhole afterWhole,
    readFraction_append isFraction afterFraction noPoint, readExponent_append isExponent ended,
    bind, Except.bind]
  simp [pure, Except.pure]

theorem NumberText.cons {cs : List Char} (number : NumberText cs) :
    ∃ c more, cs = c :: more ∧ (c = '-' ∨ c.isDigit) := by
  obtain ⟨sign, _, signs, ⟨whole, fraction, exponent, isWhole, -, -, rfl⟩, rfl⟩ := number
  obtain ⟨c, more, rfl, digit⟩ := isWhole.cons
  rcases signs with rfl | rfl
  · exact ⟨c, _, rfl, .inr digit⟩
  · exact ⟨'-', _, rfl, .inl rfl⟩

/-- Characters of numbers. -/
def isNumeric (c : Char) : Bool := c.isDigit || ['-', '+', '.', 'e'].contains c

theorem isNumeric_of_mem {cs : List Char} (number : NumberText cs) {c : Char} (member : c ∈ cs) :
    isNumeric c := by
  have digit : ∀ {ds : List Char}, Digits ds → c ∈ ds → isNumeric c := by
    intro ds all listed
    simp [isNumeric, all.digits c listed]
  obtain ⟨sign, _, signs, ⟨whole, fraction, exponent, isWhole, isFraction, isExponent, rfl⟩, rfl⟩ :=
    number
  simp only [List.mem_append] at member
  rcases member with inSign | (inWhole | inFraction) | inExponent
  · rcases signs with rfl | rfl
    · cases inSign
    · simp_all [isNumeric]
  · rcases isWhole with rfl | ⟨all, -⟩
    · simp_all [isNumeric]
    · exact digit all inWhole
  · rcases isFraction with rfl | ⟨ds, all, rfl⟩
    · cases inFraction
    · rcases List.mem_cons.mp inFraction with rfl | later
      · rfl
      · exact digit all later
  · rcases isExponent with rfl | ⟨sign, ds, signs, all, rfl⟩
    · cases inExponent
    · rcases List.mem_cons.mp inExponent with rfl | later
      · rfl
      · rcases List.mem_cons.mp later with rfl | later
        · rcases signs with rfl | rfl <;> rfl
        · exact digit all later

theorem Magnitude.number {cs : List Char} (magnitude : Magnitude cs) : NumberText cs :=
  ⟨[], cs, .inl rfl, magnitude, rfl⟩

theorem Magnitude.negative {cs : List Char} (magnitude : Magnitude cs) : NumberText ('-' :: cs) :=
  ⟨['-'], cs, .inr rfl, magnitude, rfl⟩

theorem Whole.magnitude {cs : List Char} (whole : Whole cs) : Magnitude cs :=
  ⟨cs, [], [], whole, .inl rfl, .inl rfl, by simp⟩

theorem digits_toDigits (n : Nat) : Digits (Nat.toDigits 10 n) :=
  ⟨Nat.toDigits_ne_nil, fun _ member => Nat.isDigit_of_mem_toDigits (by decide) (by decide) member⟩

theorem whole_toDigits (n : Nat) : Whole (Nat.toDigits 10 n) := by
  rcases Nat.eq_zero_or_pos n with rfl | positive
  · exact .inl rfl
  · exact .inr ⟨digits_toDigits n, Text.head?_toDigits (by decide) positive⟩

theorem numberText_signedDigitsOf (z : Int) : NumberText (signedDigitsOf z) := by
  unfold signedDigitsOf
  split
  · exact (whole_toDigits _).magnitude.number
  · exact (whole_toDigits _).magnitude.negative

theorem leadingDigits_toDigits (n : Nat) : leadingDigits (Nat.toDigits 10 n) = (n, []) := by
  have digits := (digits_toDigits n).digits
  have value := Nat.ofDigitChars_ten_toDigits (n := n)
  have all : (Nat.toDigits 10 n ++ []).takeWhile Char.isDigit = Nat.toDigits 10 n ++ [] :=
    List.takeWhile_append_of_pos digits
  have left : (Nat.toDigits 10 n ++ []).dropWhile Char.isDigit = [] :=
    List.dropWhile_append_of_pos digits
  rw [List.append_nil] at all left
  rw [Nat.ofDigitChars_eq_foldl] at value
  rw [leadingDigits, all, left, value]

theorem word32_toString (w : UInt32) (sp : Span) :
    (Node.num (toString w.toNat) sp).word32 = .ok w := by
  have text : (toString w.toNat).toList = Nat.toDigits 10 w.toNat := by simp
  have bound := w.toNat_lt
  have plain : (toString w.toNat).startsWith "-" = false := by
    rw [String.startsWith_string_eq_false_iff, text]
    rintro ⟨more, signed⟩
    exact Text.head?_toDigits_ne (b := 10) (by decide) (by decide) (congrArg List.head? signed.symm)
  simp only [Node.word32, text, leadingDigits_toDigits, plain]
  rw [if_neg (by decide), if_neg (by simp; omega), if_neg (by decide), if_neg (by simp; omega)]
  simp

theorem int64_toString (z : Int64) (sp : Span) :
    (Node.num (toString z.toInt) sp).int64 = .ok z := by
  have low := z.le_toInt
  have high := z.toInt_lt
  simp only [Node.int64, Text.toList_toString_int, signedDigitsOf]
  split
  case isTrue positive =>
    have sign := splitSign_append (.inl rfl) (whole_toDigits z.toInt.toNat) []
    simp only [List.append_nil, List.nil_append] at sign
    simp only [sign, leadingDigits_toDigits]
    rw [if_neg (by simp only [Nat.pow_eq]; omega), if_neg (by decide), if_neg (by decide),
      Int.toNat_of_nonneg positive, Int64.ofInt_toInt]
  case isFalse negative =>
    have sign : splitSign ('-' :: Nat.toDigits 10 (-z.toInt).toNat) =
      (['-'], Nat.toDigits 10 (-z.toInt).toNat) := rfl
    simp only [sign, leadingDigits_toDigits]
    rw [if_neg (by simp; omega), if_neg (by decide), if_pos (by decide),
      Int.toNat_of_nonneg (by omega), Int.neg_neg, Int64.ofInt_toInt]

end TieredEngine.Json
