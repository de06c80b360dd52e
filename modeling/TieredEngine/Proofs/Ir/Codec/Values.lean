import Mathlib.Data.Bool.AllAny
import TieredEngine.Proofs.Ir.Codec.Fields
import TieredEngine.Proofs.Ir.NormalForm
import TieredEngine.Proofs.Number.Spelling

/-!
Literals of values in the file form. A value in normal form is read back from its literal, whether
that is spelled as a number, as a word for truth or between quotes. For finite floating-point values
this rests on one assumption, that the shortest text of the number, read as a double and narrowed to
the type, gives the number back.
-/
namespace TieredEngine.Ir
open TieredEngine.Json

/-- A value with a spelling in files: in normal form, and no not-a-number. -/
structure Value.Writable (v : Value) : Prop where
  normal : v.Normal
  number : v.ty.isFloat → v.datum.isNotANumber = false

/-- A finite floating-point value is the one that its shortest text is read as. -/
def Value.ShortestExact (v : Value) : Prop :=
  v.ty.isFloat → v.datum.isInfinite = false → Value.parse v.ty v.literal = .ok v

instance (v : Value) : Decidable v.Writable :=
  decidable_of_iff (v.Normal ∧ (v.ty.isFloat → v.datum.isNotANumber = false))
    ⟨fun both => ⟨both.1, both.2⟩, fun both => ⟨both.normal, both.number⟩⟩

instance (v : Value) : Decidable v.ShortestExact :=
  inferInstanceAs (Decidable (v.ty.isFloat → v.datum.isInfinite = false →
    Value.parse v.ty v.literal = .ok v))

namespace Codec

/-- A text that trimming, of blanks or of quotes, leaves as it is. -/
def Plain (cs : List Char) : Prop := ∀ c ∈ cs, Text.isBlank c = false ∧ c ≠ '"'

theorem plain_of_number {cs : List Char} (number : NumberText cs) : Plain cs := by
  intro c member
  have numeric := isNumeric_of_mem number member
  simp only [isNumeric, Bool.or_eq_true, List.contains_eq_mem, decide_eq_true_eq, List.mem_cons,
    List.not_mem_nil, or_false] at numeric
  rcases numeric with digit | rfl | rfl | rfl | rfl
  · have range : 48 ≤ c.toNat ∧ c.toNat ≤ 57 := by
      simp only [Char.isDigit, Bool.and_eq_true, decide_eq_true_eq, UInt32.le_iff_toNat_le] at digit
      exact digit
    refine ⟨?_, by rintro rfl; simp at range⟩
    simp [Text.isBlank]
    omega
  all_goals decide

theorem trim_of_plain {s : String} (plain : Plain s.toList) : Text.trim s = s :=
  Text.trim_of_forall fun c member => (plain c member).1

theorem trimQuotes_of_plain {cs : List Char} (plain : Plain cs) :
    Text.trimWhere (· == '"') cs = cs :=
  Text.trimWhere_of_forall fun c member => by simp [(plain c member).2]

theorem trimQuotes_quoted {cs : List Char} (plain : Plain cs) (some : cs ≠ []) :
    Text.trimWhere (· == '"') ('"' :: (cs ++ ['"'])) = cs := by
  obtain ⟨c, more, rfl⟩ := List.exists_cons_of_ne_nil some
  have first : c ≠ '"' := (plain c (by simp)).2
  have rest : (c :: more).reverse.dropWhile (· == '"') = (c :: more).reverse := by
    obtain ⟨x, xs, text⟩ := List.exists_cons_of_ne_nil (show (c :: more).reverse ≠ [] by simp)
    have last : x ≠ '"' := (plain x (by rw [← List.mem_reverse, text]; simp)).2
    simp [text, last]
  have left : ('"' :: (c :: more ++ ['"'])).dropWhile (· == '"') = c :: more ++ ['"'] := by
    simp [first]
  rw [Text.trimWhere, left, List.reverse_append, List.reverse_singleton, List.singleton_append,
    List.dropWhile_cons_of_pos (by rfl), rest, List.reverse_reverse]

section Spelling

/-- The literal of a value is taken as it is spelled, without its quotes. -/
theorem reads_value_of {t : Ty} {d : Doc} {s literal : String} {v : Value}
    (spelled : Reads (fun n => .ok n.spelling) d s)
    (trimmed : Text.trimWhere (· == '"') s.toList = literal.toList) (some : literal ≠ "")
    (parsed : Value.parse t literal = .ok v) :
    Reads value (.obj [("type", .str t.name), ("value", d)]) v := by
  have raw : Reads valueFields (.obj [("type", .str t.name), ("value", d)]) ⟨t, s⟩ := by
    refine Steps.reads ?_ _
    refine .field (reads_ty _ _) ?_ ⟨rfl, fun _ => rfl⟩
    exact .field spelled (.nil _) ⟨rfl, fun _ => rfl⟩
  refine Reads.unit ⟨raw.legible, ?_⟩
  intro n shown
  simp only [raw.read n shown, bind, Except.bind, trimmed, String.ofList_toList]
  rw [if_neg (by simpa using some), parsed]
  rfl

theorem reads_value_void : Reads value (.obj [("type", .str "void")]) .void := by
  have raw : Reads valueFields (.obj [("type", .str "void")]) ⟨.void, ""⟩ := by
    refine Steps.reads ?_ _
    exact .field (reads_ty _ .void) (.nil _) ⟨rfl, fun _ => rfl⟩
  refine Reads.unit ⟨raw.legible, ?_⟩
  intro n shown
  simp only [raw.read n shown]
  rfl

theorem spelled_number {s : String} (number : NumberText s.toList) :
    Reads (fun n => .ok n.spelling) (.num s) s := by
  refine ⟨.number number, ?_⟩
  intro n shown
  obtain ⟨sp, rfl, text⟩ := shown.of_number number
  simp [Node.spelling, Node.span, text]

theorem spelled_word (b : Bool) : Reads (fun n => .ok n.spelling) (.num (truthWord b)) (truthWord b) := by
  refine ⟨.word b, ?_⟩
  intro n shown
  generalize text : truthWord b = s at shown ⊢
  cases shown with
  | number spelled => simp [Node.spelling, Node.span, spelled]
  | word spelled => simp [Node.spelling, Node.span, spelled]

theorem spelled_string (s : String) :
    Reads (fun n => .ok n.spelling) (.str s) (Escaping.file.string s) := by
  refine ⟨.str s, ?_⟩
  intro n shown
  cases shown with
  | str text => simp [Node.spelling, Node.span, text]

end Spelling

section Literals
variable {v : Value}

/-- A literal spelled as a number. -/
theorem reads_value_number (number : NumberText v.literal.toList)
    (parsed : Value.parse v.ty v.literal = .ok v) :
    Reads value (.obj [("type", .str v.ty.name), ("value", .num v.literal)]) v := by
  refine reads_value_of (spelled_number number) (trimQuotes_of_plain (plain_of_number number)) ?_
    parsed
  obtain ⟨c, more, text, -⟩ := number.cons
  intro empty
  simp [empty] at text

/-- A literal between quotes. -/
theorem reads_value_quoted (plain : Plain v.literal.toList) (some : v.literal.toList ≠ [])
    (raw : ∀ c ∈ v.literal.toList, (Escaping.file.char c).toList = [c])
    (parsed : Value.parse v.ty v.literal = .ok v) :
    Reads value (.obj [("type", .str v.ty.name), ("value", .str v.literal)]) v := by
  have inner : Escaping.file.inner v.literal.toList = v.literal.toList := by
    rw [Escaping.inner, List.flatMap_congr raw]
    simp
  refine reads_value_of (spelled_string _) ?_ (by simpa using some) parsed
  rw [Escaping.toList_string, inner, trimQuotes_quoted plain some]

theorem number_toInt : NumberText (toString v.toInt).toList := by
  rw [Text.toList_toString_int]
  exact numberText_signedDigitsOf _

theorem number_toNat : NumberText (toString v.bits.toNat).toList := by
  simpa using (whole_toDigits v.bits.toNat).magnitude.number

/-- Signed integers are read back from their literal. -/
theorem parse_toInt (normal : v.Normal) (signed : v.ty.isSigned) :
    Value.parse v.ty (toString v.toInt) = .ok v := by
  have low := v.bits.toInt64.le_toInt
  have high := v.bits.toInt64.toInt_lt
  have trimmed := trim_of_plain (plain_of_number (@number_toInt v))
  have read : Text.signedLiteral 64 (toString v.toInt).toList = .ok v.toInt := by
    rw [Text.toList_toString_int]
    exact Text.signedLiteral_signedDigitsOf low high
  have whole : Value.ofInt v.ty v.toInt = v := by
    rw [Value.ofInt, Value.toInt, Int64.ofInt_toInt]
    exact Value.ofBits_bits normal
  cases kind : v.ty <;> rw [kind] at signed whole
  case i8 | i16 | i32 | i64 =>
    unfold Value.parse
    rw [trimmed]
    dsimp only
    rw [read]
    exact congrArg Except.ok whole
  all_goals cases signed

/-- Types whose values are written as the unsigned word of their bits. -/
def isWord (t : Ty) : Bool := t == .u8 || t == .u16 || t == .u32 || t == .u64

theorem parse_word (normal : v.Normal) {literal : String} (plain : Plain literal.toList)
    (read : Text.unsignedLiteral 64 literal.toList = .ok v.bits.toNat)
    (word : v.ty = .ptr ∨ isWord v.ty) : Value.parse v.ty literal = .ok v := by
  have trimmed := trim_of_plain plain
  have whole : Value.ofNat v.ty v.bits.toNat = v := by
    rw [Value.ofNat, UInt64.ofNat_toNat]
    exact Value.ofBits_bits normal
  cases kind : v.ty <;> rw [kind] at word whole
  case u8 | u16 | u32 | u64 | ptr =>
    unfold Value.parse
    rw [trimmed]
    dsimp only
    rw [read]
    exact congrArg Except.ok whole
  all_goals simp [isWord] at word

theorem parse_truthWord (normal : v.Normal) (boolean : v.ty = .bool) :
    Value.parse .bool (truthWord v.toBool) = .ok v := by
  have back := Value.ofBool_toBool normal boolean
  cases truth : v.toBool <;> rw [truth] at back <;> rw [← back] <;> decide

/-- Characters of addresses and infinities. -/
def isQuotable (c : Char) : Bool := "0123456789abcdefx+-In".toList.contains c

theorem quotable_plain {cs : List Char} (quotable : ∀ c ∈ cs, isQuotable c) :
    Plain cs ∧ ∀ c ∈ cs, (Escaping.file.char c).toList = [c] := by
  have each : ∀ c ∈ "0123456789abcdefx+-In".toList,
      (Text.isBlank c = false ∧ c ≠ '"') ∧ (Escaping.file.char c).toList = [c] := by
    -- the listed characters are looked at one by one, not all characters there are
    rw [← List.all_iff_forall_prop]
    decide
  have listed : ∀ c ∈ cs, c ∈ "0123456789abcdefx+-In".toList := by
    intro c member
    simpa [isQuotable] using quotable c member
  exact ⟨fun c member => (each c (listed c member)).1, fun c member => (each c (listed c member)).2⟩

theorem quotable_digitChar : ∀ d < 16, isQuotable d.digitChar := by decide

theorem quotable_pointer (n : Nat) :
    ∀ c ∈ ("0x" ++ String.ofList (Nat.toDigits 16 n)).toList, isQuotable c := by
  intro c member
  simp only [String.toList_append, String.toList_ofList, List.mem_append] at member
  rcases member with mark | digit
  · have shown : c = '0' ∨ c = 'x' := by simpa using mark
    rcases shown with rfl | rfl <;> decide
  · obtain ⟨d, small, rfl⟩ := Text.mem_toDigits (by decide) digit
    exact quotable_digitChar d small

theorem parse_pointer (normal : v.Normal) (pointer : v.ty = .ptr) :
    Value.parse v.ty ("0x" ++ String.ofList (Nat.toDigits 16 v.bits.toNat)) = .ok v := by
  refine parse_word normal (quotable_plain (quotable_pointer _)).1 ?_ (.inl pointer)
  simpa using Text.unsignedLiteral_hex v.bits.toNat_lt

end Literals

section Floats
variable {v : Value}

theorem isFloat_cases {t : Ty} (float : t.isFloat) : t = .f32 ∨ t = .f64 := by
  cases t <;> simp_all [Ty.isFloat]

/-- The format of a floating-point type. -/
def formatOf (t : Ty) : Number.Format := if t = .f32 then Number.binary32 else Number.binary64

theorem literal_float (float : v.ty.isFloat) : v.literal = (formatOf v.ty).text v.datum := by
  obtain ⟨t, w⟩ := v
  rcases isFloat_cases float with rfl | rfl <;> rfl

/-- A padded zero would be read as zero. -/
theorem parse_padded_zero : ∀ t ∈ [Ty.f32, .f64], ∀ negative : Bool, ∀ k ∈ [(1 : Int), 2, 3, 4, 5],
    (Value.parse t ((if negative then "-" else "") ++
      Number.Layout.general.render ⟨0, k⟩)).toOption.any (·.datum.isZero) = true := by
  decide

/-- The literal of a finite number is spelled as one. -/
theorem number_finite (float : v.ty.isFloat) {negative : Bool} {m : Nat} {e : Int}
    (finite : v.datum = .finite negative m e) (exact : Value.parse v.ty v.literal = .ok v) :
    NumberText v.literal.toList := by
  have literal := literal_float float
  rw [finite] at literal
  rw [literal]
  apply Number.numberText_text
  intro some zero
  generalize short : (formatOf v.ty).shortest m e = d at zero ⊢
  -- Otherwise the digits would be a zero with up to five more behind it, which is read as zero.
  by_contra inside
  have bound : Number.Layout.general.bound = 6 := rfl
  rw [bound] at inside
  have kind : v.ty ∈ [Ty.f32, .f64] := by simpa using isFloat_cases float
  have steps : d.exponent ∈ [(1 : Int), 2, 3, 4, 5] := by
    simp only [List.mem_cons, List.not_mem_nil, or_false]
    omega
  have read := parse_padded_zero v.ty kind negative d.exponent steps
  have text : v.literal = (if negative then "-" else "") ++
      Number.Layout.general.render ⟨0, d.exponent⟩ := by
    rw [literal, Number.Format.text, if_neg some, short, ← zero]
    cases negative <;> simp
  rw [← text, exact, Except.toOption, Option.any_some, finite] at read
  obtain ⟨m, rfl⟩ := Nat.exists_eq_succ_of_ne_zero some
  cases read

theorem bits_infinite (float : v.ty.isFloat) (normal : v.Normal) {negative : Bool}
    (infinite : v.datum = .infinite negative) :
    v = ⟨v.ty, UInt64.ofNat ((formatOf v.ty).write (.infinite negative))⟩ := by
  obtain ⟨t, w⟩ := v
  rcases isFloat_cases float with rfl | rfl
  · have narrow : w.toNat < 2 ^ 32 := by
      have low : w &&& 0xffffffff = w := normal
      rw [← low, UInt64.toNat_and]
      exact Nat.lt_of_le_of_lt Nat.and_le_right (by decide)
    have word := Number.Format.write_infinite_of_read narrow infinite
    rw [formatOf, if_pos rfl, word, UInt64.ofNat_toNat]
  · have word := Number.Format.write_infinite_of_read w.toNat_lt infinite
    rw [formatOf, if_neg (by simp), word, UInt64.ofNat_toNat]

/-- Infinities are read back from their words. -/
theorem parse_infinite (float : v.ty.isFloat) (normal : v.Normal) {negative : Bool}
    (infinite : v.datum = .infinite negative) : Value.parse v.ty v.literal = .ok v := by
  have literal : v.literal = if negative then "-Inf" else "+Inf" := by
    rw [literal_float float, infinite]
    rfl
  have word := bits_infinite float normal infinite
  rw [literal]
  generalize v.ty = t at float word
  rw [word]
  rcases isFloat_cases float with rfl | rfl <;> cases negative <;> decide

end Floats

/-- The document of a value that is not empty: its type, and its literal with quotes or without. -/
theorem doc_of_ne_void {v : Value} (some : v.ty ≠ .void) :
    v.doc = .obj [("type", .str v.ty.name),
      ("value", if v.ty == .ptr || (v.ty.isFloat &&
        (v.datum.isNotANumber || v.datum.isInfinite)) then .str v.literal else .num v.literal)] := by
  unfold Value.doc
  split
  case h_1 void => exact absurd void some
  case h_2 => rfl

theorem reads_float {v : Value} (writable : v.Writable) (exact : v.ShortestExact)
    (float : v.ty.isFloat) : Reads value v.doc v := by
  have kinds := isFloat_cases float
  have number := writable.number float
  have some : v.ty ≠ .void := by rcases kinds with kind | kind <;> simp [kind]
  have noPointer : (v.ty == .ptr) = false := by rcases kinds with kind | kind <;> simp [kind]
  rw [doc_of_ne_void some, noPointer, float, number]
  cases datum : v.datum with
  | notANumber negative payload =>
    rw [datum] at number
    cases number
  | infinite negative =>
    have literal : v.literal = if negative then "-Inf" else "+Inf" := by
      rw [literal_float float, datum]
      rfl
    have quotable : ∀ c ∈ v.literal.toList, isQuotable c := by
      rw [literal, ← List.all_eq_true]
      cases negative <;> decide
    refine reads_value_quoted (quotable_plain quotable).1 ?_ (quotable_plain quotable).2
      (parse_infinite float writable.normal datum)
    rw [literal]
    cases negative <;> simp
  | finite negative m e =>
    have read := exact float (by rw [datum]; rfl)
    exact reads_value_number (number_finite float datum read) read

/-- Integers are spelled as numbers. -/
theorem reads_integer {v : Value} (integer : v.ty.isInteger) (number : NumberText v.literal.toList)
    (parsed : Value.parse v.ty v.literal = .ok v) : Reads value v.doc v := by
  have bare : ∀ t : Ty, t.isInteger → t ≠ .void ∧ (t == .ptr) = false ∧ t.isFloat = false := by
    intro t
    cases t <;> decide
  obtain ⟨some, noPointer, noFloat⟩ := bare v.ty integer
  rw [doc_of_ne_void some, noPointer, noFloat]
  exact reads_value_number number parsed

/-- Every writable value is read back from its document. -/
theorem reads_value {v : Value} (writable : v.Writable) (exact : v.ShortestExact) :
    Reads value v.doc v := by
  have normal := writable.normal
  cases kind : v.ty
  case void =>
    obtain ⟨t, w⟩ := v
    cases kind
    have empty : (0 : UInt64) = w := normal
    subst empty
    exact reads_value_void
  case bool =>
    have literal : v.literal = truthWord v.toBool := by
      rw [Value.literal, kind]
      rfl
    have plain : Plain (truthWord v.toBool).toList := by
      unfold Plain
      rw [← List.all_iff_forall_prop]
      cases v.toBool <;> decide
    rw [doc_of_ne_void (by simp [kind]), kind, literal]
    refine reads_value_of (spelled_word v.toBool) (trimQuotes_of_plain plain) ?_
      (parse_truthWord normal kind)
    cases v.toBool <;> decide
  case i8 | i16 | i32 | i64 =>
    have literal : v.literal = toString v.toInt := by rw [Value.literal, kind]
    refine reads_integer (by rw [kind]; rfl) ?_ ?_ <;> rw [literal]
    · exact number_toInt
    · exact parse_toInt normal (by rw [kind]; rfl)
  case u8 | u16 | u32 | u64 =>
    have literal : v.literal = toString v.bits.toNat := by rw [Value.literal, kind]
    have number := @number_toNat v
    refine reads_integer (by rw [kind]; rfl) ?_ ?_ <;> rw [literal]
    · exact number
    · refine parse_word normal (plain_of_number number) ?_ (.inr (by rw [kind]; rfl))
      simpa using Text.unsignedLiteral_toDigits v.bits.toNat_lt
  case ptr =>
    have literal : v.literal = "0x" ++ String.ofList (Nat.toDigits 16 v.bits.toNat) := by
      rw [Value.literal, kind]
    obtain ⟨plain, raw⟩ := quotable_plain (quotable_pointer v.bits.toNat)
    have parsed := parse_pointer normal kind
    rw [← literal] at plain raw parsed
    rw [doc_of_ne_void (by simp [kind]), if_pos (by simp [kind])]
    refine reads_value_quoted plain ?_ raw parsed
    simp [literal]
  case f32 | f64 => exact reads_float writable exact (by rw [kind]; rfl)

end Codec

end TieredEngine.Ir
