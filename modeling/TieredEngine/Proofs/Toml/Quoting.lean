import Mathlib.Data.Nat.Digits.Defs
import TieredEngine.Proofs.Text.Numerals
import TieredEngine.Toml.Document

/-!
Quoted text as a string of a document. Messages and documents share most of the ways to quote a
character, but not all: quoted text has escapes of its own for the other control characters of ASCII,
and a document knows none of them. So a quoted text is read back as it was, or refused at its first
such character.
-/
namespace TieredEngine.Toml
open TieredEngine

/-- The digits of a number, with zeros in front, give it back. -/
theorem mapM_hexDigit?_padded {width n : Nat} (some : 0 < width) (fits : n < 16 ^ width) :
    (Text.hexPadded width n).toList.length = width ∧
      ∃ ds, (Text.hexPadded width n).toList.mapM Text.hexDigit? = .some ds ∧
        ds.length = width ∧ ds.foldl (fun acc d => acc * 16 + d) 0 = n := by
  have digit : ∀ d < 16, Text.hexDigit? d.digitChar = .some d := by decide
  have digits : ∃ ds, (Nat.toDigits 16 n).mapM Text.hexDigit? = .some ds ∧
      ds.length = (Nat.toDigits 16 n).length ∧ ds.foldl (fun acc d => acc * 16 + d) 0 = n := by
    clear fits
    induction n using Nat.base_induction 16 (by omega) with
    | single m small => exact ⟨[m], by simp [Nat.toDigits_of_lt_base small, digit m small]⟩
    | digit m k small more ih =>
      obtain ⟨ds, read, length, value⟩ := ih
      rw [← Nat.toDigits_append_toDigits (by omega) more small, Nat.toDigits_of_lt_base small]
      refine ⟨ds ++ [k], ?_, by simp [length], ?_⟩
      · simp [List.mapM_append, read, digit k small]
      · rw [List.foldl_append, value, List.foldl_cons, List.foldl_nil, Nat.mul_comm]
  have zeros : ∀ k, (List.replicate k '0').mapM Text.hexDigit? = .some (List.replicate k 0) := by
    intro k
    induction k with
    | zero => rfl
    | succ k ih => simp [List.replicate_succ, ih, show Text.hexDigit? '0' = .some 0 from rfl]
  have nothing : ∀ k, (List.replicate k 0).foldl (fun acc d => acc * 16 + d) 0 = 0 := by
    intro k
    induction k with
    | zero => rfl
    | succ k ih => simpa [List.replicate_succ] using ih
  have short := Nat.toDigits_length 16 n width some fits
  obtain ⟨ds, read, length, value⟩ := digits
  have text : (Text.hexPadded width n).toList =
      List.replicate (width - (Nat.toDigits 16 n).length) '0' ++ Nat.toDigits 16 n := by
    simp [Text.hexPadded]
  rw [text]
  refine ⟨by simp; omega, List.replicate (width - (Nat.toDigits 16 n).length) 0 ++ ds, ?_, ?_, ?_⟩
  · simp [List.mapM_append, zeros, read]
  · simp [length]
    omega
  · rw [List.foldl_append, nothing, value]

theorem digit_of_mem_padded {width n : Nat} {d : Char}
    (member : d ∈ (Text.hexPadded width n).toList) : ∃ k < 16, d = k.digitChar := by
  rw [Text.hexPadded, String.toList_ofList, List.mem_append] at member
  rcases member with zero | digit
  · exact ⟨0, by omega, (List.mem_replicate.mp zero).2⟩
  · exact Text.mem_toDigits (by omega) digit

theorem byteLength_digits {ds : List Char} (digits : ∀ d ∈ ds, ∃ k < 16, d = k.digitChar) :
    Text.byteLength ds = ds.length := by
  have one : ∀ k < 16, k.digitChar.utf8Size = 1 := by decide
  have grown : ∀ n, ds.foldl (fun n c => n + c.utf8Size) n = n + ds.length := by
    induction ds with
    | nil => exact fun _ => rfl
    | cons d ds ih =>
      intro n
      obtain ⟨k, small, rfl⟩ := digits d (by simp)
      rw [List.foldl_cons, one k small, ih fun d member => digits d (by simp [member])]
      simp
      omega
  simpa [Text.byteLength] using grown 0

/-- A code point is read as it was written. -/
theorem codePoint_padded {width : Nat} (some : 0 < width) {c : Char}
    (fits : c.toNat < 16 ^ width) (rest : List Char) :
    codePoint width 0 ((Text.hexPadded width c.toNat).toList ++ rest) = .ok c := by
  obtain ⟨length, ds, read, count, value⟩ := mapM_hexDigit?_padded some fits
  have bytes : Text.byteLength (Text.hexPadded width c.toNat).toList = _ :=
    byteLength_digits fun _ => digit_of_mem_padded
  have valid : ¬ (0x10FFFF < c.toNat ∨ 0xD800 ≤ c.toNat ∧ c.toNat < 0xE000) := by
    have := c.valid
    simp only [UInt32.isValidChar, Nat.isValidChar] at this
    change ¬ (0x10FFFF < c.val.toNat ∨ 0xD800 ≤ c.val.toNat ∧ c.val.toNat < 0xE000)
    omega
  unfold codePoint
  rw [List.take_left' length]
  dsimp only
  rw [bytes, length, if_neg (by omega), read]
  dsimp only
  rw [if_neg (by omega), value, if_neg (by simpa using valid)]
  simp

/-- Characters inside quotes that a document may have too. -/
def isLegible (c : Char) : Bool := isTextChar c || c == '\x08' || c == '\x0c'

/-- How a character stands in quoted text: as itself, after a backslash as a letter, by its code point,
or in a way that a document does not know. -/
inductive Spelled (c : Char) : List Char → Prop where
  | plain (text : isTextChar c = true) (bare : c ≠ '"' ∧ c ≠ '\\' ∧ c ≠ '\n' ∧ c ≠ '\r') :
    Spelled c [c]
  | letter {l : Char} (legible : isLegible c = true) (known : escaped? l = some c)
    (other : l ≠ 'u' ∧ l ≠ 'U') : Spelled c ['\\', l]
  | short (legible : isLegible c = true) (fits : c.toNat < 16 ^ 4) :
    Spelled c ('\\' :: 'u' :: (Text.hexPadded 4 c.toNat).toList)
  | long (legible : isLegible c = true) (fits : c.toNat < 16 ^ 8) :
    Spelled c ('\\' :: 'U' :: (Text.hexPadded 8 c.toNat).toList)
  | foreign {l : Char} {more : List Char} (illegible : isLegible c = false)
    (unknown : escaped? l = none) (other : l ≠ 'u' ∧ l ≠ 'U')
    (digits : ∀ d ∈ more, ∃ k < 16, d = k.digitChar) : Spelled c ('\\' :: l :: more)

theorem isTextChar_of_isPrintable {c : Char} (printable : Text.Printable.isPrintable c = true) :
    isTextChar c = true := by
  unfold Text.Printable.isPrintable at printable
  unfold isTextChar
  split at printable
  · simp at printable ⊢
    omega
  · simp
    omega

theorem spelled_quotedChar (c : Char) : Spelled c (Text.quotedChar c).toList := by
  have named {d : Char} (number : c.toNat = d.toNat) : c = d := Char.toNat_inj.mp number
  unfold Text.quotedChar
  split
  · next number => exact named (d := '"') number ▸ .letter rfl rfl (by decide)
  · next number => exact named (d := '\\') number ▸ .letter rfl rfl (by decide)
  · next number =>
    have spelled : Spelled '\x07' ['\\', 'a'] := .foreign rfl rfl (by decide) (by simp)
    exact named (d := '\x07') number ▸ spelled
  · next number => exact named (d := '\x08') number ▸ .letter rfl rfl (by decide)
  · next number => exact named (d := '\x0c') number ▸ .letter rfl rfl (by decide)
  · next number => exact named (d := '\n') number ▸ .letter rfl rfl (by decide)
  · next number => exact named (d := '\r') number ▸ .letter rfl rfl (by decide)
  · next number => exact named (d := '\t') number ▸ .letter rfl rfl (by decide)
  · next number =>
    have spelled : Spelled '\x0b' ['\\', 'v'] := .foreign rfl rfl (by decide) (by simp)
    exact named (d := '\x0b') number ▸ spelled
  · next quote slash bell back page line line' tab upright =>
    split
    · next printable =>
      rw [String.toList_singleton]
      refine .plain (isTextChar_of_isPrintable printable) ⟨?_, ?_, ?_, ?_⟩
      all_goals
        rintro rfl
        simp_all
    · next hidden =>
      have escaped : 0x80 ≤ c.toNat → isLegible c = true := by
        intro high
        simp [isLegible, isTextChar]
        omega
      have short : c.toNat < 16 ^ 8 := Nat.lt_of_lt_of_le c.val.toNat_lt (by decide)
      split
      · next ascii =>
        rw [String.toList_append]
        refine .foreign (l := 'x') ?_ rfl (by decide) fun d => digit_of_mem_padded
        have control : ¬ (0x20 ≤ c.toNat ∧ c.toNat ≠ 0x7F) := by
          simp [Text.Printable.isPrintable, ascii] at hidden
          omega
        have others : c ≠ '\t' ∧ c ≠ '\n' ∧ c ≠ '\r' ∧ c ≠ '\x08' ∧ c ≠ '\x0c' := by
          refine ⟨?_, ?_, ?_, ?_, ?_⟩
          all_goals
            rintro rfl
            simp_all
        simp [isLegible, isTextChar, others]
        omega
      · split
        · rw [String.toList_append]
          exact .short (escaped (by omega)) (by omega)
        · rw [String.toList_append]
          exact .long (escaped (by omega)) short

/-- What stands between the quotes of a quoted text. -/
def quotedBody (cs : List Char) : List Char := cs.flatMap fun c => (Text.quotedChar c).toList

theorem toList_quoted (s : String) :
    (Text.quoted s).toList = '"' :: (quotedBody s.toList ++ ['"']) := by
  have grown : ∀ (cs : List Char) (acc : String),
      (cs.foldl (fun acc c => acc ++ Text.quotedChar c) acc).toList = acc.toList ++ quotedBody cs := by
    intro cs
    induction cs with
    | nil => simp [quotedBody]
    | cons c cs ih =>
      intro acc
      rw [List.foldl_cons, ih]
      simp [quotedBody]
  rw [Text.quoted, String.foldl_eq_foldl_toList, String.toList_append, grown]
  simp

theorem quotedBody_cons (c : Char) (cs : List Char) :
    quotedBody (c :: cs) = (Text.quotedChar c).toList ++ quotedBody cs := List.flatMap_cons

namespace Cut

theorem basic_bare {c : Char} (bare : c ≠ '"' ∧ c ≠ '\\' ∧ c ≠ '\n' ∧ c ≠ '\r') (r : List Char) :
    basic (c :: r) = (basic r).map (after [c]) := by
  obtain ⟨quote, slash, line, line'⟩ := bare
  rw [basic.eq_def]
  split <;> simp_all

theorem basic_digits {ds : List Char} (digits : ∀ d ∈ ds, ∃ k < 16, d = k.digitChar)
    (r : List Char) : basic (ds ++ r) = (basic r).map (after ds) := by
  have bare : ∀ k < 16, k.digitChar ≠ '"' ∧ k.digitChar ≠ '\\' ∧ k.digitChar ≠ '\n' ∧
      k.digitChar ≠ '\r' := by decide
  induction ds with
  | nil => cases cut : basic r <;> simp [cut, Except.map, after]
  | cons d ds ih =>
    obtain ⟨k, small, rfl⟩ := digits d (by simp)
    rw [List.cons_append, basic_bare (bare k small), ih fun d member => digits d (by simp [member])]
    cases basic r <;> simp [Except.map, after]

/-- One character is cut off a string in its whole spelling. -/
theorem basic_spelled {c : Char} {w : List Char} (spelled : Spelled c w) {r : List Char} {cut : Cut}
    (rest : basic r = .ok cut) : ∃ escaped, basic (w ++ r) = .ok { cut.after w with escaped } ∧
      (escaped = false → cut.escaped = false ∧ w = [c] ∧ isTextChar c = true) := by
  cases spelled with
  | plain text bare => exact ⟨cut.escaped, by simp [basic_bare bare, rest, Except.map, after], by simp [text]⟩
  | letter legible known other => exact ⟨true, by simp [basic, rest, Except.map, after], by simp⟩
  | short legible fits =>
    refine ⟨true, ?_, by simp⟩
    simp [basic, basic_digits (fun d => digit_of_mem_padded), rest, Except.map, after]
  | long legible fits =>
    refine ⟨true, ?_, by simp⟩
    simp [basic, basic_digits (fun d => digit_of_mem_padded), rest, Except.map, after]
  | foreign illegible unknown other digits =>
    refine ⟨true, ?_, by simp⟩
    simp [basic, basic_digits digits, rest, Except.map, after]

/-- A quoted text is cut out at its closing quote. -/
theorem basic_quotedBody (cs r : List Char) :
    ∃ escaped, basic (quotedBody cs ++ '"' :: r) = .ok { body := quotedBody cs, escaped, rest := r } ∧
      (escaped = false → quotedBody cs = cs ∧ cs.all isTextChar = true) := by
  induction cs with
  | nil => exact ⟨false, by simp [quotedBody, basic], by simp [quotedBody]⟩
  | cons c cs ih =>
    obtain ⟨escaped, rest, plain⟩ := ih
    obtain ⟨escaped', cut, plain'⟩ := basic_spelled (spelled_quotedChar c) rest
    refine ⟨escaped', ?_, fun none => ?_⟩
    · rw [quotedBody_cons, List.append_assoc, cut]
      simp [after]
    · obtain ⟨none', single, text⟩ := plain' none
      obtain ⟨same, texts⟩ := plain none'
      exact ⟨by rw [quotedBody_cons, single, same]; rfl, by simp [text, texts]⟩

end Cut

theorem unescape_spelled {c : Char} {w : List Char} (spelled : Spelled c w)
    (legible : isLegible c = true) (r : List Char) :
    unescape false (w ++ r) = (unescape false r).map (c :: ·) := by
  cases spelled with
  | plain text bare =>
    rw [List.singleton_append, unescape.eq_def]
    split <;> simp_all
  | letter _ known other =>
    obtain ⟨notShort, notLong⟩ := other
    simp only [List.cons_append, List.nil_append]
    rw [unescape.eq_def]
    simp [known]
  | short _ fits =>
    have length := (mapM_hexDigit?_padded (by omega) fits).1
    simp only [List.cons_append]
    rw [unescape]
    simp only [Bool.false_and, Bool.false_eq_true, if_false, codePoint_padded (by omega) fits,
      List.drop_left' length]
    rfl
  | long _ fits =>
    have length := (mapM_hexDigit?_padded (by omega) fits).1
    simp only [List.cons_append]
    rw [unescape]
    simp only [Bool.false_and, Bool.false_eq_true, if_false, codePoint_padded (by omega) fits,
      List.drop_left' length]
    rfl
  | foreign illegible unknown other digits => simp [legible] at illegible

/-- Escapes are read back as what they were written for. -/
theorem unescape_quotedBody {cs : List Char} (legible : ∀ c ∈ cs, isLegible c = true) :
    unescape false (quotedBody cs) = .ok cs := by
  induction cs with
  | nil => simp [quotedBody, unescape]
  | cons c cs ih =>
    rw [quotedBody_cons, unescape_spelled (spelled_quotedChar c) (legible c (by simp)),
      ih fun d member => legible d (by simp [member])]
    rfl

theorem unescape_foreign {c : Char} {w : List Char} (spelled : Spelled c w)
    (illegible : isLegible c = false) (r : List Char) :
    ∃ b, unescape false (w ++ r) = .error (.unknownEscape b) := by
  cases spelled with
  | @foreign l more _ unknown other digits =>
    refine ⟨Text.firstByte l, ?_⟩
    obtain ⟨notShort, notLong⟩ := other
    simp only [List.cons_append]
    rw [unescape.eq_def]
    simp [unknown]
  | plain text bare => simp [isLegible, text] at illegible
  | letter legible known other => simp [legible] at illegible
  | short legible fits => simp [legible] at illegible
  | long legible fits => simp [legible] at illegible

/-- The first escape that a document does not know stops the reader. -/
theorem unescape_quotedBody_illegible {cs : List Char}
    (illegible : ∃ c ∈ cs, isLegible c = false) :
    ∃ b, unescape false (quotedBody cs) = .error (.unknownEscape b) := by
  induction cs with
  | nil => simp at illegible
  | cons c cs ih =>
    rw [quotedBody_cons]
    cases legible : isLegible c with
    | false => exact unescape_foreign (spelled_quotedChar c) legible _
    | true =>
      obtain ⟨b, stops⟩ := ih (by simpa [legible] using illegible)
      exact ⟨b, by rw [unescape_spelled (spelled_quotedChar c) legible, stops]; rfl⟩

/-- A quoted text stands in a document where no third quote follows it. -/
theorem string?_quoted (s : String) (r : List Char) :
    string? ((Text.quoted s).toList ++ '\n' :: r) =
      some ((Cut.basic (quotedBody s.toList ++ '"' :: '\n' :: r)).bind (·.decode false)) := by
  have text : (Text.quoted s).toList ++ '\n' :: r =
      '"' :: (quotedBody s.toList ++ '"' :: '\n' :: r) := by
    simp [toList_quoted]
  rw [text]
  cases cs : s.toList with
  | nil => rfl
  | cons c cs =>
    rw [quotedBody_cons]
    have spelled := spelled_quotedChar c
    generalize (Text.quotedChar c).toList = w at spelled
    cases spelled with
    | plain text bare => simp [string?, bare.1]
    | letter legible known other => simp [string?]
    | short legible fits => simp [string?]
    | long legible fits => simp [string?]
    | foreign illegible unknown other digits => simp [string?]

/-- A quoted text whose characters are legible is read back as it was. -/
theorem string?_legible {s : String} (legible : ∀ c ∈ s.toList, isLegible c = true) (r : List Char) :
    ∃ escaped, string? ((Text.quoted s).toList ++ '\n' :: r) = some (.ok (⟨s, escaped⟩, '\n' :: r)) := by
  obtain ⟨escaped, cut, plain⟩ := Cut.basic_quotedBody s.toList ('\n' :: r)
  rw [string?_quoted, cut]
  refine ⟨escaped, congrArg some ?_⟩
  cases escaped with
  | true => simp [Except.bind, Cut.decode, unescape_quotedBody legible, Except.map]
  | false =>
    obtain ⟨same, texts⟩ := plain rfl
    simp only [Except.bind, Cut.decode, same, texts]
    simp

/-- A quoted text with another character is refused. -/
theorem string?_illegible {s : String} (illegible : ∃ c ∈ s.toList, isLegible c = false)
    (r : List Char) : ∃ b, string? ((Text.quoted s).toList ++ '\n' :: r) =
      some (.error (.unknownEscape b)) := by
  obtain ⟨escaped, cut, plain⟩ := Cut.basic_quotedBody s.toList ('\n' :: r)
  obtain ⟨b, stops⟩ := unescape_quotedBody_illegible illegible
  rw [string?_quoted, cut]
  refine ⟨b, congrArg some ?_⟩
  cases escaped with
  | true => simp [Except.bind, Cut.decode, stops, Except.map]
  | false =>
    obtain ⟨c, member, hidden⟩ := illegible
    have text := List.all_eq_true.mp (plain rfl).2 c member
    simp [isLegible, text] at hidden

/-- A line of a document that has no nested names. -/
inductive Line where
  | comment (text : String)
  | blank
  | heading (name : String)
  | setting (name value : String)

namespace Line

def chars : Line → List Char
  | comment text => '#' :: ' ' :: (text.toList ++ ['\n'])
  | blank => ['\n']
  | heading name => '[' :: (name.toList ++ [']', '\n'])
  | setting name value => name.toList ++ ' ' :: '=' :: ' ' :: ((Text.quoted value).toList ++ ['\n'])

/-- What the line says. -/
def expr? : Line → Option Expr
  | comment _ | blank => none
  | heading name => some (.table [⟨name, false⟩])
  | setting name value => some (.keyValue [⟨name, false⟩] (.string value))

/-- Comments stay on their line, and names stand without quotes. -/
def isProper : Line → Bool
  | comment text => text.toList.all fun c => isTextChar c && c != '\n' && c != '\r'
  | blank => true
  | heading name | setting name _ => !name.toList.isEmpty && name.toList.all Reading.isBareKeyChar

def Legible : Line → Prop
  | setting _ value => ∀ c ∈ value.toList, isLegible c = true
  | comment _ | blank | heading _ => True

end Line

namespace Reading

theorem comment_line {cs : List Char}
    (proper : ∀ c ∈ cs, isTextChar c = true ∧ c ≠ '\n' ∧ c ≠ '\r') (r : List Char) :
    comment (cs ++ '\n' :: r) = .ok ('\n' :: r) := by
  induction cs with
  | nil => rfl
  | cons c cs ih =>
    obtain ⟨text, line, line'⟩ := proper c (by simp)
    rw [List.cons_append, comment.eq_def]
    split <;> simp_all

theorem bare_first {c : Char} (bare : isBareKeyChar c = true) :
    c ≠ '"' ∧ c ≠ '\'' ∧ c ≠ ' ' ∧ c ≠ '\t' ∧ c ≠ '#' ∧ c ≠ '\n' ∧ c ≠ '\r' ∧ c ≠ '[' := by
  refine ⟨?_, ?_, ?_, ?_, ?_, ?_, ?_, ?_⟩
  all_goals
    rintro rfl
    revert bare
    decide

theorem simpleKey_bare {name : List Char} (nonempty : name ≠ [])
    (bare : name.all isBareKeyChar = true) {next : Char} (stops : isBareKeyChar next = false)
    (r : List Char) :
    simpleKey (name ++ next :: r) = .ok (⟨String.ofList name, false⟩, next :: r) := by
  have whole : (name ++ next :: r).takeWhile isBareKeyChar = name := by
    rw [List.takeWhile_append_of_pos (List.all_eq_true.mp bare)]
    simp [stops]
  cases name with
  | nil => exact absurd rfl nonempty
  | cons c name =>
    obtain ⟨quote, quote', -⟩ := bare_first (List.all_eq_true.mp bare c (by simp))
    unfold simpleKey
    rw [List.cons_append] at whole ⊢
    split
    · contradiction
    · simp_all
    · simp_all
    · next first rest same =>
      obtain ⟨rfl, rfl⟩ := List.cons.inj same
      rw [whole]
      simp

/-- A name without quotes that nothing is joined to. -/
theorem key_bare {name : List Char} (nonempty : name ≠ []) (bare : name.all isBareKeyChar = true)
    (next : Char) (r : List Char) (stops : isBareKeyChar next = false)
    (alone : ∀ more, skipSpaces (next :: r) ≠ '.' :: more) :
    key (name ++ next :: r) = .ok ([⟨String.ofList name, false⟩], skipSpaces (next :: r)) := by
  rw [key, names, simpleKey_bare nonempty bare stops]
  simp only [bind, Except.bind]
  rfl

theorem line_heading {s r : List Char} {k : Key} (opens : ∀ more, s ≠ '[' :: more)
    (here : skipSpaces s = s) (named : key s = .ok (k, ']' :: '\n' :: r)) :
    line ('[' :: s) = .ok (some (.table k), '\n' :: r) := by
  unfold line
  rw [show skipSpaces ('[' :: s) = '[' :: s from rfl]
  simp only [here, named]
  rfl

theorem line_keyValue {c : Char} (bare : isBareKeyChar c = true) (s : List Char) :
    line (c :: s) = keyValue (s.length + 3) (c :: s) >>= fun ((k, v), rest) => do
      return (some (.keyValue k v), ← skipComment rest) := by
  obtain ⟨-, -, blank, tab, hash, end', end'', opens⟩ := bare_first bare
  have whole : skipSpaces (c :: s) = c :: s := by simp [skipSpaces, isSpace, blank, tab]
  unfold line
  rw [whole]
  split
  case h_7 => rfl
  all_goals simp_all

/-- A key with a string in double quotes. -/
theorem keyValue_string {s r : List Char} {k : Key}
    (named : key s = .ok (k, '=' :: ' ' :: '"' :: r)) (fuel : Nat) :
    keyValue (fuel + 2) s = ((string? ('"' :: r)).getD (.error .openBasic)).mapError
      SyntaxError.string >>= fun (p, rest) => .ok ((k, .string p.text), rest) := by
  obtain ⟨read, quote⟩ : ∃ read, string? ('"' :: r) = some read := by
    unfold string?
    split <;> simp_all
  have equals : expect '=' ('=' :: ' ' :: '"' :: r) = .ok (' ' :: '"' :: r) := rfl
  have value : val (fuel + 1) ('"' :: r) =
      (read.map fun (p, rest) => (Val.string p.text, rest)).mapError .string := by
    unfold val
    rw [quote]
  unfold keyValue
  simp only [named, bind, Except.bind]
  rw [show skipSpaces ('=' :: ' ' :: '"' :: r) = '=' :: ' ' :: '"' :: r from rfl]
  simp only [equals]
  rw [show skipSpaces (' ' :: '"' :: r) = '"' :: r from rfl, value, quote]
  cases read <;> rfl

end Reading

namespace Line
open Reading

theorem chars_comment (text : String) (r : List Char) :
    (comment text).chars ++ r = '#' :: ' ' :: (text.toList ++ '\n' :: r) := by
  simp [chars]

theorem chars_heading (name : String) (r : List Char) :
    (heading name).chars ++ r = '[' :: (name.toList ++ ']' :: '\n' :: r) := by
  simp [chars]

theorem chars_setting (name value : String) (r : List Char) : (setting name value).chars ++ r =
    name.toList ++ ' ' :: '=' :: ' ' :: ((Text.quoted value).toList ++ '\n' :: r) := by
  simp [chars]

/-- A proper line that is no setting is read for what it says, up to its end. -/
theorem line_other {l : Line} (proper : l.isProper = true)
    (other : ∀ name value, l ≠ setting name value) (r : List Char) :
    line (l.chars ++ r) = .ok (l.expr?, '\n' :: r) := by
  cases l with
  | comment text =>
    have text' : ∀ c ∈ ' ' :: text.toList, isTextChar c = true ∧ c ≠ '\n' ∧ c ≠ '\r' := by
      refine List.forall_mem_cons.mpr ⟨by decide, fun c member => ?_⟩
      simpa [and_assoc] using List.all_eq_true.mp proper c member
    rw [chars_comment, line]
    simp only [skipSpaces, List.dropWhile, isSpace]
    exact congrArg (· >>= fun rest => Except.ok (none, rest)) (comment_line text' r)
  | blank => rfl
  | heading name =>
    simp only [isProper, Bool.and_eq_true, Bool.not_eq_true', List.isEmpty_eq_false_iff] at proper
    obtain ⟨nonempty, bare⟩ := proper
    have named := key_bare nonempty bare ']' ('\n' :: r) rfl fun _ same => nomatch same
    rw [String.ofList_toList] at named
    rw [chars_heading]
    obtain ⟨c, cs, first⟩ := List.exists_cons_of_ne_nil nonempty
    have start := bare_first (List.all_eq_true.mp bare c (by simp [first]))
    refine line_heading (by simp [first, start]) ?_ named
    simp [skipSpaces, first, isSpace, start]
  | setting name value => exact absurd rfl (other name value)

theorem line_setting {name : String} (value : String) (proper : (setting name value).isProper = true)
    (r : List Char) : line ((setting name value).chars ++ r) =
      ((string? ((Text.quoted value).toList ++ '\n' :: r)).getD (.error .openBasic)).mapError
        SyntaxError.string >>= fun (p, rest) => do
          return (some (.keyValue [⟨name, false⟩] (.string p.text)), ← skipComment rest) := by
  simp only [isProper, Bool.and_eq_true, Bool.not_eq_true', List.isEmpty_eq_false_iff] at proper
  obtain ⟨nonempty, bare⟩ := proper
  have quoted : (Text.quoted value).toList ++ '\n' :: r =
      '"' :: (quotedBody value.toList ++ '"' :: '\n' :: r) := by
    simp [toList_quoted]
  have named := key_bare nonempty bare ' '
    ('=' :: ' ' :: ((Text.quoted value).toList ++ '\n' :: r)) rfl fun _ same => nomatch same
  rw [String.ofList_toList] at named
  rw [chars_setting]
  obtain ⟨c, cs, first⟩ := List.exists_cons_of_ne_nil nonempty
  rw [first, List.cons_append] at named ⊢
  rw [line_keyValue (List.all_eq_true.mp bare c (by simp [first]))]
  rw [quoted] at named ⊢
  rw [keyValue_string named]
  cases (string? ('"' :: (quotedBody value.toList ++ '"' :: '\n' :: r))).getD
    (.error .openBasic) <;> rfl

theorem line_legible {l : Line} (proper : l.isProper = true) (legible : l.Legible) (r : List Char) :
    line (l.chars ++ r) = .ok (l.expr?, '\n' :: r) := by
  cases l with
  | setting name value =>
    obtain ⟨escaped, read⟩ := string?_legible legible r
    rw [line_setting value proper, read]
    rfl
  | comment text => exact line_other proper (fun _ _ => nofun) r
  | blank => exact line_other proper (fun _ _ => nofun) r
  | heading name => exact line_other proper (fun _ _ => nofun) r

theorem line_illegible {l : Line} (proper : l.isProper = true) (illegible : ¬ l.Legible)
    (r : List Char) : ∃ b, line (l.chars ++ r) = .error (.string (.unknownEscape b)) := by
  cases l with
  | setting name value =>
    obtain ⟨b, read⟩ := string?_illegible (by simpa [Legible] using illegible) r
    exact ⟨b, by rw [line_setting value proper, read]; rfl⟩
  | comment text => exact absurd trivial illegible
  | blank => exact absurd trivial illegible
  | heading name => exact absurd trivial illegible

/-- Each line takes room. -/
theorem length_le_chars (ls : List Line) : ls.length ≤ (ls.flatMap chars).length := by
  induction ls with
  | nil => simp
  | cons l ls ih =>
    have some : 0 < l.chars.length := by cases l <;> simp [chars]
    rw [List.flatMap_cons, List.length_append, List.length_cons]
    omega

end Line

namespace Document

theorem ofLines_end (fuel : Nat) : ofLines fuel [] = {} := by
  cases fuel <;> rfl

theorem ofLines_line {s r : List Char} {e : Option Expr} (read : Reading.line s = .ok (e, '\n' :: r))
    (fuel : Nat) : ofLines (fuel + 1) s = cons e (ofLines fuel r) := by
  rw [ofLines, read]
  simp only [Reading.lineEnd]
  cases r with
  | nil => rw [ofLines_end]
  | cons c r => rfl

/-- A document of legible lines says what its lines say. -/
theorem ofLines_legible {ls : List Line} (proper : ∀ l ∈ ls, l.isProper = true)
    (legible : ∀ l ∈ ls, l.Legible) {fuel : Nat} (enough : ls.length ≤ fuel) :
    ofLines fuel (ls.flatMap Line.chars) = { exprs := ls.filterMap Line.expr? } := by
  induction ls generalizing fuel with
  | nil => exact ofLines_end fuel
  | cons l ls ih =>
    obtain ⟨fuel, rfl⟩ := Nat.exists_eq_succ_of_ne_zero (Nat.ne_zero_of_lt enough)
    have line := l.line_legible (proper l (by simp)) (legible l (by simp)) (ls.flatMap Line.chars)
    rw [List.flatMap_cons, ofLines_line line, ih (fun l member => proper l (by simp [member]))
      (fun l member => legible l (by simp [member])) (by simpa using enough)]
    cases said : l.expr? <;> simp [cons, said]

/-- The first line that is not legible ends a document with its fault. -/
theorem ofLines_illegible {ls : List Line} (proper : ∀ l ∈ ls, l.isProper = true)
    (illegible : ∃ l ∈ ls, ¬ l.Legible) {fuel : Nat} (enough : ls.length ≤ fuel) :
    ∃ b before, before <+: ls.filterMap Line.expr? ∧ ofLines fuel (ls.flatMap Line.chars) =
      { exprs := before, fault := some (.string (.unknownEscape b)) } := by
  induction ls generalizing fuel with
  | nil => simp at illegible
  | cons l ls ih =>
    obtain ⟨fuel, rfl⟩ := Nat.exists_eq_succ_of_ne_zero (Nat.ne_zero_of_lt enough)
    have own := proper l (by simp)
    by_cases legible : l.Legible
    · obtain ⟨b, before, first, rest⟩ := ih (fun l member => proper l (by simp [member]))
        (by simpa [legible] using illegible) (by simpa using enough)
      rw [List.flatMap_cons, ofLines_line (l.line_legible own legible _), rest]
      cases said : l.expr? with
      | none => exact ⟨b, before, by simpa [said] using first, rfl⟩
      | some e => exact ⟨b, e :: before, by simpa [said] using first, rfl⟩
    · obtain ⟨b, read⟩ := l.line_illegible own legible (ls.flatMap Line.chars)
      exact ⟨b, [], List.nil_prefix, by rw [List.flatMap_cons, ofLines, read]⟩

end Document

end TieredEngine.Toml
