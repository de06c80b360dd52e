import TieredEngine.Json.Doc
import TieredEngine.Json.Node

/-!
Written documents as lists of characters, and strings in them. The writer adds each piece to what is
written so far; here the text of a document stands on its own, so that a reader can be followed through it
piece by piece. Strings are read as they were written: every character, escaped or not, is read back in
one step of the reader.
-/
namespace TieredEngine.Json
open TieredEngine

namespace Escaping

/-- What stands between the quotes of a string. -/
def inner (e : Escaping) (cs : List Char) : List Char := cs.flatMap fun c => (e.char c).toList

theorem toList_string (e : Escaping) (s : String) :
    (e.string s).toList = '"' :: (e.inner s.toList ++ ['"']) := by
  have grown : ∀ (cs : List Char) (acc : String),
      (cs.foldl (fun acc c => acc ++ e.char c) acc).toList = acc.toList ++ e.inner cs := by
    intro cs
    induction cs with
    | nil => simp [inner]
    | cons c cs ih =>
      intro acc
      rw [List.foldl_cons, ih]
      simp [inner]
  rw [string, String.foldl_eq_foldl_toList, String.toList_append, grown]
  simp

end Escaping

namespace Doc

/-- The characters of a line break and the indentation of a depth. -/
def breakChars (depth : Nat) : List Char := '\n' :: List.replicate (2 * depth) ' '

theorem toList_lineBreak (depth : Nat) : (lineBreak depth).toList = breakChars depth := by
  simp [lineBreak, breakChars]

mutual

/-- Characters of the indented text at a depth. -/
def chars (e : Escaping) (depth : Nat) : Doc → List Char
  | .null => "null".toList
  | .bool b => (if b then "true" else "false").toList
  | .num s => s.toList
  | .str s => (e.string s).toList
  | .arr [] => ['[', ']']
  | .arr (d :: ds) =>
    '[' :: (breakChars (depth + 1) ++ chars e (depth + 1) d ++ furtherItems e (depth + 1) ds ++
      breakChars depth ++ [']'])
  | .obj [] => ['\x7b', '\x7d']
  | .obj ((k, d) :: ms) =>
    '\x7b' :: (breakChars (depth + 1) ++ (e.string k).toList ++ [':', ' '] ++
      chars e (depth + 1) d ++ furtherMembers e (depth + 1) ms ++ breakChars depth ++ ['\x7d'])

/-- Items after the first one, each after a comma. -/
def furtherItems (e : Escaping) (depth : Nat) : List Doc → List Char
  | [] => []
  | d :: ds => ',' :: (breakChars depth ++ chars e depth d ++ furtherItems e depth ds)

/-- Members after the first one, each after a comma. -/
def furtherMembers (e : Escaping) (depth : Nat) : List (String × Doc) → List Char
  | [] => []
  | (k, d) :: ms =>
    ',' :: (breakChars depth ++ (e.string k).toList ++ [':', ' '] ++ chars e depth d ++
      furtherMembers e depth ms)

end

mutual

theorem toList_indentedOn (e : Escaping) (depth : Nat) (acc : String) :
    (d : Doc) → (indentedOn e depth acc d).toList = acc.toList ++ d.chars e depth
  | .null => by simp [indentedOn, chars]
  | .bool b => by simp [indentedOn, chars]
  | .num s => by simp [indentedOn, chars]
  | .str s => by simp [indentedOn, chars]
  | .arr [] => by simp [indentedOn, chars]
  | .arr (d :: ds) => by
    simp [indentedOn, indentedItems, chars, toList_indentedItems e (depth + 1) _ ds,
      toList_indentedOn e (depth + 1) _ d, toList_lineBreak]
  | .obj [] => by simp [indentedOn, chars]
  | .obj ((k, d) :: ms) => by
    simp [indentedOn, indentedMembers, chars, toList_indentedMembers e (depth + 1) _ ms,
      toList_indentedOn e (depth + 1) _ d, toList_lineBreak]

theorem toList_indentedItems (e : Escaping) (depth : Nat) (acc : String) :
    (ds : List Doc) →
      (indentedItems e depth acc false ds).toList = acc.toList ++ furtherItems e depth ds
  | [] => by simp [indentedItems, furtherItems]
  | d :: ds => by
    simp [indentedItems, furtherItems, toList_indentedItems e depth _ ds,
      toList_indentedOn e depth _ d, toList_lineBreak]

theorem toList_indentedMembers (e : Escaping) (depth : Nat) (acc : String) :
    (ms : List (String × Doc)) →
      (indentedMembers e depth acc false ms).toList = acc.toList ++ furtherMembers e depth ms
  | [] => by simp [indentedMembers, furtherMembers]
  | (k, d) :: ms => by
    simp [indentedMembers, furtherMembers, toList_indentedMembers e depth _ ms,
      toList_indentedOn e depth _ d, toList_lineBreak]

end

theorem toList_indented (e : Escaping) (d : Doc) : (d.indented e).toList = d.chars e 0 := by
  rw [indented, toList_indentedOn]
  simp

end Doc

/-- Code points that are written as a `\u` escape, by one of the escapings at least. -/
def isCoded (n : Nat) : Bool :=
  n < 0x20 || [0x26, 0x3C, 0x3E, 0x2028, 0x2029].contains n

theorem hexPadded_coded {n : Nat} (coded : isCoded n) :
    (Text.hexPadded 4 n).toList.length = 4 ∧
      (Text.hexPadded 4 n).toList.mapM Text.hexDigit? =
        some [n / 4096 % 16, n / 256 % 16, n / 16 % 16, n % 16] := by
  have low : ∀ k < 0x20, (Text.hexPadded 4 k).toList.length = 4 ∧
      (Text.hexPadded 4 k).toList.mapM Text.hexDigit? =
        some [k / 4096 % 16, k / 256 % 16, k / 16 % 16, k % 16] := by decide
  simp only [isCoded, Bool.or_eq_true, decide_eq_true_eq, List.contains_eq_mem, List.mem_cons,
    List.not_mem_nil, or_false] at coded
  rcases coded with small | rfl | rfl | rfl | rfl | rfl
  · exact low n small
  all_goals decide

theorem lt_of_isCoded {n : Nat} (coded : isCoded n) : n < 0x202A := by
  simp [isCoded] at coded
  omega

theorem unicodeEscape_hexPadded {n : Nat} (coded : isCoded n) (rest : List Char) :
    unicodeEscape ((Text.hexPadded 4 n).toList ++ rest) = .ok (n, rest) := by
  obtain ⟨four, read⟩ := hexPadded_coded coded
  have bound := lt_of_isCoded coded
  have sum : ((n / 4096 % 16 * 16 + n / 256 % 16) * 16 + n / 16 % 16) * 16 + n % 16 = n := by
    omega
  unfold unicodeEscape
  rw [List.take_left' four, List.drop_left' four, read]
  simp only [sum]

theorem readCharacters_coded (near : List Char) (fuel : Nat) (acc : List Char) {c : Char}
    (coded : isCoded c.toNat) (rest : List Char) :
    readCharacters near (fuel + 1) acc
        ('\\' :: 'u' :: ((Text.hexPadded 4 c.toNat).toList ++ rest)) =
      readCharacters near fuel (c :: acc) rest := by
  have bound := lt_of_isCoded coded
  have alone : isSurrogate c.toNat = false := by
    simp [isSurrogate]
    omega
  have unit : unitChar c.toNat = c := by simp [unitChar, alone]
  rw [readCharacters, unicodeEscape_hexPadded coded]
  simp only [bind, Except.bind]
  split
  · rw [if_neg (by simp [alone]), unit]
  · rw [unit]

/-- One step of the reader takes the text of one character. -/
theorem readCharacters_char (e : Escaping) (near : List Char) (fuel : Nat) (acc : List Char)
    (c : Char) (rest : List Char) :
    readCharacters near (fuel + 1) acc ((e.char c).toList ++ rest) =
      readCharacters near fuel (c :: acc) rest := by
  unfold Escaping.char
  split
  case h_6 noQuote noSlash _ _ _ =>
    dsimp only
    split
    case isTrue coded =>
      have listed : isCoded c.toNat := by
        simp [isCoded] at coded ⊢
        rcases coded with ((small | rare) | rare) | ⟨-, (rfl | rfl) | rfl⟩
        all_goals simp [*]
      simpa using readCharacters_coded near fuel acc listed rest
    case isFalse plain =>
      have raw : ¬ c.toNat < 0x20 := by
        intro small
        simp [small] at plain
      rw [String.toList_singleton, List.singleton_append, readCharacters.eq_def]
      split <;> simp_all [Nat.not_lt.mpr]
  all_goals simp [readCharacters, plainEscape?]

theorem readCharacters_inner (e : Escaping) (near : List Char) {cs : List Char} {fuel : Nat}
    (enough : cs.length < fuel) (acc rest : List Char) :
    readCharacters near fuel acc (e.inner cs ++ '"' :: rest) = .ok (cs.reverse ++ acc, rest) := by
  induction cs generalizing fuel acc with
  | nil =>
    obtain ⟨fuel, rfl⟩ := Nat.exists_eq_succ_of_ne_zero (Nat.ne_zero_of_lt enough)
    simp [Escaping.inner, readCharacters]
  | cons c cs ih =>
    obtain ⟨fuel, rfl⟩ := Nat.exists_eq_succ_of_ne_zero (Nat.ne_zero_of_lt enough)
    have split : e.inner (c :: cs) ++ '"' :: rest =
        (e.char c).toList ++ (e.inner cs ++ '"' :: rest) := by simp [Escaping.inner]
    rw [split, readCharacters_char, ih (by simpa using enough)]
    simp

theorem length_le_inner (e : Escaping) (cs : List Char) : cs.length ≤ (e.inner cs).length := by
  induction cs with
  | nil => simp
  | cons c cs ih =>
    have some : 0 < (e.char c).toList.length := by
      unfold Escaping.char
      split
      case h_6 => dsimp only; split <;> simp
      all_goals simp
    simp only [Escaping.inner, List.flatMap_cons, List.length_append, List.length_cons] at ih ⊢
    omega

theorem readString_string (e : Escaping) (s : String) (rest : List Char) :
    readString ((e.string s).toList ++ rest) = .ok (s, rest) := by
  have enough := length_le_inner e s.toList
  have text : (e.string s).toList ++ rest = '"' :: (e.inner s.toList ++ '"' :: rest) := by
    simp [e.toList_string]
  rw [text, readString, if_pos (by simp), readCharacters_inner e _ (by simp; omega)]
  simp [Except.map]

end TieredEngine.Json
