import TieredEngine.Text.Encoding

/-!
Strings of a configuration document. A basic string stands in double quotes and may have escapes, a
literal string stands in single quotes and has none, and three quotes on each side make a string
that spans lines. A string is first cut out of the text at its closing quotes, and its escapes are
read after that, so a missing quote is found before a bad escape.
-/
namespace TieredEngine.Toml
open TieredEngine

/-- Why a string cannot be read. -/
inductive StringError where
  | lineEndInLiteral | lineEndInBasic
  | openLiteral | openBasic | openLongLiteral | openLongBasic
  | quotesInLongLiteral | quotesInLongBasic
  | invalidInLiteral | invalidText | invalidByte (byte : Nat)
  | loneReturn | loneBackslash
  | unknownEscape (byte : Nat)
  | shortCodePoint (digits available : Nat)
  | notHexadecimal | noCodePoint
  deriving DecidableEq, Repr

def StringError.message : StringError → String
  | lineEndInLiteral => "literal strings cannot have new lines"
  | lineEndInBasic => "basic strings cannot have new lines"
  | openLiteral => "unterminated literal string"
  | openBasic => "basic string not terminated by \""
  | openLongLiteral => "multiline literal string not terminated by '''"
  | openLongBasic => "multiline basic string not terminated by \"\"\""
  | quotesInLongLiteral => "''' not allowed in multiline literal string"
  | quotesInLongBasic => "\"\"\" not allowed in multiline basic string"
  | invalidInLiteral => "invalid character"
  | invalidText => "invalid UTF-8"
  | invalidByte b => "invalid character " ++ Text.byteName b
  | loneReturn => "need a \\n after \\r"
  | loneBackslash => "need a character after \\"
  | unknownEscape b => "invalid escaped character " ++ Text.byteName b
  | shortCodePoint digits available =>
    s!"unicode point needs {digits} character, not {available}"
  | notHexadecimal => "non-hex character"
  | noCodePoint => "escape sequence is invalid Unicode code point"

/-- Characters that may stand in a text: no control characters but tabs and line ends. -/
def isTextChar (c : Char) : Bool :=
  c == '\t' || c == '\n' || c == '\r' || (0x20 ≤ c.toNat && c.toNat != 0x7F)

/-- A string cut out of a text: what stands between its quotes, whether it has escapes, and the
text after it. -/
structure Cut where
  body : List Char
  escaped : Bool := false
  rest : List Char

namespace Cut

/-- Puts characters in front of a string. -/
def after (front : List Char) (cut : Cut) : Cut := { cut with body := front ++ cut.body }

/-- A literal string, after its first quote. -/
def literal : List Char → Except StringError Cut
  | [] => .error .openLiteral
  | c :: r =>
    if c == '\'' then .ok { body := [], rest := r }
    else if c == '\n' || c == '\r' then .error .lineEndInLiteral
    else if isTextChar c then (literal r).map (after [c])
    else .error .invalidInLiteral

/-- A basic string, after its first quote. -/
def basic : List Char → Except StringError Cut
  | [] => .error .openBasic
  | ['\\'] => .error .loneBackslash
  | '\\' :: c :: r => (basic r).map fun cut => { cut.after ['\\', c] with escaped := true }
  | c :: r =>
    if c == '"' then .ok { body := [], rest := r }
    else if c == '\n' || c == '\r' then .error .lineEndInBasic
    else (basic r).map (after [c])

/-- After three quotes at most two more follow, which belong to the string. -/
def close (quote : Char) (tooMany : StringError) (r : List Char) : Except StringError Cut :=
  let quotes := r.takeWhile (· == quote)
  if 2 < quotes.length then .error tooMany
  else .ok { body := quotes, rest := r.drop quotes.length }

/-- A literal string of several lines, after its first quotes. -/
def longLiteral : List Char → Except StringError Cut
  | '\'' :: '\'' :: '\'' :: r => close '\'' .quotesInLongLiteral r
  | [] => .error .openLongLiteral
  | ['\r'] => .error .loneReturn
  | '\r' :: c :: r =>
    if c == '\n' then (longLiteral r).map (after ['\r', '\n']) else .error .loneReturn
  | c :: r => if isTextChar c then (longLiteral r).map (after [c]) else .error .invalidInLiteral

/-- A basic string of several lines, after its first quotes. -/
def longBasic : List Char → Except StringError Cut
  | '"' :: '"' :: '"' :: r => close '"' .quotesInLongBasic r
  | [] => .error .openLongBasic
  | ['\\'] => .error .loneBackslash
  | ['\r'] => .error .loneReturn
  | '\\' :: c :: r => (longBasic r).map fun cut => { cut.after ['\\', c] with escaped := true }
  | '\r' :: c :: r =>
    if c == '\n' then (longBasic r).map (after ['\r', '\n']) else .error .loneReturn
  | c :: r => (longBasic r).map (after [c])

end Cut

/-- The character that a letter stands for after a backslash. -/
def escaped? : Char → Option Char
  | '"' => some '"'
  | '\\' => some '\\'
  | 'b' => some '\x08'
  | 'f' => some '\x0c'
  | 'n' => some '\n'
  | 'r' => some '\r'
  | 't' => some '\t'
  | 'e' => some '\x1b'
  | _ => none

/-- A code point of so many hexadecimal digits. `beyond` counts the quotes after the text, which are
in reach of the digits but are none. -/
def codePoint (digits beyond : Nat) (s : List Char) : Except StringError Char :=
  let front := s.take digits
  let available := Text.byteLength front + beyond
  if available < digits then .error (.shortCodePoint digits available)
  else match front.mapM Text.hexDigit? with
  | none => .error .notHexadecimal
  | some ds =>
    let n := ds.foldl (fun acc d => acc * 16 + d) 0
    if ds.length < digits then .error .notHexadecimal
    else if 0x10FFFF < n || (0xD800 ≤ n && n < 0xE000) then .error .noCodePoint
    else .ok (Char.ofNat n)

/-- Whether only blanks stand before the end of the line. -/
def blankToLineEnd : List Char → Bool
  | '\n' :: _ => true
  | '\r' :: '\n' :: _ => true
  | ' ' :: r => blankToLineEnd r
  | '\t' :: r => blankToLineEnd r
  | _ => false

/-- Blanks and the characters of line ends. -/
def isGap (c : Char) : Bool := c == ' ' || c == '\t' || c == '\n' || c == '\r'

/-- Reads the escapes of a basic string. In a string of several lines a backslash at the end of a
line joins it to the next text. -/
def unescape (long : Bool) (s : List Char) : Except StringError (List Char) :=
  match s with
  | [] => .ok []
  | '\\' :: r =>
    if long && blankToLineEnd r then unescape long (r.dropWhile isGap)
    else
      let beyond := if long then 3 else 0
      match r with
      | [] => .error .loneBackslash
      | 'u' :: r => do
        let c ← codePoint 4 beyond r
        return c :: (← unescape long (r.drop 4))
      | 'U' :: r => do
        let c ← codePoint 8 beyond r
        return c :: (← unescape long (r.drop 8))
      | c :: r =>
        match escaped? c with
        | some e => (unescape long r).map (e :: ·)
        | none => .error (.unknownEscape (Text.firstByte c))
  | c :: r =>
    if isTextChar c then (unescape long r).map (c :: ·) else .error (.invalidByte c.toNat)
termination_by s.length
decreasing_by
  · have := (List.dropWhile_suffix isGap (l := r)).length_le
    simp only [List.length_cons]
    omega
  · simp only [List.length_cons, List.length_drop]
    omega
  · simp only [List.length_cons, List.length_drop]
    omega
  · simp only [List.length_cons]
    omega
  · simp only [List.length_cons]
    omega

/-- A text that a document holds, and whether escapes were used to write it. -/
structure Phrase where
  text : String
  escaped : Bool := false
  deriving DecidableEq, Repr

/-- The text of a string whose escapes are still to be read. -/
def Cut.decode (long : Bool) (cut : Cut) : Except StringError (Phrase × List Char) :=
  if cut.escaped then
    (unescape long cut.body).map fun text => (⟨String.ofList text, true⟩, cut.rest)
  else if cut.body.all isTextChar then .ok (⟨String.ofList cut.body, false⟩, cut.rest)
  else .error .invalidText

/-- The text of a string without escapes. -/
def Cut.verbatim (cut : Cut) : Phrase × List Char := (⟨String.ofList cut.body, false⟩, cut.rest)

/-- A line end right after the first quotes does not count. -/
def Cut.dropFirstLineEnd (cut : Cut) : Cut :=
  match cut.body with
  | '\r' :: '\n' :: r => { cut with body := r }
  | '\n' :: r => { cut with body := r }
  | _ => cut

/-- A string in any of the four forms, or none if no quote stands here. -/
def string? (s : List Char) : Option (Except StringError (Phrase × List Char)) :=
  match s with
  | '"' :: '"' :: '"' :: r => some ((Cut.longBasic r).bind (·.dropFirstLineEnd.decode true))
  | '\'' :: '\'' :: '\'' :: r =>
    some ((Cut.longLiteral r).map (·.dropFirstLineEnd.verbatim))
  | '"' :: r => some ((Cut.basic r).bind (·.decode false))
  | '\'' :: r => some ((Cut.literal r).map Cut.verbatim)
  | _ => none

end TieredEngine.Toml
