import TieredEngine.Text.Encoding

/-!
JSON text as it is read. A node keeps, next to its value, the text it was spelled with: numbers are
read by whoever knows their width, and some fields are taken verbatim. Reading is strict about the
grammar (no trailing comma, no bare word, no raw control character in a string), and a lone
surrogate escape becomes the replacement character. A text that is not JSON ends inside a value, or
something stands in it that cannot stand there; messages show the text from some point before the
fault on, up to thirty-two bytes of it.
-/
namespace TieredEngine.Json
open TieredEngine

/-- What stands where it cannot. Characters are given by their first byte. -/
inductive Misfit where
  | value (byte : Nat)
  | word (expected : String)
  | digit (byte : Nat)
  | furtherDigit (byte : Nat)
  | escape (byte : Nat)
  | codePoint (byte : Nat) (digits : String)
  | partOfCodePoint
  | key
  | afterKey (byte : Nat)
  | afterMember (byte : Nat)
  | afterItem (byte : Nat)
  | trailingComma
  deriving DecidableEq, Repr

private def shown (byte : Nat) : String := String.singleton (Char.ofNat byte)

def Misfit.message : Misfit → String
  | value b => "invalid character '" ++ shown b ++ "' looking for beginning of value"
  | word w => "expected '" ++ w ++ "' but found invalid token"
  | digit b => "expected digit but got '" ++ shown b ++ "'"
  | furtherDigit b => "expected digit but found '" ++ shown b ++ "'"
  | escape b => "invalid character '" ++ shown b ++ "' in string escape code"
  | codePoint b digits =>
    "parsing unicode code point: json: expected hexadecimal digit but found '" ++ shown b ++
      "': " ++ digits
  | partOfCodePoint => "invalid unicode code point"
  | key => "expected '\"' at the beginning of a string value"
  | afterKey b => "expected ':' after object field key but found '" ++ shown b ++ "'"
  | afterMember b => "expected ',' after object field value but found '" ++ shown b ++ "'"
  | afterItem b => "expected ',' after array element but found '" ++ shown b ++ "'"
  | trailingComma => "unexpected trailing comma after object field"

inductive Fault where
  /-- The text ends inside a value. -/
  | truncated
  /-- Something does not fit, in the text that is given with it. -/
  | misfit (m : Misfit) (near : List Char)
  deriving DecidableEq, Repr

/-- The start of a text as messages show it. -/
def excerpt (s : List Char) : String :=
  if Text.byteLength s < 32 then String.ofList s
  else String.ofList (Text.takeBytes 32 s) ++ "..."

def Fault.message : Fault → String
  | truncated => "unexpected EOF"
  | misfit m near => "json: " ++ m.message ++ ": " ++ excerpt near

end TieredEngine.Json

namespace TieredEngine.Json

/-- A stretch of text, as the text from its start and the text that is left after it. -/
structure Span where
  start : List Char
  stop : List Char

def Span.text (s : Span) : String :=
  String.ofList (s.start.take (s.start.length - s.stop.length))

/-- A JSON value with its place in the text. Members of an object keep their order and
repetitions. -/
inductive Node where
  | null (span : Span)
  | bool (value : Bool) (span : Span)
  | num (spelling : String) (span : Span)
  | str (value : String) (span : Span)
  | arr (items : List Node) (span : Span)
  | obj (members : List (String × Node)) (span : Span)

namespace Node

def span : Node → Span
  | .null span => span
  | .bool _ span => span
  | .num _ span => span
  | .str _ span => span
  | .arr _ span => span
  | .obj _ span => span

/-- The text a node was read from. -/
def spelling (n : Node) : String := n.span.text

/-- Last member with the given name. -/
def get? (n : Node) (name : String) : Option Node :=
  match n with
  | .obj members _ => members.foldl (fun acc m => if m.1 == name then some m.2 else acc) none
  | _ => none

end Node

def isJsonBlank (c : Char) : Bool := c == ' ' || c == '\t' || c == '\n' || c == '\r'

def skipBlank (s : List Char) : List Char := s.dropWhile isJsonBlank

/-- Four hexadecimal digits of a `\u` escape, and the text after them. -/
def unicodeEscape (s : List Char) : Except Fault (Nat × List Char) :=
  match (s.take 4).mapM Text.hexDigit? with
  | some [a, b, c, d] => .ok (((a * 16 + b) * 16 + c) * 16 + d, s.drop 4)
  | _ =>
    if Text.byteLength s ≤ 4 then .error .truncated
    else match s with
    | [] => .error .truncated
    | c :: _ =>
      if (Text.hexDigit? c).isSome then .error (.misfit .partOfCodePoint s)
      else .error (.misfit (.codePoint (Text.firstByte c) (String.ofList (Text.takeBytes 4 s))) s)

def isSurrogate (n : Nat) : Bool := 0xD800 ≤ n && n < 0xE000

/-- The character of a unit or surrogate pair; a unit that pairs with nothing is replaced. -/
def unitChar (n : Nat) : Char := if isSurrogate n then '\uFFFD' else Char.ofNat n

/-- The character of a high and a low surrogate. -/
def pairChar? (high low : Nat) : Option Char :=
  if 0xD800 ≤ high && high < 0xDC00 && 0xDC00 ≤ low && low < 0xE000 then
    some (Char.ofNat (0x10000 + (high - 0xD800) * 0x400 + (low - 0xDC00)))
  else none

def plainEscape? : Char → Option Char
  | '"' => some '"'
  | '\\' => some '\\'
  | '/' => some '/'
  | 'b' => some '\x08'
  | 'f' => some '\x0C'
  | 'n' => some '\n'
  | 'r' => some '\r'
  | 't' => some '\t'
  | _ => none

/-- Characters of a string after its opening quote, in reverse, and the text after its end. Faults
show the string from its quote on. -/
def readCharacters (near : List Char) :
    Nat → List Char → List Char → Except Fault (List Char × List Char)
  | 0, _, _ => .error .truncated
  | _ + 1, _, [] => .error .truncated
  | _ + 1, acc, '"' :: rest => .ok (acc, rest)
  | _ + 1, _, ['\\'] => .error .truncated
  | fuel + 1, acc, '\\' :: 'u' :: rest => do
    let (u, rest) ← unicodeEscape rest
    match rest with
    | '\\' :: 'u' :: more =>
      if isSurrogate u then
        let (v, after) ← unicodeEscape more
        match pairChar? u v with
        | some c => readCharacters near fuel (c :: acc) after
        | none => readCharacters near fuel ('\uFFFD' :: acc) rest
      else readCharacters near fuel (unitChar u :: acc) rest
    | _ => readCharacters near fuel (unitChar u :: acc) rest
  | fuel + 1, acc, '\\' :: c :: rest =>
    match plainEscape? c with
    | some e => readCharacters near fuel (e :: acc) rest
    | none => .error (.misfit (.escape (Text.firstByte c)) near)
  | fuel + 1, acc, c :: rest =>
    if c.toNat < 0x20 then .error (.misfit (.escape c.toNat) near)
    else readCharacters near fuel (c :: acc) rest

/-- A string, whose opening quote is the first character of the text. A string that is never closed
is cut short, whatever else is wrong with it. -/
def readString (s : List Char) : Except Fault (String × List Char) :=
  match s with
  | '"' :: rest =>
    if rest.contains '"' then
      (readCharacters s (rest.length + 1) [] rest).map fun (cs, after) =>
        (String.ofList cs.reverse, after)
    else .error .truncated
  | _ => if Text.byteLength (s.take 2) < 2 then .error .truncated else .error (.misfit .key s)

/-- Digits, of which there is at least one. Faults show the number from `near` on. -/
def takeDigits (near : List Char) (misfit : Nat → Misfit) (s : List Char) :
    Except Fault (List Char × List Char) :=
  match s.takeWhile Char.isDigit, s with
  | [], [] => .error .truncated
  | [], c :: _ => .error (.misfit (misfit (Text.firstByte c)) near)
  | ds, _ => .ok (ds, s.dropWhile Char.isDigit)

/-- The sign of a number, if it has one, and the text after it. -/
def splitSign : List Char → List Char × List Char
  | '-' :: rest => (['-'], rest)
  | s => ([], s)

/-- The whole part of a number: a zero alone, or digits. -/
def readInteger (near : List Char) : List Char → Except Fault (List Char × List Char)
  | '0' :: rest => .ok (['0'], rest)
  | s => takeDigits near .digit s

/-- A point and digits, if there is a point. -/
def readFraction (near : List Char) : List Char → Except Fault (List Char × List Char)
  | '.' :: more => (takeDigits near .furtherDigit more).map fun (ds, rest) => ('.' :: ds, rest)
  | s => .ok ([], s)

/-- The sign of an exponent, if it has one, and the text after it. -/
def splitExponentSign : List Char → List Char × List Char
  | '+' :: rest => (['+'], rest)
  | '-' :: rest => (['-'], rest)
  | s => ([], s)

/-- An exponent mark, a sign and digits, if there is a mark. -/
def readExponent (near : List Char) : List Char → Except Fault (List Char × List Char)
  | [] => .ok ([], [])
  | c :: more =>
    if c == 'e' || c == 'E' then
      let (sign, more) := splitExponentSign more
      (takeDigits near .furtherDigit more).map fun (ds, rest) => (c :: sign ++ ds, rest)
    else .ok ([], c :: more)

/-- Spelling of a number: sign, whole part without a leading zero, fraction, exponent. -/
def readNumber (s : List Char) : Except Fault (List Char × List Char) := do
  let (sign, rest) := splitSign s
  let (whole, rest) ← readInteger s rest
  let (fraction, rest) ← readFraction s rest
  let (exponent, rest) ← readExponent s rest
  return (sign ++ whole ++ fraction ++ exponent, rest)

/-- A given word. -/
def readWord (word : String) (make : Span → Node) (s : List Char) :
    Except Fault (Node × List Char) :=
  let n := word.length
  let after := s.drop n
  if s.take n = word.toList then .ok (make ⟨s, after⟩, after)
  else if Text.byteLength (s.take n) < n then .error .truncated
  else .error (.misfit (.word word) s)

mutual

/-- One value, after leading blanks. -/
def readValue : Nat → List Char → Except Fault (Node × List Char)
  | 0, _ => .error .truncated
  | fuel + 1, s =>
    let s := skipBlank s
    match s with
    | [] => .error .truncated
    | 'n' :: _ => readWord "null" .null s
    | 't' :: _ => readWord "true" (.bool true) s
    | 'f' :: _ => readWord "false" (.bool false) s
    | '"' :: _ => (readString s).map fun (value, after) => (.str value ⟨s, after⟩, after)
    | '[' :: rest =>
      match skipBlank rest with
      | ']' :: after => .ok (.arr [] ⟨s, after⟩, after)
      | rest => (readItems fuel [] rest).map fun (items, after) =>
          (.arr items.reverse ⟨s, after⟩, after)
    | '\x7b' :: rest =>
      match skipBlank rest with
      | '\x7d' :: after => .ok (.obj [] ⟨s, after⟩, after)
      | rest => (readMembers fuel [] rest).map fun (members, after) =>
          (.obj members.reverse ⟨s, after⟩, after)
    | c :: _ =>
      if c == '-' || c.isDigit then
        (readNumber s).map fun (ds, after) => (.num (String.ofList ds) ⟨s, after⟩, after)
      else .error (.misfit (.value (Text.firstByte c)) s)

/-- Items of an array up to its closing bracket, in reverse. -/
def readItems : Nat → List Node → List Char → Except Fault (List Node × List Char)
  | 0, _, _ => .error .truncated
  | fuel + 1, acc, s => do
    let (item, rest) ← readValue fuel s
    match skipBlank rest with
    | [] => .error .truncated
    | ']' :: after => .ok (item :: acc, after)
    | ',' :: more =>
      match skipBlank more with
      | ']' :: after => .error (.misfit .trailingComma (']' :: after))
      | more => readItems fuel (item :: acc) more
    | c :: after => .error (.misfit (.afterItem (Text.firstByte c)) (c :: after))

/-- Members of an object up to its closing brace, in reverse. -/
def readMembers : Nat → List (String × Node) → List Char →
    Except Fault (List (String × Node) × List Char)
  | 0, _, _ => .error .truncated
  | fuel + 1, acc, s => do
    let (key, rest) ← readString s
    match skipBlank rest with
    | [] => .error .truncated
    | ':' :: rest =>
      let (value, rest) ← readValue fuel rest
      let acc := (key, value) :: acc
      match skipBlank rest with
      | [] => .error .truncated
      | '\x7d' :: after => .ok (acc, after)
      | ',' :: more =>
        match skipBlank more with
        | '\x7d' :: after => .error (.misfit .trailingComma ('\x7d' :: after))
        | more => readMembers fuel acc more
      | c :: after => .error (.misfit (.afterMember (Text.firstByte c)) (c :: after))
    | c :: after => .error (.misfit (.afterKey (Text.firstByte c)) (c :: after))

end

/-- The first value of a text; what follows it is left alone. -/
def readFirst (text : String) : Except Fault Node :=
  let s := text.toList
  (readValue (2 * s.length + 2) s).map Prod.fst

/-- A text that is one value and blanks. -/
def readWhole (text : String) : Option Node :=
  let s := text.toList
  match readValue (2 * s.length + 2) s with
  | .ok (node, rest) => if (skipBlank rest).isEmpty then some node else none
  | .error _ => none

end TieredEngine.Json
