import TieredEngine.Toml.Quoted
import TieredEngine.Toml.Scalar

/-!
Configuration documents: lines with a key and a value, and headings that say which table the lines
below belong to. Values are strings, numbers, truth values, dates, lists in brackets and tables in
braces. Numbers and dates stay as they are written, because nobody asks for the value of one that
belongs to no setting. What stands before the first fault of a document can be used.
-/
namespace TieredEngine.Toml
open TieredEngine

/-- Names from the outermost table inwards. -/
abbrev Key := List Phrase

inductive Val where
  | string (s : String)
  | whole (written : List Char)
  | fraction (written : List Char)
  | bool (b : Bool)
  | date (form : DateForm) (written : List Char)
  | array (items : List Val)
  | table (members : List (Key × Val))

inductive Expr where
  | keyValue (key : Key) (value : Val)
  | table (key : Key)
  | arrayTable (key : Key)

/-- Why a text is not a document. -/
inductive SyntaxError where
  | lineEnd (byte : Nat) | returnAtEnd | loneReturn
  | character (c : Char) (ended : Bool)
  | word (w : String)
  | keyMissing | keyStart (byte : Nat)
  | equalsMissing | valueMissing
  | openTable | openArray | arrayStart | arraySeparator
  | number | numberChar (c : Char)
  | comment
  | string (e : StringError)
  deriving DecidableEq, Repr

def SyntaxError.message : SyntaxError → String
  | lineEnd b => "expected newline but got " ++ Text.byteName b
  | returnAtEnd => "windows new line expected"
  | loneReturn => "windows new line should be \\r\\n"
  | character c ended =>
    "expected character " ++ String.singleton c ++
      (if ended then " but the document ended here" else "")
  | word w => "expected '" ++ w ++ "'"
  | keyMissing => "expected key but found none"
  | keyStart b => "invalid character at start of key: " ++ String.singleton (Char.ofNat b)
  | equalsMissing => "expected = after a key, but the document ends there"
  | valueMissing => "expected value, not eof"
  | openTable => "inline table is incomplete"
  | openArray => "array is incomplete"
  | arrayStart => "array cannot start with comma"
  | arraySeparator => "array elements must be separated by commas"
  | number => "incomplete number"
  | numberChar c =>
    "unexpected character '" ++ String.singleton c ++ "' while scanning for a number"
  | comment => "invalid character in comment"
  | string e => e.message

/-- What comes of reading a text; readers give the rest of the text with what they took off. -/
abbrev Scan := Except SyntaxError

namespace Reading

def isSpace (c : Char) : Bool := c == ' ' || c == '\t'

def skipSpaces (s : List Char) : List Char := s.dropWhile isSpace

def startsWith (lead : String) (s : List Char) : Bool := lead.toList.isPrefixOf s

/-- Takes a character that must stand here. -/
def expect (c : Char) : List Char → Scan (List Char)
  | [] => .error (.character c true)
  | d :: r => if c == d then .ok r else .error (.character c false)

/-- The end of a line. -/
def lineEnd : List Char → Scan (List Char)
  | '\n' :: r => .ok r
  | ['\r'] => .error .returnAtEnd
  | '\r' :: c :: r => if c == '\n' then .ok r else .error .loneReturn
  | c :: _ => .error (.lineEnd (Text.firstByte c))
  | [] => .ok []

/-- Skips a comment up to the end of its line. -/
def comment : List Char → Scan (List Char)
  | [] => .ok []
  | '\n' :: r => .ok ('\n' :: r)
  | '\r' :: '\n' :: r => .ok ('\n' :: r)
  | c :: r => if c == '\r' || !isTextChar c then .error .comment else comment r

/-- Skips blanks and then a comment, if one stands there. -/
def skipComment (s : List Char) : Scan (List Char) :=
  match skipSpaces s with
  | '#' :: r => comment r
  | r => .ok r

/-- Skips blanks, comments and line ends; `fuel` bounds the number of lines. -/
def skipLines : Nat → List Char → Scan (List Char)
  | 0, s => .ok s
  | fuel + 1, s => do
    match ← skipComment s with
    | '\n' :: r => skipLines fuel r
    | '\r' :: r => skipLines fuel (← lineEnd ('\r' :: r))
    | r => return r

/-- Skips blanks, comments and line ends. -/
def skipGap (s : List Char) : Scan (List Char) := skipLines (s.length + 1) s

def isBareKeyChar (c : Char) : Bool := c.isAlphanum || c == '-' || c == '_'

/-- One name of a key: bare, or a string on one line. -/
def simpleKey (s : List Char) : Scan (Phrase × List Char) :=
  match s with
  | [] => .error .keyMissing
  | '"' :: r => ((Cut.basic r).bind (·.decode false)).mapError .string
  | '\'' :: r => ((Cut.literal r).map Cut.verbatim).mapError .string
  | c :: _ =>
    let name := s.takeWhile isBareKeyChar
    if name.isEmpty then .error (.keyStart (Text.firstByte c))
    else .ok (⟨String.ofList name, false⟩, s.drop name.length)

/-- Names with points between them; `fuel` bounds their number. -/
def names : Nat → List Char → Scan (Key × List Char)
  | 0, _ => .error .keyMissing
  | fuel + 1, s => do
    let (name, rest) ← simpleKey s
    match skipSpaces rest with
    | '.' :: more =>
      let (more, rest) ← names fuel (skipSpaces more)
      return (name :: more, rest)
    | rest => return ([name], rest)

def key (s : List Char) : Scan (Key × List Char) := names (s.length + 1) s

/-- Characters of a number, and whether one of them makes it a fraction. -/
def numberChars : List Char → Scan (List Char × Bool × List Char)
  | [] => .ok ([], false, [])
  | c :: r =>
    if c.isDigit || c == '+' || c == '-' || c == '_' then
      (numberChars r).map fun (token, fraction, rest) => (c :: token, fraction, rest)
    else if c == '.' || c == 'e' || c == 'E' then
      (numberChars r).map fun (token, _, rest) => (c :: token, true, rest)
    else if startsWith "inf" (c :: r) || startsWith "nan" (c :: r) then
      .ok ((c :: r).take 3, true, (c :: r).drop 3)
    else if c == 'i' || c == 'n' then .error (.numberChar c)
    else .ok ([], false, c :: r)

/-- A number, as it is written. A leading zero ends it unless a mark of a base, a point or an
exponent follows. -/
def number (s : List Char) : Scan (Val × List Char) :=
  let marked := match s with
    | '0' :: c :: _ :: _ => if c == '.' || c == 'e' || c == 'E' then none else some (Base.ofMark? c)
    | _ => none
  match marked with
  | some base =>
    let size := base.elim 1 fun b => 2 + ((s.drop 2).takeWhile b.isDigit).length
    .ok (.whole (s.take size), s.drop size)
  | none => do
    let (token, fraction, rest) ← numberChars s
    if token.isEmpty then .error .number
    else return (if fraction then .fraction token else .whole token, rest)

/-- A value that is one of a few words. -/
def word (w : String) (v : Val) (s : List Char) : Scan (Val × List Char) :=
  if startsWith w s then .ok (v, s.drop w.length) else .error (.word w)

/-- A number, a date or a time. -/
def plain (s : List Char) : Scan (Val × List Char) :=
  match s with
  | 'i' :: _ => word "inf" (.fraction "inf".toList) s
  | 'n' :: _ => word "nan" (.fraction "nan".toList) s
  | _ =>
    if startsDate s then
      let (token, marks, rest) := takeDate 0 false s
      .ok (.date marks.form token, rest)
    else number s

mutual

/-- A value; `fuel` bounds the steps and need not exceed the length of the text by more than one. -/
def val : Nat → List Char → Scan (Val × List Char)
  | 0, _ => .error .valueMissing
  | fuel + 1, s =>
    match string? s with
    | some r => (r.map fun (p, rest) => (Val.string p.text, rest)).mapError .string
    | none =>
      match s with
      | [] => .error .valueMissing
      | 't' :: _ => word "true" (.bool true) s
      | 'f' :: _ => word "false" (.bool false) s
      | '[' :: r => (items fuel true r).map fun (vs, rest) => (.array vs, rest)
      | '\x7b' :: r => (members fuel true r).map fun (ms, rest) => (.table ms, rest)
      | _ => plain s

/-- The values of a list up to its bracket. Line ends and comments may stand anywhere between them,
and a comma also after the last. -/
def items : Nat → Bool → List Char → Scan (List Val × List Char)
  | 0, _, _ => .error .openArray
  | _ + 1, _, [] => .error (.character ']' true)
  | fuel + 1, first, s => do
    let s ← match ← skipGap s with
      | [] => throw .openArray
      | ',' :: r => if first then throw .arrayStart else skipGap r
      | ']' :: r => pure (']' :: r)
      | s => if first then pure s else throw .arraySeparator
    match s with
    | ']' :: r => return ([], r)
    | s =>
      let (v, rest) ← val fuel s
      let (vs, rest) ← items fuel false (← skipGap rest)
      return (v :: vs, rest)

/-- A key, an equals sign and a value. -/
def keyValue : Nat → List Char → Scan ((Key × Val) × List Char)
  | 0, _ => .error .keyMissing
  | fuel + 1, s => do
    let (k, rest) ← key s
    match skipSpaces rest with
    | [] => .error .equalsMissing
    | rest =>
      let (v, rest) ← val fuel (skipSpaces (← expect '=' rest))
      return ((k, v), rest)

/-- The members of a table up to its brace, with commas between them. -/
def members : Nat → Bool → List Char → Scan (List (Key × Val) × List Char)
  | 0, _, _ => .error .openTable
  | _ + 1, _, [] => .error (.character '\x7d' true)
  | fuel + 1, first, s => do
    match skipSpaces s with
    | [] => throw .openTable
    | '\x7d' :: r => return ([], r)
    | s =>
      let s ← if first then pure s else skipSpaces <$> expect ',' s
      let (m, rest) ← keyValue fuel s
      let (ms, rest) ← members fuel false rest
      return (m :: ms, rest)

end

/-- One line without its end; blank lines hold nothing. -/
def line (s : List Char) : Scan (Option Expr × List Char) := do
  match skipSpaces s with
  | [] => return (none, [])
  | '#' :: r => return (none, ← comment r)
  | '\n' :: r => return (none, '\n' :: r)
  | '\r' :: r => return (none, '\r' :: r)
  | '[' :: '[' :: r =>
    let (k, rest) ← key (skipSpaces r)
    let rest ← expect ']' (← expect ']' (skipSpaces rest))
    return (some (.arrayTable k), ← skipComment rest)
  | '[' :: r =>
    let (k, rest) ← key (skipSpaces r)
    let rest ← expect ']' (skipSpaces rest)
    return (some (.table k), ← skipComment rest)
  | s =>
    let ((k, v), rest) ← keyValue (s.length + 2) s
    return (some (.keyValue k v), ← skipComment rest)

end Reading

/-- The lines of a text up to the first that cannot be read, and why it cannot. -/
structure Document where
  exprs : List Expr := []
  fault : Option SyntaxError := none

namespace Document

def cons (e : Option Expr) (d : Document) : Document := { d with exprs := e.toList ++ d.exprs }

/-- Reads lines; `fuel` bounds their number. -/
def ofLines : Nat → List Char → Document
  | 0, _ => {}
  | fuel + 1, s =>
    match Reading.line s with
    | .error e => { fault := some e }
    | .ok (e, rest) =>
      cons e <| match Reading.lineEnd rest with
        | .error e => { fault := some e }
        | .ok [] => {}
        | .ok next => ofLines fuel next

def read (text : String) : Document := ofLines (text.length + 1) text.toList

end Document

end TieredEngine.Toml
