import TieredEngine.Text.Quoted

/-!
JSON as it is written. Numbers are given by their spelling. Strings escape quotes, backslashes,
control characters and the two line separators; a flag says whether the three characters that HTML
treats specially are escaped too. The indented form puts each item on a line of its own, two spaces
deeper than its container, and keeps empty containers on one line.
-/
namespace TieredEngine.Json

/-- A value to be written; members are written in the given order. -/
inductive Doc where
  | null
  | bool (value : Bool)
  | num (spelling : String)
  | str (value : String)
  | arr (items : List Doc)
  | obj (members : List (String × Doc))

/-- Which characters of a string are escaped beyond those that must be. -/
structure Escaping where
  html : Bool
  deriving DecidableEq, Repr

/-- Files escape `<`, `>` and `&`. -/
def Escaping.file : Escaping := ⟨true⟩

/-- Answers on a line leave them as they are. -/
def Escaping.line : Escaping := ⟨false⟩

def Escaping.char (e : Escaping) (c : Char) : String :=
  match c with
  | '"' => "\\\""
  | '\\' => "\\\\"
  | '\n' => "\\n"
  | '\r' => "\\r"
  | '\t' => "\\t"
  | _ =>
    let n := c.toNat
    if n < 0x20 || n == 0x2028 || n == 0x2029 || (e.html && (c == '<' || c == '>' || c == '&'))
    then "\\u" ++ Text.hexPadded 4 n
    else String.singleton c

/-- A string with its quotes. -/
def Escaping.string (e : Escaping) (s : String) : String :=
  s.foldl (fun acc c => acc ++ e.char c) "\"" ++ "\""

namespace Doc

def ofNat (n : Nat) : Doc := .num (toString n)
def ofInt (n : Int) : Doc := .num (toString n)
def strings (l : List String) : Doc := .arr (l.map .str)

mutual

/-- Text on one line without blanks, added to what is written so far. -/
def compactOn (e : Escaping) (acc : String) : Doc → String
  | .null => acc ++ "null"
  | .bool b => acc ++ (if b then "true" else "false")
  | .num s => acc ++ s
  | .str s => acc ++ e.string s
  | .arr items => compactItems e (acc ++ "[") true items ++ "]"
  | .obj members => compactMembers e (acc ++ "\x7b") true members ++ "\x7d"

def compactItems (e : Escaping) (acc : String) (first : Bool) : List Doc → String
  | [] => acc
  | d :: rest => compactItems e (compactOn e (if first then acc else acc ++ ",") d) false rest

def compactMembers (e : Escaping) (acc : String) (first : Bool) : List (String × Doc) → String
  | [] => acc
  | (k, d) :: rest =>
    let acc := (if first then acc else acc ++ ",") ++ e.string k ++ ":"
    compactMembers e (compactOn e acc d) false rest

end

def compact (e : Escaping) (d : Doc) : String := compactOn e "" d

/-- A line break and the indentation of a depth. -/
def lineBreak (depth : Nat) : String :=
  "\n" ++ String.ofList (List.replicate (2 * depth) ' ')

mutual

/-- Indented text at a depth, added to what is written so far. -/
def indentedOn (e : Escaping) (depth : Nat) (acc : String) : Doc → String
  | .null => acc ++ "null"
  | .bool b => acc ++ (if b then "true" else "false")
  | .num s => acc ++ s
  | .str s => acc ++ e.string s
  | .arr [] => acc ++ "[]"
  | .arr items => indentedItems e (depth + 1) (acc ++ "[") true items ++ lineBreak depth ++ "]"
  | .obj [] => acc ++ "\x7b\x7d"
  | .obj members =>
    indentedMembers e (depth + 1) (acc ++ "\x7b") true members ++ lineBreak depth ++ "\x7d"

def indentedItems (e : Escaping) (depth : Nat) (acc : String) (first : Bool) : List Doc → String
  | [] => acc
  | d :: rest =>
    let acc := (if first then acc else acc ++ ",") ++ lineBreak depth
    indentedItems e depth (indentedOn e depth acc d) false rest

def indentedMembers (e : Escaping) (depth : Nat) (acc : String) (first : Bool) :
    List (String × Doc) → String
  | [] => acc
  | (k, d) :: rest =>
    let acc := (if first then acc else acc ++ ",") ++ lineBreak depth ++ e.string k ++ ": "
    indentedMembers e depth (indentedOn e depth acc d) false rest

end

def indented (e : Escaping) (d : Doc) : String := indentedOn e 0 "" d

end Doc

end TieredEngine.Json
