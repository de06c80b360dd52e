import TieredEngine.Json.Node
import TieredEngine.Text.Quoted

/-!
A value of the wrong kind or size for its place. The message shows the value, or the text from it
on to the end of the unit it was read in, then the place, from the outside in, and what was
expected there.
-/
namespace TieredEngine.Json
open TieredEngine

/-- A part of the text that is read. -/
inductive Part where
  /-- From a point on to the end of the unit. -/
  | onward (start : List Char)
  | only (text : List Char)
  deriving DecidableEq, Repr

/-- The same part, in a unit that ends where the given text is left. -/
def Part.upTo (stop : List Char) : Part → Part
  | .onward start => .only (start.take (start.length - stop.length))
  | .only text => .only text

def Part.shown : Part → String
  | .onward start => excerpt start
  | .only text => excerpt text

inductive Found where
  | text (part : Part)
  | tooLarge (part : Part)
  | kind (name : String)
  deriving DecidableEq, Repr

def Found.upTo (stop : List Char) : Found → Found
  | .text p => .text (p.upTo stop)
  | .tooLarge p => .tooLarge (p.upTo stop)
  | .kind name => .kind name

def Found.shown : Found → String
  | .text p => Text.quoted p.shown
  | .tooLarge p => "number " ++ p.shown ++ " overflows"
  | .kind name => name

structure Mismatch where
  found : Found
  expected : String
  /-- Kinds of the records and lists around the value, and the field or index in each. -/
  place : List (String × String) := []
  deriving DecidableEq, Repr

namespace Mismatch

/-- The same mismatch, seen from a record or list around it. -/
def inside (kind field : String) (m : Mismatch) : Mismatch :=
  { m with place := (kind, field) :: m.place }

def upTo (stop : List Char) (m : Mismatch) : Mismatch := { m with found := m.found.upTo stop }

def message (m : Mismatch) : String :=
  let target :=
    if m.place.isEmpty then "value"
    else "struct field " ++ String.join (m.place.map Prod.fst) ++ "." ++
      String.intercalate "." (m.place.map Prod.snd)
  "json: cannot unmarshal " ++ m.found.shown ++ " into Go " ++ target ++ " of type " ++ m.expected

end Mismatch

/-- A node that is not what is expected. -/
def Node.mismatch (n : Node) (expected : String) : Mismatch :=
  { found := .text (.onward n.span.start), expected }

/-- What kind of value a node is, as some messages say it. -/
def Node.kindName : Node → String
  | .null _ => "null"
  | .bool b _ => if b then "true" else "false"
  | .num .. => "number"
  | .str .. => "string"
  | .arr .. => "array"
  | .obj .. => "object"

/-- Value of the digits that a text starts with, and the text after them. -/
def leadingDigits (s : List Char) : Nat × List Char :=
  ((s.takeWhile Char.isDigit).foldl (fun n c => 10 * n + (c.toNat - '0'.toNat)) 0,
    s.dropWhile Char.isDigit)

/-- A whole number that is not negative and has at most 32 bits. -/
def Node.word32 (n : Node) : Except Mismatch UInt32 :=
  match n with
  | .num s _ =>
    let (value, rest) := leadingDigits s.toList
    let part : Part := .only s.toList
    if s.startsWith "-" then .error (n.mismatch "uint32")
    else if Nat.pow 2 64 ≤ value then .error ⟨.tooLarge (.onward n.span.start), "uint32", []⟩
    else if !rest.isEmpty then .error ⟨.text part, "uint32", []⟩
    else if Nat.pow 2 32 ≤ value then .error ⟨.tooLarge part, "uint32", []⟩
    else .ok (UInt32.ofNat value)
  | _ => .error (n.mismatch "uint32")

/-- A whole number with a sign and at most 64 bits. -/
def Node.int64 (n : Node) : Except Mismatch Int64 :=
  match n with
  | .num s _ =>
    let (sign, body) := splitSign s.toList
    let negative := !sign.isEmpty
    let (value, rest) := leadingDigits body
    if Nat.pow 2 63 + (if negative then 1 else 0) ≤ value then
      .error ⟨.tooLarge (.onward n.span.start), "int64", []⟩
    else if !rest.isEmpty then .error ⟨.text (.only s.toList), "int64", []⟩
    else .ok (Int64.ofInt (if negative then -value else value))
  | _ => .error (n.mismatch "int64")

end TieredEngine.Json
