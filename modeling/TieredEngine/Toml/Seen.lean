import TieredEngine.Toml.Document

/-!
Which keys of a document were used before. A key has one value, a table has one heading, a table
that lines of another table filled in is closed to headings, and each heading of an array table
starts a new item with no keys of its own.
-/
namespace TieredEngine.Toml

inductive EntryKind where
  | value | table | arrayTable
  deriving DecidableEq, Repr

def EntryKind.name : EntryKind → String
  | value => "value"
  | table => "table"
  | arrayTable => "array table"

/-- A key is used in a way that its earlier use forbids. -/
inductive SeenError where
  | defined (name : String)
  | notTable (name : String) (kind : EntryKind)
  | closed (name : String)
  | headingOf (name : String) (kind : EntryKind)
  | headingTwice (name : String)
  | notArrayTable (name : String) (kind : EntryKind)
  deriving DecidableEq, Repr

def SeenError.message : SeenError → String
  | defined name => s!"key {name} is already defined"
  | notTable name kind => s!"expected {name} to be a table, not a {kind.name}"
  | closed name => s!"cannot redefine table {name} that has already been explicitly defined"
  | headingOf name kind => s!"key {name} should be a table, not a {kind.name}"
  | headingTwice name => s!"table {name} already exists"
  | notArrayTable name kind =>
    s!"key {kind.name} already exists as a {name},  but should be an array table"

/-- Names without how they were written. -/
abbrev Trail := List String

def Key.trail (k : Key) : Trail := k.map Phrase.text

structure Entry where
  trail : Trail
  kind : EntryKind
  /-- The table is complete: no heading and no longer key may add to it. -/
  closed : Bool
  /-- The table was made by a line with a longer key. -/
  byLine : Bool := false

structure Seen where
  entries : List Entry := []
  /-- Table of the last heading. -/
  current : Trail := []

namespace Seen

def find? (s : Seen) (k : Trail) : Option Entry := s.entries.find? (·.trail == k)

def add (s : Seen) (e : Entry) : Seen := { s with entries := s.entries ++ [e] }

def modify (s : Seen) (p : Entry → Bool) (f : Entry → Entry) : Seen :=
  { s with entries := s.entries.map fun e => if p e then f e else e }

/-- Whether an entry stands inside a table. -/
def inside (table : Trail) (e : Entry) : Bool := table.isPrefixOf e.trail && e.trail != table

/-- Tables that lines of the current table made get no more lines. -/
def closeLines (s : Seen) : Seen :=
  s.modify (fun e => e.byLine && inside s.current e)
    fun e => { e with closed := true, byLine := false }

/-- Enters the tables on the way to a heading, which may be new but must not be values. -/
def enterOuter (above : Trail) : Trail → Seen → Except SeenError Seen
  | [], s => .ok s
  | [_], s => .ok s
  | name :: rest, s =>
    let k := above ++ [name]
    match s.find? k with
    | none => enterOuter k rest (s.add ⟨k, .table, false, false⟩)
    | some e =>
      if e.kind = .value then .error (.notTable name e.kind) else enterOuter k rest s

/-- The heading of a table, which must not have had one before. -/
def heading (s : Seen) (k : Trail) : Except SeenError Seen := do
  let s ← s.closeLines.enterOuter [] k
  let name := k.getLast?.getD ""
  match s.find? k with
  | none => return { s.add ⟨k, .table, true, false⟩ with current := k }
  | some e =>
    if e.kind ≠ .table then throw (.headingOf name e.kind)
    if e.closed then throw (.headingTwice name)
    return { s.modify (·.trail == k) ({ · with closed := true }) with current := k }

/-- The heading of an item of an array table, which forgets the keys of the item before. -/
def arrayHeading (s : Seen) (k : Trail) : Except SeenError Seen := do
  let s ← s.closeLines.enterOuter [] k
  match s.find? k with
  | none => return { s.add ⟨k, .arrayTable, true, false⟩ with current := k }
  | some e =>
    if e.kind ≠ .arrayTable then throw (.notArrayTable (k.getLast?.getD "") e.kind)
    return { entries := s.entries.filter (!inside k ·), current := k }

/-- A key below a table: its last name must be new, the names before it open tables. -/
def enterLine (above : Trail) : Trail → Seen → Except SeenError Seen
  | [], s => .ok s
  | name :: rest, s =>
    let k := above ++ [name]
    match s.find? k with
    | none => enterLine k rest (s.add ⟨k, if rest.isEmpty then .value else .table, false, true⟩)
    | some e =>
      if rest.isEmpty then .error (.defined name)
      else if e.kind ≠ .table then .error (.notTable name e.kind)
      else if e.closed then .error (.closed name)
      else enterLine k rest s

end Seen

mutual

/-- Checks that no key is used twice inside a value. -/
def Val.checkKeys : Val → Except SeenError Unit
  | .table members => checkMembers {} members
  | .array items => checkItems items
  | _ => .ok ()

def checkMembers (s : Seen) : List (Key × Val) → Except SeenError Unit
  | [] => .ok ()
  | (k, v) :: rest => do
    let s ← s.enterLine [] k.trail
    v.checkKeys
    checkMembers s rest

def checkItems : List Val → Except SeenError Unit
  | [] => .ok ()
  | v :: rest => do
    v.checkKeys
    checkItems rest

end

/-- A line of the current table. -/
def Seen.line (s : Seen) (k : Key) (v : Val) : Except SeenError Seen := do
  let s ← s.enterLine s.current k.trail
  v.checkKeys
  return s

end TieredEngine.Toml
