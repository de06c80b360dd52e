import TieredEngine.Crash
import TieredEngine.Host.World
import TieredEngine.Settings.Field
import TieredEngine.Toml.Seen

/-!
Reading a configuration file. Every name of the document must be one that a section has, and every
value must have the type of its setting. Unknown names are passed over at first and refused at the
end, so that a fault further down is still met.

A file belongs to everything in its directory and below.
-/
namespace TieredEngine.Settings
open TieredEngine TieredEngine.Toml

/-- Things of a document that a setting may not take. -/
inductive Thing where
  | string | integer | array | arrayTable
  deriving DecidableEq, Repr

def Thing.name : Thing → String
  | string => "string"
  | integer => "integer"
  | array => "array"
  | arrayTable => "array table"

/-- Why a document is not a configuration. -/
inductive ReadError where
  | form (e : SyntaxError)
  | repeated (e : SeenError)
  | number (e : NumberError)
  | date (e : DateError)
  | mismatch (thing : Thing) (owner : Section) (member type : String)
  | fraction (kind : String)
  | flag (b : Bool)
  | negative (i : Int)
  | inlineTable (kind : String)
  | below (kind : String)
  | unknownName
  deriving DecidableEq, Repr

def ReadError.message : ReadError → String
  | form e => "toml: " ++ e.message
  | repeated e => "toml: " ++ e.message
  | number e => "toml: " ++ e.message
  | date e => "toml: " ++ e.message
  | mismatch thing owner member type =>
    s!"toml: cannot decode TOML {thing.name} into struct field {owner.label}.{member} " ++
      s!"of type {type}"
  | fraction kind => s!"toml: float cannot be assigned to {kind}"
  | flag b => s!"toml: cannot assign boolean to a {b}"
  | negative i => s!"toml: negative number {i} does not fit in an uint64"
  | inlineTable kind => s!"toml: cannot store inline table in Go type {kind}"
  | below kind => s!"unhandled kv part: {kind}"
  | unknownName => "strict mode: fields in the document are missing in the target struct"

abbrev Reading := Except (Fault ReadError)

namespace Reading

def refuse {α : Type} (e : ReadError) : Reading α := .error (.error e)

def lift {ε α : Type} (wrap : ε → ReadError) (r : Except ε α) : Reading α :=
  r.mapError fun e => .error (wrap e)

end Reading

open Reading

/-- The file so far, and what is known of the unknown names. -/
structure Progress where
  file : File := {}
  unknown : Bool := false
  /-- An unknown name was written with escapes, so its text stands nowhere in the document and
  cannot be pointed out. -/
  unplaced : Bool := false

namespace Progress

def on (p : Progress) (f : File → File) : Progress := { p with file := f p.file }

/-- Notes a key that has no setting. It is pointed out from its first name to its last, and the two
must stand in the document. -/
def unknownKey (p : Progress) (k : Key) : Except Crash Progress :=
  match k with
  | [name] => .ok { p with unknown := true, unplaced := p.unplaced || name.escaped }
  | _ =>
    if k.head?.any Phrase.escaped || k.getLast?.any Phrase.escaped then .error .outOfRange
    else .ok { p with unknown := true }

mutual

/-- Stores a value under a key of a table, of which some names were followed already. -/
def assign (table : Section) (p : Progress) (whole : Key) : Key → Val → Reading Progress
  | [], _ => .ok p
  | name :: rest, v =>
    match table.field? name.text with
    | none => Crash.lift (p.unknownKey whole)
    | some field =>
      if rest.isEmpty then store field p v
      else match field.slot with
      | .table inner => assign inner p whole rest v
      | slot => refuse (.below slot.kind)
  termination_by k v => (sizeOf v, sizeOf k)

/-- Stores a value in a setting or a table. No setting takes a date. -/
def store (field : Field) (p : Progress) : Val → Reading Progress
  | .string s =>
    match field.slot with
    | .text t => .ok (p.on (t.put s))
    | _ => refuse (.mismatch .string field.owner field.member field.type)
  | .bool b =>
    match field.slot with
    | .flag t => .ok (p.on (t.put b))
    | _ => refuse (.flag b)
  | .whole written => do
    let i ← lift .number (wholeValue written)
    match field.slot with
    | .whole t => return p.on (t.put i)
    | .count t => if i < 0 then refuse (.negative i) else return p.on (t.put (UInt64.ofNat i.toNat))
    | _ => refuse (.mismatch .integer field.owner field.member field.type)
  | .fraction written => do
    lift .number (checkFraction written)
    refuse (.fraction field.slot.kind)
  | .date form written => do
    lift .date (form.check written)
    throw (.crash .illTyped)
  | .array _ => refuse (.mismatch .array field.owner field.member field.type)
  | .table members =>
    match field.slot with
    | .table inner => assignAll inner p members
    | slot => refuse (.inlineTable slot.kind)
  termination_by v => (sizeOf v, 0)

def assignAll (table : Section) (p : Progress) : List (Key × Val) → Reading Progress
  | [] => .ok p
  | (k, v) :: rest => do
    let p ← assign table p k k v
    assignAll table p rest
  termination_by ms => (sizeOf ms, 0)

end

end Progress

/-- Where a heading leads. -/
inductive Place where
  | table (s : Section)
  | setting (field : Field)
  | unknown

/-- Follows the names of a heading. Nothing stands below a setting. -/
def place (table : Section) : Trail → Except Crash Place
  | [] => .ok (.table table)
  | name :: rest =>
    match table.field? name with
    | none => .ok .unknown
    | some field =>
      match field.slot with
      | .table inner => place inner rest
      | _ => if rest.isEmpty then .ok (.setting field) else .error .illTyped

/-- What a heading of an array table meets: no setting is one. -/
def arrayPlace (table : Section) : Trail → Reading Unit
  | [] => .ok ()
  | name :: rest =>
    match table.field? name with
    | none => .ok ()
    | some field =>
      if rest.isEmpty then refuse (.mismatch .arrayTable field.owner field.member field.type)
      else match field.slot with
      | .table inner => arrayPlace inner rest
      | _ => .error (.crash .illTyped)

/-- State while the lines of a document are read. -/
structure Reader where
  progress : Progress := {}
  seen : Seen := {}
  here : Place := .table .root

namespace Reader

/-- Reads a line with a key and a value. Lines of an unknown table are not looked at. -/
def line (r : Reader) (k : Key) (v : Val) : Reading Reader := do
  match r.here with
  | .unknown => return r
  | .table s =>
    let seen ← lift .repeated (r.seen.line k v)
    return { r with seen, progress := ← r.progress.assign s k k v }
  | .setting field =>
    let _ ← lift .repeated (r.seen.line k v)
    refuse (.below field.slot.kind)

/-- Reads a heading. A heading that names a setting says its empty value. -/
def heading (r : Reader) (k : Key) : Reading Reader := do
  let seen ← lift .repeated (r.seen.heading k.trail)
  let here ← Crash.lift (place .root k.trail)
  let progress ← match here with
    | .table _ => pure r.progress
    | .setting field => pure (r.progress.on field.slot.touch)
    | .unknown => Crash.lift (r.progress.unknownKey k)
  return { progress, seen, here }

/-- Reads a heading of an array table, which can only be unknown. -/
def arrayHeading (r : Reader) (k : Key) : Reading Reader := do
  let seen ← lift .repeated (r.seen.arrayHeading k.trail)
  arrayPlace .root k.trail
  return { progress := ← Crash.lift (r.progress.unknownKey k), seen, here := .unknown }

def step (r : Reader) : Expr → Reading Reader
  | .keyValue k v => r.line k v
  | .table k => r.heading k
  | .arrayTable k => r.arrayHeading k

end Reader

/-- Reads the text of a configuration file. -/
def File.read (text : String) : Reading File := do
  let doc := Document.read text
  let r ← doc.exprs.foldlM Reader.step {}
  if let some e := doc.fault then refuse (.form e)
  if r.progress.unplaced then throw (.crash .outOfRange)
  if r.progress.unknown then refuse .unknownName
  return r.progress.file

section Search
open TieredEngine.Host

def fileName : String := "mirjit.toml"

/-- Looks in a directory and then in those above it; `fuel` bounds the number of directories. -/
def searchUp (w : World) : Nat → String → Option String
  | 0, _ => none
  | fuel + 1, dir =>
    let path := Path.join [dir, fileName]
    if w.exists? path then some path
    else
      let above := Path.dir dir
      if above == dir then none else searchUp w fuel above

/-- The configuration file of a path that exists. -/
def findFile? (w : World) (start : String) : Option String :=
  match w.look start with
  | .error _ => none
  | .ok e =>
    let dir := w.absolute (if e.isDirectory then start else Path.dir start)
    searchUp w ((Path.names dir).length + 1) dir

/-- Why no settings can be loaded. -/
inductive LoadError where
  | file (e : FileError)
  | read (e : ReadError)

def LoadError.message : LoadError → String
  | .file e => s!"failed to read config file: {e.message}"
  | .read e => s!"failed to parse config file: {e.message}"

def File.load (w : World) (path : String) : Except (Fault LoadError) File :=
  match w.read path with
  | .error e => .error (.error (.file e))
  | .ok text =>
    match File.read text with
    | .ok f => .ok f
    | .error (.error e) => .error (.error (.read e))
    | .error (.crash c) => .error (.crash c)

/-- Loads the file that is given, else the one found from a path, else nothing is said. -/
def File.loadFor (w : World) (given start : String) : Except (Fault LoadError) File :=
  if !given.isEmpty then File.load w given
  else match findFile? w start with
  | some path => File.load w path
  | none => .ok {}

end Search

end TieredEngine.Settings
