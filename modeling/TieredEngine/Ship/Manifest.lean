import TieredEngine.Ir.Codec.Decode
import TieredEngine.Json.Doc
import TieredEngine.Ship.Options
import TieredEngine.Ship.TreeShake
import TieredEngine.Size.Bytes
import TieredEngine.Text.Encoding
import TieredEngine.Time.Duration

/-!
The description of a compiled artifact, which is stored beside it as a JSON file. Files are told apart
by their digests, BLAKE2b with thirty-two bytes of output and no key: the input is taken in blocks of
128 bytes, the last one filled up with zeros, and each block is mixed into eight words in twelve
rounds.
-/
namespace TieredEngine.Ship.Digest
open TieredEngine

/-- The words that the state starts from. -/
def initial : Array UInt64 := #[
  0x6a09e667f3bcc908, 0xbb67ae8584caa73b, 0x3c6ef372fe94f82b, 0xa54ff53a5f1d36f1,
  0x510e527fade682d1, 0x9b05688c2b3e6c1f, 0x1f83d9abfb41bd6b, 0x5be0cd19137e2179]

/-- Order in which each round takes the words of a block. -/
def schedule : List (List Nat) := [
  [0, 1, 2, 3, 4, 5, 6, 7, 8, 9, 10, 11, 12, 13, 14, 15],
  [14, 10, 4, 8, 9, 15, 13, 6, 1, 12, 0, 2, 11, 7, 5, 3],
  [11, 8, 12, 0, 5, 2, 15, 13, 10, 14, 3, 6, 7, 1, 9, 4],
  [7, 9, 3, 1, 13, 12, 11, 14, 2, 6, 5, 10, 4, 0, 15, 8],
  [9, 0, 5, 7, 2, 4, 10, 15, 14, 1, 11, 12, 6, 8, 3, 13],
  [2, 12, 6, 10, 0, 11, 8, 3, 4, 13, 7, 5, 15, 14, 1, 9],
  [12, 5, 1, 15, 14, 13, 4, 10, 0, 7, 6, 3, 9, 2, 8, 11],
  [13, 11, 7, 14, 12, 1, 3, 9, 5, 0, 15, 4, 8, 6, 2, 10],
  [6, 15, 14, 9, 11, 3, 0, 8, 12, 2, 13, 7, 1, 4, 10, 5],
  [10, 2, 8, 4, 7, 6, 1, 5, 15, 11, 9, 14, 3, 12, 13, 0],
  [0, 1, 2, 3, 4, 5, 6, 7, 8, 9, 10, 11, 12, 13, 14, 15],
  [14, 10, 4, 8, 9, 15, 13, 6, 1, 12, 0, 2, 11, 7, 5, 3]]

/-- Positions that one round mixes: the columns of a square of four by four words, then its
diagonals. -/
def lanes : List (Nat × Nat × Nat × Nat) := [
  (0, 4, 8, 12), (1, 5, 9, 13), (2, 6, 10, 14), (3, 7, 11, 15),
  (0, 5, 10, 15), (1, 6, 11, 12), (2, 7, 8, 13), (3, 4, 9, 14)]

def rotateRight (x : UInt64) (n : UInt64) : UInt64 := (x >>> n) ||| (x <<< (64 - n))

/-- Mixes two words of the block into four words of the state. -/
def mix (v : Array UInt64) (lane : Nat × Nat × Nat × Nat) (x y : UInt64) : Array UInt64 :=
  let (i, j, k, l) := lane
  let a := v.getD i 0 + v.getD j 0 + x
  let d := rotateRight (v.getD l 0 ^^^ a) 32
  let c := v.getD k 0 + d
  let b := rotateRight (v.getD j 0 ^^^ c) 24
  let a := a + b + y
  let d := rotateRight (d ^^^ a) 16
  let c := c + d
  let b := rotateRight (b ^^^ c) 63
  (((v.setIfInBounds i a).setIfInBounds j b).setIfInBounds k c).setIfInBounds l d

/-- Mixes with pairs of words in the order of a round. -/
def mixAll (block : Array UInt64) :
    List (Nat × Nat × Nat × Nat) → List Nat → Array UInt64 → Array UInt64
  | lane :: lanes, p :: q :: order, v =>
    mixAll block lanes order (mix v lane (block.getD p 0) (block.getD q 0))
  | _, _, v => v

/-- Mixes a block into the eight words; `total` counts the bytes up to its end. -/
def compress (h block : Array UInt64) (total : Nat) (last : Bool) : Array UInt64 :=
  let v := h ++ initial
  let v := v.modify 12 (· ^^^ UInt64.ofNat total)
  let v := v.modify 13 (· ^^^ UInt64.ofNat (total / Nat.pow 2 64))
  let v := if last then v.modify 14 (~~~ ·) else v
  let v := schedule.foldl (fun v order => mixAll block lanes order v) v
  (List.range 8).toArray.map fun i => h.getD i 0 ^^^ v.getD i 0 ^^^ v.getD (i + 8) 0

/-- The word whose lowest byte stands at a position; bytes past the end are zero. -/
def wordAt (data : ByteArray) (start : Nat) : UInt64 :=
  (List.range 8).foldr (fun i w => w <<< 8 ||| (data[start + i]?.getD 0).toUInt64) 0

def blockAt (data : ByteArray) (start : Nat) : Array UInt64 :=
  (List.range 16).toArray.map fun i => wordAt data (start + 8 * i)

/-- Number of blocks; an empty input has one, of zeros. -/
def blockCount (size : Nat) : Nat := max 1 ((size + 127) / 128)

/-- The eight words after the whole input. -/
def absorb (data : ByteArray) : Array UInt64 :=
  let count := blockCount data.size
  let start := initial.modify 0 (· ^^^ 0x01010020)
  (List.range count).foldl (fun h i =>
    let last := i + 1 == count
    compress h (blockAt data (128 * i)) (if last then data.size else 128 * (i + 1)) last) start

/-- Bytes of a word, the lowest first. -/
def wordBytes (w : UInt64) : List UInt8 :=
  (List.range 8).map fun i => (w >>> UInt64.ofNat (8 * i)).toUInt8

/-- The digest of some bytes in hexadecimal. -/
def text (data : ByteArray) : String :=
  Text.hexOfBytes (((absorb data).toList.take 4).flatMap wordBytes)

end TieredEngine.Ship.Digest

namespace TieredEngine.Ship
open TieredEngine TieredEngine.Json TieredEngine.Time

structure Artifact where
  path : String := ""
  format : Format := .executable
  target : String := ""
  level : String := ""
  /-- Name of the entry function, if it was looked for and found. -/
  entry : String := ""
  size : Int64 := 0
  elapsed : Duration := 0
  digest : String := ""
  treeShake : Option ShakeStats := none

/-- What was removed and kept, by name. -/
def ShakeStats.members (s : ShakeStats) : List (String × Doc) := [
  ("functions_removed", .ofInt s.functionsRemoved), ("externs_removed", .ofInt s.externsRemoved),
  ("globals_removed", .ofInt s.globalsRemoved), ("functions_kept", .ofInt s.functionsKept),
  ("externs_kept", .ofInt s.externsKept)]

namespace Artifact

def humanSize (a : Artifact) : String := Size.decimalText a.size.toInt

/-- Path of the description. -/
def manifestPath (a : Artifact) : String := a.path ++ ".json"

private def unlessEmptyMember (name value : String) : List (String × Doc) :=
  if value.isEmpty then [] else [(name, .str value)]

/-- Text of the description. -/
def manifest (a : Artifact) : String :=
  let shake := a.treeShake.elim [] fun s => [("tree_shake", Doc.obj s.members)]
  let doc := Doc.obj <|
    [("path", .str a.path), ("format", .str a.format.name)] ++
    unlessEmptyMember "target" a.target ++
    [("opt_level", .str a.level)] ++ unlessEmptyMember "entry" a.entry ++
    [("size", .ofInt a.size.toInt), ("elapsed_ns", .str a.elapsed.text),
      ("blake2b_256", .str a.digest)] ++ shake
  doc.indented Escaping.file ++ "\n"

end Artifact

/-- Why a text is not a description of an artifact. -/
inductive ManifestError where
  | shape
  | unknownFormat (name : String)
  deriving DecidableEq, Repr

/-- The wording, for the errors that have one. -/
def ManifestError.message? : ManifestError → Option String
  | .shape => none
  | .unknownFormat s => some s!"failed to decode manifest: {Format.unknownMessage s}"

namespace Manifest

abbrev Read := Except ManifestError

/-- A reader of the general format; all its errors are errors of shape. -/
def shaped {α : Type} (x : Ir.Codec.Read α) : Read α := x.mapError fun _ => .shape

/-- A span of time: a number of nanoseconds, or the text of a span without escapes. -/
def duration (old : Duration) (n : Node) : Read Duration :=
  match n with
  | .str .. =>
    let raw := (n.spelling.toList.drop 1).dropLast
    (Duration.parse (String.ofList raw)).mapError fun _ => .shape
  | _ => shaped (Ir.Codec.int64 old n)

def formatName (old : Format) (n : Node) : Read Format :=
  match n with
  | .null _ => .ok old
  | .str s _ =>
    match Format.ofName? s with
    | some f => .ok f
    | none => .error (.unknownFormat s)
  | _ => .error .shape

def count (old : Int) (n : Node) : Read Int :=
  return (← shaped (Ir.Codec.int64 (Int64.ofInt old) n)).toInt

/-- Goes through the members of an object; `null` has none. -/
def members {α : Type} (n : Node) (start : α) (step : α → String → Node → Read α) : Read α :=
  match n with
  | .null _ => .ok start
  | .obj ms _ => ms.foldlM (fun acc m => step acc m.1.toLower m.2) start
  | _ => .error .shape

def shakeStats (old : Option ShakeStats) (n : Node) : Read (Option ShakeStats) :=
  match n with
  | .null _ => .ok none
  | _ => some <$> members n (old.getD {}) fun s key node => do
    match key with
    | "functions_removed" => return { s with functionsRemoved := ← count s.functionsRemoved node }
    | "externs_removed" => return { s with externsRemoved := ← count s.externsRemoved node }
    | "globals_removed" => return { s with globalsRemoved := ← count s.globalsRemoved node }
    | "functions_kept" => return { s with functionsKept := ← count s.functionsKept node }
    | "externs_kept" => return { s with externsKept := ← count s.externsKept node }
    | _ => return s

end Manifest

open Manifest in
/-- Reads a description. Members may come in any order and case, and unknown ones are ignored. -/
def Artifact.read (text : String) : Except ManifestError Artifact :=
  match Json.readWhole text with
  | none => .error .shape
  | some n => members n ({} : Artifact) fun a key node => do
    let word (old : String) : Read String := shaped (Ir.Codec.string old node)
    match key with
    | "path" => return { a with path := ← word a.path }
    | "format" => return { a with format := ← formatName a.format node }
    | "target" => return { a with target := ← word a.target }
    | "opt_level" => return { a with level := ← word a.level }
    | "entry" => return { a with entry := ← word a.entry }
    | "size" => return { a with size := ← shaped (Ir.Codec.int64 a.size node) }
    | "elapsed_ns" => return { a with elapsed := ← duration a.elapsed node }
    | "blake2b_256" => return { a with digest := ← word a.digest }
    | "tree_shake" => return { a with treeShake := ← shakeStats a.treeShake node }
    | _ => return a

end TieredEngine.Ship
