import TieredEngine.Text.Blank

/-!
Paths as text: names with slashes between them. All functions work on the text alone and never ask
whether a file exists.
-/
namespace TieredEngine.Path
open TieredEngine

def isAbsolute (p : String) : Bool := p.toList.head? == some '/'

/-- Names between the slashes, in order, some of them empty. -/
def names (p : String) : List String := Text.splitAt '/' p

/-- Adds a name to the reversed names kept so far. A step up removes the name below it; at the top
of an absolute path it has no effect, and at the top of a relative one it stays. -/
def push (rooted : Bool) (kept : List String) (name : String) : List String :=
  if name == "" || name == "." then kept
  else if name == ".." then
    match kept with
    | [] => if rooted then [] else [".."]
    | top :: below => if top == ".." then ".." :: kept else below
  else name :: kept

/-- The shortest path that names the same place. -/
def clean (p : String) : String :=
  let rooted := isAbsolute p
  let body := String.intercalate "/" ((names p).foldl (push rooted) []).reverse
  if rooted then "/" ++ body else if body.isEmpty then "." else body

/-- Parts joined and cleaned; empty parts do not count. -/
def join (parts : List String) : String :=
  match parts.filter (· != "") with
  | [] => ""
  | parts => clean (String.intercalate "/" parts)

/-- The last name of a path, slashes at its end ignored. -/
def base (p : String) : String :=
  if p.isEmpty then "."
  else
    match ((names p).reverse.dropWhile (· == "")).head? with
    | some name => name
    | none => "/"

/-- The cleaned path before the last slash. -/
def dir (p : String) : String :=
  let before := (names p).dropLast
  if before.isEmpty then "." else clean (String.intercalate "/" before ++ "/")

/-- A name cut before its last point. -/
def stem (name : String) : String :=
  match name.toList.reverse.dropWhile (· != '.') with
  | [] => name
  | _ :: before => String.ofList before.reverse

end TieredEngine.Path
