/-!
Blank characters and trimming. A blank is a code point with the white-space property: the ASCII
controls tab to carriage return, the space, next line, the no-break space and the wide or thin
spaces of the higher planes.
-/
namespace TieredEngine.Text

/-- A code point with the white-space property. -/
def isBlank (c : Char) : Bool :=
  let n := c.toNat
  (0x09 ≤ n && n ≤ 0x0D) || n == 0x20 || n == 0x85 || n == 0xA0 || n == 0x1680 ||
    (0x2000 ≤ n && n ≤ 0x200A) || n == 0x2028 || n == 0x2029 || n == 0x202F || n == 0x205F ||
    n == 0x3000

/-- Removes the characters of a class from both ends. -/
def trimWhere (p : Char → Bool) (s : List Char) : List Char :=
  ((s.dropWhile p).reverse.dropWhile p).reverse

/-- Removes blanks from both ends. -/
def trim (s : String) : String := String.ofList (trimWhere isBlank s.toList)

/-- The maximal runs of characters that are not blank, in order. -/
def words (s : String) : List String :=
  let step (c : Char) (acc : List Char × List String) : List Char × List String :=
    if isBlank c then
      match acc.1 with
      | [] => acc
      | w => ([], String.ofList w :: acc.2)
    else (c :: acc.1, acc.2)
  match s.toList.foldr step ([], []) with
  | ([], ws) => ws
  | (w, ws) => String.ofList w :: ws

/-- Splits at the first occurrence of a character; without one there is no second part. -/
def cut (sep : Char) (s : String) : String × Option String :=
  let cs := s.toList
  match cs.dropWhile (· != sep) with
  | [] => (s, none)
  | _ :: rest => (String.ofList (cs.takeWhile (· != sep)), some (String.ofList rest))

/-- Splits at every occurrence of a character; a text without one is a single part. -/
def splitAt (sep : Char) (s : String) : List String :=
  let step (c : Char) (acc : List Char × List String) : List Char × List String :=
    if c == sep then ([], String.ofList acc.1 :: acc.2) else (c :: acc.1, acc.2)
  let (first, rest) := s.toList.foldr step ([], [])
  String.ofList first :: rest

/-- Parts joined by a comma and a blank. -/
def commas (parts : List String) : String := String.intercalate ", " parts

/-- The text after a leading part, if it starts with that part. -/
def dropLeading? (lead s : String) : Option String :=
  let l := lead.toList
  let cs := s.toList
  if l.isPrefixOf cs then some (String.ofList (cs.drop l.length)) else none

/-- The text before a trailing part, if it ends with that part. -/
def dropTrailing? (trail s : String) : Option String :=
  let t := trail.toList
  let cs := s.toList
  if t.isSuffixOf cs then some (String.ofList (cs.take (cs.length - t.length))) else none

end TieredEngine.Text
