import TieredEngine.Json.Doc
import TieredEngine.Path

/-!
The world a command runs in: files and directories by path, the tools among them, the directories
where tools are searched, and a record of the tools that were run. Everything is a value, so that
what a command reads, writes and runs can be stated.
-/
namespace TieredEngine.Host
open TieredEngine

/-- What one run of a tool does. -/
structure ToolRun where
  exitCode : Nat := 0
  stderr : String := ""
  /-- Files written, by path. -/
  writes : List (String × String) := []

structure Tool where
  name : String
  /-- Exit code when it is asked for its version. -/
  versionExit : Nat := 0
  run : List String → ToolRun

/-- Paths that follow the argument `-o`. -/
def outputsOf : List String → List String
  | "-o" :: path :: rest => path :: outputsOf (path :: rest)
  | _ :: rest => outputsOf rest
  | [] => []

/-- A stand-in for a tool: it writes its name to every output, or fails with an exit code. -/
def Tool.standIn (name : String) (exitCode versionExit : Nat) (stderr : String) : Tool := {
  name, versionExit
  run := fun args => {
    exitCode, stderr
    writes :=
      if exitCode = 0 then (outputsOf args).map (·, s!"artifact by {name}\n") else [] } }

inductive Entry where
  | directory
  | file (text : String)
  | tool (t : Tool)

def Entry.isDirectory : Entry → Bool
  | directory => true
  | _ => false

inductive FileProblem where
  | missing | isDirectory | notDirectory | nameTooLong | invalid
  deriving DecidableEq, Repr

def FileProblem.message : FileProblem → String
  | missing => "no such file or directory"
  | isDirectory => "is a directory"
  | notDirectory => "not a directory"
  | nameTooLong => "file name too long"
  | invalid => "invalid argument"

/-- What was tried on which path, and why it failed. -/
structure FileError where
  action : String
  path : String
  problem : FileProblem
  deriving DecidableEq, Repr

def FileError.message (e : FileError) : String := s!"{e.action} {e.path}: {e.problem.message}"

structure World where
  /-- Entries by cleaned absolute path. -/
  entries : List (String × Entry) := []
  workDir : String := "/"
  tempDir : String := "/tmp"
  /-- What makes the name of a temporary directory its own. -/
  tempTag : String := "0"
  /-- Directory of the running program. -/
  programDir : String := ""
  /-- Directories where tools are searched, in order. -/
  searchPath : List String := []
  /-- Directory of the runtime library that the environment names; empty if it names none. -/
  runtimeDir : String := ""
  /-- Tools run so far with their arguments. -/
  toolCalls : List (List String) := []

namespace World

def absolute (w : World) (p : String) : String :=
  if Path.isAbsolute p then Path.clean p else Path.join [w.workDir, p]

/-- Entry at a cleaned absolute path. -/
def entryAt? (w : World) (p : String) : Option Entry :=
  if p == "/" then some .directory else w.entries.lookup p

/-- The paths of a path's names from the outermost on, itself the last. -/
def chain (p : String) : List String :=
  (List.range (Path.names p).length).map fun i =>
    String.intercalate "/" ((Path.names p).take (i + 1))

/-- Longest name of a file, in bytes. -/
def nameLimit : Nat := 255

/-- Longest path, in bytes. -/
def pathLimit : Nat := 4095

/-- What is wrong with a path whatever files there are. -/
def pathProblem? (p : String) : Option FileProblem :=
  if p.isEmpty then some .missing
  else if p.toList.contains '\x00' then some .invalid
  else if pathLimit < p.utf8ByteSize then some .nameTooLong
  else none

/-- Where the names of a path start. -/
def origin (w : World) (p : String) : String := if Path.isAbsolute p then "/" else w.workDir

/-- Follows names one by one from an entry at a cleaned path. Whatever a name follows must be a
directory: an empty name and a point stay there, two points lead to the directory above. -/
def follow (w : World) (here : String) (e : Entry) :
    List String → Except FileProblem (String × Entry)
  | [] => .ok (here, e)
  | name :: rest =>
    if !e.isDirectory then .error .notDirectory
    else if name == "" || name == "." then w.follow here e rest
    else if name == ".." then w.follow (Path.dir here) .directory rest
    else if nameLimit < name.utf8ByteSize then .error .nameTooLong
    else
      let below := Path.join [here, name]
      match w.entryAt? below with
      | some e => w.follow below e rest
      | none => .error .missing

/-- Looks at a path. A slash at its end asks for a directory. -/
def look (w : World) (p : String) : Except FileProblem Entry :=
  match pathProblem? p with
  | some problem => .error problem
  | none => (w.follow (w.origin p) .directory (Path.names p)).map Prod.snd

/-- Where a file is written: in a directory that exists, under a name that no directory has. A slash
at the end of a path is refused whatever stands there. -/
def target (w : World) (p : String) : Except FileProblem String := do
  if let some problem := pathProblem? p then throw problem
  match (Path.names p).reverse.dropWhile (· == "") with
  | [] => .error .isDirectory
  | name :: above =>
    let (here, e) ← w.follow (w.origin p) .directory above.reverse
    let full := Path.join [here, name]
    if !e.isDirectory then .error .notDirectory
    else if name == "." || name == ".." || p.toList.getLast? == some '/' then .error .isDirectory
    else if nameLimit < name.utf8ByteSize then .error .nameTooLong
    else if (w.entryAt? full).any Entry.isDirectory then .error .isDirectory
    else .ok full

def isFile (w : World) (p : String) : Bool :=
  match w.look p with
  | .ok e => !e.isDirectory
  | .error _ => false

def exists? (w : World) (p : String) : Bool := (w.look p).isOk

def isDirectory (w : World) (p : String) : Bool :=
  match w.look p with
  | .ok e => e.isDirectory
  | .error _ => false

def put (w : World) (path : String) (e : Entry) : World :=
  { w with entries := w.entries.filter (·.1 != path) ++ [(path, e)] }

def read (w : World) (p : String) : Except FileError String :=
  match w.look p with
  | .ok (.file text) => .ok text
  | .ok (.tool _) => .ok ""
  | .ok .directory => .error ⟨"read", p, .isDirectory⟩
  | .error e => .error ⟨"open", p, e⟩

/-- Writes a whole file. -/
def write (w : World) (p text : String) : Except FileError World :=
  match w.target p with
  | .ok full => .ok (w.put full (.file text))
  | .error e => .error ⟨"open", p, e⟩

/-- Makes a directory and those above it. -/
def makeDirs (w : World) (p : String) : Except FileError World :=
  (chain p).foldlM (fun w above =>
    if above.isEmpty then .ok w
    else match w.look above with
    | .ok e => if e.isDirectory then .ok w else .error ⟨"mkdir", above, .notDirectory⟩
    | .error .missing => .ok (w.put (w.absolute above) .directory)
    | .error problem => .error ⟨"mkdir", above, problem⟩) w

/-- A world with a file and the directories above it; a name that ends in a slash is a directory. -/
def withFile (w : World) (p text : String) : World :=
  if p.toList.getLast? == some '/' then (w.makeDirs (Path.clean p)).toOption.getD w
  else ((w.makeDirs (Path.dir p)).toOption.getD w).put (w.absolute p) (.file text)

/-- A path for temporary files. -/
def tempName (w : World) : String := Path.join [w.tempDir, s!"mirjit-aot-{w.tempTag}"]

/-- Removes a directory with everything in it. -/
def removeTree (w : World) (p : String) : World :=
  let full := w.absolute p
  let inside (p : String) : Bool := (full ++ "/").toList.isPrefixOf p.toList
  { w with entries := w.entries.filter fun e => e.1 != full && !inside e.1 }

def toolAt? (w : World) (p : String) : Option Tool :=
  match w.look p with
  | .ok (.tool t) => some t
  | _ => none

/-- Path of a tool: as it stands if it has a slash, else in the first directory that has it. -/
def findProgram? (w : World) (name : String) : Option String :=
  if name.toList.contains '/' then
    if (w.toolAt? name).isSome then some name else none
  else if name.isEmpty then none
  else (w.searchPath.map fun dir => Path.join [dir, name]).find? fun p => (w.toolAt? p).isSome

/-- Runs a tool; outputs that cannot be written are lost. -/
def runTool (w : World) (t : Tool) (args : List String) : ToolRun × World :=
  let r := t.run args
  let w := { w with toolCalls := w.toolCalls ++ [t.name :: args] }
  (r, r.writes.foldl (fun w (p, text) => (w.write p text).toOption.getD w) w)

end World

end TieredEngine.Host

/-!
Lines of a log for people: a severity, a message, and named values after it.
-/
namespace TieredEngine.Host
open TieredEngine

inductive LogValue where
  | text (s : String)
  | texts (l : List String)
  | count (n : Nat)

def LogValue.shown : LogValue → String
  | .text s => Json.Escaping.line.string s
  | .texts l => "[" ++ String.intercalate ", " (l.map Json.Escaping.line.string) ++ "]"
  | .count n => toString n

structure LogLine where
  severity : String := "INFO"
  message : String
  values : List (String × LogValue) := []

/-- The parts of a line have tabs between them. -/
def LogLine.shown (l : LogLine) : String :=
  let values := l.values.map fun (k, v) => Json.Escaping.line.string k ++ ": " ++ v.shown
  let tail := if values.isEmpty then "" else "\t\x7b" ++ String.intercalate ", " values ++ "\x7d"
  s!"{l.severity}\t{l.message}{tail}\n"

end TieredEngine.Host
