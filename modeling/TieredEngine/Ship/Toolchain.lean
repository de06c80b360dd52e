import TieredEngine.Host.World
import TieredEngine.Ship.Options

/-!
The outside tools that a compilation needs: a code generator, a bitcode assembler, a linker and the
runtime library. A path that the user gives must be right; otherwise the usual places are searched
in a fixed order. A tool that is not there, or that was run and failed, is reported: the message comes
first, then what the tool wrote, then advice.
-/
namespace TieredEngine.Ship

inductive ToolErrorKind where
  | missingEntry | missingLinker | missingRuntime | missingTool | linkFailed | toolFailed
  deriving DecidableEq, Repr

namespace ToolErrorKind

/-- All kinds, in the order of their numbers. -/
def all : List ToolErrorKind :=
  [missingEntry, missingLinker, missingRuntime, missingTool, linkFailed, toolFailed]

def name : ToolErrorKind → String
  | missingEntry => "missing entry"
  | missingLinker => "missing linker"
  | missingRuntime => "missing runtime"
  | missingTool => "missing tool"
  | linkFailed => "link failed"
  | toolFailed => "tool failed"

/-- Name shown for a number, which need not be a kind's. -/
def codeName (n : Int) : String :=
  match n with
  | .ofNat k => (all[k]?.map name).getD s!"kind({n})"
  | .negSucc _ => s!"kind({n})"

end ToolErrorKind

structure ToolError where
  kind : ToolErrorKind
  tool : String := ""
  text : String := ""
  stderr : String := ""
  hint : String := ""
  deriving DecidableEq, Repr

/-- The message with the tool's own output, its final line ends cut, and the advice. -/
def ToolError.describe (text stderr hint : String) : String :=
  let trimmed := String.ofList (stderr.toList.reverse.dropWhile (· == '\n')).reverse
  text ++ (if stderr.isEmpty then "" else ":\n" ++ trimmed) ++
    (if hint.isEmpty then "" else "\n" ++ hint)

def ToolError.message (e : ToolError) : String := describe e.text e.stderr e.hint

end TieredEngine.Ship

namespace TieredEngine.Ship.Toolchain
open TieredEngine TieredEngine.Host

/-- Name of the variable that names the directory of the runtime library. -/
def runtimeVariable : String := "MIRJIT_RUNTIME_DIR"

def runtimeHint : String :=
  "Build the runtime with `make -C runtime` (writes target/release/libmirrt.a), set " ++
    runtimeVariable ++ ", or pass --runtime-dir <dir>."

def linkerNames : List String := ["clang", "gcc", "cc"]

/-- Names of a tool: without a version, then with the versions from the newest on. -/
def versionedNames (name : String) : List String :=
  name :: (List.range 6).map fun i => s!"{name}-{19 - i}"

/-- Path of a tool of the code generator's family. -/
def findTool (w : World) (explicit name : String) : Except ToolError String :=
  if explicit.isEmpty then
    match (versionedNames name).findSome? w.findProgram? with
    | some path => .ok path
    | none => .error {
        kind := .missingTool, tool := name, text := s!"{name} not found in PATH"
        hint := s!"Install LLVM or pass --{name} <path>." }
  else
    match w.findProgram? explicit with
    | some path => .ok path
    | none => .error {
        kind := .missingTool, tool := explicit, text := s!"{name} not found at {explicit}"
        hint := s!"Check the --{name} path." }

/-- Path of a linker; one that is searched must answer when asked for its version. -/
def findLinker (w : World) (explicit : String) : Except ToolError String :=
  if explicit.isEmpty then
    let usable (name : String) : Option String := do
      let path ← w.findProgram? name
      let tool ← w.toolAt? path
      if tool.versionExit = 0 then some path else none
    match linkerNames.findSome? usable with
    | some path => .ok path
    | none => .error {
        kind := .missingLinker, text := "No linker found"
        hint := "Install clang or gcc, or pass --linker <path>." }
  else
    match w.findProgram? explicit with
    | some path => .ok path
    | none => .error {
        kind := .missingLinker, tool := explicit, text := s!"linker {explicit} not found"
        hint := "Check the --linker path." }

/-- Directories where the runtime library is searched, in order. -/
def runtimeDirs (w : World) : List String :=
  (if w.runtimeDir.isEmpty then [] else [w.runtimeDir]) ++
    [Path.join [w.workDir, "target", "release"], Path.join [w.workDir, "target", "debug"],
      w.programDir]

/-- Path of the runtime library for a system. -/
def findRuntime (w : World) (explicit system : String) : Except ToolError String :=
  let name := runtimeLibrary system
  let missing (place : String) : ToolError := {
    kind := .missingRuntime, tool := name
    text := s!"runtime library {name} not found {place}", hint := runtimeHint }
  if explicit.isEmpty then
    let dirs := runtimeDirs w
    match (dirs.map fun dir => Path.join [dir, name]).find? w.isFile with
    | some path => .ok path
    | none => .error (missing s!"(searched {Text.commas dirs})")
  else
    let path := Path.join [explicit, name]
    if w.isFile path then .ok path else .error (missing s!"in {explicit}")

/-- Runs a tool that was found; any exit code but zero is a failure of the given kind. -/
def run (w : World) (kind : ToolErrorKind) (path : String) (args : List String) :
    Except ToolError Unit × World :=
  let name := Path.base path
  match w.toolAt? path with
  | none => (.error { kind, tool := name, text := s!"failed to run {name}" }, w)
  | some tool =>
    let (r, w) := w.runTool tool args
    if r.exitCode = 0 then (.ok (), w)
    else
      let text := if kind = .linkFailed then "Linking failed" else s!"{name} failed"
      (.error { kind, tool := name, text, stderr := r.stderr }, w)

end TieredEngine.Ship.Toolchain
