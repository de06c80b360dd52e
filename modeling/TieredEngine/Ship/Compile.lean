import TieredEngine.Host.World
import TieredEngine.Ir.WellFormed
import TieredEngine.Llvm.Text
import TieredEngine.Ship.Lowering
import TieredEngine.Ship.Manifest
import TieredEngine.Ship.Toolchain

/-!
Compilation ahead of time: check the module, optimise a copy, find the entry, remove what it cannot
reach, lower to LLVM text, hand the text to the tools that the format needs, and describe the
result in a file beside it.
-/
namespace TieredEngine.Ship
open TieredEngine TieredEngine.Ir TieredEngine.Host

/-- Steps that work on files. -/
inductive FileStep where
  | outputDirectory | llvmText | openArtifact | hashArtifact | manifest
  deriving DecidableEq, Repr

def FileStep.text : FileStep → String
  | outputDirectory => "failed to create output directory"
  | llvmText => "failed to write LLVM IR"
  | openArtifact => "failed to open artifact"
  | hashArtifact => "failed to hash artifact"
  | manifest => "failed to write manifest"

inductive CompileError where
  | invalidModule (defects : List Defect)
  | lowering (e : LowerError)
  | tool (e : ToolError)
  | file (step : FileStep) (e : FileError)

def CompileError.message : CompileError → String
  | .invalidModule ds => "invalid module: " ++ String.intercalate "; " (ds.map Defect.message)
  | .lowering e => s!"failed to generate LLVM IR: {e.message}"
  | .tool e => e.message
  | .file step e => s!"{step.text}: {e.message}"

/-- What a compilation changes: the world, and the log. -/
structure Job where
  world : World
  log : List LogLine := []

/-- A compilation that fails keeps what it did before. -/
abbrev Build := ExceptT (Fault CompileError) (StateM Job)

namespace Build

def fail {α : Type} (e : CompileError) : Build α := throw (.error e)

def lift {ε α : Type} (wrap : ε → CompileError) : Except (Fault ε) α → Build α
  | .ok a => pure a
  | .error (.error e) => fail (wrap e)
  | .error (.crash c) => throw (.crash c)

def orCrash {α : Type} : Except Crash α → Build α
  | .ok a => pure a
  | .error c => throw (.crash c)

def orFile {α : Type} (step : FileStep) : Except FileError α → Build α
  | .ok a => pure a
  | .error e => fail (.file step e)

def world : Build World := return (← get).world

def setWorld (w : World) : Build Unit := modify ({ · with world := w })

/-- Adds a line about a module to the log. -/
def note (m : Module) (message : String) (values : List (String × LogValue)) : Build Unit :=
  modify fun j => { j with
    log := j.log ++ [{ message, values := ("module", .text m.name) :: values }] }

def orTool (found : World → Except ToolError String) : Build String := do
  match found (← world) with
  | .ok path => return path
  | .error e => fail (.tool e)

def runTool (kind : ToolErrorKind) (path : String) (args : List String) : Build Unit := do
  let (r, w) := Toolchain.run (← world) kind path args
  setWorld w
  match r with
  | .ok () => return ()
  | .error e => fail (.tool e)

def write (step : FileStep) (path text : String) : Build Unit := do
  setWorld (← orFile step ((← world).write path text))

/-- Hands the text to the tools that the format needs. Files in between go to `tmp`. -/
def runTools (m : Module) (o : Options) (text tmp out : String) : Build Unit := do
  let input := Path.join [tmp, "module.ll"]
  write .llvmText input text
  if o.format = .llvmBitcode then
    let assembler ← orTool fun w => Toolchain.findTool w o.assembler "llvm-as"
    runTool .toolFailed assembler ["-o", out, input]
  else
    let codegen ← orTool fun w => Toolchain.findTool w o.codegen "llc"
    if o.format = .assembly || o.format = .object then
      runTool .toolFailed codegen (o.codegenArgs input out (o.format = .assembly))
    else
      let object := Path.join [tmp, "module.o"]
      runTool .toolFailed codegen (o.codegenArgs input object false)
      let linker ← orTool fun w => Toolchain.findLinker w o.linker
      let runtime ← orTool fun w => Toolchain.findRuntime w o.runtimeDir o.system
      let args := o.linkArgs out object runtime
      note m "linking" [("linker", .text linker), ("args", .texts args)]
      runTool .linkFailed linker args

/-- Runs a step with a directory for temporary files, which is removed afterwards. -/
def withTemp (act : String → Build Unit) : Build Unit := fun j =>
  let tmp := j.world.tempName
  let start := { j with world := (j.world.makeDirs tmp).toOption.getD j.world }
  let (r, j) := act tmp start
  (r, { j with world := j.world.removeTree tmp })

/-- The entry function. Only an executable cannot do without one. -/
def findEntry (m : Module) (o : Options) : Build (Option Function) := do
  if !o.strip && o.format != .executable then return none
  match m.entryFunction with
  | .ok f => return some f
  | .error (.crash c) => throw (.crash c)
  | .error (.error e) =>
    if o.format = .executable then
      fail (.tool {
        kind := .missingEntry, text := e.message
        hint := "Define a function named main or set the module entry." })
    note m "no entry function, tree shaking skipped" []
    return none

/-- Removes what the entry cannot reach, if that is wanted and there is an entry. -/
def shake (m : Module) (o : Options) (entry : Option Function) :
    Build (Module × Option Function × Option ShakeStats) := do
  match entry with
  | some f =>
    if !o.strip then return (m, entry, none)
    let r ← orCrash (treeShake m f.id)
    let s := r.stats
    note m "tree shaken" [
      ("removed", .text
        s!"{s.functionsRemoved} functions, {s.externsRemoved} externs, {s.globalsRemoved} globals"),
      ("kept", .text s!"{s.functionsKept} functions, {s.externsKept} externs")]
    return (r.module, r.module.function? r.entry, some s)
  | none => return (m, none, none)

/-- Size and digest of the file that was made. -/
def measure (out : String) : Build (Nat × String) := do
  let text ← match (← world).read out with
    | .ok text => pure text
    | .error e =>
      fail (.file (if e.problem = .isDirectory then .hashArtifact else .openArtifact) e)
  let bytes := text.toUTF8
  return (bytes.size, Digest.text bytes)

/-- Compiles a module. -/
def compile (m : Module) (o : Options) : Build Artifact := do
  let defects ← orCrash m.defects
  if !defects.isEmpty then fail (.invalidModule defects)
  let out := o.outputPath m.name
  let pipeline := Pass.Pipeline.forLevel o.level
  orCrash (Pass.checkCopyable m)
  let (work, report, _) ← orCrash (pipeline.runModule m)
  note m "mir optimized" [
    ("level", .text o.level.name), ("passes", .texts (pipeline.passes.map Pass.Kind.name)),
    ("changes", .count report.changes.length)]
  let entry ← findEntry work o
  let (work, entry, stats) ← shake work o entry
  let lowered ← lift .lowering (lower work {
    triple := o.target, wrapped := if o.format = .executable then entry else none })
  setWorld (← orFile .outputDirectory ((← world).makeDirs (Path.dir out)))
  if o.format = .llvmText then write .llvmText out lowered.text
  else withTemp fun tmp => runTools m o lowered.text tmp out
  let (size, digest) ← measure out
  let artifact : Artifact := {
    path := out, format := o.format, target := o.target, level := o.level.name
    entry := entry.elim "" Function.name, size := Int64.ofNat size, digest, treeShake := stats }
  write .manifest artifact.manifestPath artifact.manifest
  note m "artifact written" [
    ("path", .text out), ("format", .text o.format.name), ("size", .text artifact.humanSize),
    ("elapsed", .text artifact.elapsed.text)]
  return artifact

end Build

/-- Compiles a module in a world. -/
def compile (m : Module) (o : Options) (w : World) : Except (Fault CompileError) Artifact × Job :=
  (Build.compile m o).run.run { world := w }

end TieredEngine.Ship
