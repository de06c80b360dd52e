import TieredEngine.Cli.Flags
import TieredEngine.Settings.Reading
import TieredEngine.Ship.Compile

/-!
The command that compiles a module ahead of time. Its arguments have the form `--name=value` or
`-n=value`, its flags `--name` or `-n`, and the one argument without dashes is the module.
-/
namespace TieredEngine.Cli.Build
open TieredEngine TieredEngine.Ir TieredEngine.Host

/-- A named argument; one with choices takes no other value. -/
structure Argument where
  name : String
  short : String
  choices : List String := []

def arguments : List Argument := [
  ⟨"output", "o", []⟩, ⟨"format", "f", Ship.Format.all.map Ship.Format.name⟩,
  ⟨"opt", "O", ["O0", "O1", "O2", "O3"]⟩, ⟨"target", "t", []⟩, ⟨"linker", "l", []⟩,
  ⟨"runtime-dir", "rt", []⟩, ⟨"sysroot", "sr", []⟩, ⟨"llc", "llc", []⟩, ⟨"llvm-as", "as", []⟩,
  ⟨"config", "c", []⟩]

/-- A flag has no value. -/
structure Switch where
  name : String
  short : String

/-- What may follow a command. -/
structure Grammar where
  arguments : List Argument := []
  switches : List Switch := []
  /-- One argument without dashes is the path of a module. -/
  takesModule : Bool := false

/-- What may follow the command that compiles. -/
def grammar : Grammar := {
  arguments
  switches := [⟨"no-strip", "ns"⟩, ⟨"strip-symbols", "s"⟩, ⟨"verbose", "v"⟩]
  takesModule := true }

inductive UsageError where
  | unknownCommand (name : String)
  | unknownFlag (name : String) (short : Bool)
  | unknownArgument (name : String) (short : Bool)
  | repeatedFlag (name : String)
  | repeatedArgument (name : String)
  | badChoice (argument value : String)
  | noModule

private def byName (short : Bool) : String := if short then " by short name" else ""

def UsageError.message : UsageError → String
  | .unknownCommand s => s!"unknown subcommand: `{s}`"
  | .unknownFlag s short => s!"unknown flag{byName short}: `{s}`"
  | .unknownArgument s short => s!"unknown argument{byName short}: `{s}`"
  | .repeatedFlag s => s!"flag `{s}` set multiple times"
  | .repeatedArgument s => s!"argument `{s}` set multiple times"
  | .badChoice a v => s!"`{v}` is not a valid value for argument [{a}]"
  | .noModule => "missing required primary argument `build` for subcommand `module-path`"

/-- What the command line says; an empty path is not said. -/
structure Request where
  module : String := ""
  values : List (String × String) := []
  switches : List String := []

namespace Request

def value (r : Request) (name : String) : String := (r.values.lookup name).getD ""

/-- Takes a flag, which may be given once. -/
def setSwitch (r : Request) (g : Grammar) (short : Bool) (name : String) :
    Except UsageError Request :=
  match g.switches.find? fun s => (if short then s.short else s.name) == name with
  | none => .error (.unknownFlag name short)
  | some s =>
    if r.switches.contains s.name then .error (.repeatedFlag s.name)
    else .ok { r with switches := s.name :: r.switches }

/-- Takes an argument with a value, which may be given once. -/
def setValue (r : Request) (g : Grammar) (short : Bool) (name v : String) :
    Except UsageError Request :=
  match g.arguments.find? fun a => (if short then a.short else a.name) == name with
  | none => .error (.unknownArgument name short)
  | some a =>
    if (r.values.lookup a.name).isSome then .error (.repeatedArgument a.name)
    else if a.choices.isEmpty || a.choices.contains v then
      .ok { r with values := (a.name, v) :: r.values }
    else .error (.badChoice a.name v)

/-- Takes what follows the dashes. Without a value it is a flag. -/
def named (r : Request) (g : Grammar) (short : Bool) (body : String) : Except UsageError Request :=
  match Text.cut '=' body with
  | (name, none) | (name, some "") => r.setSwitch g short name
  | (name, some v) => r.setValue g short name v

/-- Takes one argument of a command. -/
def add (g : Grammar) (r : Request) (arg : String) : Except UsageError Request :=
  match Text.dropLeading? "--" arg, Text.dropLeading? "-" arg with
  | some body, _ => r.named g false body
  | none, some body => r.named g true body
  | none, none =>
    if g.takesModule && r.module.isEmpty then .ok { r with module := arg }
    else .error (.unknownCommand arg)

end Request

inductive Command where
  | nothing
  | version
  | build (path : String) (r : Request)

/-- The first argument names the command; nothing else may stand before it. -/
def parse : List String → Except UsageError Command
  | [] => .ok .nothing
  | "version" :: args => do
    let _ ← args.foldlM (Request.add {}) {}
    return .version
  | "build" :: args => do
    let r ← args.foldlM (Request.add grammar) {}
    if r.module.isEmpty then throw .noModule else return .build r.module r
  | arg :: _ => do
    let _ ← Request.add {} {} arg
    return .nothing

/-- The options of the configuration file with those of the command line put over them. -/
def optionsFor (r : Request) (w : World) (path : String) : Except Stop Ship.Options := do
  let file ← Stop.ofFault Settings.LoadError.message
    (Settings.File.loadFor w (r.value "config") path)
  let base ← match file.shipOptions with
    | .ok o => pure o
    | .error e => throw (.error e.message)
  let chosen (name old : String) : String := if (r.value name).isEmpty then old else r.value name
  let o : Ship.Options := { base with
    format := ((r.values.lookup "format").bind Ship.Format.ofName?).getD .executable
    level := ((r.values.lookup "opt").bind fun s => (Pass.Level.parse s).toOption).getD base.level
    output := chosen "output" base.output, target := chosen "target" base.target
    linker := chosen "linker" base.linker, runtimeDir := chosen "runtime-dir" base.runtimeDir
    sysroot := chosen "sysroot" base.sysroot, codegen := chosen "llc" base.codegen
    assembler := chosen "llvm-as" base.assembler
    strip := base.strip && !r.switches.contains "no-strip"
    stripSymbols := base.stripSymbols || r.switches.contains "strip-symbols"
    verbose := r.switches.contains "verbose" }
  return { o with output := o.outputPath path }

/-- A message after a tag; further lines are moved in under the first. -/
def tagged (tag message : String) : String :=
  let indent := String.ofList (List.replicate (tag.length + 2) ' ')
  s!" {tag}  " ++ String.intercalate s!"\n{indent} " (Text.splitAt '\n' message) ++ "\n"

def summary (a : Ship.Artifact) : String :=
  s!"\nAll done! {a.path} ({a.format.name}, {a.humanSize})\n  opt level  {a.level}\n" ++
  (if a.entry.isEmpty then "" else s!"  entry      {a.entry}\n") ++
  (a.treeShake.elim "" fun s => s!"  tree shake {s.text}\n") ++
  s!"  blake2b    {a.digest}\n  manifest   {a.manifestPath}\n"

/-- The heading over a failed compilation: tools that are missing are no fault of the module. -/
def errorTag : Ship.CompileError → String
  | .tool e =>
    if [.missingLinker, .missingRuntime, .missingTool].contains e.kind then "Toolchain"
    else "Compile Error"
  | _ => "Compile Error"

private def stopped (w : World) (tag : String) : Stop → Outcome
  | .error message => { exitCode := 1, stderr := s!"{tag} {message}\n", world := w }
  | .crash => { exitCode := 2, stderr := "crash\n", world := w }

/-- Compiles the module of a request. -/
def execute (r : Request) (path : String) (w : World) : Outcome :=
  let path := w.absolute path
  match optionsFor r w path with
  | .error e => stopped w "Config Error" e
  | .ok o =>
    match Stop.ofFault ModuleError.message (loadModule w path) with
    | .error e => stopped w "Module Load Error" e
    | .ok m =>
      let (result, job) := Ship.compile m o w
      let stdout := tagged "INFO" s!"Compiling {m.name}..."
      let log := if o.verbose then String.join (job.log.map LogLine.shown) else ""
      match result with
      | .ok a =>
        { stdout := stdout ++ tagged "SUCCESS" s!"Compiled {m.name} (0.000s)" ++ summary a
          stderr := log, world := job.world }
      | .error (.error e) =>
        let stderr := log ++ s!"{errorTag e} {e.message}\n"
        { exitCode := 1, stdout, stderr, world := job.world }
      | .error (.crash _) =>
        { exitCode := 2, stdout, stderr := log ++ "crash\n", world := job.world }

end TieredEngine.Cli.Build

namespace TieredEngine.Cli

/-- The command that compiles a module ahead of time. -/
def build (i : Input) : Outcome :=
  match Build.parse i.args with
  | .error e => { exitCode := 2, stderr := s!"CLI Usage Error {e.message}\n", world := i.world }
  | .ok .nothing => { world := i.world }
  | .ok .version => { stdout := s!"mirc Version {version}\n", world := i.world }
  | .ok (.build path r) => Build.execute r path i.world

end TieredEngine.Cli
