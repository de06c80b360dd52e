import TieredEngine.Cli.Flags
import TieredEngine.Ir.Listing
import TieredEngine.Ir.Samples
import TieredEngine.Native.Convention
import TieredEngine.Repl.Prompt
import TieredEngine.Session.Report
import TieredEngine.Settings.Reading

/-!
The command that runs a module: it calls one function some number of times, or starts the prompt,
in a session that runs compiled code on the machine.
-/
namespace TieredEngine.Cli.Run
open TieredEngine TieredEngine.Ir TieredEngine.Host

structure Options where
  config : String := ""
  preset : String := ""
  function : String := ""
  times : Int := 1
  stats : Bool := false
  prompt : Bool := false
  verbosity : Int := -1
  samples : Bool := false
  dump : Bool := false
  init : Bool := false
  version : Bool := false

/-- The flags in the order in which the help lists them. -/
def flags : List (Flag Options) := [
  ⟨"config", "Path to mirjit.toml (default: search upwards from the module)",
    .text fun v o => { o with config := v }⟩,
  ⟨"dump", "Print the module and exit", .switch fun v o => { o with dump := v }⟩,
  ⟨"func", "Function to call (default: module entry)", .text fun v o => { o with function := v }⟩,
  ⟨"init", "Write a default mirjit.toml to the current directory",
    .switch fun v o => { o with init := v }⟩,
  ⟨"n", "Call the function n times", .number 1 fun v o => { o with times := v }⟩,
  ⟨"preset", "Tiered preset: script, application, server, benchmark, development, embedded",
    .text fun v o => { o with preset := v }⟩,
  ⟨"repl", "Start an interactive session", .switch fun v o => { o with prompt := v }⟩,
  ⟨"samples", "Use the built-in sample module", .switch fun v o => { o with samples := v }⟩,
  ⟨"stats", "Print tiered compilation statistics as JSON",
    .switch fun v o => { o with stats := v }⟩,
  ⟨"v", "Log verbosity (0 warn, 1 info, 2 debug)",
    .number (-1) fun v o => { o with verbosity := v }⟩,
  ⟨"version", "Show version", .switch fun v o => { o with version := v }⟩]

def usage : String :=
  "mirrun - run MIR modules on the tiered execution engine\n\n" ++
  "Usage: mirrun [options] <module.json> [args...]\n" ++
  "       mirrun -samples -func sum_to 100\n\n" ++
  "Options:\n" ++ String.join (flags.map Flag.help)

/-- The session's configuration: the file's, with what the flags say put over it. -/
def configFor (o : Options) (w : World) (source : String) : Except Stop Session.Config := do
  let file ← Stop.ofFault Settings.LoadError.message (Settings.File.loadFor w o.config source)
  let file := if o.preset.isEmpty then file else { file with preset := o.preset }
  let file := if o.verbosity < 0 then file
    else { file with session := { file.session with verbosity := some o.verbosity } }
  match file.sessionConfig with
  | .ok c => return c
  | .error e => throw (.error e.message)

/-- A session on the module that runs compiled code. -/
def openSession (config : Session.Config) (m : Module) : Except Stop Session := do
  let setup : Session.Setup := { config, backends := [.x64], invoker := some .machine }
  match Session.start setup (Native.Heap.ofPage 0) with
  | .error e => throw (.error e.openMessage)
  | .ok s =>
    let (r, s) := s.register m
    Stop.ofFault Session.Error.message r
    return s

/-- Lines as they are typed; a last line without its end counts unless it is empty. -/
def typedLines (stdin : String) : List String :=
  let lines := Text.splitAt '\n' stdin
  if lines.getLast? == some "" then lines.dropLast else lines

/-- Takes lines until one asks to leave or none is left. -/
def converse : Repl → List String → Except Stop String
  | _, [] => .ok Repl.farewell
  | r, line :: rest => do
    let (reply, r) ← Stop.ofCrash (r.eval line)
    if reply.quit then return reply.out ++ Repl.farewell
    return reply.out ++ (← converse r rest)

/-- The function to call. -/
def target (o : Options) (m : Module) : Except Stop Function := do
  if o.function.isEmpty then Stop.ofFault EntryError.message m.entryFunction
  else match ← Stop.ofCrash (m.lookup o.function) with
  | some f => return f
  | none => throw (.error s!"unknown function: {o.function}")

/-- Calls a function again and again; the last value is given. -/
def callTimes (id : FuncId) (args : List Value) :
    Nat → Value → Session → Except Stop (Value × Session)
  | 0, v, s => .ok (v, s)
  | n + 1, _, s =>
    match s.call id args with
    | (.ok v, s) => callTimes id args n v s
    | (.error (.crash _), _) => .error .crash
    | (.error h, _) => .error (.error h.message)

/-- The statistics after all queued work is done. -/
def statsText (s : Session) (name : String) : Except Stop String := do
  let (r, s) := s.drain
  Stop.ofFault Session.Error.message r
  return ((s.statistics.report name).indented Json.Escaping.file) ++ "\n"

/-- Calls the function that the command line names; what is printed before an error is kept. -/
def callFunction (o : Options) (name : String) (m : Module) (words : List String) (s : Session) :
    String × Except Stop Unit :=
  let called : Except Stop (Value × Session) := do
    let f ← target o m
    let (_, args) ← Stop.ofFault Repl.CallError.message
      (Repl.parseCall m (String.intercalate " " (f.name :: words)))
    callTimes f.id args o.times.toNat .void s
  match called with
  | .error e => ("", .error e)
  | .ok (v, s) =>
    let shown := (if v.isVoid then "()" else v.text) ++ "\n"
    if !o.stats then (shown, .ok ())
    else match statsText s name with
    | .ok text => (shown ++ text, .ok ())
    | .error e => (shown, .error e)

/-- Ends with an error, or with nothing more to say. -/
def finish (w : World) (stdout : String) : Except Stop Unit → Outcome
  | .ok () => { stdout, world := w }
  | .error (.error message) =>
    { exitCode := 1, stdout, stderr := s!"Error: {message}\n", world := w }
  | .error .crash => { exitCode := 2, stdout, stderr := "crash\n", world := w }

/-- Writes a new configuration file to the working directory. -/
def initialise (w : World) : Outcome :=
  match w.write Settings.fileName Settings.File.standard.text with
  | .ok w => { stdout := s!"Wrote {Settings.fileName}\n", world := w }
  | .error e => finish w "" (.error (.error s!"failed to write config file: {e.message}"))

/-- A command line carried out, up to a prompt that wants lines. -/
inductive Prepared where
  | finished (o : Outcome)
  | prompt (r : Repl) (greeting : String)

/-- The module that the command line names, where it comes from, and the words after it. -/
def findModule (o : Options) (w : World) (words : List String) :
    Option (Except Stop (Module × String × List String)) :=
  if o.samples then some (.ok (Samples.sampleModule, ".", words))
  else match words with
  | [] => none
  | path :: rest => some do
    return (← Stop.ofFault ModuleError.message (loadModule w path), path, rest)

/-- Runs or prints the module that the command line names. -/
def withModule (o : Options) (i : Input) (words : List String) : Prepared :=
  match findModule o i.world words with
  | none => .finished { exitCode := 2, stderr := usage, world := i.world }
  | some (.error e) => .finished (finish i.world "" (.error e))
  | some (.ok (m, source, words)) =>
    if o.dump then
      match Stop.ofCrash m.listing with
      | .ok text => .finished { stdout := text, world := i.world }
      | .error e => .finished (finish i.world "" (.error e))
    else
      let opened : Except Stop Session := do openSession (← configFor o i.world source) m
      match opened with
      | .error e => .finished (finish i.world "" (.error e))
      | .ok s =>
        if o.prompt then .prompt { session := s } (Repl.welcome m)
        else
          let (out, r) := callFunction o i.sessionName m words s
          .finished (finish i.world out r)

/-- Carries out a command line up to the lines that a prompt wants. -/
def prepare (i : Input) : Prepared :=
  match parseFlags flags i.args {} with
  | .error e =>
    match e.message? with
    | none => .finished { stderr := usage, world := i.world }
    | some message =>
      .finished { exitCode := 2, stderr := message ++ "\n" ++ usage, world := i.world }
  | .ok (o, words) =>
    if o.version then .finished { stdout := s!"mirrun version {version}\n", world := i.world }
    else if o.init then .finished (initialise i.world)
    else withModule o i words

end TieredEngine.Cli.Run

namespace TieredEngine.Cli

/-- The command that runs a module. -/
def run (i : Input) : Outcome :=
  match Run.prepare i with
  | .finished o => o
  | .prompt r greeting =>
    match Run.converse r (Run.typedLines i.stdin) with
    | .ok text => { stdout := greeting ++ text, world := i.world }
    | .error e => Run.finish i.world greeting (.error e)

end TieredEngine.Cli
