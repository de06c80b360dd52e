import TieredEngine.Cli.Build
import TieredEngine.Cli.Run

/-!
The commands on a real machine. The program is called `mirc` to compile modules and `mirrun` to run
them. It takes a snapshot of the files that a command line can speak of, lets the command work on
it, and writes back what changed. Outside tools are not part of the snapshot.
-/
namespace TieredEngine.Main
open TieredEngine TieredEngine.Host

/-- Paths that arguments can speak of: the arguments, and what follows an equals sign in them. -/
def spokenOf (args : List String) : List String :=
  args.flatMap fun a => a :: ((Text.cut '=' a).2).toList

/-- A path and the configuration files beside it and above it. -/
def wanted (w : World) (path : String) : List String :=
  path :: (World.chain (Path.dir (w.absolute path))).map fun dir => dir ++ "/" ++ Settings.fileName

/-- Adds a file to the snapshot if it can be read. -/
def take (w : World) (path : String) : IO World := do
  try
    let text ← IO.FS.readFile path
    return w.withFile path text
  catch _ => return w

/-- The files that a command line can speak of. -/
def snapshot (args : List String) : IO World := do
  let workDir := (← IO.currentDir).toString
  let tag := toString (← IO.monoNanosNow)
  let runtimeDir := (← IO.getEnv Ship.Toolchain.runtimeVariable).getD ""
  let w : World := { workDir, tempTag := tag, runtimeDir }
  let w := w.withFile (workDir ++ "/") ""
  ((spokenOf args ++ ["."]).flatMap (wanted w)).eraseDups.foldlM take w

/-- Writes the files that a command made or changed. -/
def writeBack (old new : World) : IO Unit := do
  for (path, e) in new.entries do
    match e with
    | .file text =>
      if (old.read path).toOption != some text then
        IO.FS.createDirAll (Path.dir path)
        IO.FS.writeFile path text
    | _ => pure ()

/-- A name for a session. -/
def sessionName : IO String := do
  let part (digits : Nat) : IO String := do
    return Text.hexPadded digits (← IO.rand 0 (Nat.pow 16 digits - 1))
  return String.intercalate "-" [← part 8, ← part 4, ← part 4, ← part 4, ← part 12]

/-- Talks to the user until a line asks to leave or there are no more lines. -/
def talk (start : Repl) : IO UInt32 := do
  let stdin ← IO.getStdin
  let mut r := start
  let mut line ← stdin.getLine
  while !line.isEmpty do
    match r.eval line with
    | .error _ =>
      IO.eprint "crash\n"
      return 2
    | .ok (reply, next) =>
      IO.print reply.out
      if reply.quit then break
      r := next
      line ← stdin.getLine
  IO.print Repl.farewell
  return 0

/-- Prints what a command said and keeps what it wrote. -/
def settle (old : World) (o : Cli.Outcome) : IO UInt32 := do
  writeBack old o.world
  IO.print o.stdout
  IO.eprint o.stderr
  return UInt32.ofNat o.exitCode

end TieredEngine.Main

open TieredEngine TieredEngine.Main in
def main (args : List String) : IO UInt32 := do
  let world ← snapshot args
  let input : Cli.Input := { args, world, sessionName := ← sessionName }
  if Path.base (← IO.appPath).toString == "mirc" then settle world (Cli.build input)
  else match Cli.Run.prepare input with
  | .finished o => settle world o
  | .prompt r greeting =>
    IO.print greeting
    talk r
