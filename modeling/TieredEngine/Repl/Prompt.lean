import TieredEngine.Ir.Literal
import TieredEngine.Ir.Module
import TieredEngine.Session.Report
import TieredEngine.Text.Blank

/-!
The interactive prompt. A line is a call, whose result is shown with the tier the function is on
afterwards, or a command that starts with a colon. A call is the name of a function and its
arguments, blanks between them; the types of the arguments come from the function's signature. Lines
are remembered, except one that repeats the line before it.
-/
namespace TieredEngine.Repl
open TieredEngine TieredEngine.Ir

inductive CallError where
  | empty
  | unknownFunction (name : String)
  | argumentCount (name : String) (sig : Signature) (got : Nat)
  | argument (position : Nat) (e : LiteralError)

def CallError.message : CallError → String
  | .empty => "empty call"
  | .unknownFunction name => s!"unknown function {name}"
  | .argumentCount name sig got =>
    s!"{name} takes {sig.params.length} arguments {sig.text}, got {got}"
  | .argument i e => s!"argument {i}: {e.message}"

/-- Reads arguments of the given types, counting from a position. -/
def parseArguments : Nat → List Ty → List String → Except CallError (List Value)
  | i, t :: ts, s :: ss => do
    let v ← (Value.parse t s).mapError (.argument i)
    return v :: (← parseArguments (i + 1) ts ss)
  | _, _, _ => .ok []

def parseCall (m : Module) (line : String) : Except (Fault CallError) (Function × List Value) := do
  match Text.words line with
  | [] => throw (.error .empty)
  | name :: args =>
    match ← Crash.lift (m.lookup name) with
    | none => throw (.error (.unknownFunction name))
    | some f =>
      if args.length ≠ f.sig.params.length then
        throw (.error (.argumentCount f.name f.sig args.length))
      return (f, ← (parseArguments 0 f.sig.params args).mapError .error)

end TieredEngine.Repl

namespace TieredEngine
open TieredEngine.Ir

/-- A session with the lines typed so far. -/
structure Repl where
  session : Session
  history : Array String := #[]

namespace Repl

/-- Remembered lines are at most this many; the oldest go first. -/
def historyLimit : Nat := 1000

/-- What a line gives: the text to show, and whether the user wants to leave. -/
structure Reply where
  out : String := ""
  quit : Bool := false
  deriving DecidableEq, Repr

private def lines (l : List String) : String := String.join (l.map (· ++ "\n"))

def helpText : String := lines [
  "Available commands:",
  "  :help, :h, :?     Show this help message",
  "  :quit, :q, :exit  Exit the REPL",
  "  :funcs, :f        List functions with their tiers",
  "  :stats, :s        Show tiered compilation statistics",
  "  :tier <func>      Show the tier of one function",
  "  :drain, :d        Wait for queued promotions",
  "  :history, :hist   Show command history",
  "",
  "Calls:",
  "  mir> add 40 2",
  "  = i32 42 [interpreted]"]

/-- Greeting for a module. -/
def welcome (m : Module) : String := lines [
  s!"mirrun REPL: module {m.name}, {m.functions.size} functions",
  "Type :help for help, :quit to exit",
  ""]

def farewell : String := "Bye!\n"

/-- Fills up with blanks to a width. -/
def padRight (width : Nat) (s : String) : String :=
  s ++ String.ofList (List.replicate (width - s.length) ' ')

def padLeft (width : Nat) (s : String) : String :=
  String.ofList (List.replicate (width - s.length) ' ') ++ s

def remember (r : Repl) (line : String) : Repl :=
  if r.history.back? == some line then r
  else
    let all := r.history.push line
    { r with history := all.extract (all.size - historyLimit) all.size }

/-- Functions by name with their signatures and tiers. -/
def functionTable (r : Repl) (m : Module) : String :=
  let sorted := m.functions.toList.mergeSort fun a b => a.name ≤ b.name
  lines <| sorted.map fun f =>
    let mode := if f.isExternal then "extern" else (r.session.tierOf f.id).name
    s!"  {padRight 16 f.name} {f.sig.text}  {mode}"

def historyText (r : Repl) : String :=
  lines <| r.history.toList.mapIdx fun i cmd => s!"{padLeft 4 (toString (i + 1))}  {cmd}"

/-- The tier of a function and how often it was called. -/
def tierText (r : Repl) (m : Module) (name : String) : Except Crash String :=
  return match ← m.lookup name with
  | none => s!"Unknown function: {name}\n"
  | some f =>
    let calls := r.session.state.tracker.count f.id.num
    s!"{f.name}: {(r.session.tierOf f.id).name} ({calls} calls)\n"

def drain (r : Repl) : Except Crash (Reply × Repl) :=
  match r.session.drain with
  | (.ok (), session) => .ok ({ out := "Promotion queue drained.\n" }, { r with session })
  | (.error (.error e), session) => .ok ({ out := s!"Error: {e.message}\n" }, { r with session })
  | (.error (.crash c), _) => .error c

def command (r : Repl) (m : Module) (line : String) : Except Crash (Reply × Repl) := do
  let parts := Text.words line
  let name := Text.lower (parts.headD "")
  let say (out : String) : Except Crash (Reply × Repl) := return ({ out }, r)
  if [":help", ":h", ":?"].contains name then say helpText
  else if [":quit", ":q", ":exit"].contains name then return ({ quit := true }, r)
  else if [":funcs", ":f"].contains name then say (r.functionTable m)
  else if [":stats", ":s"].contains name then say (r.session.statistics.text ++ "\n")
  else if [":tier", ":t"].contains name then
    match parts[1]? with
    | none => say "Usage: :tier <function>\n"
    | some f => say (← r.tierText m f)
  else if [":drain", ":d"].contains name then r.drain
  else if [":history", ":hist"].contains name then say r.historyText
  else say s!"Unknown command: {name}\nType :help for available commands.\n"

/-- Makes the call of a line. -/
def call (r : Repl) (m : Module) (line : String) : Except Crash (Reply × Repl) :=
  match parseCall m line with
  | .error (.crash c) => .error c
  | .error (.error e) => .ok ({ out := s!"Error: {e.message}\n" }, r)
  | .ok (f, args) =>
    match r.session.call f.id args with
    | (.error (.crash c), _) => .error c
    | (.error h, session) => .ok ({ out := s!"Error: {h.message}\n" }, { r with session })
    | (.ok v, session) =>
      let shown := if v.isVoid then "()" else v.text
      .ok ({ out := s!"= {shown} [{(session.tierOf f.id).name}]\n" }, { r with session })

/-- Takes a line. A session without a module has nothing to show. -/
def eval (r : Repl) (line : String) : Except Crash (Reply × Repl) := do
  let line := Text.trim line
  if line.isEmpty then return ({}, r)
  let r := r.remember line
  let m ← Crash.deref r.session.module?
  if line.startsWith ":" then r.command m line else r.call m line

end Repl

end TieredEngine
