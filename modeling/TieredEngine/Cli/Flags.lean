import TieredEngine.Host.World
import TieredEngine.Ir.Codec.Decode
import TieredEngine.Text.Numeral
import TieredEngine.Text.Quoted

/-!
What a command is given and what it leaves behind. Of its arguments the flags come first. A flag has
one or two dashes; its value follows after an equals sign or, unless it is a switch, as the next
argument. The flags end at the first argument that is none, or after two dashes alone.
-/
namespace TieredEngine.Cli
open TieredEngine TieredEngine.Host

/-- Version of both commands. -/
def version : String := "0.1.0"

structure Input where
  /-- Arguments after the name of the program. -/
  args : List String
  stdin : String := ""
  world : World
  /-- Name given to a session. -/
  sessionName : String := ""

structure Outcome where
  exitCode : Nat := 0
  stdout : String := ""
  stderr : String := ""
  world : World

/-- Why a module file cannot be loaded. -/
inductive ModuleError where
  | file (e : FileError)
  | unreadable (e : FileError)
  | empty
  | decode (e : Ir.DecodeError)

def ModuleError.message : ModuleError → String
  | .file e => s!"failed to open module file: {e.message}"
  | .unreadable e => s!"failed to decode module: {e.message}"
  | .empty => "failed to decode module: EOF"
  | .decode e => e.moduleMessage

/-- Loads a module file. -/
def loadModule (w : World) (path : String) : Except (Fault ModuleError) Ir.Module :=
  match w.read path with
  | .error e => .error (.error (if e.problem = .isDirectory then .unreadable e else .file e))
  | .ok text =>
    if (Json.skipBlank text.toList).isEmpty then .error (.error .empty)
    else match Ir.Module.decode text with
    | .ok m => .ok m
    | .error (.error e) => .error (.error (.decode e))
    | .error (.crash c) => .error (.crash c)

/-- How a command ends early. -/
inductive Stop where
  | error (message : String)
  | crash

def Stop.ofFault {ε α : Type} (message : ε → String) : Except (Fault ε) α → Except Stop α
  | .ok a => .ok a
  | .error (.error e) => .error (.error (message e))
  | .error (.crash _) => .error .crash

def Stop.ofCrash {α : Type} : Except Crash α → Except Stop α
  | .ok a => .ok a
  | .error _ => .error .crash

end TieredEngine.Cli

namespace TieredEngine.Cli
open TieredEngine

/-- How a flag's value is stored. -/
inductive Setter (σ : Type) where
  | switch (put : Bool → σ → σ)
  | number (standard : Int) (put : Int → σ → σ)
  | text (put : String → σ → σ)

structure Flag (σ : Type) where
  name : String
  usage : String
  setter : Setter σ

inductive FlagError where
  | help
  | malformed (arg : String)
  | unknown (name : String)
  | switchValue (name value : String)
  | noValue (name : String)
  | value (name value : String) (cause : Text.NumeralError)

/-- What is said about a number that cannot be read. -/
def valueCause : Text.NumeralError → String
  | .malformed => "parse error"
  | .outOfRange => "value out of range"

/-- The wording; a request for help has none. -/
def FlagError.message? : FlagError → Option String
  | .help => none
  | .malformed arg => some s!"bad flag syntax: {arg}"
  | .unknown name => some s!"flag provided but not defined: -{name}"
  | .switchValue name given =>
    some s!"invalid boolean value {Text.quoted given} for -{name}: parse error"
  | .noValue name => some s!"flag needs an argument: -{name}"
  | .value name given cause =>
    some s!"invalid value {Text.quoted given} for flag -{name}: {valueCause cause}"

/-- Reads a truth value. -/
def switchValue? (s : String) : Option Bool :=
  if ["1", "t", "T", "true", "TRUE", "True"].contains s then some true
  else if ["0", "f", "F", "false", "FALSE", "False"].contains s then some false
  else none

/-- What an argument is. -/
inductive ArgShape where
  | plain
  | endOfFlags
  | flag (name : String) (value : Option String)
  | malformed

/-- Splits a flag at the first equals sign after the first character of its name. -/
def argShape (arg : String) : ArgShape :=
  match arg.toList with
  | ['-', '-'] => .endOfFlags
  | '-' :: c :: rest =>
    match if c == '-' then rest else c :: rest with
    | [] => .malformed
    | d :: more =>
      if d == '-' || d == '=' then .malformed
      else
        let name := String.ofList (d :: more.takeWhile (· != '='))
        match more.dropWhile (· != '=') with
        | [] => .flag name none
        | _ :: value => .flag name (some (String.ofList value))
  | _ => .plain

/-- Stores the value of a flag. -/
def Flag.store {σ : Type} (f : Flag σ) (value : String) (s : σ) : Except FlagError σ :=
  match f.setter with
  | .switch put =>
    match switchValue? value with
    | some b => .ok (put b s)
    | none => .error (.switchValue f.name value)
  | .number _ put =>
    match Text.signedLiteral 64 value.toList with
    | .ok n => .ok (put n s)
    | .error e => .error (.value f.name value e)
  | .text put => .ok (put value s)

def Flag.isSwitch {σ : Type} (f : Flag σ) : Bool := f.setter matches .switch _

/-- Reads the flags of a command line; what follows them is given back. -/
def parseFlags {σ : Type} (flags : List (Flag σ)) :
    List String → σ → Except FlagError (σ × List String)
  | [], s => .ok (s, [])
  | arg :: rest, s =>
    match argShape arg with
    | .plain => .ok (s, arg :: rest)
    | .endOfFlags => .ok (s, rest)
    | .malformed => .error (.malformed arg)
    | .flag name value =>
      match flags.find? (·.name == name) with
      | none => .error (if name == "help" || name == "h" then .help else .unknown name)
      | some f =>
        match value with
        | some v => do parseFlags flags rest (← f.store v s)
        | none =>
          if f.isSwitch then do parseFlags flags rest (← f.store "true" s)
          else match rest with
          | v :: rest => do parseFlags flags rest (← f.store v s)
          | [] => .error (.noValue name)

/-- The flag and its use, on two lines. A number that is not zero by itself is shown. -/
def Flag.help {σ : Type} (f : Flag σ) : String :=
  let (kind, standard) := match f.setter with
    | .switch _ => ("", "")
    | .number n _ => (" int", if n = 0 then "" else s!" (default {n})")
    | .text _ => (" string", "")
  s!"  -{f.name}{kind}\n    \t{f.usage}{standard}\n"

end TieredEngine.Cli
