import TieredEngine.Session.Tier
import TieredEngine.Time.Duration
import TieredEngine.Text.Blank

/-!
Configuration of a session, its checks, and presets for common workloads.
-/
namespace TieredEngine.Session
open TieredEngine TieredEngine.Time

/-- Name of the built-in code generator. -/
def x64BackendName : String := "x64-baseline"

structure Config where
  thresholds : Hotness.Thresholds
  /-- Promotions are queued and compiled later. -/
  background : Bool := false
  checkInterval : Duration := 0
  maxParallel : Int := 0
  verbosity : Int := 0
  /-- Otherwise every function is compiled when the module is registered. -/
  startInterpreted : Bool := false
  bailout : Bailout := .off
  /-- Promotions per function. -/
  maxPromotions : Int := 0
  /-- Code generators by tier; `none` when not said. -/
  backends : Option (List (Tier × String)) := none
  regionSize : Int := 0

def defaultBackends : List (Tier × String) := Tier.compiled.map (·, x64BackendName)

/-- Why a configuration is refused. -/
inductive ConfigError where
  | thresholds (t : Hotness.Thresholds)
  | maxParallel (n : Int)
  | maxPromotions (n : Int)
  | checkInterval (d : Duration)
  | backendTier (t : Tier)

def ConfigError.message : ConfigError → String
  | .thresholds t => t.notAscendingMessage
  | .maxParallel n => s!"max parallel optimizations must not be negative, got {n}"
  | .maxPromotions n => s!"max tier promotions must not be negative, got {n}"
  | .checkInterval d => s!"optimization check interval must be positive, got {d.text}"
  | .backendTier t => s!"tier {t.name} cannot have a backend"

/-- What is said when a session cannot be opened. -/
def ConfigError.openMessage (e : ConfigError) : String := s!"invalid tiered config: {e.message}"

namespace Config

def validate (c : Config) : Except ConfigError Unit := do
  if !c.thresholds.isAscending then throw (.thresholds c.thresholds)
  if c.maxParallel < 0 then throw (.maxParallel c.maxParallel)
  if c.maxPromotions < 0 then throw (.maxPromotions c.maxPromotions)
  if c.background && c.checkInterval ≤ 0 then throw (.checkInterval c.checkInterval)
  match (c.backends.getD []).find? (·.1 == .interpreted) with
  | some (t, _) => throw (.backendTier t)
  | none => return ()

def standard : Config := {
  thresholds := .standard
  background := true
  checkInterval := .ofNat (100 * Duration.millisecond)
  maxParallel := 4
  startInterpreted := true
  bailout := .quick
  maxPromotions := 10
  backends := some defaultBackends }

def production : Config :=
  { standard with
    thresholds := .production, checkInterval := .ofNat Duration.second, maxParallel := 8 }

/-- Skips the interpreter. -/
def compiledOnly : Config := { standard with startInterpreted := false }

end Config

/-- Workloads with a configuration of their own. -/
inductive Preset where
  | script | application | server | benchmark | development | embedded
  deriving DecidableEq, Repr

namespace Preset

def all : List Preset := [script, application, server, benchmark, development, embedded]

def name : Preset → String
  | script => "script"
  | application => "application"
  | server => "server"
  | benchmark => "benchmark"
  | development => "development"
  | embedded => "embedded"

/-- Reads a name in any case, with blanks around. -/
def ofName? (s : String) : Option Preset :=
  let l := Text.lower (Text.trim s)
  all.find? (·.name == l)

def unknownMessage (s : String) : String := s!"unknown preset {Text.quoted s}"

def config : Preset → Config
  | script => { Config.standard with
      thresholds := ⟨5, 50, 200, Hotness.unreachable, 1⟩
      background := false
      checkInterval := .ofNat (50 * Duration.millisecond)
      maxParallel := 2
      maxPromotions := 4 }
  | application => { Config.standard with thresholds := ⟨10, 100, 500, 2000, 1⟩ }
  | server => { Config.standard with
      thresholds := ⟨5, 50, 200, 500, 1⟩
      checkInterval := .ofNat (50 * Duration.millisecond)
      maxParallel := 8
      bailout := .immediate
      maxPromotions := 15 }
  | benchmark => { Config.standard with
      thresholds := ⟨2, 3, 5, Hotness.unreachable, 1⟩
      background := false
      checkInterval := .ofNat Duration.millisecond
      verbosity := 1
      bailout := .immediate
      maxPromotions := 8 }
  | development => { Config.standard with
      thresholds := .development
      checkInterval := .ofNat (50 * Duration.millisecond)
      maxParallel := 2
      verbosity := 2
      bailout := .immediate
      maxPromotions := 6 }
  | embedded => { Config.standard with
      thresholds := .never
      background := false
      checkInterval := Duration.longest
      maxParallel := 0
      bailout := .slow
      maxPromotions := 0 }

end Preset

/-- Names of the severities shown at a verbosity. -/
def verbosityName (n : Int) : String :=
  if n ≤ 0 then "warn" else if n = 1 then "info" else "debug"

end TieredEngine.Session
