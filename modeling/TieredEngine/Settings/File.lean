import TieredEngine.Session.Config
import TieredEngine.Ship.Options
import TieredEngine.Size.Bytes

/-!
What a configuration file can say, and what it means for a session and for a compilation ahead of
time. What the file leaves out comes from the preset it names or from the defaults.
-/
namespace TieredEngine.Settings
open TieredEngine TieredEngine.Session

structure ThresholdSection where
  interpreter : Option UInt64 := none
  warm : Option UInt64 := none
  hot : Option UInt64 := none
  blazing : Option UInt64 := none
  sampleRate : Option UInt64 := none
  deriving DecidableEq, Repr

/-- Settings of a session; an empty text is not said. -/
structure SessionSection where
  thresholds : ThresholdSection := {}
  background : Option Bool := none
  checkInterval : String := ""
  maxParallel : Option Int := none
  verbosity : Option Int := none
  startInterpreted : Option Bool := none
  bailout : String := ""
  maxPromotions : Option Int := none
  regionSize : String := ""
  /-- Code generators by the name of a tier. -/
  backends : List (String × String) := []
  deriving DecidableEq, Repr

/-- Settings of compilations ahead of time. -/
structure ShipSection where
  target : String := ""
  level : String := ""
  linker : String := ""
  runtimeDir : String := ""
  sysroot : String := ""
  codegen : String := ""
  assembler : String := ""
  strip : Option Bool := none
  stripSymbols : Bool := false
  deriving DecidableEq, Repr

structure File where
  preset : String := ""
  session : SessionSection := {}
  ship : ShipSection := {}
  deriving DecidableEq, Repr

/-- Why settings cannot be used. -/
inductive SettingError where
  | preset (text : String)
  | checkInterval (cause : Time.Duration.ParseError)
  | bailout (cause : Bailout.ParseError)
  | regionSize (cause : Size.ParseError)
  | backendTier (name : String)
  | config (cause : ConfigError)
  | level (text : String)

def SettingError.message : SettingError → String
  | .preset s => Preset.unknownMessage s
  | .checkInterval e => s!"invalid check_interval: {e.message}"
  | .bailout e => e.message
  | .regionSize e => s!"invalid region_size: {e.message}"
  | .backendTier s => s!"invalid [tiered.backends] key: {Tier.unknownMessage s}"
  | .config e => e.message
  | .level s => s!"invalid [aot] opt_level: {Pass.Level.unknownMessage s}"

/-- Reads a text unless it is empty. -/
private def unlessEmpty {ε α : Type} (text : String) (standard : α) (wrap : ε → SettingError)
    (read : String → Except ε α) : Except SettingError α :=
  if text.isEmpty then .ok standard else (read text).mapError wrap

def ThresholdSection.apply (s : ThresholdSection) (t : Hotness.Thresholds) : Hotness.Thresholds :=
  ⟨s.interpreter.getD t.interpreter, s.warm.getD t.warm, s.hot.getD t.hot,
    s.blazing.getD t.blazing, s.sampleRate.getD t.sampleRate⟩

/-- Code generators by tier. -/
def backendsOf (pairs : List (String × String)) : Except SettingError (List (Tier × String)) :=
  pairs.mapM fun (name, backend) =>
    match Tier.ofName? name with
    | some t => .ok (t, backend)
    | none => .error (.backendTier name)

namespace File

/-- The configuration that the file's preset stands for. -/
def presetConfig (f : File) : Except SettingError Config :=
  if f.preset.isEmpty then .ok .standard
  else match Preset.ofName? f.preset with
  | some p => .ok p.config
  | none => .error (.preset f.preset)

/-- Configuration of a session. -/
def sessionConfig (f : File) : Except SettingError Config := do
  let base ← f.presetConfig
  let s := f.session
  let checkInterval ←
    unlessEmpty s.checkInterval base.checkInterval .checkInterval Time.Duration.parse
  let bailout ← unlessEmpty s.bailout base.bailout .bailout Bailout.parse
  let regionSize ← unlessEmpty s.regionSize base.regionSize .regionSize Size.parse
  let backends ← if s.backends.isEmpty then pure base.backends else some <$> backendsOf s.backends
  let config : Config := {
    thresholds := s.thresholds.apply base.thresholds
    background := s.background.getD base.background
    checkInterval
    maxParallel := s.maxParallel.getD base.maxParallel
    verbosity := s.verbosity.getD base.verbosity
    startInterpreted := s.startInterpreted.getD base.startInterpreted
    bailout
    maxPromotions := s.maxPromotions.getD base.maxPromotions
    backends
    regionSize }
  config.validate.mapError SettingError.config
  return config

/-- Options of a compilation ahead of time. -/
def shipOptions (f : File) : Except SettingError Ship.Options := do
  let s := f.ship
  let level ← unlessEmpty s.level .o2 .level Pass.Level.parse
  return {
    target := s.target, level, strip := s.strip.getD true, linker := s.linker
    runtimeDir := s.runtimeDir, sysroot := s.sysroot, stripSymbols := s.stripSymbols
    codegen := s.codegen, assembler := s.assembler }

/-- What a new configuration file says. -/
def standard : File := {
  preset := Preset.application.name
  session := {
    checkInterval := "100ms", bailout := "quick"
    regionSize := Size.binaryText (4 * 1024 * 1024) }
  ship := { level := "O2" } }

/-- The file's text, with a comment for each setting that it writes. -/
def text (f : File) : String :=
  let line (comment key value : String) : String := s!"# {comment}\n{key} = {Text.quoted value}\n"
  line "预设：script / application / server / benchmark / development / embedded" "preset" f.preset ++
  "\n[tiered]\n" ++
  line "后台编译检查间隔" "check_interval" f.session.checkInterval ++
  line "退出解释器策略：immediate / quick / normal / slow / off / custom:N" "bailout" f.session.bailout ++
  line "JIT 代码区域大小" "region_size" f.session.regionSize ++
  "\n[aot]\n" ++
  line "优化级别 O0-O3" "opt_level" f.ship.level ++
  line "链接器路径，为空时依次查找 clang、gcc、cc" "linker" f.ship.linker ++
  line "运行时库目录，为空时查找 MIRJIT_RUNTIME_DIR" "runtime_dir" f.ship.runtimeDir

end File

end TieredEngine.Settings
