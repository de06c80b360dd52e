import TieredEngine.Settings.File

/-!
The names that a configuration file can have, table by table, and the settings they stand for. Case
of letters does not matter, except in the names of code generators.
-/
namespace TieredEngine.Settings
open TieredEngine

/-- The tables that a document can have. -/
inductive Section where
  | root | session | thresholds | backends | ship
  deriving DecidableEq, Repr

/-- A table as messages name its type. -/
def Section.label : Section → String
  | root => "config.File"
  | session => "config.TieredSection"
  | thresholds => "config.ThresholdSection"
  | backends => "map[string]string"
  | ship => "config.AOTSection"

/-- A setting of a file: what is said of it, if anything, and how to say it. -/
structure Setting (α : Type) where
  get? : File → Option α
  put : α → File → File

namespace Setting

/-- Says a value where nothing is said yet. -/
def touch {α : Type} (s : Setting α) (v : α) (f : File) : File :=
  if (s.get? f).isSome then f else s.put v f

def ofSession {α : Type} (get? : SessionSection → Option α)
    (put : α → SessionSection → SessionSection) : Setting α where
  get? f := get? f.session
  put v f := { f with session := put v f.session }

def ofThresholds {α : Type} (get? : ThresholdSection → Option α)
    (put : α → ThresholdSection → ThresholdSection) : Setting α :=
  ofSession (fun s => get? s.thresholds) fun v s => { s with thresholds := put v s.thresholds }

def ofShip {α : Type} (get? : ShipSection → Option α) (put : α → ShipSection → ShipSection) :
    Setting α where
  get? f := get? f.ship
  put v f := { f with ship := put v f.ship }

/-- The code generator of a name, put in place of the one before. -/
def backend (name : String) : Setting String :=
  ofSession (·.backends.lookup name) fun v s =>
    { s with backends := s.backends.filter (·.1 != name) ++ [(name, v)] }

end Setting

/-- Where a name leads: to a table, or to a setting of some type. -/
inductive Slot where
  | table (s : Section)
  | text (s : Setting String)
  | flag (s : Setting Bool)
  | whole (s : Setting Int)
  | count (s : Setting UInt64)

namespace Slot

/-- The kind of a slot as messages name it. -/
def kind : Slot → String
  | table .backends => "map"
  | table _ => "struct"
  | text _ => "string"
  | flag _ => "bool"
  | whole _ => "int"
  | count _ => "uint64"

/-- Says the empty value of a setting of which nothing is said. -/
def touch : Slot → File → File
  | table _, f => f
  | text s, f => s.touch "" f
  | flag s, f => s.touch false f
  | whole s, f => s.touch 0 f
  | count s, f => s.touch 0 f

end Slot

/-- A name of a table, with what messages call the setting and its type. -/
structure Field where
  owner : Section
  member : String
  type : String
  slot : Slot

/-- What a name of a table stands for. -/
def Section.field? (table : Section) (name : String) : Option Field :=
  let leads (member : String) (s : Section) := some ⟨table, member, s.label, .table s⟩
  let text (member : String) (s : Setting String) := some ⟨table, member, "string", .text s⟩
  let flag (member : String) (s : Setting Bool) := some ⟨table, member, "*bool", .flag s⟩
  let whole (member : String) (s : Setting Int) := some ⟨table, member, "*int", .whole s⟩
  let count (member : String) (s : Setting UInt64) := some ⟨table, member, "*uint64", .count s⟩
  match table with
  | .root =>
    match Text.lower name with
    | "preset" => text "Preset" ⟨fun f => some f.preset, fun v f => { f with preset := v }⟩
    | "tiered" => leads "Tiered" .session
    | "aot" => leads "AOT" .ship
    | _ => none
  | .session =>
    match Text.lower name with
    | "thresholds" => leads "Thresholds" .thresholds
    | "background" =>
      flag "Background" (.ofSession (·.background) fun v s => { s with background := v })
    | "check_interval" =>
      text "CheckInterval"
        (.ofSession (some ·.checkInterval) fun v s => { s with checkInterval := v })
    | "max_parallel" =>
      whole "MaxParallel" (.ofSession (·.maxParallel) fun v s => { s with maxParallel := v })
    | "verbosity" =>
      whole "Verbosity" (.ofSession (·.verbosity) fun v s => { s with verbosity := v })
    | "start_interpreted" =>
      flag "StartInterpreted"
        (.ofSession (·.startInterpreted) fun v s => { s with startInterpreted := v })
    | "bailout" => text "Bailout" (.ofSession (some ·.bailout) fun v s => { s with bailout := v })
    | "max_promotions" =>
      whole "MaxPromotions" (.ofSession (·.maxPromotions) fun v s => { s with maxPromotions := v })
    | "region_size" =>
      text "RegionSize" (.ofSession (some ·.regionSize) fun v s => { s with regionSize := v })
    | "backends" => leads "Backends" .backends
    | _ => none
  | .thresholds =>
    match Text.lower name with
    | "interpreter" =>
      count "Interpreter" (.ofThresholds (·.interpreter) fun v s => { s with interpreter := v })
    | "warm" => count "Warm" (.ofThresholds (·.warm) fun v s => { s with warm := v })
    | "hot" => count "Hot" (.ofThresholds (·.hot) fun v s => { s with hot := v })
    | "blazing" => count "Blazing" (.ofThresholds (·.blazing) fun v s => { s with blazing := v })
    | "sample_rate" =>
      count "SampleRate" (.ofThresholds (·.sampleRate) fun v s => { s with sampleRate := v })
    | _ => none
  | .backends =>
    some ⟨.session, "Backends", Section.backends.label, .text (.backend name)⟩
  | .ship =>
    match Text.lower name with
    | "target" => text "Target" (.ofShip (some ·.target) fun v s => { s with target := v })
    | "opt_level" => text "OptLevel" (.ofShip (some ·.level) fun v s => { s with level := v })
    | "linker" => text "Linker" (.ofShip (some ·.linker) fun v s => { s with linker := v })
    | "runtime_dir" =>
      text "RuntimeDir" (.ofShip (some ·.runtimeDir) fun v s => { s with runtimeDir := v })
    | "sysroot" => text "Sysroot" (.ofShip (some ·.sysroot) fun v s => { s with sysroot := v })
    | "llc" => text "LLC" (.ofShip (some ·.codegen) fun v s => { s with codegen := v })
    | "llvm_as" => text "LLVMAs" (.ofShip (some ·.assembler) fun v s => { s with assembler := v })
    | "strip" => flag "Strip" (.ofShip (·.strip) fun v s => { s with strip := v })
    | "strip_symbols" =>
      some ⟨table, "StripSymbols", "bool",
        .flag (.ofShip (some ·.stripSymbols) fun v s => { s with stripSymbols := v })⟩
    | _ => none

end TieredEngine.Settings
