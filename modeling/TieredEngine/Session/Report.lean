import TieredEngine.Json.Doc
import TieredEngine.Session.Run

/-!
Statistics of a session, and session data as JSON: configurations, and statistics in a short form and in
the form that is printed for people, which names the tiers. Functions without a body are not counted
under any tier.
-/
namespace TieredEngine.Session
open TieredEngine TieredEngine.Json TieredEngine.Native

structure Statistics where
  /-- Functions on each tier, in the order of the tiers. -/
  perTier : List Nat
  queued : Nat
  /-- Compilations under way; between operations there are none. -/
  optimizing : Nat := 0
  promotions : Nat
  failures : Nat
  calls : UInt64
  memory : MemoryStats
  deriving DecidableEq, Repr

def statistics (s : Session) : Statistics :=
  let slots := ((s.state.program.map (·.slots.toList)).getD []).filter (!·.function.isExternal)
  { perTier := Tier.all.map fun t => slots.countP (·.tier == t)
    queued := s.state.queue.length
    promotions := s.state.promotions
    failures := s.state.failures
    calls := s.state.tracker.total
    memory := s.state.manager.stats }

/-- Headings of the tiers in the summary. -/
def tierHeadings : List String :=
  ["Interpreted (P0)", "Baseline (P1)", "Standard (P2)", "Optimized (P3)", "Maximum (P4)"]

/-- A summary in two lines. -/
def Statistics.text (st : Statistics) : String :=
  let tiers := Text.commas ((st.perTier.zip tierHeadings).map fun (n, h) => s!"{n} {h}")
  s!"Tiered Compilation: {tiers}\nQueue: {st.queued} waiting, {st.optimizing} optimizing"

private def decimal (n : UInt64) : Doc := .str (toString n)

/-- Thresholds as texts, since they may be larger than numbers of JSON are trusted to be. -/
def thresholdsDoc (t : Hotness.Thresholds) : Doc :=
  .arr ([t.interpreter, t.warm, t.hot, t.blazing, t.sampleRate].map decimal)

def Config.doc (c : Config) : Doc := .obj [
  ("thresholds", thresholdsDoc c.thresholds), ("background", .bool c.background),
  ("interval_ns", .str (toString c.checkInterval)), ("interval", .str c.checkInterval.text),
  ("max_parallel", .ofInt c.maxParallel), ("verbosity", .ofInt c.verbosity),
  ("start_interpreted", .bool c.startInterpreted), ("bailout", .str c.bailout.name),
  ("max_promotions", .ofInt c.maxPromotions), ("region_size", .ofInt c.regionSize),
  ("backends", .obj ((c.backends.getD []).map fun (t, b) => (t.name, .str b)))]

def memoryDoc (s : MemoryStats) : Doc := .obj [
  ("regions", .ofNat s.regions), ("reserved", .ofNat s.reserved), ("used", .ofNat s.used),
  ("functions", .ofNat s.functions), ("batches", .ofNat s.batches)]

/-- Calls by function, those without any left out. -/
def callCounts (counts : List (Nat × UInt64)) : Doc :=
  .obj (counts.map fun (i, n) => (toString i, .ofNat n.toNat))

/-- Members of the short form. -/
def Statistics.members (st : Statistics) : List (String × Doc) := [
  ("per_tier", .arr (st.perTier.map .ofNat)), ("queued", .ofNat st.queued),
  ("optimizing", .ofNat st.optimizing), ("promotions", .ofNat st.promotions),
  ("failures", .ofNat st.failures), ("calls", .ofNat st.calls.toNat),
  ("memory", memoryDoc st.memory), ("format", .str st.text)]

/-- Statistics under a session's name. -/
def Statistics.report (st : Statistics) (name : String) : Doc :=
  let tiers := Tier.all.zip st.perTier |>.map fun (t, n) => (t.name, Doc.ofNat n)
  .obj <| ("session", .str name) :: tiers ++ [
    ("queued", .ofNat st.queued), ("optimizing", .ofNat st.optimizing),
    ("promotions", .ofNat st.promotions), ("failures", .ofNat st.failures),
    ("calls", .ofNat st.calls.toNat),
    ("memory", .obj [
      ("Regions", .ofNat st.memory.regions), ("Reserved", .ofNat st.memory.reserved),
      ("Used", .ofNat st.memory.used), ("Functions", .ofNat st.memory.functions),
      ("Batches", .ofNat st.memory.batches)])]

end TieredEngine.Session
