/-!
How often a function has been called decides how hot it is. Four ascending thresholds bound the
levels; a count equal to a threshold belongs to the level above it, and a function that was never
called is not hot whatever the thresholds say. The sample rate says how often a call looks at the
level at all. Calls are counted by the numbers of functions: the table grows when a larger number is
counted, and counters wrap at sixty-four bits.
-/
namespace TieredEngine.Hotness

/-- Levels in ascending order. -/
inductive Level where
  | interpreted | cold | warm | hot | blazing
  deriving DecidableEq, Repr

namespace Level

def all : List Level := [interpreted, cold, warm, hot, blazing]

def name : Level → String
  | interpreted => "interpreted"
  | cold => "cold"
  | warm => "warm"
  | hot => "hot"
  | blazing => "blazing"

def rank : Level → Nat
  | interpreted => 0
  | cold => 1
  | warm => 2
  | hot => 3
  | blazing => 4

/-- Name shown for a number, which need not be a level's. -/
def codeName (n : Nat) : String := (all[n]?.map name).getD s!"level({n})"

end Level

structure Thresholds where
  interpreter : UInt64
  warm : UInt64
  hot : UInt64
  blazing : UInt64
  sampleRate : UInt64
  deriving DecidableEq, Repr

/-- A threshold no count goes beyond. -/
def unreachable : UInt64 := 0xFFFFFFFFFFFFFFFF

namespace Thresholds

def standard : Thresholds := ⟨10, 100, 1000, 10000, 1⟩
def development : Thresholds := ⟨3, 10, 100, 500, 1⟩
def production : Thresholds := ⟨50, 1000, 10000, 100000, 10⟩
def never : Thresholds := ⟨unreachable, unreachable, unreachable, unreachable, unreachable⟩

def isAscending (t : Thresholds) : Bool :=
  t.interpreter ≤ t.warm && t.warm ≤ t.hot && t.hot ≤ t.blazing

def notAscendingMessage (t : Thresholds) : String :=
  s!"thresholds must be ascending: interpreter={t.interpreter} warm={t.warm} hot={t.hot} " ++
  s!"blazing={t.blazing}"

/-- The level of a call count. -/
def classify (t : Thresholds) (count : UInt64) : Level :=
  if count = 0 then .interpreted
  else if t.blazing ≤ count then .blazing
  else if t.hot ≤ count then .hot
  else if t.warm ≤ count then .warm
  else if t.interpreter ≤ count then .cold
  else .interpreted

/-- Whether the call with this count looks at the level. Rates zero and one mean every call, the
largest rate means none. -/
def samples (t : Thresholds) (count : UInt64) : Bool :=
  if t.sampleRate ≤ 1 then true
  else if t.sampleRate = unreachable then false
  else count % t.sampleRate == 0

end Thresholds

structure Tracker where
  thresholds : Thresholds
  counts : Array UInt64 := #[]
  total : UInt64 := 0
  deriving DecidableEq, Repr

namespace Tracker

/-- Makes room for at least `n` counters. -/
def grow (t : Tracker) (n : Nat) : Tracker :=
  { t with counts := t.counts ++ Array.replicate (n - t.counts.size) 0 }

def count (t : Tracker) (id : Nat) : UInt64 := t.counts[id]?.getD 0

/-- Counts a call; gives the new count. -/
def record (t : Tracker) (id : Nat) : UInt64 × Tracker :=
  let t := t.grow (id + 1)
  let n := t.count id + 1
  (n, { t with counts := t.counts.setIfInBounds id n, total := t.total + 1 })

def levelOf (t : Tracker) (id : Nat) : Level := t.thresholds.classify (t.count id)

/-- Whether the level is now above the given rank. -/
def shouldPromote (t : Tracker) (id fromRank : Nat) : Bool := fromRank < (t.levelOf id).rank

/-- Counters that are not zero, by number. -/
def snapshot (t : Tracker) : List (Nat × UInt64) :=
  (t.counts.toList.mapIdx fun i n => (i, n)).filter (·.2 != 0)

def reset (t : Tracker) : Tracker := { t with counts := t.counts.map fun _ => 0, total := 0 }

end Tracker

end TieredEngine.Hotness
