import TieredEngine.Hotness.Tracker
import TieredEngine.Script.Line

/-!
Scripts on call counters: lines count calls, make room, forget everything, or ask for a count, a
level, or the total.
-/
namespace TieredEngine.Script
open TieredEngine TieredEngine.Hotness

/-- What a line on call counters gives. -/
inductive Tracked where
  | count (n : UInt64)
  | level (l : Level)
  | yes (b : Bool)
  | counts (l : List (Nat × UInt64))

/-- Counts calls of one function; gives the last count, or zero if there is no call. -/
def recordTimes (id : Nat) : Nat → UInt64 → Tracker → UInt64 × Tracker
  | 0, last, t => (last, t)
  | n + 1, _, t =>
    let (c, t) := t.record id
    recordTimes id n c t

/-- Carries out a line. Functions are numbered with 32 bits and levels with eight. -/
def track (t : Tracker) (l : Line) : Reading (Tracked × Tracker) := do
  let words ← l.operands.mapM (·.asNat 64)
  match l.verb, words with
  | "record", id :: rest =>
    let (c, t) := recordTimes (id % Nat.pow 2 32) (rest.headD 1) 0 t
    return (.count c, t)
  | "count", [id] => return (.count (t.count (id % Nat.pow 2 32)), t)
  | "level", [id] => return (.level (t.levelOf (id % Nat.pow 2 32)), t)
  | "promote", [id, rank] => return (.yes (t.shouldPromote (id % Nat.pow 2 32) (rank % 256)), t)
  | "sample", [n] => return (.yes (t.thresholds.samples (UInt64.ofNat n)), t)
  | "grow", [n] => return (.yes true, t.grow n)
  | "total", [] => return (.count t.total, t)
  | "snapshot", [] => return (.counts t.snapshot, t)
  | "reset", [] => return (.yes true, t.reset)
  | _, _ => throw .malformed

end TieredEngine.Script
