import TieredEngine.Pass.ConstFold
import TieredEngine.Pass.CopyProp
import TieredEngine.Pass.Removal
import TieredEngine.Text.Blank
import TieredEngine.Text.Case
import TieredEngine.Text.Quoted

/-!
Optimisation levels and pipelines of passes. A pipeline runs its passes in order, a bounded number
of times, and stops early when a whole round changes nothing. Declarations are not touched.
-/
namespace TieredEngine.Pass
open TieredEngine TieredEngine.Ir

/-- The passes that a pipeline can have. -/
inductive Kind where
  | constFold | copyProp | unreachable | deadCode
  deriving DecidableEq, Repr

namespace Kind

def name : Kind → String
  | constFold => "constfold"
  | copyProp => "copyprop"
  | unreachable => "unreachable"
  | deadCode => "dce"

def ofName? (s : String) : Option Kind :=
  [constFold, copyProp, unreachable, deadCode].find? (·.name == s)

/-- The changed function, and whether anything changed. -/
def run : Kind → Function → Except Crash (Function × Bool)
  | constFold => ConstFold.run
  | copyProp => CopyProp.run
  | unreachable => Unreachable.run
  | deadCode => DeadCode.run

end Kind

/-- How hard to optimise; any whole number is allowed, from zero down nothing is done. -/
structure Level where
  value : Int
  deriving DecidableEq, Repr

namespace Level

def o0 : Level := ⟨0⟩
def o1 : Level := ⟨1⟩
def o2 : Level := ⟨2⟩
def o3 : Level := ⟨3⟩

def name (l : Level) : String := s!"O{l.value}"

/-- Reads `O2`, `o2` or `2`, with blanks around; an error holds the text that was looked at. -/
def parse (s : String) : Except String Level :=
  let upper := Text.upper (Text.trim s)
  let digits := (Text.dropLeading? "O" upper).getD upper
  match digits with
  | "0" => .ok o0
  | "1" => .ok o1
  | "2" => .ok o2
  | "3" => .ok o3
  | _ => .error digits

def unknownMessage (s : String) : String := s!"unknown optimization level {Text.quoted s}"

end Level

structure Pipeline where
  passes : List Kind
  rounds : Nat
  deriving DecidableEq, Repr

/-- A pipeline runs at least one round. -/
def Pipeline.ofPasses (passes : List Kind) (rounds : Int) : Pipeline := ⟨passes, max rounds.toNat 1⟩

def Pipeline.forLevel (l : Level) : Pipeline :=
  if l.value ≤ 0 then ⟨[], 1⟩
  else if l.value = 1 then ⟨[.constFold, .deadCode], 1⟩
  else ⟨[.constFold, .copyProp, .unreachable, .deadCode], if 3 ≤ l.value then 8 else 1⟩

/-- What a pipeline did: the passes run, and the runs that changed something, the last one first. -/
structure Report where
  passesRun : Nat := 0
  changes : List Kind := []
  deriving DecidableEq, Repr

def Report.countOf (r : Report) (p : Kind) : Nat := r.changes.count p

namespace Pipeline

/-- State of a run on one function: the function, the report, whether this round changed it. -/
structure Progress where
  function : Function
  report : Report
  changed : Bool := false

def step (s : Progress) (p : Kind) : Except Crash Progress := do
  let (function, changed) ← p.run s.function
  let report := { s.report with
    passesRun := s.report.passesRun + 1
    changes := if changed then p :: s.report.changes else s.report.changes }
  return { function, report, changed := s.changed || changed }

def round (pl : Pipeline) (f : Function) (r : Report) : Except Crash Progress :=
  pl.passes.foldlM step { function := f, report := r }

def repeatRounds (pl : Pipeline) : Nat → Progress → Except Crash Progress
  | 0, s => .ok s
  | n + 1, s => do
    let t ← pl.round s.function s.report
    if t.changed then repeatRounds pl n { t with changed := true }
    else return { t with changed := s.changed }

/-- Runs on one function. -/
def runFunction (pl : Pipeline) (f : Function) (r : Report) : Except Crash Progress :=
  if f.isExternal then .ok { function := f, report := r }
  else repeatRounds pl pl.rounds { function := f, report := r }

/-- Runs on all functions of a module; says also whether any of them changed. -/
def runModule (pl : Pipeline) (m : Module) : Except Crash (Module × Report × Bool) := do
  let (fs, report, changed) ← m.functions.toList.foldlM (fun (fs, r, c) f => do
    let s ← pl.runFunction f r
    return (fs.push s.function, s.report, c || s.changed)) (#[], ({} : Report), false)
  return ({ m with functions := fs }, report, changed)

end Pipeline

/-- A module can be copied when no block and no global is missing. -/
def checkCopyable (m : Module) : Except Crash Unit := do
  let _ ← m.globals.toList.mapM Crash.deref
  let _ ← m.functions.toList.mapM Function.allBlocks
  return ()

end TieredEngine.Pass
