import TieredEngine.Hotness.Tracker
import TieredEngine.Pass.Pipeline
import TieredEngine.Text.Case
import TieredEngine.Text.Numeral

/-!
Execution tiers and the rule for leaving the interpreter early. Every level of heat has its tier,
and every compiled tier the optimisation level its code is prepared with.
-/
namespace TieredEngine.Session
open TieredEngine

/-- Tiers in ascending order. -/
inductive Tier where
  | interpreted | baseline | standard | optimized | maximum
  deriving DecidableEq, Repr

namespace Tier

def all : List Tier := [interpreted, baseline, standard, optimized, maximum]

/-- Tiers that run machine code. -/
def compiled : List Tier := [baseline, standard, optimized, maximum]

def name : Tier → String
  | interpreted => "interpreted"
  | baseline => "baseline"
  | standard => "standard"
  | optimized => "optimized"
  | maximum => "maximum"

def rank : Tier → Nat
  | interpreted => 0
  | baseline => 1
  | standard => 2
  | optimized => 3
  | maximum => 4

/-- Name shown for a number, which need not be a tier's. -/
def codeName (n : Nat) : String := (all[n]?.map name).getD s!"tier({n})"

/-- Reads a name in any case. -/
def ofName? (s : String) : Option Tier :=
  let l := Text.lower s
  all.find? (·.name == l)

def unknownMessage (s : String) : String := s!"unknown tier {Text.quoted s}"

/-- The tier that a level of heat calls for. -/
def forLevel : Hotness.Level → Tier
  | .interpreted => interpreted
  | .cold => baseline
  | .warm => standard
  | .hot => optimized
  | .blazing => maximum

def optLevel : Tier → Pass.Level
  | interpreted | baseline => .o0
  | standard => .o1
  | optimized => .o2
  | maximum => .o3

end Tier

/-- A single interpreted call that enters more blocks than this asks for baseline code; zero turns
the rule off. -/
structure Bailout where
  blocks : UInt64
  deriving DecidableEq, Repr

namespace Bailout

def off : Bailout := ⟨0⟩
def immediate : Bailout := ⟨10⟩
def quick : Bailout := ⟨100⟩
def normal : Bailout := ⟨1000⟩
def slow : Bailout := ⟨10000⟩

def exceeded (b : Bailout) (blocks : UInt64) : Bool := b.blocks != 0 && b.blocks < blocks

def named : List (String × Bailout) :=
  [("off", off), ("immediate", immediate), ("quick", quick), ("normal", normal), ("slow", slow)]

def name (b : Bailout) : String :=
  match named.find? (·.2 == b) with
  | some (n, _) => n
  | none => s!"custom:{b.blocks}"

inductive ParseError where
  | unknown (text : String)
  | custom (text : String) (e : Text.NumeralError)
  deriving DecidableEq, Repr

def ParseError.message : ParseError → String
  | .unknown s => s!"unknown bailout strategy {Text.quoted s}"
  | .custom s e =>
    let q := Text.quoted s
    s!"invalid custom bailout {q}: strconv.ParseUint: parsing {q}: {e.message}"

/-- Reads one of the names or `custom:N`, in any case and with blanks around. -/
def parse (text : String) : Except ParseError Bailout :=
  let s := Text.lower (Text.trim text)
  match named.find? (·.1 == s) with
  | some (_, b) => .ok b
  | none =>
    match Text.dropLeading? "custom:" s with
    | none => .error (.unknown s)
    | some n =>
      match Text.unsignedDecimal 64 n.toList with
      | .ok v => .ok ⟨UInt64.ofNat v⟩
      | .error e => .error (.custom n e)

end Bailout

end TieredEngine.Session
