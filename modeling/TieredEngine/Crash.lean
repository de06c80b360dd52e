/-!
Crashes: a computation met data that an earlier step was trusted to rule out, and gave up without
an error of its own. A crash is kept apart from every reported error, because a caller can act on
an error but not on a crash.
-/
namespace TieredEngine

inductive Crash where
  /-- A missing block or global was used as if it were there. -/
  | nullReference
  /-- A position outside a list was read or written. -/
  | outOfRange
  /-- An operation was built on operands of types it does not take. -/
  | illTyped
  deriving DecidableEq, Repr, Inhabited

/-- A result that is missing because of a reported error or of a crash. -/
inductive Fault (ε : Type) where
  | error (e : ε)
  | crash (c : Crash)
  deriving DecidableEq, Repr

/-- Reading a list at a position that was not checked. -/
def Crash.index {α : Type} (xs : List α) (i : Nat) : Except Crash α :=
  match xs[i]? with
  | some x => .ok x
  | none => .error .outOfRange

/-- Using a reference that was not checked. -/
def Crash.deref {α : Type} : Option α → Except Crash α
  | some x => .ok x
  | none => .error .nullReference

/-- A computation that can only crash, run where errors are possible too. -/
def Crash.lift {ε α : Type} : Except Crash α → Except (Fault ε) α
  | .ok a => .ok a
  | .error c => .error (.crash c)

end TieredEngine
