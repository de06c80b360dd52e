import TieredEngine.Session.Promotion

/-!
Promotions of one function that several callers ask for at the same time. A caller goes through the
checks and the steps of a promotion one access at a time, and between any two of them the others may
go on. What they share is the slot of the function and whether the session still promotes; accesses
are atomic, and all callers see them in one order.

A promotion that waits in the queue keeps the place of the caller that queued it: whoever takes it
off the queue goes on from there, and a caller that goes on with calls meanwhile counts as another.
-/
namespace TieredEngine.Session
open TieredEngine TieredEngine.Native

/-- What callers of one function share. -/
structure Shared where
  slot : Slot
  /-- A failure has ended all promotions. -/
  ended : Bool := false
  closed : Bool := false

/-- What a caller does next. -/
inductive Stage where
  /-- Nothing; it may ask for a promotion. -/
  | idle
  /-- Looks whether promotions have ended. -/
  | asked (target : Tier)
  /-- Looks whether the session is open, and whether the function can have code at all. -/
  | admitted (target : Tier)
  /-- Compares the promotions of the function with the cap. -/
  | possible (target : Tier)
  /-- Compares the target with the tiers that had no code. -/
  | counted (target : Tier)
  /-- Compares the target with the tier of the function. -/
  | untried (target : Tier)
  /-- Takes the function if nobody has it. -/
  | higher (target : Tier)
  /-- Has the function, and compares the target with its tier once more. -/
  | holding (target : Tier)
  /-- Has been granted the promotion; carries it out or puts it into the queue. -/
  | granted (target : Tier)
  /-- Waits in the queue. -/
  | queued (target : Tier)
  /-- Looks for a generator. -/
  | started (target : Tier)
  /-- Compiles the function for a tier and installs the code. -/
  | compiling (tier : Tier)
  /-- Makes the function run on the code. -/
  | installed (e : Entry)
  /-- Counts the promotion. -/
  | switched
  /-- Gives the function back. -/
  | leaving

/-- The caller has the function for itself: it has taken it, and not given it back yet. -/
def Stage.holds : Stage → Bool
  | holding _ | granted _ | queued _ | started _ | compiling _ | installed _ | switched
  | leaving => true
  | _ => false

/-- What comes of compiling a function and installing its code. -/
inductive Made where
  /-- The generator has no code for the function. -/
  | refused
  | crashed
  /-- The code memory fails. -/
  | uninstalled
  /-- Code is installed; the tier of the entry is the one that it was compiled for. -/
  | code (e : Entry)

/-- The next step of a caller, with what comes of compiling if it compiles. The tiers that had no
code are read and written by two accesses in the program; nobody else writes them in between, since
only who has the function does. -/
def Stage.advance (setup : Setup) (s : Shared) (made : Made) : Stage → Shared × Stage
  | idle => (s, idle)
  | asked t => (s, if !s.ended then admitted t else idle)
  | admitted t =>
    (s, if !s.closed && !s.slot.function.isExternal && setup.invoker.isSome &&
        !setup.backends.isEmpty then possible t else idle)
  | possible t =>
    (s, if (s.slot.promotions : Int) < setup.config.maxPromotions then counted t else idle)
  | counted t => (s, if s.slot.failed < t.rank then untried t else idle)
  | untried t => (s, if s.slot.tier.rank < t.rank then higher t else idle)
  | higher t =>
    if s.slot.promoting then (s, idle)
    else ({ s with slot := { s.slot with promoting := true } }, holding t)
  | holding t => (s, if s.slot.tier.rank < t.rank then granted t else leaving)
  | granted t =>
    (s, if !setup.config.background then started t else if s.closed then leaving else queued t)
  | queued t => (s, started t)
  | started t =>
    match setup.backendFor s.slot.tier t with
    | none => ({ s with slot := { s.slot with failed := max s.slot.failed t.rank } }, leaving)
    | some (tier, _) => (s, compiling tier)
  | compiling tier =>
    match made with
    | .refused =>
      ({ s with slot := { s.slot with failed := max s.slot.failed tier.rank } }, leaving)
    | .crashed => (s, leaving)
    | .uninstalled => ({ s with ended := true }, leaving)
    | .code e => (s, installed { e with tier })
  | installed e => ({ s with slot := { s.slot with entry := some e } }, switched)
  | switched => ({ s with slot := { s.slot with promotions := s.slot.promotions + 1 } }, leaving)
  | leaving => ({ s with slot := { s.slot with promoting := false } }, idle)

/-- What can happen to one caller. -/
inductive Move where
  | ask (target : Tier)
  | advance (made : Made)
  /-- A session that closes drops what is queued. -/
  | drop

/-- A move changes nothing at a stage that it does not fit. -/
def Stage.step (setup : Setup) (s : Shared) : Move → Stage → Shared × Stage
  | .ask target, idle => (s, asked target)
  | .advance made, stage => stage.advance setup s made
  | .drop, queued target => (s, if s.closed then leaving else queued target)
  | _, stage => (s, stage)

/-- Callers of one function. -/
structure Callers where
  shared : Shared
  stages : List Stage

/-- What can happen next. -/
inductive Turn where
  | caller (n : Nat) (move : Move)
  /-- The code memory fails in the promotion of another function. -/
  | fail
  | close

namespace Callers

/-- A number of callers of a function that has not been promoted yet. -/
def start (f : Ir.Function) (count : Nat) : Callers :=
  { shared := { slot := { function := f } }, stages := .replicate count .idle }

def turn (setup : Setup) (c : Callers) : Turn → Callers
  | .caller n move =>
    match c.stages[n]? with
    | none => c
    | some stage =>
      let (shared, stage) := stage.step setup c.shared move
      { shared, stages := c.stages.set n stage }
  | .fail => { c with shared := { c.shared with ended := true } }
  | .close => { c with shared := { c.shared with closed := true } }

/-- Turns one after the other, in any order of the callers. -/
def run (setup : Setup) (turns : List Turn) (c : Callers) : Callers := turns.foldl (turn setup) c

end Callers

end TieredEngine.Session
