import TieredEngine.Session.Promotion

/-!
Operations of a session. A session is opened with a configuration, gets its module once, and then
runs calls. Every call, also one that an interpreted function makes, is counted, runs on whatever
its function runs on at that moment, and may ask for a promotion when it has succeeded. Queued
promotions are carried out when the session is drained, and at the ticks of a clock when it promotes in
the background. Giving a session its module and draining it end early when the caller's context does.
-/
namespace TieredEngine
open TieredEngine.Ir TieredEngine.Native

namespace Session

/-- Interpreted functions run to this depth. -/
def evalSetup (setup : Setup) : Eval.Setup := { hosts := setup.hosts }

/-- The tier that a finished call asks for: what its count calls for if it is sampled, at least
baseline after an interpreted call that entered too many blocks. -/
def wantedTier (config : Config) (count : UInt64) (blocks : Nat) : Tier :=
  let bailed : Tier :=
    if config.bailout.exceeded (UInt64.ofNat blocks) then .baseline else .interpreted
  if config.thresholds.samples count then
    let heat := Tier.forLevel (config.thresholds.classify count)
    if bailed.rank < heat.rank then heat else bailed
  else bailed

/-- Runs a call on what its function runs on; gives also the number of blocks it interpreted. -/
def runSlot (setup : Setup) (p : Program) (call : Eval.Call State Error) (fuel depth : Nat)
    (slot : Slot) (id : FuncId) (args : List Value) (w : Eval.World State) :
    Except Halt (Value × Nat) × Eval.World State :=
  match slot.entry, setup.invoker with
  | some e, some invoke =>
    let r := (invoke w.rest.nativeCalls fuel w.rest.manager p.module e args).mapError
      (Halt.ofNative slot.function.name e.tier)
    (r.map (·, 0), { w with rest := { w.rest with nativeCalls := w.rest.nativeCalls + 1 } })
  | _, _ =>
    let out := Eval.enter (evalSetup setup) p.module call fuel depth id args w
    (out.result.map (·, out.stats.blocks), out.world)

/-- Calls a function at a depth of interpreted calls. -/
def execute (setup : Setup) : Nat → Nat → FuncId → List Value → Eval.World State →
    Except Halt Value × Eval.World State
  | 0, _, _, _, w => (.error .outOfFuel, w)
  | fuel + 1, depth, id, args, w =>
    if w.rest.closed then (.error (.other .closed), w)
    else match w.rest.program with
    | none => (.error (.other .noModule), w)
    | some p =>
      match p.slot? id with
      | none => (.error (.other (.unknownFunction id)), w)
      | some slot =>
        let (count, tracker) := w.rest.tracker.record id.num
        let w := { w with rest := { w.rest with tracker } }
        let call : Eval.Call State Error := execute setup fuel (depth + 1)
        match runSlot setup p call fuel depth slot id args w with
        | (.error h, w) => (.error h, w)
        | (.ok (v, blocks), w) =>
          let wanted := wantedTier setup.config count blocks
          if slot.tier.rank < wanted.rank then
            match w.rest.request setup ⟨id, wanted⟩ with
            | (.ok (), rest) => (.ok v, { w with rest })
            | (.error c, rest) => (.error (.crash c), { w with rest })
          else (.ok v, w)

end Session

/-- A session: what it works with, and its state with the globals of its module. -/
structure Session where
  setup : Session.Setup
  world : Eval.World Session.State

namespace Session

def state (s : Session) : State := s.world.rest

def withState (s : Session) (rest : State) : Session := { s with world := { s.world with rest } }

/-- Opens a session on code memory. A configuration without generators gets the usual ones. -/
def start (setup : Setup) (heap : Heap) : Except ConfigError Session := do
  setup.config.validate
  let config := { setup.config with backends := some (setup.config.backends.getD defaultBackends) }
  return {
    setup := { setup with config }
    world := {
      globals := #[]
      rest := {
        tracker := { thresholds := config.thresholds }
        manager := Manager.ofHeap heap config.regionSize } } }

/-- What a failure of compiling all functions is for the caller. -/
def Abort.error : Fault Abort → Fault Error
  | .error (.context e) => .error (.context e)
  | .error (.install e) => .error (.install e)
  | .crash c => .crash c

/-- Gives a session its module. A session that does not start interpreted compiles every function;
when that ends in a failure, of the code memory or because the context is over, the module stays.
The turns say in which order the tasks go on meanwhile and whether the context ends; without any,
one task follows the other. -/
def register (s : Session) (m : Module) (turns : List Compiling.Turn := []) :
    Except (Fault Error) Unit × Session :=
  if s.state.closed then (.error (.error .closed), s)
  else match m.defects with
  | .error c => (.error (.crash c), s)
  | .ok (d :: ds) => (.error (.error (.invalidModule m.name (d :: ds))), s)
  | .ok [] =>
    if s.state.program.isSome then (.error (.error .moduleRegistered), s)
    else match Eval.initialGlobals m with
    | .error c => (.error (.crash c), s)
    | .ok globals =>
      let program : Program := { module := m, slots := m.functions.map fun f => { function := f } }
      let state := { s.state with
        program := some program, tracker := s.state.tracker.grow m.functions.size }
      let s := { s with world := { s.world with globals, rest := state } }
      if s.setup.config.startInterpreted then (.ok (), s)
      else
        let ids := (m.functions.toList.filter (!·.isExternal)).map (·.id)
        let (r, state) := state.compileAll s.setup turns ids
        (r.mapError Abort.error, s.withState state)

/-- Calls a function. -/
def call (s : Session) (id : FuncId) (args : List Value) : Except Halt Value × Session :=
  let (r, world) := execute s.setup Eval.ampleFuel 0 id args s.world
  (r, { s with world })

def module? (s : Session) : Option Module := s.state.program.map (·.module)

/-- Calls the entry function of the module, which takes no arguments. -/
def callMain (s : Session) : Except Halt Value × Session :=
  match s.module? with
  | none => (.error (.other .noModule), s)
  | some m =>
    match m.entryFunction with
    | .error (.error e) => (.error (.other (.noEntry e)), s)
    | .error (.crash c) => (.error (.crash c), s)
    | .ok f =>
      if f.sig.params.isEmpty then s.call f.id []
      else (.error (.other (.entryParameters f.name f.sig.params.length)), s)

/-- The tier a function is on. -/
def tierOf (s : Session) (id : FuncId) : Tier :=
  ((s.state.slot? id).map Slot.tier).getD .interpreted

/-- Works off the queue of promotions. -/
def drain (s : Session) : Except (Fault Error) Unit × Session :=
  if s.state.closed then (.error (.error .closed), s)
  else match s.state.runJobs s.setup s.state.queue with
  | (.ok (), state) => (.ok (), s.withState state)
  | (.error c, state) => (.error (.crash c), s.withState state)

/-- A drain whose context ends after a number of promotions. If the queue has not been found empty
before, the caller learns that the context is over. -/
def drainSome (s : Session) (jobs : Nat) (e : Cancellation := .canceled) :
    Except (Fault Error) Unit × Session :=
  if s.state.closed then (.error (.error .closed), s)
  else
    let r : Except (Fault Error) Unit :=
      if jobs ≤ s.state.queue.length then .error (.error (.context e)) else .ok ()
    match s.state.workOff s.setup jobs with
    | (.ok (), state) => (r, s.withState state)
    | (.error c, state) => (.error (.crash c), s.withState state)

/-- A tick of the clock of a session that promotes in the background: promotions are taken off the
queue and carried out, as many as find a compiler free. -/
def tick (s : Session) (jobs : Nat) : Except Crash Unit × Session :=
  if s.setup.config.background && 0 < s.setup.config.maxPromotions && !s.state.closed then
    let (r, state) := s.state.workOff s.setup jobs
    (r, s.withState state)
  else (.ok (), s)

/-- Closes a session: what is queued is given up and the code memory is released. -/
def close (s : Session) : Except Error Unit × Session :=
  if s.state.closed then (.ok (), s)
  else
    let state := s.state.queue.foldl (fun st j => st.release j.function) s.state
    let (errors, manager) := state.manager.close
    let s := s.withState { state with closed := true, queue := [], manager }
    (if errors.isEmpty then .ok () else .error (.release errors), s)

end Session

end TieredEngine
