import TieredEngine.Session.State

/-!
Promotions. A request names a function and a tier. It is granted when the tier is above the one the
function is on, nothing that failed before stands in the way, and no other promotion of the
function is under way. The promotion then takes the highest tier up to the requested one that has a
generator, compiles an optimised copy of the function, installs the code and makes the function run
on it. The tier of a generator's failure is remembered, and no promotion with that tier or a lower
one as its target is granted again; a failure of the code memory ends all promotions of the session.
-/
namespace TieredEngine.Session
open TieredEngine TieredEngine.Ir TieredEngine.Native

/-- What a session works with. -/
structure Setup where
  config : Config
  /-- Of several generators of one name the last counts. -/
  backends : List Backend := []
  /-- Without one no function leaves the interpreter. -/
  invoker : Option Invoker := none
  hosts : Eval.Hosts := fun _ => none

/-- The generator of a name. -/
def Setup.backend? (setup : Setup) (name : String) : Option Backend :=
  setup.backends.reverse.find? (·.name == name)

/-- The generator configured for a tier, if there is one. -/
def Setup.backendOf? (setup : Setup) (t : Tier) : Option Backend :=
  (((setup.config.backends.getD defaultBackends).find? (·.1 == t)).map (·.2)).bind setup.backend?

/-- The highest tier above the current one and up to the target that has a generator. -/
def Setup.backendFor (setup : Setup) (current target : Tier) : Option (Tier × Backend) :=
  let candidates := Tier.all.filter fun t => current.rank < t.rank && t.rank ≤ target.rank
  candidates.reverse.findSome? fun t => (setup.backendOf? t).map (t, ·)

namespace Program

def slot? (p : Program) (id : FuncId) : Option Slot := p.slots[id.num]?

def modifySlot (p : Program) (id : FuncId) (f : Slot → Slot) : Program :=
  { p with slots := p.slots.modify id.num f }

end Program

namespace State

def slot? (s : State) (id : FuncId) : Option Slot := s.program.bind (·.slot? id)

def modifySlot (s : State) (id : FuncId) (f : Slot → Slot) : State :=
  { s with program := s.program.map (·.modifySlot id f) }

/-- Whether a promotion of the function to the target is wanted and possible. -/
def grants (setup : Setup) (s : State) (slot : Slot) (target : Tier) : Bool :=
  s.failure.isNone && !s.closed && !slot.function.isExternal &&
  setup.invoker.isSome && !setup.backends.isEmpty &&
  (slot.promotions : Int) < setup.config.maxPromotions &&
  slot.failed < target.rank && slot.tier.rank < target.rank &&
  !slot.promoting

/-- Takes the function for a promotion. -/
def acquire (s : State) (id : FuncId) : State :=
  { s.modifySlot id ({ · with promoting := true }) with inflight := s.inflight + 1 }

/-- Gives the function back after a promotion. -/
def release (s : State) (id : FuncId) : State :=
  { s.modifySlot id ({ · with promoting := false }) with inflight := s.inflight - 1 }

/-- Remembers that a tier had no code for the function. -/
def markFailed (s : State) (id : FuncId) (t : Tier) : State :=
  s.modifySlot id fun slot => { slot with failed := max slot.failed t.rank }

/-- Ends all promotions; the first failure is kept. -/
def disable (s : State) (e : InstallFailure) : State :=
  { s with failure := some (s.failure.getD e) }

/-- Installs code under a name in a batch of its own. -/
def install (s : State) (name : String) (code : List UInt8) :
    Except (Fault InstallFailure) Nat × State :=
  match s.manager.begin with
  | none => (.error (.error .managerClosed), s)
  | some b =>
    match s.manager.install b name code with
    | (.error (.crash c), manager, _) => (.error (.crash c), { s with manager })
    | (.error (.error e), manager, b) =>
      let (_, manager, _) := manager.finish b
      (.error (.error (.install e)), { s with manager })
    | (.ok addr, manager, b) =>
      match manager.finish b with
      | ([], manager, _) => (.ok addr, { s with manager })
      | (errors, manager, _) => (.error (.error (.finish errors)), { s with manager })

/-- The code of a function for a tier, with its convention; nothing if there is none. The run of
the generator is recorded. -/
def compile (s : State) (slot : Slot) (id : FuncId) (tier : Tier) (backend : Backend) :
    Except Crash (Option (CompiledCode × Convention)) × State :=
  match (Pass.Pipeline.forLevel tier.optLevel).runFunction slot.function {} with
  | .error c => (.error c, s)
  | .ok optimised =>
    let attempt (succeeded : Bool) : Attempt :=
      { function := id, name := slot.function.name, tier, backend := backend.name
        insts := (optimised.function.instCount.toOption).getD 0, succeeded }
    let noted (succeeded : Bool) : State := { s with attempts := attempt succeeded :: s.attempts }
    match backend.compile optimised.function with
    | .error (.crash c) => (.error c, s)
    | .error (.error _) => (.ok none, noted false)
    | .ok code =>
      match code.convention with
      | some convention => (.ok (some (code, convention)), noted true)
      | none =>
        match Convention.ofSignature slot.function.sig with
        | .ok convention => (.ok (some (code, convention)), noted true)
        | .error _ => (.ok none, noted true)

/-- Makes a function run on installed code. -/
def publish (s : State) (id : FuncId) (e : Entry) : State :=
  let named := s.modifySlot id fun slot =>
    { slot with entry := some e, promotions := slot.promotions + 1 }
  { named with promotions := s.promotions + 1 }

/-- Compiles a function for the highest tier up to the target that has a generator. Only failures
of the code memory are reported. -/
def compileAndInstall (setup : Setup) (s : State) (slot : Slot) (job : Job) :
    Except (Fault InstallFailure) Unit × State :=
  match setup.backendFor slot.tier job.target with
  | none => (.ok (), s.markFailed job.function job.target)
  | some (tier, backend) =>
    match s.compile slot job.function tier backend with
    | (.error c, s) => (.error (.crash c), s)
    | (.ok none, s) =>
      (.ok (), { s with failures := s.failures + 1 }.markFailed job.function tier)
    | (.ok (some (code, convention)), s) =>
      match s.install s!"{slot.function.name}@{tier.name}" code.code with
      | (.error (.crash c), s) => (.error (.crash c), s)
      | (.error (.error e), s) =>
        (.error (.error e), { s with failures := s.failures + 1 }.disable e)
      | (.ok addr, s) =>
        (.ok (), s.publish job.function {
          tier, addr, convention, backend := backend.name, code := code.code
          program := .ofBytes code.code })

/-- Carries out a granted promotion and gives the function back. -/
def promote (setup : Setup) (s : State) (job : Job) : Except (Fault InstallFailure) Unit × State :=
  match s.slot? job.function with
  | none => (.ok (), s)
  | some slot =>
    let (r, s) := s.compileAndInstall setup slot job
    (r, s.release job.function)

/-- What is left of a promotion's result for those who do not act on failures. -/
def ignoreFailure : Except (Fault InstallFailure) Unit → Except Crash Unit
  | .error (.crash c) => .error c
  | _ => .ok ()

/-- Asks for a promotion: it is refused, carried out, or queued in a session that promotes in the
background. -/
def request (setup : Setup) (s : State) (job : Job) : Except Crash Unit × State :=
  match s.slot? job.function with
  | none => (.ok (), s)
  | some slot =>
    if !s.grants setup slot job.target then (.ok (), s)
    else
      let s := s.acquire job.function
      if setup.config.background then (.ok (), { s with queue := s.queue ++ [job] })
      else
        let (r, s) := s.promote setup job
        (ignoreFailure r, s)

/-- Works off jobs in order. -/
def runJobs (setup : Setup) : List Job → State → Except Crash Unit × State
  | [], s => (.ok (), { s with queue := [] })
  | job :: rest, s =>
    let (r, s) := { s with queue := rest }.promote setup job
    match ignoreFailure r with
    | .ok () => runJobs setup rest s
    | .error c => (.error c, s)

/-- Works off as many jobs of the queue as given, or all there are. -/
def workOff (setup : Setup) : Nat → State → Except Crash Unit × State
  | 0, s => (.ok (), s)
  | count + 1, s =>
    match s.queue with
    | [] => (.ok (), s)
    | job :: rest =>
      let (r, s) := { s with queue := rest }.promote setup job
      match ignoreFailure r with
      | .ok () => workOff setup count s
      | .error c => (.error c, s)

end State

/-- Why the functions of a module are not all compiled. -/
inductive Abort where
  | context (e : Cancellation)
  | install (e : InstallFailure)
  deriving DecidableEq, Repr

def Abort.ofPromotion : Fault InstallFailure → Fault Abort
  | .error e => .error (.install e)
  | .crash c => .crash c

/-- What a task does next that compiles one function for the baseline tier. -/
inductive Task where
  /-- Looks whether the context is over. -/
  | begun
  /-- Asks for the promotion. -/
  | admitted
  /-- Has been granted the promotion, and carries it out. -/
  | granted
  /-- Hands over its result. -/
  | ending (r : Except (Fault Abort) Unit)
  | finished

/-- The functions of a module while all of them are compiled. Each has a task of its own, and between
two steps of one task the others may go on. How many tasks there are at a time is limited, which
leaves fewer orders of their steps. -/
structure Compiling where
  state : State
  tasks : List (FuncId × Task)
  /-- Present once the context is over: the caller has ended it, or the first task that failed. -/
  cancelled : Option Cancellation := none
  /-- The first failure that was handed over. -/
  failure : Option (Fault Abort) := none

namespace Compiling

/-- What can happen next. -/
inductive Turn where
  | task (n : Nat)
  /-- The context of the caller ends. -/
  | cancel (e : Cancellation)

/-- The next step of the task for a function. -/
def advance (setup : Setup) (c : Compiling) (id : FuncId) : Task → Compiling × Task
  | .begun =>
    (c, match c.cancelled with
      | some e => .ending (.error (.error (.context e)))
      | none => .admitted)
  | .admitted =>
    match c.state.slot? id with
    | none => (c, .ending (.ok ()))
    | some slot =>
      if c.state.grants setup slot .baseline then
        ({ c with state := c.state.acquire id }, .granted)
      else (c, .ending (.ok ()))
  | .granted =>
    let (r, state) := c.state.promote setup ⟨id, .baseline⟩
    ({ c with state }, .ending (r.mapError Abort.ofPromotion))
  | .ending (.ok ()) => (c, .finished)
  | .ending (.error e) =>
    ({ c with
      cancelled := some (c.cancelled.getD .canceled), failure := some (c.failure.getD e) }, .finished)
  | .finished => (c, .finished)

def turn (setup : Setup) (c : Compiling) : Turn → Compiling
  | .task n =>
    match c.tasks[n]? with
    | none => c
    | some (id, task) =>
      let (next, task) := c.advance setup id task
      { next with tasks := c.tasks.set n (id, task) }
  | .cancel e => { c with cancelled := some (c.cancelled.getD e) }

def run (setup : Setup) (turns : List Turn) (c : Compiling) : Compiling :=
  turns.foldl (turn setup) c

/-- The turns in which the first tasks come to their ends, one after the other. -/
def inOrder (count : Nat) : List Turn :=
  (List.range count).flatMap fun n => List.replicate 4 (.task n)

/-- Every task comes to its end. -/
def finish (setup : Setup) (c : Compiling) : Compiling := c.run setup (inOrder c.tasks.length)

/-- No task has taken a step. -/
def start (s : State) (ids : List FuncId) : Compiling :=
  { state := s, tasks := ids.map (·, .begun) }

def result (c : Compiling) : Except (Fault Abort) Unit :=
  match c.failure with
  | none => .ok ()
  | some e => .error e

end Compiling

/-- Compiles functions for the baseline tier. The tasks take the turns that are given, and what is
left to do after that is done in order. -/
def State.compileAll (setup : Setup) (turns : List Compiling.Turn) (ids : List FuncId) (s : State) :
    Except (Fault Abort) Unit × State :=
  let c := ((Compiling.start s ids).run setup turns).finish setup
  (c.result, c.state)

end TieredEngine.Session
