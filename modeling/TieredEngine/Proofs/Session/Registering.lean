import TieredEngine.Proofs.Session.Disabling

/-!
Giving a session its module fails in two ways. A session that is closed, or is given a module that
the check does not accept, stays as it is and can be given another module. A session that compiles
every function at once has its module when the compiling is given up, for want of code memory or
because the context of the caller is over: it keeps the module and runs calls all the same, and after
a failure of the code memory it promotes nothing any more.
-/
namespace TieredEngine.Session
open TieredEngine TieredEngine.Ir TieredEngine.Native

namespace State

/-- States of one session with one module: both are open or both closed, and the functions are the
same. -/
structure Akin (s s' : State) : Prop where
  module : s'.program.map (·.module) = s.program.map (·.module)
  functions : s'.slots.map (·.function) = s.slots.map (·.function)
  closed : s'.closed = s.closed

theorem Akin.trans {s t u : State} (first : s.Akin t) (second : t.Akin u) : s.Akin u :=
  ⟨second.module.trans first.module, second.functions.trans first.functions,
    second.closed.trans first.closed⟩

theorem akin_of_alike {s s' : State} (alike : s.Alike s') : s.Akin s' :=
  ⟨alike.module, alike.functions, alike.closed⟩

theorem akin_promote (setup : Setup) (s : State) (job : Job) : s.Akin (s.promote setup job).2 := by
  unfold promote
  split
  · exact ⟨rfl, rfl, rfl⟩
  · next slot _ =>
    have done := compileAndInstall_promoted setup s slot job
    exact Akin.trans ⟨done.module.1, done.functions, done.module.2⟩ (akin_of_alike (alike_release _ _))

theorem akin_request (setup : Setup) (s : State) (job : Job) : s.Akin (s.request setup job).2 := by
  have taken := akin_of_alike (alike_acquire s job.function)
  unfold request
  split
  · exact ⟨rfl, rfl, rfl⟩
  · split
    · exact ⟨rfl, rfl, rfl⟩
    · dsimp only
      split
      · exact ⟨taken.module, taken.functions, taken.closed⟩
      · exact taken.trans (akin_promote setup _ job)

theorem akin_compileAll (setup : Setup) (turns : List Compiling.Turn) (ids : List FuncId)
    (s : State) : s.Akin (s.compileAll setup turns ids).2 := by
  refine compileAll_keeps (J := fun _ t => s.Akin t) ⟨fun _ akin => akin,
    fun {_ t id _} _ _ akin => akin.trans (akin_of_alike (alike_acquire t id)),
    fun {_ t id} akin => akin.trans (akin_promote setup t ⟨id, .baseline⟩)⟩ ⟨rfl, rfl, rfl⟩

theorem akin_workOff (setup : Setup) (count : Nat) (s : State) :
    s.Akin (s.workOff setup count).2 := by
  induction count generalizing s with
  | zero => exact ⟨rfl, rfl, rfl⟩
  | succ count ih =>
    unfold workOff
    split
    · exact ⟨rfl, rfl, rfl⟩
    · next job rest queued =>
      have dequeued : s.Akin { s with queue := rest } := ⟨rfl, rfl, rfl⟩
      have promoted := dequeued.trans (akin_promote setup _ job)
      dsimp only
      split
      · exact promoted.trans (ih _)
      · exact promoted

theorem Akin.absent {s s' : State} (akin : s.Akin s') (absent : s'.program = none) :
    s.program = none := by
  have same := akin.module
  rw [absent] at same
  exact Option.map_eq_none_iff.mp same.symm

/-- Without a module no promotion waits. -/
def Bare (s : State) : Prop := s.program = none → s.queue = []

theorem Bare.request {setup : Setup} {s : State} (bare : s.Bare) (job : Job) :
    (s.request setup job).2.Bare := by
  intro absent
  have before := (akin_request setup s job).absent absent
  have missing : s.slot? job.function = none := by
    unfold slot?
    rw [before]
    rfl
  unfold State.request
  rw [missing]
  exact bare before

theorem Bare.workOff {setup : Setup} {s : State} (bare : s.Bare) (count : Nat) :
    (s.workOff setup count).2.Bare := by
  intro absent
  have none := bare ((akin_workOff setup count s).absent absent)
  cases count with
  | zero => exact none
  | succ count =>
    unfold State.workOff
    rw [none]
    exact none

/-- The session is open and runs the functions of this module. -/
structure Given (m : Module) (s : State) : Prop where
  module : s.program.map (·.module) = some m
  functions : s.slots.map (·.function) = m.functions.toList
  opened : s.closed = false

theorem Given.akin {m : Module} {s s' : State} (given : Given m s) (akin : s.Akin s') : Given m s' :=
  ⟨akin.module.trans given.module, akin.functions.trans given.functions,
    akin.closed.trans given.opened⟩

end State

/-- Sessions that there can be: one is opened, and then given modules, run, drained and closed. -/
inductive Arises : Session → Prop where
  | start {setup : Setup} {heap : Heap} {s : Session} (started : start setup heap = .ok s) : Arises s
  | register {s : Session} (arises : Arises s) (m : Module) (turns : List Compiling.Turn) :
    Arises (s.register m turns).2
  | step {s : Session} (arises : Arises s) (next : Step) : Arises (s.step next)
  | close {s : Session} (arises : Arises s) : Arises s.close.2

theorem bare_register {s : Session} (bare : s.state.Bare) (m : Module)
    (turns : List Compiling.Turn) : (s.register m turns).2.state.Bare := by
  have outcome := register_cases s m turns
  revert outcome
  generalize s.register m turns = out
  intro outcome
  cases outcome with
  | refused reason => exact bare
  | crashed c => exact bare
  | interpreted takes lazily => rintro ⟨⟩
  | @compiled globals takes eagerly r state ran =>
    intro absent
    have akin := State.akin_compileAll s.setup turns (atOnce m) (s.published m globals).state
    rw [ran] at akin
    cases akin.absent absent

/-- Nothing waits in a session that has no module. -/
theorem Arises.bare {s : Session} (arises : Arises s) : s.state.Bare := by
  induction arises with
  | start started =>
    obtain ⟨_, _, same⟩ := bind_eq_ok.mp started
    cases same
    exact fun _ => rfl
  | register _ m turns ih => exact bare_register ih m turns
  | step _ next ih =>
    exact (stepAll_keeps (I := State.Bare) (fun _ _ _ bare => bare) (fun _ job bare => bare.request job)
      (fun _ count bare => bare.workOff count) [next] ih).2
  | close _ ih =>
    unfold Session.close
    split
    · exact ih
    · exact fun _ => rfl

/-- A session without a module runs no calls. -/
theorem call_bare {s : Session} (bare : s.module? = none) (id : FuncId) (args : List Value) :
    (s.call id args).1 = .error (.other (if s.state.closed then .closed else .noModule)) := by
  have absent : s.world.rest.program = none := Option.map_eq_none_iff.mp bare
  have more : Eval.ampleFuel = 999999999999999 + 1 := rfl
  unfold call
  rw [more]
  unfold execute
  show (if s.world.rest.closed then _ else _ : Except Halt Value × Eval.World State).1 = _
  rw [absent]
  cases closed : s.state.closed with
  | true =>
    have closed : s.world.rest.closed = true := closed
    rw [closed]
    rfl
  | false =>
    have closed : s.world.rest.closed = false := closed
    rw [closed]
    rfl

/-- A call in a session with a module does not report that there is none, nor does a call that it
makes. -/
theorem call_given {s : Session} {m : Module} (given : s.module? = some m) (id : FuncId)
    (args : List Value) : (s.call id args).1 ≠ .error (.other .noModule) := by
  intro failed
  exact (execute_keeps_failing (I := fun t => t.program.map (·.module) = some m)
    (F := (· ≠ .other .noModule)) (fun _ _ _ own => own)
    (fun t job own => (State.akin_request s.setup t job).module.trans own) (fun _ other => other)
    (fun t own none => by simp [none] at own) Eval.ampleFuel 0 id args given).2 _ failed rfl

/-- Compiling the functions of a module that a session has taken is given up: for want of code
memory, which is remembered, or because the context of the caller is over. -/
inductive GivenUp (turns : List Compiling.Turn) (s : State) : Error → Prop where
  | memory (failure : InstallFailure) (remembered : s.failure ≠ none) :
      GivenUp turns s (.install failure)
  | context {e : Cancellation} (ended : .cancel e ∈ turns) : GivenUp turns s (.context e)

/-- A module that is not taken leaves the session as it is. One whose compiling is given up is taken. -/
theorem register_error {s : Session} {m : Module} {turns : List Compiling.Turn} {e : Error}
    (failed : (s.register m turns).1 = .error (.error e)) :
    ((s.register m turns).2 = s ∧ s.Refuses m e) ∨
    s.setup.config.startInterpreted = false ∧ State.Given m (s.register m turns).2.state ∧
      GivenUp turns (s.register m turns).2.state e := by
  have outcome := register_cases s m turns
  revert failed outcome
  generalize s.register m turns = out
  intro failed outcome
  cases outcome with
  | refused reason =>
    cases failed
    exact .inl ⟨rfl, reason⟩
  | crashed c => cases failed
  | interpreted takes lazily => cases failed
  | @compiled globals takes eagerly r state ran =>
    obtain ⟨fault, stopped, same⟩ := mapError_eq_error.mp failed
    have akin := State.akin_compileAll s.setup turns (atOnce m) (s.published m globals).state
    have memory := @State.compileAll_install s.setup turns (atOnce m) (s.published m globals).state
    have context := @State.compileAll_context s.setup turns (atOnce m) (s.published m globals).state
    rw [ran] at akin memory context
    refine .inr ⟨eagerly, ⟨akin.module, akin.functions.trans (slots_published s m globals),
      akin.closed.trans takes.opened⟩, ?_⟩
    cases fault with
    | crash c => cases same
    | error abort =>
      cases abort with
      | install failure =>
        cases same
        exact .memory failure (memory stopped)
      | context c =>
        cases same
        exact .context (context stopped)

theorem Refuses.bare {s : Session} {m : Module} {e : Error} (refuses : s.Refuses m e)
    (bare : s.module? = none) : e = .closed ∨ ∃ ds, e = .invalidModule m.name ds := by
  cases refuses with
  | closed shut => exact .inl rfl
  | invalid opened found some => exact .inr ⟨_, rfl⟩
  | registered opened accepted present =>
    have absent : s.state.program = none := Option.map_eq_none_iff.mp bare
    rw [absent] at present
    cases present

theorem register_given {s : Session} {m m' : Module} (opened : s.state.closed = false)
    (given : s.module? = some m) (accepted : m'.defects = .ok []) (turns : List Compiling.Turn) :
    (s.register m' turns).1 = .error (.error .moduleRegistered) := by
  have present : s.state.program.isSome = true := by
    obtain ⟨p, present, _⟩ := Option.map_eq_some_iff.mp given
    rw [present]
    rfl
  unfold register
  rw [opened, accepted]
  dsimp only
  rw [if_neg Bool.false_ne_true, if_pos present]

/-- A session without a module that does not take one stays as it is: it has no module, calls report
that, and it takes another module. The exception is a session that compiles all functions at once,
whatever order that happens in. When the code memory fails, or the context of the caller is over, it
has the module already. It then keeps the module: whatever is run, drained or promoted in the
background afterwards, calls do not report that there is no module, and every valid module is refused
because there is one. A failure of the code memory is remembered, and no function changes its tier
any more. -/
theorem register_failed {s : Session} {m : Module} {turns : List Compiling.Turn} {e : Error}
    (arises : Arises s) (bare : s.module? = none)
    (failed : (s.register m turns).1 = .error (.error e)) :
    let t := (s.register m turns).2
    (t = s ∧ (e = .closed ∨ ∃ ds, e = .invalidModule m.name ds) ∧ t.module? = none ∧
      (∀ id args,
        (t.call id args).1 = .error (.other (if t.state.closed then .closed else .noModule))) ∧
      ∀ m' turns', (t.register m' turns').1 ≠ .error (.error .moduleRegistered)) ∨
    s.setup.config.startInterpreted = false ∧
    ((∃ failure, e = .install failure ∧ t.state.failure ≠ none ∧ ∀ steps,
        (t.stepAll steps).state.failure = t.state.failure ∧
        ∀ id, (t.stepAll steps).tierOf id = t.tierOf id) ∨
      ∃ c, e = .context c ∧ .cancel c ∈ turns) ∧
    ∀ steps,
      let u := t.stepAll steps
      u.module? = some m ∧ u.state.slots.map (·.function) = m.functions.toList ∧
      (∀ id args, (u.call id args).1 ≠ .error (.other .noModule)) ∧
      ∀ m' turns', m'.defects = .ok [] →
        (u.register m' turns').1 = .error (.error .moduleRegistered) := by
  intro t
  rcases register_error failed with ⟨same, refuses⟩ | ⟨eagerly, given, reason⟩
  · refine .inl ⟨same, refuses.bare bare, ?_⟩
    have bare : t.module? = none := (congrArg module? same).trans bare
    refine ⟨bare, call_bare bare, fun m' turns' again => ?_⟩
    rcases register_error again with ⟨_, refuses⟩ | ⟨_, _, other⟩
    · rcases refuses.bare bare with other | ⟨_, other⟩ <;> cases other
    · cases other
  · refine .inr ⟨eagerly, ?_, fun steps => ?_⟩
    · cases reason with
      | context ended => exact .inr ⟨_, rfl, ended⟩
      | memory failure remembered =>
        refine .inl ⟨failure, rfl, remembered, fun steps => ?_⟩
        have idle : t.state.queue = [] :=
          (queue_register s m turns).2.trans (arises.bare (Option.map_eq_none_iff.mp bare))
        exact unchanged_of_failure remembered idle steps
    · intro u
      have later : State.Given m u.state :=
        (stepAll_keeps (I := State.Given m)
          (fun _ _ _ given => ⟨given.module, given.functions, given.opened⟩)
          (fun t' job given => given.akin (State.akin_request _ t' job))
          (fun t' count given => given.akin (State.akin_workOff _ count t')) steps given).2
      exact ⟨later.module, later.functions, call_given later.module,
        fun m' turns' accepted => register_given later.opened later.module accepted turns'⟩

/-- A session that compiles everything at once. -/
def hasty : Setup := { cramped false with
  config := { (cramped false).config with startInterpreted := false } }

/-- Code of the first function of a crowd needs a region of this size. -/
def crowded : InstallFailure := .install (.memory ⟨"allocate region", 48, .limit 32⟩)

theorem register_failed_crowd :
    ∃ s, start hasty { Heap.ofPage 16 with limit := 32 } = .ok s ∧ s.module? = none ∧
      (s.register crowd).1 = .error (.error (.install crowded)) ∧
      ∀ steps id, ((s.register crowd).2.stepAll steps).module? = some crowd ∧
        ((s.register crowd).2.stepAll steps).tierOf id = (s.register crowd).2.tierOf id := by
  obtain ⟨s, started⟩ : ∃ s, start hasty { Heap.ofPage 16 with limit := 32 } = .ok s := ⟨_, rfl⟩
  have failed : (start hasty { Heap.ofPage 16 with limit := 32 }).toOption.map
      (fun s => (s.register crowd).1) = some (.error (.error (.install crowded))) := by
    decide +kernel
  have bare : s.module? = none := by
    cases started
    rfl
  rw [started] at failed
  have failed := Option.some.inj failed
  refine ⟨s, started, bare, failed, fun steps id => ?_⟩
  rcases register_failed (.start started) bare failed with ⟨_, other, _⟩ | ⟨_, reason, later⟩
  · rcases other with other | ⟨_, other⟩ <;> cases other
  · rcases reason with ⟨_, _, _, still⟩ | ⟨_, other, _⟩
    · exact ⟨(later steps).1, (still steps).2 id⟩
    · cases other

/-- A session whose registration fails for want of code memory has a module afterwards: its functions
can be called, and no module can be registered any more. So it is when the caller has ended the
context, and the code memory has not failed. A closed session reports that it is closed, and not that
it has no module. -/
theorem module_outlives_failed_registration :
    let opened := (start hasty { Heap.ofPage 16 with limit := 32 }).toOption
    opened.map (fun s => (s.module?.isSome, (s.register crowd).1)) =
      some (false, .error (.error (.install crowded))) ∧
    opened.map (fun s => (s.register crowd).2.module?.isSome) = some true ∧
    opened.map (fun s => ((s.register crowd).2.call ⟨1⟩ []).1) = some (.ok .void) ∧
    opened.map (fun s => ((s.register crowd).2.register crowd).1) =
      some (.error (.error .moduleRegistered)) ∧
    opened.map (fun s => ((s.register crowd [.cancel .canceled]).1,
      (s.register crowd [.cancel .canceled]).2.state.failure.isSome)) =
      some (.error (.error (.context .canceled)), false) ∧
    opened.map (fun s => (((s.register crowd [.cancel .canceled]).2.call ⟨1⟩ []).1,
      ((s.register crowd [.cancel .canceled]).2.register crowd).1)) =
      some (.ok .void, .error (.error .moduleRegistered)) ∧
    opened.map (fun s => ((s.close.2.register crowd).1, (s.close.2.call ⟨1⟩ []).1)) =
      some (.error (.error .closed), .error (.other .closed)) := by
  decide +kernel

end TieredEngine.Session
