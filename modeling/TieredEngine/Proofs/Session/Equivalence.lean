import TieredEngine.Proofs.Session.Coherence
import TieredEngine.Proofs.Session.Invocation

/-!
Sessions beside the evaluator alone. Whatever tier a function is on when it is called, and whenever
promotions happen, a session answers every call as the evaluator does that shares one set of globals
between calls: with the same value, or with an error where the evaluator reports one, and it leaves
the same globals. No promotion crashes on the way.

This holds for modules in which a function that the passes change before code is made of it is checked
as it was registered, and it does not hold for what is checked only after optimisation. Of the errors
that the evaluator reports, those are left out that code does not look for, where they are raised in
the name of a function that code is made of.
-/
namespace TieredEngine.Session
open TieredEngine TieredEngine.Ir TieredEngine.Eval TieredEngine.Native

/-- Code is made of what the passes of a tier leave of a function. -/
structure Coded (setup : Setup) (f : Function) (tier : Tier) (done : Pass.Pipeline.Progress)
    (c : CompiledCode) : Prop where
  compiled : tier ≠ .interpreted
  generator : (setup.backendOf? tier).isSome = true
  optimised : (Pass.Pipeline.forLevel tier.optLevel).runFunction f {} = .ok done
  made : X64.Baseline.compile done.function = .ok c

/-- Whatever code is made of a function, the passes have left the function as it was, or it is checked
as it stands and assigns each register at most once; and the code is short enough for its jumps. -/
def Trusted (setup : Setup) (f : Function) : Prop :=
  ∀ tier done c, Coded setup f tier done c →
    (done.function = f ∨ f.typingErrors = .ok [] ∧ f.SingleAssignment) ∧ c.code.length < X64.reach

/-- What a session relies on in a module and its host functions: integer words are in normal form
wherever they come from, and the code that is made of functions can be trusted. -/
structure Reliable (setup : Setup) (m : Module) : Prop where
  accepted : m.defects = .ok []
  trusted : ∀ f ∈ m.functions, Trusted setup f
  constants : ∀ f ∈ m.functions, Constants NormalWord f
  initial : ∀ globals, initialGlobals m = .ok globals → ∀ v ∈ globals, NormalWord v
  hosts : ∀ name run past args v, setup.hosts name = some run → run past args = .ok v → NormalWord v

/-- Ends of an evaluator's run that a session need not follow: the run does not come to an end, or it
ends in a way that the code of some function need not follow. -/
def Unpromised {ε : Type} (setup : Setup) (m : Module) (h : Eval.Halt ε) : Prop :=
  ¬ Reported h ∨ ∃ f ∈ m.functions, (∃ tier done c, Coded setup f tier done c) ∧ Unfollowed f h

/-- Code that is made of a function for a tier follows the evaluator at the pace. -/
def Paced (setup : Setup) (callers : Nat → X64.State) (m : Module) (f : Function) (tier : Tier)
    (pace : Nat) : Prop :=
  ∀ done c, Coded setup f tier done c → ∀ (κ ε : Type) (setup : Eval.Setup)
    (fuel steps depth : Nat) (args : List Value) (w : World κ) (number : Nat) (manager : Manager)
    (e : Entry), c.convention = some e.convention → e.program = .ofBytes c.code →
    (∀ v ∈ args, NormalWord v) → w.globals.size = m.globals.size → pace * fuel ≤ steps →
    Follows f w (runAt (ε := ε) setup m fuel depth f.id args w)
      (Invoker.machineFrom callers number steps manager m e args)

theorem Paced.mono {setup : Setup} {callers : Nat → X64.State} {m : Module} {f : Function}
    {tier : Tier} {slow fast : Nat} (paced : Paced setup callers m f tier fast) (slower : fast ≤ slow) :
    Paced setup callers m f tier slow := by
  intro done c coded κ ε setup fuel steps depth args w number manager e chosen program normal size
    enough
  exact paced done c coded κ ε setup fuel steps depth args w number manager e chosen program normal
    size (Nat.le_trans (Nat.mul_le_mul_right fuel slower) enough)

/-- One pace does for all functions of a module and all tiers. -/
theorem Reliable.paced {setup : Setup} {m : Module} (reliable : Reliable setup m)
    {callers : Nat → X64.State} (lending : Lending callers) :
    ∃ pace, 0 < pace ∧
      ∀ f tier, m.function? f.id = some f → Paced setup callers m f tier pace := by
  have each : ∀ f tier, ∃ pace, m.function? f.id = some f → Paced setup callers m f tier pace := by
    intro f tier
    by_cases code : m.function? f.id = some f ∧ ∃ done c, Coded setup f tier done c
    · obtain ⟨found, done, c, coded⟩ := code
      have member := Array.mem_of_getElem? found
      obtain ⟨checked, short⟩ := reliable.trusted f member tier done c coded
      obtain ⟨pace, follows⟩ := code_follows reliable.accepted found lending
        (reliable.constants f member) coded.made
        (stands_of_compile reliable.accepted found coded.optimised coded.made checked) short
      refine ⟨pace, fun _ done' c' coded' => ?_⟩
      cases coded.optimised.symm.trans coded'.optimised
      cases coded.made.symm.trans coded'.made
      exact follows
    · exact ⟨0, fun found done c coded => absurd ⟨found, done, c, coded⟩ code⟩
  choose pace follows using each
  refine ⟨((m.functions.toList.product Tier.all).map fun x => pace x.1 x.2).sum + 1, Nat.succ_pos _,
    fun f tier found => (follows f tier found).mono (Nat.le_succ_of_le (List.le_sum_of_mem ?_))⟩
  refine List.mem_map.mpr ⟨(f, tier), List.pair_mem_product.mpr ⟨?_, ?_⟩, rfl⟩
  · exact Array.mem_def.mp (Array.mem_of_getElem? found)
  · cases tier <;> decide

/-- A session that has the module and is not closed, over code memory in order. -/
structure State.Running (setup : Setup) (m : Module) (s : State) : Prop where
  opened : s.closed = false
  module : s.program.map (·.module) = some m
  functions : s.slots.map (·.function) = m.functions.toList
  generated : s.Generated setup
  memory : ∃ placed, s.manager.Holds [] placed

theorem Moves.memory {setup : Setup} {s s' : State} (moves : State.Moves setup s s')
    (memory : ∃ placed, s.manager.Holds [] placed) : ∃ placed, s'.manager.Holds [] placed := by
  have installing : ∀ {manager : Manager}, s.Installing manager →
      ∃ placed, manager.Holds [] placed := by
    rintro manager ⟨name, code, rfl⟩
    obtain ⟨placed, holds⟩ := memory
    obtain ⟨placed', -, after, -⟩ := State.install_holds holds name code
    exact ⟨placed', after⟩
  cases moves with
  | still alike => exact alike.manager ▸ memory
  | promoted there due done =>
    cases done with
    | unavailable | crashed | refused => exact memory
    | crashedInstalling a succeeded changed => exact installing changed
    | uninstalled a succeeded changed e => exact installing changed
    | published chosen a succeeded changed e built level bytes program => exact installing changed

theorem State.Running.move {setup : Setup} {m : Module} {s s' : State} (running : s.Running setup m)
    (moves : Moves setup s s') : s'.Running setup m where
  opened := moves.module.2.trans running.opened
  module := moves.module.1.trans running.module
  functions := moves.functions.trans running.functions
  generated := running.generated.move moves
  memory := Moves.memory moves running.memory

section Promotions

variable {setup : Setup} {m : Module} {s : State} (accepted : m.defects = .ok [])
  (builtin : ∀ b ∈ setup.backends, b = .x64)

/-- Code memory in order takes code, or reports an error. -/
theorem State.install_ne_crash (memory : ∃ placed, s.manager.Holds [] placed) (name : String)
    (code : List UInt8) (c : Crash) : (s.install name code).1 ≠ .error (.crash c) := by
  obtain ⟨placed, holds⟩ := memory
  unfold State.install
  split
  · rintro ⟨⟩
  · next b begun =>
    have fresh : b = {} := by
      unfold Manager.begin at begun
      split at begun <;> cases begun
      rfl
    subst fresh
    have answers := Manager.Holds.install_ne_crash (b := {}) holds name code
    split
    · next crashed =>
      rw [crashed] at answers
      exact absurd rfl (answers _)
    · rintro ⟨⟩
    · split <;> rintro ⟨⟩

include accepted builtin in
/-- A promotion of a function of an accepted module does not crash. -/
theorem State.compileAndInstall_ne_crash {slot : Slot} (member : slot.function ∈ m.functions)
    (memory : ∃ placed, s.manager.Holds [] placed) (job : Job) (c : Crash) :
    (s.compileAndInstall setup slot job).1 ≠ .error (.crash c) := by
  unfold State.compileAndInstall
  split
  · rintro ⟨⟩
  · next tier backend chosen =>
    obtain ⟨-, -, has, -⟩ := Setup.backendFor_some chosen
    obtain ⟨name, -, named⟩ := Option.bind_eq_some_iff.mp has
    obtain rfl := builtin backend (backend?_eq named)
    obtain ⟨-, -, -, -, answers⟩ := promotion_answers accepted member tier
    obtain ⟨out, answer⟩ := answers s slot job.function rfl
    have compiled := compile_cases s slot job.function tier .x64
    revert compiled answer
    generalize s.compile slot job.function tier .x64 = r
    obtain ⟨result, after⟩ := r
    rintro (rfl : result = _) compiled
    cases compiled with
    | refused a own level => rintro ⟨⟩
    | made a succeeded code convention built =>
      dsimp only
      have installs := State.install_ne_crash (s := { s with attempts := a :: s.attempts }) memory
        s!"{slot.function.name}@{tier.name}" code.code
      split
      · next crashed =>
        rw [crashed] at installs
        exact absurd rfl (installs _)
      · rintro ⟨⟩
      · rintro ⟨⟩

include accepted builtin in
/-- Asking for a promotion has a result. -/
theorem State.Running.request (running : s.Running setup m) (job : Job) :
    (s.request setup job).1 = .ok () := by
  unfold State.request
  split
  · rfl
  · next slot there =>
    split
    · rfl
    · dsimp only
      split
      · rfl
      · have held : (s.acquire job.function).slot? job.function =
            some { slot with promoting := true } := by
          show (s.modifySlot _ _).slot? _ = _
          rw [State.slot?_modifySlot, if_pos rfl, there]
          rfl
        have member : slot.function ∈ m.functions := by
          have listed := List.mem_map_of_mem (f := Slot.function)
            (List.mem_of_getElem? ((State.slot?_eq s job.function).symm.trans there))
          rw [running.functions] at listed
          exact Array.mem_toList_iff.mp listed
        have memory : ∃ placed, (s.acquire job.function).manager.Holds [] placed := running.memory
        have answers : ∀ c, ((s.acquire job.function).compileAndInstall setup
            { slot with promoting := true } job).1 ≠ .error (.crash c) :=
          State.compileAndInstall_ne_crash accepted builtin member memory job
        unfold State.promote
        rw [held]
        dsimp only
        revert answers
        generalize ((s.acquire job.function).compileAndInstall setup { slot with promoting := true }
          job).1 = r
        intro answers
        cases r with
        | ok u => rfl
        | error e =>
          cases e with
          | error e => rfl
          | crash c => exact absurd rfl (answers c)

end Promotions

/-- Globals of the module, with integer words in normal form. -/
def Words (m : Module) (globals : Array Value) : Prop :=
  globals.size = m.globals.size ∧ ∀ v ∈ globals, NormalWord v

/-- A run of the evaluator alone and a call of a session that has got on from a state. -/
def agreeing (setup : Setup) (m : Module) (first : State) (ε : Type) :
    Link Unit State (Eval.Halt ε) Halt where
  worlds w w' := w'.globals = w.globals ∧ w'.hostCalls = w.hostCalls ∧ Words m w.globals ∧
    first.Reaches setup w'.rest
  left := Unpromised setup m
  right _ := False
  failures h h' := Reported h → Reported h'

theorem agreeing_shares (setup : Setup) (m : Module) (first : State) (ε : Type) :
    (agreeing setup m first ε).Shares NormalWord (Words m) where
  globals := fun w w' worlds => ⟨worlds.1, worlds.2.2.1⟩
  reset := fun w w' globals worlds good => ⟨rfl, worlds.2.1, good, worlds.2.2.2⟩
  store := by
    intro globals id v globals' good normal stored
    unfold storeGlobal at stored
    split at stored
    · cases stored
    · split at stored
      · cases stored
      · cases stored
        refine ⟨by simpa using good.1, fun x member => ?_⟩
        rcases Array.mem_or_eq_of_mem_setIfInBounds member with old | rfl
        · exact good.2 x old
        · exact normal
  values := fun globals good => good.2
  hostCalls := fun w w' worlds => worlds.2.1
  hosted := fun w w' h worlds => ⟨worlds.1, by rw [worlds.2.1], worlds.2.2⟩
  alike := fun _ _ _ _ => trivial
  host := fun _ _ _ => trivial
  crash := fun _ reported => reported

/-- The slots of a running session are for the functions of its module. -/
theorem State.Running.program {setup : Setup} {m : Module} {s : State} (running : s.Running setup m) :
    ∃ p, s.program = some p ∧ p.module = m ∧
      ∀ id, (p.slot? id).map (·.function) = m.function? id := by
  obtain ⟨p, present, same⟩ := Option.map_eq_some_iff.mp running.module
  refine ⟨p, present, same, fun id => ?_⟩
  have functions : p.slots.toList.map (·.function) = m.functions.toList := by
    simpa [State.slots, present] using running.functions
  have at_id := congrArg (fun fs : List Function => fs[id.num]?) functions
  simpa [Program.slot?, Module.function?] using at_id

section Calls

variable {setup : Setup} {m : Module} {first : State} {ε : Type} {pace : Nat}
  {callers : Nat → X64.State} (reliable : Reliable setup m)
  (paced : ∀ f tier, m.function? f.id = some f → Paced setup callers m f tier pace)
  (builtin : ∀ b ∈ setup.backends, b = .x64)
  (machine : setup.invoker = some (.machineFrom callers)) (running : first.Running setup m)

include builtin in
/-- The code that a function runs on. -/
theorem State.Running.code {s : State} (now : s.Running setup m) {id : FuncId} {slot : Slot}
    {e : Entry} (there : s.slot? id = some slot) (entry : slot.entry = some e) :
    ∃ done c, Coded setup slot.function e.tier done c ∧ c.convention = some e.convention ∧
      e.program = .ofBytes c.code := by
  have member : slot ∈ s.slots := List.mem_of_getElem? ((State.slot?_eq s id).symm.trans there)
  obtain ⟨above, backend, c, chosen, built, program⟩ := now.generated slot member e entry
  obtain ⟨done, optimised, made⟩ := built.made
  obtain ⟨name, _, named⟩ := Option.bind_eq_some_iff.mp chosen
  rw [builtin backend (backend?_eq named)] at made
  have made : X64.Baseline.compile done.function = .ok c := mapError_eq_ok.mp made
  refine ⟨done, c, ⟨above, Option.isSome_iff_exists.mpr ⟨_, chosen⟩, optimised, made⟩, ?_, program⟩
  rcases built.convention with some | ⟨none, _⟩
  · exact some
  · obtain ⟨_, _, some⟩ := (X64.Baseline.accepts_of_compile made).convention
    rw [none] at some
    cases some

include reliable paced builtin in
/-- A call of a function that runs on code. -/
theorem invoke_agrees {s : State} (now : s.Running setup m) {id : FuncId} {slot : Slot} {e : Entry}
    (there : s.slot? id = some slot) (found : m.function? id = some slot.function)
    (entry : slot.entry = some e) {fuel steps depth : Nat} (enough : pace * fuel ≤ steps)
    {args : List Value} (normal : ∀ v ∈ args, NormalWord v) {w : World Unit} {w' : World State}
    (worlds : (agreeing setup m first ε).worlds w w') (number : Nat) (manager : Manager) :
    (agreeing setup m first ε).Matches (fun v (x : Value × Nat) => x.1 = v ∧ NormalWord v)
      ((runAt (evalSetup setup) m fuel depth id args w).result,
        (runAt (ε := ε) (evalSetup setup) m fuel depth id args w).world)
      (((Invoker.machineFrom callers number steps manager m e args).mapError
        (Halt.ofNative slot.function.name e.tier)).map (·, 0), w') := by
  obtain ⟨done, c, coded, convention, program⟩ := now.code builtin there entry
  have member := Array.mem_of_getElem? found
  obtain ⟨_, rfl⟩ := Module.function_of_accepted reliable.accepted found
  have follows := paced slot.function e.tier found done c coded Unit ε (evalSetup setup)
    fuel steps depth args w number manager e convention program normal worlds.2.2.1.1 enough
  unfold Follows at follows
  generalize (runAt (ε := ε) (evalSetup setup) m fuel depth slot.function.id args w).world = after
    at follows
  cases result : (runAt (ε := ε) (evalSetup setup) m fuel depth slot.function.id args w).result with
  | ok v =>
    rw [result] at follows
    obtain ⟨answer, word, rfl⟩ := follows
    rw [answer]
    exact .ok worlds ⟨rfl, word⟩
  | error h =>
    rw [result] at follows
    rcases follows with free | ⟨⟨a, answer⟩, _, rfl⟩
    · exact .left (.inr ⟨slot.function, member, ⟨e.tier, done, c, coded⟩, free⟩)
    · rw [answer]
      exact .error worlds fun _ => trivial

include reliable paced builtin machine in
/-- A call on whatever the function runs on, when the calls it makes agree. -/
theorem runSlot_agrees {p : Program} (own : p.module = m) {fuel steps depth : Nat}
    (enough : pace * (fuel + 1) ≤ steps) (longer : fuel ≤ steps) {call : Call State Error}
    (calls : CallsMatch (agreeing setup m first ε) NormalWord
      (fun id args w =>
        let out := runAt (ε := ε) (evalSetup setup) m fuel (depth + 1) id args w
        (out.result, out.world)) call)
    {s : State} (now : s.Running setup m) {id : FuncId} {slot : Slot}
    (there : s.slot? id = some slot) (found : m.function? id = some slot.function)
    {args : List Value} (normal : ∀ v ∈ args, NormalWord v) {w : World Unit} {w' : World State}
    (worlds : (agreeing setup m first ε).worlds w w') :
    (agreeing setup m first ε).Matches
      (fun v (x : Value × Nat) => x.1 = v ∧ NormalWord v)
      ((runAt (evalSetup setup) m (fuel + 1) depth id args w).result,
        (runAt (ε := ε) (evalSetup setup) m (fuel + 1) depth id args w).world)
      (runSlot setup p call steps depth slot id args w') := by
  subst own
  unfold runSlot
  split
  · next e invoke entry chosen =>
    cases machine.symm.trans chosen
    have counted : (agreeing setup p.module first ε).worlds w
        { w' with rest := { w'.rest with nativeCalls := w'.rest.nativeCalls + 1 } } :=
      ⟨worlds.1, worlds.2.1, worlds.2.2.1, worlds.2.2.2.aside w'.rest.tracker _⟩
    exact invoke_agrees reliable paced builtin now there found entry enough normal counted _ _
  · have ended : (agreeing setup p.module first ε).Ends NormalWord
        (runAt (evalSetup setup) p.module (fuel + 1) depth id args w)
        (enter (evalSetup setup) p.module call steps depth id args w') :=
      enter_congr (agreeing_shares setup p.module first ε) closed_normalWord reliable.hosts found found
        (reliable.constants _ (Array.mem_of_getElem? found)) rfl rfl
        (fun globals start => ⟨size_initialGlobals start, reliable.initial globals start⟩) calls
        (.inr ⟨longer, .inl not_false⟩) normal worlds
    have ended := ended.result
    revert ended
    generalize enter (evalSetup setup) p.module call steps depth id args w' = out'
    obtain ⟨r', stats, after⟩ := out'
    dsimp only
    generalize (runAt (ε := ε) (evalSetup setup) p.module (fuel + 1) depth id args w).result = r
    generalize (runAt (ε := ε) (evalSetup setup) p.module (fuel + 1) depth id args w).world = v
    intro ended
    cases ended with
    | left free => exact .left free
    | right free => exact free.elim
    | ok worlds related => exact .ok worlds related
    | error worlds failures => exact .error worlds failures

include reliable paced builtin machine running in
/-- Calls of a session agree with the evaluator, however deep and with whatever calls they make in
turn. -/
theorem execute_agrees (positive : 0 < pace) {fuel steps : Nat} (enough : pace * fuel < steps)
    (depth : Nat) (id : FuncId) {args : List Value} (normal : ∀ v ∈ args, NormalWord v)
    {w : World Unit} {w' : World State} (worlds : (agreeing setup m first ε).worlds w w') :
    (agreeing setup m first ε).Matches (fun v v' => v' = v ∧ NormalWord v)
      ((runAt (evalSetup setup) m fuel depth id args w).result,
        (runAt (ε := ε) (evalSetup setup) m fuel depth id args w).world)
      (execute setup steps depth id args w') := by
  induction fuel generalizing steps depth id args w w' with
  | zero => exact .left (.inl not_false)
  | succ fuel ih =>
    obtain ⟨steps, rfl⟩ : ∃ n, steps = n + 1 := ⟨steps - 1, by omega⟩
    obtain ⟨globals, hostCalls, words, reaches⟩ := worlds
    have now : w'.rest.Running setup m := reaches.keeps (fun _ _ moves before => before.move moves) running
    obtain ⟨p, present, rfl, functions⟩ := now.program
    unfold execute
    rw [now.opened, present]
    simp only [Bool.false_eq_true, if_false]
    cases there : p.slot? id with
    | none =>
      have unknown : p.module.function? id = none := by rw [← functions, there]; rfl
      simp only [runAt, enter, unknown]
      exact .error ⟨globals, hostCalls, words, reaches⟩ fun _ => trivial
    | some slot =>
      have found : p.module.function? id = some slot.function := by rw [← functions, there]; rfl
      dsimp only
      generalize recorded : w'.rest.tracker.record id.num = record
      obtain ⟨count, tracker⟩ := record
      dsimp only
      have counted : (agreeing setup p.module first ε).worlds w
          { w' with rest := { w'.rest with tracker } } :=
        ⟨globals, hostCalls, words, reaches.aside tracker w'.rest.nativeCalls⟩
      have ran : (agreeing setup p.module first ε).Matches
          (fun v (x : Value × Nat) => x.1 = v ∧ NormalWord v)
          ((runAt (evalSetup setup) p.module (fuel + 1) depth id args w).result,
            (runAt (ε := ε) (evalSetup setup) p.module (fuel + 1) depth id args w).world)
          (runSlot setup p (execute setup steps (depth + 1)) steps depth slot id args
            { w' with rest := { w'.rest with tracker } }) := by
        have shorter : pace * fuel < steps := by
          rw [Nat.mul_succ] at enough
          omega
        have longer : fuel ≤ pace * fuel := Nat.le_mul_of_pos_left fuel positive
        refine runSlot_agrees reliable paced builtin machine rfl (Nat.le_of_lt_succ enough)
          (by omega) (fun id args w w' worlds fine => ih shorter (depth + 1) id fine worlds) now
          (by rw [State.slot?, present]; exact there) found normal counted
      revert ran
      generalize (runAt (ε := ε) (evalSetup setup) p.module (fuel + 1) depth id args w).world = after
      generalize (runAt (ε := ε) (evalSetup setup) p.module (fuel + 1) depth id args w).result = result
      generalize runSlot setup p (execute setup steps (depth + 1)) steps depth slot id args
            { w' with rest := { w'.rest with tracker } } = out
      intro ran
      cases ran with
      | left free => exact .left free
      | right free => exact free.elim
      | error worlds failures => exact .error worlds failures
      | @ok v x _ w'' worlds related =>
        obtain ⟨v', blocks⟩ := x
        obtain ⟨rfl, word⟩ := related
        obtain ⟨globals, hostCalls, words, reaches⟩ := worlds
        dsimp only
        split
        · have next := reaches.request ⟨id, wantedTier setup.config count blocks⟩
          have answers := (reaches.keeps (fun _ _ moves before => before.move moves) running).request
            reliable.accepted builtin ⟨id, wantedTier setup.config count blocks⟩
          split
          · next requested =>
            rw [requested] at next
            exact .ok ⟨globals, hostCalls, words, next⟩ ⟨rfl, word⟩
          · next requested =>
            rw [requested] at answers
            cases answers
        · exact .ok ⟨globals, hostCalls, words, reaches⟩ ⟨rfl, word⟩

include reliable builtin machine in
/-- Arguments of other types than the parameters' are refused on every tier. -/
theorem runSlot_of_mismatch {p : Program} (own : p.module = m) (steps depth : Nat)
    (call : Call State Error) {s : State} (now : s.Running setup m) {id : FuncId} {slot : Slot}
    (there : s.slot? id = some slot) (found : m.function? id = some slot.function)
    {args : List Value} (mismatch : args.map (·.ty) ≠ slot.function.sig.params) (w : World State) :
    ∃ h nativeCalls, Reported h ∧ runSlot setup p call steps depth slot id args w =
      (.error h, { w with rest := { w.rest with nativeCalls } }) := by
  subst own
  unfold runSlot
  split
  · next e invoke entry chosen =>
    cases machine.symm.trans chosen
    obtain ⟨done, c, coded, convention, _⟩ := now.code builtin there entry
    obtain ⟨_, rfl⟩ := Module.function_of_accepted reliable.accepted found
    obtain ⟨checked, _⟩ := reliable.trusted _ (Array.mem_of_getElem? found) e.tier done c coded
    have header := (stands_of_compile reliable.accepted found coded.optimised coded.made checked).header
    obtain ⟨_, placed, same⟩ := (X64.Baseline.accepts_of_compile coded.made).convention
    cases convention.symm.trans same
    rw [header.sig] at placed
    obtain ⟨a, refused⟩ : ∃ a, e.convention.marshal args = .error a := by
      cases marshalled : e.convention.marshal args with
      | error a => exact ⟨a, rfl⟩
      | ok words => exact absurd (Convention.matching_of_marshal placed marshalled) mismatch
    simp only [Invoker.machineFrom, refused]
    exact ⟨.other (.native slot.function.name e.tier (.arguments a)), _, trivial, rfl⟩
  · obtain ⟨e, refused⟩ := enter_of_mismatch (evalSetup setup) call steps depth found mismatch w
    rw [refused]
    exact ⟨.fault e, w.rest.nativeCalls, trivial, rfl⟩

include reliable builtin machine running in
theorem execute_of_mismatch {id : FuncId} {f : Function} (found : m.function? id = some f)
    {args : List Value} (mismatch : args.map (·.ty) ≠ f.sig.params) (steps depth : Nat)
    {w : World Unit} {w' : World State} (worlds : (agreeing setup m first ε).worlds w w') :
    ∃ h w'', Reported h ∧ execute setup (steps + 1) depth id args w' = (.error h, w'') ∧
      (agreeing setup m first ε).worlds w w'' := by
  obtain ⟨globals, hostCalls, words, reaches⟩ := worlds
  have now : w'.rest.Running setup m := reaches.keeps (fun _ _ moves before => before.move moves) running
  obtain ⟨p, present, own, functions⟩ := now.program
  obtain ⟨slot, there, rfl⟩ := Option.map_eq_some_iff.mp ((functions id).trans found)
  unfold execute
  rw [now.opened, present]
  simp only [Bool.false_eq_true, if_false, there]
  obtain ⟨h, nativeCalls, reported, refused⟩ := runSlot_of_mismatch reliable builtin machine own
    steps depth (execute setup steps (depth + 1)) now
    (by rw [State.slot?, present]; exact there) found mismatch
    { w' with rest := { w'.rest with tracker := (w'.rest.tracker.record id.num).2 } }
  rw [refused]
  exact ⟨h, _, reported, rfl, globals, hostCalls, words, reaches.aside _ nativeCalls⟩

end Calls

/-- What is asked of a call in a session, for what the evaluator does with it. -/
inductive Agrees {ε : Type} : Except (Eval.Halt ε) Value → Except Halt Value → Prop where
  | value (v : Value) : Agrees (.ok v) (.ok v)
  | error {h : Eval.Halt ε} {h' : Halt} (reported : Reported h) (reported' : Reported h') :
      Agrees (.error h) (.error h')

/-- The evaluator's end of a call is one that a session follows: a value, an error that no code need
not follow, or the refusal of arguments. -/
def Promised {ε : Type} (setup : Setup) (m : Module) (id : FuncId) (args : List Value) :
    Except (Eval.Halt ε) Value → Prop
  | .ok _ => True
  | .error h => Reported h ∧
    (¬ Unpromised setup m h ∨ ∃ f ∈ m.function? id, args.map (·.ty) ≠ f.sig.params)

/-- The calls among operations, made by the evaluator alone: what they give, and the world they
leave. -/
def interpretAll (setup : Eval.Setup) (m : Module) (fuel : Nat) :
    List Operation → World Unit → List (Except (Eval.Halt Empty) Value) × World Unit
  | [], w => ([], w)
  | .drain :: ops, w | .tick _ :: ops, w => interpretAll setup m fuel ops w
  | .call id args :: ops, w =>
    let out := runAt setup m fuel 0 id args w
    let (results, w) := interpretAll setup m fuel ops out.world
    (out.result :: results, w)

/-- The evaluator ends every call among operations in a way that sessions follow, on arguments in
normal form. -/
def Promises (setup : Setup) (m : Module) (fuel : Nat) : List Operation → World Unit → Prop
  | [], _ => True
  | .drain :: ops, w | .tick _ :: ops, w => Promises setup m fuel ops w
  | .call id args :: ops, w =>
    let out := runAt (ε := Empty) (evalSetup setup) m fuel 0 id args w
    (∀ v ∈ args, NormalWord v) ∧ Promised setup m id args out.result ∧
      Promises setup m fuel ops out.world

/-- Calls on arguments in normal form that give values are followed. -/
theorem promises_of_values {setup : Setup} {m : Module} {fuel : Nat} {ops : List Operation}
    {w : World Unit} (normal : ∀ id args, .call id args ∈ ops → ∀ v ∈ args, NormalWord v)
    (values : ∀ r ∈ (interpretAll (evalSetup setup) m fuel ops w).1, r.isOk = true) :
    Promises setup m fuel ops w := by
  induction ops generalizing w with
  | nil => trivial
  | cons op ops ih =>
    have rest : ∀ id args, .call id args ∈ ops → ∀ v ∈ args, NormalWord v :=
      fun id args member => normal id args (List.mem_cons_of_mem _ member)
    cases op with
    | drain => exact ih rest values
    | tick jobs => exact ih rest values
    | call id args =>
      refine ⟨normal id args List.mem_cons_self, ?_,
        ih rest fun r member => values r (List.mem_cons_of_mem _ member)⟩
      have returned := values _ List.mem_cons_self
      revert returned
      generalize (runAt (ε := Empty) (evalSetup setup) m fuel 0 id args w).result = result
      intro returned
      cases result with
      | ok v => trivial
      | error h => cases returned

/-- What the calls among operations give in a session whose calls may take so many steps, and the
session they leave. -/
def answerAll (steps : Nat) : List Operation → Session → List (Except Halt Value) × Session
  | [], s => ([], s)
  | .drain :: ops, s => answerAll steps ops s.drain.2
  | .tick jobs :: ops, s => answerAll steps ops (s.tick jobs).2
  | .call id args :: ops, s =>
    let (answer, world) := execute s.setup steps 0 id args s.world
    let (answers, s) := answerAll steps ops { s with world }
    (answer :: answers, s)

/-- Calls of a session take ample fuel. -/
theorem answerAll_ampleFuel (ops : List Operation) (s : Session) :
    (answerAll ampleFuel ops s).2 = s.performAll ops := by
  induction ops generalizing s with
  | nil => rfl
  | cons op ops ih =>
    cases op with
    | call id args => exact ih _
    | drain => exact ih _
    | tick jobs => exact ih _

/-- Working off the queue shows in the state of a session only. -/
theorem drain_world (s : Session) :
    s.drain.2.world.globals = s.world.globals ∧ s.drain.2.world.hostCalls = s.world.hostCalls := by
  unfold drain
  split
  · exact ⟨rfl, rfl⟩
  · split <;> exact ⟨rfl, rfl⟩

theorem tick_world (s : Session) (jobs : Nat) : (s.tick jobs).2.world.globals = s.world.globals ∧
    (s.tick jobs).2.world.hostCalls = s.world.hostCalls := by
  unfold tick
  split <;> exact ⟨rfl, rfl⟩

/-- What is done between the calls changes the state of the session only. -/
theorem agreeing_aside {m : Module} {first : State} {ε : Type} {s : Session} {w : World Unit}
    (worlds : (agreeing s.setup m first ε).worlds w s.world) (op : Operation)
    (same : (s.perform op).world.globals = s.world.globals ∧
      (s.perform op).world.hostCalls = s.world.hostCalls) :
    (agreeing s.setup m first ε).worlds w (s.perform op).world := by
  obtain ⟨globals, hostCalls, words, reaches⟩ := worlds
  exact ⟨same.1.trans globals, same.2.trans hostCalls, words, reaches_perform reaches op⟩

section Operations

variable {setup : Setup} {m : Module} {first : State} {pace fuel steps : Nat}
  {callers : Nat → X64.State} (reliable : Reliable setup m)
  (paced : ∀ f tier, m.function? f.id = some f → Paced setup callers m f tier pace)
  (positive : 0 < pace) (enough : pace * fuel < steps) (builtin : ∀ b ∈ setup.backends, b = .x64)
  (machine : setup.invoker = some (.machineFrom callers)) (running : first.Running setup m)
include reliable paced positive enough builtin machine running

/-- One call, in worlds that belong together. -/
theorem call_agrees {ε : Type} {id : FuncId} {args : List Value}
    (normal : ∀ v ∈ args, NormalWord v) {w : World Unit} {w' : World State}
    (worlds : (agreeing setup m first ε).worlds w w')
    (promised : Promised setup m id args
      (runAt (ε := ε) (evalSetup setup) m fuel 0 id args w).result) :
    Agrees (runAt (ε := ε) (evalSetup setup) m fuel 0 id args w).result
        (execute setup steps 0 id args w').1 ∧
      (agreeing setup m first ε).worlds (runAt (ε := ε) (evalSetup setup) m fuel 0 id args w).world
        (execute setup steps 0 id args w').2 := by
  by_cases refused : ∃ f ∈ m.function? id, args.map (·.ty) ≠ f.sig.params
  · obtain ⟨f, found, mismatch⟩ := refused
    obtain ⟨steps, rfl⟩ : ∃ n, steps = n + 1 := ⟨steps - 1, by omega⟩
    obtain ⟨h, after, reported, answer, worlds⟩ := execute_of_mismatch reliable builtin machine running
      found mismatch steps 0 worlds
    rw [answer]
    cases fuel with
    | zero => exact promised.1.elim
    | succ fuel =>
      unfold runAt
      dsimp only
      generalize (fun id args w => ((runAt (ε := ε) (evalSetup setup) m fuel (0 + 1) id args w).result,
        (runAt (ε := ε) (evalSetup setup) m fuel (0 + 1) id args w).world)) = call
      obtain ⟨e, entered⟩ := enter_of_mismatch (evalSetup setup) call fuel 0 found mismatch w
      rw [entered]
      exact ⟨.error trivial reported, worlds⟩
  · have matched := execute_agrees (ε := ε) reliable paced builtin machine running positive enough 0 id
      normal worlds
    revert matched promised
    generalize (runAt (ε := ε) (evalSetup setup) m fuel 0 id args w).world = after
    generalize (runAt (ε := ε) (evalSetup setup) m fuel 0 id args w).result = result
    generalize execute setup steps 0 id args w' = out
    intro promised matched
    cases matched with
    | left free => exact absurd free (promised.2.resolve_right refused)
    | right free => exact free.elim
    | ok worlds related =>
      obtain ⟨rfl, _⟩ := related
      exact ⟨.value _, worlds⟩
    | error worlds failures => exact ⟨.error promised.1 (failures promised.1), worlds⟩

/-- Operations one after the other. -/
theorem operations_agree {ops : List Operation} {w : World Unit} {s : Session}
    (own : s.setup = setup) (worlds : (agreeing setup m first Empty).worlds w s.world)
    (promises : Promises setup m fuel ops w) :
    List.Forall₂ Agrees (interpretAll (evalSetup setup) m fuel ops w).1 (answerAll steps ops s).1 ∧
      (agreeing setup m first Empty).worlds (interpretAll (evalSetup setup) m fuel ops w).2
        (answerAll steps ops s).2.world := by
  induction ops generalizing w s with
  | nil => exact ⟨.nil, worlds⟩
  | cons op ops ih =>
    cases op with
    | drain =>
      subst own
      exact ih (setup_perform s .drain) (agreeing_aside worlds .drain (drain_world s)) promises
    | tick jobs =>
      subst own
      exact ih (setup_perform s (.tick jobs)) (agreeing_aside worlds (.tick jobs) (tick_world s jobs))
        promises
    | call id args =>
      subst own
      obtain ⟨normal, promised, rest⟩ := promises
      obtain ⟨agrees, worlds⟩ := call_agrees reliable paced positive enough builtin machine running
        normal worlds promised
      obtain ⟨agree, last⟩ := ih (s := { s with
        world := (execute s.setup steps 0 id args s.world).2 }) rfl worlds rest
      exact ⟨.cons agrees agree, last⟩

end Operations

/-- A state in which no function has been promoted yet runs the module. -/
theorem State.Blank.running {setup : Setup} {m : Module} {s : State} (blank : s.Blank m)
    (opened : s.closed = false) (given : s.program.isSome = true)
    (memory : ∃ placed, s.manager.Holds [] placed) : s.Running setup m := by
  obtain ⟨p, present⟩ := Option.isSome_iff_exists.mp given
  obtain ⟨own, slots⟩ := blank.program p present
  refine ⟨opened, by rw [present, Option.map_some, own], ?_, ?_, memory⟩
  · simp [State.slots, present, slots, Function.comp_def]
  · intro slot member e entry
    simp only [State.slots, present, slots, Option.map_some, Option.getD_some, Array.toList_map,
      List.mem_map] at member
    obtain ⟨f, _, rfl⟩ := member
    cases entry

/-- A session that has been given an accepted module runs it, from the initial globals. It does so
also when compiling the functions at once has not come to its end. -/
theorem running_of_register {s : Session} {m : Module} (accepted : m.defects = .ok [])
    (blank : s.state.Blank m) (opened : s.state.closed = false) (absent : s.state.program = none)
    (memory : ∃ placed, s.state.manager.Holds [] placed) (turns : List Compiling.Turn) :
    (s.register m turns).2.setup = s.setup ∧ (s.register m turns).2.state.Running s.setup m ∧
      (s.register m turns).2.state.Orderly ∧
      initialGlobals m = .ok (s.register m turns).2.world.globals ∧
      (s.register m turns).2.world.hostCalls = s.world.hostCalls := by
  have outcome := register_cases s m turns
  revert outcome
  generalize s.register m turns = out
  intro outcome
  cases outcome with
  | refused reason =>
    cases reason with
    | closed shut => cases opened.symm.trans shut
    | invalid opened found some =>
      cases accepted.symm.trans found
      exact absurd rfl some
    | registered opened accepted present => simp [absent] at present
  | crashed failed =>
    obtain ⟨globals, initial⟩ := initialGlobals_of_accepted accepted
    rcases failed with failed | failed
    · cases accepted.symm.trans failed
    · cases initial.symm.trans failed
  | @interpreted globals takes lazily =>
    have blank' := blank.published globals
    exact ⟨rfl, blank'.running opened rfl memory, (blank'.reaches s.setup).orderly, takes.initial, rfl⟩
  | @compiled globals takes eagerly r state ran =>
    have blank' := blank.published globals
    have compiled := (blank'.reaches s.setup).compileAll turns (atOnce m)
    rw [ran] at compiled
    exact ⟨rfl, compiled.keeps (fun _ _ moves before => before.move moves)
      (blank'.running opened rfl memory), compiled.orderly, takes.initial, rfl⟩

/-- In a session whose functions run on the built-in generator's code, calls agree with the evaluator
alone, whatever promotions happen between and during them: they give the same values, report an error
where the evaluator reports one, and leave the same globals and the same record of host calls. That is
so also when compiling all functions at once has been given up. Code takes at most a fixed number of
instructions for each block that the evaluator enters, from whatever state of the machine it is
called. -/
theorem tiers_agree {setup : Setup} {page limit : Int} {s : Session}
    (started : start setup { Heap.ofPage page with limit } = .ok s)
    (builtin : ∀ b ∈ s.setup.backends, b = .x64) {callers : Nat → X64.State}
    (lending : Lending callers) (machine : s.setup.invoker = some (.machineFrom callers))
    {m : Module} (reliable : Reliable s.setup m) (turns : List Compiling.Turn) :
    ∃ globals pace, initialGlobals m = .ok globals ∧ ∀ (fuel steps : Nat) (ops : List Operation),
      pace * fuel < steps → Promises s.setup m fuel ops ⟨globals, [], ()⟩ →
      let (results, w) := interpretAll (evalSetup s.setup) m fuel ops ⟨globals, [], ()⟩
      let (answers, last) := answerAll steps ops (s.register m turns).2
      List.Forall₂ Agrees results answers ∧ last.world.globals = w.globals ∧
        last.world.hostCalls = w.hostCalls := by
  obtain ⟨pace, positive, paced⟩ := reliable.paced lending
  have fresh : s.state.Blank m ∧ s.state.closed = false ∧ s.state.program = none ∧
      s.world.hostCalls = [] ∧ ∃ placed, s.state.manager.Holds [] placed := by
    obtain ⟨_, _, same⟩ := bind_eq_ok.mp started
    cases same
    exact ⟨⟨by rintro p ⟨⟩, rfl, rfl, rfl, rfl⟩, rfl, rfl, rfl, [], Manager.holds_ofHeap page limit _⟩
  obtain ⟨blank, opened, absent, quiet, memory⟩ := fresh
  obtain ⟨own, running, orderly, initial, hostCalls⟩ :=
    running_of_register reliable.accepted blank opened absent memory turns
  refine ⟨_, pace, initial, fun fuel steps ops enough promises => ?_⟩
  have worlds : (agreeing s.setup m (s.register m turns).2.state Empty).worlds
      ⟨(s.register m turns).2.world.globals, [], ()⟩ (s.register m turns).2.world :=
    ⟨rfl, hostCalls.trans quiet, ⟨size_initialGlobals initial, reliable.initial _ initial⟩,
      orderly, .refl⟩
  obtain ⟨agree, globals, calls, _⟩ := operations_agree reliable paced positive enough builtin machine
    running own worlds promises
  exact ⟨agree, globals, calls⟩

/-- Adds its arguments. -/
def sums : Function := {
  name := "sum"
  sig := { params := [.i64, .i64], ret := .i64 }
  params := [⟨0⟩, ⟨1⟩]
  regTypes := #[.i64, .i64, .i64]
  blocks := #[
    some { id := ⟨0⟩, insts := [{ op := .add, dest := ⟨2⟩, ty := .i64, args := [⟨0⟩, ⟨1⟩] }],
           term := .ret (some ⟨2⟩) }] }

/-- Adds its argument to a global, by a call. -/
def tallies : Function := {
  id := ⟨1⟩
  name := "tally"
  sig := { params := [.i64], ret := .i64 }
  params := [⟨0⟩]
  regTypes := #[.i64, .i64, .i64]
  blocks := #[
    some { id := ⟨0⟩, insts := [{ op := .loadGlobal, dest := ⟨1⟩, ty := .i64, global := ⟨0⟩ },
                                { op := .call, dest := ⟨2⟩, ty := .i64, args := [⟨1⟩, ⟨0⟩] },
                                { op := .storeGlobal, args := [⟨2⟩], global := ⟨0⟩ }],
           term := .ret (some ⟨2⟩) }] }

def tallying : Module := {
  functions := #[sums, tallies]
  globals := #[some { name := "total", ty := .i64, init := .ofInt .i64 0 }] }

theorem initialGlobals_tallying : initialGlobals tallying = .ok #[.ofInt .i64 0] := by decide +kernel

theorem reliable_tallying {setup : Setup} (alone : ∀ name, setup.hosts name = none) :
    Reliable setup tallying where
  accepted := by decide +kernel
  trusted := by
    intro f member tier done c coded
    have checked : ∀ f ∈ tallying.functions, f.typingErrors = .ok [] ∧ f.SingleAssignment := by
      decide +kernel
    have short : ∀ f ∈ tallying.functions, ∀ tier ∈ Tier.all,
        ((((Pass.Pipeline.forLevel tier.optLevel).runFunction f {}).toOption.bind fun done =>
          (X64.Baseline.compile done.function).toOption).all fun c => c.code.length < 2 ^ 31) = true := by
      decide +kernel
    have own := short f member tier (by cases tier <;> decide)
    simp only [coded.optimised, coded.made, Except.toOption, Option.bind_some, Option.all_some,
      decide_eq_true_eq] at own
    exact ⟨.inr (checked f member), own⟩
  constants := by
    intro f member id b _ found i inside _
    have normal : ∀ f ∈ tallying.functions, ∀ b? ∈ f.blocks, ∀ b ∈ b?, ∀ i ∈ b.insts,
        NormalWord i.const := by decide +kernel
    exact normal f member _ (Array.mem_of_getElem? (Function.block?_eq_some.mp found)) b rfl i inside
  initial := by
    intro globals start
    cases initialGlobals_tallying.symm.trans start
    decide +kernel
  hosts := by
    intro name run past args v given
    cases (alone name).symm.trans given

/-- A session on a machine that is in the middle of something whenever it calls code. -/
def onBusyMachine : Setup := { onMachine with invoker := some (.machineFrom fun _ => X64.busy) }

theorem lending_busy : Lending fun _ => X64.busy := fun _ => ⟨2029, by decide, X64.lends_busy⟩

/-- Calls that add to the global, with the called function on code from the second on. -/
theorem tiers_agree_tally : ∃ s steps, start onBusyMachine (.ofPage 4096) = .ok s ∧
    (answerAll ampleFuel [.call ⟨1⟩ [.ofInt .i64 5]] (s.register tallying).2).2.tierOf ⟨0⟩ ≠
      .interpreted ∧
    List.Forall₂ Agrees [(.ok (.ofInt .i64 5) : Except (Eval.Halt Empty) Value), .ok (.ofInt .i64 12)]
      (answerAll steps [.call ⟨1⟩ [.ofInt .i64 5], .drain, .tick 1, .call ⟨1⟩ [.ofInt .i64 7]]
        (s.register tallying).2).1 := by
  obtain ⟨s, started⟩ : ∃ s, start onBusyMachine { Heap.ofPage 4096 with limit := 0 } = .ok s :=
    ⟨_, rfl⟩
  have own : s.setup.backends = [.x64] ∧ s.setup.invoker = onBusyMachine.invoker ∧
      s.setup.hosts = fun _ => none := by
    obtain ⟨_, _, same⟩ := bind_eq_ok.mp started
    cases same
    exact ⟨rfl, rfl, rfl⟩
  obtain ⟨globals, pace, initial, agree⟩ := tiers_agree started (by simp [own.1]) lending_busy
    own.2.1 (reliable_tallying (by simp [own.2.2])) []
  cases initialGlobals_tallying.symm.trans initial
  have results : (interpretAll (evalSetup s.setup) tallying 3
      [.call ⟨1⟩ [.ofInt .i64 5], .drain, .tick 1, .call ⟨1⟩ [.ofInt .i64 7]]
      ⟨#[.ofInt .i64 0], [], ()⟩).1 = [.ok (.ofInt .i64 5), .ok (.ofInt .i64 12)] := by
    simp only [evalSetup, own.2.2]
    decide +kernel
  have promises : Promises s.setup tallying 3
      [.call ⟨1⟩ [.ofInt .i64 5], .drain, .tick 1, .call ⟨1⟩ [.ofInt .i64 7]]
      ⟨#[.ofInt .i64 0], [], ()⟩ := by
    refine promises_of_values (fun id args called => ?_) (by rw [results]; decide)
    simp only [List.mem_cons, List.not_mem_nil, or_false, Operation.call.injEq, reduceCtorEq,
      false_or] at called
    rcases called with ⟨-, rfl⟩ | ⟨-, rfl⟩ <;> decide +kernel
  have both := agree 3 (pace * 3 + 1) _ (Nat.lt_succ_self _) promises
  refine ⟨s, pace * 3 + 1, started, ?_, results ▸ both.1⟩
  have promoted : ((start onBusyMachine (.ofPage 4096)).toOption.map fun s =>
      (answerAll ampleFuel [.call ⟨1⟩ [.ofInt .i64 5]] (s.register tallying).2).2.tierOf ⟨0⟩) =
      some .baseline := by decide +kernel
  rw [show start onBusyMachine (.ofPage 4096) = .ok s from started] at promoted
  cases promoted' : (answerAll ampleFuel [.call ⟨1⟩ [.ofInt .i64 5]]
    (s.register tallying).2).2.tierOf ⟨0⟩ <;> simp_all [Except.toOption]

/-- Doubles a number that it sets to one, or to two, before. -/
def clobbers : Function := {
  name := "clobber"
  sig := { params := [.bool], ret := .i32 }
  params := [⟨0⟩]
  regTypes := #[.bool, .i32, .i32]
  blocks := #[
    some { id := ⟨0⟩, insts := [{ op := .const, dest := ⟨1⟩, ty := .i32, const := .ofInt .i32 1 }],
           term := .condBr ⟨0⟩ ⟨1⟩ ⟨2⟩ },
    some { id := ⟨1⟩, insts := [{ op := .const, dest := ⟨1⟩, ty := .i32, const := .ofInt .i32 2 }],
           term := .br ⟨2⟩ },
    some { id := ⟨2⟩, insts := [{ op := .add, dest := ⟨2⟩, ty := .i32, args := [⟨1⟩, ⟨1⟩] }],
           term := .ret (some ⟨2⟩) }] }

/-- Ends in a place that was thought not to be reached when its argument is true. -/
def booms : Function := {
  id := ⟨1⟩
  name := "boom"
  sig := { params := [.bool], ret := .void }
  params := [⟨0⟩]
  regTypes := #[.bool]
  blocks := #[
    some { id := ⟨0⟩, term := .condBr ⟨0⟩ ⟨1⟩ ⟨2⟩ },
    some { id := ⟨1⟩, term := .unreachable },
    some { id := ⟨2⟩, term := .ret none }] }

/-- A session in which a function is on the standard tier after one call. -/
def onHotMachine : Setup :=
  { onMachine with config := { onMachine.config with thresholds := ⟨1, 1, 3, 4, 1⟩ } }

/-- Sessions answer otherwise than the evaluator once functions are promoted: where the typing check
rejects a function and what is left of it passes, where a register with a constant is assigned twice
and its constant is folded nevertheless, and where code traps that was not meant to be reached. -/
theorem tiers_differ :
    ({ functions := #[picks] } : Module).defects = .ok [] ∧
    ({ functions := #[clobbers, booms] } : Module).defects = .ok [] ∧
    (interpretAll (evalSetup onMachine) { functions := #[picks] } 3
      [.call ⟨0⟩ [.ofBool false, .ofInt .i32 7], .call ⟨0⟩ [.ofBool false, .ofInt .i32 7],
       .call ⟨0⟩ [.ofBool true, .ofInt .i32 7]] ⟨#[], [], ()⟩).1 =
      [.ok (.ofInt .i32 7), .ok (.ofInt .i32 7),
       .error (.fault ⟨"pick", ⟨1⟩, .binaryTypes .add .i32 .i32 .bool⟩)] ∧
    ((start onMachine (.ofPage 4096)).toOption.map fun s =>
      (answerAll ampleFuel
        [.call ⟨0⟩ [.ofBool false, .ofInt .i32 7], .call ⟨0⟩ [.ofBool false, .ofInt .i32 7],
         .call ⟨0⟩ [.ofBool true, .ofInt .i32 7]]
        (s.register { functions := #[picks] }).2).1) =
      some [.ok (.ofInt .i32 7), .ok (.ofInt .i32 7), .ok (.ofInt .i32 7)] ∧
    (interpretAll (evalSetup onHotMachine) { functions := #[clobbers, booms] } 3
      [.call ⟨0⟩ [.ofBool false], .call ⟨0⟩ [.ofBool false],
       .call ⟨1⟩ [.ofBool false], .call ⟨1⟩ [.ofBool true]] ⟨#[], [], ()⟩).1 =
      [.ok (.ofInt .i32 2), .ok (.ofInt .i32 2), .ok .void,
       .error (.fault ⟨"boom", ⟨1⟩, .reachedUnreachable⟩)] ∧
    ((start onHotMachine (.ofPage 4096)).toOption.map fun s =>
      (answerAll ampleFuel
        [.call ⟨0⟩ [.ofBool false], .call ⟨0⟩ [.ofBool false],
         .call ⟨1⟩ [.ofBool false], .call ⟨1⟩ [.ofBool true]]
        (s.register { functions := #[clobbers, booms] }).2).1) =
      some [.ok (.ofInt .i32 2), .ok (.ofInt .i32 4), .ok .void, .error (.crash .outOfRange)] := by
  decide +kernel

end TieredEngine.Session
