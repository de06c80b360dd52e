import TieredEngine.Proofs.Native.X64.Acceptance
import TieredEngine.Proofs.Native.X64.Totality
import TieredEngine.Proofs.Pass.Pipeline
import TieredEngine.Proofs.Session.Compiling

/-!
The code that functions run on. An entry holds what the generator of its tier has made of the
function after the optimisations of that tier. The typing check is part of the generator, so it sees
the optimised function: one that is badly typed only where optimisation removes instructions can
leave the interpreter, though not for the baseline tier, which optimises nothing.

A promotion cannot crash before there is code to install. The passes and the generator are run on
functions that only the structural check has accepted: operands may be missing, registers undeclared
and blocks out of reach. What the passes make of such a function passes the structural check too,
and that is all the generator needs to make code or refuse the function.
-/
namespace TieredEngine.Session
open TieredEngine TieredEngine.Ir TieredEngine.Native

/-- An entry comes from the generator of its tier, run on the function. -/
structure Entry.Made (setup : Setup) (slot : Slot) (e : Entry) : Prop where
  compiled : e.tier ≠ .interpreted
  made : ∃ backend code, setup.backendOf? e.tier = some backend ∧
    slot.Built e.tier backend code e.convention ∧ e.program = .ofBytes code.code

namespace State

/-- Every entry comes from a generator. -/
def Generated (setup : Setup) (s : State) : Prop :=
  ∀ slot ∈ s.slots, ∀ e, slot.entry = some e → e.Made setup slot

/-- Changes of one slot that keep its function. -/
theorem Generated.modifySlot {setup : Setup} {s : State} (generated : s.Generated setup)
    (id : FuncId) {f : Slot → Slot} (function : ∀ slot, (f slot).function = slot.function)
    (entry : ∀ slot e, s.slot? id = some slot → (f slot).entry = some e →
      slot.entry = some e ∨ e.Made setup slot) : (s.modifySlot id f).Generated setup := by
  intro x member e present
  rcases mem_modifySlot member with old | ⟨slot, there, rfl⟩
  · exact generated x old e present
  · have own := generated slot (List.mem_of_getElem? ((slot?_eq s id).symm.trans there))
    have made : e.Made setup slot := by
      rcases entry slot e there present with old | new
      · exact own e old
      · exact new
    obtain ⟨compiled, backend, code, chosen, built, program⟩ := made
    refine ⟨compiled, backend, code, chosen, ⟨?_, ?_⟩, program⟩
    · rw [function]
      exact built.made
    · rw [function]
      exact built.convention

theorem Generated.move {setup : Setup} {s s' : State} (generated : s.Generated setup)
    (moves : Moves setup s s') : s'.Generated setup := by
  cases moves with
  | still alike =>
    intro slot member e present
    obtain ⟨x, held, there, rfl⟩ := alike.mem member
    obtain ⟨compiled, backend, code, chosen, built, program⟩ := generated x there e present
    exact ⟨compiled, backend, code, chosen, ⟨built.made, built.convention⟩, program⟩
  | @promoted slot job there due done =>
    cases done with
    | unavailable => exact generated.modifySlot _ (fun _ => rfl) fun _ _ _ present => .inl present
    | crashed => exact generated
    | @refused tier _ _ a _ _ =>
      have same : Generated setup { s with attempts := a :: s.attempts, failures := s.failures + 1 } :=
        generated
      exact same.modifySlot _ (fun _ => rfl) fun _ _ _ present => .inl present
    | crashedInstalling a succeeded installing => exact generated
    | uninstalled a succeeded installing e => exact generated
    | @published tier backend chosen a succeeded manager _ code e built level bytes program =>
      have same : Generated setup { s with attempts := a :: s.attempts, manager } := generated
      refine same.modifySlot _ (fun _ => rfl) fun own e' there' present => .inr ?_
      cases present
      cases there.symm.trans there'
      obtain ⟨above, _, has, _⟩ := Setup.backendFor_some chosen
      subst level
      refine ⟨?_, backend, code, has, built, program⟩
      intro interpreted
      rw [interpreted] at above
      exact Nat.not_lt_zero _ above

end State

/-- In every state of a session, entries come from generators. -/
theorem generated_of_start {setup : Setup} {heap : Heap} {s : Session}
    (started : start setup heap = .ok s) (m : Module) (turns : List Compiling.Turn)
    (ops : List Operation) : ((s.register m turns).2.performAll ops).state.Generated s.setup := by
  obtain ⟨first, blank, reaches⟩ := reaches_of_start started m turns ops
  refine reaches.keeps (fun _ _ moves before => before.move moves) ?_
  unfold State.Generated State.slots
  cases present : first.program with
  | none => simp
  | some p => simp [(blank.program p present).2]

/-- Nothing is done to a function for the baseline tier. -/
theorem runFunction_baseline (f : Function) :
    ∃ done, (Pass.Pipeline.forLevel Tier.baseline.optLevel).runFunction f {} = .ok done ∧
      done.function = f := by
  unfold Pass.Pipeline.runFunction
  split
  · exact ⟨_, rfl, rfl⟩
  · exact ⟨_, rfl, rfl⟩

theorem backend?_eq {setup : Setup} {name : String} {b : Backend}
    (found : setup.backend? name = some b) : b ∈ setup.backends :=
  List.mem_reverse.mp (List.mem_of_find?_eq_some found)

/-- The slot of a function of the module. -/
theorem State.Reaches.function {setup : Setup} {first last : State} {m : Module}
    (blank : first.Blank m) (reaches : first.Reaches setup last) {id : FuncId} {slot : Slot}
    (there : last.slot? id = some slot) : m.function? id = some slot.function := by
  have at_id : (last.slots.map (·.function))[id.num]? = some slot.function := by
    rw [List.getElem?_map, ← State.slot?_eq, there]
    rfl
  rcases reaches.functions blank with none | all
  · rw [none] at at_id
    cases at_id
  · rw [all] at at_id
    simpa [Module.function?] using at_id

/-- In a session whose generators are the built-in one, a function runs on code only if the typing
check accepts what the optimisations of its tier leave of it. So a function that the check rejects
is never on the baseline tier. -/
theorem compiled_is_checked {setup : Setup} (builtin : ∀ b ∈ setup.backends, b = .x64) {heap : Heap}
    {s : Session} (started : start setup heap = .ok s) {m : Module} {id : FuncId} {f : Function}
    (found : m.function? id = some f) (turns : List Compiling.Turn) (ops : List Operation) {t : Tier}
    (now : ((s.register m turns).2.performAll ops).tierOf id = t) :
    (t = .interpreted ∨ ∃ done, (Pass.Pipeline.forLevel t.optLevel).runFunction f {} = .ok done ∧
      done.function.typingErrors = .ok []) ∧
    (f.typingErrors ≠ .ok [] → t ≠ .baseline) := by
  have generated := generated_of_start started m turns ops
  obtain ⟨first, blank, reaches⟩ := reaches_of_start started m turns ops
  have checked : t = .interpreted ∨ ∃ done,
      (Pass.Pipeline.forLevel t.optLevel).runFunction f {} = .ok done ∧
        done.function.typingErrors = .ok [] := by
    generalize ((s.register m turns).2.performAll ops) = last at reaches generated now
    unfold tierOf at now
    cases there : last.state.slot? id with
    | none => exact .inl (by simpa [there] using now.symm)
    | some slot =>
      cases found.symm.trans (reaches.function blank there)
      cases entry : slot.entry with
      | none => exact .inl (by simpa [there, Slot.tier, entry] using now.symm)
      | some e =>
        have own : e.tier = t := by simpa [there, Slot.tier, entry] using now
        subst own
        obtain ⟨_, backend, code, chosen, built, _⟩ := generated slot
          (List.mem_of_getElem? ((State.slot?_eq _ _).symm.trans there)) e entry
        obtain ⟨done, optimised, made⟩ := built.made
        rw [backendOf?_start started] at chosen
        obtain ⟨name, _, named⟩ := Option.bind_eq_some_iff.mp chosen
        rw [builtin backend (backend?_eq named)] at made
        exact .inr ⟨done, optimised, (X64.Baseline.accepts_of_compile (mapError_eq_ok.mp made)).typed⟩
  refine ⟨checked, ?_⟩
  rintro ill rfl
  obtain ⟨done, optimised, typed⟩ := checked.resolve_left (by decide)
  obtain ⟨same, untouched, rfl⟩ := runFunction_baseline f
  cases optimised.symm.trans untouched
  exact ill typed

/-- Gives back its second argument. One of its blocks adds a number to a truth value. -/
def picks : Function := {
  name := "pick"
  sig := { params := [.bool, .i32], ret := .i32 }
  params := [⟨0⟩, ⟨1⟩]
  regTypes := #[.bool, .i32, .i32]
  blocks := #[
    some { id := ⟨0⟩, term := .condBr ⟨0⟩ ⟨1⟩ ⟨2⟩ },
    some { id := ⟨1⟩, insts := [{ op := .add, dest := ⟨2⟩, ty := .i32, args := [⟨1⟩, ⟨0⟩] }],
           term := .ret (some ⟨1⟩) },
    some { id := ⟨2⟩, term := .ret (some ⟨1⟩) }] }

/-- A session that compiles with the built-in generator and runs code on the machine. -/
def onMachine : Setup := {
  config := { thresholds := ⟨1, 2, 3, 4, 1⟩, startInterpreted := true, maxPromotions := 10,
              regionSize := 4096 }
  backends := [.x64]
  invoker := some .machine }

theorem compiled_is_checked_picks : picks.typingErrors ≠ .ok [] ∧
    ∃ s, start onMachine (.ofPage 4096) = .ok s ∧
      ((s.register { functions := #[picks] }).2.performAll
        [.call ⟨0⟩ [.ofBool false, .ofInt .i32 7]]).tierOf ⟨0⟩ ≠ .baseline := by
  have ill : picks.typingErrors ≠ .ok [] := by decide +kernel
  obtain ⟨s, started⟩ : ∃ s, start onMachine (.ofPage 4096) = .ok s := ⟨_, rfl⟩
  exact ⟨ill, s, started, (compiled_is_checked (m := { functions := #[picks] })
    (by simp [onMachine]) started (show _ = some picks from rfl) [] _ rfl).2 ill⟩

/-- The typing check rejects the function, and after two calls it is on the standard tier: removing
the unused sum has removed what the check objects to. -/
theorem picks_leaves_interpreter :
    ({ functions := #[picks] } : Module).defects = .ok [] ∧ picks.typingErrors ≠ .ok [] ∧
    ((start onMachine (.ofPage 4096)).toOption.map fun s =>
      ((s.register { functions := #[picks] }).2.performAll
        (List.replicate 2 (.call ⟨0⟩ [.ofBool false, .ofInt .i32 7]))).tierOf ⟨0⟩) =
      some .standard := by
  decide +kernel

theorem Backend.x64_ne_crash {f : Function}
    (answers : X64.Baseline.Answers f (X64.Baseline.compile f)) (c : Crash) :
    Backend.x64.compile f ≠ .error (.crash c) := by
  unfold Backend.x64
  dsimp only
  revert answers
  generalize X64.Baseline.compile f = out
  intro answers
  cases answers with
  | made => simp [Except.mapError]
  | refused => simp [Except.mapError]

/-- A run of the built-in generator for a slot does not crash where optimising the function does not
and the generator answers. -/
theorem State.compile_x64 {slot : Slot} {tier : Tier} {done : Pass.Pipeline.Progress}
    (ran : (Pass.Pipeline.forLevel tier.optLevel).runFunction slot.function {} = .ok done)
    (answers : X64.Baseline.Answers done.function (X64.Baseline.compile done.function)) (s : State)
    (id : FuncId) : ∃ out, (s.compile slot id tier .x64).1 = .ok out := by
  unfold State.compile
  rw [ran]
  dsimp only
  split
  · next c crashed => exact absurd crashed (Backend.x64_ne_crash answers c)
  · exact ⟨_, rfl⟩
  · split
    · exact ⟨_, rfl⟩
    · split <;> exact ⟨_, rfl⟩

/-- Promotions cannot crash on the way to code. Of every function of an accepted module, typed or
not, there is a copy, every tier's passes can be run on it, and the generator then makes code or
refuses it; so whatever state a session is in, running the generator for the function's slot has a
result. -/
theorem promotion_answers {m : Module} (accepted : m.defects = .ok []) {f : Function}
    (member : f ∈ m.functions) (tier : Tier) : (∃ blocks, f.allBlocks = .ok blocks) ∧
    ∃ done, (Pass.Pipeline.forLevel tier.optLevel).runFunction f {} = .ok done ∧
      X64.Baseline.Answers done.function (X64.Baseline.compile done.function) ∧
      ∀ (s : State) (slot : Slot) (id : FuncId), slot.function = f →
        ∃ out, (s.compile slot id tier .x64).1 = .ok out := by
  obtain ⟨done, ran, optimises⟩ := Pass.Pipeline.runFunction_optimises accepted
    (Pass.Pipeline.forLevel tier.optLevel) member {}
  have answers : X64.Baseline.Answers done.function (X64.Baseline.compile done.function) := by
    refine X64.Baseline.compile_answers (m := m) fun body => ?_
    rcases optimises with ⟨external, same⟩ | ⟨-, conserves⟩
    · simp [same, external] at body
    · exact conserves.formed
  refine ⟨?_, done, ran, answers, ?_⟩
  · cases body : f.isExternal with
    | true => exact ⟨[], Function.allBlocks_eq_ok.mpr (by simpa [Function.isExternal] using body)⟩
    | false => exact (wellFormed_of_accepted accepted member body).numbered.allBlocks
  · rintro s slot id rfl
    exact State.compile_x64 ran answers s id

/-- Gives back its argument. A block that is branched to in vain adds one operand to nothing, into a
register that is not there; nothing leads to another that does the same. -/
def stray : Function := {
  name := "stray"
  sig := { params := [.i32], ret := .i32 }
  params := [⟨0⟩]
  regTypes := #[.i32, .bool]
  blocks := #[
    some { id := ⟨0⟩, insts := [{ op := .const, dest := ⟨1⟩, ty := .bool, const := .ofBool true }],
           term := .condBr ⟨1⟩ ⟨1⟩ ⟨2⟩ },
    some { id := ⟨1⟩, term := .ret (some ⟨0⟩) },
    some { id := ⟨2⟩, insts := [{ op := .add, dest := ⟨7⟩, ty := .i32, args := [⟨0⟩] }],
           term := .br ⟨1⟩ },
    some { id := ⟨3⟩, insts := [{ op := .add, dest := ⟨7⟩, ty := .i32, args := [⟨0⟩] }],
           term := .br ⟨3⟩ }] }

/-- The function is refused as it stands, and code is made of it once the passes of the highest tier
have removed what is out of reach. -/
theorem promotion_answers_stray : ({ functions := #[stray] } : Module).defects = .ok [] ∧
    (X64.Baseline.compile stray).toOption = none ∧
    ∃ done, (Pass.Pipeline.forLevel Tier.maximum.optLevel).runFunction stray {} = .ok done ∧
      X64.Baseline.Answers done.function (X64.Baseline.compile done.function) ∧
      (X64.Baseline.compile done.function).toOption.isSome = true := by
  have accepted : ({ functions := #[stray] } : Module).defects = .ok [] := by decide +kernel
  obtain ⟨-, done, ran, answers, -⟩ :=
    promotion_answers accepted (f := stray) (by simp) .maximum
  refine ⟨accepted, by decide +kernel, done, ran, answers, ?_⟩
  have made : ((Pass.Pipeline.forLevel Tier.maximum.optLevel).runFunction stray {}).toOption.any
      (fun done => (X64.Baseline.compile done.function).toOption.isSome) = true := by decide +kernel
  rw [ran] at made
  exact made

end TieredEngine.Session
