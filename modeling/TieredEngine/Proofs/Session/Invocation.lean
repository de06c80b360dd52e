import TieredEngine.Proofs.Eval.Definite
import TieredEngine.Proofs.Eval.Normality
import TieredEngine.Proofs.Native.X64.Entry
import TieredEngine.Proofs.Pass.Pipeline
import TieredEngine.Session.State

/-!
Calls of code beside the evaluator. The code of a function is made from what the passes of a tier
leave of it, so a call of the code is compared with the evaluator's run of the function in two
steps: the optimised function ends like the original, and the code simulates the optimised one,
whatever state the machine is in when it is called. The first step needs that the function itself,
not only what is left of it, is checked. At a tier that optimises nothing there is no first step.

Code tests neither the types of what it computes on nor how deep calls are nested, and where control
was not meant to come it traps. What the evaluator reports there, code does not promise to report.

Code makes no calls, but the function it is made of may still have some, in places that are not
reached. That its runs make none is seen in a module where all other functions are stubs: a call of a
stub would end the run of the function and could not end that of the optimised one.
-/
namespace TieredEngine.Session
open TieredEngine TieredEngine.Ir TieredEngine.Eval TieredEngine.Native

/-- Ends of an evaluator's run of a function that its code need not follow. -/
def Unfollowed {ε : Type} (f : Function) : Eval.Halt ε → Prop
  | .fault e =>
    e.function = f.name ∧ (e.kind = .typeMismatch ∨ e.kind = .unreachable ∨ e.kind = .stackOverflow)
  | .crash _ | .outOfFuel => True
  | .host _ _ | .other _ => False

/-- A failure is reported to the caller. -/
def Reported {ε : Type} : Eval.Halt ε → Prop
  | .fault _ | .host _ _ | .other _ => True
  | .crash _ | .outOfFuel => False

/-- Whenever code is called, the machine is in a state that lends the stack for any frame. -/
def Lending (callers : Nat → X64.State) : Prop :=
  ∀ number, ∃ top, 2000 < top ∧ (callers number).Lends (top + 1)

/-- A call of code follows the evaluator's run of the function: it gives the same value, or reports an
error where the run does, and the run leaves the world as it was. -/
def Follows {κ ε : Type} (f : Function) (w : World κ) (out : Frame.Finished κ ε)
    (r : Except (Eval.Halt NativeError) Value) : Prop :=
  match out.result with
  | .ok v => r = .ok v ∧ NormalWord v ∧ out.world = w
  | .error h => Unfollowed f h ∨ (∃ a, r = .error (.other a)) ∧ Reported h ∧ out.world = w

theorem normal_unmarshal (c : Convention) (int float : UInt64) : (c.unmarshal int float).Normal := by
  unfold Convention.unmarshal
  split
  · decide
  · exact Value.normal_ofBits _ _

section Invocation

variable {κ ε : Type} {m : Module} {f : Function} {e : Entry} {manager : Manager}
  {callers : Nat → X64.State} {number : Nat}

/-- Arguments of other types than the parameters' are refused by both. -/
theorem follows_of_mismatch (internal : f.isExternal = false) {setup : Eval.Setup} {call : Call κ ε}
    {fuel : Nat} {args : List Value} {w : World κ} {out : Frame.Finished κ ε}
    (entered : Entered setup m call fuel f args w out)
    (placed : Convention.ofSignature f.sig = .ok e.convention)
    (mismatch : args.map (·.ty) ≠ f.sig.params) (steps : Nat) :
    Follows f w out (Invoker.machineFrom callers number steps manager m e args) := by
  obtain ⟨a, refused⟩ : ∃ a, e.convention.marshal args = .error a := by
    cases marshalled : e.convention.marshal args with
    | error a => exact ⟨a, rfl⟩
    | ok words => exact absurd (Convention.matching_of_marshal placed marshalled) mismatch
  have answer : Invoker.machineFrom callers number steps manager m e args =
      .error (.other (.arguments a)) := by
    simp [Invoker.machineFrom, refused]
  cases entered with
  | refused e _ _ _ => exact .inr ⟨⟨_, answer⟩, trivial, rfl⟩
  | crashed c => exact .inl trivial
  | hosted external => simp [internal] at external
  | ran _ matching => exact absurd matching mismatch

/-- What the machine gives when the code simulates a run. -/
theorem machine_of_simulates (m : Module) (manager : Manager) {steps : Nat} {args : List Value}
    {words : Convention.Words} {v : Value} (marshalled : e.convention.marshal args = .ok words)
    (simulates : X64.Simulates (ε := ε) f e.program e.convention ((callers number).calling words)
      steps (.ok v)) :
    Invoker.machineFrom callers number steps manager m e args = .ok v ∧ NormalWord v := by
  obtain ⟨t, returned, _, _, result⟩ := simulates
  refine ⟨?_, ?_⟩
  · simp only [Invoker.machineFrom, X64.Program.callFrom, marshalled, returned]
    exact congrArg Except.ok (result _)
  · rw [← result 0]
    exact fun _ => normal_unmarshal _ _ _

/-- Failures of a checked function that code does not follow. -/
theorem unfollowed_of_unchecked {e e' : Eval.Error} (alike : e.Alike e') (named : e'.function = f.name)
    (missing : e.function = f.name → e.kind ≠ .missingRegister)
    (unchecked : X64.Activation.Unchecked e' ∨ e'.cause.kind = .unreachable) :
    Unfollowed (ε := ε) f (.fault e) := by
  have own : e.function = f.name := alike.1.symm.trans named
  rcases unchecked with (mismatch | missed) | unreachable
  · exact ⟨own, .inl (alike.2.symm.trans mismatch)⟩
  · exact absurd (alike.2.symm.trans missed) (missing own)
  · exact ⟨own, .inr (.inl (alike.2.symm.trans unreachable))⟩

/-- Constants that code is made for are integer words. -/
theorem constants_of_accepts {c : CompiledCode} (accepts : X64.Baseline.Accepts f c)
    (numbered : f.WellNumbered) (consts : Constants NormalWord f) : Constants Value.Normal f := by
  intro id b reached found i member op
  have typed := Function.wellTyped_of_typed numbered accepts.internal accepts.typed
  obtain ⟨prev, written, path⟩ := reached.arrives
  obtain ⟨types, _, takes⟩ := (typed.blocks prev id written b path found).insts i member
  have known : f.regType? i.dest = some i.const.ty := by
    unfold Inst.Takes at takes
    split at takes <;> simp_all [Op.isUnary, Op.isBinary, Op.isCompare]
  exact consts id b reached found i member op (accepts.isFloat known)

/-- Bodies that work on the globals of their world, or on others, leave the world to the caller as
it was when they change nothing. -/
theorem world_settle {setup : Eval.Setup} {w : World κ} {globals : Array Value}
    {out : Frame.Finished κ ε}
    (origin : (if setup.shared then .ok w.globals else initialGlobals m) = .ok globals)
    (kept : out.world = { w with globals }) : (setup.settle w out).world = w := by
  unfold Setup.settle
  split
  · next shared =>
    rw [if_pos shared] at origin
    cases origin
    exact kept
  · rw [kept]

/-- A run that ends like the run of a function with code is followed by the code. -/
theorem Entered.follows {f' : Function} {m' : Module} {setup : Eval.Setup} {call : Call κ ε}
    {fuel steps : Nat} {args : List Value} {w : World κ} {out out' : Frame.Finished κ ε}
    (entered : Entered setup m' call fuel f' args w out') (internal : f'.isExternal = false)
    (name : f'.name = f.name) (matching : args.map (·.ty) = f'.sig.params) (like : out.EndsLike out')
    (missing : ∀ e, out.result = .error (.fault e) → e.function = f.name → e.kind ≠ .missingRegister)
    (simulated : ∀ fr globals, bindParams f'.entry (.fresh f') f'.params args = .ok fr →
      let ran : Frame.Finished κ ε := Frame.run call (fun x => x.num < m'.functions.size) fuel fr
        { w with globals } none f'.entry
      ran.world = { w with globals } ∧ ∃ words, e.convention.marshal args = .ok words ∧
        X64.Simulates f' e.program e.convention ((callers number).calling words) steps ran.result) :
    Follows f w out (Invoker.machineFrom callers number steps manager m e args) := by
  -- a failure of the optimised function is one of the original
  have halted : ∀ {h'}, out'.result = .error h' → ∃ h, out.result = .error h ∧ h.Alike h' := by
    intro h' stopped
    cases result : out.result with
    | ok v =>
      have returned := like.value v result
      rw [stopped] at returned
      cases returned
    | error h =>
      obtain ⟨h'', stopped', alike⟩ := like.halt h result
      cases stopped.symm.trans stopped'
      exact ⟨h, rfl, alike⟩
  have unfollowed : ∀ {h'}, out'.result = .error h' → (∀ h, out.result = .error h → h.Alike h' →
      Unfollowed f h) → Follows f w out (Invoker.machineFrom callers number steps manager m e args) := by
    intro h' stopped free
    obtain ⟨h, result, alike⟩ := halted stopped
    unfold Follows
    rw [result]
    exact .inl (free h result alike)
  cases entered with
  | refused e' named door _ =>
    refine unfollowed rfl fun h result alike => ?_
    obtain ⟨e, rfl, same⟩ := alike.of_fault
    have own : e.function = f.name := same.1.symm.trans (named.trans name)
    rcases door with ⟨_, count⟩ | mismatch | deep | missed
    · exact absurd (by rw [← matching, List.length_map]) count
    · exact ⟨own, .inl (same.2.symm.trans mismatch)⟩
    · exact ⟨own, .inr (.inr (same.2.symm.trans deep))⟩
    · exact absurd (same.2.symm.trans missed) (missing e result own)
  | crashed c =>
    refine unfollowed rfl fun h _ alike => ?_
    cases alike
    trivial
  | hosted external => simp [internal] at external
  | ran _ _ fr globals bound origin =>
    obtain ⟨kept, words, marshalled, simulates⟩ := simulated fr globals bound
    have world : out.world = w := like.world.symm.trans (world_settle origin kept)
    revert simulates
    generalize ended : (Frame.run call (fun x => x.num < m'.functions.size) fuel fr
      { w with globals } none f'.entry).result = result'
    intro simulates
    have result : (setup.settle w (Frame.run call (fun x => x.num < m'.functions.size) fuel fr
      { w with globals } none f'.entry)).result = result' := (setup.result_settle w _).trans ended
    cases result' with
    | ok v =>
      obtain ⟨answer, normal⟩ := machine_of_simulates m manager marshalled simulates
      have returned : out.result = .ok v := by
        cases original : out.result with
        | ok u =>
          have same := like.value u original
          rw [result] at same
          cases same
          rfl
        | error h =>
          obtain ⟨h', stopped, _⟩ := like.halt h original
          rw [result] at stopped
          cases stopped
      unfold Follows
      rw [returned]
      exact ⟨answer, normal, world⟩
    | error h' =>
      refine unfollowed result fun h stopped alike => ?_
      cases h' with
      | fault e' =>
        obtain ⟨named, unchecked⟩ := simulates
        obtain ⟨e, rfl, same⟩ := alike.of_fault
        exact unfollowed_of_unchecked same (named.trans name) (missing e stopped)
          (unchecked.imp id And.left)
      | outOfFuel =>
        cases alike
        trivial
      | host g r => exact simulates.elim
      | crash k => exact simulates.elim
      | other x => exact simulates.elim

section Isolation

variable {κ ε : Type} {m : Module} {f : Function}

/-- A declaration under another name than the function's. Where there are no host functions, its
calls fail. -/
def stub (f : Function) : Function := { name := f.name ++ "_" }

/-- The module with stubs in the places of its functions. -/
def isolate (m : Module) (f : Function) : Module :=
  { m with functions := Array.replicate m.functions.size (stub f) }

def hostless (setup : Eval.Setup) : Eval.Setup := { setup with hosts := fun _ => none }

theorem inside_isolate (found : m.function? f.id = some f) :
    f.id.num < (isolate m f).functions.size := by
  simpa [isolate] using (Array.getElem?_eq_some_iff.mp found).1

theorem function?_isolate (found : m.function? f.id = some f) {id : FuncId} (other : id ≠ f.id) :
    ((isolate m f).replace f).function? id = (m.function? id).map fun _ => stub f := by
  rw [Module.function?_replace (inside_isolate found), if_neg other]
  unfold Module.function? isolate
  rw [Array.getElem?_replicate]
  split
  · next inside => rw [Array.getElem?_eq_getElem inside, Option.map_some]
  · next outside => rw [Array.getElem?_eq_none (not_lt.mp outside), Option.map_none]

/-- Values of the wrong type are not what a stub fails for. -/
theorem enter_stub {m : Module} {id : FuncId} (found : m.function? id = some (stub f))
    (setup : Eval.Setup) (call : Call κ ε) (fuel depth : Nat) (args : List Value) (w : World κ) :
    ∃ e, enter (hostless setup) m call fuel depth id args w = ⟨.error (.fault e), {}, w⟩ ∧
      e.function ≠ f.name ∧ e.kind ≠ .typeMismatch := by
  have renamed : (stub f).name ≠ f.name := fun same => by
    simpa [stub] using congrArg String.length same
  have mismatched : ∀ args, firstMismatch 0 args [] = none := by
    rintro (_ | _) <;> rfl
  unfold enter
  rw [found]
  dsimp only
  split
  · exact ⟨_, rfl, renamed, by simp [Error.kind, Cause.kind]⟩
  · rw [show (stub f).sig.params = [] from rfl, mismatched]
    exact ⟨_, rfl, renamed, by simp [Error.kind, Cause.kind]⟩

/-- A function with a body is entered without asking the host. -/
theorem enter_hostless {id : FuncId} (found : m.function? id = some f)
    (internal : f.isExternal = false) (setup : Eval.Setup) (call : Call κ ε) (fuel depth : Nat)
    (args : List Value) (w : World κ) :
    enter (hostless setup) m call fuel depth id args w = enter setup m call fuel depth id args w := by
  simp only [enter, found, internal, hostless, Bool.false_eq_true, if_false]
  rfl

/-- The second run does what the first does until it calls a function of another name. -/
def isolating (κ ε : Type) (name : String) : Link κ κ (Eval.Halt ε) (Eval.Halt ε) where
  worlds w w' := w' = w
  left _ := False
  right h := ∃ e, h = .fault e ∧ e.function ≠ name ∧ e.kind ≠ .typeMismatch
  failures := Eval.Halt.Alike

theorem isolating_shares (κ ε : Type) (name : String) :
    (isolating κ ε name).Shares (fun _ => True) fun _ => True where
  globals := by
    rintro w _ rfl
    exact ⟨rfl, trivial⟩
  reset := by
    rintro w _ globals rfl _
    rfl
  store := fun _ _ _ _ _ _ _ => trivial
  values := fun _ _ _ _ => trivial
  hostCalls := by
    rintro w _ rfl
    rfl
  hosted := by
    rintro w _ h rfl
    rfl
  alike := fun _ _ alike => .fault alike
  host := fun _ _ => .same _
  crash := fun _ => .same _

theorem runAt_isolate (found : m.function? f.id = some f) (internal : f.isExternal = false)
    (setup : Eval.Setup) (fuel depth : Nat) (id : FuncId) (args : List Value) (w : World κ) :
    (isolating κ ε f.name).Ends (fun _ => True) (runAt setup m fuel depth id args w)
      (runAt (hostless setup) ((isolate m f).replace f) fuel depth id args w) := by
  induction fuel generalizing depth id args w with
  | zero => exact .error rfl ⟨.same _, rfl⟩
  | succ fuel ih =>
    simp only [runAt]
    by_cases own : id = f.id
    · subst own
      have found' : ((isolate m f).replace f).function? f.id = some f := by
        rw [Module.function?_replace (inside_isolate found), if_pos rfl]
      rw [← enter_hostless found internal]
      refine enter_congr (isolating_shares κ ε f.name) Pass.closed_true
        (fun _ _ _ _ _ _ _ => trivial) found found' (fun _ _ _ _ _ _ _ => trivial)
        (by simp [Module.size_replace, isolate]) rfl (fun _ _ => trivial) ?_
        (.inl ⟨rfl, .same _⟩) (fun _ _ => trivial) rfl
      rintro id args w w' same _
      obtain rfl : w' = w := same
      exact (ih (depth + 1) id args w').result
    · have found' := function?_isolate found own
      cases present : m.function? id with
      | none =>
        rw [present] at found'
        simp only [enter, present, found', Option.map_none]
        exact .error rfl ⟨.same _, rfl⟩
      | some g =>
        -- whatever the call does in the module, the stub in its place fails
        rw [present] at found'
        obtain ⟨e, refused, other⟩ := enter_stub found' setup _ fuel depth args w
        rw [refused]
        exact .right ⟨e, rfl, other⟩

/-- In a module of stubs only the function itself meets values of the wrong type. -/
theorem runAt_isolate_fails (found : m.function? f.id = some f) (internal : f.isExternal = false)
    (setup : Eval.Setup) (fuel depth : Nat) (id : FuncId) (args : List Value) (w : World κ) :
    Fails (fun e => e.kind = .typeMismatch → e.function = f.name)
      (runAt (ε := ε) (hostless setup) ((isolate m f).replace f) fuel depth id args w).result := by
  induction fuel generalizing depth id args w with
  | zero => rintro e ⟨⟩
  | succ fuel ih =>
    unfold runAt
    by_cases own : id = f.id
    · have found' : ((isolate m f).replace f).function? id = some f := by
        rw [Module.function?_replace (inside_isolate found), if_pos own]
      exact Entered.fails internal (P := fun e => e.kind = .typeMismatch → e.function = f.name)
        (fun _ named _ => named) (.inr fun id args w => ih (depth + 1) id args w)
        (enter_cases found' args w)
    · have found' := function?_isolate found own
      cases present : m.function? id with
      | none =>
        rw [present] at found'
        simp only [enter, found', Option.map_none]
        rintro e ⟨⟩
        simp [Error.kind, Cause.kind]
      | some g =>
        rw [present] at found'
        obtain ⟨e, refused, _, kind⟩ := enter_stub found' setup _ fuel depth args w
        rw [refused]
        rintro _ ⟨⟩ mismatch
        exact absurd mismatch kind

/-- When the passes leave no calls of a function, its runs make none. So a value of the wrong type is
met in the function itself. -/
theorem mismatch_of_leaf (found : m.function? f.id = some f) (internal : f.isExternal = false)
    (regular : Pass.Regular m.globals.size f) {pl : Pass.Pipeline} {done : Pass.Pipeline.Progress}
    (optimised : pl.runFunction f {} = .ok done) (leaf : Leaf done.function) (setup : Eval.Setup)
    (fuel depth : Nat) (args : List Value) {w : World κ} (size : w.globals.size = m.globals.size)
    {e : Eval.Error} (kind : e.kind = .typeMismatch)
    (failed : (runAt (ε := ε) setup m fuel depth f.id args w).result = .error (.fault e)) :
    e.function = f.name := by
  have inside := inside_isolate found
  obtain ⟨_, ran, refines⟩ := Pass.Pipeline.runFunction_refines inside pl {} regular
  cases optimised.symm.trans ran
  have internal' : done.function.isExternal = false := refines.header.external.trans internal
  -- the optimised function fails in its own name
  have named : Fails (fun e => e.function = f.name) (runAt (ε := ε) (hostless setup)
      ((isolate m f).replace done.function) fuel depth f.id args w).result := by
    cases fuel with
    | zero => rintro e ⟨⟩
    | succ fuel =>
      have found' : ((isolate m f).replace done.function).function? f.id = some done.function := by
        rw [Module.function?_replace (refines.id ▸ inside), if_pos refines.id.symm]
      exact (enter_cases found' args w).fails internal'
        (fun _ own => own.trans refines.header.name) (.inl leaf)
  have ends := (runAt_isolate (ε := ε) found internal setup fuel depth f.id args w).result
  rw [failed] at ends
  generalize stopped : (runAt (ε := ε) (hostless setup) ((isolate m f).replace f) fuel depth f.id
    args w).result = result at ends
  cases ends with
  | left free => exact free.elim
  | error _ alike =>
    cases alike with
    | fault alike =>
      exact alike.1.symm.trans (runAt_isolate_fails found internal setup fuel depth f.id args w _
        stopped (alike.2.trans kind))
    | same => exact runAt_isolate_fails found internal setup fuel depth f.id args w _ stopped kind
  | right other =>
    -- the run would have called a stub, and the optimised function fails as the stub did
    obtain ⟨e', rfl, other, proper⟩ := other
    have like := preserving_endsLike
      (refines.preserves κ ε (hostless setup) fuel depth f.id args w size) (by
        rintro h same ⟨e'', rfl, mismatch⟩
        cases stopped.symm.trans same
        exact proper mismatch)
    obtain ⟨h, failed', alike⟩ := like.halt _ stopped
    cases alike with
    | fault alike => exact absurd (alike.1.symm.trans (named _ failed')) other
    | same => exact absurd (named _ failed') other

end Isolation

/-- What code is made of stands for the function. It ends as the function does; where the passes have
changed the function, only runs that meet no value of the wrong type are compared. -/
structure Stands (m : Module) (f g : Function) : Prop where
  internal : f.isExternal = false
  typed : f.typingErrors = .ok []
  id : g.id = f.id
  header : SameHeader f g
  numbered : g.WellNumbered
  constants : Constants NormalWord f → Constants NormalWord g
  ends : ∀ (κ ε : Type) (setup : Eval.Setup) (fuel depth : Nat) (args : List Value) (w : World κ),
    w.globals.size = m.globals.size →
    g = f ∨ (runAt (ε := ε) setup m fuel depth f.id args w).Typed →
    (runAt (ε := ε) setup m fuel depth f.id args w).EndsLike
      (runAt setup (m.replace g) fuel depth f.id args w)
  mismatches : ∀ (κ ε : Type) (setup : Eval.Setup) (fuel depth : Nat) (args : List Value)
    (w : World κ), w.globals.size = m.globals.size → Leaf g →
    Fails (fun e => e.kind = .typeMismatch → e.function = f.name)
      (runAt (ε := ε) setup m fuel depth f.id args w).result

/-- What code is made of stands for a function that the passes have left as it was, and for one that
is checked. -/
theorem stands_of_compile (accepted : m.defects = .ok []) (found : m.function? f.id = some f)
    {pl : Pass.Pipeline} {done : Pass.Pipeline.Progress} {c : CompiledCode}
    (optimised : pl.runFunction f {} = .ok done) (made : X64.Baseline.compile done.function = .ok c)
    (checked : done.function = f ∨ f.typingErrors = .ok [] ∧ f.SingleAssignment) :
    Stands m f done.function := by
  have accepts := X64.Baseline.accepts_of_compile made
  rcases checked with same | ⟨typed, single⟩
  · rw [same] at accepts ⊢
    have clean := (Module.function_of_accepted accepted found).1
    exact {
      internal := accepts.internal
      typed := accepts.typed
      id := rfl
      header := ⟨rfl, rfl, rfl, rfl, rfl⟩
      numbered := (Function.wellNumbered_of_defects clean accepts.internal).1
      constants := fun consts => consts
      ends := fun κ ε setup fuel depth args w _ _ => by
        rw [Module.replace_self found]
        exact ⟨fun _ returned => returned, fun h stopped => ⟨h, stopped, .same h⟩, rfl, rfl⟩
      mismatches := fun κ ε setup fuel depth args w _ leaf => by
        cases fuel with
        | zero => rintro e ⟨⟩
        | succ fuel =>
          exact fun e failed _ => (enter_cases found args w).fails accepts.internal
            (fun _ own => own) (.inl leaf) e failed }
  · have internal : f.isExternal = false := by
      by_contra external
      unfold Pass.Pipeline.runFunction at optimised
      rw [if_pos (by simpa using external)] at optimised
      cases optimised
      exact external accepts.internal
    have regular := Pass.Pipeline.regular_of_checked accepted found internal typed single
    obtain ⟨_, ran, refines⟩ := Pass.Pipeline.runFunction_refines
      (Array.getElem?_eq_some_iff.mp found).1 pl {} regular
    cases optimised.symm.trans ran
    refine ⟨internal, typed, refines.id, refines.header, refines.regular.numbered,
      refines.constants _ closed_normalWord, fun κ ε setup fuel depth args w size proper => ?_,
      fun κ ε setup fuel depth args w size leaf e failed kind =>
        mismatch_of_leaf found internal regular optimised leaf setup fuel depth args size kind failed⟩
    rcases proper with same | proper
    · rw [same, Module.replace_self found]
      exact ⟨fun _ returned => returned, fun h stopped => ⟨h, stopped, .same h⟩, rfl, rfl⟩
    · have ends := refines.preserves κ ε setup fuel depth f.id args w size
      rw [Module.replace_self found] at ends
      exact preserving_endsLike ends proper

/-- The code of a function follows the evaluator's runs of the function, at a pace that depends on
the code only. -/
theorem code_follows (accepted : m.defects = .ok []) (found : m.function? f.id = some f)
    (lending : Lending callers) (consts : Constants NormalWord f) {g : Function} {c : CompiledCode}
    (made : X64.Baseline.compile g = .ok c) (stands : Stands m f g)
    (short : c.code.length < X64.reach) :
    ∃ pace, ∀ (κ ε : Type) (setup : Eval.Setup) (fuel steps depth : Nat) (args : List Value)
      (w : World κ) (number : Nat) (manager : Manager) (e : Entry), c.convention = some e.convention →
      e.program = .ofBytes c.code → (∀ v ∈ args, NormalWord v) →
      w.globals.size = m.globals.size → pace * fuel ≤ steps →
      Follows f w (runAt (ε := ε) setup m fuel depth f.id args w)
        (Invoker.machineFrom callers number steps manager m e args) := by
  have accepts := X64.Baseline.accepts_of_compile made
  have clean := (Module.function_of_accepted accepted found).1
  have inside : f.id.num < m.functions.size := (Array.getElem?_eq_some_iff.mp found).1
  obtain ⟨internal, typed, own, header, numbered, constants, ends, mismatches⟩ := stands
  have leaf : Leaf g := fun id b found i member isCall => by
    have pure := (X64.Baseline.pure_of_checkInst (accepts.insts id b found i member)).1
    simp [isCall, Op.hasEffects] at pure
  have params : g.params.length = g.sig.params.length ∧
      ∀ p ∈ g.params, (g.regType? p).isSome = true := by
    unfold Function.regType?
    rw [header.params, header.sig, header.regTypes]
    exact Function.params_of_defects clean internal
  obtain ⟨pace, simulated⟩ := accepts.simulates numbered params
    (constants_of_accepts accepts numbered (constants consts)) short
  refine ⟨pace, fun κ ε setup fuel steps depth args w number manager e chosen program normal size
    enough => ?_⟩
  obtain ⟨convention, placed, same⟩ := accepts.convention
  cases chosen.symm.trans same
  cases fuel with
  | zero => exact .inl trivial
  | succ fuel =>
    by_cases matching : args.map (·.ty) = f.sig.params
    · by_cases proper : g = f ∨ (runAt (ε := ε) setup m (fuel + 1) depth f.id args w).Typed
      · have like := ends κ ε setup (fuel + 1) depth args w size proper
        have inside' : g.id.num < m.functions.size := own ▸ inside
        have found' : (m.replace g).function? f.id = some g := by
          rw [Module.function?_replace inside', if_pos own.symm]
        refine Entered.follows (enter_cases found' args w) accepts.internal header.name
          (header.sig ▸ matching) like ?_ ?_
        · exact (runAt_careful accepted (Array.mem_of_getElem? found) typed setup _ depth f.id args
            size).2
        · intro fr globals bound
          obtain ⟨kept, v, words, held, marshalled, sized, simulates⟩ := simulated κ ε args fr _ _ fuel
            steps { w with globals } (header.sig ▸ matching) normal bound enough
          cases chosen.symm.trans held
          obtain ⟨top, deep, lends⟩ := lending number
          obtain ⟨called, start, given, -⟩ := lends.calling sized
          exact ⟨kept, words, marshalled, program ▸ simulates top _ deep called start (given _)⟩
      · -- a value of the wrong type is met
        rw [not_or] at proper
        unfold Frame.Finished.Typed at proper
        push Not at proper
        obtain ⟨h, stopped, e, rfl, kind⟩ := proper.2
        unfold Follows
        rw [stopped]
        exact .inl ⟨mismatches κ ε setup (fuel + 1) depth args w size leaf e stopped kind, .inl kind⟩
    · exact follows_of_mismatch internal (enter_cases found args w) (header.sig ▸ placed) matching steps

end Invocation

end TieredEngine.Session
