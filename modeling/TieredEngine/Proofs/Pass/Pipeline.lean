import TieredEngine.Pass.Pipeline
import TieredEngine.Proofs.Ir.Checked
import TieredEngine.Proofs.Pass.ConstFold
import TieredEngine.Proofs.Pass.CopyProp
import TieredEngine.Proofs.Pass.DeadCode
import TieredEngine.Proofs.Pass.Unreachable

/-!
Pipelines of passes. Each pass refines what it is given, so any number of passes, repeated any number
of times, preserves the calls of a module in which a checked function is replaced by its optimised
form.
-/
namespace TieredEngine.Eval
open TieredEngine.Ir

/-- The second run ended like the first: in the same value or in an error of the same kind raised in
the same function, in the same world, having entered as many blocks. -/
structure Frame.Finished.EndsLike {κ ε : Type} (out out' : Frame.Finished κ ε) : Prop where
  value : ∀ v, out.result = .ok v → out'.result = .ok v
  halt : ∀ h, out.result = .error h → ∃ h', out'.result = .error h' ∧ h.Alike h'
  world : out'.world = out.world
  blocks : out'.stats.blocks = out.stats.blocks

/-- The run met no value of the wrong type. -/
def Frame.Finished.Typed {κ ε : Type} (out : Frame.Finished κ ε) : Prop :=
  ∀ h, out.result = .error h → ¬ h.IsMismatch

theorem preserving_endsLike {κ ε : Type} {n : Nat} {out out' : Frame.Finished κ ε}
    (ends : (preserving κ ε n).Ends (fun _ => True) out out') (typed : out.Typed) :
    out.EndsLike out' := by
  obtain ⟨r, stats, w⟩ := out
  obtain ⟨r', stats', w'⟩ := out'
  cases r with
  | ok v =>
    cases r' with
    | error h' =>
      cases ends with
      | right free => exact free.elim
    | ok v' =>
      cases ends with
      | ok worlds related =>
        refine ⟨fun x same => ?_, fun h stopped => (by cases stopped), worlds.1, related.2.1⟩
        cases same
        exact congrArg Except.ok related.1
  | error h =>
    have proper := typed h rfl
    cases r' with
    | ok v' =>
      cases ends with
      | left free => exact absurd free proper
    | error h' =>
      cases ends with
      | left free => exact absurd free proper
      | right free => exact free.elim
      | error worlds failures =>
        refine ⟨fun x same => (by cases same), fun x stopped => ?_, worlds.1, failures.2⟩
        cases stopped
        exact ⟨h', rfl, failures.1⟩

end TieredEngine.Eval

namespace TieredEngine.Pass
open TieredEngine.Ir TieredEngine.Eval

theorem Kind.sound (p : Kind) : Sound p.run := by
  cases p with
  | constFold => exact ConstFold.sound
  | copyProp => exact CopyProp.sound
  | unreachable => exact Unreachable.sound
  | deadCode => exact DeadCode.sound

theorem Kind.conserves (p : Kind) {m : Module} {f : Function} (formed : f.WellFormed m) :
    ∃ g changed, p.run f = .ok (g, changed) ∧ Conserves m f g := by
  cases p with
  | constFold => exact ConstFold.conserves formed
  | copyProp => exact CopyProp.conserves formed
  | unreachable => exact Unreachable.conserves formed
  | deadCode => exact DeadCode.conserves formed

namespace Pipeline

section Keeping

variable {P : Function → Prop}
  (each : ∀ (p : Kind) (f : Function), P f → ∃ g changed, p.run f = .ok (g, changed) ∧ P g)
include each

theorem steps_keep (passes : List Kind) {s : Progress} (holds : P s.function) :
    ∃ t, passes.foldlM step s = .ok t ∧ P t.function := by
  induction passes generalizing s with
  | nil => exact ⟨s, rfl, holds⟩
  | cons p passes ih =>
    obtain ⟨g, changed, ran, next⟩ := each p s.function holds
    obtain ⟨t, stepped, same⟩ : ∃ t, step s p = .ok t ∧ t.function = g :=
      ⟨_, bind_eq_ok.mpr ⟨(g, changed), ran, rfl⟩, rfl⟩
    obtain ⟨u, rest, after⟩ := ih (s := t) (same ▸ next)
    exact ⟨u, foldlM_cons_eq_ok.mpr ⟨t, stepped, rest⟩, after⟩

theorem repeatRounds_keeps (pl : Pipeline) (rounds : Nat) {s : Progress} (holds : P s.function) :
    ∃ t, pl.repeatRounds rounds s = .ok t ∧ P t.function := by
  induction rounds generalizing s with
  | zero => exact ⟨s, rfl, holds⟩
  | succ rounds ih =>
    obtain ⟨t, round, middle⟩ := steps_keep each pl.passes
      (s := { function := s.function, report := s.report }) holds
    by_cases changed : t.changed = true
    · obtain ⟨u, rest, after⟩ := ih (s := { t with changed := true }) middle
      refine ⟨u, bind_eq_ok.mpr ⟨t, round, ?_⟩, after⟩
      rw [if_pos changed]
      exact rest
    · refine ⟨{ t with changed := s.changed }, bind_eq_ok.mpr ⟨t, round, ?_⟩, middle⟩
      rw [if_neg changed]
      rfl

/-- A pipeline keeps what each pass keeps. -/
theorem runFunction_keeps (pl : Pipeline) (report : Report) {f : Function} (holds : P f) :
    ∃ done, pl.runFunction f report = .ok done ∧ P done.function := by
  unfold runFunction
  split
  · exact ⟨_, rfl, holds⟩
  · exact repeatRounds_keeps each pl pl.rounds (s := { function := f, report }) holds

end Keeping

/-- A pipeline run on a function gives a refinement of it. -/
theorem runFunction_refines {m : Module} {f : Function} (inside : f.id.num < m.functions.size)
    (pl : Pipeline) (report : Report) (regular : Regular m.globals.size f) :
    ∃ done, pl.runFunction f report = .ok done ∧ Refines m f done.function := by
  apply runFunction_keeps (P := Refines m f) ?_ pl report (.refl regular inside)
  intro p g before
  obtain ⟨h, changed, ran, refines⟩ := p.sound m g before.regular (before.id ▸ inside)
  exact ⟨h, changed, ran, before.trans refines⟩

/-- A pipeline run on a function conserves it. -/
theorem runFunction_conserves {m : Module} {f : Function} (formed : f.WellFormed m) (pl : Pipeline)
    (report : Report) : ∃ done, pl.runFunction f report = .ok done ∧ Conserves m f done.function := by
  apply runFunction_keeps (P := Conserves m f) ?_ pl report (.refl formed)
  intro p g before
  obtain ⟨h, changed, ran, conserves⟩ := p.conserves before.formed
  exact ⟨h, changed, ran, before.trans conserves⟩

/-- A pipeline runs over functions one after the other. -/
theorem runFunctions_each {pl : Pipeline} {P : Function → Function → Prop} {fs : List Function}
    (each : ∀ f ∈ fs, ∀ report,
      ∃ done, pl.runFunction f report = .ok done ∧ P f done.function)
    (done : Array Function) (report : Report) (changed : Bool) :
    ∃ made out, fs.foldlM (fun (fs, r, c) f => do
        let s ← pl.runFunction f r
        return (fs.push s.function, s.report, c || s.changed)) (done, report, changed) =
        .ok (done ++ made.toArray, out) ∧ List.Forall₂ P fs made := by
  induction fs generalizing done report changed with
  | nil => exact ⟨[], (report, changed), by simp [pure, Except.pure], .nil⟩
  | cons f fs ih =>
    obtain ⟨s, ran, fits⟩ := each f (by simp) report
    obtain ⟨made, out, rest, others⟩ := ih (fun g member => each g (by simp [member]))
      (done.push s.function) s.report (changed || s.changed)
    refine ⟨s.function :: made, out, ?_, .cons fits others⟩
    refine foldlM_cons_eq_ok.mpr ⟨_, bind_eq_ok.mpr ⟨s, ran, rfl⟩, rest.trans ?_⟩
    simp

/-- A pipeline that can be run on each function of a module can be run on the module. -/
theorem runModule_each {m : Module} {pl : Pipeline} {P : Function → Function → Prop}
    (each : ∀ f ∈ m.functions, ∀ report,
      ∃ done, pl.runFunction f report = .ok done ∧ P f done.function) :
    ∃ out, pl.runModule m = .ok out ∧ out.1.globals = m.globals ∧
      List.Forall₂ P m.functions.toList out.1.functions.toList := by
  obtain ⟨made, out, ran, related⟩ := @runFunctions_each pl P m.functions.toList
    (fun f member => each f (Array.mem_toList_iff.mp member)) #[] {} false
  refine ⟨({ m with functions := #[] ++ made.toArray }, out), bind_eq_ok.mpr ⟨_, ran, rfl⟩, rfl, ?_⟩
  simpa using related

/-- A function of an accepted module is one that passes can work on, when the typing check accepts
it and it assigns each register at most once. -/
theorem regular_of_checked {m : Module} {f : Function} (accepted : m.defects = .ok [])
    (found : m.function? f.id = some f) (body : f.isExternal = false)
    (typed : f.typingErrors = .ok []) (single : f.SingleAssignment) :
    Regular m.globals.size f := by
  have clean := (Module.function_of_accepted accepted found).1
  obtain ⟨numbered, loads⟩ := Function.wellNumbered_of_defects clean body
  exact ⟨numbered, Function.grounded_of_typed numbered body typed, single,
    fun id b _ present => loads id b present⟩

/-- Optimising a function preserves its module. The function is checked, and assigns each register
at most once. Then the pipeline gives a function, and in the module with that function every call
that does not meet a value of the wrong type ends as it did before. -/
theorem runFunction_preserves {m : Module} {f : Function} (accepted : m.defects = .ok [])
    (found : m.function? f.id = some f) (body : f.isExternal = false)
    (typed : f.typingErrors = .ok []) (single : f.SingleAssignment) (pl : Pipeline)
    (report : Report) :
    ∃ done, pl.runFunction f report = .ok done ∧
      ∀ (κ ε : Type) (setup : Setup) (fuel depth : Nat) (id : FuncId) (args : List Value)
        (w : World κ), w.globals.size = m.globals.size →
        (runAt setup m fuel depth id args w : Frame.Finished κ ε).Typed →
        (runAt setup m fuel depth id args w : Frame.Finished κ ε).EndsLike
          (runAt setup (m.replace done.function) fuel depth id args w) := by
  have inside : f.id.num < m.functions.size := (Array.getElem?_eq_some_iff.mp found).1
  have regular := regular_of_checked accepted found body typed single
  obtain ⟨done, ran, refines⟩ := runFunction_refines inside pl report regular
  refine ⟨done, ran, fun κ ε setup fuel depth id args w size proper => ?_⟩
  have ends := refines.preserves κ ε setup fuel depth id args w size
  rw [Module.replace_self found] at ends
  exact preserving_endsLike ends proper

/-- A function whose only branch is on a constant; it adds two to its argument. -/
def decided : Function := {
  name := "decided"
  sig := { params := [.i64], ret := .i64 }
  params := [⟨0⟩]
  regTypes := #[.i64, .bool, .i64, .i64, .i64, .i64, .i64]
  blocks := #[
    some { id := ⟨0⟩, insts := [{ op := .const, dest := ⟨1⟩, ty := .bool, const := .ofBool true }],
           term := .condBr ⟨1⟩ ⟨1⟩ ⟨2⟩ },
    some { id := ⟨1⟩, insts := [{ op := .copy, dest := ⟨2⟩, ty := .i64, args := [⟨0⟩] }],
           term := .br ⟨3⟩ },
    some { id := ⟨2⟩, insts := [{ op := .const, dest := ⟨3⟩, ty := .i64, const := .ofInt .i64 7 }],
           term := .br ⟨3⟩ },
    some { id := ⟨3⟩, phis := [{ dest := ⟨4⟩, ty := .i64, incoming := [⟨⟨1⟩, ⟨2⟩⟩, ⟨⟨2⟩, ⟨3⟩⟩] }],
           insts := [{ op := .const, dest := ⟨5⟩, ty := .i64, const := .ofInt .i64 2 },
                     { op := .add, dest := ⟨6⟩, ty := .i64, args := [⟨4⟩, ⟨5⟩] }],
           term := .ret (some ⟨6⟩) }] }

theorem runFunction_preserves_decided :
    ∃ done, (Pipeline.forLevel .o3).runFunction decided {} = .ok done ∧
      (runAt {} (({ functions := #[decided] } : Module).replace done.function) 5 0 ⟨0⟩
        [.ofInt .i64 40] (⟨#[], [], ()⟩ : World Unit) : Frame.Finished Unit Unit).result =
        .ok (.ofInt .i64 42) := by
  obtain ⟨done, ran, preserves⟩ := runFunction_preserves (m := { functions := #[decided] })
    (f := decided) (by decide +kernel) rfl rfl (by decide +kernel) (by decide +kernel)
    (Pipeline.forLevel .o3) {}
  have ended := preserves Unit Unit {} 5 0 ⟨0⟩ [.ofInt .i64 40] ⟨#[], [], ()⟩ rfl
  have result : (runAt {} { functions := #[decided] } 5 0 ⟨0⟩ [.ofInt .i64 40]
      (⟨#[], [], ()⟩ : World Unit) : Frame.Finished Unit Unit).result = .ok (.ofInt .i64 42) := by
    decide +kernel
  refine ⟨done, ran, (ended fun h stopped => ?_).value _ result⟩
  rw [result] at stopped
  cases stopped

/-- What a pipeline makes of a function of an accepted module: a declaration is left alone, and a function
with a body is conserved. -/
def Optimises (m : Module) (f g : Function) : Prop :=
  f.isExternal = true ∧ g = f ∨ f.isExternal = false ∧ Conserves m f g

namespace Optimises
variable {m : Module} {f g : Function} (optimises : Optimises m f g)
include optimises

theorem id : g.id = f.id := by
  rcases optimises with ⟨-, rfl⟩ | ⟨-, conserves⟩
  · rfl
  · exact conserves.id

theorem header : SameHeader f g := by
  rcases optimises with ⟨-, rfl⟩ | ⟨-, conserves⟩
  · exact ⟨rfl, rfl, rfl, rfl, rfl⟩
  · exact conserves.header

theorem supplied (supplied : f.Supplied) : g.Supplied := by
  rcases optimises with ⟨-, rfl⟩ | ⟨-, conserves⟩
  · exact supplied
  · exact conserves.supplied supplied

theorem translatable (translates : f.Translatable m) : g.Translatable m := by
  rcases optimises with ⟨-, rfl⟩ | ⟨-, conserves⟩
  · exact translates
  · exact conserves.translatable translates

end Optimises

section Accepted

variable {m : Module} (accepted : m.defects = .ok []) (pl : Pipeline)
include accepted

theorem runFunction_optimises {f : Function} (member : f ∈ m.functions) (report : Report) :
    ∃ done, pl.runFunction f report = .ok done ∧ Optimises m f done.function := by
  cases body : f.isExternal with
  | true => exact ⟨{ function := f, report }, if_pos body, .inl ⟨body, rfl⟩⟩
  | false =>
    obtain ⟨done, ran, conserves⟩ :=
      runFunction_conserves (wellFormed_of_accepted accepted member body) pl report
    exact ⟨done, ran, .inr ⟨body, conserves⟩⟩

/-- An accepted module can be copied. -/
theorem checkCopyable_of_accepted : checkCopyable m = .ok () := by
  have present : ∀ g? ∈ m.globals.toList, ∃ g, Crash.deref g? = .ok g := fun g? member => by
    obtain ⟨g, there⟩ := Module.present_of_accepted accepted (Array.mem_toList_iff.mp member)
    exact ⟨g, Crash.deref_eq_ok.mpr there⟩
  have whole : ∀ f ∈ m.functions.toList, ∃ bs, f.allBlocks = .ok bs := fun f member => by
    cases body : f.isExternal with
    | true => exact ⟨[], Function.allBlocks_eq_ok.mpr (by simpa [Function.isExternal] using body)⟩
    | false =>
      exact (wellFormed_of_accepted accepted (Array.mem_toList_iff.mp member) body).numbered.allBlocks
  obtain ⟨globals, read⟩ := mapM_ok_of_forall present
  obtain ⟨blocks, all⟩ := mapM_ok_of_forall whole
  exact bind_eq_ok.mpr ⟨globals, read, bind_eq_ok.mpr ⟨blocks, all, rfl⟩⟩

/-- A pipeline can be run on an accepted module. The result is accepted, and each function in it is what
became of the one in its place. -/
theorem runModule_optimises : ∃ out, pl.runModule m = .ok out ∧ out.1.defects = .ok [] ∧
    out.1.globals = m.globals ∧ out.1.functions.size = m.functions.size ∧
    ∀ id f, m.function? id = some f → ∃ g, out.1.function? id = some g ∧ Optimises m f g := by
  obtain ⟨out, ran, globals, related⟩ :=
    runModule_each fun f member => runFunction_optimises accepted pl member
  have size : out.1.functions.size = m.functions.size := by simpa using related.length_eq.symm
  have places : ∀ id f, m.function? id = some f →
      ∃ g, out.1.function? id = some g ∧ Optimises m f g := by
    intro id f found
    obtain ⟨bound, rfl⟩ := Array.getElem?_eq_some_iff.mp found
    have bound' : id.num < out.1.functions.size := size ▸ bound
    refine ⟨out.1.functions[id.num], Array.getElem?_eq_getElem bound', ?_⟩
    have pair := related.get (by simpa using bound) (by simpa using bound')
    simpa only [List.get_eq_getElem, Array.getElem_toList] using pair
  refine ⟨out, ran, Module.accepted_of_functions accepted globals (related.imp ?_), globals, size,
    places⟩
  rintro f g (⟨external, rfl⟩ | ⟨-, conserves⟩)
  · exact ⟨rfl, rfl, if_pos external⟩
  · refine ⟨conserves.id, conserves.header.name, (conserves.formed.congr globals ?_).defects⟩
    exact fun id h found => (places id h found).imp fun _ there => ⟨there.1, there.2.header.sig⟩

/-- A pipeline makes no function harder to lower. -/
theorem runModule_staysReady : ∃ out, pl.runModule m = .ok out ∧ out.1.defects = .ok [] ∧
    m.StaysReady out.1 := by
  obtain ⟨out, ran, accepted', globals, size, places⟩ := runModule_optimises accepted pl
  -- a function there comes from the one in its place
  have origin : ∀ id g, out.1.function? id = some g →
      ∃ f, m.function? id = some f ∧ Optimises m f g := by
    intro id g there
    obtain ⟨bound, _⟩ := Array.getElem?_eq_some_iff.mp there
    have found : m.function? id = some m.functions[id.num] := Array.getElem?_eq_getElem (size ▸ bound)
    obtain ⟨g', there', optimises⟩ := places id _ found
    cases there.symm.trans there'
    exact ⟨_, found, optimises⟩
  refine ⟨out, ran, accepted', fun g member => ?_⟩
  obtain ⟨f, found, optimises⟩ := origin g.id g (Module.function?_of_mem accepted' member)
  have inPlace : f.StaysReady m m g := ⟨optimises.header.name, optimises.header.sig,
    optimises.header.external, optimises.supplied, optimises.translatable⟩
  refine ⟨f, Array.mem_of_getElem? found, inPlace.trans ?_⟩
  -- what the instructions name is still there, with the types it had
  refine .of_rename (g := id) rfl rfl rfl rfl rfl (by simp) (fun _ => rfl) (fun _ => rfl)
    fun x b _ i inside => ⟨i, inside, rfl, rfl, fun translates => ?_⟩
  refine translates.rename rfl (fun _ h there => ?_) fun _ h there => ⟨h, ?_, rfl⟩
  · obtain ⟨h', found', same⟩ := origin _ h there
    exact ⟨h', found', same.header.sig.symm⟩
  · rwa [Module.global?, ← globals]

end Accepted

/-- Optimisation keeps modules acceptable. Whatever passes are run, however often, on an accepted
module, the result is accepted. If besides the typing check accepts a function and the function
assigns each register at most once, both are so of what a pipeline makes of it, and no register is
assigned at more places than before. -/
theorem optimised_accepted {m : Module} (accepted : m.defects = .ok []) (pl : Pipeline) :
    (∃ out, pl.runModule m = .ok out ∧ out.1.defects = .ok []) ∧
    ∀ f ∈ m.functions, f.typingErrors = .ok [] → f.SingleAssignment → ∀ report,
      ∃ done, pl.runFunction f report = .ok done ∧ done.function.typingErrors = .ok [] ∧
        done.function.SingleAssignment ∧ done.function.writes.Sublist f.writes := by
  constructor
  · obtain ⟨out, ran, accepted', -⟩ := runModule_optimises accepted pl
    exact ⟨out, ran, accepted'⟩
  · intro f member typed single report
    obtain ⟨done, ran, ⟨-, same⟩ | ⟨body, conserves⟩⟩ :=
      runFunction_optimises accepted pl member report
    · refine ⟨done, ran, ?_⟩
      rw [same]
      exact ⟨typed, single, List.Sublist.refl _⟩
    · have numbered := (wellFormed_of_accepted accepted member body).numbered
      obtain ⟨account, typable⟩ :=
        conserves.typable single (Function.typable_of_typed numbered body typed)
      exact ⟨done, ran, typable.typed conserves.formed.numbered (conserves.header.external.trans body),
        conserves.single single, conserves.writes⟩

theorem optimised_accepted_decided : ({ functions := #[decided] } : Module).defects = .ok [] ∧
    ∃ done, (Pipeline.forLevel .o3).runFunction decided {} = .ok done ∧
      done.function.typingErrors = .ok [] ∧ done.function.SingleAssignment := by
  have accepted : ({ functions := #[decided] } : Module).defects = .ok [] := by decide +kernel
  obtain ⟨done, ran, typed, single, -⟩ := (optimised_accepted accepted (Pipeline.forLevel .o3)).2
    decided (by simp) (by decide +kernel) (by decide +kernel) {}
  exact ⟨accepted, done, ran, typed, single⟩

end Pipeline

end TieredEngine.Pass
