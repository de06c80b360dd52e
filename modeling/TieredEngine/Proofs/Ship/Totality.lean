import TieredEngine.Proofs.Pass.Pipeline
import TieredEngine.Proofs.Ship.Lowering.Symbols
import TieredEngine.Proofs.Ship.Shaken
import TieredEngine.Ship.Compile

/-!
How compiling an accepted module ends. Copying, optimising, looking for the entry and shaking do not
crash, and they leave modules that are accepted and no harder to lower. Lowering trusts more than the
structural check looks at: that instructions have their operands, that types fit, and that no function of
the source poses as a conversion. Files and tools that are missing or fail are reported as errors. So an
accepted module whose functions can be lowered is compiled, or refused with an error, in whatever world.
-/
namespace TieredEngine.Ship
open TieredEngine TieredEngine.Ir TieredEngine.Host Lowering TreeShake

/-- What an accepted module can still have that lowering crashes on: an instruction without its operands;
something that cannot be translated, or a function with the name of a conversion that gives something
else. Nothing that is referred to is missing. -/
def Unready (m : Module) : Crash → Prop
  | .outOfRange => ∃ f ∈ m.functions, ¬ f.Supplied
  | .illTyped => ∃ f ∈ m.functions, f.isExternal = false ∧ ¬ f.Translatable m ∨
      ∃ t, (f.name, t) ∈ conversions ∧ returnType f.sig.ret ≠ t
  | .nullReference => False

/-- The function that is to be wrapped is not one of the module. -/
def LowerOptions.WrapsOutside (o : LowerOptions) (m : Module) : Prop :=
  ∃ e, o.wrapped = some e ∧ m.functions.size ≤ e.id.num

/-- A module is no less ready than the one that it comes from. -/
theorem Unready.of_staysReady {m w : Module} (stays : m.StaysReady w) {c : Crash}
    (unready : Unready w c) : Unready m c := by
  cases c with
  | nullReference => exact unready
  | outOfRange =>
    obtain ⟨g, member, short⟩ := unready
    obtain ⟨f, listed, same⟩ := stays g member
    exact ⟨f, listed, fun supplied => short (same.supplied supplied)⟩
  | illTyped =>
    obtain ⟨g, member, bad⟩ := unready
    obtain ⟨f, listed, same⟩ := stays g member
    refine ⟨f, listed, bad.imp (fun ⟨body, wrong⟩ => ?_) fun ⟨t, named, gives⟩ => ?_⟩
    · exact ⟨same.external ▸ body, fun fits => wrong (same.translatable fits)⟩
    · exact ⟨t, same.name ▸ named, same.sig ▸ gives⟩

/-- Lowering an accepted module crashes only on what is not ready in it, or when the function that is to be
wrapped is elsewhere. -/
theorem lower_crash {m : Module} (accepted : m.defects = .ok []) {o : LowerOptions} {c : Crash}
    (crashed : lower m o = .error (.crash c)) :
    Unready m c ∨ c = .outOfRange ∧ o.WrapsOutside m := by
  refine (@lower_outcome (fun c => Unready m c ∨ c = .outOfRange ∧ o.WrapsOutside m) m o accepted
    (fun strict e wrapped => ?_) (fun strict f member => ?_) (fun strict f member body => ?_)
    fun strict e listed t named => ?_).2 c crashed
  · by_contra outside
    exact strict (.inr ⟨rfl, e, wrapped, Nat.le_of_not_lt outside⟩)
  · by_contra short
    exact strict (.inl ⟨f, member, short⟩)
  · by_contra wrong
    exact strict (.inl ⟨f, member, .inl ⟨body, wrong⟩⟩)
  · by_contra differs
    obtain ⟨f, member, rfl⟩ := List.mem_map.mp listed
    -- the name that a wrapped entry is given is no conversion's
    have kept : o.nameOf f = f.name := LowerOptions.nameOf_kept fun renames => by
      have other : renamedMain ∉ conversions.map (·.1) := by decide +kernel
      rw [LowerOptions.nameOf_renamed renames] at named
      exact other (List.mem_map.mpr ⟨_, named, rfl⟩)
    exact strict (.inl ⟨f, Array.mem_toList_iff.mp member, .inr ⟨t, kept ▸ named, differs⟩⟩)

namespace Build

/-- A build gives something with a property, is refused with an error, or crashes in a way that may be. -/
def Ends {α : Type} (may : Crash → Prop) (x : Build α) (Q : α → Prop) : Prop :=
  ∀ j, (∀ a, (x j).1 = .ok a → Q a) ∧ ∀ c, (x j).1 = .error (.crash c) → may c

namespace Ends

variable {α β ε : Type} {may : Crash → Prop} {Q : α → Prop} {R : β → Prop} {x : Build α}

theorem pure {a : α} (holds : Q a) : Ends may (Pure.pure a) Q :=
  fun _ => ⟨fun _ same => Except.ok.inj same ▸ holds, fun _ same => (by cases same)⟩

theorem bind {g : α → Build β} (first : Ends may x Q) (rest : ∀ a, Q a → Ends may (g a) R) :
    Ends may (x >>= g) R := by
  intro j
  have split : (x >>= g) j = match x j with
      | (.ok a, k) => g a k
      | (.error e, k) => (.error e, k) := by
    show (ExceptT.bindCont g (x j).1 : StateM Job _) (x j).2 = _
    rcases x j with ⟨_ | _, _⟩ <;> rfl
  rw [split]
  have before := first j
  generalize x j = out at before ⊢
  obtain ⟨e | a, k⟩ := out
  · refine ⟨fun _ same => (by cases same), fun c same => before.2 c ?_⟩
    cases same
    rfl
  · exact rest a (before.1 a rfl) k

theorem fail (e : CompileError) : Ends may (fail e) Q :=
  fun _ => ⟨fun _ same => (by cases same), fun _ same => (by cases same)⟩

theorem ite {p : Prop} [Decidable p] {y : Build α} (yes : p → Ends may x Q)
    (no : ¬ p → Ends may y Q) : Ends may (if p then x else y) Q := by
  split
  · next holds => exact yes holds
  · next fails => exact no fails

theorem of_lift {wrap : ε → CompileError} {r : Except (Fault ε) α}
    (crashes : ∀ c, r = .error (.crash c) → may c) : Ends may (lift wrap r) fun _ => True := by
  intro j
  refine ⟨fun _ _ => trivial, fun c same => ?_⟩
  match r with
  | .ok a => cases same
  | .error (.error e) => cases same
  | .error (.crash c') =>
    cases same
    exact crashes _ rfl

theorem of_orCrash {r : Except Crash α} {a : α} (ran : r = .ok a) (holds : Q a) :
    Ends may (orCrash r) Q := by
  subst ran
  exact .pure holds

theorem of_orFile {step : FileStep} {r : Except FileError α} :
    Ends may (orFile step r) fun _ => True := by
  cases r with
  | error e => exact .fail _
  | ok a => exact .pure trivial

theorem of_world : Ends may world fun _ => True :=
  fun _ => ⟨fun _ _ => trivial, fun _ same => (by cases same)⟩

theorem of_setWorld (w : World) : Ends may (setWorld w) fun _ => True :=
  fun _ => ⟨fun _ _ => trivial, fun _ same => (by cases same)⟩

theorem of_note {m : Module} {message : String} {values : List (String × LogValue)} :
    Ends may (note m message values) fun _ => True :=
  fun _ => ⟨fun _ _ => trivial, fun _ same => (by cases same)⟩

end Ends

variable {may : Crash → Prop}

theorem write_ends (step : FileStep) (path text : String) :
    Ends may (write step path text) fun _ => True :=
  Ends.of_world.bind fun _ _ => Ends.of_orFile.bind fun _ _ => .of_setWorld _

theorem orTool_ends (found : World → Except ToolError String) :
    Ends may (orTool found) fun _ => True := by
  refine Ends.of_world.bind fun w _ => ?_
  split
  · exact .pure trivial
  · exact .fail _

theorem runTool_ends (kind : ToolErrorKind) (path : String) (args : List String) :
    Ends may (runTool kind path args) fun _ => True := by
  refine Ends.of_world.bind fun w _ => ?_
  refine (Ends.of_setWorld _).bind fun _ _ => ?_
  split
  · exact .pure trivial
  · exact .fail _

theorem runTools_ends (m : Module) (o : Options) (text tmp out : String) :
    Ends may (runTools m o text tmp out) fun _ => True := by
  refine (write_ends _ _ _).bind fun _ _ => .ite (fun _ => ?_) fun _ => ?_
  · exact (orTool_ends _).bind fun _ _ => runTool_ends _ _ _
  · refine (orTool_ends _).bind fun _ _ => .ite (fun _ => runTool_ends _ _ _) fun _ => ?_
    exact (runTool_ends _ _ _).bind fun _ _ => (orTool_ends _).bind fun _ _ =>
      (orTool_ends _).bind fun _ _ => Ends.of_note.bind fun _ _ => runTool_ends _ _ _

theorem withTemp_ends {act : String → Build Unit} (ends : ∀ tmp, Ends may (act tmp) fun _ => True) :
    Ends may (withTemp act) fun _ => True :=
  fun _ => ⟨fun _ _ => trivial, fun c => (ends _ _).2 c⟩

theorem measure_ends (out : String) : Ends may (measure out) fun _ => True := by
  refine Ends.of_world.bind fun w _ => ?_
  split
  · exact .pure trivial
  · exact (Ends.fail _).bind fun _ (_ : True) => .pure trivial

theorem findEntry_ends {m : Module} (accepted : m.defects = .ok []) (o : Options) :
    Ends may (findEntry m o) fun entry => ∀ f, entry = some f → f ∈ m.functions := by
  obtain ⟨safe, found⟩ := Module.entryFunction_of_accepted accepted
  refine .ite (fun _ => .pure fun f some => (by cases some)) fun _ => ?_
  split
  · next f is => exact .pure fun g same => Option.some.inj same ▸ found f is
  · next c is => exact absurd is (safe c)
  · next e is =>
    refine .ite (fun _ => (Ends.fail _).bind fun _ (_ : True) => ?_) fun _ => ?_
    all_goals exact Ends.of_note.bind fun _ _ => .pure fun f some => (by cases some)

/-- Shaking gives an accepted module and an entry of it, and nothing in it is harder to lower. -/
theorem shake_ends {m : Module} (accepted : m.defects = .ok []) (o : Options) {entry : Option Function}
    (inside : ∀ f, entry = some f → f ∈ m.functions) :
    Ends may (shake m o entry) fun r =>
      r.1.defects = .ok [] ∧ m.StaysReady r.1 ∧ ∀ f, r.2.1 = some f → f ∈ r.1.functions := by
  cases entry with
  | none => exact .pure ⟨accepted, .refl m, fun f some => (by cases some)⟩
  | some f =>
    refine .ite (fun _ => .pure ⟨accepted, .refl m, inside⟩) fun _ => ?_
    obtain ⟨shaken, shook, accepted', -, stays⟩ := treeShake_accepted accepted f.id
    refine (Ends.of_orCrash (Q := (· = shaken)) shook rfl).bind fun r same => ?_
    subst same
    exact Ends.of_note.bind fun _ _ =>
      .pure ⟨accepted', stays, fun g found => Array.mem_of_getElem? found⟩

/-- Compiling an accepted module crashes only on what is not ready in it. -/
theorem compile_ends {m : Module} (accepted : m.defects = .ok []) (o : Options) :
    Ends (Unready m) (compile m o) fun _ => True := by
  obtain ⟨out, ran, accepted', optimised⟩ :=
    Pass.Pipeline.runModule_staysReady accepted (Pass.Pipeline.forLevel o.level)
  refine (Ends.of_orCrash (Q := (· = [])) accepted rfl).bind fun defects clean => ?_
  subst clean
  refine Ends.ite (fun some => (by cases some)) fun _ => ?_
  refine (Ends.of_orCrash (Q := fun _ => True)
    (Pass.Pipeline.checkCopyable_of_accepted accepted) trivial).bind fun _ _ => ?_
  refine (Ends.of_orCrash (Q := (· = out)) ran rfl).bind fun _ same => ?_
  subst same
  refine Ends.of_note.bind fun _ _ => (findEntry_ends accepted' o).bind fun entry inside => ?_
  refine (shake_ends accepted' o inside).bind fun shaken ⟨accepted'', stays, inside'⟩ => ?_
  refine (Ends.of_lift fun c crashed => ?_).bind fun lowered _ => ?_
  · rcases lower_crash accepted'' crashed with unready | ⟨rfl, e, wrapped, outside⟩
    · exact unready.of_staysReady (optimised.trans stays)
    · have listed : e ∈ shaken.1.functions := inside' e (by
        by_cases executable : o.format = .executable
        · rwa [if_pos executable] at wrapped
        · rw [if_neg executable] at wrapped
          cases wrapped)
      have found := Module.function?_of_mem accepted'' listed
      exact absurd (Array.getElem?_eq_some_iff.mp found).1 (Nat.not_lt_of_le outside)
  · refine Ends.of_world.bind fun w _ => Ends.of_orFile.bind fun w _ => ?_
    refine (Ends.of_setWorld w).bind fun _ _ => ?_
    -- what follows the tools is the same for every format
    refine .ite (fun _ => (write_ends _ _ _).bind fun _ _ => ?_) fun _ =>
      (withTemp_ends fun tmp => runTools_ends _ _ _ _ _).bind fun _ _ => ?_
    all_goals exact (measure_ends _).bind fun _ _ => (write_ends _ _ _).bind fun _ _ =>
      Ends.of_note.bind fun _ _ => .pure trivial

end Build

/-- Compiling an accepted module gives an artifact or an error, unless something in the module was not ready
to be lowered. -/
theorem compile_crash {m : Module} (accepted : m.defects = .ok []) (o : Options) (w : World) {c : Crash}
    {j : Job} (crashed : compile m o w = (.error (.crash c), j)) : Unready m c :=
  (Build.compile_ends accepted o { world := w }).2 c (congrArg Prod.fst crashed)

/-- Compiling an accepted module ends in an artifact or an error, except where something was not ready in the
module before anything was done to it. In memory it is optimised by whatever passes, however often they are
run, its entry is looked for, it is shaken from any entry, and what comes out, shaken or not, is lowered
with whatever options: only lowering can crash, on what was not ready, or when it is told to wrap a function
that is not in the module. -/
theorem generation_crashes_only {m : Module} (accepted : m.defects = .ok []) :
    (∀ o w c j, compile m o w = (.error (.crash c), j) → Unready m c) ∧
    Pass.checkCopyable m = .ok () ∧ ∀ pl : Pass.Pipeline, ∃ out, pl.runModule m = .ok out ∧
      CrashFree out.1.entryFunction (· ∈ out.1.functions) ∧
      ∀ entry, ∃ shaken, treeShake out.1 entry = .ok shaken ∧
        (∀ f, out.1.function? entry = some f → ∃ g, shaken.module.function? shaken.entry = some g) ∧
        ∀ w, w = out.1 ∨ w = shaken.module → ∀ (o : LowerOptions) c,
          lower w o = .error (.crash c) → Unready m c ∨ c = .outOfRange ∧ o.WrapsOutside w := by
  refine ⟨fun o w c j => compile_crash accepted o w,
    Pass.Pipeline.checkCopyable_of_accepted accepted, fun pl => ?_⟩
  obtain ⟨out, ran, accepted', optimised⟩ := Pass.Pipeline.runModule_staysReady accepted pl
  refine ⟨out, ran, Module.entryFunction_of_accepted accepted', fun entry => ?_⟩
  obtain ⟨shaken, shook, accepted'', found, stays⟩ := treeShake_accepted accepted' entry
  refine ⟨shaken, shook, found, ?_⟩
  rintro w (rfl | rfl) o c crashed
  · exact (lower_crash accepted' crashed).imp_left (.of_staysReady optimised)
  · exact (lower_crash accepted'' crashed).imp_left (.of_staysReady (optimised.trans stays))

/-- Nothing in the program that divides is unready. -/
theorem ready_dividing (c : Crash) : ¬ Unready dividing c := by
  have fits : ∀ f ∈ dividing.functions, f.Translatable dividing := by
    intro f member
    obtain rfl := Array.mem_singleton.mp member
    refine ⟨fun p t pair => (by cases pair), fun id b _ found => ?_⟩
    obtain rfl := Option.some.inj
      (Array.mem_singleton.mp (Array.mem_of_getElem? (Function.block?_eq_some.mp found)))
    refine ⟨fun p inside => (by cases inside), fun i inside => ?_, trivial⟩
    obtain rfl | rfl : i = _ ∨ i = _ := by simpa using inside
    · exact ⟨[], .nil, rfl, trivial⟩
    · exact ⟨[.i32, .i32], .cons rfl (.cons rfl .nil), ⟨rfl, rfl, rfl⟩, rfl⟩
  cases c with
  | nullReference => exact id
  | outOfRange =>
    rintro ⟨f, member, short⟩
    exact short fun id b live found i inside =>
      (((fits f member).block id b live found).insts i inside).wellTyped.supplied
  | illTyped =>
    rintro ⟨f, member, ⟨-, wrong⟩ | ⟨t, named, -⟩⟩
    · exact wrong (fits f member)
    · obtain rfl := Array.mem_singleton.mp member
      have other : "main" ∉ conversions.map (·.1) := by decide +kernel
      exact other (List.mem_map.mpr ⟨_, named, rfl⟩)

/-- It is compiled into an artifact or refused, and it is optimised, shaken and lowered without a crash. -/
theorem generation_crashes_only_dividing :
    (∀ c j, compile dividing {} {} ≠ (.error (.crash c), j)) ∧
    ∃ out, (Pass.Pipeline.forLevel .o3).runModule dividing = .ok out ∧
      ∃ shaken, treeShake out.1 ⟨0⟩ = .ok shaken ∧ ∀ c, lower shaken.module {} ≠ .error (.crash c) := by
  obtain ⟨compiles, -, runs⟩ := generation_crashes_only (m := dividing) (by decide +kernel)
  obtain ⟨out, ran, -, shakes⟩ := runs (Pass.Pipeline.forLevel .o3)
  obtain ⟨shaken, shook, -, crashes⟩ := shakes ⟨0⟩
  refine ⟨fun c j crashed => ready_dividing c (compiles {} {} c j crashed), out, ran, shaken, shook,
    fun c crashed => ?_⟩
  rcases crashes shaken.module (.inr rfl) {} c crashed with unready | ⟨-, e, wrapped, -⟩
  · exact ready_dividing c unready
  · cases wrapped

/-- A function that copies nothing. -/
def operandless : Module := {
  functions := #[{
    name := "f", sig := { ret := .i32 }, regTypes := #[.i32]
    blocks := #[some { insts := [{ op := .copy, dest := ⟨0⟩, ty := .i32 }], term := .ret (some ⟨0⟩) }] }] }

/-- It is accepted, and lowering it crashes. -/
theorem operandless_crashes : operandless.defects = .ok [] ∧
    ∃ out, (Pass.Pipeline.forLevel .o0).runModule operandless = .ok out ∧
      lower out.1 {} = .error (.crash .outOfRange) := by
  refine ⟨by decide +kernel, (operandless, {}, false), rfl, rfl⟩

end TieredEngine.Ship
