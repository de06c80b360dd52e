import Mathlib.Logic.Relation
import TieredEngine.Proofs.Eval.Lockstep

/-!
Globals that start anew with every call. Without a store of its own an evaluator gives each call,
also one made by a callee, the initial globals, and drops them when the call returns: what a callee
stores is not seen by its caller. Such runs agree with runs on one shared store when no call loads
what another call stores, and not in general.
-/
namespace TieredEngine.Eval
open TieredEngine.Ir

/-- The function has the instruction in one of its blocks. -/
def HasInst (m : Module) (id : FuncId) (i : Inst) : Prop :=
  ∃ f cur b, m.function? id = some f ∧ f.block? cur = some b ∧ i ∈ b.insts

def Calls (m : Module) (id callee : FuncId) : Prop :=
  ∃ i, HasInst m id i ∧ i.op = .call ∧ i.callee = callee

def Loads (m : Module) (id : FuncId) (g : GlobalId) : Prop :=
  ∃ i, HasInst m id i ∧ i.op = .loadGlobal ∧ i.global = g

def Stores (m : Module) (id : FuncId) (g : GlobalId) : Prop :=
  ∃ i, HasInst m id i ∧ i.op = .storeGlobal ∧ i.global = g

/-- The function can run because the other one does, through one call or more. -/
def Reached (m : Module) : FuncId → FuncId → Prop := Relation.TransGen (Calls m)

/-- No call loads what another call stores: a function that is reached stores nothing that is loaded
by the function called from outside or by one that is reached, and loads nothing that the function
called from outside stores. -/
structure Isolated (m : Module) (id : FuncId) : Prop where
  kept : ∀ c g, Reached m id c → Stores m c g → ¬ Loads m id g
  apart : ∀ c d g, Reached m id c → Reached m id d → Stores m c g → ¬ Loads m d g
  unseen : ∀ c g, Reached m id c → Stores m id g → ¬ Loads m c g

/-- In an accepted module whatever is called is there. -/
theorem function_of_calls {m : Module} (accepted : m.defects = .ok []) {id callee : FuncId}
    (calls : Calls m id callee) : ∃ f, m.function? callee = some f := by
  obtain ⟨i, ⟨f, cur, b, found, at_cur, inside⟩, op, rfl⟩ := calls
  have bound := (Module.names_of_accepted accepted found at_cur inside).1 op
  exact ⟨_, Array.getElem?_eq_getElem bound⟩

/-- Globals of the same types that differ in the marked ones only. -/
def DifferIn (changed : GlobalId → Prop) (a b : Array Value) : Prop :=
  ∀ g : GlobalId, (b[g.num]?).map (·.ty) = (a[g.num]?).map (·.ty) ∧
    (¬ changed g → b[g.num]? = a[g.num]?)

namespace DifferIn

variable {changed : GlobalId → Prop} {a b c : Array Value}

theorem refl (changed : GlobalId → Prop) (a : Array Value) : DifferIn changed a a :=
  fun _ => ⟨rfl, fun _ => rfl⟩

theorem trans (first : DifferIn changed a b) (second : DifferIn changed b c) :
    DifferIn changed a c := fun g =>
  ⟨(second g).1.trans (first g).1, fun fixed => ((second g).2 fixed).trans ((first g).2 fixed)⟩

/-- A store of a value of the global's type, to a marked global. -/
theorem store {g : GlobalId} (marked : changed g) {v : Value}
    (fits : (a[g.num]?).map (·.ty) = some v.ty) :
    DifferIn changed a (a.setIfInBounds g.num v) := by
  intro x
  rw [getElem?_store]
  split
  · next same =>
    subst same
    obtain ⟨old, there, ty⟩ := Option.map_eq_some_iff.mp fits
    exact ⟨by simp [there, ty], fun fixed => absurd marked fixed⟩
  · exact ⟨rfl, fun _ => rfl⟩

/-- The same store on both sides. -/
theorem storeBoth (differ : DifferIn changed a b) (g : GlobalId) (v : Value) :
    DifferIn changed (a.setIfInBounds g.num v) (b.setIfInBounds g.num v) := by
  have present : (b[g.num]?).map (fun _ => v) = (a[g.num]?).map fun _ => v := by
    have types := congrArg (Option.map fun _ => v) (differ g).1
    simpa [Option.map_map, Function.comp_def] using types
  intro x
  rw [getElem?_store, getElem?_store, present]
  split
  · exact ⟨rfl, fun _ => rfl⟩
  · exact differ x

end DifferIn

section Runs

variable {κ ε : Type}

/-- The link of a run on globals of its own and a run on shared ones, which have to end in the same
result. -/
abbrev beside (κ ε : Type) (R : Array Value → Array Value → Prop) : Link κ κ (Halt ε) (Halt ε) :=
  .byGlobals κ (fun h h' => h' = h) R

theorem beside_mono {R S : Array Value → Array Value → Prop} {out out' : Frame.Finished κ ε}
    (ends : (beside κ ε R).InStep out out') (weaker : ∀ a b, R a b → S a b) :
    (beside κ ε S).InStep out out' := by
  rw [Link.inStep_iff] at ends ⊢
  refine ends.imp_right (.imp_right fun both => ⟨⟨both.1.1, both.1.2.1, ?_⟩, both.2⟩)
  exact weaker _ _ both.1.2.2

/-- A function is entered with globals of its own and with shared ones. `R` relates the two while the
body runs, and after that only what the caller sees counts, its own globals on the one side. -/
theorem enter_beside {m : Module} (accepted : m.defects = .ok []) {initial : Array Value}
    (start : initialGlobals m = .ok initial) {id : FuncId} {f : Function}
    (found : m.function? id = some f) {R after : Array Value → Array Value → Prop}
    (loads : ∀ g, Loads m id g → ∀ a b, R a b → b[g.num]? = a[g.num]?)
    (stores : ∀ g, Stores m id g → ∀ a b, R a b →
      (b[g.num]?).map (·.ty) = (a[g.num]?).map (·.ty) ∧
      ∀ v, (a[g.num]?).map (·.ty) = some v.ty →
        R (a.setIfInBounds g.num v) (b.setIfInBounds g.num v))
    {call call' : Call κ ε}
    (calls : ∀ c, Calls m id c → ∀ args w w', (beside κ ε R).worlds w w' →
      (beside κ ε R).Matches (fun v v' => v' = v) (call c args w) (call' c args w'))
    (setup : Setup) (fuel depth : Nat) (args : List Value) {w w' : World κ}
    (worlds : (beside κ ε after).worlds w w') (before : R initial w'.globals)
    (left : ∀ a b, R a b → after w.globals b) :
    (beside κ ε after).InStep
      (enter { setup with shared := false } m call fuel depth id args w)
      (enter { setup with shared := true } m call' fuel depth id args w') := by
  have header : SameHeader f f := ⟨rfl, rfl, rfl, rfl, rfl⟩
  have origin : (if ({ setup with shared := false } : Setup).shared then .ok w.globals
      else initialGlobals m) = .ok initial := start
  have origin' : (if ({ setup with shared := true } : Setup).shared then .ok w'.globals
      else initialGlobals m) = .ok w'.globals := rfl
  have hosts : ({ setup with shared := true } : Setup).hosts =
      ({ setup with shared := false } : Setup).hosts := rfl
  refine Link.enter_inStep (fun _ => rfl) header hosts rfl found found rfl worlds worlds.1
    (fun made => ⟨rfl, worlds.2.1, worlds.2.2⟩) origin origin' fun internal fr bound => ?_
  have ran : (beside κ ε R).InStep
      (Frame.run call (fun x => x.num < m.functions.size) fuel fr { w with globals := initial } none
        f.entry)
      (Frame.run call' (fun x => x.num < m.functions.size) fuel (fr.on f) w' none f.entry) := by
    refine Link.run_inStep (fun _ => rfl) header (fun _ none => none) (fun cur b at_cur => ?_) fuel
      (started_of_bindParams bound).function none f.entry ⟨worlds.1, worlds.2.1, before⟩
    refine ⟨b, at_cur, rfl, rfl, rfl, List.forall₂_same.mpr fun i inside => ?_⟩
    have has : HasInst m id i := ⟨f, cur, b, found, at_cur, inside⟩
    refine Link.executes (fun _ => rfl) header (.refl i) (.inl rfl)
      (fun op v v' related => loads _ ⟨i, has, op, rfl⟩ _ _ related.2.2) (fun op v v' related => ?_)
      fun op => ?_
    · obtain ⟨types, kept⟩ := stores _ ⟨i, has, op, rfl⟩ _ _ related.2.2
      exact ⟨types, fun x fits => ⟨related.1, related.2.1, kept x fits⟩⟩
    · have bound := (Module.names_of_accepted accepted found at_cur inside).1 op
      exact ⟨by simpa using bound, by simpa using bound, calls _ ⟨i, has, op, rfl⟩⟩
  exact ran.settle { setup with shared := false } { setup with shared := true } w w' left

/-- Functions that only call each other and load nothing that one of them stores. Each of them runs
on globals of its own as on shared ones that differ from `base` in what they store; `base` holds the
initial value of all that they load. -/
theorem runAt_beside {m : Module} (accepted : m.defects = .ok []) {initial : Array Value}
    (start : initialGlobals m = .ok initial) {reached : FuncId → Prop}
    (there : ∀ c, reached c → ∃ f, m.function? c = some f)
    (closed : ∀ c d, reached c → Calls m c d → reached d)
    (apart : ∀ c d g, reached c → reached d → Stores m c g → ¬ Loads m d g) {base : Array Value}
    (fresh : DifferIn (fun g => ∀ c, reached c → ¬ Loads m c g) initial base) (setup : Setup)
    (fuel depth : Nat) {id : FuncId} (member : reached id) (args : List Value) {w w' : World κ}
    (past : w'.hostCalls = w.hostCalls) (rest : w'.rest = w.rest)
    (shared : DifferIn (fun g => ∃ c, reached c ∧ Stores m c g) base w'.globals) :
    (beside κ ε fun a b => a = w.globals ∧
        DifferIn (fun g => ∃ c, reached c ∧ Stores m c g) base b).InStep
      (runAt { setup with shared := false } m fuel depth id args w)
      (runAt { setup with shared := true } m fuel depth id args w') := by
  induction fuel generalizing depth id args w w' with
  | zero => exact .error ⟨past, rest, rfl, shared⟩ ⟨rfl, rfl⟩
  | succ fuel ih =>
    obtain ⟨f, found⟩ := there id member
    refine enter_beside accepted start found
      (R := fun a b => DifferIn (fun g => ∃ c, reached c ∧ Stores m c g) initial a ∧
        DifferIn (fun g => ∃ c, reached c ∧ Stores m c g) base b)
      (fun g loads a b related => ?_) (fun g stores a b related => ?_)
      (fun c calls args v v' related => ?_) setup fuel depth args ⟨past, rest, rfl, shared⟩
      ⟨.refl _ _, shared⟩ fun a b related => ⟨rfl, related.2⟩
    · have unchanged : ¬ ∃ c, reached c ∧ Stores m c g := by
        rintro ⟨c, has, stores⟩
        exact apart c id g has member stores loads
      rw [(related.2 g).2 unchanged, (related.1 g).2 unchanged]
      exact (fresh g).2 fun unused => unused id member loads
    · have types : (b[g.num]?).map (·.ty) = (a[g.num]?).map (·.ty) := by
        rw [(related.2 g).1, (related.1 g).1, (fresh g).1]
      exact ⟨types, fun v fits => ⟨related.1.trans (.store ⟨id, member, stores⟩ fits),
        related.2.trans (.store ⟨id, member, stores⟩ (types.trans fits))⟩⟩
    · have ended := ih (depth + 1) (closed id c member calls) args related.1 related.2.1 related.2.2.2
      exact (beside_mono ended fun a b after => ⟨after.1 ▸ related.2.2.1, after.2⟩).result

/-- A call on globals of its own leaves the world's globals alone. -/
theorem globals_enter_private (setup : Setup) (m : Module) (call : Call κ ε) (fuel depth : Nat)
    (id : FuncId) (args : List Value) (w : World κ) :
    (enter { setup with shared := false } m call fuel depth id args w).world.globals = w.globals := by
  cases found : m.function? id with
  | none => simp only [enter, found]
  | some f =>
    have entered : Entered _ m call fuel f args w
        (enter { setup with shared := false } m call fuel depth id args w) := enter_cases found args w
    revert entered
    generalize enter _ m call fuel depth id args w = out
    intro entered
    cases entered with
    | refused => rfl
    | crashed => rfl
    | hosted => exact globals_callHost _ f args w
    | ran => rfl

/-- Runs that differ in nothing but the globals they leave. -/
structure SameBesideGlobals (out out' : Frame.Finished κ ε) : Prop where
  result : out.result = out'.result
  stats : out.stats = out'.stats
  hostCalls : out.world.hostCalls = out'.world.hostCalls
  rest : out.world.rest = out'.world.rest

theorem sameBesideGlobals_of_inStep {R : Array Value → Array Value → Prop}
    {out out' : Frame.Finished κ ε} (ends : (beside κ ε R).InStep out out') :
    SameBesideGlobals out out' := by
  obtain ⟨_, _, free⟩ | ⟨_, _, free⟩ | ⟨⟨hostCalls, rest, _⟩, stats, result⟩ :=
    Link.inStep_iff.mp ends
  · exact free.elim
  · exact free.elim
  · refine ⟨?_, stats.symm, hostCalls.symm, rest.symm⟩
    rcases result with ⟨v, done, done'⟩ | ⟨h, h', failed, failed', same⟩
    · rw [done, done']
    · rw [failed, failed', same]

/-- An evaluator without a store runs each call of an accepted module on the initial globals. Nothing
that a call stores is seen outside it, and where no call loads what another call stores, the run
ends as it does on one store with the initial globals. -/
theorem fresh_globals_per_call {m : Module} (accepted : m.defects = .ok []) :
    ∃ initial, initialGlobals m = .ok initial ∧
      ∀ (setup : Setup) (fuel depth : Nat) (id : FuncId) (args : List Value) (w : World κ),
        (runAt { setup with shared := false } m fuel depth id args w :
          Frame.Finished κ ε).world.globals = w.globals ∧
        (Isolated m id → SameBesideGlobals
          (runAt { setup with shared := false } m fuel depth id args w : Frame.Finished κ ε)
          (runAt { setup with shared := true } m fuel depth id args { w with globals := initial })) := by
  obtain ⟨initial, start⟩ := initialGlobals_of_accepted accepted
  refine ⟨initial, start, fun setup fuel depth id args w => ?_⟩
  cases fuel with
  | zero => exact ⟨rfl, fun _ => ⟨rfl, rfl, rfl, rfl⟩⟩
  | succ fuel =>
    refine ⟨globals_enter_private setup m _ fuel depth id args w, fun isolated => ?_⟩
    cases found : m.function? id with
    | none =>
      simp only [runAt, enter, found]
      exact ⟨rfl, rfl, rfl, rfl⟩
    | some f =>
      have there : ∀ c, Reached m id c → ∃ f, m.function? c = some f := by
        intro c reached
        obtain ⟨_, _, calls⟩ := Relation.TransGen.tail'_iff.mp reached
        exact function_of_calls accepted calls
      -- while the body runs, its own globals differ from the initial ones in what it stores, and
      -- the shared ones from its own in what its callees store
      apply sameBesideGlobals_of_inStep (R := fun _ _ => True)
      refine enter_beside accepted start found
        (R := fun a b => DifferIn (fun g => Stores m id g) initial a ∧
          DifferIn (fun g => ∃ c, Reached m id c ∧ Stores m c g) a b)
        (fun g loads a b related => ?_) (fun g stores a b related => ⟨(related.2 g).1, fun v fits => ?_⟩)
        (fun c calls args v v' related => ?_) setup fuel depth args ⟨rfl, rfl, trivial⟩
        ⟨.refl _ _, .refl _ _⟩ fun _ _ _ => trivial
      · refine (related.2 g).2 ?_
        rintro ⟨c, reached, stores⟩
        exact isolated.kept c g reached stores loads
      · exact ⟨related.1.trans (.store stores fits), related.2.storeBoth g v⟩
      · obtain ⟨past, rest, own, shared⟩ := related
        have fresh : DifferIn (fun g => ∀ c, Reached m id c → ¬ Loads m c g) initial v.globals :=
          fun g => ⟨(own g).1, fun used => (own g).2 fun stores =>
            used fun c reached => isolated.unseen c g reached stores⟩
        have ended := runAt_beside (ε := ε) accepted start there
          (fun c d reached calls => reached.tail calls) isolated.apart fresh setup fuel (depth + 1)
          (.single calls) args past rest shared
        exact (beside_mono ended fun a b after => by rw [after.1]; exact ⟨own, after.2⟩).result

end Runs

/-- A count kept by the function that is called, and a step that a callee reads. -/
def counting : Module := {
  functions := #[
    { name := "count", sig := { ret := .i64 }, regTypes := #[.i64, .i64, .i64]
      blocks := #[some { insts := [{ op := .loadGlobal, ty := .i64, dest := ⟨0⟩, global := ⟨0⟩ },
                                   { op := .call, ty := .i64, dest := ⟨1⟩, args := [⟨0⟩],
                                     callee := ⟨1⟩ },
                                   { op := .storeGlobal, args := [⟨1⟩], global := ⟨0⟩ },
                                   { op := .loadGlobal, ty := .i64, dest := ⟨2⟩, global := ⟨0⟩ }],
                         term := .ret (some ⟨2⟩) }] },
    { id := ⟨1⟩, name := "step", sig := { params := [.i64], ret := .i64 }, params := [⟨0⟩]
      regTypes := #[.i64, .i64, .i64]
      blocks := #[some { insts := [{ op := .loadGlobal, ty := .i64, dest := ⟨1⟩, global := ⟨1⟩ },
                                   { op := .add, ty := .i64, dest := ⟨2⟩, args := [⟨0⟩, ⟨1⟩] }],
                         term := .ret (some ⟨2⟩) }] }]
  globals := #[some { name := "total", ty := .i64, init := .ofInt .i64 10 },
               some { id := ⟨1⟩, name := "step", ty := .i64, init := .ofInt .i64 5 }] }

theorem isolated_counting : Isolated counting ⟨0⟩ := by
  have accepted : counting.defects = .ok [] := by decide +kernel
  have member : ∀ id i, HasInst counting id i → ∃ f ∈ counting.functions, f.id = id ∧
      ∃ b? ∈ f.blocks, ∃ b ∈ b?, i ∈ b.insts := by
    rintro id i ⟨f, cur, b, found, at_cur, inside⟩
    exact ⟨f, Array.mem_of_getElem? found, (Module.function_of_accepted accepted found).2, _,
      Array.mem_of_getElem? (Function.block?_eq_some.mp at_cur), b, rfl, inside⟩
  have called : ∀ f ∈ counting.functions, ∀ b? ∈ f.blocks, ∀ b ∈ b?, ∀ i ∈ b.insts,
      i.op = .call → i.callee = ⟨1⟩ := by decide +kernel
  have stored : ∀ f ∈ counting.functions, ∀ b? ∈ f.blocks, ∀ b ∈ b?, ∀ i ∈ b.insts,
      i.op = .storeGlobal → f.id = ⟨0⟩ ∧ i.global = ⟨0⟩ := by decide +kernel
  have loaded : ∀ f ∈ counting.functions, ∀ b? ∈ f.blocks, ∀ b ∈ b?, ∀ i ∈ b.insts,
      i.op = .loadGlobal → f.id = ⟨1⟩ → i.global = ⟨1⟩ := by decide +kernel
  have reached : ∀ c, Reached counting ⟨0⟩ c → c = ⟨1⟩ := by
    intro c reached
    obtain ⟨_, _, i, has, op, rfl⟩ := Relation.TransGen.tail'_iff.mp reached
    obtain ⟨f, listed, _, b?, among, b, there, inside⟩ := member _ i has
    exact called f listed b? among b there i inside op
  have silent : ∀ c g, Reached counting ⟨0⟩ c → ¬ Stores counting c g := by
    rintro c g through ⟨i, has, op, rfl⟩
    obtain ⟨f, listed, number, b?, among, b, there, inside⟩ := member _ i has
    have first := (stored f listed b? among b there i inside op).1
    rw [number, reached c through] at first
    exact absurd first (by decide)
  refine ⟨fun c g through stores => absurd stores (silent c g through),
    fun c d g through _ stores => absurd stores (silent c g through), ?_⟩
  rintro c g through ⟨i, has, op, rfl⟩ ⟨j, loads, load, same⟩
  obtain ⟨f, listed, _, b?, among, b, there, inside⟩ := member _ i has
  have first := (stored f listed b? among b there i inside op).2
  obtain ⟨f, listed, number, b?, among, b, there, inside⟩ := member _ j loads
  have second := loaded f listed b? among b there j inside load (number.trans (reached c through))
  rw [first, second] at same
  exact absurd same (by decide)

theorem fresh_globals_per_call_counting :
    (run { shared := false } counting ⟨0⟩ [] ⟨#[], [], ()⟩ : Frame.Finished Unit Unit).result =
      .ok (.ofInt .i64 15) := by
  obtain ⟨initial, start, runs⟩ := @fresh_globals_per_call Unit Unit counting (by decide +kernel)
  have values : initialGlobals counting = .ok #[.ofInt .i64 10, .ofInt .i64 5] := by decide +kernel
  cases values.symm.trans start
  have same := (runs {} ampleFuel 0 ⟨0⟩ [] ⟨#[], [], ()⟩).2 isolated_counting
  refine same.result.trans ?_
  decide +kernel

/-- A callee that stores one, and a caller that loads what the callee stored. -/
def handing : Module := {
  functions := #[
    { name := "fill", regTypes := #[.i64]
      blocks := #[some { insts := [{ op := .const, ty := .i64, dest := ⟨0⟩, const := .ofInt .i64 1 },
                                   { op := .storeGlobal, args := [⟨0⟩], global := ⟨0⟩ }],
                         term := .ret none }] },
    { id := ⟨1⟩, name := "main", sig := { ret := .i64 }, regTypes := #[.i64]
      blocks := #[some { insts := [{ op := .call, dest := .absent, callee := ⟨0⟩ },
                                   { op := .loadGlobal, ty := .i64, dest := ⟨0⟩, global := ⟨0⟩ }],
                         term := .ret (some ⟨0⟩) }] }]
  globals := #[some { name := "cell", ty := .i64, init := .ofInt .i64 0 }] }

/-- The caller does not see what its callee stored, and it does on a shared store. -/
theorem handing_loses_store :
    handing.defects = .ok [] ∧ initialGlobals handing = .ok #[.ofInt .i64 0] ∧
    (run { shared := false } handing ⟨1⟩ [] ⟨#[], [], ()⟩ : Frame.Finished Unit Unit).result =
      .ok (.ofInt .i64 0) ∧
    (run {} handing ⟨1⟩ [] ⟨#[.ofInt .i64 0], [], ()⟩ : Frame.Finished Unit Unit).result =
      .ok (.ofInt .i64 1) := by
  decide +kernel

end TieredEngine.Eval
