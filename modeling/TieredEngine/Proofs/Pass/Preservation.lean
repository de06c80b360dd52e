import TieredEngine.Proofs.Eval.Entering
import TieredEngine.Proofs.Pass.BlockRuns

/-!
Replacing a function of a module by a rewriting of it preserves every call: of the function itself,
and of every other one that may reach it through calls.
-/
namespace TieredEngine.Ir

/-- The module with another function under the number the function carries. -/
def Module.replace (m : Module) (f : Function) : Module :=
  { m with functions := m.functions.setIfInBounds f.id.num f }

theorem Module.size_replace (m : Module) (f : Function) :
    (m.replace f).functions.size = m.functions.size := by
  simp [Module.replace]

theorem Module.function?_replace {m : Module} {f : Function} (inside : f.id.num < m.functions.size)
    (id : FuncId) :
    (m.replace f).function? id = if id = f.id then some f else m.function? id := by
  unfold Module.function? Module.replace
  rw [Array.getElem?_setIfInBounds]
  by_cases same : id = f.id
  · simp [same, inside]
  · have different : ¬ f.id.num = id.num := fun equal => same (FuncId.num_inj.mp equal.symm)
    simp [same, different]

/-- Replacing a function by itself changes nothing. -/
theorem Module.replace_self {m : Module} {f : Function} (found : m.function? f.id = some f) :
    m.replace f = m := by
  unfold Module.replace
  congr 1
  apply Array.ext_getElem?
  intro i
  rw [Array.getElem?_setIfInBounds]
  split
  · next same =>
    subst same
    have inside := (Array.getElem?_eq_some_iff.mp found).1
    rw [if_pos inside]
    exact found.symm
  · rfl

end TieredEngine.Ir

namespace TieredEngine.Eval
open TieredEngine.Ir

theorem SameHeader.trans {f g h : Function} (first : SameHeader f g) (second : SameHeader g h) :
    SameHeader f h :=
  ⟨second.name.trans first.name, second.sig.trans first.sig, second.params.trans first.params,
    second.regTypes.trans first.regTypes, second.external.trans first.external⟩

end TieredEngine.Eval

namespace TieredEngine.Pass
open TieredEngine.Ir TieredEngine.Eval

/-- Globals of a module keep their number. -/
theorem preserving_shares (κ ε : Type) (n : Nat) :
    (preserving κ ε n).Shares (fun _ => True) fun globals => globals.size = n where
  globals := by
    rintro w _ ⟨rfl, size⟩
    exact ⟨rfl, size⟩
  reset := by
    rintro w _ globals ⟨rfl, _⟩ size
    exact ⟨rfl, size⟩
  store := by
    intro globals id v globals' size _ stored
    unfold storeGlobal at stored
    split at stored
    · cases stored
    · split at stored
      · cases stored
      · cases stored
        simpa using size
  values := fun _ _ _ _ => trivial
  hostCalls := by
    rintro w _ ⟨rfl, _⟩
    rfl
  hosted := by
    rintro w _ h ⟨rfl, size⟩
    exact ⟨rfl, size⟩
  alike := fun _ _ alike => .fault alike
  host := fun _ _ => .same _
  crash := fun _ => .same _

theorem closed_true : Closed fun _ => True := ⟨trivial, fun _ _ _ _ _ _ _ _ => trivial⟩

/-- The frames that two calls start with. -/
theorem started_tracks {k : Facts} {f f' : Function} {args : List Value} {fr fr' : Frame}
    (started : Started f args fr) (started' : Started f' args fr') (regs : fr'.regs = fr.regs)
    (just : k.Justified f) : Tracks k f f' f.entry f.params [] fr fr' := by
  have same : fr'.reg? = fr.reg? := by
    funext r
    simp only [Frame.reg?, regs]
  have param : ∀ r x, fr.reg? r = some x → r ∈ f.params := fun r x held =>
    (started.defined r).mp (by simp [held])
  refine ⟨started.function, started'.function, started.sized, started'.sized,
    by rw [started.stats, started'.stats], fun r => by simpa using started.defined r,
    fun r _ => by rw [same], fun r v x known held => ?_, fun d s copy sure => ?_⟩
  · exact absurd (param r x held) (just.constant r v known).1
  · have early : d ∈ f.params := by simpa using sure _ _ .entry
    exact absurd early (just.copy d s copy).2.1

/-- Every call of the module with the first function ends in the same way in the module with the
second, unless the first meets a value of the wrong type. -/
def Preserves (m : Module) (f f' : Function) : Prop :=
  ∀ (κ ε : Type) (setup : Setup) (fuel depth : Nat) (id : FuncId) (args : List Value)
    (w : World κ), w.globals.size = m.globals.size →
    (preserving κ ε m.globals.size).Ends (fun _ => True)
      (runAt setup (m.replace f) fuel depth id args w)
      (runAt setup (m.replace f') fuel depth id args w)

theorem Preserves.trans {m : Module} {f g h : Function} (first : Preserves m f g)
    (second : Preserves m g h) : Preserves m f h := by
  intro κ ε setup fuel depth id args w size
  exact preserving_ends_trans (first κ ε setup fuel depth id args w size)
    (second κ ε setup fuel depth id args w size)

theorem Rewrites.header {k : Facts} {f f' : Function} (rewrites : Rewrites k f f')
    (numbered : f.WellNumbered) : SameHeader f f' := by
  have nonempty : ∀ (g : Function) id c, g.block? id = some c → g.isExternal = false := by
    intro g id c present
    have bound := (Array.getElem?_eq_some_iff.mp (Function.block?_eq_some.mp present)).1
    simp only [Function.isExternal, Array.isEmpty_eq_false_iff]
    intro empty
    simp [empty] at bound
  obtain ⟨b, found⟩ := numbered.present f.entry numbered.entry
  obtain ⟨b', found', _⟩ := rewrites.block f.entry b .entry found
  exact ⟨rewrites.name, rewrites.sig, rewrites.params, rewrites.regTypes,
    (nonempty f' _ b' found').trans (nonempty f _ b found).symm⟩

/-- A rewriting of a function preserves the calls of its module. -/
theorem Rewrites.preserves {m : Module} {k : Facts} {f f' : Function}
    (rewrites : Rewrites k f f') (just : k.Justified f) (regular : Regular m.globals.size f)
    (inside : f.id.num < m.functions.size) : Preserves m f f' := by
  intro κ ε setup fuel
  have shares := preserving_shares κ ε m.globals.size
  have header := rewrites.header regular.numbered
  induction fuel with
  | zero =>
    intro depth id args w size
    exact .error ⟨rfl, size⟩ ⟨.same _, rfl⟩
  | succ fuel ih =>
    intro depth id args w size
    simp only [runAt]
    -- calls of the body are runs with less fuel
    have calls : CallsMatch (preserving κ ε m.globals.size) (fun _ => True)
        (fun id args w =>
          let out := runAt (ε := ε) setup (m.replace f) fuel (depth + 1) id args w
          (out.result, out.world))
        (fun id args w =>
          let out := runAt setup (m.replace f') fuel (depth + 1) id args w
          (out.result, out.world)) := by
      intro id args w w' worlds _
      obtain ⟨rfl, size⟩ := worlds
      exact (ih (depth + 1) id args w' size).result
    have inside' : f'.id.num < m.functions.size := rewrites.id ▸ inside
    have initial : initialGlobals (m.replace f') = initialGlobals (m.replace f) := rfl
    have good : ∀ globals, initialGlobals (m.replace f) = .ok globals →
        globals.size = m.globals.size := fun globals start =>
      size_initialGlobals (m := m.replace f) start
    by_cases same : id = f.id
    · have found : (m.replace f).function? id = some f := by
        rw [Module.function?_replace inside, if_pos same]
      have found' : (m.replace f').function? id = some f' := by
        rw [Module.function?_replace inside', if_pos (same.trans rewrites.id.symm)]
      refine enter_ends shares (fun _ _ _ _ _ _ _ => trivial) found found' header initial good
        ⟨rfl, size⟩ ?_
      intro _ fr fr' w w' worlds started started' regs
      rw [Module.size_replace, Module.size_replace, rewrites.entry]
      have entering : Entering k f f' none f.entry f.params fr fr' :=
        ⟨.entry, started_tracks started started' regs just, by simp, by simp⟩
      exact run_match rewrites just regular calls fuel entering worlds
    · have found : (m.replace f).function? id = m.function? id := by
        rw [Module.function?_replace inside, if_neg same]
      have found' : (m.replace f').function? id = m.function? id := by
        rw [Module.function?_replace inside', if_neg fun equal => same (equal.trans rewrites.id)]
      cases present : m.function? id with
      | none =>
        simp only [enter, found, found', present]
        exact .error ⟨rfl, size⟩ ⟨.same _, rfl⟩
      | some g =>
        exact enter_congr shares closed_true (fun _ _ _ _ _ _ _ => trivial) (found.trans present)
          (found'.trans present) (fun _ _ _ _ _ _ _ => trivial)
          (by rw [Module.size_replace, Module.size_replace]) initial good calls
          (.inl ⟨rfl, Halt.Alike.same _⟩) (fun _ _ => trivial) ⟨rfl, size⟩

/-- Loads of a rewritten function are loads of the original. -/
theorem Rewrites.loads {n : Nat} {k : Facts} {f f' : Function} (rewrites : Rewrites k f f')
    (regular : Regular n f) : ∀ id b, f'.Reachable id → f'.block? id = some b → ∀ i ∈ b.insts,
      i.op = .loadGlobal → i.global.num < n := by
  intro id' b' reached' found' i' member load
  obtain ⟨id, reached, rfl⟩ := rewrites.reachable_back regular.numbered reached'
  obtain ⟨b, found⟩ := reached.present regular.numbered
  obtain ⟨c', place, blocks⟩ := rewrites.block id b reached found
  cases found'.symm.trans place
  obtain ⟨before', after', split'⟩ := List.append_of_mem member
  obtain ⟨before, i, after, split, step, _⟩ := blocks.insts.split split'
  cases step with
  | keep => exact regular.loads id b reached found i (by simp [split]) load
  | fold => cases load

/-- Constants of a rewritten function are constants of the original or known ones, and folding
keeps the property. -/
theorem Rewrites.constants {k : Facts} {f f' : Function} (rewrites : Rewrites k f f')
    (numbered : f.WellNumbered) {P : Value → Prop} (closed : Closed P) (consts : Constants P f)
    (known : ∀ r v, k.constant r v → P v) : Constants P f' := by
  intro id' b' reached' found' i' member const
  obtain ⟨id, reached, rfl⟩ := rewrites.reachable_back numbered reached'
  obtain ⟨b, found⟩ := reached.present numbered
  obtain ⟨c', place, blocks⟩ := rewrites.block id b reached found
  cases found'.symm.trans place
  obtain ⟨before', after', split'⟩ := List.append_of_mem member
  obtain ⟨before, i, after, split, step, _⟩ := blocks.insts.split split'
  have original := consts id b reached found i (by simp [split])
  cases step with
  | keep => exact original const
  | fold defines constants folded =>
    refine closed.compute #[] i _ _ (by simp) ?_ original (compute_of_fold? folded #[]).1
    intro x inside
    obtain ⟨r, _, constant⟩ := forall₂_partner constants.flip inside
    exact known r x constant

/-- What a pass leaves of a function of a module: a function that the next pass can work on, that is
entered like the original, and that preserves every call. -/
structure Refines (m : Module) (f f' : Function) : Prop where
  regular : Regular m.globals.size f'
  id : f'.id = f.id
  header : SameHeader f f'
  preserves : Preserves m f f'
  constants : ∀ P, Closed P → Constants P f → Constants P f'

theorem Refines.trans {m : Module} {f g h : Function} (first : Refines m f g)
    (second : Refines m g h) : Refines m f h where
  regular := second.regular
  id := second.id.trans first.id
  header := first.header.trans second.header
  preserves := first.preserves.trans second.preserves
  constants P closed consts := second.constants P closed (first.constants P closed consts)

/-- The rewriting of a function refines it, when its blocks are numbered well again and it assigns
no more than the original. -/
theorem Rewrites.refines {m : Module} {k : Facts} {f f' : Function} (rewrites : Rewrites k f f')
    (just : k.Justified f) (regular : Regular m.globals.size f)
    (inside : f.id.num < m.functions.size) (numbered : f'.WellNumbered)
    (fewer : f'.writes.Sublist f.writes)
    (known : ∀ P, Closed P → Constants P f → ∀ r v, k.constant r v → P v) : Refines m f f' where
  regular := {
    numbered
    grounded := rewrites.grounded just regular.numbered regular.grounded
    single := by
      have declares : f'.declares = f.declares := funext rewrites.declares
      unfold Function.SingleAssignment
      rw [declares]
      exact (fewer.filter _).nodup regular.single
    loads := rewrites.loads regular }
  id := rewrites.id
  header := rewrites.header regular.numbered
  preserves := rewrites.preserves just regular inside
  constants P closed consts :=
    rewrites.constants regular.numbered closed consts (known P closed consts)

/-- A function is a rewriting of itself. -/
theorem Rewrites.refl (f : Function) : Rewrites {} f f where
  id := rfl
  name := rfl
  sig := rfl
  params := rfl
  regTypes := rfl
  entry := rfl
  block := by
    intro id b _ found
    refine ⟨b, found, ?_, .unchanged fun _ => trivial, .unchanged rfl fun _ _ => trivial⟩
    induction b.phis with
    | nil => exact .nil
    | cons p ps ih => exact .keep rfl (fun pred r _ value => ⟨r, value, .refl, trivial⟩) ih

theorem Refines.refl {m : Module} {f : Function} (regular : Regular m.globals.size f)
    (inside : f.id.num < m.functions.size) : Refines m f f :=
  (Rewrites.refl f).refines ⟨fun _ _ known => known.elim, fun _ _ copy => copy.elim⟩ regular inside
    regular.numbered (List.Sublist.refl _) fun _ _ _ _ _ known => known.elim

/-- A pass that gives a refinement of every function it can be run on. -/
def Sound (pass : Function → Except Crash (Function × Bool)) : Prop :=
  ∀ (m : Module) (f : Function), Regular m.globals.size f → f.id.num < m.functions.size →
    ∃ f' changed, pass f = .ok (f', changed) ∧ Refines m f f'

end TieredEngine.Pass
