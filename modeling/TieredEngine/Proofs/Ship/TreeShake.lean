import TieredEngine.Proofs.Eval.Lockstep
import TieredEngine.Proofs.Ship.Live

/-!
Tree shaking preserves meaning. A kept function keeps its header and its blocks, with new numbers in
calls and global accesses. Its run in the shaken module goes in step with its run in the whole one:
the kept globals hold the same values at their new places, and everything the run reaches is kept.
-/
namespace TieredEngine.Ship.TreeShake
open TieredEngine.Ir TieredEngine.Eval

namespace Live

/-- An instruction with the new numbers. -/
def inst (live : Live) (i : Inst) : Inst :=
  match i.op with
  | .call => { i with callee := live.function i.callee }
  | .loadGlobal | .storeGlobal => { i with global := live.global i.global }
  | _ => i

def block (live : Live) (b : Block) : Block := { b with insts := b.insts.map live.inst }

/-- A function with the new numbers in its body. -/
def body (live : Live) (f : Function) : Function := f.mapBlocks live.block

theorem renamed_inst (live : Live) (i : Inst) : Renamed i (live.inst i) := by
  unfold inst
  split <;> exact ⟨rfl, rfl, rfl, rfl, rfl, rfl⟩

theorem callee_inst {live : Live} {i : Inst} (call : i.op = .call) :
    (live.inst i).callee = live.function i.callee := by
  simp only [inst, call]

theorem global_inst {live : Live} {i : Inst} (access : i.op = .loadGlobal ∨ i.op = .storeGlobal) :
    (live.inst i).global = live.global i.global := by
  rcases access with access | access <;> simp only [inst, access]

end Live

theorem renumbered_of_marked {live : Array Bool} {old : UInt32}
    (isMarked : live[old.toNat]? = some true) :
    renumbered (numbering live) old = .ok (UInt32.ofNat (place live old.toNat)) := by
  unfold renumbered
  rw [numbering_of_marked isMarked]

theorem renumberInst_eq {live : Live} {is : List Inst} (covers : live.Covers is) {i : Inst}
    (member : i ∈ is) :
    renumberInst (numbering live.functions) (numbering live.globals) i = .ok (live.inst i) := by
  unfold renumberInst
  split
  · next op =>
    simp only [renumbered_of_marked (covers.callees i member op), Live.inst, op]
    rfl
  · next op =>
    simp only [renumbered_of_marked (covers.globals i member (.inl op)), Live.inst, op]
    rfl
  · next op =>
    simp only [renumbered_of_marked (covers.globals i member (.inr op)), Live.inst, op]
    rfl
  · unfold Live.inst
    split <;> first | contradiction | rfl

/-- A function whose instructions name only what is marked is renumbered. -/
theorem renumberFunction_eq {live : Live} {f : Function} {is : List Inst}
    (insts : instsOf f = .ok is) (covers : live.Covers is) :
    renumberFunction (numbering live.functions) (numbering live.globals) f = .ok (live.body f) := by
  obtain ⟨bs, all, rfl⟩ := instsOf_eq_ok.mp insts
  have blocks := Function.allBlocks_eq_ok.mp all
  unfold renumberFunction
  rw [Array.mapM_eq_mapM_toList, blocks, mapM_eq_map (g := fun b? => b?.map live.block)]
  · show Except.ok _ = Except.ok _
    rw [Live.body, Function.mapBlocks, ← blocks, ← Array.toList_map]
  · intro b? member
    obtain ⟨b, listed, rfl⟩ := List.mem_map.mp member
    have each : b.insts.mapM (renumberInst (numbering live.functions) (numbering live.globals)) =
        .ok (b.insts.map live.inst) :=
      mapM_eq_map fun i inside => renumberInst_eq covers (List.mem_flatMap.mpr ⟨b, listed, inside⟩)
    simp only [Crash.deref]
    show (do return some { b with insts := ← b.insts.mapM _ } : Except Crash _) = _
    rw [each]
    rfl

/-- What is left of a module: what is marked, in its old order and with new numbers. -/
def Live.shaken (live : Live) (m : Module) (entry : FuncId) : Shaken :=
  let kept := marked live.functions m.functions
  let dropped := marked (live.functions.map (!·)) m.functions
  { module := { m with
      functions := (kept.mapIdx fun j f => live.body { f with id := ⟨UInt32.ofNat j⟩ }).toArray
      globals := ((marked live.globals m.globals).mapIdx fun j g? =>
        g?.map fun g => { g with id := ⟨UInt32.ofNat j⟩ }).toArray }
    stats := {
      functionsRemoved := dropped.countP (!·.isExternal)
      externsRemoved := dropped.countP (·.isExternal)
      globalsRemoved := m.globals.size - (marked live.globals m.globals).length
      functionsKept := kept.countP (!·.isExternal)
      externsKept := kept.countP (·.isExternal) }
    entry := live.function entry }

/-- New numbers do not matter for what does not depend on them. -/
theorem countP_mapIdx {α : Type} (p : α → Bool) {g : Nat → α → α}
    (keeps : ∀ j a, p (g j a) = p a) (l : List α) : (l.mapIdx g).countP p = l.countP p := by
  rw [List.mapIdx_eq_zipIdx_map, List.countP_map]
  have same : (p ∘ fun x : α × Nat => g x.2 x.1) = p ∘ Prod.fst := by
    funext x
    exact keeps x.2 x.1
  rw [same, ← List.countP_map, List.zipIdx_map_fst]

theorem treeShake_eq {m : Module} (accepted : m.defects = .ok []) {entry : FuncId} {f : Function}
    (found : m.function? entry = some f) {live : Live} (searched : liveFrom m entry = .ok live)
    (closed : Frontier m live []) (kept : live.HasFunction entry) :
    treeShake m entry = .ok (live.shaken m entry) := by
  have functions : (((marked live.functions m.functions).mapIdx fun j f =>
      ({ f with id := ⟨UInt32.ofNat j⟩ } : Function)).mapM
        (renumberFunction (numbering live.functions) (numbering live.globals))) =
      .ok ((marked live.functions m.functions).mapIdx fun j f =>
        live.body { f with id := ⟨UInt32.ofNat j⟩ }) := by
    rw [mapM_eq_map (g := live.body)]
    · simp only [List.mapIdx_eq_zipIdx_map, List.map_map]
      rfl
    · intro g member
      obtain ⟨j, bound, rfl⟩ := List.mem_mapIdx.mp member
      obtain ⟨i, isMarked, _, at_i⟩ := place_of_marked closed.functions
        (List.getElem?_eq_getElem bound)
      have number := Module.number_of_accepted accepted at_i
      have there := Module.function?_of_mem accepted (Array.mem_of_getElem? at_i)
      obtain ⟨is, insts, _⟩ := instsOf_of_accepted accepted there
      have covers := (closed.covered _ _ is (by rwa [Live.HasFunction, number]) there insts).resolve_left
        (by simp)
      exact renumberFunction_eq (f := { (marked live.functions m.functions)[j] with
        id := ⟨UInt32.ofNat j⟩ }) insts covers
  have globals : ((marked live.globals m.globals).mapIdx fun j g? => (j, g?)).mapM
      (fun x => do
        let g ← Crash.deref x.2
        return some ({ g with id := ⟨UInt32.ofNat x.1⟩ } : Global)) =
      .ok ((marked live.globals m.globals).mapIdx fun j g? =>
        g?.map fun g => ({ g with id := ⟨UInt32.ofNat j⟩ } : Global)) := by
    rw [mapM_eq_map (g := fun x => x.2.map fun g => ({ g with id := ⟨UInt32.ofNat x.1⟩ } : Global))]
    · simp only [List.mapIdx_eq_zipIdx_map, List.map_map]
      rfl
    · intro x member
      obtain ⟨j, bound, rfl⟩ := List.mem_mapIdx.mp member
      obtain ⟨i, _, _, at_i⟩ := place_of_marked closed.globals (List.getElem?_eq_getElem bound)
      obtain ⟨g, present, _⟩ := Module.global_of_accepted accepted at_i
      simp only [present]
      rfl
  have new : (numbering live.functions)[entry.num]?.getD 0 = place live.functions entry.num := by
    rw [numbering_of_marked kept]
    rfl
  have kinds : ∀ p : Function → Bool, (∀ f id, p { f with id } = p f) →
      ((marked live.functions m.functions).mapIdx fun i f =>
        ({ f with id := ⟨UInt32.ofNat i⟩ } : Function)).countP p =
        (marked live.functions m.functions).countP p :=
    fun p keeps => countP_mapIdx p (fun _ f => keeps f _) _
  unfold treeShake
  simp only [found, Option.isNone_some, Bool.false_eq_true, if_false, searched]
  refine bind_eq_ok.mpr ⟨live, rfl, bind_eq_ok.mpr ⟨_, globals, bind_eq_ok.mpr ⟨_, functions, ?_⟩⟩⟩
  simp only [Live.shaken, Live.function, new, List.length_mapIdx,
    ← List.countP_eq_length_filter]
  rw [kinds _ fun _ _ => rfl, kinds _ fun _ _ => rfl]
  rfl

/-- The shaken module as a renumbering of what is kept: each kept function and global is found under
its new number, and there is nothing else. -/
structure Renumbers (live : Live) (m m' : Module) : Prop where
  functions : ∀ id f, live.HasFunction id → m.function? id = some f →
    m'.function? (live.function id) = some (live.body { f with id := live.function id })
  globals : ∀ id, live.HasGlobal id → m'.globals[(live.global id).num]? =
    (m.globals[id.num]?).map (·.map fun g => { g with id := live.global id })
  noOtherFunction : ∀ new f', m'.function? new = some f' →
    ∃ id, live.HasFunction id ∧ live.function id = new
  noOtherGlobal : ∀ (new : Nat) g?, m'.globals[new]? = some g? →
    ∃ id, live.HasGlobal id ∧ (live.global id).num = new

theorem treeShake_renumbers {m : Module} (accepted : m.defects = .ok []) {entry : FuncId}
    {f : Function} (found : m.function? entry = some f) {live : Live}
    (searched : liveFrom m entry = .ok live) (closed : Frontier m live [])
    (kept : live.HasFunction entry) :
    ∃ shaken, treeShake m entry = .ok shaken ∧ shaken.entry = live.function entry ∧
      Renumbers live m shaken.module := by
  refine ⟨_, treeShake_eq accepted found searched closed kept, rfl, ?_, ?_, ?_, ?_⟩
  · intro id g has there
    rw [Module.function?, Live.shaken, live.num_function]
    simp [marked_place closed.functions has, show m.functions[id.num]? = some g from there,
      Live.function]
  · intro id has
    rw [Live.shaken, live.num_global]
    simp [marked_place closed.globals has, Live.global]
  · intro new g there
    rw [Module.function?, Live.shaken] at there
    obtain ⟨g, at_new, _⟩ : ∃ g, (marked live.functions m.functions)[new.num]? = some g ∧ _ := by
      simpa using there
    obtain ⟨i, isMarked, moved, at_i⟩ := place_of_marked closed.functions at_new
    have number := Module.number_of_accepted accepted at_i
    refine ⟨g.id, by rwa [Live.HasFunction, number], FuncId.num_inj.mp ?_⟩
    rw [live.num_function, number, moved]
  · intro new g? there
    rw [Live.shaken] at there
    obtain ⟨g?, at_new, rfl⟩ : ∃ g?, (marked live.globals m.globals)[new]? = some g? ∧ _ := by
      simpa using there
    obtain ⟨i, isMarked, moved, at_i⟩ := place_of_marked closed.globals at_new
    obtain ⟨g, rfl, number⟩ := Module.global_of_accepted accepted at_i
    refine ⟨g.id, by rwa [Live.HasGlobal, number], ?_⟩
    rw [live.num_global, number, moved]

namespace Frontier
variable {m : Module} {live : Live} (closed : Frontier m live [])
include closed

/-- A function that is marked is there. -/
theorem function? {id : FuncId} (kept : live.HasFunction id) : ∃ f, m.function? id = some f := by
  obtain ⟨inside, _⟩ := Array.getElem?_eq_some_iff.mp kept
  exact ⟨_, Array.getElem?_eq_getElem (closed.functions ▸ inside)⟩

/-- What the instructions of a kept function name is kept. -/
theorem covers (accepted : m.defects = .ok []) {id : FuncId} (kept : live.HasFunction id) {f : Function}
    (found : m.function? id = some f) {x : BlockId} {b : Block} (there : f.block? x = some b) :
    live.Covers b.insts := by
  obtain ⟨is, insts, _⟩ := instsOf_of_accepted accepted found
  have covers := (closed.covered id f is kept found insts).resolve_left (by simp)
  obtain ⟨bs, all, rfl⟩ := instsOf_eq_ok.mp insts
  have inside : ∀ i ∈ b.insts, i ∈ bs.flatMap (·.insts) := fun i member =>
    List.mem_flatMap.mpr ⟨b, Function.mem_of_block? all there, member⟩
  exact ⟨fun i member => covers.callees i (inside i member),
    fun i member => covers.globals i (inside i member)⟩

end Frontier

section Runs

variable {κ ε : Type}

/-- The link of the two runs: a kept global has its value at its new place. -/
def Live.shaking (κ ε : Type) (live : Live) : Link κ κ (Halt ε) (Halt ε) :=
  .byGlobals κ Halt.Alike fun globals globals' =>
    ∀ g, live.HasGlobal g → globals'[(live.global g).num]? = globals[g.num]?

/-- A store to a kept global changes no other kept global: their new places are different too. -/
theorem Live.shaking_store {live : Live} {w w' : World κ} (worlds : (live.shaking κ ε).worlds w w')
    {g : GlobalId} (kept : live.HasGlobal g) (v : Value) :
    (live.shaking κ ε).worlds { w with globals := w.globals.setIfInBounds g.num v }
      { w' with globals := w'.globals.setIfInBounds (live.global g).num v } := by
  obtain ⟨calls, rest, globals⟩ := worlds
  refine ⟨calls, rest, fun x has => ?_⟩
  show (w'.globals.setIfInBounds (live.global g).num v)[(live.global x).num]? =
    (w.globals.setIfInBounds g.num v)[x.num]?
  rw [getElem?_store, getElem?_store, globals g kept, globals x has]
  have apart : live.global g = live.global x ↔ g = x := by
    constructor
    · intro equal
      have places := congrArg GlobalId.num equal
      rw [live.num_global, live.num_global] at places
      exact GlobalId.num_inj.mp (place_inj kept has places)
    · exact congrArg live.global
  simp only [apart]

/-- The two modules start with the same values of the kept globals. -/
theorem Renumbers.initialGlobals {live : Live} {m m' : Module} (renumbers : Renumbers live m m')
    (accepted : m.defects = .ok []) :
    ∃ globals globals', initialGlobals m = .ok globals ∧ initialGlobals m' = .ok globals' ∧
      ∀ g, live.HasGlobal g → globals'[(live.global g).num]? = globals[g.num]? := by
  have present : ∀ g? ∈ m.globals, ∃ g, g? = some g := fun _ => Module.present_of_accepted accepted
  have present' : ∀ g? ∈ m'.globals, ∃ g, g? = some g := by
    intro g? member
    obtain ⟨i, at_i⟩ := Array.mem_iff_getElem?.mp member
    obtain ⟨id, kept, rfl⟩ := renumbers.noOtherGlobal i g? at_i
    rw [renumbers.globals id kept, Option.map_eq_some_iff] at at_i
    obtain ⟨old?, there, rfl⟩ := at_i
    obtain ⟨old, rfl⟩ := present old? (Array.mem_of_getElem? there)
    exact ⟨_, rfl⟩
  refine ⟨_, _, initialGlobals_of_present present, initialGlobals_of_present present', ?_⟩
  intro g kept
  rw [Array.getElem?_map, Array.getElem?_map, renumbers.globals g kept, Option.map_map]
  congr 1
  funext g?
  cases g? <;> rfl

/-- A kept function runs in the shaken module as in the whole one. All its callees and globals are
kept, so each instruction does the same, and calls do by induction on the fuel. -/
theorem runAt_shaken {live : Live} {m m' : Module} (accepted : m.defects = .ok [])
    (closed : Frontier m live []) (renumbers : Renumbers live m m') (setup : Setup) (fuel depth : Nat)
    {id : FuncId} (kept : live.HasFunction id) (args : List Value) {w w' : World κ}
    (worlds : (live.shaking κ ε).worlds w w') :
    (live.shaking κ ε).InStep (runAt setup m fuel depth id args w)
      (runAt setup m' fuel depth (live.function id) args w') := by
  induction fuel generalizing depth id args w w' with
  | zero => exact .error worlds ⟨.same _, rfl⟩
  | succ fuel ih =>
    obtain ⟨f, found⟩ := closed.function? kept
    have header : SameHeader f (live.body { f with id := live.function id }) :=
      ⟨rfl, rfl, rfl, rfl, by simp [Live.body, Function.mapBlocks, Function.isExternal, Array.isEmpty]⟩
    obtain ⟨globals, globals', first, first', initial⟩ := renumbers.initialGlobals accepted
    have found' := renumbers.functions id f kept found
    have origin : (if setup.shared then .ok w.globals else initialGlobals m) =
        Except.ok (if setup.shared then w.globals else globals) := by
      split <;> simp_all
    have origin' : (if setup.shared then .ok w'.globals else initialGlobals m') =
        Except.ok (if setup.shared then w'.globals else globals') := by
      split <;> simp_all
    refine Link.enter_inStep Halt.Alike.same header rfl rfl found found' rfl worlds worlds.1
      (fun made => ⟨rfl, worlds.2.1, worlds.2.2⟩) origin origin' fun internal fr bound => ?_
    refine Link.InStep.settle (R := fun globals globals' =>
      ∀ g, live.HasGlobal g → globals'[(live.global g).num]? = globals[g.num]?) ?_ setup setup w w'
      fun _ _ after => by split <;> simp_all [Live.shaking, Link.byGlobals]
    refine Link.run_inStep Halt.Alike.same header (fun x none => ?_) (fun x b at_x => ?_) fuel
      (started_of_bindParams bound).function none f.entry ⟨worlds.1, worlds.2.1, ?_⟩
    · rw [Live.body, Function.block?_mapBlocks]
      exact Option.map_eq_none_iff.mpr none
    · refine ⟨live.block b, ?_, rfl, rfl, rfl, ?_⟩
      · rw [Live.body, Function.block?_mapBlocks]
        exact Option.map_eq_some_iff.mpr ⟨b, at_x, rfl⟩
      · rw [Live.block, List.forall₂_map_right_iff, List.forall₂_same]
        intro i inside
        have covers := closed.covers accepted kept found at_x
        refine Link.executes Halt.Alike.same header (live.renamed_inst i)
          (.inr fun _ _ => .fault) (fun op v v' after => ?_) (fun op v v' after => ?_) fun op => ?_
        · rw [Live.global_inst (.inl op)]
          exact after.2.2 _ (covers.globals i inside (.inl op))
        · have has := covers.globals i inside (.inr op)
          rw [Live.global_inst (.inr op), after.2.2 _ has]
          exact ⟨rfl, fun x _ => Live.shaking_store after has x⟩
        · have has := covers.callees i inside op
          obtain ⟨callee, called⟩ := closed.function? has
          have called' := renumbers.functions _ callee has called
          rw [Live.callee_inst op]
          refine ⟨by simpa using (Array.getElem?_eq_some_iff.mp called).1,
            by simpa using (Array.getElem?_eq_some_iff.mp called').1, fun as v v' after => ?_⟩
          exact (ih (depth + 1) has as after).result
    · split
      · exact worlds.2.2
      · exact initial

/-- Two runs seen from outside: equal values, or failures of one kind in one function; the same
counters and host calls; and the same kept globals. -/
structure Live.Agree (live : Live) (out out' : Frame.Finished κ ε) : Prop where
  result : (∃ v, out.result = .ok v ∧ out'.result = .ok v) ∨
    ∃ h h', out.result = .error h ∧ out'.result = .error h' ∧ h.Alike h'
  stats : out'.stats = out.stats
  hostCalls : out'.world.hostCalls = out.world.hostCalls
  rest : out'.world.rest = out.world.rest
  globals : ∀ g, live.HasGlobal g →
    out'.world.globals[(live.global g).num]? = out.world.globals[g.num]?

theorem Live.agree_of_inStep {live : Live} {out out' : Frame.Finished κ ε}
    (ends : (live.shaking κ ε).InStep out out') : live.Agree out out' := by
  obtain ⟨_, _, free⟩ | ⟨_, _, free⟩ | ⟨⟨hostCalls, rest, globals⟩, stats, result⟩ :=
    Link.inStep_iff.mp ends
  · exact free.elim
  · exact free.elim
  · exact ⟨result, stats, hostCalls, rest, globals⟩

/-- Tree shaking preserves meaning. An accepted module is shaken from any of its functions, the
shaken module holds what is kept under new numbers and nothing else, and every kept function, called
with any arguments, hosts and depth limit from initial globals, does what it did before. -/
theorem treeShake_preserves {m : Module} (accepted : m.defects = .ok []) {entry : FuncId}
    {f : Function} (found : m.function? entry = some f) :
    ∃ live shaken globals globals', liveFrom m entry = .ok live ∧ treeShake m entry = .ok shaken ∧
      initialGlobals m = .ok globals ∧ initialGlobals shaken.module = .ok globals' ∧
      live.HasFunction entry ∧ shaken.entry = live.function entry ∧
      Renumbers live m shaken.module ∧
      ∀ id, live.HasFunction id → ∀ (setup : Setup) (fuel depth : Nat) (args : List Value)
        (hostCalls : List HostCall) (rest : κ),
        live.Agree
          (runAt setup m fuel depth id args ⟨globals, hostCalls, rest⟩ : Frame.Finished κ ε)
          (runAt setup shaken.module fuel depth (live.function id) args
            ⟨globals', hostCalls, rest⟩) := by
  obtain ⟨live, searched, closed, kept⟩ := liveFrom_closed accepted found
  obtain ⟨shaken, shook, newEntry, renumbers⟩ :=
    treeShake_renumbers accepted found searched closed kept
  obtain ⟨globals, globals', first, first', same⟩ := renumbers.initialGlobals accepted
  refine ⟨live, shaken, globals, globals', searched, shook, first, first', kept, newEntry, renumbers,
    fun id has setup fuel depth args hostCalls rest => Live.agree_of_inStep ?_⟩
  exact runAt_shaken accepted closed renumbers setup fuel depth has args ⟨rfl, rfl, same⟩

end Runs

/-- A program that keeps its last three functions and its second global. -/
def savings : Module := {
  functions := #[
    { name := "spare", sig := { ret := .i64 }, regTypes := #[.i64]
      blocks := #[some { insts := [{ op := .loadGlobal, ty := .i64, dest := ⟨0⟩, global := ⟨0⟩ }],
                         term := .ret (some ⟨0⟩) }] },
    { id := ⟨1⟩, name := "note", sig := { params := [.i64] } },
    { id := ⟨2⟩, name := "deposit", sig := { params := [.i64], ret := .i64 }, params := [⟨0⟩]
      regTypes := #[.i64, .i64, .i64]
      blocks := #[some { insts := [{ op := .loadGlobal, ty := .i64, dest := ⟨1⟩, global := ⟨1⟩ },
                                   { op := .add, ty := .i64, dest := ⟨2⟩, args := [⟨0⟩, ⟨1⟩] },
                                   { op := .storeGlobal, args := [⟨2⟩], global := ⟨1⟩ },
                                   { op := .call, dest := .absent, args := [⟨2⟩], callee := ⟨1⟩ }],
                         term := .ret (some ⟨2⟩) }] },
    { id := ⟨3⟩, name := "main", sig := { params := [.i64], ret := .i64 }, params := [⟨0⟩]
      regTypes := #[.i64, .i64, .i64]
      blocks := #[some { insts := [{ op := .call, ty := .i64, dest := ⟨1⟩, args := [⟨0⟩],
                                     callee := ⟨2⟩ },
                                   { op := .loadGlobal, ty := .i64, dest := ⟨2⟩, global := ⟨1⟩ }],
                         term := .ret (some ⟨2⟩) }] }]
  globals := #[some { name := "spare", ty := .i64, init := .ofInt .i64 1 },
               some { id := ⟨1⟩, name := "balance", ty := .i64, init := .ofInt .i64 10 }] }

theorem treeShake_preserves_savings : ∃ shaken, treeShake savings ⟨3⟩ = .ok shaken ∧
    shaken.module.functions.size = 3 ∧
    (runAt { hosts := fun _ => some fun _ _ => .ok .void } shaken.module 5 0 shaken.entry
      [.ofInt .i64 5] ⟨#[.ofInt .i64 10], [], ()⟩ : Frame.Finished Unit Unit).result =
      .ok (.ofInt .i64 15) := by
  obtain ⟨live, shaken, globals, globals', searched, shook, first, first', kept, newEntry, _, agree⟩ :=
    @treeShake_preserves Unit Unit savings (by decide +kernel) ⟨3⟩ _ rfl
  have size : ((treeShake savings ⟨3⟩).map fun s =>
      (s.module.functions.size, (initialGlobals s.module).toOption)).toOption =
      some (3, some #[.ofInt .i64 10]) := by decide +kernel
  have start : initialGlobals savings = .ok #[.ofInt .i64 1, .ofInt .i64 10] := by decide +kernel
  cases start.symm.trans first
  simp only [shook, first', Except.map, Except.toOption, Option.some.injEq, Prod.mk.injEq] at size
  obtain ⟨size, rfl⟩ := size
  have same := agree ⟨3⟩ kept { hosts := fun _ => some fun _ _ => .ok .void } 5 0 [.ofInt .i64 5] [] ()
  have result : (runAt { hosts := fun _ => some fun _ _ => .ok .void } savings 5 0 ⟨3⟩ [.ofInt .i64 5]
      ⟨#[.ofInt .i64 1, .ofInt .i64 10], [], ()⟩ : Frame.Finished Unit Unit).result =
      .ok (.ofInt .i64 15) := by decide +kernel
  refine ⟨shaken, shook, size, ?_⟩
  rcases same.result with ⟨v, done, done'⟩ | ⟨_, _, failed, _⟩
  · cases result.symm.trans done
    rw [newEntry, done']
  · cases result.symm.trans failed

end TieredEngine.Ship.TreeShake
