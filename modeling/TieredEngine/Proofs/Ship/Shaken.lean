import TieredEngine.Proofs.Ir.Translatable
import TieredEngine.Proofs.Ir.WellFormed
import TieredEngine.Proofs.Ship.TreeShake

/-!
What tree shaking leaves of an accepted module is accepted: it has its positions as numbers, and all that
it names is there. Its functions are as easy to lower as they were, because calls and accesses of globals
are renumbered to what has the same type.

It leaves exactly what the entry can use, in its old order, so there is nothing left to remove when the
result is shaken again, and a program starts with the function that it started with.
-/
namespace TieredEngine.Ship.TreeShake
open TieredEngine.Ir TieredEngine.Eval

section Kept

variable {m m' : Module} (accepted : m.defects = .ok []) {live : Live} (closed : Frontier m live [])
  (renumbers : Renumbers live m m')

theorem Live.inst_eq (live : Live) (i : Inst) : live.inst i =
    { i with callee := (live.inst i).callee, global := (live.inst i).global } := by
  unfold inst
  split <;> rfl

include renumbers in
theorem Renumbers.global? {id : GlobalId} (kept : live.HasGlobal id) :
    m'.global? (live.global id) = (m.global? id).map fun g => { g with id := live.global id } := by
  unfold Module.global?
  rw [renumbers.globals id kept]
  cases m.globals[id.num]? with
  | none => rfl
  | some g? => rfl

include renumbers in
theorem Renumbers.linked {is : List Inst} (covers : live.Covers is) {i : Inst} (member : i ∈ is)
    (linked : i.Linked m) : (live.inst i).Linked m' := by
  have same := live.renamed_inst i
  unfold Inst.Linked at linked ⊢
  rw [same.op, same.args]
  split at linked
  · next op =>
    obtain ⟨g, found, count⟩ := linked
    have there := renumbers.functions _ g (covers.callees i member op) found
    rw [Live.callee_inst op]
    exact ⟨_, there, count⟩
  · next op =>
    rw [Live.global_inst (.inl op), renumbers.global? (covers.globals i member (.inl op)),
      Option.isSome_map]
    exact linked
  · next op =>
    rw [Live.global_inst (.inr op), renumbers.global? (covers.globals i member (.inr op)),
      Option.isSome_map]
    exact linked
  · trivial

include closed renumbers in
theorem Renumbers.translatable {is : List Inst} (covers : live.Covers is) {i : Inst} (member : i ∈ is)
    {f f' : Function} (types : f'.regType? = f.regType?) (translates : i.Translatable m f) :
    (live.inst i).Translatable m' f' := by
  rw [live.inst_eq i]
  refine translates.rename types (fun op g' there => ?_) fun op g' there => ?_
  · obtain ⟨g, found⟩ := closed.function? (covers.callees i member op)
    have moved := renumbers.functions _ g (covers.callees i member op) found
    rw [Live.callee_inst op] at there
    cases moved.symm.trans there
    exact ⟨g, found, rfl⟩
  · rw [Live.global_inst (.inr op), renumbers.global? (covers.globals i member (.inr op))] at there
    obtain ⟨g, found, rfl⟩ := Option.map_eq_some_iff.mp there
    exact ⟨g, found, rfl⟩

include accepted closed

include renumbers

/-- A kept function stays as it was, up to numbers. -/
theorem Renumbers.staysReady {id : FuncId} (kept : live.HasFunction id) {f : Function}
    (found : m.function? id = some f) :
    f.StaysReady m m' (live.body { f with id := live.function id }) := by
  refine .of_rename (g := live.block) rfl rfl rfl rfl rfl rfl (fun _ => rfl) (fun _ => rfl)
    fun x b there i' member => ?_
  obtain ⟨i, inside, rfl⟩ := List.mem_map.mp member
  have same := live.renamed_inst i
  exact ⟨i, inside, same.op, same.args,
    renumbers.translatable closed (closed.covers accepted kept found there) inside rfl⟩

/-- A kept function has no defects under its new number. -/
theorem Renumbers.clean {id : FuncId} (kept : live.HasFunction id) {f : Function}
    (found : m.function? id = some f) :
    (live.body { f with id := live.function id }).defects m' = [] := by
  have member := Array.mem_of_getElem? found
  cases body : f.isExternal with
  | true => exact if_pos (by simpa [Live.body, Function.mapBlocks, Function.isExternal] using body)
  | false =>
    have formed := wellFormed_of_accepted accepted member body
    have numbered : ({ f with id := live.function id } : Function).WellNumbered :=
      ⟨formed.numbered.entry, formed.numbered.present, formed.numbered.number, formed.numbered.target,
        formed.numbered.small⟩
    have blocks : ∀ x b', (live.body { f with id := live.function id }).block? x = some b' →
        ∃ b, f.block? x = some b ∧ live.block b = b' := fun _ _ => Function.block_of_mapBlocks
    refine Function.WellFormed.defects ⟨formed.params, formed.declared,
      numbered.mapBlocks (fun _ => rfl) fun _ => rfl, fun x b' there p inside i input => ?_,
      fun x b' there i' inside => ?_⟩
    · obtain ⟨b, before, rfl⟩ := blocks x b' there
      rw [Live.body, Function.mapBlocks, Array.size_map]
      exact formed.preds x b before p inside i input
    · obtain ⟨b, before, rfl⟩ := blocks x b' there
      obtain ⟨i, listed, rfl⟩ := List.mem_map.mp inside
      exact renumbers.linked (closed.covers accepted kept found before) listed
        (formed.linked x b before i listed)

/-- What is at a place of the shaken module was kept. -/
theorem Renumbers.place (small : m'.functions.size ≤ 2 ^ 32) {j : Nat} {f' : Function}
    (at_j : m'.functions[j]? = some f') : ∃ f, m.function? f.id = some f ∧ live.HasFunction f.id ∧
      (live.function f.id).num = j ∧ f' = live.body { f with id := live.function f.id } := by
  obtain ⟨bound, _⟩ := Array.getElem?_eq_some_iff.mp at_j
  have number := FuncId.num_ofNat (Nat.lt_of_lt_of_le bound small)
  have there : m'.function? ⟨UInt32.ofNat j⟩ = some f' := by rw [Module.function?, number, at_j]
  obtain ⟨id, kept, moved⟩ := renumbers.noOtherFunction _ f' there
  obtain ⟨f, found⟩ := closed.function? kept
  obtain ⟨_, rfl⟩ := Module.function_of_accepted accepted found
  refine ⟨f, found, kept, moved ▸ number, ?_⟩
  have same := renumbers.functions f.id f kept found
  rw [moved, there] at same
  exact moved ▸ Option.some.inj same

theorem Renumbers.keeps_accepted (small : m'.functions.size ≤ 2 ^ 32) : m'.defects = .ok [] := by
  refine Module.accepted_iff.mpr ⟨fun j f' at_j => ?_, ?_, fun j g? at_j => ?_⟩
  · obtain ⟨f, found, kept, moved, rfl⟩ := renumbers.place accepted closed small at_j
    exact ⟨moved, renumbers.clean accepted closed kept found⟩
  · rw [List.Nodup, List.pairwise_iff_getElem]
    intro i j first second before same
    simp only [List.length_map, Array.length_toList] at first second
    obtain ⟨f, found, _, moved, named⟩ :=
      renumbers.place accepted closed small (Array.getElem?_eq_getElem first)
    obtain ⟨g, found', _, moved', named'⟩ :=
      renumbers.place accepted closed small (Array.getElem?_eq_getElem second)
    have equal : f = g := by
      refine Module.eq_of_name accepted (Array.mem_of_getElem? found) (Array.mem_of_getElem? found') ?_
      simp only [List.getElem_map, Array.getElem_toList, named, named'] at same
      exact same
    subst equal
    omega
  · obtain ⟨id, kept, rfl⟩ := renumbers.noOtherGlobal j g? at_j
    rw [renumbers.globals id kept, Option.map_eq_some_iff] at at_j
    obtain ⟨old?, there, rfl⟩ := at_j
    obtain ⟨g, rfl, _⟩ := Module.global_of_accepted accepted there
    exact ⟨_, rfl, rfl⟩

end Kept

theorem small_shaken {m : Module} (accepted : m.defects = .ok []) (live : Live) (entry : FuncId) :
    (live.shaken m entry).module.functions.size ≤ 2 ^ 32 := by
  have fewer := length_marked_le live.functions m.functions
  have few := Module.small_of_accepted accepted
  simp only [Live.shaken, List.size_toArray, List.length_mapIdx]
  omega

/-- Shaking an accepted module gives an accepted module, whose entry is there if it was, and in which each
function is as easy to lower as the one that it was. -/
theorem treeShake_accepted {m : Module} (accepted : m.defects = .ok []) (entry : FuncId) :
    ∃ shaken, treeShake m entry = .ok shaken ∧ shaken.module.defects = .ok [] ∧
      (∀ f, m.function? entry = some f → ∃ g, shaken.module.function? shaken.entry = some g) ∧
      m.StaysReady shaken.module := by
  cases there : m.function? entry with
  | none =>
    refine ⟨⟨m, {}, entry⟩, if_pos (by simp [there]), accepted, fun f some => (by cases some),
      .refl m⟩
  | some f =>
    obtain ⟨live, searched, closed, kept⟩ := liveFrom_closed accepted there
    obtain ⟨shaken, shook, moved, renumbers⟩ := treeShake_renumbers accepted there searched closed kept
    cases shook.symm.trans (treeShake_eq accepted there searched closed kept)
    have small := small_shaken accepted live entry
    refine ⟨_, shook, renumbers.keeps_accepted accepted closed small, fun _ _ => ?_, fun g member => ?_⟩
    · exact ⟨_, moved ▸ renumbers.functions entry f kept there⟩
    · obtain ⟨j, at_j⟩ := Array.mem_iff_getElem?.mp member
      obtain ⟨f, found, has, -, rfl⟩ := renumbers.place accepted closed small at_j
      exact ⟨f, Array.mem_of_getElem? found, renumbers.staysReady accepted closed has found⟩

section Order

/-- When marks say what has a property, the marked entries are those that have it. -/
theorem marked_eq_filter {α : Type} {live : Array Bool} {xs : Array α} {p : α → Bool}
    (tells : live.toList = xs.toList.map p) : marked live xs = xs.toList.filter p := by
  rw [marked, tells]
  induction xs.toList with
  | nil => rfl
  | cons x xs ih => cases has : p x <;> simp [has, ih]

/-- Marks by what the entries are, not where. -/
theorem marks_eq_map {α : Type} {live : Array Bool} {xs : Array α} {p : α → Bool}
    (sizes : live.size = xs.size)
    (tells : ∀ (i : Nat) x, xs[i]? = some x → (live[i]? = some true ↔ p x = true)) :
    live.toList = xs.toList.map p := by
  refine List.ext_getElem (by simpa using sizes) fun i first second => ?_
  have inside : i < live.size := by simpa using first
  have inside' : i < xs.size := sizes ▸ inside
  have here := tells i xs[i] (Array.getElem?_eq_getElem inside')
  rw [Array.getElem?_eq_getElem inside, Option.some.injEq] at here
  rw [List.getElem_map, Array.getElem_toList, Array.getElem_toList]
  exact Bool.eq_iff_iff.mpr here

variable {m : Module} (accepted : m.defects = .ok []) (entry : FuncId) {live : Live}
  (closed : Frontier m live []) (exactly : Exact m entry live)
include accepted closed

/-- The kept functions, each with its own new number. -/
theorem functions_shaken : (live.shaken m entry).module.functions.toList =
    (marked live.functions m.functions).map fun f =>
      live.body { f with id := live.function f.id } := by
  show (List.mapIdx _ _).toArray.toList = _
  apply List.ext_getElem?
  intro j
  simp only [List.getElem?_mapIdx, List.getElem?_map]
  cases there : (marked live.functions m.functions)[j]? with
  | none => rfl
  | some f =>
    obtain ⟨i, _, moved, at_i⟩ := place_of_marked closed.functions there
    have number := Module.number_of_accepted accepted at_i
    rw [Option.map_some, Option.map_some, Live.function, number, moved]

theorem globals_shaken : (live.shaken m entry).module.globals.toList =
    (marked live.globals m.globals).map fun g? =>
      g?.map fun g => { g with id := live.global g.id } := by
  show (List.mapIdx _ _).toArray.toList = _
  apply List.ext_getElem?
  intro j
  simp only [List.getElem?_mapIdx, List.getElem?_map]
  cases there : (marked live.globals m.globals)[j]? with
  | none => rfl
  | some g? =>
    obtain ⟨i, _, moved, at_i⟩ := place_of_marked closed.globals there
    obtain ⟨g, rfl, number⟩ := Module.global_of_accepted accepted at_i
    rw [Option.map_some, Option.map_some, Option.map_some, Option.map_some, Live.global, number, moved]

include exactly

open Classical in
theorem marks_functions :
    live.functions.toList = m.functions.toList.map fun f => decide (Reaches m entry f.id) := by
  refine marks_eq_map closed.functions fun i f at_i => ?_
  rw [← Module.number_of_accepted accepted at_i, decide_eq_true_iff]
  exact exactly.functions f.id

open Classical in
theorem marks_globals :
    live.globals.toList = m.globals.toList.map fun g? =>
      decide (∃ g, g? = some g ∧ Uses m entry g.id) := by
  refine marks_eq_map closed.globals fun i g? at_i => ?_
  obtain ⟨g, rfl, number⟩ := Module.global_of_accepted accepted at_i
  simp only [← number, decide_eq_true_iff, Option.some.injEq, exists_eq_left']
  exact exactly.globals g.id

end Order

section Again

/-- Every function and every global is marked. -/
structure Live.Whole (live : Live) (m : Module) : Prop where
  functions : live.functions = Array.replicate m.functions.size true
  globals : live.globals = Array.replicate m.globals.size true

theorem place_of_all {n i : Nat} (inside : i < n) : place (Array.replicate n true) i = i := by
  simp [place, Nat.min_eq_left (Nat.le_of_lt inside)]

theorem marked_of_all {α : Type} (xs : Array α) :
    marked (Array.replicate xs.size true) xs = xs.toList ∧
      marked ((Array.replicate xs.size true).map (!·)) xs = [] := by
  refine ⟨?_, ?_⟩
  · rw [marked_eq_filter (p := fun _ => true) (by simp [List.map_const']), List.filter_true]
  · rw [marked_eq_filter (p := fun _ => false) (by simp [List.map_const']), List.filter_false]

variable {m : Module} (accepted : m.defects = .ok []) {live : Live} (whole : live.Whole m)

include whole in
theorem Live.Whole.function {id : FuncId} (inside : id.num < m.functions.size) :
    live.function id = id := by
  refine FuncId.num_inj.mp ?_
  rw [live.num_function, whole.functions, place_of_all inside]

include whole in
theorem Live.Whole.global {id : GlobalId} (inside : id.num < m.globals.size) :
    live.global id = id := by
  refine GlobalId.num_inj.mp ?_
  rw [live.num_global, whole.globals, place_of_all inside]

include accepted whole

/-- Where everything is marked, functions keep their numbers. -/
theorem Live.Whole.body {f : Function} (member : f ∈ m.functions) :
    live.body { f with id := live.function f.id } = f := by
  have found := Module.function?_of_mem accepted member
  obtain ⟨is, insts, named⟩ := instsOf_of_accepted accepted found
  have same : ∀ i, Contains f i → live.inst i = i := by
    intro i inside
    obtain ⟨callee, global⟩ := named i ((mem_of_instsOf insts).mpr inside)
    unfold Live.inst
    split
    · next op => rw [whole.function (callee op)]
    · next op => rw [whole.global (global (.inl op))]
    · next op => rw [whole.global (global (.inr op))]
    · rfl
  have blocks : f.blocks.map (·.map live.block) = f.blocks := by
    refine (Array.map_congr_left fun b? present => ?_).trans (Array.map_id _)
    cases b? with
    | none => rfl
    | some b =>
      have insts : b.insts.map live.inst = b.insts :=
        (List.map_congr_left fun i inside =>
          same i ⟨b, Array.mem_toList_iff.mpr present, inside⟩).trans (List.map_id _)
      show some ({ b with insts := b.insts.map live.inst } : Block) = some b
      rw [insts]
  have number := whole.function (Array.getElem?_eq_some_iff.mp found).1
  show { f with id := live.function f.id, blocks := f.blocks.map (·.map live.block) } = f
  rw [number, blocks]

/-- Shaking a module in which everything is marked changes nothing. -/
theorem Live.Whole.shaken (closed : Frontier m live []) {entry : FuncId}
    (inside : entry.num < m.functions.size) : live.shaken m entry = {
      module := m
      stats := { functionsKept := m.functions.toList.countP (!·.isExternal)
                 externsKept := m.functions.toList.countP (·.isExternal) }
      entry } := by
  obtain ⟨keptFunctions, droppedFunctions⟩ := marked_of_all m.functions
  have keptGlobals := (marked_of_all m.globals).1
  have functions : (live.shaken m entry).module.functions = m.functions := by
    refine Array.toList_inj.mp ((functions_shaken accepted entry closed).trans ?_)
    rw [whole.functions, keptFunctions]
    refine (List.map_congr_left fun f member => ?_).trans (List.map_id _)
    exact whole.body accepted (Array.mem_toList_iff.mp member)
  have globals : (live.shaken m entry).module.globals = m.globals := by
    refine Array.toList_inj.mp ((globals_shaken accepted entry closed).trans ?_)
    rw [whole.globals, keptGlobals]
    refine (List.map_congr_left fun g? member => ?_).trans (List.map_id _)
    obtain ⟨j, at_j⟩ := Array.mem_iff_getElem?.mp (Array.mem_toList_iff.mp member)
    obtain ⟨g, rfl, number⟩ := Module.global_of_accepted accepted at_j
    have inside : g.id.num < m.globals.size := number ▸ (Array.getElem?_eq_some_iff.mp at_j).1
    show some ({ g with id := live.global g.id } : Global) = some g
    rw [whole.global inside]
  have module : (live.shaken m entry).module = m := by
    show { m with functions := (live.shaken m entry).module.functions
                  globals := (live.shaken m entry).module.globals } = m
    rw [functions, globals]
  have stats : (live.shaken m entry).stats = {
      functionsKept := m.functions.toList.countP (!·.isExternal)
      externsKept := m.functions.toList.countP (·.isExternal) } := by
    simp only [Live.shaken, whole.functions, whole.globals, keptFunctions, droppedFunctions,
      keptGlobals, List.countP_nil, Array.length_toList, Int.sub_self]
    rfl
  have newEntry : (live.shaken m entry).entry = entry := whole.function inside
  calc live.shaken m entry
      = ⟨(live.shaken m entry).module, (live.shaken m entry).stats, (live.shaken m entry).entry⟩ := rfl
    _ = _ := by rw [module, stats, newEntry]

end Again

section Transport

/-- The instructions of a function with new numbers. -/
theorem contains_body {f : Function} {i : Inst} (inside : Contains f i) (live : Live) (id : FuncId) :
    Contains (live.body { f with id }) (live.inst i) := by
  obtain ⟨b, present, member⟩ := inside
  refine ⟨live.block b, ?_, List.mem_map_of_mem member⟩
  show some (live.block b) ∈ (f.blocks.map (·.map live.block)).toList
  rw [Array.toList_map]
  exact List.mem_map.mpr ⟨some b, present, rfl⟩

variable {m m' : Module} {entry : FuncId} {live : Live} (renumbers : Renumbers live m m')
  (exactly : Exact m entry live)
include renumbers exactly

/-- Calls lead to the same functions under their new numbers. -/
theorem Renumbers.reaches {id : FuncId} (reached : Reaches m entry id) :
    Reaches m' (live.function entry) (live.function id) := by
  induction reached with
  | entry => exact .entry
  | @call id f i reached found inside op ih =>
    have moved := renumbers.functions id f ((exactly.functions id).mpr reached) found
    have next := Reaches.call ih moved (contains_body inside live _) ((live.renamed_inst i).op.trans op)
    rwa [Live.callee_inst op] at next

theorem Renumbers.uses {g : GlobalId} (used : Uses m entry g) :
    Uses m' (live.function entry) (live.global g) := by
  obtain @⟨id, f, i, reached, found, inside, op⟩ := used
  have moved := renumbers.functions id f ((exactly.functions id).mpr reached) found
  have there := Uses.access (renumbers.reaches exactly reached) moved (contains_body inside live _)
    (by rwa [(live.renamed_inst i).op])
  rwa [Live.global_inst op] at there

/-- All that is left can be used, so a second search marks everything. -/
theorem Renumbers.whole (accepted : m.defects = .ok []) (closed : Frontier m live [])
    (small : m'.functions.size ≤ 2 ^ 32) {again : Live} (closed' : Frontier m' again [])
    (exactly' : Exact m' (live.function entry) again) : again.Whole m' := by
  constructor
  · refine Array.ext (by simpa using closed'.functions) fun j bound _ => ?_
    have inside : j < m'.functions.size := closed'.functions ▸ bound
    obtain ⟨f, _, kept, moved, _⟩ :=
      renumbers.place accepted closed small (Array.getElem?_eq_getElem inside)
    have reached := renumbers.reaches exactly ((exactly.functions f.id).mp kept)
    have marked := (exactly'.functions _).mpr reached
    unfold Live.HasFunction at marked
    rw [moved, Array.getElem?_eq_getElem bound, Option.some.injEq] at marked
    rw [marked, Array.getElem_replicate]
  · refine Array.ext (by simpa using closed'.globals) fun j bound _ => ?_
    have inside : j < m'.globals.size := closed'.globals ▸ bound
    obtain ⟨g, kept, moved⟩ := renumbers.noOtherGlobal j _ (Array.getElem?_eq_getElem inside)
    have used := renumbers.uses exactly ((exactly.globals g).mp kept)
    have marked := (exactly'.globals _).mpr used
    unfold Live.HasGlobal at marked
    rw [moved, Array.getElem?_eq_getElem bound, Option.some.injEq] at marked
    rw [marked, Array.getElem_replicate]

end Transport

section Entry

/-- The last entry of a list that has a property is still the last one when others are left out and
entries are changed in what the property does not depend on. -/
theorem find?_reverse_filter_map {α : Type} {xs : List α} {p q : α → Bool} {g : α → α}
    (same : ∀ a, p (g a) = p a) {a : α} (found : xs.reverse.find? p = some a) (kept : q a = true) :
    ((xs.filter q).map g).reverse.find? p = some (g a) := by
  have alike : p ∘ g = p := funext same
  rw [← List.map_reverse, List.find?_map, alike, ← List.filter_reverse, List.find?_filter]
  obtain ⟨has, before, after, split, missed⟩ := List.find?_eq_some_iff_append.mp found
  rw [Option.map_eq_some_iff]
  refine ⟨a, List.find?_eq_some_iff_append.mpr ⟨by simp [has, kept], before, after, split, ?_⟩, rfl⟩
  intro x member
  have missed := missed x member
  simp_all

/-- A program starts with the function that it started with, if that is kept. -/
theorem startsWith_shaken {m m' : Module} {q : Function → Bool} {g : Function → Function}
    (functions : m'.functions.toList = (m.functions.toList.filter q).map g)
    (names : ∀ f, (g f).name = f.name) (bodies : ∀ f, (g f).isExternal = f.isExternal)
    (asks : m'.entryName = m.entryName) {f : Function} (starts : m.StartsWith f)
    (kept : q f = true) : m'.StartsWith (g f) := by
  have stays : f ∈ m.functions → g f ∈ m'.functions := by
    intro member
    rw [← Array.mem_toList_iff, functions]
    exact List.mem_map_of_mem (List.mem_filter.mpr ⟨Array.mem_toList_iff.mpr member, kept⟩)
  cases starts with
  | named some member name internal =>
    exact .named (asks ▸ some) (stays member) ((names f).trans (name.trans asks.symm))
      ((bodies f).trans internal)
  | main free member name internal =>
    exact .main (asks.trans free) (stays member) ((names f).trans name) ((bodies f).trans internal)
  | trailing free noMain last =>
    refine .trailing (asks.trans free) (fun h member name => ?_) ?_
    · rw [← Array.mem_toList_iff, functions] at member
      obtain ⟨old, listed, rfl⟩ := List.mem_map.mp member
      exact (bodies old).trans (noMain old (Array.mem_toList_iff.mp (List.mem_filter.mp listed).1)
        ((names old).symm.trans name))
    · rw [functions]
      exact find?_reverse_filter_map (fun a => by rw [names, bodies]) last kept

end Entry

open Classical in
/-- What shaking leaves of a module: what the entry can use, in its old order, with the new numbers that
`live` gives. -/
structure Pruned (m : Module) (entry : FuncId) (live : Live) (shaken : Shaken) : Prop where
  functions : shaken.module.functions.toList =
    (m.functions.toList.filter fun f => Reaches m entry f.id).map fun f =>
      live.body { f with id := live.function f.id }
  globals : shaken.module.globals.toList =
    (m.globals.toList.filter fun g? => ∃ g, g? = some g ∧ Uses m entry g.id).map fun g? =>
      g?.map fun g => { g with id := live.global g.id }
  functionNumbers : ∀ (j : Nat) f, shaken.module.functions[j]? = some f → f.id.num = j
  globalNumbers : ∀ (j : Nat) g?, shaken.module.globals[j]? = some g? →
    ∃ g, g? = some g ∧ g.id.num = j
  entry : shaken.entry = live.function entry
  /-- Each function is counted once, as kept if it is in the result. -/
  functionsKept : shaken.stats.functionsKept =
    shaken.module.functions.toList.countP (!·.isExternal)
  externsKept : shaken.stats.externsKept = shaken.module.functions.toList.countP (·.isExternal)
  functionsCounted : shaken.stats.functionsKept + shaken.stats.functionsRemoved =
    m.functions.toList.countP (!·.isExternal)
  externsCounted : shaken.stats.externsKept + shaken.stats.externsRemoved =
    m.functions.toList.countP (·.isExternal)
  globalsCounted : shaken.module.globals.size + shaken.stats.globalsRemoved = m.globals.size

theorem isExternal_body (live : Live) (f : Function) (id : FuncId) :
    (live.body { f with id }).isExternal = f.isExternal := by
  simp [Live.body, Function.mapBlocks, Function.isExternal, Array.isEmpty]

theorem pruned_shaken {m : Module} (accepted : m.defects = .ok []) {entry : FuncId} {live : Live}
    (closed : Frontier m live []) (exactly : Exact m entry live)
    (accepted' : (live.shaken m entry).module.defects = .ok []) :
    Pruned m entry live (live.shaken m entry) := by
  classical
  have marks := marks_functions accepted entry closed exactly
  have kept := marked_eq_filter marks
  have dropped : marked (live.functions.map (!·)) m.functions =
      m.functions.toList.filter fun f => !decide (Reaches m entry f.id) := by
    refine marked_eq_filter ?_
    rw [Array.toList_map, marks, List.map_map]
    rfl
  have keptGlobals := marked_eq_filter (marks_globals accepted entry closed exactly)
  have functions := (functions_shaken accepted entry closed).trans (congrArg _ kept)
  have globals := (globals_shaken accepted entry closed).trans (congrArg _ keptGlobals)
  -- numbers and blocks do not matter for the kind of a function
  have kinds : ∀ p : Bool → Bool,
      (live.shaken m entry).module.functions.toList.countP (fun f => p f.isExternal) =
        (marked live.functions m.functions).countP fun f => p f.isExternal := by
    intro p
    rw [functions_shaken accepted entry closed, List.countP_map]
    simp only [Function.comp_def, isExternal_body]
  have counted : ∀ p : Function → Bool, (marked live.functions m.functions).countP p +
      (marked (live.functions.map (!·)) m.functions).countP p = m.functions.toList.countP p := by
    intro p
    rw [kept, dropped, ← List.countP_eq_countP_filter_add]
  refine ⟨functions, globals, fun j f at_j => Module.number_of_accepted accepted' at_j,
    fun j g? at_j => Module.global_of_accepted accepted' at_j, rfl, ?_, ?_, ?_, ?_, ?_⟩
  · exact congrArg Int.ofNat (kinds (!·)).symm
  · exact congrArg Int.ofNat (kinds id).symm
  · exact congrArg Int.ofNat (counted (!·.isExternal))
  · exact congrArg Int.ofNat (counted (·.isExternal))
  · show ((List.mapIdx _ _).toArray.size : Int) + (m.globals.size - _) = m.globals.size
    simp

/-- Tree shaking keeps exactly what the entry can use. Of an accepted module it leaves the functions that
calls lead to from the entry and the globals that these access, in their old order and numbered by their
positions, and counts all others as removed. The result is accepted, shaking it again from its entry
removes nothing, and a program that started with the entry still does. -/
theorem treeShake_exact {m : Module} (accepted : m.defects = .ok []) {entry : FuncId} {f : Function}
    (found : m.function? entry = some f) :
    ∃ live shaken, treeShake m entry = .ok shaken ∧ Pruned m entry live shaken ∧
      shaken.module.defects = .ok [] ∧
      treeShake shaken.module shaken.entry = .ok { shaken with
        stats := { shaken.stats with functionsRemoved := 0, externsRemoved := 0, globalsRemoved := 0 } } ∧
      (m.entryFunction = .ok f → ∃ f', shaken.module.entryFunction = .ok f' ∧
        shaken.module.function? shaken.entry = some f' ∧ f'.name = f.name) := by
  obtain ⟨live, searched, closed, kept⟩ := liveFrom_closed accepted found
  have exactly := liveFrom_exact accepted found searched closed kept
  obtain ⟨shaken, shook, _, renumbers⟩ := treeShake_renumbers accepted found searched closed kept
  cases shook.symm.trans (treeShake_eq accepted found searched closed kept)
  have small := small_shaken accepted live entry
  have accepted' := renumbers.keeps_accepted accepted closed small
  have pruned := pruned_shaken accepted closed exactly accepted'
  have found' := renumbers.functions entry f kept found
  refine ⟨live, _, shook, pruned, accepted', ?_, fun starts => ⟨_, ?_, found', rfl⟩⟩
  · obtain ⟨again, searched', closed', kept'⟩ := liveFrom_closed accepted' found'
    have exactly' := liveFrom_exact accepted' found' searched' closed' kept'
    have whole := renumbers.whole exactly accepted closed small closed' exactly'
    refine (treeShake_eq accepted' found' searched' closed' kept').trans (congrArg Except.ok ?_)
    refine (whole.shaken accepted' closed' (Array.getElem?_eq_some_iff.mp found').1).trans ?_
    rw [← pruned.functionsKept, ← pruned.externsKept]
    rfl
  · classical
    refine (Module.entryFunction_eq_ok accepted').mpr ?_
    obtain ⟨_, rfl⟩ := Module.function_of_accepted accepted found
    exact startsWith_shaken pruned.functions (fun _ => rfl) (fun g => isExternal_body live g _) rfl
      ((Module.entryFunction_eq_ok accepted).mp starts)
      (decide_eq_true ((exactly.functions f.id).mp kept))

theorem treeShake_exact_savings : ∃ shaken, treeShake savings ⟨3⟩ = .ok shaken ∧
    shaken.module.functions.toList.map (·.name) = ["note", "deposit", "main"] ∧
    shaken.stats = { functionsRemoved := 1, globalsRemoved := 1, functionsKept := 2, externsKept := 1 } ∧
    treeShake shaken.module shaken.entry = .ok { shaken with
      stats := { functionsKept := 2, externsKept := 1 } } ∧
    shaken.module.entryFunction.toOption.map (·.name) = some "main" := by
  obtain ⟨live, shaken, shook, pruned, accepted, again, starts⟩ :=
    @treeShake_exact savings (by decide +kernel) ⟨3⟩ _ rfl
  have kept : ((treeShake savings ⟨3⟩).map fun s =>
      (s.module.functions.toList.map (·.name), s.stats)).toOption =
      some (["note", "deposit", "main"],
        { functionsRemoved := 1, globalsRemoved := 1, functionsKept := 2, externsKept := 1 }) := by
    decide +kernel
  rw [shook] at kept
  obtain ⟨names, stats⟩ := Prod.mk.injEq .. ▸ Option.some.inj kept
  obtain ⟨f', starts', -, name⟩ := starts (by decide +kernel)
  refine ⟨shaken, shook, names, stats, ?_, ?_⟩
  · rw [again, stats]
  · rw [starts']
    exact congrArg some name

end TieredEngine.Ship.TreeShake
