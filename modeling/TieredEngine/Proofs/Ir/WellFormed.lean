import TieredEngine.Proofs.Ir.Paths

/-!
What the structural check accepts, exactly: functions that are well numbered, whose parameters are
those of the signature, and that name blocks, functions and globals that exist. Only names and
signatures of other functions matter to it, so a module stays accepted when its functions are
replaced by acceptable ones of the same names.
-/
namespace TieredEngine.Ir

/-- The function or the global that an instruction names exists, and a call has as many arguments as
its callee takes. -/
def Inst.Linked (m : Module) (i : Inst) : Prop :=
  match i.op with
  | .call => ∃ f, m.function? i.callee = some f ∧ f.sig.params.length = i.args.length
  | .loadGlobal | .storeGlobal => (m.global? i.global).isSome = true
  | _ => True

theorem Inst.Linked.global {m : Module} {i : Inst} (linked : i.Linked m)
    (names : i.op = .loadGlobal ∨ i.op = .storeGlobal) : i.global.num < m.globals.size := by
  have there : (m.global? i.global).isSome = true := by
    rcases names with op | op <;> simpa only [Inst.Linked, op] using linked
  by_contra outside
  simp [Module.global?, Array.getElem?_eq_none (Nat.le_of_not_lt outside)] at there

theorem Block.instDefects_eq_nil {m : Module} {b : Block} {i : Inst} :
    instDefects m b i = [] ↔ i.Linked m := by
  unfold instDefects Inst.Linked
  split
  · next op =>
    cases there : m.function? i.callee with
    | none => simp [op]
    | some f => simp [op, defectIf_eq_nil]
  · next op => simp [op, defectIf_eq_nil, Option.isSome_iff_ne_none]
  · next op => simp [op, defectIf_eq_nil, Option.isSome_iff_ne_none]
  · simp_all

/-- A function with a body that the structural check has nothing to say about. -/
structure Function.WellFormed (m : Module) (f : Function) : Prop where
  params : f.params.length = f.sig.params.length
  declared : ∀ p ∈ f.params, f.declares p = true
  numbered : f.WellNumbered
  preds : ∀ id b, f.block? id = some b → ∀ p ∈ b.phis, ∀ i ∈ p.incoming,
    i.pred.num < f.blocks.size
  linked : ∀ id b, f.block? id = some b → ∀ i ∈ b.insts, i.Linked m

namespace Function
variable {m m' : Module} {f : Function}

theorem wellFormed_of_defects (clean : f.defects m = []) (body : f.isExternal = false) :
    f.WellFormed m := by
  obtain ⟨params, declared⟩ := params_of_defects clean body
  obtain ⟨numbered, -⟩ := wellNumbered_of_defects clean body
  have blocks : ∀ id b, f.block? id = some b → b.defects m f.blocks.size id.num = [] := by
    intro id b found
    obtain ⟨_, same, fine⟩ := block_of_defects clean (block?_eq_some.mp found)
    cases same
    exact fine
  refine ⟨params, declared, numbered, fun id b found => ?_, fun id b found i member => ?_⟩
  · exact (Block.defects_eq_nil.mp (blocks id b found)).2.2.1
  · exact Block.instDefects_eq_nil.mp ((Block.defects_eq_nil.mp (blocks id b found)).2.2.2 i member)

theorem WellFormed.defects (formed : f.WellFormed m) : f.defects m = [] := by
  unfold Function.defects
  split
  · rfl
  · simp only [List.append_eq_nil_iff, defectIf_eq_nil, List.flatMap_eq_nil_iff,
      List.flatten_eq_nil_iff]
    refine ⟨⟨⟨?_, fun p member => ?_⟩, ?_⟩, fun ds member => ?_⟩
    · simpa using formed.params
    · simpa [declares, regType?] using formed.declared p member
    · simpa using formed.numbered.entry
    · obtain ⟨i, bound, rfl⟩ := List.mem_mapIdx.mp member
      have bound : i < f.blocks.size := by simpa using bound
      have small := formed.numbered.small
      have number := BlockId.num_ofNat (n := i) (by omega)
      obtain ⟨b, found⟩ := formed.numbered.present ⟨UInt32.ofNat i⟩ (by rw [number]; exact bound)
      have here := block?_eq_some.mp found
      rw [number, Array.getElem?_eq_getElem bound] at here
      rw [Array.getElem_toList, Option.some.inj here]
      refine Block.defects_eq_nil.mpr ⟨?_, formed.numbered.target _ b found, formed.preds _ b found,
        fun j inside => Block.instDefects_eq_nil.mpr (formed.linked _ b found j inside)⟩
      rw [formed.numbered.number _ b found, number]

/-- Other functions matter by their signatures only. -/
theorem WellFormed.congr (formed : f.WellFormed m) (globals : m'.globals = m.globals)
    (signatures : ∀ id g, m.function? id = some g → ∃ g', m'.function? id = some g' ∧ g'.sig = g.sig) :
    f.WellFormed m' := by
  refine { formed with linked := fun id b found i member => ?_ }
  have linked := formed.linked id b found i member
  unfold Inst.Linked at linked ⊢
  split at linked
  · obtain ⟨g, there, count⟩ := linked
    obtain ⟨g', there', same⟩ := signatures _ g there
    exact ⟨g', there', by rw [same, count]⟩
  · unfold Module.global?
    rw [globals]
    exact linked
  · unfold Module.global?
    rw [globals]
    exact linked
  · trivial

end Function

/-- A function of an accepted module, if it has a body, is one that the structural check has nothing
to say about. -/
theorem wellFormed_of_accepted {m : Module} (accepted : m.defects = .ok []) {f : Function}
    (member : f ∈ m.functions) (body : f.isExternal = false) : f.WellFormed m :=
  Function.wellFormed_of_defects
    (Module.function_of_accepted accepted (Module.function?_of_mem accepted member)).1 body

/-- A module stays accepted when its functions are replaced by ones of the same numbers and names
that have no defects. -/
theorem Module.accepted_of_functions {m m' : Module} (accepted : m.defects = .ok [])
    (globals : m'.globals = m.globals)
    (functions : List.Forall₂ (fun f f' => f'.id = f.id ∧ f'.name = f.name ∧ f'.defects m' = [])
      m.functions.toList m'.functions.toList) : m'.defects = .ok [] := by
  obtain ⟨each, apart, present⟩ := accepted_iff.mp accepted
  have names : m'.functions.toList.map (·.name) = m.functions.toList.map (·.name) := by
    rw [← List.forall₂_eq_eq_eq, List.forall₂_map_left_iff, List.forall₂_map_right_iff]
    exact functions.flip.imp fun _ _ same => same.2.1
  refine accepted_iff.mpr ⟨fun i f' at_i => ?_, names ▸ apart, globals ▸ present⟩
  rw [← Array.getElem?_toList] at at_i
  obtain ⟨bound', rfl⟩ := List.getElem?_eq_some_iff.mp at_i
  have bound : i < m.functions.toList.length := functions.length_eq ▸ bound'
  obtain ⟨id, -, fine⟩ := functions.get bound bound'
  have number := (each i _ (Array.getElem?_toList ▸ List.getElem?_eq_getElem bound)).1
  exact ⟨(congrArg FuncId.num id).trans number, fine⟩

end TieredEngine.Ir
