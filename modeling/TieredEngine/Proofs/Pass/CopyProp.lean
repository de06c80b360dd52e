import Mathlib.Data.List.Induction
import TieredEngine.Pass.CopyProp
import TieredEngine.Proofs.Pass.Conserving

/-!
Copy propagation refines a function, and conserves it. The collected copies are facts of a
single-assignment function, and every register is renamed to one that it was copied from. Where no
read register is a copy, the pass changes nothing.
-/
namespace TieredEngine.Pass.CopyProp
open TieredEngine.Ir TieredEngine.Eval

/-- The facts behind a renaming. -/
def facts (a : Aliases) : Facts := { copy := fun d s => (d, s) ∈ a }

/-- What it takes for an instruction to be collected as a copy. -/
def CopyOf (f : Function) (i : Inst) (d s : Reg) : Prop :=
  i.op = .copy ∧ i.args = [s] ∧ i.dest = d ∧ f.declares d = true ∧ d ≠ s ∧
    f.regType? d = f.regType? s

/-- Only the types of the registers matter of a function. -/
theorem CopyOf.congr {f g : Function} (regTypes : g.regTypes = f.regTypes) {i : Inst} {d s : Reg}
    (copy : CopyOf g i d s) : CopyOf f i d s := by
  simpa only [CopyOf, Function.declares, Function.regType?, regTypes] using copy

theorem mem_ofInst {f : Function} {a : Aliases} {i : Inst} {d s : Reg}
    (member : (d, s) ∈ ofInst f a i) : (d, s) ∈ a ∨ i.hasDest = true ∧ CopyOf f i d s := by
  unfold ofInst at member
  split at member
  · next source op args =>
    split at member
    · next t t' known known' =>
      split at member
      · next fits =>
        simp only [insert, List.mem_cons, Prod.mk.injEq, List.mem_filter] at member
        rcases member with ⟨rfl, rfl⟩ | ⟨old, _⟩
        · exact .inr ⟨by simp [Inst.hasDest, op, fits.1], op, args, rfl,
            by simp [Function.declares, known], fits.2.2, by rw [known, known', fits.2.1]⟩
        · exact .inl old
      · exact .inl member
    · exact .inl member
  · exact .inl member

theorem collect_eq (f : Function) (bs : List Block) :
    collect f bs = (bs.flatMap (·.insts)).foldl (ofInst f) [] := by
  rw [collect, List.flatMap_def, List.foldl_flatten, List.foldl_map]

theorem mem_foldl_ofInst {f : Function} {is : List Inst} {a : Aliases} {d s : Reg}
    (member : (d, s) ∈ is.foldl (ofInst f) a) :
    (d, s) ∈ a ∨ ∃ i ∈ is, i.hasDest = true ∧ CopyOf f i d s := by
  induction is generalizing a with
  | nil => exact .inl member
  | cons i is ih =>
    rcases ih member with early | ⟨j, inside, copy⟩
    · exact (mem_ofInst early).imp_right fun copy => ⟨i, by simp, copy⟩
    · exact .inr ⟨j, by simp [inside], copy⟩

theorem mem_collect {f : Function} {bs : List Block} {d s : Reg}
    (member : (d, s) ∈ collect f bs) :
    ∃ b ∈ bs, ∃ i ∈ b.insts, i.hasDest = true ∧ CopyOf f i d s := by
  rw [collect_eq] at member
  obtain ⟨i, listed, copy⟩ := (mem_foldl_ofInst member).resolve_left (by simp)
  obtain ⟨b, among, inside⟩ := List.mem_flatMap.mp listed
  exact ⟨b, among, i, inside, copy⟩

/-- Every collected copy is the only instruction that writes its register. -/
theorem facts_justified {f : Function} (numbered : f.WellNumbered) (single : f.SingleAssignment)
    {bs : List Block} (all : f.allBlocks = .ok bs) : (facts (collect f bs)).Justified f := by
  refine ⟨fun _ _ known => known.elim, fun d s copy => ?_⟩
  obtain ⟨b, among, i, member, -, op, args, rfl, declared, apart, -⟩ := mem_collect copy
  have found := numbered.block?_of_mem all among
  have target : i.target? = some i.dest := by simp [Inst.target?, op]
  exact ⟨apart, single.writtenOnlyBy numbered found declared member target ⟨op, args⟩⟩

theorem facts_typed (f : Function) (bs : List Block) : (facts (collect f bs)).Typed f := by
  refine ⟨fun _ _ known => known.elim, fun d s copy => ?_⟩
  obtain ⟨_, _, _, _, _, _, _, _, _, _, types⟩ := mem_collect copy
  exact types

theorem same_follow (a : Aliases) (fuel : Nat) (r : Reg) : (facts a).Same r (follow a fuel r) := by
  induction fuel generalizing r with
  | zero => exact .refl
  | succ fuel ih =>
    simp only [follow]
    split
    · exact .refl
    · next next found =>
      obtain ⟨p, among, rfl⟩ := Option.map_eq_some_iff.mp found
      have same : p.1 = r := by simpa using List.find?_some among
      exact .head (same ▸ List.mem_of_find?_eq_some among) (ih p.2)

theorem same_resolve (a : Aliases) (r : Reg) : (facts a).Same r (resolve a r) :=
  same_follow a _ r

theorem renameTerm_eq_map (a : Aliases) (t : Term) :
    renameTerm a t = t.map (resolve a) (fun id => id) := by
  cases t with
  | ret v? => cases v? <;> rfl
  | switch c cases d => simp [renameTerm, Term.map]
  | _ => rfl

theorem valueFor?_renamed (a : Aliases) (p : Phi) (pred : BlockId) :
    Phi.valueFor? { p with incoming := p.incoming.map fun i => { i with value := resolve a i.value } }
      pred = (p.valueFor? pred).map (resolve a) := by
  unfold Phi.valueFor?
  rw [List.find?_map, Option.map_map, Option.map_map]
  rfl

/-- A renaming along copies is a rewriting. -/
theorem rewrites_rename (f : Function) (a : Aliases) :
    Rewrites (facts a) f (f.mapBlocks (renameBlock a)) where
  id := rfl
  name := rfl
  sig := rfl
  params := rfl
  regTypes := rfl
  entry := rfl
  block := by
    intro id b _ found
    refine ⟨renameBlock a b, ?_, ?_, ?_, ?_⟩
    · show (f.mapBlocks (renameBlock a)).block? id = _
      rw [Function.block?_mapBlocks, found, Option.map_some]
    · simp only [renameBlock]
      induction b.phis with
      | nil => exact .nil
      | cons p ps ih =>
        refine .keep rfl (fun pred r _ value => ⟨resolve a r, ?_, same_resolve a r, trivial⟩) ih
        show Phi.valueFor? _ pred = _
        rw [valueFor?_renamed, value, Option.map_some]
    · simp only [renameBlock]
      induction b.insts with
      | nil => exact .nil
      | cons i is ih =>
        refine .step (.keep ?_) ih
        rw [List.forall₂_map_right_iff]
        exact List.forall₂_same.mpr fun r _ => ⟨same_resolve a r, trivial⟩
    · simp only [renameBlock, renameTerm_eq_map]
      exact .keep (resolve a) fun r _ => ⟨same_resolve a r, trivial⟩

/-- Copy propagation gives a refinement. -/
theorem sound : Sound run := by
  intro m f regular inside
  obtain ⟨bs, all⟩ := regular.numbered.allBlocks
  refine ⟨_, _, bind_eq_ok.mpr ⟨bs, all, rfl⟩, ?_⟩
  refine (rewrites_rename f (collect f bs)).refines
    (facts_justified regular.numbered regular.single all) regular inside
    (regular.numbered.mapBlocks (fun _ => rfl) fun b => ?_)
    (Function.writes_mapBlocks regular.numbered fun b => ?_) fun _ _ _ _ _ known => known.elim
  · simp [renameBlock, renameTerm_eq_map, Term.successors_map]
  · have same : (renameBlock (collect f bs) b).writes = b.writes := by
      simp only [renameBlock, Block.writes, Block.writesUpTo, List.map_map, List.filterMap_map]
      rfl
    rw [same]

/-- A renaming along copies makes up no phis. -/
theorem tidies_rename {f : Function} (numbered : f.WellNumbered) (a : Aliases) :
    Tidies (facts a) f (f.mapBlocks (renameBlock a)) where
  toRewrites := rewrites_rename f a
  apart _ _ _ _ same := same
  phis := by
    intro id b b' live found found' p' member
    have renamed := Function.block?_mapBlocks f (renameBlock a) id
    rw [found, Option.map_some] at renamed
    cases found'.symm.trans renamed
    obtain ⟨p, inside, rfl⟩ := List.mem_map.mp member
    refine ⟨p, inside, rfl, rfl, fun i' input live' => ?_⟩
    obtain ⟨i, listed, rfl⟩ := List.mem_map.mp input
    exact ⟨i, listed, (rewrites_rename f a).reachable_of_fixed numbered rfl live', rfl,
      same_resolve a i.value, trivial⟩

/-- Copy propagation conserves what it is given. -/
theorem conserves {m : Module} {f : Function} (formed : f.WellFormed m) :
    ∃ g changed, run f = .ok (g, changed) ∧ Conserves m f g := by
  obtain ⟨bs, all⟩ := formed.numbered.allBlocks
  refine ⟨_, _, bind_eq_ok.mpr ⟨bs, all, rfl⟩, ?_⟩
  have targets : ∀ b, (renameBlock (collect f bs) b).term.successors = b.term.successors := by
    intro b
    simp [renameBlock, renameTerm_eq_map, Term.successors_map]
  have writes : ∀ b, (renameBlock (collect f bs) b).writes = b.writes := by
    intro b
    simp only [renameBlock, Block.writes, Block.writesUpTo, List.map_map, List.filterMap_map]
    rfl
  refine (tidies_rename formed.numbered (collect f bs)).conserves formed
    (wellFormed_mapBlocks formed (fun _ => rfl) targets ?_ ?_)
    (Function.writes_mapBlocks formed.numbered fun b => writes b ▸ List.Sublist.refl _) ?_ ?_
  · intro b p' member i' input
    obtain ⟨p, inside, rfl⟩ := List.mem_map.mp member
    obtain ⟨i, listed, rfl⟩ := List.mem_map.mp input
    exact ⟨p, inside, i, listed, rfl⟩
  · intro b i' member
    obtain ⟨i, inside, rfl⟩ := List.mem_map.mp member
    refine ⟨i, inside, fun linked => ?_⟩
    unfold Inst.Linked at linked ⊢
    simpa using linked
  · exact fun _ => facts_typed f bs
  · exact fun single d s copy => ((facts_justified formed.numbered single all).copy d s copy).2

/-! ### Nothing left to propagate -/

theorem lookup_eq_none {a : Aliases} {r : Reg} : lookup a r = none ↔ ∀ s, (r, s) ∉ a := by
  unfold lookup
  rw [Option.map_eq_none_iff, List.find?_eq_none]
  constructor
  · exact fun none s member => none (r, s) member (by simp)
  · rintro none ⟨d, s⟩ member same
    obtain rfl : d = r := by simpa using same
    exact none s member

theorem mem_of_lookup {a : Aliases} {d s : Reg} (found : lookup a d = some s) : (d, s) ∈ a := by
  obtain ⟨p, among, rfl⟩ := Option.map_eq_some_iff.mp found
  have same : p.1 = d := by simpa using List.find?_some among
  exact same ▸ List.mem_of_find?_eq_some among

/-- Registers in the order in which they were written, each copied one after its source. -/
def Ordered (a : Aliases) (written : List Reg) : Prop :=
  ∀ before d after, written = before ++ d :: after → d ∉ before → ∀ s, (d, s) ∈ a → s ∈ before

namespace Ordered
variable {a : Aliases} {written : List Reg}

theorem ahead {before after : List Reg} (ordered : Ordered a (before ++ after)) :
    Ordered a before := by
  intro front d back split
  exact ordered front d (back ++ after) (by rw [split, List.append_assoc, List.cons_append])

/-- Writing one more register. -/
theorem snoc (ordered : Ordered a written) {r : Reg} (source : ∀ s, (r, s) ∈ a → s ∈ written) :
    Ordered a (written ++ [r]) := by
  intro before d after split
  rcases List.append_eq_append_iff.mp split with ⟨gap, rfl, rest⟩ | ⟨gap, rfl, rest⟩
  · cases gap with
    | nil =>
      obtain ⟨rfl, -⟩ := List.cons.inj (rest : r :: [] = d :: after)
      simpa using fun _ => source
    | cons x gap => simp at rest
  · cases gap with
    | nil =>
      obtain ⟨rfl, -⟩ := List.cons.inj (rest : d :: after = r :: [])
      simpa using fun _ => source
    | cons x gap =>
      obtain ⟨rfl, -⟩ := List.cons.inj rest
      exact ordered before d gap rfl

/-- Writing registers that are not copied. -/
theorem append (ordered : Ordered a written) {rs : List Reg}
    (plain : ∀ r ∈ rs, ∀ s, (r, s) ∉ a) : Ordered a (written ++ rs) := by
  induction rs generalizing written with
  | nil => simpa using ordered
  | cons r rs ih =>
    rw [List.append_cons]
    refine ih (ordered.snoc fun s member => ?_) fun x inside => plain x (by simp [inside])
    exact absurd member (plain r (by simp) s)

/-- Following copies back from a written register ends at one that is no copy: each step goes to a
register written earlier, so it leaves one copy fewer to follow. -/
theorem follow (ordered : Ordered a written) {r : Reg} (member : r ∈ written) {fuel : Nat}
    (enough : a.countP (·.1 ∈ written) < fuel) : lookup a (CopyProp.follow a fuel r) = none := by
  induction fuel generalizing written r with
  | zero => omega
  | succ fuel ih =>
    simp only [CopyProp.follow]
    split
    · assumption
    · next s found =>
      obtain ⟨before, after, rfl, first⟩ := List.eq_append_cons_of_mem member
      have copied := mem_of_lookup found
      have fewer : a.countP (·.1 ∈ before) < a.countP (·.1 ∈ before ++ r :: after) := by
        have mono : ∀ l : Aliases, l.countP (·.1 ∈ before) ≤ l.countP (·.1 ∈ before ++ r :: after) :=
          fun l => List.countP_mono_left fun p _ early => by
            simpa using .inl (of_decide_eq_true early)
        obtain ⟨front, back, split⟩ := List.append_of_mem copied
        have left := mono front
        have right := mono back
        simp only [split, List.countP_append, List.countP_cons, first, decide_false,
          Bool.false_eq_true, if_false, List.mem_append, List.mem_cons, true_or, or_true,
          decide_true, if_true] at left right ⊢
        omega
      exact ih ordered.ahead (ordered before r after rfl first s copied) (by omega)

theorem resolve (ordered : Ordered a written) {r : Reg} (member : r ∈ written) :
    lookup a (CopyProp.resolve a r) = none := by
  have bound := List.countP_le_length (p := fun p : Reg × Reg => decide (p.1 ∈ written)) (l := a)
  exact ordered.follow member (by omega)

end Ordered

section Written

variable {f : Function} {a : Aliases} (just : (facts a).Justified f) (grounded : f.Grounded)
include just grounded

/-- What a block writes is ordered when what is written on the way to it is. -/
theorem ordered_block {prev : Option BlockId} {id : BlockId} {written : List Reg}
    (path : f.Arrives prev id written) (ordered : Ordered a written) {b : Block}
    (found : f.block? id = some b) {before after : List Inst} (split : b.insts = before ++ after) :
    Ordered a (written ++ b.writesUpTo before) := by
  induction before using List.reverseRecOn generalizing after with
  | nil =>
    refine ordered.append fun r member s copied => ?_
    have phi : r ∈ b.phis.map (·.dest) := by simpa [Block.writesUpTo] using member
    exact ((just.copy r s copied).2.2 id b path.reachable found).1 phi
  | append_singleton before i ih =>
    have place : b.insts = before ++ i :: after := by rw [split, List.append_assoc]; rfl
    have ordered := ih place
    unfold Block.writesUpTo at ordered ⊢
    rw [List.filterMap_append]
    cases target : i.target? with
    | none => simpa [target] using ordered
    | some r =>
      have longer := ordered.snoc (r := r) fun s copied => ?_
      · simpa [target, List.append_assoc] using longer
      · have only := ((just.copy r s copied).2.2 id b path.reachable found).2 i (by simp [place]) target
        exact (grounded prev id written b path found).args before i after place s (by simp [only.2])

theorem ordered_written {prev : Option BlockId} {id : BlockId} {written : List Reg}
    (path : f.Arrives prev id written) : Ordered a written := by
  induction path with
  | entry =>
    have none : Ordered a [] := by simp [Ordered]
    simpa using none.append fun r member s copied => absurd member (just.copy r s copied).2.1
  | step before found _ ih =>
    exact ordered_block just grounded before ih found (List.append_nil _).symm

/-- What a register is read as, where it has been written, is no copy. -/
theorem resolve_written {prev : Option BlockId} {id : BlockId} {written : List Reg}
    (path : f.Arrives prev id written) {b : Block} (found : f.block? id = some b)
    {before after : List Inst} (split : b.insts = before ++ after) {r : Reg}
    (member : r ∈ written ++ b.writesUpTo before) : lookup a (resolve a r) = none :=
  (ordered_block just grounded path (ordered_written just grounded path) found split).resolve member

end Written

/-- A block of a function reads no copied register, phis along edges from blocks that cannot be reached
apart. -/
structure Unaliased (a : Aliases) (f : Function) (b : Block) : Prop where
  inputs : ∀ p ∈ b.phis, ∀ i ∈ p.incoming, f.Reachable i.pred → lookup a i.value = none
  args : ∀ i ∈ b.insts, ∀ r ∈ i.args, lookup a r = none
  uses : ∀ r ∈ b.term.uses, lookup a r = none

/-- After the renaming no copied register is read. -/
theorem unaliased_rename {f : Function} (numbered : f.WellNumbered) (grounded : f.Grounded)
    {a : Aliases} (just : (facts a).Justified f) {account : BlockId → Reg → Prop}
    (typable : f.Typable account) {id : BlockId} {b : Block} (live : f.Reachable id)
    (found : f.block? id = some b) : Unaliased a f (renameBlock a b) := by
  obtain ⟨prev, written, path⟩ := live.arrives
  have fine := grounded prev id written b path found
  constructor
  case inputs =>
    intro p' member i' input before
    obtain ⟨p, inside, rfl⟩ := List.mem_map.mp member
    obtain ⟨i, listed, rfl⟩ := List.mem_map.mp input
    obtain ⟨c, present⟩ := before.present numbered
    obtain ⟨prev, written, path⟩ := before.arrives
    refine resolve_written just grounded path present (List.append_nil _).symm ?_
    have defined := ((typable.block id b live found).inputs p inside i listed c before present).2
    exact List.mem_append.mpr (defined.imp (typable.accounts.written path) Function.writes_of_defs)
  case args =>
    intro i' member r' read
    obtain ⟨i, inside, rfl⟩ := List.mem_map.mp member
    obtain ⟨r, listed, rfl⟩ := List.mem_map.mp read
    obtain ⟨before, after, split⟩ := List.append_of_mem inside
    exact resolve_written just grounded path found split (fine.args before i after split r listed)
  case uses =>
    intro r' read
    simp only [renameBlock, renameTerm_eq_map, Term.uses_map] at read
    obtain ⟨r, listed, rfl⟩ := List.mem_map.mp read
    exact resolve_written just grounded path found (List.append_nil _).symm (fine.uses r listed)

/-- A copied register stays collected. -/
theorem ofInst_keeps {f : Function} {a : Aliases} {d s : Reg} (member : (d, s) ∈ a) (i : Inst) :
    ∃ s', (d, s') ∈ ofInst f a i := by
  unfold ofInst
  split
  · next source _ _ =>
    split
    · split
      · by_cases same : d = i.dest
        · exact ⟨source, by simp [insert, same]⟩
        · exact ⟨s, by simp [insert, member, same]⟩
      · exact ⟨s, member⟩
    · exact ⟨s, member⟩
  · exact ⟨s, member⟩

/-- Every copy is collected. -/
theorem collected {f : Function} {bs : List Block} {b : Block} (among : b ∈ bs) {i : Inst}
    (inside : i ∈ b.insts) (defines : i.hasDest = true) {d s : Reg} (copy : CopyOf f i d s) :
    ∃ s', (d, s') ∈ collect f bs := by
  obtain ⟨op, args, rfl, declared, apart, types⟩ := copy
  have own : ∀ a, (i.dest, s) ∈ ofInst f a i := by
    intro a
    obtain ⟨t, known⟩ := Option.isSome_iff_exists.mp declared
    have present : i.dest ≠ .absent := by
      simp only [Inst.hasDest, Bool.and_eq_true, bne_iff_ne] at defines
      exact defines.1.1
    simp [ofInst, op, args, known, types ▸ known, present, apart, insert]
  have later : ∀ (is : List Inst) (a : Aliases) s, (i.dest, s) ∈ a →
      ∃ s', (i.dest, s') ∈ is.foldl (ofInst f) a := by
    intro is
    induction is with
    | nil => exact fun a s member => ⟨s, member⟩
    | cons j is ih =>
      intro a s member
      obtain ⟨s', kept⟩ := ofInst_keeps (f := f) member j
      exact ih _ s' kept
  obtain ⟨before, after, split⟩ := List.append_of_mem (List.mem_flatMap.mpr ⟨b, among, inside⟩)
  rw [collect_eq, split, List.foldl_append, List.foldl_cons]
  exact later after _ s (own _)

/-- A function without copies to propagate. -/
def CopyFree (f : Function) : Prop :=
  ∀ id b, f.block? id = some b → ∀ i ∈ b.insts, i.hasDest = true → ∀ d s, ¬ CopyOf f i d s

/-- Copy propagation leaves a function without copies as it is. -/
theorem CopyFree.run {f : Function} (numbered : f.WellNumbered) (free : CopyFree f) :
    run f = .ok (f, false) := by
  obtain ⟨bs, all⟩ := numbered.allBlocks
  have none : collect f bs = [] := by
    refine List.eq_nil_iff_forall_not_mem.mpr fun (d, s) member => ?_
    obtain ⟨b, among, i, inside, defines, copy⟩ := mem_collect member
    exact free b.id b (numbered.block?_of_mem all among) i inside defines d s copy
  have own : resolve [] = fun r => r := rfl
  have same : f.mapBlocks (renameBlock (collect f bs)) = f := by
    have unchanged : renameBlock [] = id := by
      funext b
      simp only [renameBlock, renameTerm_eq_map, own, Term.map_same, List.map_id', id]
    rw [none, unchanged, Function.mapBlocks, Option.map_id_fun, Array.map_id_fun, id]
  refine bind_eq_ok.mpr ⟨bs, all, ?_⟩
  show Except.ok (_, _) = _
  simp only [same, ne_eq, not_true, decide_false]

/-- When the propagation reports no change there was nothing to propagate. -/
theorem run_unchanged {f g : Function} (ran : run f = .ok (g, false)) : g = f := by
  obtain ⟨bs, -, done⟩ := bind_eq_ok.mp ran
  obtain ⟨rfl, same⟩ := Prod.mk.inj (Except.ok.inj done)
  simpa using same

end TieredEngine.Pass.CopyProp
