import TieredEngine.Proofs.Ir.Translatable
import TieredEngine.Proofs.Ir.Typable
import TieredEngine.Proofs.Ir.WellFormed
import TieredEngine.Proofs.Pass.Preservation

/-!
What a pass conserves: a function that the checks accept, with its name and its signature, and with
instructions that can be translated as those of the original can. A rewriting of a function is typable on
the account of the original, carried along the copies to the registers that are used and along the blocks
to their new places.
-/
namespace TieredEngine.Eval
open TieredEngine.Ir

theorem compare_type {op : Op} {x y v : Value} (done : compare op x y = .ok v) :
    v.ty = .bool := by
  unfold compare at done
  dsimp only at done
  repeat' split at done
  all_goals
    cases done
    try rfl

/-- A folded instruction that takes operands of the types of the constants gives a constant of the
type of its register. -/
theorem fold?_type {f : Function} {i : Inst} {vs : List Value} {v : Value}
    (takes : i.Takes f (vs.map (·.ty))) (folded : fold? i vs = some v) :
    f.regType? i.dest = some v.ty := by
  obtain ⟨result, same⟩ := Option.filter_eq_some_iff.mp folded
  have type : v.ty = i.ty := by simpa using same
  split at result
  · next a =>
    split at result
    · next copy =>
      cases result
      simpa [Inst.Takes, copy] using takes
    · split at result
      · next unary =>
        rw [type]
        exact ((Inst.takes_unary unary).mp takes).2
      · split at result
        · next cast =>
          obtain ⟨_, _, _, _, typed⟩ := takes.of_cast cast
          rw [type, typed]
        · cases result
  · next a b =>
    split at result
    · next binary =>
      rw [type]
      exact ((Inst.takes_binary binary).mp takes).2.2
    · split at result
      · next compares =>
        have bool : v.ty = .bool := by
          cases done : compare i.op a b with
          | error e => simp [done, Except.toOption] at result
          | ok x =>
            simp only [done, Except.toOption, Option.some.injEq] at result
            exact result ▸ compare_type done
        rw [bool]
        exact ((Inst.takes_compare compares).mp takes).2
      · cases result
  · next c a b =>
    split at result
    · next choice =>
      obtain ⟨_, equal, typed⟩ : c.ty = .bool ∧ a.ty = b.ty ∧ f.regType? i.dest = some a.ty := by
        simpa [Inst.Takes, choice] using takes
      have chosen : v = a ∨ v = b := by
        unfold select at result
        split at result
        · cases result
        · split at result
          · exact .inl (Option.some.inj result).symm
          · exact .inr (Option.some.inj result).symm
      rcases chosen with rfl | rfl
      · exact typed
      · rw [typed, equal]
    · cases result
  · cases result

/-- An instruction that is folded on constants of the types of its operands. -/
theorem folded_type {f : Function} {constant : Reg → Value → Prop}
    (constants : ∀ r v, constant r v → f.regType? r = some v.ty) {i : Inst} {vs : List Value}
    (args : List.Forall₂ constant i.args vs) (typed : i.WellTyped f) {v : Value}
    (folded : fold? i vs = some v) : f.regType? i.dest = some v.ty := by
  obtain ⟨types, operands, takes⟩ := typed
  have same : f.Types i.args (vs.map (·.ty)) := by
    unfold Function.Types
    rw [List.forall₂_map_right_iff]
    exact args.imp constants
  rw [operands.unique same] at takes
  exact fold?_type takes folded

end TieredEngine.Eval

namespace TieredEngine.Ir

theorem Inst.WellTyped.const {f : Function} {i : Inst} (typed : i.WellTyped f)
    (const : i.op = .const) : f.regType? i.dest = some i.const.ty := by
  obtain ⟨types, -, takes⟩ := typed
  exact takes.of_const const

end TieredEngine.Ir

namespace TieredEngine.Pass
open TieredEngine.Ir

/-- A phi of a rewritten function comes from one of the original: each of its inputs that control
can come from is one of the original's, under a name that it was copied from. -/
structure PhiFrom (k : Facts) (f f' : Function) (p p' : Phi) : Prop where
  dest : p'.dest = p.dest
  ty : p'.ty = p.ty
  inputs : ∀ i' ∈ p'.incoming, f'.Reachable i'.pred → ∃ i ∈ p.incoming, f.Reachable i.pred ∧
    i'.pred = k.place i.pred ∧ k.Same i.value i'.value ∧ k.used i'.value

/-- A rewriting that makes up no phis and keeps blocks apart. -/
structure Tidies (k : Facts) (f f' : Function) : Prop extends Rewrites k f f' where
  apart : ∀ a b, f.Reachable a → f.Reachable b → k.place a = k.place b → a = b
  phis : ∀ id b b', f.Reachable id → f.block? id = some b → f'.block? (k.place id) = some b' →
    ∀ p' ∈ b'.phis, ∃ p ∈ b.phis, PhiFrom k f f' p p'

/-- The facts agree with the types of a function. -/
structure Facts.Typed (k : Facts) (f : Function) : Prop where
  constant : ∀ r v, k.constant r v → f.regType? r = some v.ty
  type : ∀ d s, k.copy d s → f.regType? d = f.regType? s

/-- Besides, only copies write what is a copy. -/
structure Facts.Fits (k : Facts) (f : Function) : Prop extends k.Typed f where
  copy : ∀ d s, k.copy d s → f.WrittenOnlyBy d fun i => i.op = .copy ∧ i.args = [s]

/-- An account of a function carried over to a rewriting of it. -/
def Facts.carry (k : Facts) (f : Function) (account : BlockId → Reg → Prop) (id' : BlockId)
    (r' : Reg) : Prop :=
  k.used r' ∧ ∃ id r, f.Reachable id ∧ k.place id = id' ∧ account id r ∧ k.Same r r'

namespace Facts
variable {k : Facts} {f : Function}

theorem Step.hasDest {i i' : Inst} (step : k.Step i i') :
    i'.hasDest = i.hasDest ∧ i'.dest = i.dest := by
  cases step with
  | keep => exact ⟨rfl, rfl⟩
  | fold defines =>
    refine ⟨?_, rfl⟩
    rw [defines]
    simp only [Inst.hasDest, Bool.and_eq_true] at defines ⊢
    exact ⟨⟨defines.1.1, rfl⟩, rfl⟩

/-- What is used stays defined. -/
theorem Insts.defines {is is' : List Inst} (rewritten : k.Insts is is') {r : Reg} (used : k.used r)
    (defined : ∃ i ∈ is, i.hasDest = true ∧ i.dest = r) :
    ∃ i ∈ is', i.hasDest = true ∧ i.dest = r := by
  induction rewritten with
  | nil => exact defined
  | step head _ ih =>
    obtain ⟨i, member, defines, same⟩ := defined
    rcases List.mem_cons.mp member with rfl | later
    · exact ⟨_, List.mem_cons_self, head.hasDest.1.trans defines, head.hasDest.2.trans same⟩
    · obtain ⟨j, inside, rest⟩ := ih ⟨i, later, defines, same⟩
      exact ⟨j, List.mem_cons_of_mem _ inside, rest⟩
  | drop _ _ unused _ ih =>
    obtain ⟨i, member, defines, same⟩ := defined
    rcases List.mem_cons.mp member with rfl | later
    · exact absurd (same ▸ used) unused
    · exact ih ⟨i, later, defines, same⟩

theorem Blocks.defsUpTo {edge : BlockId → Prop} {b b' : Block} (rewritten : k.Blocks edge b b')
    {before before' : List Inst} (front : k.Insts before before') {r : Reg} (used : k.used r)
    (member : r ∈ b.defsUpTo before) : r ∈ b'.defsUpTo before' := by
  rw [Block.mem_defsUpTo] at member ⊢
  refine member.imp (fun phi => ?_) (front.defines used)
  have dest := rewritten.phis.dests used (List.mem_map.mpr phi)
  exact List.mem_map.mp dest

theorem Typed.same_type (typed : k.Typed f) {r r' : Reg} (same : k.Same r r') :
    f.regType? r = f.regType? r' := by
  induction same with
  | refl => rfl
  | tail _ copy ih => exact ih.trans (typed.type _ _ copy)

/-- What a defined register was copied from is defined as well. -/
theorem Fits.same_defined (fits : k.Fits f) {account : BlockId → Reg → Prop} {id : BlockId}
    {b : Block} (live : f.Reachable id) (found : f.block? id = some b)
    (typable : b.Typable f account id) {before after : List Inst}
    (split : b.insts = before ++ after) {r r' : Reg} (same : k.Same r r')
    (defined : account id r ∨ r ∈ b.defsUpTo before) :
    (∃ x, account id x ∧ k.Same x r') ∨ r' ∈ b.defsUpTo before := by
  induction same with
  | refl => exact defined.imp_left fun given => ⟨r, given, .refl⟩
  | @tail d s before_ copy ih =>
    rcases ih with ⟨x, given, chain⟩ | own
    · exact .inl ⟨x, given, chain.tail copy⟩
    · -- the copy is made in this block, so its source is defined before it
      obtain ⟨notPhi, onlyCopies⟩ := (fits.copy d s copy).2 id b live found
      rcases Block.mem_defsUpTo.mp own with phi | ⟨i, member, defines, dest⟩
      · exact absurd (List.mem_map.mpr phi) notPhi
      · obtain ⟨first, rest, inner⟩ := List.append_of_mem member
        have target : i.target? = some d := by rw [Inst.target?_of_hasDest defines, dest]
        have args := (onlyCopies i (by simp [split, member]) target).2
        have read := typable.args first i (rest ++ after) (by simp [split, inner]) s (by simp [args])
        rcases read with given | early
        · exact .inl ⟨s, given, .refl⟩
        · right
          rw [Block.mem_defsUpTo] at early ⊢
          refine early.imp_right fun ⟨j, inside, rest'⟩ => ⟨j, ?_, rest'⟩
          rw [inner]
          exact List.mem_append_left _ inside

/-- What is defined at a place of a block is defined at the place it has become. -/
theorem Fits.carried (fits : k.Fits f) {account : BlockId → Reg → Prop} {id : BlockId}
    {b b' : Block} (live : f.Reachable id) (found : f.block? id = some b)
    (typable : b.Typable f account id) {edge : BlockId → Prop} (rewritten : k.Blocks edge b b')
    {before after before' : List Inst} (split : b.insts = before ++ after)
    (front : k.Insts before before') {r r' : Reg} (same : k.Same r r') (used : k.used r')
    (defined : account id r ∨ r ∈ b.defsUpTo before) :
    k.carry f account (k.place id) r' ∨ r' ∈ b'.defsUpTo before' := by
  rcases fits.same_defined live found typable split same defined with ⟨x, given, chain⟩ | own
  · exact .inl ⟨used, id, x, live, rfl, given, chain⟩
  · exact .inr (rewritten.defsUpTo front used own)

end Facts

namespace Facts.Typed
variable {k : Facts} {f f' : Function} (fits : k.Typed f) (regTypes : f'.regTypes = f.regTypes)
include fits

theorem same_types {rs rs' : List Reg}
    (renamed : List.Forall₂ (fun r r' => k.Same r r' ∧ k.used r') rs rs') {types : List Ty}
    (known : f.Types rs types) : f.Types rs' types := by
  unfold Function.Types at known ⊢
  induction renamed generalizing types with
  | nil => exact known
  | cons head _ ih =>
    cases known with
    | cons first rest => exact .cons ((fits.same_type head.1).symm.trans first) (ih rest)

include regTypes

/-- Operands and results of a rewritten instruction have the types of the original. -/
theorem step_wellTyped {i i' : Inst} (step : k.Step i i') (typed : i.WellTyped f) :
    i'.WellTyped f' := by
  have types : f'.regType? = f.regType? := by
    funext r
    simp only [Function.regType?, regTypes]
  cases step with
  | keep renamed =>
    obtain ⟨ts, operands, takes⟩ := typed
    have operands := fits.same_types renamed operands
    refine ⟨ts, ?_, by simpa only [Inst.Takes, types] using takes⟩
    unfold Function.Types at operands ⊢
    rw [types]
    exact operands
  | @fold v vs defines known folded =>
    refine ⟨[], .nil, ?_⟩
    show f'.regType? i.dest = some v.ty
    rw [types]
    exact Eval.folded_type fits.constant known typed folded

theorem terms_wellTyped {t t' : Term} (rewritten : k.Terms t t') (sig : f'.sig = f.sig)
    (typed : t.WellTyped f) : t'.WellTyped f' := by
  have types : ∀ r r', k.Same r r' → f'.regType? r' = f.regType? r := by
    intro r r' same
    rw [fits.same_type same, Function.regType?, Function.regType?, regTypes]
  cases rewritten with
  | decide => trivial
  | keep σ same =>
    cases t with
    | condBr c yes no =>
      obtain ⟨type, known, word⟩ := typed
      exact ⟨type, (types c (σ c) (same c (by simp [Term.uses])).1).trans known, word⟩
    | switch c cases d =>
      obtain ⟨type, known, word⟩ := typed
      exact ⟨type, (types c (σ c) (same c (by simp [Term.uses])).1).trans known, word⟩
    | ret v? =>
      cases v? with
      | none => exact (congrArg Signature.ret sig).trans typed
      | some v =>
        show f'.regType? (σ v) = some f'.sig.ret
        rw [types v (σ v) (same v (by simp [Term.uses])).1, sig]
        exact typed
    | _ => trivial

/-- An instruction that is rewritten can be translated as before. -/
theorem step_translatable {m : Module} {i i' : Inst} (step : k.Step i i')
    (translates : i.Translatable m f) : i'.Translatable m f' := by
  have types : f'.regType? = f.regType? := by
    funext r
    simp only [Function.regType?, regTypes]
  cases step with
  | keep renamed =>
    obtain ⟨ts, operands, takes, suits⟩ := translates
    have operands := fits.same_types renamed operands
    refine ⟨ts, ?_, by simpa only [Inst.Takes, types] using takes,
      by simpa only [Inst.Suits, types] using suits⟩
    unfold Function.Types at operands ⊢
    rw [types]
    exact operands
  | @fold v vs defines known folded =>
    refine ⟨[], .nil, ?_, trivial⟩
    show f'.regType? i.dest = some v.ty
    rw [types]
    exact Eval.folded_type fits.constant known translates.wellTyped folded

theorem terms_onWord {t t' : Term} (rewritten : k.Terms t t') (word : t.OnWord f) : t'.OnWord f' := by
  cases rewritten with
  | decide => trivial
  | keep σ same =>
    cases t with
    | condBr c yes no =>
      obtain ⟨type, known, word⟩ := word
      refine ⟨type, ?_, word⟩
      rw [← known, fits.same_type (same c (by simp [Term.uses])).1, Function.regType?,
        Function.regType?, regTypes]
    | _ => trivial

end Facts.Typed

theorem Facts.Step.supplied {k : Facts} {i i' : Inst} (step : k.Step i i') (supplied : i.Supplied) :
    i'.Supplied := by
  cases step with
  | keep renamed =>
    unfold Inst.Supplied at supplied ⊢
    rwa [← renamed.length_eq]
  | fold => exact Nat.zero_le _

namespace Tidies
variable {k : Facts} {f f' : Function} (tidies : Tidies k f f') (numbered : f.WellNumbered)
include tidies numbered

/-- A rewritten block that is reached comes from one that is. -/
theorem block_back {id' : BlockId} {b' : Block} (live' : f'.Reachable id')
    (found' : f'.block? id' = some b') : ∃ id b, f.Reachable id ∧ f.block? id = some b ∧
      k.Insts b.insts b'.insts ∧ k.Terms b.term b'.term ∧
      ∀ p' ∈ b'.phis, ∃ p ∈ b.phis, p'.dest = p.dest ∧ p'.ty = p.ty := by
  obtain ⟨id, live, rfl⟩ := tidies.reachable_back numbered live'
  obtain ⟨b, found⟩ := live.present numbered
  obtain ⟨_, there, rewritten⟩ := tidies.block id b live found
  cases found'.symm.trans there
  refine ⟨id, b, live, found, rewritten.insts, rewritten.term, fun p' member => ?_⟩
  obtain ⟨p, inside, origin⟩ := tidies.phis id b b' live found found' p' member
  exact ⟨p, inside, origin.dest, origin.ty⟩

theorem supplied (supplied : f.Supplied) : f'.Supplied := by
  intro id' b' live' found' i' member
  obtain ⟨id, b, live, found, insts, -, -⟩ := tidies.block_back numbered live' found'
  obtain ⟨before', after', split'⟩ := List.append_of_mem member
  obtain ⟨before, i, after, split, step, -⟩ := insts.split split'
  exact step.supplied (supplied id b live found i (by simp [split]))

theorem translatable {m : Module} (typed : k.Typed f) (translates : f.Translatable m) :
    f'.Translatable m := by
  have types : f'.regType? = f.regType? := by
    funext r
    simp only [Function.regType?, tidies.regTypes]
  refine ⟨?_, fun id' b' live' found' => ?_⟩
  · rw [tidies.params, tidies.sig, types]
    exact translates.params
  obtain ⟨id, b, live, found, insts, term, phis⟩ := tidies.block_back numbered live' found'
  have fine := translates.block id b live found
  refine ⟨fun p' member => ?_, fun i' member => ?_, typed.terms_onWord tidies.regTypes term fine.term⟩
  · obtain ⟨p, inside, dest, ty⟩ := phis p' member
    rw [types, dest, ty]
    exact fine.phis p inside
  · obtain ⟨before', after', split'⟩ := List.append_of_mem member
    obtain ⟨before, i, after, split, step, -⟩ := insts.split split'
    exact typed.step_translatable tidies.regTypes step (fine.insts i (by simp [split]))

end Tidies

namespace Tidies
variable {k : Facts} {f f' : Function} {account : BlockId → Reg → Prop} (tidies : Tidies k f f')
  (fits : k.Fits f) (numbered : f.WellNumbered) (typable : f.Typable account)
include tidies fits numbered typable

/-- A rewritten block is typable on the carried account. -/
theorem block_typable {id : BlockId} (live : f.Reachable id) {b b' : Block}
    (found : f.block? id = some b) (found' : f'.block? (k.place id) = some b') :
    b'.Typable f' (k.carry f account) (k.place id) := by
  have fine := typable.block id b live found
  obtain ⟨_, there, rewritten⟩ := tidies.block id b live found
  cases found'.symm.trans there
  have types : f'.regType? = f.regType? := by
    funext r
    simp only [Function.regType?, tidies.regTypes]
  constructor
  case entry =>
    intro same
    have phis := rewritten.phis
    rw [fine.entry (tidies.apart id f.entry live .entry (same.trans tidies.entry))] at phis
    generalize b'.phis = ps at phis
    cases phis
    rfl
  case dests =>
    intro p' member
    obtain ⟨p, inside, origin⟩ := tidies.phis id b b' live found found' p' member
    rw [types, origin.dest, origin.ty]
    exact fine.dests p inside
  case edges =>
    intro p' member pred' c' live' present' branch'
    obtain ⟨pred, before, rfl⟩ := tidies.reachable_back numbered live'
    obtain ⟨c, present⟩ := before.present numbered
    obtain ⟨_, placed, blocks⟩ := tidies.block pred c before present
    cases present'.symm.trans placed
    obtain ⟨s, branch, same⟩ := blocks.term.successors branch'
    obtain rfl := tidies.apart id s live (before.step present branch) same
    obtain ⟨p, inside, -, inputs⟩ := rewritten.phis.origin member
    obtain ⟨r, value⟩ := Option.isSome_iff_exists.mp (fine.edges p inside pred c before present branch)
    obtain ⟨r', value', -⟩ := inputs pred r ⟨before, c', present', branch'⟩ value
    exact Option.isSome_iff_exists.mpr ⟨r', value'⟩
  case inputs =>
    intro p' member i' input c' live' present'
    obtain ⟨p, inside, origin⟩ := tidies.phis id b b' live found found' p' member
    obtain ⟨i, listed, before, place, same, used⟩ := origin.inputs i' input live'
    obtain ⟨c, present⟩ := before.present numbered
    obtain ⟨_, placed, blocks⟩ := tidies.block i.pred c before present
    rw [place] at present' ⊢
    cases present'.symm.trans placed
    obtain ⟨typed, defined⟩ := fine.inputs p inside i listed c before present
    refine ⟨?_, ?_⟩
    · rw [types, origin.ty, ← fits.same_type same]
      exact typed
    · exact fits.carried before present (typable.block i.pred c before present) blocks
        (List.append_nil _).symm blocks.insts same used defined
  case insts =>
    intro i' member
    obtain ⟨before', after', split'⟩ := List.append_of_mem member
    obtain ⟨before, i, after, split, step, -⟩ := rewritten.insts.split split'
    obtain ⟨typed, target⟩ := fine.insts i (by simp [split])
    refine ⟨fits.step_wellTyped tidies.regTypes step typed, fun r written => ?_⟩
    rw [tidies.declares]
    exact target r (step.target? ▸ written)
  case args =>
    intro before' i' after' split' r' member
    obtain ⟨before, i, after, split, step, front⟩ := rewritten.insts.split split'
    obtain ⟨r, inside, same, used⟩ := step.args r' member
    exact fits.carried live found fine rewritten split front same used
      (fine.args before i after split r inside)
  case term => exact fits.terms_wellTyped tidies.regTypes rewritten.term tidies.sig fine.term
  case uses =>
    intro r' member
    obtain ⟨r, inside, same, used⟩ := rewritten.term.uses r' member
    exact fits.carried live found fine rewritten (List.append_nil _).symm rewritten.insts same used
      (fine.uses r inside)

/-- A rewriting of a typable function is typable. -/
theorem carries : f'.Typable (k.carry f account) := by
  constructor
  case params =>
    intro p t pair s known
    rw [tidies.params, tidies.sig] at pair
    rw [Function.regType?, tidies.regTypes] at known
    exact typable.params p t pair s known
  case start =>
    rintro r' ⟨used, id, r, live, place, given, same⟩
    rw [tidies.entry] at place
    obtain rfl := tidies.apart id f.entry live .entry place
    have param := typable.start r given
    rw [tidies.params]
    cases same.cases_head with
    | inl equal => exact equal ▸ param
    | inr copied =>
      obtain ⟨s, copy, -⟩ := copied
      exact absurd param (fits.copy r s copy).1
  case flow =>
    intro id' b' s' live' found' branch' inner r' carried
    obtain ⟨used, s, r, next, rfl, given, same⟩ := carried
    obtain ⟨id, live, rfl⟩ := tidies.reachable_back numbered live'
    obtain ⟨b, found⟩ := live.present numbered
    obtain ⟨_, placed, blocks⟩ := tidies.block id b live found
    cases found'.symm.trans placed
    obtain ⟨t, branch, place⟩ := blocks.term.successors branch'
    obtain rfl := tidies.apart s t next (live.step found branch) place
    have inside : s ≠ f.entry := by
      rintro rfl
      exact inner tidies.entry.symm
    exact fits.carried live found (typable.block id b live found) blocks (List.append_nil _).symm
      blocks.insts same used (typable.flow id b s live found branch inside r given)
  case block =>
    intro id' b' live' found'
    obtain ⟨id, live, rfl⟩ := tidies.reachable_back numbered live'
    obtain ⟨b, found⟩ := live.present numbered
    exact tidies.block_typable fits numbered typable live found found'

end Tidies

/-- A rewriting that leaves blocks where they are reaches no others. -/
theorem Rewrites.reachable_of_fixed {k : Facts} {f f' : Function} (rewrites : Rewrites k f f')
    (numbered : f.WellNumbered) (fixed : k.place = fun id => id) {id : BlockId}
    (live : f'.Reachable id) : f.Reachable id := by
  obtain ⟨x, before, place⟩ := rewrites.reachable_back numbered live
  rw [fixed] at place
  exact place ▸ before

theorem Facts.Step.linked {k : Facts} {m : Module} {i i' : Inst} (step : k.Step i i')
    (linked : i.Linked m) : i'.Linked m := by
  cases step with
  | keep renamed =>
    have count := renamed.length_eq
    unfold Inst.Linked at linked ⊢
    rw [← count]
    exact linked
  | fold => trivial

/-- Changing blocks so that phis get no inputs from elsewhere and instructions name nothing new. -/
theorem wellFormed_mapBlocks {m : Module} {f : Function} (formed : f.WellFormed m)
    {g : Block → Block} (number : ∀ b, (g b).id = b.id)
    (targets : ∀ b, (g b).term.successors = b.term.successors)
    (preds : ∀ b, ∀ p' ∈ (g b).phis, ∀ i' ∈ p'.incoming,
      ∃ p ∈ b.phis, ∃ i ∈ p.incoming, i.pred = i'.pred)
    (linked : ∀ b, ∀ i' ∈ (g b).insts, ∃ i ∈ b.insts, i.Linked m → i'.Linked m) :
    (f.mapBlocks g).WellFormed m := by
  have size : (f.mapBlocks g).blocks.size = f.blocks.size := by simp [Function.mapBlocks]
  refine ⟨formed.params, formed.declared, formed.numbered.mapBlocks number targets, ?_, ?_⟩
  · intro id b' found' p' member i' input
    obtain ⟨b, found, rfl⟩ := Function.block_of_mapBlocks found'
    obtain ⟨p, inside, i, listed, same⟩ := preds b p' member i' input
    rw [size, ← same]
    exact formed.preds id b found p inside i listed
  · intro id b' found' i' member
    obtain ⟨b, found, rfl⟩ := Function.block_of_mapBlocks found'
    obtain ⟨i, inside, keeps⟩ := linked b i' member
    exact keeps (formed.linked id b found i inside)

/-- What a pass leaves of a function that the structural check accepts: a function that it accepts,
entered like the original and with no more places that write registers. If the original assigns
each register once and is typable, so is what is left. What can be translated in the original can be
translated in what is left. -/
structure Conserves (m : Module) (f g : Function) : Prop where
  id : g.id = f.id
  header : Eval.SameHeader f g
  formed : g.WellFormed m
  writes : g.writes.Sublist f.writes
  typable : f.SingleAssignment → (∃ account, f.Typable account) → ∃ account, g.Typable account
  supplied : f.Supplied → g.Supplied
  translatable : f.Translatable m → g.Translatable m

namespace Conserves
variable {m : Module} {f g h : Function}

theorem single (conserves : Conserves m f g) (single : f.SingleAssignment) : g.SingleAssignment := by
  have declares : g.declares = f.declares := by
    funext r
    simp only [Function.declares, Function.regType?, conserves.header.regTypes]
  unfold Function.SingleAssignment
  rw [declares]
  exact (conserves.writes.filter _).nodup single

theorem refl (formed : f.WellFormed m) : Conserves m f f :=
  ⟨rfl, ⟨rfl, rfl, rfl, rfl, rfl⟩, formed, List.Sublist.refl _, fun _ typable => typable,
    fun supplied => supplied, fun translates => translates⟩

theorem trans (first : Conserves m f g) (second : Conserves m g h) : Conserves m f h where
  id := second.id.trans first.id
  header := first.header.trans second.header
  formed := second.formed
  writes := second.writes.trans first.writes
  typable single typable := second.typable (first.single single) (first.typable single typable)
  supplied := second.supplied ∘ first.supplied
  translatable := second.translatable ∘ first.translatable

end Conserves

theorem Tidies.conserves {m : Module} {k : Facts} {f f' : Function} (tidies : Tidies k f f')
    (formed : f.WellFormed m) (formed' : f'.WellFormed m) (writes : f'.writes.Sublist f.writes)
    (typed : (∀ id b, f.Reachable id → f.block? id = some b → ∀ i ∈ b.insts, i.WellTyped f) → k.Typed f)
    (copies : f.SingleAssignment → ∀ d s, k.copy d s →
      f.WrittenOnlyBy d fun i => i.op = .copy ∧ i.args = [s]) : Conserves m f f' where
  id := tidies.id
  header := tidies.toRewrites.header formed.numbered
  formed := formed'
  writes := writes
  typable := by
    rintro single ⟨account, typable⟩
    have types := typed fun id b live found i member =>
      ((typable.block id b live found).insts i member).1
    exact ⟨_, tidies.carries ⟨types, copies single⟩ formed.numbered typable⟩
  supplied := tidies.supplied formed.numbered
  translatable translates := by
    refine tidies.translatable formed.numbered (typed fun id b live found i member => ?_) translates
    exact ((translates.block id b live found).insts i member).wellTyped

end TieredEngine.Pass
