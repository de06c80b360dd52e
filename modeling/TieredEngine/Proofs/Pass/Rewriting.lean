import Mathlib.Logic.Relation
import TieredEngine.Eval.Arith
import TieredEngine.Pass.ConstFold
import TieredEngine.Proofs.Ir.Paths

/-!
One function as a rewriting of another: blocks may move, instructions may be dropped or become
constants, registers may be read under the name of what they were copied from, and branches may be
decided. Each pass is shown to be such a rewriting, and what follows is proved once. The first
consequence is that a rewriting of a grounded function is grounded.

Facts justify a rewriting: which registers hold constants, which are copies of others, which are
still read, and where blocks go. A copy and its source hold the same value wherever the copy is sure
to be written. This is where single assignment counts: the source is never written at a place where
the copy is sure to be written already.
-/
namespace TieredEngine.Ir.Function

/-- The register is written on every path to a place in a block, `extra` being what the block
itself has written there. -/
def SureAt (f : Function) (id : BlockId) (extra : List Reg) (r : Reg) : Prop :=
  ∀ prev written, f.Arrives prev id written → r ∈ written ++ extra

/-- The register is no parameter and no phi, and every instruction that writes it is of one kind. -/
def WrittenOnlyBy (f : Function) (r : Reg) (kind : Inst → Prop) : Prop :=
  r ∉ f.params ∧ ∀ id b, f.Reachable id → f.block? id = some b →
    r ∉ b.phis.map (·.dest) ∧ ∀ i ∈ b.insts, i.target? = some r → kind i

/-- The one instruction that writes a register decides what kind of instruction does. -/
theorem SingleAssignment.writtenOnlyBy {f : Function} (single : f.SingleAssignment)
    (numbered : f.WellNumbered) {id : BlockId} {b : Block} (found : f.block? id = some b) {r : Reg}
    (declared : f.declares r = true) {i : Inst} (member : i ∈ b.insts)
    (target : i.target? = some r) {kind : Inst → Prop} (own : kind i) : f.WrittenOnlyBy r kind := by
  have written : r ∈ b.writes :=
    List.mem_append_right _ (List.mem_filterMap.mpr ⟨i, member, target⟩)
  obtain ⟨before, after, split⟩ := List.append_of_mem member
  refine ⟨single.not_param numbered found declared written, fun id' c _ present => ⟨?_, ?_⟩⟩
  · intro phi
    have same := single.block_eq numbered found present declared written
      (List.mem_append_left _ phi)
    subst same
    cases found.symm.trans present
    exact single.not_phi numbered found declared member target phi
  · intro j inside target'
    obtain ⟨before', after', split'⟩ := List.append_of_mem inside
    obtain ⟨_, _, rfl⟩ :=
      single.split_eq numbered found present declared split split' target target'
    exact own

end TieredEngine.Ir.Function

namespace TieredEngine.Pass
open TieredEngine.Ir

structure Facts where
  constant : Reg → Value → Prop := fun _ _ => False
  copy : Reg → Reg → Prop := fun _ _ => False
  used : Reg → Prop := fun _ => True
  place : BlockId → BlockId := fun id => id

namespace Facts

/-- One register was copied from the other, through any number of copies. -/
def Same (k : Facts) : Reg → Reg → Prop := Relation.ReflTransGen k.copy

/-- The instruction computes the value whenever the registers known to be constant are. -/
def Yields (k : Facts) (i : Inst) (v : Value) : Prop :=
  i.op = .const ∧ i.const = v ∨
    ∃ vs, List.Forall₂ k.constant i.args vs ∧ Eval.fold? i vs = some v

/-- The facts hold of a function by the way registers are written in it. -/
structure Justified (k : Facts) (f : Function) : Prop where
  constant : ∀ r v, k.constant r v → f.WrittenOnlyBy r fun i => k.Yields i v
  copy : ∀ d s, k.copy d s → d ≠ s ∧ f.WrittenOnlyBy d fun i => i.op = .copy ∧ i.args = [s]

variable {k : Facts} {f : Function}

/-- What writes a register that nothing but copies write. -/
theorem Justified.copy_split (just : k.Justified f) {d s : Reg} (copy : k.copy d s) {id : BlockId}
    (reached : f.Reachable id) {b : Block} (found : f.block? id = some b) {before : List Inst}
    (among : ∀ i ∈ before, i ∈ b.insts) (written : d ∈ b.writesUpTo before) :
    ∃ first i rest, before = first ++ i :: rest ∧ i.target? = some d ∧ i.args = [s] := by
  obtain ⟨notPhi, onlyCopies⟩ := (just.copy d s copy).2.2 id b reached found
  rcases List.mem_append.mp written with phi | inst
  · exact absurd phi notPhi
  · obtain ⟨i, member, target⟩ := List.mem_filterMap.mp inst
    obtain ⟨first, rest, split⟩ := List.append_of_mem member
    exact ⟨first, i, rest, split, target, (onlyCopies i (among i member) target).2⟩

/-- The source of a copy is written before the copy, on every path. -/
theorem Justified.source_written (just : k.Justified f) (grounded : f.Grounded) {d s : Reg}
    (copy : k.copy d s) {prev : Option BlockId} {id : BlockId} {written : List Reg}
    (path : f.Arrives prev id written) (member : d ∈ written) : s ∈ written := by
  induction path with
  | entry => exact absurd member (just.copy d s copy).2.1
  | @step prev id next written b before found branch ih =>
    rcases List.mem_append.mp member with early | own
    · exact List.mem_append_left _ (ih early)
    · obtain ⟨first, i, rest, split, _, args⟩ :=
        just.copy_split copy before.reachable found (fun _ inside => inside) own
      have read := (grounded _ _ _ _ before found).args first i rest split s (by simp [args])
      rw [Block.writes, Block.writesUpTo, split, List.filterMap_append]
      simp only [Block.writesUpTo, List.mem_append] at read ⊢
      tauto

/-- The same inside a block. -/
theorem Justified.source_writtenUpTo (just : k.Justified f) (grounded : f.Grounded) {d s : Reg}
    (copy : k.copy d s) {prev : Option BlockId} {id : BlockId} {written : List Reg}
    (path : f.Arrives prev id written) {b : Block} (found : f.block? id = some b)
    {before after : List Inst} (split : b.insts = before ++ after)
    (member : d ∈ written ++ b.writesUpTo before) : s ∈ written ++ b.writesUpTo before := by
  rcases List.mem_append.mp member with early | own
  · exact List.mem_append_left _ (just.source_written grounded copy path early)
  · obtain ⟨first, i, rest, inner, _, args⟩ := just.copy_split copy path.reachable found
      (fun j inside => by simp [split, inside]) own
    have read := (grounded _ _ _ _ path found).args first i (rest ++ after)
      (by simp [split, inner]) s (by simp [args])
    rw [Block.writesUpTo, inner, List.filterMap_append]
    simp only [Block.writesUpTo, List.mem_append] at read ⊢
    tauto

/-- Nothing writes the source of a copy at a place where the copy is sure to be written. -/
def Fresh (f : Function) (d s : Reg) : Prop :=
  ∀ id b, f.Reachable id → f.block? id = some b →
    (s ∈ b.phis.map (·.dest) → ¬ f.SureAt id [] d) ∧
    ∀ before i after, b.insts = before ++ i :: after → i.target? = some s →
      ¬ f.SureAt id (b.writesUpTo before) d

variable (just : k.Justified f) (numbered : f.WellNumbered) (grounded : f.Grounded)
  (single : f.SingleAssignment)
include just numbered grounded single

/-- A path on which the source has just been written for the first time: the copy cannot have been
written, so it is not sure to be written at the one place where the source is. -/
theorem Justified.fresh_of_first {d s : Reg} (copy : k.copy d s) {prev : Option BlockId}
    {id : BlockId} {written : List Reg} (path : f.Arrives prev id written) {b : Block}
    (found : f.block? id = some b) (first : s ∉ written) (member : s ∈ b.writes) :
    Fresh f d s := by
  have declared := (grounded _ _ _ _ path found).declares_of_writes member
  intro id' b' reached' found'
  refine ⟨fun phi' sure => ?_, fun before' i' after' split' target' sure => ?_⟩
  · have same := single.block_eq numbered found found' declared member
      (List.mem_append_left _ phi')
    subst same
    have early : d ∈ written := by simpa using sure _ _ path
    exact first (just.source_written grounded copy path early)
  · have written' : s ∈ b'.writes := List.mem_append_right _
      (List.mem_filterMap.mpr ⟨i', by simp [split'], target'⟩)
    have same := single.block_eq numbered found found' declared member written'
    subst same
    cases found.symm.trans found'
    have read := just.source_writtenUpTo grounded copy path found split' (sure _ _ path)
    rcases List.mem_append.mp read with early | own
    · exact first early
    · rcases List.mem_append.mp own with phi | inst
      · exact single.not_phi numbered found declared (by simp [split']) target' phi
      · exact (single.not_before numbered found declared split' target').1 inst

theorem Justified.fresh_of_written {d s : Reg} (copy : k.copy d s) {prev : Option BlockId}
    {id : BlockId} {written : List Reg} (path : f.Arrives prev id written)
    (member : s ∈ written) (declared : f.declares s = true) : Fresh f d s := by
  induction path with
  | entry =>
    -- a parameter is not written again
    intro id b _ found
    refine ⟨fun phi _ => ?_, fun before i after split target _ => ?_⟩
    · exact single.not_param numbered found declared (List.mem_append_left _ phi) member
    · refine single.not_param numbered found declared (List.mem_append_right _ ?_) member
      exact List.mem_filterMap.mpr ⟨i, by simp [split], target⟩
  | @step prev id next written b before found branch ih =>
    by_cases early : s ∈ written
    · exact ih early
    · have own : s ∈ b.writes := (List.mem_append.mp member).resolve_left early
      exact just.fresh_of_first numbered grounded single copy before found early own

/-- Where the copy is sure to be written, its source is not written again. -/
theorem Justified.fresh {d s : Reg} (copy : k.copy d s) : Fresh f d s := by
  by_cases somewhere : ∃ id b, f.Reachable id ∧ f.block? id = some b ∧ s ∈ b.writes
  · obtain ⟨id, b, reached, found, member⟩ := somewhere
    obtain ⟨prev, written, path⟩ := reached.arrives
    have declared := (grounded _ _ _ _ path found).declares_of_writes member
    by_cases early : s ∈ written
    · exact just.fresh_of_written numbered grounded single copy path early declared
    · exact just.fresh_of_first numbered grounded single copy path found early member
  · intro id b reached found
    refine ⟨fun phi => ?_, fun before i after split target => ?_⟩
    · exact absurd ⟨id, b, reached, found, List.mem_append_left _ phi⟩ somewhere
    · refine absurd ⟨id, b, reached, found, List.mem_append_right _ ?_⟩ somewhere
      exact List.mem_filterMap.mpr ⟨i, by simp [split], target⟩

end Facts

end TieredEngine.Pass

namespace TieredEngine.Ir

/-- A terminator with its registers and targets renamed. -/
def Term.map (σ : Reg → Reg) (π : BlockId → BlockId) : Term → Term
  | .missing => .missing
  | .br t => .br (π t)
  | .condBr c y n => .condBr (σ c) (π y) (π n)
  | .switch c cases d =>
    .switch (σ c) (cases.map fun k => { k with target := π k.target }) (π d)
  | .ret v? => .ret (v?.map σ)
  | .unreachable => .unreachable

theorem Term.successors_map (σ : Reg → Reg) (π : BlockId → BlockId) (t : Term) :
    (t.map σ π).successors = t.successors.map π := by
  cases t <;> simp [Term.map, successors]

theorem Term.map_same (t : Term) : t.map (fun r => r) (fun id => id) = t := by
  cases t with
  | ret v? => cases v? <;> rfl
  | switch c cases d => simp [Term.map]
  | _ => rfl

theorem Term.uses_map (σ : Reg → Reg) (π : BlockId → BlockId) (t : Term) :
    (t.map σ π).uses = t.uses.map σ := by
  cases t with
  | ret v? => cases v? <;> simp [Term.map, uses]
  | _ => simp [Term.map, uses]

end TieredEngine.Ir

namespace TieredEngine.Pass
open TieredEngine.Ir

theorem ConstFold.knownTarget?_mem {known : ConstFold.Known} {t : Term} {target : BlockId}
    (found : ConstFold.knownTarget? known t = some target) : target ∈ t.successors := by
  cases t with
  | condBr c yes no =>
    obtain ⟨v, _, found⟩ := Option.bind_eq_some_iff.mp found
    obtain ⟨_, _, chosen⟩ := Option.bind_eq_some_iff.mp found
    cases chosen
    split <;> simp [Term.successors]
  | switch c cases d =>
    obtain ⟨v, _, found⟩ := Option.bind_eq_some_iff.mp found
    obtain ⟨_, _, chosen⟩ := Option.bind_eq_some_iff.mp found
    split at chosen
    · next s matched =>
      cases chosen
      simp only [Term.successors, List.mem_append, List.mem_map]
      exact .inl ⟨s, List.mem_of_find?_eq_some matched, rfl⟩
    · cases chosen
      simp [Term.successors]
  | _ => cases found

namespace Facts

/-- An instruction kept under other names of its operands, or turned into the constant it
computes. -/
inductive Step (k : Facts) : Inst → Inst → Prop where
  | keep {i : Inst} {args : List Reg}
      (renamed : List.Forall₂ (fun r r' => k.Same r r' ∧ k.used r') i.args args) :
      Step k i { i with args }
  | fold {i : Inst} {v : Value} {vs : List Value} (defines : i.hasDest = true)
      (known : List.Forall₂ k.constant i.args vs) (folded : Eval.fold? i vs = some v) :
      Step k i { op := .const, dest := i.dest, ty := i.ty, const := v }

/-- Instructions rewritten one by one; those without effect whose result is unused may go. -/
inductive Insts (k : Facts) : List Inst → List Inst → Prop where
  | nil : Insts k [] []
  | step {i i' : Inst} {is is' : List Inst} (head : k.Step i i') (tail : Insts k is is') :
      Insts k (i :: is) (i' :: is')
  | drop {i : Inst} {is is' : List Inst} (defines : i.hasDest = true)
      (pure : i.op.hasEffects = false) (unused : ¬ k.used i.dest) (tail : Insts k is is') :
      Insts k (i :: is) is'

/-- Phis keep the inputs along the edges that remain; unused ones may go. -/
inductive Phis (k : Facts) (edge : BlockId → Prop) : List Phi → List Phi → Prop where
  | nil : Phis k edge [] []
  | keep {p p' : Phi} {ps ps' : List Phi} (dest : p'.dest = p.dest)
      (inputs : ∀ pred r, edge pred → p.valueFor? pred = some r →
        ∃ r', p'.valueFor? (k.place pred) = some r' ∧ k.Same r r' ∧ k.used r')
      (tail : Phis k edge ps ps') : Phis k edge (p :: ps) (p' :: ps')
  | drop {p : Phi} {ps ps' : List Phi} (unused : ¬ k.used p.dest) (tail : Phis k edge ps ps') :
      Phis k edge (p :: ps) ps'

/-- A terminator reads other names and goes to where the blocks are, or its branch is decided. -/
inductive Terms (k : Facts) : Term → Term → Prop where
  | keep {t : Term} (σ : Reg → Reg) (same : ∀ r ∈ t.uses, k.Same r (σ r) ∧ k.used (σ r)) :
      Terms k t (t.map σ k.place)
  | decide {t : Term} {target : BlockId} (known : ConstFold.Known)
      (facts : ∀ p ∈ known, k.constant p.1 p.2)
      (found : ConstFold.knownTarget? known t = some target) : Terms k t (.br (k.place target))

structure Blocks (k : Facts) (edge : BlockId → Prop) (b b' : Block) : Prop where
  phis : k.Phis edge b.phis b'.phis
  insts : k.Insts b.insts b'.insts
  term : k.Terms b.term b'.term

end Facts

/-- The edge between two blocks of a function is still there after a rewriting. -/
def EdgeKept (k : Facts) (f f' : Function) (id pred : BlockId) : Prop :=
  f.Reachable pred ∧ ∃ c', f'.block? (k.place pred) = some c' ∧ k.place id ∈ c'.term.successors

/-- The second function is the first one rewritten as the facts allow. -/
structure Rewrites (k : Facts) (f f' : Function) : Prop where
  id : f'.id = f.id
  name : f'.name = f.name
  sig : f'.sig = f.sig
  params : f'.params = f.params
  regTypes : f'.regTypes = f.regTypes
  entry : f'.entry = k.place f.entry
  block : ∀ id b, f.Reachable id → f.block? id = some b →
    ∃ b', f'.block? (k.place id) = some b' ∧ k.Blocks (EdgeKept k f f' id) b b'

variable {k : Facts} {f f' : Function}

namespace Facts

theorem Step.target? {i i' : Inst} (step : k.Step i i') : i'.target? = i.target? := by
  cases step with
  | keep => rfl
  | fold defines =>
    rw [Inst.target?_of_hasDest defines]
    rfl

theorem Step.args {i i' : Inst} (step : k.Step i i') :
    ∀ r' ∈ i'.args, ∃ r ∈ i.args, k.Same r r' ∧ k.used r' := by
  intro r' member
  cases step with
  | keep renamed => exact forall₂_partner renamed.flip member
  | fold => cases member

/-- An instruction of the result comes from one of the original, and so does what precedes it. -/
theorem Insts.split {is is' : List Inst} (rewritten : k.Insts is is') {before' after' : List Inst}
    {i' : Inst} (place : is' = before' ++ i' :: after') :
    ∃ before i after, is = before ++ i :: after ∧ k.Step i i' ∧ k.Insts before before' := by
  induction rewritten generalizing before' with
  | nil => simp at place
  | @step i j is is' head tail ih =>
    cases before' with
    | nil =>
      obtain ⟨rfl, rfl⟩ := List.cons.inj place
      exact ⟨[], i, is, rfl, head, .nil⟩
    | cons j' before' =>
      obtain ⟨rfl, rest⟩ := List.cons.inj place
      obtain ⟨before, x, after, split, step, front⟩ := ih rest
      exact ⟨i :: before, x, after, by rw [split, List.cons_append], step, .step head front⟩
  | @drop i is is' defines pure unused tail ih =>
    obtain ⟨before, x, after, split, step, front⟩ := ih place
    exact ⟨i :: before, x, after, by rw [split, List.cons_append], step,
      .drop defines pure unused front⟩

theorem Insts.targets {is is' : List Inst} (rewritten : k.Insts is is') {r : Reg}
    (used : k.used r) (member : r ∈ is.filterMap Inst.target?) :
    r ∈ is'.filterMap Inst.target? := by
  induction rewritten with
  | nil => exact member
  | step head _ ih =>
    simp only [List.mem_filterMap, List.mem_cons, exists_eq_or_imp] at member ih ⊢
    rw [head.target?]
    exact member.imp_right ih
  | drop defines _ unused _ ih =>
    simp only [List.mem_filterMap, List.mem_cons, exists_eq_or_imp] at member ih ⊢
    rcases member with own | later
    · rw [Inst.target?_of_hasDest defines] at own
      cases own
      exact absurd used unused
    · exact ih later

theorem Phis.dests {edge : BlockId → Prop} {ps ps' : List Phi} (rewritten : k.Phis edge ps ps')
    {r : Reg} (used : k.used r) (member : r ∈ ps.map (·.dest)) : r ∈ ps'.map (·.dest) := by
  induction rewritten with
  | nil => exact member
  | keep dest _ _ ih =>
    simp only [List.map_cons, List.mem_cons] at member ⊢
    rw [dest]
    exact member.imp_right ih
  | drop unused _ ih =>
    simp only [List.map_cons, List.mem_cons] at member
    rcases member with rfl | later
    · exact absurd used unused
    · exact ih later

/-- Every phi of the result is one of the original with its inputs renamed. -/
theorem Phis.origin {edge : BlockId → Prop} {ps ps' : List Phi} (rewritten : k.Phis edge ps ps')
    {p' : Phi} (member : p' ∈ ps') : ∃ p ∈ ps, p'.dest = p.dest ∧
      ∀ pred r, edge pred → p.valueFor? pred = some r →
        ∃ r', p'.valueFor? (k.place pred) = some r' ∧ k.Same r r' ∧ k.used r' := by
  induction rewritten with
  | nil => cases member
  | keep dest inputs _ ih =>
    rcases List.mem_cons.mp member with rfl | later
    · exact ⟨_, by simp, dest, inputs⟩
    · obtain ⟨p, inside, rest⟩ := ih later
      exact ⟨p, by simp [inside], rest⟩
  | drop _ _ ih =>
    obtain ⟨p, inside, rest⟩ := ih member
    exact ⟨p, by simp [inside], rest⟩

theorem Terms.successors {t t' : Term} (rewritten : k.Terms t t') {s' : BlockId}
    (branch : s' ∈ t'.successors) : ∃ s ∈ t.successors, s' = k.place s := by
  cases rewritten with
  | keep σ =>
    rw [Term.successors_map] at branch
    obtain ⟨s, member, rfl⟩ := List.mem_map.mp branch
    exact ⟨s, member, rfl⟩
  | decide known _ found =>
    refine ⟨_, ConstFold.knownTarget?_mem found, ?_⟩
    simpa [Term.successors] using branch

/-- Instructions may stay as they are when what they read is used. -/
theorem Insts.unchanged {is : List Inst} (used : ∀ r, k.used r) : k.Insts is is := by
  induction is with
  | nil => exact .nil
  | cons i is ih =>
    exact .step (.keep (i := i) (List.forall₂_same.mpr fun r _ => ⟨.refl, used r⟩)) ih

/-- A terminator may stay as it is when blocks stay where they are and what it reads is used. -/
theorem Terms.unchanged {t : Term} (place : k.place = fun id => id)
    (used : ∀ r ∈ t.uses, k.used r) : k.Terms t t := by
  have kept := Terms.keep (k := k) (t := t) (fun r => r) fun r member => ⟨.refl, used r member⟩
  rw [place, Term.map_same] at kept
  exact kept

theorem Terms.uses {t t' : Term} (rewritten : k.Terms t t') :
    ∀ r' ∈ t'.uses, ∃ r ∈ t.uses, k.Same r r' ∧ k.used r' := by
  intro r' member
  cases rewritten with
  | keep σ same =>
    rw [Term.uses_map] at member
    obtain ⟨r, inside, rfl⟩ := List.mem_map.mp member
    exact ⟨r, inside, same r inside⟩
  | decide => cases member

theorem Blocks.writes {edge : BlockId → Prop} {b b' : Block} (rewritten : k.Blocks edge b b')
    {before before' : List Inst} (front : k.Insts before before') {r : Reg} (used : k.used r)
    (member : r ∈ b.writesUpTo before) : r ∈ b'.writesUpTo before' := by
  rcases List.mem_append.mp member with phi | inst
  · exact List.mem_append_left _ (rewritten.phis.dests used phi)
  · exact List.mem_append_right _ (front.targets used inst)

/-- What a register was copied from is written where the register is. -/
theorem Justified.same_writtenUpTo (just : k.Justified f) (grounded : f.Grounded) {r r' : Reg}
    (same : k.Same r r') {prev : Option BlockId} {id : BlockId} {written : List Reg}
    (path : f.Arrives prev id written) {b : Block} (found : f.block? id = some b)
    {before after : List Inst} (split : b.insts = before ++ after)
    (member : r ∈ written ++ b.writesUpTo before) : r' ∈ written ++ b.writesUpTo before := by
  induction same with
  | refl => exact member
  | tail _ copy ih => exact just.source_writtenUpTo grounded copy path found split ih

theorem Justified.same_written (just : k.Justified f) (grounded : f.Grounded) {r r' : Reg}
    (same : k.Same r r') {prev : Option BlockId} {id : BlockId} {written : List Reg}
    (path : f.Arrives prev id written) (member : r ∈ written) : r' ∈ written := by
  induction same with
  | refl => exact member
  | tail _ copy ih => exact just.source_written grounded copy path ih

end Facts

namespace Rewrites

/-- A path of the result is a path of the original that has written the same used registers. -/
theorem arrives_back (rewrites : Rewrites k f f') (numbered : f.WellNumbered)
    {prev' : Option BlockId} {id' : BlockId} {written' : List Reg}
    (path' : f'.Arrives prev' id' written') :
    ∃ prev id written, f.Arrives prev id written ∧ id' = k.place id ∧
      prev' = prev.map k.place ∧ (∀ r, k.used r → r ∈ written → r ∈ written') ∧
      ∀ pred, prev = some pred → EdgeKept k f f' id pred := by
  induction path' with
  | entry =>
    refine ⟨none, f.entry, f.params, .entry, rewrites.entry, rfl, ?_, by simp⟩
    intro r _ member
    rw [rewrites.params]
    exact member
  | @step prev' id' s' written' b' before' found' branch' ih =>
    obtain ⟨prev, id, written, path, rfl, _, kept, _⟩ := ih
    obtain ⟨b, found⟩ := path.reachable.present numbered
    obtain ⟨c', place, blocks⟩ := rewrites.block id b path.reachable found
    cases found'.symm.trans place
    obtain ⟨s, branch, rfl⟩ := blocks.term.successors branch'
    refine ⟨some id, s, written ++ b.writes, path.step found branch, rfl, rfl, ?_, ?_⟩
    · intro r used member
      rcases List.mem_append.mp member with early | own
      · exact List.mem_append_left _ (kept r used early)
      · exact List.mem_append_right _ (blocks.writes blocks.insts used own)
    · intro pred last
      cases last
      exact ⟨path.reachable, b', found', branch'⟩

theorem reachable_back (rewrites : Rewrites k f f') (numbered : f.WellNumbered) {id' : BlockId}
    (reached' : f'.Reachable id') : ∃ id, f.Reachable id ∧ id' = k.place id := by
  obtain ⟨prev', written', path'⟩ := reached'.arrives
  obtain ⟨prev, id, written, path, same, _⟩ := rewrites.arrives_back numbered path'
  exact ⟨id, path.reachable, same⟩

theorem declares (rewrites : Rewrites k f f') (r : Reg) : f'.declares r = f.declares r := by
  simp [Function.declares, Function.regType?, rewrites.regTypes]

/-- A rewriting of a grounded function is grounded. -/
theorem grounded (rewrites : Rewrites k f f') (just : k.Justified f) (numbered : f.WellNumbered)
    (grounded : f.Grounded) : f'.Grounded := by
  intro prev' id' written' b' path' found'
  obtain ⟨prev, id, written, path, rfl, rfl, kept, edge⟩ := rewrites.arrives_back numbered path'
  obtain ⟨b, found⟩ := path.reachable.present numbered
  obtain ⟨c', place, blocks⟩ := rewrites.block id b path.reachable found
  cases found'.symm.trans place
  have original := grounded prev id written b path found
  have carried : ∀ before before' after r, b.insts = before ++ after → k.Insts before before' →
      k.used r → r ∈ written ++ b.writesUpTo before → r ∈ written' ++ b'.writesUpTo before' := by
    intro before before' after r split front used member
    rcases List.mem_append.mp member with early | own
    · exact List.mem_append_left _ (kept r used early)
    · exact List.mem_append_right _ (blocks.writes front used own)
  refine ⟨?_, ?_, ?_, ?_⟩
  · intro p' member
    obtain ⟨p, inside, dest, inputs⟩ := blocks.phis.origin member
    obtain ⟨declared, pred, r, rfl, value, early⟩ := original.phis p inside
    obtain ⟨r', value', same, used⟩ := inputs pred r (edge pred rfl) value
    refine ⟨by rw [rewrites.declares, dest, declared], k.place pred, r', rfl, value', ?_⟩
    exact kept r' used (just.same_written grounded same path early)
  · intro before' i' after' split' r' member
    obtain ⟨before, i, after, split, step, front⟩ := blocks.insts.split split'
    obtain ⟨r, inside, same, used⟩ := step.args r' member
    have read := original.args before i after split r inside
    exact carried before before' (i :: after) r' split front used
      (just.same_writtenUpTo grounded same path found split read)
  · intro i' member r target
    obtain ⟨before', after', split'⟩ := List.append_of_mem member
    obtain ⟨before, i, after, split, step, front⟩ := blocks.insts.split split'
    rw [rewrites.declares]
    exact original.targets i (by simp [split]) r (step.target? ▸ target)
  · intro r' member
    obtain ⟨r, inside, same, used⟩ := blocks.term.uses r' member
    exact carried b.insts b'.insts [] r' (by simp) blocks.insts used
      (just.same_writtenUpTo grounded same path found (List.append_nil _).symm
        (original.uses r inside))

end Rewrites

end TieredEngine.Pass
