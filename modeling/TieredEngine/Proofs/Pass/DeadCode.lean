import TieredEngine.Pass.Removal
import TieredEngine.Proofs.Pass.Conserving

/-!
Removal of dead code refines a function, and conserves it. One sweep is a rewriting in which only
the registers read somewhere count as used; the whole pass is a chain of sweeps, and what it leaves
is live.
-/
namespace TieredEngine.Pass
open TieredEngine.Ir TieredEngine.Eval

namespace DeadCode

/-- Registers that some block reads. -/
def usedBy (bs : List Block) : List Reg := (bs.flatMap blockUses).eraseDups

theorem mem_usedBy {bs : List Block} {b : Block} (member : b ∈ bs) {r : Reg}
    (read : r ∈ blockUses b) : r ∈ usedBy bs := by
  rw [usedBy, List.mem_eraseDups]
  exact List.mem_flatMap.mpr ⟨b, member, read⟩

/-- The facts behind a sweep. -/
def facts (used : List Reg) : Facts := { used := (· ∈ used) }

theorem facts_justified (used : List Reg) (f : Function) : (facts used).Justified f :=
  ⟨fun _ _ known => known.elim, fun _ _ copy => copy.elim⟩

theorem sweptInsts {used : List Reg} {is : List Inst}
    (read : ∀ i ∈ is, ∀ r ∈ i.args, r ∈ used) :
    (facts used).Insts is (is.filter (keepInst used)) := by
  induction is with
  | nil => exact .nil
  | cons i is ih =>
    have tail := ih fun j member => read j (by simp [member])
    by_cases keep : keepInst used i = true
    · rw [List.filter_cons_of_pos keep]
      refine .step ?_ tail
      exact .keep (i := i) (List.forall₂_same.mpr fun r member =>
        ⟨.refl, read i (by simp) r member⟩)
    · rw [List.filter_cons_of_neg keep]
      simp only [keepInst, Bool.not_eq_true, Bool.or_eq_false_iff, Bool.not_eq_false',
        List.contains_eq_mem, decide_eq_false_iff_not] at keep
      exact .drop keep.1.1 keep.1.2 keep.2 tail

theorem sweptPhis {used : List Reg} {edge : BlockId → Prop} {ps : List Phi}
    (read : ∀ p ∈ ps, ∀ i ∈ p.incoming, i.value ∈ used) :
    (facts used).Phis edge ps (ps.filter (used.contains ·.dest)) := by
  induction ps with
  | nil => exact .nil
  | cons p ps ih =>
    have tail := ih fun q member => read q (by simp [member])
    rw [List.filter_cons]
    by_cases keep : used.contains p.dest = true
    · rw [if_pos keep]
      refine .keep rfl (fun pred r _ value => ⟨r, value, .refl, ?_⟩) tail
      obtain ⟨i, found, rfl⟩ := Option.map_eq_some_iff.mp value
      exact read p (by simp) i (List.mem_of_find?_eq_some found)
    · rw [if_neg keep]
      exact .drop (by simpa [facts] using keep) tail

/-- A sweep is a rewriting. -/
theorem rewrites_sweep {f : Function} {bs : List Block} (all : f.allBlocks = .ok bs) :
    Rewrites (facts (usedBy bs)) f (f.mapBlocks (sweepBlock (usedBy bs))) where
  id := rfl
  name := rfl
  sig := rfl
  params := rfl
  regTypes := rfl
  entry := rfl
  block := by
    intro id b _ found
    have read : ∀ r ∈ blockUses b, r ∈ usedBy bs := fun r member =>
      mem_usedBy (Function.mem_of_block? all found) member
    refine ⟨sweepBlock (usedBy bs) b, ?_, ?_, ?_, ?_⟩
    · show (f.mapBlocks (sweepBlock (usedBy bs))).block? id = _
      rw [Function.block?_mapBlocks, found, Option.map_some]
    · refine sweptPhis fun p member i inside => read _ ?_
      simp only [blockUses, List.mem_append, List.mem_flatMap, List.mem_map]
      exact .inl (.inl ⟨p, member, i, inside, rfl⟩)
    · refine sweptInsts fun i member r inside => read _ ?_
      simp only [blockUses, List.mem_append, List.mem_flatMap]
      exact .inl (.inr ⟨i, member, inside⟩)
    · exact Facts.Terms.unchanged rfl fun r member => read r (by simp [blockUses, member])

theorem refines_sweep {m : Module} (fuel : Nat) {f : Function} {bs : List Block}
    (all : f.allBlocks = .ok bs) (regular : Regular m.globals.size f)
    (inside : f.id.num < m.functions.size) :
    Refines m f { f with blocks := ((sweep fuel bs).map some).toArray } := by
  induction fuel generalizing f bs with
  | zero =>
    rw [sweep, Function.eq_of_allBlocks all]
    exact .refl regular inside
  | succ fuel ih =>
    simp only [sweep]
    split
    · rw [Function.eq_of_allBlocks all]
      exact .refl regular inside
    · have first : Refines m f (f.mapBlocks (sweepBlock (usedBy bs))) := by
        refine (rewrites_sweep all).refines (facts_justified _ f) regular inside
          (regular.numbered.mapBlocks (fun _ => rfl) fun _ => rfl)
          (Function.writes_mapBlocks regular.numbered fun b => ?_) fun _ _ _ _ _ known => known.elim
        exact (List.filter_sublist.map _).append (List.filter_sublist.filterMap _)
      exact first.trans (ih (Function.allBlocks_mapBlocks all _) first.regular inside)

/-- Removal of dead code gives a refinement. -/
theorem sound : Sound run := by
  intro m f regular inside
  obtain ⟨bs, all⟩ := regular.numbered.allBlocks
  refine ⟨_, _, bind_eq_ok.mpr ⟨bs, all, rfl⟩, refines_sweep _ all regular inside⟩

theorem conserves_sweep {m : Module} {f : Function} {bs : List Block}
    (all : f.allBlocks = .ok bs) (formed : f.WellFormed m) :
    Conserves m f (f.mapBlocks (sweepBlock (usedBy bs))) := by
  have rewrites := rewrites_sweep all
  have tidies : Tidies (facts (usedBy bs)) f (f.mapBlocks (sweepBlock (usedBy bs))) := by
    refine ⟨rewrites, fun _ _ _ _ same => same, fun id b b' live found found' p' member => ?_⟩
    have swept := Function.block?_mapBlocks f (sweepBlock (usedBy bs)) id
    rw [found, Option.map_some] at swept
    cases found'.symm.trans swept
    have inside := (List.mem_filter.mp member).1
    refine ⟨p', inside, rfl, rfl, fun i input live' => ?_⟩
    refine ⟨i, input, rewrites.reachable_of_fixed formed.numbered rfl live', rfl, .refl, ?_⟩
    apply mem_usedBy (Function.mem_of_block? all found)
    simp only [blockUses, List.mem_append, List.mem_flatMap, List.mem_map]
    exact .inl (.inl ⟨p', inside, i, input, rfl⟩)
  refine tidies.conserves formed
    (wellFormed_mapBlocks formed (fun _ => rfl) (fun _ => rfl) ?_ ?_)
    (Function.writes_mapBlocks formed.numbered fun b => ?_)
    (fun _ => ⟨fun _ _ known => known.elim, fun _ _ copy => copy.elim⟩) fun _ _ _ copy => copy.elim
  · exact fun b p member i input => ⟨p, (List.mem_filter.mp member).1, i, input, rfl⟩
  · exact fun b i member => ⟨i, (List.mem_filter.mp member).1, id⟩
  · exact (List.filter_sublist.map _).append (List.filter_sublist.filterMap _)

theorem conserves_sweeps {m : Module} (fuel : Nat) {f : Function} {bs : List Block}
    (all : f.allBlocks = .ok bs) (formed : f.WellFormed m) :
    Conserves m f { f with blocks := ((sweep fuel bs).map some).toArray } := by
  induction fuel generalizing f bs with
  | zero =>
    rw [sweep, Function.eq_of_allBlocks all]
    exact .refl formed
  | succ fuel ih =>
    simp only [sweep]
    split
    · rw [Function.eq_of_allBlocks all]
      exact .refl formed
    · have first := conserves_sweep all formed
      exact first.trans (ih (Function.allBlocks_mapBlocks all _) first.formed)

/-- Removal of dead code conserves what it is given. -/
theorem conserves {m : Module} {f : Function} (formed : f.WellFormed m) :
    ∃ g changed, run f = .ok (g, changed) ∧ Conserves m f g := by
  obtain ⟨bs, all⟩ := formed.numbered.allBlocks
  exact ⟨_, _, bind_eq_ok.mpr ⟨bs, all, rfl⟩, conserves_sweeps _ all formed⟩

/-! ### Nothing left to remove -/

theorem size_cons (b : Block) (bs : List Block) :
    size (b :: bs) = b.phis.length + b.insts.length + size bs := by
  have shifted : ∀ n, bs.foldl (fun n b => n + b.phis.length + b.insts.length) n = n + size bs := by
    unfold size
    induction bs with
    | nil => exact fun n => rfl
    | cons c bs ih =>
      intro n
      rw [List.foldl_cons, List.foldl_cons, ih, ih (0 + c.phis.length + c.insts.length)]
      omega
  unfold size
  rw [List.foldl_cons, shifted, Nat.zero_add]
  rfl

/-- A sweep makes nothing longer, and what it does not make shorter it leaves as it is. -/
theorem size_swept (used : List Reg) (bs : List Block) :
    size (bs.map (sweepBlock used)) ≤ size bs ∧
      (size (bs.map (sweepBlock used)) = size bs → bs.map (sweepBlock used) = bs) := by
  induction bs with
  | nil => exact ⟨Nat.le_refl _, fun _ => rfl⟩
  | cons b bs ih =>
    obtain ⟨less, same⟩ := ih
    have phis : (sweepBlock used b).phis.Sublist b.phis := List.filter_sublist
    have insts : (sweepBlock used b).insts.Sublist b.insts := List.filter_sublist
    have phisLess := phis.length_le
    have instsLess := insts.length_le
    rw [List.map_cons, size_cons, size_cons]
    refine ⟨by omega, fun equal => ?_⟩
    rw [same (by omega)]
    have keptPhis := phis.eq_of_length (by omega)
    have keptInsts := insts.eq_of_length (by omega)
    have whole : sweepBlock used b =
        { b with phis := (sweepBlock used b).phis, insts := (sweepBlock used b).insts } := rfl
    rw [whole, keptPhis, keptInsts]

/-- The same of any number of sweeps. -/
theorem size_sweep (fuel : Nat) (bs : List Block) :
    size (sweep fuel bs) ≤ size bs ∧ (size (sweep fuel bs) = size bs → sweep fuel bs = bs) := by
  induction fuel generalizing bs with
  | zero => exact ⟨Nat.le_refl _, fun _ => rfl⟩
  | succ fuel ih =>
    simp only [sweep]
    split
    · exact ⟨Nat.le_refl _, fun _ => rfl⟩
    · next shorter =>
      change size (bs.map (sweepBlock (usedBy bs))) ≠ size bs at shorter
      obtain ⟨less, -⟩ := size_swept (usedBy bs) bs
      obtain ⟨rest, -⟩ := ih (bs.map (sweepBlock (usedBy bs)))
      change size (sweep fuel (bs.map (sweepBlock (usedBy bs)))) ≤ size bs ∧
        (size (sweep fuel (bs.map (sweepBlock (usedBy bs)))) = size bs → _)
      exact ⟨by omega, fun equal => by omega⟩

/-- Blocks from which nothing can be removed: all that they define is read or has an effect. -/
def Live (bs : List Block) : Prop := bs.map (sweepBlock (usedBy bs)) = bs

theorem Live.keeps {bs : List Block} (live : Live bs) {b : Block} (among : b ∈ bs) {i : Inst}
    (inside : i ∈ b.insts) : keepInst (usedBy bs) i = true := by
  have same : sweepBlock (usedBy bs) b = b :=
    List.map_inj_left.mp (live.trans (List.map_id bs).symm) b among
  rw [← same] at inside
  exact (List.mem_filter.mp inside).2

/-- With enough sweeps nothing is left to remove. -/
theorem sweep_live {fuel : Nat} {bs : List Block} (enough : size bs < fuel) :
    Live (sweep fuel bs) := by
  induction fuel generalizing bs with
  | zero => omega
  | succ fuel ih =>
    obtain ⟨less, same⟩ := size_swept (usedBy bs) bs
    simp only [sweep]
    split
    · next equal => exact same equal
    · next shorter =>
      change size (bs.map (sweepBlock (usedBy bs))) ≠ size bs at shorter
      exact ih (by change size (bs.map (sweepBlock (usedBy bs))) < fuel; omega)

theorem run_eq {f : Function} {bs : List Block} (all : f.allBlocks = .ok bs) :
    run f = .ok ({ f with blocks := ((sweep (size bs + 1) bs).map some).toArray },
      size (sweep (size bs + 1) bs) ≠ size bs) :=
  bind_eq_ok.mpr ⟨bs, all, rfl⟩

/-- Removal of dead code leaves a function from which nothing can be removed as it is. -/
theorem Live.run {f : Function} {bs : List Block} (all : f.allBlocks = .ok bs) (live : Live bs) :
    run f = .ok (f, false) := by
  have kept : sweep (size bs + 1) bs = bs := by
    simp only [sweep]
    exact if_pos (congrArg size live)
  rw [run_eq all, kept, Function.eq_of_allBlocks all]
  simp

/-- When the removal reports no change there was nothing to remove. -/
theorem run_unchanged {f g : Function} (ran : run f = .ok (g, false)) : g = f := by
  obtain ⟨bs, all, done⟩ := bind_eq_ok.mp ran
  obtain ⟨made, same⟩ := Prod.mk.inj (Except.ok.inj done)
  have equal : size (sweep (size bs + 1) bs) = size bs := by simpa using same
  rw [← made, (size_sweep _ bs).2 equal, Function.eq_of_allBlocks all]

/-- A block with some phis and instructions taken out. -/
structure Shrinks (b b' : Block) : Prop where
  id : b'.id = b.id
  term : b'.term = b.term
  phis : b'.phis ⊆ b.phis
  insts : b'.insts ⊆ b.insts

theorem Shrinks.trans {b c d : Block} (first : Shrinks b c) (second : Shrinks c d) : Shrinks b d where
  id := second.id.trans first.id
  term := second.term.trans first.term
  phis := List.Subset.trans second.phis first.phis
  insts := List.Subset.trans second.insts first.insts

theorem Shrinks.blockUses {b b' : Block} (shrinks : Shrinks b b') : blockUses b' ⊆ blockUses b := by
  intro r read
  simp only [DeadCode.blockUses, List.mem_append, List.mem_flatMap] at read ⊢
  rw [shrinks.term] at read
  exact read.imp_left fun inside => inside.imp (fun ⟨p, member, rest⟩ => ⟨p, shrinks.phis member, rest⟩)
    fun ⟨i, member, rest⟩ => ⟨i, shrinks.insts member, rest⟩

/-- Sweeping takes phis and instructions out of each block. -/
theorem sweep_shrinks (fuel : Nat) (bs : List Block) :
    ∃ shrink : Block → Block, sweep fuel bs = bs.map shrink ∧ ∀ b, Shrinks b (shrink b) := by
  have unchanged : ∃ shrink : Block → Block, bs = bs.map shrink ∧ ∀ b, Shrinks b (shrink b) :=
    ⟨fun b => b, by simp, fun b => ⟨rfl, rfl, List.Subset.refl _, List.Subset.refl _⟩⟩
  induction fuel generalizing bs with
  | zero => exact unchanged
  | succ fuel ih =>
    simp only [sweep]
    split
    · exact unchanged
    · obtain ⟨shrink, swept, shrinks⟩ := ih (bs.map (sweepBlock (usedBy bs)))
        ⟨fun b => b, by simp, fun b => ⟨rfl, rfl, List.Subset.refl _, List.Subset.refl _⟩⟩
      refine ⟨shrink ∘ sweepBlock (usedBy bs), ?_, fun b => .trans ?_ (shrinks _)⟩
      · exact swept.trans (List.map_map ..)
      · exact ⟨rfl, rfl, List.filter_sublist.subset, List.filter_sublist.subset⟩

/-- What removal of dead code does: it takes phis and instructions out of blocks until nothing more
can go. -/
theorem run_live {f : Function} {bs : List Block} (all : f.allBlocks = .ok bs) :
    ∃ shrink : Block → Block, ∃ changed, run f = .ok (f.mapBlocks shrink, changed) ∧
      (∀ b, Shrinks b (shrink b)) ∧ Live (bs.map shrink) := by
  obtain ⟨shrink, swept, shrinks⟩ := sweep_shrinks (size bs + 1) bs
  have whole : { f with blocks := ((bs.map shrink).map some).toArray } = f.mapBlocks shrink := by
    rw [← Function.eq_of_allBlocks (Function.allBlocks_mapBlocks all shrink)]
    rfl
  have ran := run_eq all
  rw [swept, whole] at ran
  exact ⟨shrink, _, ran, shrinks, swept ▸ sweep_live (by omega)⟩

end DeadCode

end TieredEngine.Pass
