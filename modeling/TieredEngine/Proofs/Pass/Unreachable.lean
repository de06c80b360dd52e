import Mathlib.Data.List.Flatten
import TieredEngine.Pass.Removal
import TieredEngine.Proofs.Pass.Conserving

/-!
Removal of unreachable blocks refines a function, and conserves it. The blocks that stay are
renumbered one to one, so control moves among them as it did before, and every one is reachable.
-/
namespace TieredEngine.Pass.Unreachable
open TieredEngine.Ir TieredEngine.Eval

/-- New numbers of the blocks that stay, as the pass writes them down. -/
def numbering (kept : List Block) : Renumbering :=
  (kept.mapIdx fun i b => (b.id, (⟨UInt32.ofNat i⟩ : BlockId))).reverse

section Numbering

variable {kept : List Block} (distinct : (kept.map (·.id)).Nodup)
include distinct

theorem lookup_eq_some {id x : BlockId} : lookup (numbering kept) id = some x ↔
    ∃ i b, kept[i]? = some b ∧ b.id = id ∧ x = ⟨UInt32.ofNat i⟩ := by
  have listed : ∀ p, p ∈ numbering kept ↔
      ∃ i b, kept[i]? = some b ∧ p = (b.id, (⟨UInt32.ofNat i⟩ : BlockId)) := by
    intro p
    simp only [numbering, List.mem_reverse, List.mem_mapIdx]
    constructor
    · rintro ⟨i, bound, rfl⟩
      exact ⟨i, kept[i], List.getElem?_eq_getElem bound, rfl⟩
    · rintro ⟨i, b, at_i, rfl⟩
      obtain ⟨bound, rfl⟩ := List.getElem?_eq_some_iff.mp at_i
      exact ⟨i, bound, rfl⟩
  unfold lookup
  constructor
  · intro found
    obtain ⟨p, among, rfl⟩ := Option.map_eq_some_iff.mp found
    obtain ⟨i, b, at_i, rfl⟩ := (listed p).mp (List.mem_of_find?_eq_some among)
    exact ⟨i, b, at_i, by simpa using List.find?_some among, rfl⟩
  · rintro ⟨i, b, at_i, rfl, rfl⟩
    have present : ((numbering kept).find? (·.1 == b.id)).isSome = true := by
      rw [List.find?_isSome]
      exact ⟨_, (listed _).mpr ⟨i, b, at_i, rfl⟩, by simp⟩
    obtain ⟨p, among⟩ := Option.isSome_iff_exists.mp present
    obtain ⟨j, c, at_j, rfl⟩ := (listed p).mp (List.mem_of_find?_eq_some among)
    have same : c.id = b.id := by simpa using List.find?_some among
    obtain ⟨bound, rfl⟩ := List.getElem?_eq_some_iff.mp at_i
    obtain ⟨bound', rfl⟩ := List.getElem?_eq_some_iff.mp at_j
    have equal : j = i :=
      (List.getElem?_inj (by simpa using bound') distinct).mp (by simp [bound, bound', same])
    subst equal
    rw [among, Option.map_some]

theorem target_of_mem {i : Nat} {b : Block} (at_i : kept[i]? = some b) :
    target (numbering kept) b.id = ⟨UInt32.ofNat i⟩ := by
  rw [target, (lookup_eq_some distinct).mpr ⟨i, b, at_i, rfl, rfl⟩, Option.getD_some]

/-- Different blocks get different numbers. -/
theorem lookup_inj (small : kept.length ≤ 2 ^ 32) {a b x : BlockId}
    (left : lookup (numbering kept) a = some x) (right : lookup (numbering kept) b = some x) :
    a = b := by
  obtain ⟨i, c, at_i, rfl, rfl⟩ := (lookup_eq_some distinct).mp left
  obtain ⟨j, d, at_j, rfl, same⟩ := (lookup_eq_some distinct).mp right
  obtain ⟨bound, rfl⟩ := List.getElem?_eq_some_iff.mp at_i
  obtain ⟨bound', rfl⟩ := List.getElem?_eq_some_iff.mp at_j
  have equal : i = j := by
    have nums := congrArg BlockId.num same
    rwa [BlockId.num_ofNat (by omega), BlockId.num_ofNat (by omega)] at nums
  subst equal
  rfl

end Numbering

theorem renumberTerm_eq_map (m : Renumbering) (t : Term) :
    renumberTerm m t = t.map (fun r => r) (target m) := by
  cases t with
  | ret v? => cases v? <;> rfl
  | _ => rfl

/-- A phi has the same input for a block that stays, under the block's new number. -/
theorem valueFor?_renumbered {kept : List Block} (distinct : (kept.map (·.id)).Nodup)
    (small : kept.length ≤ 2 ^ 32) (p : Phi) {pred x : BlockId}
    (known : lookup (numbering kept) pred = some x) :
    (renumberPhi (numbering kept) p).valueFor? x = p.valueFor? pred := by
  unfold Phi.valueFor? renumberPhi
  simp only
  induction p.incoming with
  | nil => rfl
  | cons i is ih =>
    rw [List.filterMap_cons, List.find?_cons]
    cases found : lookup (numbering kept) i.pred with
    | none =>
      have apart : (i.pred == pred) = false := by
        simp only [beq_eq_false_iff_ne, ne_eq]
        rintro rfl
        rw [known] at found
        cases found
      simp only [Option.map_none, apart]
      exact ih
    | some y =>
      simp only [Option.map_some, List.find?_cons]
      by_cases same : i.pred = pred
      · subst same
        cases known.symm.trans found
        simp
      · have apart : (y == x) = false := by
          simp only [beq_eq_false_iff_ne, ne_eq]
          rintro rfl
          exact same (lookup_inj distinct small found known)
        simp only [apart, beq_eq_false_iff_ne.mpr same]
        exact ih

/-- The blocks that stay. -/
structure Keeps (f : Function) (kept : List Block) : Prop where
  distinct : (kept.map (·.id)).Nodup
  small : kept.length ≤ 2 ^ 32
  member : ∀ b, b ∈ kept ↔ f.block? b.id = some b ∧ f.Reachable b.id
  fewer : (kept.flatMap Block.writes).Sublist
    ((f.blocks.toList.filterMap fun b? => b?).flatMap Block.writes)

/-- The function that the blocks that stay make up. -/
def renumbered (f : Function) (kept : List Block) : Function :=
  { f with
    blocks := (kept.map fun b => some (renumberBlock (numbering kept) b)).toArray
    entry := target (numbering kept) f.entry }

/-- The facts behind a renumbering. -/
def facts (kept : List Block) : Facts := { place := target (numbering kept) }

section Renumbering

variable {f : Function} {kept : List Block} (keeps : Keeps f kept) (numbered : f.WellNumbered)

theorem block?_renumbered (id : BlockId) : (renumbered f kept).block? id =
    (kept[id.num]?).map (renumberBlock (numbering kept)) := by
  unfold Function.block? renumbered
  rw [List.getElem?_toArray, List.getElem?_map]
  cases kept[id.num]? <;> rfl

include keeps numbered

/-- A reachable block stays, and its new number is its position. -/
theorem Keeps.position {id : BlockId} (reached : f.Reachable id) : ∃ i b, kept[i]? = some b ∧
    f.block? id = some b ∧ b.id = id ∧ (target (numbering kept) id).num = i := by
  obtain ⟨b, found⟩ := reached.present numbered
  have same := numbered.number id b found
  subst same
  obtain ⟨i, bound, at_i⟩ := List.mem_iff_getElem.mp ((keeps.member b).mpr ⟨found, reached⟩)
  have at_i : kept[i]? = some b := by rw [List.getElem?_eq_getElem bound, at_i]
  have small := keeps.small
  exact ⟨i, b, at_i, found, rfl, by
    rw [target_of_mem keeps.distinct at_i, BlockId.num_ofNat (by omega)]⟩

theorem Keeps.wellNumbered : (renumbered f kept).WellNumbered := by
  have size : (renumbered f kept).blocks.size = kept.length := by simp [renumbered]
  have placed : ∀ id, f.Reachable id → (target (numbering kept) id).num < kept.length := by
    intro id reached
    obtain ⟨i, b, at_i, _, _, place⟩ := keeps.position numbered reached
    rw [place]
    exact (List.getElem?_eq_some_iff.mp at_i).1
  have back : ∀ id b', (renumbered f kept).block? id = some b' →
      ∃ b, kept[id.num]? = some b ∧ renumberBlock (numbering kept) b = b' := by
    intro id b' found'
    rw [block?_renumbered] at found'
    exact Option.map_eq_some_iff.mp found'
  refine ⟨size ▸ placed _ .entry, ?_, ?_, ?_, size ▸ keeps.small⟩
  · intro id bound
    rw [size] at bound
    exact ⟨_, by rw [block?_renumbered, List.getElem?_eq_getElem bound, Option.map_some]⟩
  · intro id b' found'
    obtain ⟨b, at_id, rfl⟩ := back id b' found'
    have bound := (List.getElem?_eq_some_iff.mp at_id).1
    have small := keeps.small
    show target (numbering kept) b.id = id
    rw [target_of_mem keeps.distinct at_id, ← BlockId.num_inj, BlockId.num_ofNat (by omega)]
  · intro id b' found' s branch
    obtain ⟨b, at_id, rfl⟩ := back id b' found'
    obtain ⟨found, reached⟩ := (keeps.member b).mp (List.mem_of_getElem? at_id)
    simp only [renumberBlock, renumberTerm_eq_map, Term.successors_map, List.mem_map] at branch
    obtain ⟨old, member, rfl⟩ := branch
    rw [size]
    exact placed old (reached.step found member)

/-- A renumbering of the reachable blocks is a rewriting. -/
theorem Keeps.rewrites : Rewrites (facts kept) f (renumbered f kept) where
  id := rfl
  name := rfl
  sig := rfl
  params := rfl
  regTypes := rfl
  entry := rfl
  block := by
    intro id b reached found
    obtain ⟨i, c, at_i, found', _, place⟩ := keeps.position numbered reached
    cases found.symm.trans found'
    refine ⟨renumberBlock (numbering kept) b, ?_, ?_, .unchanged fun _ => trivial, ?_⟩
    · rw [block?_renumbered, facts, place, at_i, Option.map_some]
    · simp only [renumberBlock]
      induction b.phis with
      | nil => exact .nil
      | cons p ps ih =>
        refine .keep rfl (fun pred r edge value => ⟨r, ?_, .refl, trivial⟩) ih
        obtain ⟨j, d, at_j, _, rfl, _⟩ := keeps.position numbered edge.1
        have known : lookup (numbering kept) d.id = some ⟨UInt32.ofNat j⟩ :=
          (lookup_eq_some keeps.distinct).mpr ⟨j, d, at_j, rfl, rfl⟩
        show (renumberPhi _ p).valueFor? (target (numbering kept) d.id) = some r
        rw [target_of_mem keeps.distinct at_j,
          valueFor?_renumbered keeps.distinct keeps.small p known, value]
    · simp only [renumberBlock, renumberTerm_eq_map]
      exact .keep _ fun r _ => ⟨.refl, trivial⟩

end Renumbering

theorem Keeps.writes_sublist {f : Function} {kept : List Block} (keeps : Keeps f kept) :
    (renumbered f kept).writes.Sublist f.writes := by
  have same : ∀ b, (renumberBlock (numbering kept) b).writes = b.writes := by
    intro b
    simp only [renumberBlock, Block.writes, Block.writesUpTo, List.map_map]
    rfl
  have blocks : ((renumbered f kept).blocks.toList.filterMap fun b? => b?).flatMap Block.writes =
      kept.flatMap Block.writes := by
    simp only [renumbered, List.filterMap_map, Function.comp_def]
    rw [List.filterMap_eq_map', List.flatMap_map]
    simp only [same]
  unfold Function.writes
  rw [blocks]
  exact List.Sublist.append (List.Sublist.refl _) keeps.fewer

/-- The marks of the blocks that were met. -/
theorem live_getElem? (order : List BlockId) (live : Array Bool) (n : Nat) :
    (order.foldl (fun a id => a.setIfInBounds id.num true) live)[n]? =
      (live[n]?).map fun l => l || order.any (·.num == n) := by
  induction order generalizing live with
  | nil => simp
  | cons id order ih =>
    rw [List.foldl_cons, ih, Array.getElem?_setIfInBounds, List.any_cons]
    by_cases same : id.num = n
    · subst same
      by_cases bound : id.num < live.size
      · simp [bound]
      · simp [bound]
    · rw [if_neg same, beq_eq_false_iff_ne.mpr same, Bool.false_or]

theorem isLive_ok {f : Function} {order : List BlockId}
    {b : Block} (found : f.block? b.id = some b) :
    isLive (order.foldl (fun a id => a.setIfInBounds id.num true)
      (Array.replicate f.blocks.size false)) b = .ok (order.contains b.id) := by
  have bound : b.id.num < f.blocks.size :=
    (Array.getElem?_eq_some_iff.mp (Function.block?_eq_some.mp found)).1
  have mark : (order.any fun id => id.num == b.id.num) = order.contains b.id := by
    rw [List.contains_eq_any_beq]
    congr 1
    funext id
    rw [Bool.eq_iff_iff, beq_iff_eq, beq_iff_eq, BlockId.num_inj, eq_comm]
  unfold isLive
  rw [live_getElem?, Array.getElem?_replicate, if_pos bound, Option.map_some, mark, Bool.false_or]

/-- The blocks that are met in a walk from the entry can be kept. -/
theorem keeps_reachable {f : Function} (numbered : f.WellNumbered) {bs : List Block}
    (all : f.allBlocks = .ok bs) {order : List BlockId}
    (reached : ∀ id, id ∈ order ↔ f.Reachable id) :
    Keeps f (bs.filter fun b => order.contains b.id) := by
  have size := Function.size_of_allBlocks all
  have numbers : bs.map (·.id.num) = List.range bs.length := by
    refine List.ext_getElem (by simp) fun i bound _ => ?_
    have bound : i < bs.length := by simpa using bound
    have small := numbered.small
    have found : f.block? ⟨UInt32.ofNat i⟩ = some bs[i] := by
      rw [Function.block?_of_allBlocks all, BlockId.num_ofNat (by omega),
        List.getElem?_eq_getElem bound]
    rw [List.getElem_map, List.getElem_range, numbered.number _ _ found,
      BlockId.num_ofNat (by omega)]
  have distinct : (bs.map (·.id)).Nodup := by
    refine List.Nodup.of_map BlockId.num ?_
    rw [List.map_map]
    show (bs.map (·.id.num)).Nodup
    rw [numbers]
    exact List.nodup_range
  refine ⟨(List.filter_sublist.map _).nodup distinct, ?_, fun b => ?_, ?_⟩
  · have := List.length_filter_le (fun b : Block => order.contains b.id) bs
    have small := numbered.small
    omega
  · rw [List.mem_filter, List.contains_iff_mem, reached]
    constructor
    · exact fun ⟨among, live⟩ => ⟨numbered.block?_of_mem all among, live⟩
    · exact fun ⟨found, live⟩ => ⟨Function.mem_of_block? all found, live⟩
  · rw [Function.allBlocks_eq_ok.mp all, List.filterMap_map]
    simp only [Function.comp_def, List.filterMap_some_fun]
    exact List.filter_sublist.flatMap _

/-- When some blocks are not met, those that are make up the result. -/
theorem run_renumbered {f : Function} (numbered : f.WellNumbered) {bs : List Block}
    (all : f.allBlocks = .ok bs) {order : List BlockId} (walked : f.reversePostorder = .ok order)
    (fewer : order.length ≠ f.blocks.size) :
    run f = .ok (renumbered f (bs.filter fun b => order.contains b.id), true) := by
  refine bind_eq_ok.mpr ⟨order, walked, ?_⟩
  rw [if_neg fewer]
  exact bind_eq_ok.mpr ⟨bs, all, bind_eq_ok.mpr ⟨_, filterM_eq_ok fun b among =>
    isLive_ok (numbered.block?_of_mem all among), rfl⟩⟩

/-- Removal of unreachable blocks gives a refinement. -/
theorem sound : Sound run := by
  intro m f regular inside
  obtain ⟨order, walked, _, reached⟩ := Function.reversePostorder_ok regular.numbered
  by_cases everything : order.length = f.blocks.size
  · refine ⟨f, false, bind_eq_ok.mpr ⟨order, walked, ?_⟩, .refl regular inside⟩
    rw [if_pos everything]
    rfl
  · obtain ⟨bs, all⟩ := regular.numbered.allBlocks
    have keeps := keeps_reachable regular.numbered all reached
    exact ⟨renumbered f _, true, run_renumbered regular.numbered all walked everything,
      (keeps.rewrites regular.numbered).refines
        ⟨fun _ _ known => known.elim, fun _ _ copy => copy.elim⟩ regular inside
        (keeps.wellNumbered regular.numbered) keeps.writes_sublist
        fun _ _ _ _ _ known => known.elim⟩

section Conserving

variable {m : Module} {f : Function} {kept : List Block} (keeps : Keeps f kept)
include keeps

/-- An input of a renumbered phi comes from a block that stays. -/
theorem Keeps.input {p : Phi} {i' : Incoming}
    (input : i' ∈ (renumberPhi (numbering kept) p).incoming) : ∃ i ∈ p.incoming,
      f.Reachable i.pred ∧ i'.pred = target (numbering kept) i.pred ∧ i'.value = i.value ∧
      i'.pred.num < kept.length := by
  obtain ⟨i, inside, renumbered⟩ := List.mem_filterMap.mp input
  obtain ⟨x, found, rfl⟩ := Option.map_eq_some_iff.mp renumbered
  obtain ⟨n, b, at_n, same, rfl⟩ := (lookup_eq_some keeps.distinct).mp found
  have bound := (List.getElem?_eq_some_iff.mp at_n).1
  have small := keeps.small
  refine ⟨i, inside, ?_, ?_, rfl, ?_⟩
  · exact same ▸ ((keeps.member b).mp (List.mem_of_getElem? at_n)).2
  · rw [← same, target_of_mem keeps.distinct at_n]
  · show (⟨UInt32.ofNat n⟩ : BlockId).num < kept.length
    rw [BlockId.num_ofNat (by omega)]
    exact bound

theorem Keeps.wellFormed (formed : f.WellFormed m) : (renumbered f kept).WellFormed m := by
  have back : ∀ id b', (renumbered f kept).block? id = some b' →
      ∃ b, f.block? b.id = some b ∧ renumberBlock (numbering kept) b = b' := by
    intro id b' found'
    rw [block?_renumbered] at found'
    obtain ⟨b, at_id, same⟩ := Option.map_eq_some_iff.mp found'
    exact ⟨b, ((keeps.member b).mp (List.mem_of_getElem? at_id)).1, same⟩
  refine ⟨formed.params, formed.declared, keeps.wellNumbered formed.numbered, ?_, ?_⟩
  · intro id b' found' p' member i' input
    obtain ⟨b, found, rfl⟩ := back id b' found'
    obtain ⟨p, inside, rfl⟩ := List.mem_map.mp member
    obtain ⟨i, listed, -, -, -, bound⟩ := keeps.input input
    simpa [renumbered] using bound
  · intro id b' found' i member
    obtain ⟨b, found, rfl⟩ := back id b' found'
    exact formed.linked b.id b found i member

/-- A renumbering of the reachable blocks keeps them apart and makes up no phis. -/
theorem Keeps.tidies (numbered : f.WellNumbered) : Tidies (facts kept) f (renumbered f kept) where
  toRewrites := keeps.rewrites numbered
  apart := by
    intro a b live live' same
    obtain ⟨i, c, at_i, -, rfl, place⟩ := keeps.position numbered live
    obtain ⟨j, d, at_j, -, rfl, place'⟩ := keeps.position numbered live'
    change target (numbering kept) c.id = target (numbering kept) d.id at same
    rw [same, place'] at place
    subst place
    cases at_i.symm.trans at_j
    rfl
  phis := by
    intro id b b' live found found' p' member
    obtain ⟨i, c, at_i, there, -, place⟩ := keeps.position numbered live
    cases found.symm.trans there
    rw [facts, block?_renumbered, place, at_i, Option.map_some] at found'
    cases found'
    obtain ⟨p, inside, rfl⟩ := List.mem_map.mp member
    refine ⟨p, inside, rfl, rfl, fun i' input _ => ?_⟩
    obtain ⟨i, listed, before, pred, value, -⟩ := keeps.input input
    exact ⟨i, listed, before, pred, value ▸ .refl, trivial⟩

end Conserving

/-- Removal of unreachable blocks conserves what it is given. -/
theorem conserves {m : Module} {f : Function} (formed : f.WellFormed m) :
    ∃ g changed, run f = .ok (g, changed) ∧ Conserves m f g := by
  obtain ⟨order, walked, -, reached⟩ := Function.reversePostorder_ok formed.numbered
  by_cases everything : order.length = f.blocks.size
  · refine ⟨f, false, bind_eq_ok.mpr ⟨order, walked, ?_⟩, .refl formed⟩
    rw [if_pos everything]
    rfl
  · obtain ⟨bs, all⟩ := formed.numbered.allBlocks
    have keeps := keeps_reachable formed.numbered all reached
    exact ⟨renumbered f _, true, run_renumbered formed.numbered all walked everything,
      (keeps.tidies formed.numbered).conserves formed (keeps.wellFormed formed)
        keeps.writes_sublist (fun _ => ⟨fun _ _ known => known.elim, fun _ _ copy => copy.elim⟩)
        fun _ _ _ copy => copy.elim⟩

/-! ### Nothing left to remove -/

/-- Every block can be reached. -/
def AllReachable (f : Function) : Prop := ∀ id : BlockId, id.num < f.blocks.size → f.Reachable id

/-- The walk lists as many blocks as there are exactly if it meets all of them. -/
theorem length_eq_size_iff {f : Function} (numbered : f.WellNumbered) {order : List BlockId}
    (nodup : order.Nodup) (reached : ∀ id, id ∈ order ↔ f.Reachable id) :
    order.length = f.blocks.size ↔ AllReachable f := by
  have distinct : (order.map BlockId.num).Nodup :=
    nodup.map fun a b same => BlockId.num_inj.mp same
  have inside : order.map BlockId.num ⊆ List.range f.blocks.size := by
    intro n member
    obtain ⟨id, listed, rfl⟩ := List.mem_map.mp member
    exact List.mem_range.mpr (((reached id).mp listed).in_range numbered)
  have fits := List.subperm_of_subset distinct inside
  constructor
  · intro length id bound
    have all := fits.perm_of_length_le (by simp [length])
    obtain ⟨x, listed, same⟩ := List.mem_map.mp (all.mem_iff.mpr (List.mem_range.mpr bound))
    exact (reached id).mp (BlockId.num_inj.mp same ▸ listed)
  · intro every
    have less := fits.length_le
    have more : List.range f.blocks.size ⊆ order.map BlockId.num := by
      intro n member
      have bound := List.mem_range.mp member
      have small := numbered.small
      have number := BlockId.num_ofNat (n := n) (by omega)
      exact List.mem_map.mpr ⟨⟨UInt32.ofNat n⟩, (reached _).mpr (every _ (by rwa [number])), number⟩
    have more := (List.subperm_of_subset List.nodup_range more).length_le
    simp only [List.length_map, List.length_range] at less more
    omega

/-- Removal of unreachable blocks leaves a function without any as it is. -/
theorem AllReachable.run {f : Function} (numbered : f.WellNumbered) (every : AllReachable f) :
    run f = .ok (f, false) := by
  obtain ⟨order, walked, nodup, reached⟩ := Function.reversePostorder_ok numbered
  refine bind_eq_ok.mpr ⟨order, walked, ?_⟩
  rw [if_pos ((length_eq_size_iff numbered nodup reached).mpr every)]
  rfl

/-- When the removal reports no change there was nothing to remove. -/
theorem run_unchanged {f g : Function} (ran : run f = .ok (g, false)) : g = f := by
  obtain ⟨order, -, done⟩ := bind_eq_ok.mp ran
  split at done
  · exact (Prod.mk.inj (Except.ok.inj done)).1.symm
  · obtain ⟨_, -, done⟩ := bind_eq_ok.mp done
    obtain ⟨_, -, done⟩ := bind_eq_ok.mp done
    cases done

/-- The blocks that stay can all be reached where they are moved to. -/
theorem Keeps.allReachable {f : Function} {kept : List Block} (keeps : Keeps f kept)
    (numbered : f.WellNumbered) : AllReachable (renumbered f kept) := by
  have moved : ∀ id, f.Reachable id → (renumbered f kept).Reachable (target (numbering kept) id) := by
    intro id live
    induction live with
    | entry => exact .entry
    | @step id s b before found branch ih =>
      obtain ⟨i, c, at_i, there, -, place⟩ := keeps.position numbered before
      cases found.symm.trans there
      refine ih.step (b := renumberBlock (numbering kept) b) ?_ ?_
      · rw [block?_renumbered, place, at_i, Option.map_some]
      · simp only [renumberBlock, renumberTerm_eq_map, Term.successors_map]
        exact List.mem_map_of_mem branch
  intro id bound
  have bound : id.num < kept.length := by simpa [renumbered] using bound
  have at_id := List.getElem?_eq_getElem bound
  obtain ⟨-, live⟩ := (keeps.member _).mp (List.mem_of_getElem? at_id)
  have placed := moved _ live
  rw [target_of_mem keeps.distinct at_id] at placed
  rwa [show id = ⟨UInt32.ofNat id.num⟩ from BlockId.num_inj.mp
    (BlockId.num_ofNat id.num_lt).symm]

/-- What becomes of a block that stays: its branches go where the blocks are, and its phis have no
inputs but from blocks that stay. -/
structure Moves (f : Function) (b b' : Block) : Prop where
  insts : b'.insts = b.insts
  term : ∃ place, b'.term = b.term.map (fun r => r) place
  inputs : ∀ p' ∈ b'.phis, ∀ i' ∈ p'.incoming, ∃ p ∈ b.phis, ∃ i ∈ p.incoming,
    f.Reachable i.pred ∧ i'.value = i.value

/-- What removal of unreachable blocks does: each block that it leaves can be reached and was a block
that could be reached. -/
theorem run_moves {m : Module} {f : Function} (formed : f.WellFormed m) :
    ∃ g changed, run f = .ok (g, changed) ∧ AllReachable g ∧ g.regTypes = f.regTypes ∧
      ∀ id' b', g.block? id' = some b' →
        ∃ id b, f.Reachable id ∧ f.block? id = some b ∧ Moves f b b' := by
  have numbered := formed.numbered
  obtain ⟨order, walked, nodup, reached⟩ := Function.reversePostorder_ok numbered
  by_cases everything : order.length = f.blocks.size
  · have every := (length_eq_size_iff numbered nodup reached).mp everything
    refine ⟨f, false, every.run numbered, every, rfl, fun id b found => ?_⟩
    have bound := (Array.getElem?_eq_some_iff.mp (Function.block?_eq_some.mp found)).1
    refine ⟨id, b, every id bound, found, rfl, ⟨fun x => x, (Term.map_same _).symm⟩, ?_⟩
    exact fun p member i input =>
      ⟨p, member, i, input, every i.pred (formed.preds id b found p member i input), rfl⟩
  · obtain ⟨bs, all⟩ := numbered.allBlocks
    have keeps := keeps_reachable numbered all reached
    refine ⟨renumbered f _, true, run_renumbered numbered all walked everything,
      keeps.allReachable numbered, rfl, fun id' b' found' => ?_⟩
    rw [block?_renumbered] at found'
    obtain ⟨b, at_id, rfl⟩ := Option.map_eq_some_iff.mp found'
    obtain ⟨found, live⟩ := (keeps.member b).mp (List.mem_of_getElem? at_id)
    refine ⟨b.id, b, live, found, rfl, ⟨_, renumberTerm_eq_map _ _⟩, fun p' member i' input => ?_⟩
    obtain ⟨p, inside, rfl⟩ := List.mem_map.mp member
    obtain ⟨i, listed, before, -, value, -⟩ := keeps.input input
    exact ⟨p, inside, i, listed, before, value⟩

end TieredEngine.Pass.Unreachable
