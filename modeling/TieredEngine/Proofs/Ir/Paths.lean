import Mathlib.Data.List.Nodup
import TieredEngine.Proofs.Ir.Reachability

/-!
Paths through a function and the registers written along them. A function is grounded when on
every path each register is written before it is read, and single-assignment when no register has
two places that write it, on whatever path: a declared register that is written at one place of such
a function is written nowhere else, so the block and the position of the writer are determined by the
register.
-/
namespace TieredEngine.Ir

/-- The register that running an instruction writes. -/
def Inst.target? (i : Inst) : Option Reg :=
  match i.op with
  | .storeGlobal | .panic => none
  | .call => if i.dest = .absent then none else some i.dest
  | _ => some i.dest

theorem Inst.target?_of_hasDest {i : Inst} (defines : i.hasDest = true) :
    i.target? = some i.dest := by
  simp only [Inst.hasDest, Bool.and_eq_true, bne_iff_ne, ne_eq] at defines
  unfold Inst.target?
  split <;> simp_all

/-- The registers that a block writes by its phis and by the first of its instructions. -/
def Block.writesUpTo (b : Block) (before : List Inst) : List Reg :=
  b.phis.map (·.dest) ++ before.filterMap Inst.target?

/-- The registers that running a block writes. -/
def Block.writes (b : Block) : List Reg := b.writesUpTo b.insts

namespace Function

/-- A register with a type, which is what makes it one of the function's. -/
def declares (f : Function) (r : Reg) : Bool := (f.regType? r).isSome

/-- Every place that writes a register: the parameters, and the phis and instructions of all
blocks. -/
def writes (f : Function) : List Reg :=
  f.params ++ (f.blocks.toList.filterMap fun b? => b?).flatMap Block.writes

/-- No register of the function is written in two places. -/
def SingleAssignment (f : Function) : Prop := (f.writes.filter f.declares).Nodup

instance (f : Function) : Decidable f.SingleAssignment :=
  inferInstanceAs (Decidable (f.writes.filter f.declares).Nodup)

/-- A path from the entry to a block, with the block it came from last and the registers written
on the way. -/
inductive Arrives (f : Function) : Option BlockId → BlockId → List Reg → Prop where
  | entry : Arrives f none f.entry f.params
  | step {prev : Option BlockId} {id s : BlockId} {written : List Reg} {b : Block}
      (before : Arrives f prev id written) (found : f.block? id = some b)
      (branch : s ∈ b.term.successors) : Arrives f (some id) s (written ++ b.writes)

theorem Arrives.reachable {f : Function} {prev : Option BlockId} {id : BlockId}
    {written : List Reg} (path : f.Arrives prev id written) : f.Reachable id := by
  induction path with
  | entry => exact .entry
  | step _ found branch ih => exact ih.step found branch

theorem Reachable.arrives {f : Function} {id : BlockId} (reached : f.Reachable id) :
    ∃ prev written, f.Arrives prev id written := by
  induction reached with
  | entry => exact ⟨_, _, .entry⟩
  | step _ found branch ih =>
    obtain ⟨prev, written, path⟩ := ih
    exact ⟨_, _, path.step found branch⟩

/-- The blocks that a way from the entry to a block goes through before it arrives, in order. -/
inductive Route (f : Function) : List BlockId → BlockId → Prop where
  | entry : Route f [] f.entry
  | step {passed : List BlockId} {id s : BlockId} {b : Block} (before : Route f passed id)
      (found : f.block? id = some b) (branch : s ∈ b.term.successors) : Route f (passed ++ [id]) s

theorem Route.reachable {f : Function} {passed : List BlockId} {id : BlockId}
    (route : f.Route passed id) : f.Reachable id := by
  induction route with
  | entry => exact .entry
  | step _ found branch ih => exact ih.step found branch

/-- What a path writes besides the parameters is written by the blocks of its route. -/
theorem Arrives.route {f : Function} {prev : Option BlockId} {id : BlockId} {written : List Reg}
    (path : f.Arrives prev id written) : ∃ passed, f.Route passed id ∧
      ∀ p ∈ passed, ∀ b, f.block? p = some b → ∀ r ∈ b.writes, r ∈ written := by
  induction path with
  | entry => exact ⟨[], .entry, by simp⟩
  | @step prev id next written b _ found branch ih =>
    obtain ⟨passed, route, writes⟩ := ih
    refine ⟨passed ++ [id], route.step found branch, fun p member c present r inside => ?_⟩
    rcases List.mem_append.mp member with early | last
    · exact List.mem_append_left _ (writes p early c present r inside)
    · obtain rfl := List.mem_singleton.mp last
      cases found.symm.trans present
      exact List.mem_append_right _ inside

theorem Arrives.params {f : Function} {prev : Option BlockId} {id : BlockId}
    {written : List Reg} (path : f.Arrives prev id written) : ∀ r ∈ f.params, r ∈ written := by
  induction path with
  | entry => exact fun r member => member
  | step _ _ _ ih => exact fun r member => List.mem_append_left _ (ih r member)

end Function

/-- What a block reads is written before: by the path to it, by its phis, or by its own earlier
instructions. What it writes is declared. -/
structure Block.Grounded (f : Function) (b : Block) (prev : Option BlockId)
    (written : List Reg) : Prop where
  phis : ∀ p ∈ b.phis, f.declares p.dest ∧
    ∃ pred r, prev = some pred ∧ p.valueFor? pred = some r ∧ r ∈ written
  args : ∀ before i after, b.insts = before ++ i :: after → ∀ r ∈ i.args,
    r ∈ written ++ b.writesUpTo before
  targets : ∀ i ∈ b.insts, ∀ r, i.target? = some r → f.declares r
  uses : ∀ r ∈ b.term.uses, r ∈ written ++ b.writes

theorem Block.Grounded.declares_of_writes {f : Function} {b : Block} {prev : Option BlockId}
    {written : List Reg} (grounded : b.Grounded f prev written) {r : Reg} (member : r ∈ b.writes) :
    f.declares r = true := by
  rcases List.mem_append.mp member with phi | inst
  · obtain ⟨p, inside, rfl⟩ := List.mem_map.mp phi
    exact (grounded.phis p inside).1
  · obtain ⟨i, inside, target⟩ := List.mem_filterMap.mp inst
    exact grounded.targets i inside r target

/-- Registers are written before they are read, on every path. -/
def Function.Grounded (f : Function) : Prop :=
  ∀ prev id written b, f.Arrives prev id written → f.block? id = some b → b.Grounded f prev written

namespace Function

variable {f : Function}

theorem writes_of_allBlocks {bs : List Block} (all : f.allBlocks = .ok bs) :
    f.writes = f.params ++ bs.flatMap Block.writes := by
  unfold writes
  rw [allBlocks_eq_ok.mp all, List.filterMap_map]
  simp

/-- Changing blocks so that each writes no more than before. -/
theorem writes_mapBlocks (numbered : f.WellNumbered) {g : Block → Block}
    (fewer : ∀ b, (g b).writes.Sublist b.writes) : (f.mapBlocks g).writes.Sublist f.writes := by
  obtain ⟨bs, all⟩ := numbered.allBlocks
  rw [writes_of_allBlocks all, writes_of_allBlocks (allBlocks_mapBlocks all g)]
  refine List.Sublist.append (List.Sublist.refl _) ?_
  rw [List.flatMap_map]
  clear all
  induction bs with
  | nil => exact .slnil
  | cons b bs ih => exact List.Sublist.append (fewer b) ih

/-- Functions whose blocks write the same registers. -/
theorem writes_eq_of_blocks {g : Function} (numbered : f.WellNumbered) (numbered' : g.WellNumbered)
    (params : g.params = f.params) (size : g.blocks.size = f.blocks.size)
    (same : ∀ id b b', f.block? id = some b → g.block? id = some b' → b'.writes = b.writes) :
    g.writes = f.writes := by
  obtain ⟨bs, all⟩ := numbered.allBlocks
  obtain ⟨bs', all'⟩ := numbered'.allBlocks
  have length : bs'.length = bs.length := by
    rw [← size_of_allBlocks all, ← size_of_allBlocks all', size]
  have blocks : bs'.map Block.writes = bs.map Block.writes := by
    refine List.ext_getElem (by simp [length]) fun i bound' bound => ?_
    have bound : i < bs.length := by simpa using bound
    have small := numbered.small
    have size := size_of_allBlocks all
    have number := BlockId.num_ofNat (n := i) (by omega)
    rw [List.getElem_map, List.getElem_map]
    refine same ⟨UInt32.ofNat i⟩ _ _ ?_ ?_
    · rw [block?_of_allBlocks all, number, List.getElem?_eq_getElem bound]
    · rw [block?_of_allBlocks all', number, List.getElem?_eq_getElem (length ▸ bound)]
  rw [writes_of_allBlocks all, writes_of_allBlocks all', params, List.flatMap_def, blocks,
    ← List.flatMap_def]

/-- The three parts of single assignment: the parameters are not written again, no block writes a
register twice, and no two blocks write the same one. -/
theorem SingleAssignment.parts (single : f.SingleAssignment) {bs : List Block}
    (all : f.allBlocks = .ok bs) :
    (∀ r ∈ f.params, f.declares r = true → ∀ b ∈ bs, r ∉ b.writes) ∧
      (∀ b ∈ bs, (b.writes.filter f.declares).Nodup) ∧
      bs.Pairwise fun b c => ∀ r, f.declares r = true → r ∈ b.writes → r ∉ c.writes := by
  unfold SingleAssignment at single
  rw [writes_of_allBlocks all, List.filter_append, List.nodup_append] at single
  obtain ⟨_, blocks, apart⟩ := single
  rw [List.filter_flatMap, List.nodup_flatMap] at blocks
  refine ⟨fun r param declared b member again => ?_, blocks.1, blocks.2.imp ?_⟩
  · refine apart r (List.mem_filter.mpr ⟨param, declared⟩) r ?_ rfl
    exact List.mem_filter.mpr ⟨List.mem_flatMap.mpr ⟨b, member, again⟩, declared⟩
  · intro b c disjoint r declared left right
    exact disjoint (List.mem_filter.mpr ⟨left, declared⟩) (List.mem_filter.mpr ⟨right, declared⟩)

variable (numbered : f.WellNumbered) (single : f.SingleAssignment)
include numbered single

/-- Parameters are different registers. -/
theorem SingleAssignment.nodup_params (declared : ∀ p ∈ f.params, f.declares p = true) : f.params.Nodup := by
  obtain ⟨bs, all⟩ := numbered.allBlocks
  rw [SingleAssignment, writes_of_allBlocks all, List.filter_append, List.nodup_append] at single
  rw [← List.filter_eq_self.mpr declared]
  exact single.1

theorem SingleAssignment.not_param {id : BlockId} {b : Block} (found : f.block? id = some b)
    {r : Reg} (declared : f.declares r = true) (written : r ∈ b.writes) : r ∉ f.params := by
  obtain ⟨bs, all⟩ := numbered.allBlocks
  intro param
  exact (single.parts all).1 r param declared b (mem_of_block? all found) written

/-- Only one block writes a register. -/
theorem SingleAssignment.block_eq {id id' : BlockId} {b b' : Block}
    (found : f.block? id = some b) (found' : f.block? id' = some b') {r : Reg}
    (declared : f.declares r = true) (written : r ∈ b.writes) (written' : r ∈ b'.writes) :
    id = id' := by
  obtain ⟨bs, all⟩ := numbered.allBlocks
  have apart := List.pairwise_iff_getElem.mp (single.parts all).2.2
  rw [block?_of_allBlocks all] at found found'
  obtain ⟨bound, rfl⟩ := List.getElem?_eq_some_iff.mp found
  obtain ⟨bound', rfl⟩ := List.getElem?_eq_some_iff.mp found'
  rcases Nat.lt_trichotomy id.num id'.num with less | same | more
  · exact absurd written' (apart _ _ bound bound' less r declared written)
  · exact BlockId.num_inj.mp same
  · exact absurd written (apart _ _ bound' bound more r declared written')

/-- A register that a block writes by an instruction is not one of its phis. -/
theorem SingleAssignment.not_phi {id : BlockId} {b : Block} (found : f.block? id = some b)
    {r : Reg} (declared : f.declares r = true) {i : Inst} (member : i ∈ b.insts)
    (target : i.target? = some r) : r ∉ b.phis.map (·.dest) := by
  obtain ⟨bs, all⟩ := numbered.allBlocks
  have nodup := (single.parts all).2.1 b (mem_of_block? all found)
  rw [Block.writes, Block.writesUpTo, List.filter_append, List.nodup_append] at nodup
  intro phi
  refine nodup.2.2 r (List.mem_filter.mpr ⟨phi, declared⟩) r ?_ rfl
  exact List.mem_filter.mpr ⟨List.mem_filterMap.mpr ⟨i, member, target⟩, declared⟩

/-- Only one instruction of a block writes a register: what comes before it does not. -/
theorem SingleAssignment.not_before {id : BlockId} {b : Block} (found : f.block? id = some b)
    {r : Reg} (declared : f.declares r = true) {before after : List Inst} {i : Inst}
    (split : b.insts = before ++ i :: after) (target : i.target? = some r) :
    r ∉ before.filterMap Inst.target? ∧ r ∉ after.filterMap Inst.target? := by
  obtain ⟨bs, all⟩ := numbered.allBlocks
  have nodup := (single.parts all).2.1 b (mem_of_block? all found)
  rw [Block.writes, Block.writesUpTo, List.filter_append, List.nodup_append] at nodup
  have insts := nodup.2.1
  simp only [split, List.filterMap_append, List.filterMap_cons, target, List.filter_append,
    List.filter_cons, declared, if_true] at insts
  rw [List.nodup_append, List.nodup_cons] at insts
  refine ⟨fun early => ?_, fun late => ?_⟩
  · exact insts.2.2 r (List.mem_filter.mpr ⟨early, declared⟩) r (by simp) rfl
  · exact insts.2.1.1 (List.mem_filter.mpr ⟨late, declared⟩)

/-- The writer of a register is found at one place only. -/
theorem SingleAssignment.split_eq {id id' : BlockId} {b b' : Block}
    (found : f.block? id = some b) (found' : f.block? id' = some b') {r : Reg}
    (declared : f.declares r = true) {before after before' after' : List Inst} {i i' : Inst}
    (split : b.insts = before ++ i :: after) (split' : b'.insts = before' ++ i' :: after')
    (target : i.target? = some r) (target' : i'.target? = some r) :
    id = id' ∧ before = before' ∧ i = i' := by
  have written : r ∈ b.writes := List.mem_append_right _
    (List.mem_filterMap.mpr ⟨i, by simp [split], target⟩)
  have written' : r ∈ b'.writes := List.mem_append_right _
    (List.mem_filterMap.mpr ⟨i', by simp [split'], target'⟩)
  have same := single.block_eq numbered found found' declared written written'
  subst same
  cases found.symm.trans found'
  have first := single.not_before numbered found declared split target
  have second := single.not_before numbered found declared split' target'
  refine ⟨rfl, ?_⟩
  rcases List.append_eq_append_iff.mp (split.symm.trans split') with
    ⟨gap, longer, rest⟩ | ⟨gap, longer, rest⟩
  · cases gap with
    | nil => exact ⟨by simpa using longer.symm, by simpa using (List.cons.inj rest).1⟩
    | cons j gap =>
      obtain ⟨rfl, _⟩ := List.cons.inj rest
      exact absurd (List.mem_filterMap.mpr ⟨i, by simp [longer], target⟩) second.1
  · cases gap with
    | nil => exact ⟨by simpa using longer, by simpa using (List.cons.inj rest).1.symm⟩
    | cons j gap =>
      obtain ⟨rfl, _⟩ := List.cons.inj rest
      exact absurd (List.mem_filterMap.mpr ⟨i', by simp [longer], target'⟩) first.1

end Function

end TieredEngine.Ir
