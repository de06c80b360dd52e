import Mathlib.Algebra.Order.BigOperators.Group.List
import Mathlib.Algebra.Order.Group.Nat
import Mathlib.Algebra.Ring.Nat
import Mathlib.Data.Nat.Cast.Basic
import TieredEngine.Ir.Typing
import TieredEngine.Proofs.Ir.Paths

/-!
The definedness analysis reaches a fixed point, and the fixed point is sound: what it says is
defined on entry to a block has been written on every path to the block. The analysis starts above
every solution and each of its steps takes registers out of an exit set, so the exit sets together
bound the number of rounds that change something.
-/
namespace TieredEngine.Ir

namespace RegSet

/-- Inclusion of sets over the same registers. -/
def Sub (s t : RegSet) : Prop :=
  s.size = t.size ∧ ∀ i : Nat, s[i]? = some true → t[i]? = some true

theorem Sub.refl (s : RegSet) : Sub s s := ⟨rfl, fun _ has => has⟩

theorem Sub.trans {s t u : RegSet} (first : Sub s t) (second : Sub t u) : Sub s u :=
  ⟨first.1.trans second.1, fun i has => second.2 i (first.2 i has)⟩

theorem has_iff {s : RegSet} {r : Reg} : s.has r = true ↔ s[r.num]? = some true := by
  unfold has
  cases s[r.num]? <;> simp

theorem size_insert (s : RegSet) (r : Reg) : (s.insert r).size = s.size := by
  simp [insert]

theorem getElem?_insert {s : RegSet} {r : Reg} {i : Nat} :
    (s.insert r)[i]? = some true ↔ s[i]? = some true ∨ r.num = i ∧ i < s.size := by
  unfold insert
  rw [Array.getElem?_setIfInBounds]
  by_cases same : r.num = i
  · subst same
    by_cases bound : r.num < s.size <;> simp [bound]
  · simp [same]

theorem insert_mono {s t : RegSet} (sub : Sub s t) (r : Reg) : Sub (s.insert r) (t.insert r) := by
  refine ⟨by rw [size_insert, size_insert, sub.1], fun i has => ?_⟩
  rw [getElem?_insert] at has ⊢
  rcases has with old | ⟨same, bound⟩
  · exact .inl (sub.2 i old)
  · exact .inr ⟨same, sub.1 ▸ bound⟩

theorem insertAll_mono {s t : RegSet} (sub : Sub s t) (rs : List Reg) :
    Sub (rs.foldl insert s) (rs.foldl insert t) := by
  induction rs generalizing s t with
  | nil => exact sub
  | cons r rs ih => exact ih (insert_mono sub r)

theorem size_insertAll (s : RegSet) (rs : List Reg) : (rs.foldl insert s).size = s.size := by
  induction rs generalizing s with
  | nil => rfl
  | cons r rs ih => rw [List.foldl_cons, ih, size_insert]

theorem has_insertAll {s : RegSet} {rs : List Reg} {r : Reg}
    (has : (rs.foldl insert s).has r = true) : s.has r = true ∨ r ∈ rs := by
  induction rs generalizing s with
  | nil => exact .inl has
  | cons x xs ih =>
    rcases ih has with first | later
    · rw [has_iff, getElem?_insert] at first
      rcases first with old | ⟨same, _⟩
      · exact .inl (has_iff.mpr old)
      · exact .inr (by simp [Reg.num_inj.mp same])
    · exact .inr (by simp [later])

theorem getElem?_inter {s t : RegSet} {i : Nat} :
    (s.inter t)[i]? = some true ↔ s[i]? = some true ∧ t[i]? = some true := by
  unfold inter
  rw [Array.getElem?_zipWith]
  cases s[i]? <;> cases t[i]? <;> simp

theorem size_inter (s t : RegSet) : (s.inter t).size = min s.size t.size := by
  simp [inter]

theorem inter_mono {s s' t t' : RegSet} (left : Sub s s') (right : Sub t t') :
    Sub (s.inter t) (s'.inter t') := by
  refine ⟨by rw [size_inter, size_inter, left.1, right.1], fun i has => ?_⟩
  rw [getElem?_inter] at has ⊢
  exact ⟨left.2 i has.1, right.2 i has.2⟩

theorem interAll_mono {ss ts : List RegSet} (each : List.Forall₂ Sub ss ts) {s t : RegSet}
    (sub : Sub s t) : Sub (ss.foldl inter s) (ts.foldl inter t) := by
  induction each generalizing s t with
  | nil => exact sub
  | cons head _ ih => exact ih (inter_mono sub head)

theorem size_interAll {n : Nat} {ss : List RegSet} (each : ∀ t ∈ ss, t.size = n) {s : RegSet}
    (size : s.size = n) : (ss.foldl inter s).size = n := by
  induction ss generalizing s with
  | nil => exact size
  | cons t ts ih =>
    refine ih (fun u member => each u (by simp [member])) ?_
    rw [size_inter, size, each t (by simp), Nat.min_self]

/-- A member of an intersection is in each of the sets. -/
theorem has_interAll {ss : List RegSet} {s : RegSet} {r : Reg}
    (has : (ss.foldl inter s).has r = true) : ∀ t ∈ s :: ss, t.has r = true := by
  induction ss generalizing s with
  | nil => simpa using has
  | cons u us ih =>
    have both := ih has
    have met := has_iff.mp (both (s.inter u) (by simp))
    rw [getElem?_inter] at met
    intro t member
    simp only [List.mem_cons] at member
    rcases member with rfl | rfl | later
    · exact has_iff.mpr met.1
    · exact has_iff.mpr met.2
    · exact both t (by simp [later])

/-- How many registers a set has. -/
def card (s : RegSet) : Nat := s.toList.count true

theorem card_le_size (s : RegSet) : s.card ≤ s.size := by
  simpa [card] using List.count_le_length (a := true) (l := s.toList)

/-- A strictly smaller set has fewer registers. -/
theorem card_le {s t : RegSet} (sub : Sub s t) : s.card ≤ t.card ∧ (s ≠ t → s.card < t.card) := by
  have lists : ∀ xs ys : List Bool, xs.length = ys.length →
      (∀ i : Nat, xs[i]? = some true → ys[i]? = some true) →
      xs.count true ≤ ys.count true ∧ (xs ≠ ys → xs.count true < ys.count true) := by
    intro xs
    induction xs with
    | nil =>
      intro ys length _
      cases ys with
      | nil => simp
      | cons y ys => simp at length
    | cons x xs ih =>
      intro ys length sub
      cases ys with
      | nil => simp at length
      | cons y ys =>
        have tail := ih ys (by simpa using length) fun i has => by simpa using sub (i + 1) (by simpa)
        have head := sub 0
        simp only [List.count_cons, List.cons.injEq, ne_eq, not_and]
        cases x with
        | true =>
          cases show y = true by simpa using head
          simpa using tail
        | false => cases y <;> simp <;> omega
  have spec := lists s.toList t.toList (by simpa using sub.1) fun i has => by
    simpa using sub.2 i (by simpa using has)
  refine ⟨spec.1, fun different => spec.2 fun same => different (Array.toList_inj.mp same)⟩

end RegSet

namespace Function

variable {f : Function} {edges : List (BlockId × BlockId)} {order : List BlockId}

/-- The exit sets of the first are included in those of the second, block by block. -/
def ExitsBelow (d d' : Definedness) : Prop :=
  ∀ id, Option.Rel RegSet.Sub (d.exit? id) (d'.exit? id)

/-- What the analysis computes for the end of a block. -/
def exitSet (f : Function) (edges : List (BlockId × BlockId)) (d : Definedness) (id : BlockId)
    (b : Block) : RegSet :=
  b.defs.foldl RegSet.insert (f.entrySet edges d id)

theorem filterMap_forall₂ {α β : Type} {R : β → β → Prop} {g h : α → Option β}
    (each : ∀ x, Option.Rel R (g x) (h x)) (xs : List α) :
    List.Forall₂ R (xs.filterMap g) (xs.filterMap h) := by
  induction xs with
  | nil => exact .nil
  | cons x xs ih =>
    have head := each x
    cases gx : g x <;> cases hx : h x <;> simp only [gx, hx, List.filterMap_cons] at head ⊢
    · exact ih
    · cases head
    · cases head
    · cases head with
      | some sub => exact .cons sub ih

theorem entrySet_mono {d d' : Definedness} (below : ExitsBelow d d') (id : BlockId) :
    RegSet.Sub (f.entrySet edges d id) (f.entrySet edges d' id) := by
  unfold entrySet
  split
  · exact .refl _
  · have lists := filterMap_forall₂ below (predecessorsIn edges id)
    revert lists
    cases (predecessorsIn edges id).filterMap d.exit? with
    | nil =>
      intro lists
      rw [List.forall₂_nil_left_iff.mp lists]
      exact .refl _
    | cons s ss =>
      intro lists
      obtain ⟨t, ts, head, tail, same⟩ := List.forall₂_cons_left_iff.mp lists
      rw [same]
      exact RegSet.interAll_mono tail head

theorem exitSet_mono {d d' : Definedness} (below : ExitsBelow d d') (id : BlockId) (b : Block) :
    RegSet.Sub (f.exitSet edges d id b) (f.exitSet edges d' id b) :=
  RegSet.insertAll_mono (entrySet_mono below id) _

theorem size_paramSet : f.paramSet.size = f.regTypes.size := by
  simp [paramSet, RegSet.size_insertAll]

theorem size_entrySet {d : Definedness}
    (sizes : ∀ id s, d.exit? id = some s → s.size = f.regTypes.size) (id : BlockId) :
    (f.entrySet edges d id).size = f.regTypes.size := by
  unfold entrySet
  split
  · exact size_paramSet
  · have each : ∀ s ∈ (predecessorsIn edges id).filterMap d.exit?, s.size = f.regTypes.size := by
      intro s member
      obtain ⟨p, _, exit⟩ := List.mem_filterMap.mp member
      exact sizes p s exit
    revert each
    cases (predecessorsIn edges id).filterMap d.exit? with
    | nil => simp
    | cons s ss =>
      intro each
      exact RegSet.size_interAll (fun t member => each t (by simp [member])) (each s (by simp))

/-- The state of the analysis on its way down: every exit set is still at least what the analysis
computes from the others. -/
structure Descending (f : Function) (edges : List (BlockId × BlockId)) (order : List BlockId)
    (d : Definedness) : Prop where
  entries : d.entry.size = f.blocks.size
  exits : d.exit.size = f.blocks.size
  sizes : ∀ id s, d.exit? id = some s → s.size = f.regTypes.size
  above : ∀ id ∈ order, ∀ b, f.block? id = some b →
    ∃ s, d.exit? id = some s ∧ RegSet.Sub (f.exitSet edges d id b) s

/-- Registers in all exit sets together. -/
def exitTotal (order : List BlockId) (d : Definedness) : Nat :=
  (order.map fun id => ((d.exit? id).map RegSet.card).getD 0).sum

theorem exitTotal_le {d : Definedness}
    (sizes : ∀ id s, d.exit? id = some s → s.size = f.regTypes.size) :
    exitTotal order d ≤ order.length * f.regTypes.size := by
  unfold exitTotal
  have each : ∀ n ∈ order.map (fun id => ((d.exit? id).map RegSet.card).getD 0),
      n ≤ f.regTypes.size := by
    intro n member
    obtain ⟨id, _, rfl⟩ := List.mem_map.mp member
    cases exit : d.exit? id with
    | none => simp
    | some s => simpa [sizes id s exit] using s.card_le_size
  simpa using List.sum_le_card_nsmul _ _ each

theorem exit?_set {d : Definedness} {id x : BlockId} {s : RegSet} {entry : Array (Option RegSet)}
    (bound : id.num < d.exit.size) :
    Definedness.exit? { entry, exit := d.exit.setIfInBounds id.num (some s) } x =
      if x = id then some s else d.exit? x := by
  unfold Definedness.exit?
  rw [Array.getElem?_setIfInBounds]
  by_cases same : x = id
  · simp [same, bound]
  · have different : ¬ id.num = x.num := fun equal => same (BlockId.num_inj.mp equal.symm)
    simp [same, different]

theorem before?_set {d : Definedness} {id x : BlockId} {s : RegSet} {exit : Array (Option RegSet)}
    (bound : id.num < d.entry.size) :
    Definedness.before? { entry := d.entry.setIfInBounds id.num (some s), exit } x =
      if x = id then some s else d.before? x := by
  unfold Definedness.before?
  rw [Array.getElem?_setIfInBounds]
  by_cases same : x = id
  · simp [same, bound]
  · have different : ¬ id.num = x.num := fun equal => same (BlockId.num_inj.mp equal.symm)
    simp [same, different]

/-- An analysis with one exit set replaced by what is computed for it lies below the old one. -/
theorem Descending.replace {d : Definedness} (down : Descending f edges order d) {id : BlockId}
    (member : id ∈ order) {b : Block} (found : f.block? id = some b)
    (entry : Array (Option RegSet)) (size : entry.size = f.blocks.size) :
    let d' : Definedness :=
      { entry, exit := d.exit.setIfInBounds id.num (some (f.exitSet edges d id b)) }
    ExitsBelow d' d ∧ Descending f edges order d' := by
  have bound : id.num < d.exit.size := by
    rw [down.exits]
    exact (Array.getElem?_eq_some_iff.mp (block?_eq_some.mp found)).1
  have exits : ∀ x, Definedness.exit?
      { entry, exit := d.exit.setIfInBounds id.num (some (f.exitSet edges d id b)) } x =
      if x = id then some (f.exitSet edges d id b) else d.exit? x := fun x => exit?_set bound
  intro d'
  have below : ExitsBelow d' d := by
    intro x
    rw [exits x]
    split
    · next same =>
      subst same
      obtain ⟨s, exit, sub⟩ := down.above x member b found
      rw [exit]
      exact .some sub
    · cases d.exit? x with
      | none => exact .none
      | some s => exact .some (.refl s)
  refine ⟨below, size, by simpa [d'] using down.exits, ?_, ?_⟩
  · intro x s exit
    rw [exits x] at exit
    split at exit
    · cases exit
      rw [exitSet, RegSet.size_insertAll, size_entrySet down.sizes]
    · exact down.sizes x s exit
  · intro x listed c present
    rw [exits x]
    split
    · next same =>
      subst same
      cases found.symm.trans present
      exact ⟨_, rfl, exitSet_mono below x b⟩
    · obtain ⟨s, exit, sub⟩ := down.above x listed c present
      exact ⟨s, exit, (exitSet_mono below x c).trans sub⟩

theorem exitTotal_lt {d d' : Definedness} (below : ExitsBelow d' d) {id : BlockId}
    (member : id ∈ order) (changed : d'.exit? id ≠ d.exit? id) :
    exitTotal order d' < exitTotal order d := by
  refine List.sum_lt_sum _ _ (fun x _ => ?_) ⟨id, member, ?_⟩
  · have sub := below x
    cases left : d'.exit? x <;> cases right : d.exit? x <;> simp only [left, right] at sub
    · exact Nat.le_refl _
    · cases sub
    · cases sub
    · cases sub with
      | some sub => simpa using (RegSet.card_le sub).1
  · have sub := below id
    cases left : d'.exit? id <;> cases right : d.exit? id <;>
      simp only [left, right, ne_eq, Option.some.injEq, not_true] at sub changed
    · cases sub
    · cases sub
    · cases sub with
      | some sub => simpa using (RegSet.card_le sub).2 changed

/-- The analysis is settled at a block: its sets are the ones computed from the exit sets. -/
def SettledAt (f : Function) (edges : List (BlockId × BlockId)) (d : Definedness) (id : BlockId)
    (b : Block) : Prop :=
  d.before? id = some (f.entrySet edges d id) ∧ d.exit? id = some (f.exitSet edges d id b)

theorem entrySet_congr {d d' : Definedness} (same : d'.exit = d.exit) (id : BlockId) :
    f.entrySet edges d' id = f.entrySet edges d id := by
  have exits : d'.exit? = d.exit? := by
    funext x
    simp only [Definedness.exit?, same]
  simp only [entrySet, exits]

theorem SettledAt.congr {d d' : Definedness} {id : BlockId} {b : Block}
    (settled : SettledAt f edges d id b) (entry : d'.before? id = d.before? id)
    (exit : d'.exit = d.exit) : SettledAt f edges d' id b := by
  unfold SettledAt exitSet
  rw [entrySet_congr exit, entry, Definedness.exit?, exit]
  exact settled

/-- One step either changes an exit set, and then there are fewer registers in all of them, or
settles the block and leaves the exit sets alone. -/
theorem flowStep_spec {d : Definedness} (down : Descending f edges order d) {id : BlockId}
    (member : id ∈ order) {b : Block} (found : f.block? id = some b) (c : Bool) :
    ∃ d' c', f.flowStep edges (d, c) id = (d', c') ∧ Descending f edges order d' ∧
      (c' = true ∧ exitTotal order d' < exitTotal order d ∨
        c' = c ∧ d'.exit = d.exit ∧ SettledAt f edges d' id b ∧
          ∀ x, x ≠ id → d'.before? x = d.before? x) := by
  have bound : id.num < f.blocks.size :=
    (Array.getElem?_eq_some_iff.mp (block?_eq_some.mp found)).1
  have inEntry : id.num < d.entry.size := down.entries ▸ bound
  unfold flowStep
  simp only [found]
  split
  · next same =>
    refine ⟨_, _, rfl, ⟨by simpa using down.entries, down.exits, down.sizes, down.above⟩,
      .inr ⟨rfl, rfl, ⟨?_, same⟩, fun x other => ?_⟩⟩
    · rw [before?_set inEntry, if_pos rfl]
      exact congrArg some (entrySet_congr rfl id).symm
    · rw [before?_set inEntry, if_neg other]
  · next different =>
    obtain ⟨below, next⟩ := down.replace member found
      (d.entry.setIfInBounds id.num (some (f.entrySet edges d id))) (by simpa using down.entries)
    refine ⟨_, _, rfl, next, .inl ⟨rfl, exitTotal_lt below member ?_⟩⟩
    rw [exit?_set (down.exits ▸ bound), if_pos rfl]
    exact fun same => different same.symm

/-- A round over some of the blocks, all of them reachable. -/
theorem flowRound_spec {ids : List BlockId} {d : Definedness} (down : Descending f edges order d)
    (listed : ∀ id ∈ ids, id ∈ order) (present : ∀ id ∈ ids, ∃ b, f.block? id = some b)
    (c : Bool) :
    ∃ d' c', ids.foldl (f.flowStep edges) (d, c) = (d', c') ∧ Descending f edges order d' ∧
      exitTotal order d' ≤ exitTotal order d ∧
      (c' = true ∧ (c = true ∨ exitTotal order d' < exitTotal order d) ∨
        c' = c ∧ d'.exit = d.exit ∧ (∀ x, x ∉ ids → d'.before? x = d.before? x) ∧
          ∀ id ∈ ids, ∀ b, f.block? id = some b → SettledAt f edges d' id b) := by
  induction ids generalizing d c with
  | nil => exact ⟨d, c, rfl, down, Nat.le_refl _, .inr ⟨rfl, rfl, by simp, by simp⟩⟩
  | cons id ids ih =>
    obtain ⟨b, found⟩ := present id (by simp)
    obtain ⟨d₁, c₁, stepped, down₁, effect⟩ := flowStep_spec down (listed id (by simp)) found c
    obtain ⟨d₂, c₂, rest, down₂, less, effect₂⟩ := ih down₁
      (fun x member => listed x (by simp [member])) (fun x member => present x (by simp [member])) c₁
    refine ⟨d₂, c₂, by rw [List.foldl_cons, stepped, rest], down₂, ?_, ?_⟩
    · rcases effect with ⟨_, fewer⟩ | ⟨_, exit, _, _⟩
      · omega
      · have same : exitTotal order d₁ = exitTotal order d := by
          simp only [exitTotal, Definedness.exit?, exit]
        omega
    · rcases effect with ⟨rfl, fewer⟩ | ⟨rfl, exit, settled, others⟩
      · have changed : c₂ = true := by
          rcases effect₂ with ⟨changed, _⟩ | ⟨kept, _⟩
          · exact changed
          · exact kept
        exact .inl ⟨changed, .inr (by omega)⟩
      · have same : exitTotal order d₁ = exitTotal order d := by
          simp only [exitTotal, Definedness.exit?, exit]
        rcases effect₂ with ⟨changed, fewer⟩ | ⟨kept, exit₂, others₂, settled₂⟩
        · exact .inl ⟨changed, same ▸ fewer⟩
        · refine .inr ⟨kept, exit₂.trans exit, fun x absent => ?_, fun x member c found' => ?_⟩
          · simp only [List.mem_cons, not_or] at absent
            rw [others₂ x absent.2, others x absent.1]
          · by_cases later : x ∈ ids
            · exact settled₂ x later c found'
            · have same : x = id := by simpa [later] using member
              subst same
              cases found.symm.trans found'
              exact settled.congr (others₂ x later) exit₂

/-- The analysis stops at a fixed point when it may take more rounds than there are registers in
the exit sets. -/
theorem flow_settles {d : Definedness} (down : Descending f edges order d)
    (present : ∀ id ∈ order, ∃ b, f.block? id = some b) {fuel : Nat}
    (enough : exitTotal order d < fuel) :
    Descending f edges order (f.flow edges order fuel d) ∧
      ∀ id ∈ order, ∀ b, f.block? id = some b →
        SettledAt f edges (f.flow edges order fuel d) id b := by
  induction fuel generalizing d with
  | zero => omega
  | succ fuel ih =>
    obtain ⟨d', c', rounds, down', less, effect⟩ :=
      flowRound_spec down (fun _ member => member) present false
    simp only [flow, rounds]
    rcases effect with ⟨rfl, fewer⟩ | ⟨rfl, _, _, settled⟩
    · rw [if_pos rfl]
      exact ih down' (by simp at fewer; omega)
    · rw [if_neg (by simp)]
      exact ⟨down', settled⟩

theorem exit?_start {id : BlockId} (listed : id ∈ order) (bound : id.num < f.blocks.size) :
    (f.definednessStart order).exit? id = some (Array.replicate f.regTypes.size true) := by
  have fill : ∀ (ids : List BlockId) (a : Array (Option RegSet)), a.size = f.blocks.size →
      (id ∈ ids ∨ a[id.num]? = some (some (Array.replicate f.regTypes.size true))) →
      (ids.foldl (fun a x => a.setIfInBounds x.num (some (Array.replicate f.regTypes.size true)))
        a)[id.num]? = some (some (Array.replicate f.regTypes.size true)) := by
    intro ids
    induction ids with
    | nil => intro a _ either; simpa using either
    | cons x xs ih =>
      intro a size either
      refine ih _ (by simpa using size) ?_
      rw [Array.getElem?_setIfInBounds]
      by_cases same : x = id
      · subst same
        simp [size, bound]
      · have different : ¬ x.num = id.num := fun equal => same (BlockId.num_inj.mp equal)
        rcases either with member | kept
        · exact .inl (by simpa [Ne.symm same] using member)
        · exact .inr (by simpa [different] using kept)
  unfold definednessStart Definedness.exit?
  rw [fill order _ (by simp) (.inl listed)]
  rfl

theorem exit?_start_eq {id : BlockId} {s : RegSet}
    (exit : (f.definednessStart order).exit? id = some s) :
    s = Array.replicate f.regTypes.size true := by
  have fill : ∀ (ids : List BlockId) (a : Array (Option RegSet)),
      (∀ s, a[id.num]? = some (some s) → s = Array.replicate f.regTypes.size true) →
      ∀ s, (ids.foldl (fun a x => a.setIfInBounds x.num
        (some (Array.replicate f.regTypes.size true))) a)[id.num]? = some (some s) →
        s = Array.replicate f.regTypes.size true := by
    intro ids
    induction ids with
    | nil => exact fun a base => base
    | cons x xs ih =>
      intro a base
      refine ih _ fun s at_id => ?_
      rw [Array.getElem?_setIfInBounds] at at_id
      split at at_id
      · split at at_id
        · simpa using at_id.symm
        · cases at_id
      · exact base s at_id
  refine fill order _ ?_ s (Option.join_eq_some_iff.mp exit)
  intro s at_id
  simp [Array.getElem?_replicate] at at_id

theorem descending_start : Descending f edges order (f.definednessStart order) := by
  have sizes : ∀ id s, (f.definednessStart order).exit? id = some s →
      s.size = f.regTypes.size := by
    intro id s exit
    rw [exit?_start_eq exit]
    simp
  refine ⟨by simp [definednessStart], ?_, sizes, ?_⟩
  · have fill : ∀ (ids : List BlockId) (a : Array (Option RegSet)) (s : Option RegSet),
        (ids.foldl (fun a x => a.setIfInBounds x.num s) a).size = a.size := by
      intro ids
      induction ids with
      | nil => exact fun _ _ => rfl
      | cons x xs ih => exact fun a s => (ih _ s).trans (by simp)
    simp [definednessStart, fill]
  · intro id listed b found
    have bound := (Array.getElem?_eq_some_iff.mp (block?_eq_some.mp found)).1
    refine ⟨_, exit?_start listed bound, ?_, fun i has => ?_⟩
    · rw [exitSet, RegSet.size_insertAll, size_entrySet sizes]
      simp
    · have inside := (Array.getElem?_eq_some_iff.mp has).1
      rw [exitSet, RegSet.size_insertAll, size_entrySet sizes] at inside
      simp [inside]

/-- The analysis of a function ends on its way down, at a fixed point. -/
theorem definedness_ends (present : ∀ id ∈ order, ∃ b, f.block? id = some b) :
    Descending f edges order (f.definedness edges order) ∧
      ∀ id ∈ order, ∀ b, f.block? id = some b →
        SettledAt f edges (f.definedness edges order) id b := by
  have down : Descending f edges order (f.definednessStart order) := descending_start
  have total : exitTotal order _ ≤ _ := exitTotal_le down.sizes
  exact flow_settles down present (by omega)

theorem definedness_settled (present : ∀ id ∈ order, ∃ b, f.block? id = some b) :
    ∀ id ∈ order, ∀ b, f.block? id = some b →
      SettledAt f edges (f.definedness edges order) id b :=
  (definedness_ends present).2

/-- What is found for a reachable block has a place for each declared register. -/
theorem size_before (edges : List (BlockId × BlockId))
    (present : ∀ id ∈ order, ∃ b, f.block? id = some b) {id : BlockId} (listed : id ∈ order) :
    ∃ s, (f.definedness edges order).before? id = some s ∧ s.size = f.regTypes.size := by
  obtain ⟨down, settled⟩ := @definedness_ends f edges order present
  obtain ⟨b, found⟩ := present id listed
  exact ⟨_, (settled id listed b found).1, size_entrySet down.sizes id⟩

/-- Edges are read off the blocks that are present. -/
theorem mem_edges (numbered : f.WellNumbered) (read : f.edges = .ok edges) {id s : BlockId}
    {b : Block} (found : f.block? id = some b) (branch : s ∈ b.term.successors) :
    (id, s) ∈ edges := by
  obtain ⟨bs, all, listed⟩ := bind_eq_ok.mp read
  cases listed
  refine List.mem_flatMap.mpr ⟨b, mem_of_block? all found, ?_⟩
  rw [numbered.number id b found]
  exact List.mem_map.mpr ⟨s, branch, rfl⟩

theorem has_paramSet {r : Reg} (has : f.paramSet.has r = true) : r ∈ f.params := by
  rcases RegSet.has_insertAll has with empty | member
  · rw [RegSet.has_iff, Array.getElem?_replicate] at empty
    simp at empty
  · exact member

theorem writes_of_defs {b : Block} {r : Reg} (member : r ∈ b.defs) : r ∈ b.writes := by
  simp only [Block.defs, List.mem_append, List.mem_map, List.mem_filter] at member
  simp only [Block.writes, Block.writesUpTo, List.mem_append, List.mem_map, List.mem_filterMap]
  rcases member with phi | ⟨i, ⟨inside, defines⟩, rfl⟩
  · exact .inl phi
  · exact .inr ⟨i, inside, Inst.target?_of_hasDest defines⟩

/-- What the analysis says is defined on entry to a block is a parameter or defined by a block of
each route to it. -/
theorem entry_defined (numbered : f.WellNumbered) (read : f.edges = .ok edges)
    (order_ok : ∀ id, id ∈ order ↔ f.Reachable id) {passed : List BlockId} {id : BlockId}
    (route : f.Route passed id) {s : RegSet}
    (entry : (f.definedness edges order).before? id = some s) {r : Reg} (has : s.has r = true) :
    r ∈ f.params ∨ ∃ p ∈ passed, ∃ b, f.block? p = some b ∧ r ∈ b.defs := by
  have settled : ∀ id ∈ order, ∀ b, f.block? id = some b →
      SettledAt f edges (f.definedness edges order) id b :=
    definedness_settled fun x listed => ((order_ok x).mp listed).present numbered
  induction route generalizing s r with
  | entry =>
    obtain ⟨b, found⟩ := numbered.present f.entry numbered.entry
    have known := (settled f.entry ((order_ok _).mpr .entry) b found).1
    cases entry.symm.trans known
    rw [entrySet, if_pos rfl] at has
    exact .inl (has_paramSet has)
  | @step passed id next b before found branch ih =>
    have reached := before.reachable
    obtain ⟨c, target⟩ := (reached.step found branch).present numbered
    have known := (settled next ((order_ok _).mpr (reached.step found branch)) c target).1
    cases entry.symm.trans known
    obtain ⟨entered, left⟩ := settled id ((order_ok _).mpr reached) b found
    rw [entrySet] at has
    split at has
    · exact .inl (has_paramSet has)
    · -- the exit set of the block the route comes from is one of those intersected
      have among : f.exitSet edges (f.definedness edges order) id b ∈
          (predecessorsIn edges next).filterMap (f.definedness edges order).exit? := by
        refine List.mem_filterMap.mpr ⟨id, ?_, left⟩
        refine List.mem_map.mpr ⟨(id, next), ?_, rfl⟩
        exact List.mem_filter.mpr ⟨mem_edges numbered read found branch, by simp⟩
      revert has among
      cases (predecessorsIn edges next).filterMap (f.definedness edges order).exit? with
      | nil => simp
      | cons t ts =>
        intro has among
        rcases RegSet.has_insertAll (RegSet.has_interAll has _ among) with early | own
        · rcases ih entered early with param | ⟨p, member, defined⟩
          · exact .inl param
          · exact .inr ⟨p, List.mem_append_left _ member, defined⟩
        · exact .inr ⟨id, by simp, b, found, own⟩

/-- What the analysis says is defined on entry to a block is written on every path to it. -/
theorem entry_sound (numbered : f.WellNumbered) (read : f.edges = .ok edges)
    (order_ok : ∀ id, id ∈ order ↔ f.Reachable id) {prev : Option BlockId} {id : BlockId}
    {written : List Reg} (path : f.Arrives prev id written) {s : RegSet}
    (entry : (f.definedness edges order).before? id = some s) {r : Reg} (has : s.has r = true) :
    r ∈ written := by
  obtain ⟨passed, route, writes⟩ := path.route
  rcases entry_defined numbered read order_ok route entry has with
    param | ⟨p, member, b, found, defined⟩
  · exact path.params r param
  · exact writes p member b found r (writes_of_defs defined)

end Function

end TieredEngine.Ir
