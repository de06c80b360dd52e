import Mathlib.Data.List.Basic
import TieredEngine.Ir.Module
import TieredEngine.Proofs.Ir.Structure

/-!
The depth-first walk meets exactly the blocks that control can reach. The search is first stated
with no bound on how deep it goes; the walk cannot run out of levels while there are fewer unmarked
blocks than levels, so it makes the whole search. What a search does is then shown step by step: it
only ever marks more blocks, what it marks it also finishes, and it leaves a finished block with no
successor unmarked, those aside that are no blocks of the function.
-/
namespace TieredEngine.Ir.Function

/-- Blocks on some path of branches from the entry. -/
inductive Reachable (f : Function) : BlockId → Prop where
  | entry : Reachable f f.entry
  | step {id s : BlockId} {b : Block} (before : Reachable f id) (found : f.block? id = some b)
      (branch : s ∈ b.term.successors) : Reachable f s

theorem Reachable.in_range {f : Function} (numbered : f.WellNumbered) {id : BlockId}
    (reached : f.Reachable id) : id.num < f.blocks.size := by
  cases reached with
  | entry => exact numbered.entry
  | step _ found branch => exact numbered.target _ _ found _ branch

/-- A function whose blocks branch as those of another one reaches no other blocks. -/
theorem Reachable.of_branches {f g : Function} (entry : g.entry = f.entry)
    (blocks : ∀ id c, g.block? id = some c →
      ∃ b, f.block? id = some b ∧ c.term.successors = b.term.successors) {id : BlockId}
    (reached : g.Reachable id) : f.Reachable id := by
  induction reached with
  | entry => exact entry ▸ .entry
  | step _ found branch before =>
    obtain ⟨b, there, same⟩ := blocks _ _ found
    exact before.step there (same ▸ branch)

theorem Reachable.present {f : Function} (numbered : f.WellNumbered) {id : BlockId}
    (reached : f.Reachable id) : ∃ b, f.block? id = some b :=
  numbered.present id (reached.in_range numbered)

namespace Walk

def Seen (w : Walk) (id : BlockId) : Prop := w.seen[id.num]? = some true

/-- How many blocks the walk has not met. -/
def unseen (w : Walk) : Nat := w.seen.toList.count false

def mark (w : Walk) (id : BlockId) : Walk := { w with seen := w.seen.setIfInBounds id.num true }

theorem seen_mark {w : Walk} {id x : BlockId} (bound : id.num < w.seen.size) :
    (w.mark id).Seen x ↔ x = id ∨ w.Seen x := by
  unfold Seen mark
  rw [Array.getElem?_setIfInBounds]
  by_cases same : id.num = x.num
  · simp [bound, BlockId.num_inj.mp same.symm]
  · simp only [same, if_false, iff_or_self]
    rintro rfl
    exact absurd rfl same

theorem unseen_mark {w : Walk} {id : BlockId} (fresh : w.seen[id.num]? = some false) :
    (w.mark id).unseen + 1 = w.unseen := by
  obtain ⟨bound, fresh⟩ := Array.getElem?_eq_some_iff.mp fresh
  unfold unseen mark
  simp only [Array.toList_setIfInBounds]
  have counted := List.count_set (a := true) (b := false) (h := show id.num < w.seen.toList.length by
    simpa using bound)
  have positive : 0 < w.seen.toList.count false :=
    List.count_pos_iff.mpr (List.mem_iff_getElem.mpr ⟨id.num, by simpa using bound, by simpa⟩)
  rw [counted, if_pos (by simpa using fresh), if_neg (by decide)]
  omega

theorem size_mark (w : Walk) (id : BlockId) : (w.mark id).seen.size = w.seen.size := by
  simp [mark]

end Walk

/-- The depth-first search from the blocks of a list, one after the other, however deep it goes. A
block that was met before, or that is none of the function's, is passed over. -/
inductive Searches (f : Function) : Walk → List BlockId → Walk → Prop where
  | done {w : Walk} : Searches f w [] w
  | skip {w w' : Walk} {id : BlockId} {ids : List BlockId} (known : w.seen[id.num]? ≠ some false)
      (rest : Searches f w ids w') : Searches f w (id :: ids) w'
  | enter {w v w' : Walk} {id : BlockId} {ids : List BlockId} {b : Block}
      (fresh : w.seen[id.num]? = some false) (found : f.block? id = some b)
      (inner : Searches f (w.mark id) b.term.successors v)
      (rest : Searches f { v with finished := id :: v.finished } ids w') :
      Searches f w (id :: ids) w'

theorem Searches.size_eq {f : Function} {w w' : Walk} {ids : List BlockId}
    (search : f.Searches w ids w') : w'.seen.size = w.seen.size := by
  induction search with
  | done => rfl
  | skip _ _ ih => exact ih
  | @enter w v w' id _ _ _ _ _ _ within ih => exact ih.trans (within.trans (w.size_mark id))

theorem Searches.unseen_le {f : Function} {w w' : Walk} {ids : List BlockId}
    (search : f.Searches w ids w') : w'.unseen ≤ w.unseen := by
  induction search with
  | done => exact Nat.le_refl _
  | skip _ _ ih => exact ih
  | enter fresh _ _ _ within ih =>
    have := Walk.unseen_mark fresh
    exact Nat.le_trans ih (Nat.le_trans within (by omega))

/-- Where all blocks are there, a walk with more levels than unmarked blocks makes the search. -/
theorem walk_searches {f : Function}
    (present : ∀ id : BlockId, id.num < f.blocks.size → ∃ b, f.block? id = some b) {fuel : Nat}
    {w : Walk} (size : w.seen.size = f.blocks.size) (enough : w.unseen < fuel)
    (ids : List BlockId) : ∃ w', ids.foldlM (f.walk fuel) w = .ok w' ∧ f.Searches w ids w' := by
  induction fuel generalizing w ids with
  | zero => omega
  | succ fuel deeper =>
    induction ids generalizing w with
    | nil => exact ⟨w, rfl, .done⟩
    | cons id ids onward =>
      by_cases known : w.seen[id.num]? = some false
      · have bound : id.num < f.blocks.size := size ▸ (Array.getElem?_eq_some_iff.mp known).1
        obtain ⟨b, found⟩ := present id bound
        have fewer := Walk.unseen_mark known
        obtain ⟨v, inner, within⟩ :=
          deeper ((w.size_mark id).trans size) (by omega) b.term.successors
        have walked : f.walk (fuel + 1) w id = .ok { v with finished := id :: v.finished } := by
          simp only [walk, known, found, Crash.deref]
          exact bind_eq_ok.mpr ⟨b, rfl, bind_eq_ok.mpr ⟨v, inner, rfl⟩⟩
        have shrunk := within.unseen_le
        obtain ⟨w', rest, search⟩ := onward (w := { v with finished := id :: v.finished })
          (within.size_eq.trans ((w.size_mark id).trans size)) (by show v.unseen < _; omega)
        exact ⟨w', foldlM_cons_eq_ok.mpr ⟨_, walked, rest⟩, .enter known found within search⟩
      · have walked : f.walk (fuel + 1) w id = .ok w := by
          simp only [walk]
          split
          · rfl
          · rfl
          · contradiction
        obtain ⟨w', rest, search⟩ := onward size enough
        exact ⟨w', foldlM_cons_eq_ok.mpr ⟨_, walked, rest⟩, .skip known search⟩

namespace Walk

/-- What a stretch of the search does: it marks reachable blocks, finishes each of them once, and
leaves none of their successors unmarked. -/
structure Extends (f : Function) (w w' : Walk) : Prop where
  size : w'.seen.size = w.seen.size
  keeps : ∀ id, w.Seen id → w'.Seen id
  finished : ∀ id, id ∈ w'.finished ↔ id ∈ w.finished ∨ w'.Seen id ∧ ¬ w.Seen id
  closed : ∀ id b s, w'.Seen id → ¬ w.Seen id → f.block? id = some b → s ∈ b.term.successors →
    w'.seen[s.num]? ≠ some false
  reached : ∀ id, w'.Seen id → ¬ w.Seen id → f.Reachable id
  nodup : (∀ id ∈ w.finished, w.Seen id) → w.finished.Nodup → w'.finished.Nodup

/-- What is met, or out of range, stays so. -/
theorem Extends.known {f : Function} {w w' : Walk} (extended : Extends f w w') {id : BlockId}
    (known : w.seen[id.num]? ≠ some false) : w'.seen[id.num]? ≠ some false := by
  cases met : w.seen[id.num]? with
  | none =>
    have outside : w'.seen[id.num]? = none := by
      rw [Array.getElem?_eq_none_iff] at met ⊢
      exact extended.size ▸ met
    simp [outside]
  | some mark =>
    cases mark with
    | false => exact absurd met known
    | true =>
      have seen : w'.seen[id.num]? = some true := extended.keeps id met
      simp [seen]

theorem Extends.refl (f : Function) (w : Walk) : Extends f w w where
  size := rfl
  keeps _ seen := seen
  finished id := by simp
  closed _ _ _ seen unseen := absurd seen unseen
  reached _ seen unseen := absurd seen unseen
  nodup _ nodup := nodup

theorem Extends.trans {f : Function} {u v w : Walk} (first : Extends f u v)
    (second : Extends f v w) : Extends f u w where
  size := second.size.trans first.size
  keeps id seen := second.keeps id (first.keeps id seen)
  finished id := by
    rw [second.finished, first.finished]
    have kept := second.keeps id
    have older := first.keeps id
    by_cases middle : v.Seen id <;> by_cases early : u.Seen id <;> simp_all
  closed id b s seen unseen found branch := by
    by_cases middle : v.Seen id
    · exact second.known (first.closed id b s middle unseen found branch)
    · exact second.closed id b s seen middle found branch
  reached id seen unseen := by
    by_cases middle : v.Seen id
    · exact first.reached id middle unseen
    · exact second.reached id seen middle
  nodup marked nodup := by
    refine second.nodup (fun id member => ?_) (first.nodup marked nodup)
    rcases (first.finished id).mp member with old | ⟨seen, _⟩
    · exact first.keeps id (marked id old)
    · exact seen

/-- Finishing a block once the search from all its successors is over. -/
theorem Extends.finish {f : Function} {w w' : Walk} {id : BlockId} {b : Block}
    (fresh : w.seen[id.num]? = some false) (reached : f.Reachable id)
    (found : f.block? id = some b) (rest : Extends f (w.mark id) w')
    (successors : ∀ s ∈ b.term.successors, w'.seen[s.num]? ≠ some false) :
    Extends f w { w' with finished := id :: w'.finished } := by
  have bound : id.num < w.seen.size := (Array.getElem?_eq_some_iff.mp fresh).1
  have marked : ∀ x, (w.mark id).Seen x ↔ x = id ∨ w.Seen x := fun x => seen_mark bound
  have unmarked : ¬ w.Seen id := by simp [Seen, fresh]
  have seen : w'.Seen id := rest.keeps id ((marked id).mpr (.inl rfl))
  refine ⟨rest.size.trans (w.size_mark id), ?_, ?_, ?_, ?_, ?_⟩
  · intro x old
    exact rest.keeps x ((marked x).mpr (.inr old))
  · intro x
    simp only [List.mem_cons]
    rw [rest.finished x, marked x]
    show _ ↔ x ∈ w.finished ∨ w'.Seen x ∧ ¬ w.Seen x
    by_cases same : x = id
    · subst same
      simp [seen, unmarked]
    · simp [same, mark]
  · intro x c s new old found' branch
    by_cases same : x = id
    · subst same
      cases found.symm.trans found'
      exact successors s branch
    · exact rest.closed x c s new (by simp [marked, same, old]) found' branch
  · intro x new old
    by_cases same : x = id
    · exact same ▸ reached
    · exact rest.reached x new (by simp [marked, same, old])
  · intro tracked nodup
    have inner := rest.nodup (fun x member => (marked x).mpr (.inr (tracked x member))) nodup
    refine List.nodup_cons.mpr ⟨fun again => ?_, inner⟩
    rcases (rest.finished id).mp again with old | ⟨_, fresh⟩
    · exact unmarked (tracked id old)
    · exact fresh ((marked id).mpr (.inl rfl))

end Walk

/-- A search from reachable blocks does what a stretch should, and leaves none of them unmarked. -/
theorem Searches.extends {f : Function} {w w' : Walk} {ids : List BlockId}
    (search : f.Searches w ids w') (reached : ∀ id ∈ ids, f.Reachable id) :
    Walk.Extends f w w' ∧ ∀ id ∈ ids, w'.seen[id.num]? ≠ some false := by
  induction search with
  | done => exact ⟨.refl f _, by simp⟩
  | skip known _ ih =>
    obtain ⟨extended, others⟩ := ih fun x member => reached x (List.mem_cons_of_mem _ member)
    exact ⟨extended, List.forall_mem_cons.mpr ⟨extended.known known, others⟩⟩
  | @enter w v w' id ids b fresh found _ _ within onward =>
    have here := reached id List.mem_cons_self
    obtain ⟨inner, successors⟩ := within fun s branch => here.step found branch
    obtain ⟨rest, others⟩ := onward fun x member => reached x (List.mem_cons_of_mem _ member)
    have entered := Walk.Extends.finish fresh here found inner successors
    have met : (w.mark id).Seen id :=
      (Walk.seen_mark (Array.getElem?_eq_some_iff.mp fresh).1).mpr (.inl rfl)
    have known : w'.seen[id.num]? = some true := rest.keeps id (inner.keeps id met)
    exact ⟨entered.trans rest, List.forall_mem_cons.mpr ⟨by simp [known], others⟩⟩

/-- Where the search begins: no block is met. -/
def Walk.start (f : Function) : Walk := ⟨Array.replicate f.blocks.size false, []⟩

/-- The reverse postorder of a function whose blocks are all there exists. It is what the search
from the entry finishes, each reachable block of the function once and no other. -/
theorem reversePostorder_searches {f : Function}
    (present : ∀ id : BlockId, id.num < f.blocks.size → ∃ b, f.block? id = some b) :
    ∃ w, f.reversePostorder = .ok w.finished ∧ f.Searches (.start f) [f.entry] w ∧
      w.finished.Nodup ∧
      ∀ id, id ∈ w.finished ↔ f.Reachable id ∧ id.num < f.blocks.size := by
  have nothing : ∀ id, ¬ (Walk.start f).Seen id := by
    intro id seen
    simp [Walk.start, Walk.Seen, Array.getElem?_replicate] at seen
  have enough : (Walk.start f).unseen < f.blocks.size + 1 := by simp [Walk.start, Walk.unseen]
  obtain ⟨w, walked, search⟩ := walk_searches present (by simp [Walk.start]) enough [f.entry]
  obtain ⟨extended, entry⟩ := search.extends (by simpa using Reachable.entry)
  have size : w.seen.size = f.blocks.size := extended.size.trans (by simp [Walk.start])
  have known : ∀ id, f.Reachable id → w.seen[id.num]? ≠ some false := by
    intro id reached
    induction reached with
    | entry => exact entry f.entry (by simp)
    | @step id s b _ found branch ih =>
      refine extended.closed id b s ?_ (nothing id) found branch
      have bound := (Array.getElem?_eq_some_iff.mp (block?_eq_some.mp found)).1
      unfold Walk.Seen
      rw [Array.getElem?_eq_getElem (size ▸ bound)] at ih ⊢
      simpa using ih
  refine ⟨w, ?_, search, extended.nodup (by simp [Walk.start]) (by simp [Walk.start]),
    fun id => ?_⟩
  · obtain ⟨v, alone, same⟩ := foldlM_cons_eq_ok.mp walked
    cases same
    exact bind_eq_ok.mpr ⟨w, alone, rfl⟩
  · rw [extended.finished id]
    constructor
    · rintro (old | ⟨seen, fresh⟩)
      · simp [Walk.start] at old
      · exact ⟨extended.reached id seen fresh, size ▸ (Array.getElem?_eq_some_iff.mp seen).1⟩
    · rintro ⟨reached, bound⟩
      have met := known id reached
      refine .inr ⟨?_, nothing id⟩
      unfold Walk.Seen
      rw [Array.getElem?_eq_getElem (size ▸ bound)] at met ⊢
      simpa using met

/-- The reverse postorder of a well-numbered function exists and lists each reachable block once,
and no other. -/
theorem reversePostorder_ok {f : Function} (numbered : f.WellNumbered) :
    ∃ order, f.reversePostorder = .ok order ∧ order.Nodup ∧
      ∀ id, id ∈ order ↔ f.Reachable id := by
  obtain ⟨w, ordered, _, nodup, listed⟩ := reversePostorder_searches numbered.present
  refine ⟨w.finished, ordered, nodup, fun id => ?_⟩
  rw [listed id, and_iff_left_iff_imp]
  exact fun reached => reached.in_range numbered

/-- The entry comes first. -/
theorem reversePostorder_head {f : Function} (entry : f.entry.num < f.blocks.size)
    {order : List BlockId} (ordered : f.reversePostorder = .ok order) :
    ∃ rest, order = f.entry :: rest := by
  unfold reversePostorder at ordered
  obtain ⟨w, walked, same⟩ := bind_eq_ok.mp ordered
  cases same
  have fresh : (Array.replicate f.blocks.size false)[f.entry.num]? = some false := by
    simp [entry]
  simp only [walk, fresh] at walked
  obtain ⟨b, _, walked⟩ := bind_eq_ok.mp walked
  obtain ⟨w', _, same⟩ := bind_eq_ok.mp walked
  cases same
  exact ⟨_, rfl⟩

end TieredEngine.Ir.Function
