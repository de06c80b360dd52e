import Mathlib.Data.List.Flatten

/-!
Lists and arrays with one entry changed: what can be read off each entry and does not change with it
stays, and what the new entry has beyond the old one is added.
-/
namespace TieredEngine

variable {α β : Type}

theorem getElem?_modify_eq_some {a : Array α} {i j : Nat} {g : α → α} {x : α} :
    (a.modify i g)[j]? = some x ↔ ∃ old, a[j]? = some old ∧ x = if i = j then g old else old := by
  rw [Array.getElem?_modify]
  split
  · simp only [Option.map_eq_some_iff, @eq_comm _ x]
  · simp

theorem map_modify {f : α → β} {g : α → α} (keeps : ∀ a, f (g a) = f a) (l : List α) (j : Nat) :
    (l.modify j g).map f = l.map f := by
  induction l generalizing j with
  | nil => simp
  | cons a l ih => cases j <;> simp [keeps, ih]

theorem flatMap_modify_perm {f : α → List β} {g : α → α} {extra : List β} {j : Nat} {l : List α}
    {a : α} (there : l[j]? = some a) (more : (f (g a)).Perm (f a ++ extra)) :
    ((l.modify j g).flatMap f).Perm (l.flatMap f ++ extra) := by
  induction l generalizing j with
  | nil => cases there
  | cons b l ih =>
    cases j with
    | zero =>
      cases there
      rw [List.modify_zero_cons, List.flatMap_cons, List.flatMap_cons, List.append_assoc]
      refine (more.append_right _).trans ?_
      rw [List.append_assoc]
      exact List.perm_append_comm.append_left _
    | succ j =>
      rw [List.modify_succ_cons, List.flatMap_cons, List.flatMap_cons, List.append_assoc]
      exact (ih there).append_left _

end TieredEngine
