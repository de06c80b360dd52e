import Mathlib.Data.List.Forall2
import TieredEngine.Crash

/-!
Successful results of computations that can fail, taken apart: a chain succeeds when each of its
parts does, and a list of them when each member does.
-/
namespace TieredEngine

variable {ε α β : Type}

theorem bind_eq_ok {x : Except ε α} {f : α → Except ε β} {b : β} :
    (x >>= f) = .ok b ↔ ∃ a, x = .ok a ∧ f a = .ok b := by
  cases x with
  | error e => simp [bind, Except.bind]
  | ok a => simp [bind, Except.bind]

theorem bind_eq_error {x : Except ε α} {f : α → Except ε β} {e : ε} :
    (x >>= f) = .error e ↔ x = .error e ∨ ∃ a, x = .ok a ∧ f a = .error e := by
  cases x with
  | error e' => simp [bind, Except.bind]
  | ok a => simp [bind, Except.bind]

theorem map_eq_ok {x : Except ε α} {f : α → β} {b : β} :
    x.map f = .ok b ↔ ∃ a, x = .ok a ∧ f a = b := by
  cases x <;> simp [Except.map]

theorem map_eq_error {x : Except ε α} {f : α → β} {e : ε} : x.map f = .error e ↔ x = .error e := by
  cases x <;> simp [Except.map]

theorem mapError_eq_error {δ : Type} {x : Except ε α} {f : ε → δ} {d : δ} :
    x.mapError f = .error d ↔ ∃ e, x = .error e ∧ f e = d := by
  cases x <;> simp [Except.mapError]

theorem mapError_eq_ok {δ : Type} {x : Except ε α} {f : ε → δ} {a : α} :
    x.mapError f = .ok a ↔ x = .ok a := by
  cases x <;> simp [Except.mapError]

theorem ok_of_toOption {x : Except ε α} {a : α} (some : x.toOption = .some a) : x = .ok a := by
  cases x with
  | error e => cases some
  | ok b => exact congrArg Except.ok (Option.some.inj some)

theorem mapM_eq_ok {f : α → Except ε β} {xs : List α} {ys : List β} :
    xs.mapM f = .ok ys ↔ List.Forall₂ (fun x y => f x = .ok y) xs ys := by
  induction xs generalizing ys with
  | nil => simp [pure, Except.pure, eq_comm]
  | cons x xs ih =>
    rw [List.mapM_cons, bind_eq_ok]
    constructor
    · rintro ⟨y, head, rest⟩
      obtain ⟨zs, tail, done⟩ := bind_eq_ok.mp rest
      cases done
      exact .cons head (ih.mp tail)
    · intro all
      cases all with
      | cons head tail => exact ⟨_, head, bind_eq_ok.mpr ⟨_, ih.mpr tail, rfl⟩⟩

/-- A list of steps that all succeed gives a list of results. -/
theorem mapM_ok_of_forall {f : α → Except ε β} {xs : List α}
    (each : ∀ x ∈ xs, ∃ y, f x = .ok y) : ∃ ys, xs.mapM f = .ok ys := by
  induction xs with
  | nil => exact ⟨[], rfl⟩
  | cons x xs ih =>
    obtain ⟨y, head⟩ := each x (by simp)
    obtain ⟨ys, tail⟩ := ih fun z member => each z (by simp [member])
    exact ⟨y :: ys, mapM_eq_ok.mpr (.cons head (mapM_eq_ok.mp tail))⟩

/-- Steps whose results are known. -/
theorem mapM_eq_map {f : α → Except ε β} {g : α → β} {xs : List α}
    (each : ∀ x ∈ xs, f x = .ok (g x)) : xs.mapM f = .ok (xs.map g) := by
  rw [mapM_eq_ok, List.forall₂_map_right_iff, List.forall₂_same]
  exact each

/-- Of steps that do not all succeed one fails. -/
theorem mapM_eq_error {f : α → Except ε β} {xs : List α} {e : ε}
    (failed : xs.mapM f = .error e) : ∃ x ∈ xs, f x = .error e := by
  induction xs with
  | nil => cases failed
  | cons x xs ih =>
    rw [List.mapM_cons] at failed
    rcases bind_eq_error.mp failed with first | ⟨y, _, rest⟩
    · exact ⟨x, by simp, first⟩
    · rcases bind_eq_error.mp rest with later | ⟨_, _, impossible⟩
      · obtain ⟨z, member, stopped⟩ := ih later
        exact ⟨z, by simp [member], stopped⟩
      · cases impossible

theorem foldlM_cons_eq_ok {f : β → α → Except ε β} {x : α} {xs : List α} {b c : β} :
    (x :: xs).foldlM f b = .ok c ↔ ∃ a, f b x = .ok a ∧ xs.foldlM f a = .ok c := by
  rw [List.foldlM_cons, bind_eq_ok]

theorem foldlM_append_eq_ok {f : β → α → Except ε β} {xs ys : List α} {b c : β} :
    (xs ++ ys).foldlM f b = .ok c ↔ ∃ a, xs.foldlM f b = .ok a ∧ ys.foldlM f a = .ok c := by
  rw [List.foldlM_append, bind_eq_ok]

/-- Each member of the first of two related lists has a partner in the second. -/
theorem forall₂_partner {R : α → β → Prop} {xs : List α} {ys : List β}
    (related : List.Forall₂ R xs ys) {x : α} (member : x ∈ xs) : ∃ y ∈ ys, R x y := by
  induction related with
  | nil => cases member
  | cons head _ ih =>
    rcases List.mem_cons.mp member with rfl | member
    · exact ⟨_, by simp, head⟩
    · obtain ⟨y, among, partner⟩ := ih member
      exact ⟨y, by simp [among], partner⟩

/-- Steps that all succeed, and what is done with their results. -/
theorem mapM_bind_ok {γ : Type} {f : α → Except ε β} {k : List β → Except ε γ} {xs : List α}
    {Q : β → Prop} (each : ∀ x ∈ xs, ∃ y, f x = .ok y ∧ Q y)
    (rest : ∀ ys, (∀ y ∈ ys, Q y) → ∃ z, k ys = .ok z) : ∃ z, (xs.mapM f >>= k) = .ok z := by
  obtain ⟨ys, all⟩ := mapM_ok_of_forall fun x member => (each x member).imp fun _ => And.left
  obtain ⟨z, done⟩ := rest ys fun y member => by
    obtain ⟨x, listed, made⟩ := forall₂_partner (mapM_eq_ok.mp all).flip member
    obtain ⟨y', made', holds⟩ := each x listed
    cases made.symm.trans made'
    exact holds
  exact ⟨z, bind_eq_ok.mpr ⟨ys, all, done⟩⟩

theorem forM_eq_ok {f : α → Except ε Unit} {xs : List α} {u : Unit} :
    xs.forM f = .ok u ↔ ∀ x ∈ xs, f x = .ok u := by
  induction xs with
  | nil => simp [pure, Except.pure]
  | cons x xs ih =>
    show (f x >>= fun _ => xs.forM f) = .ok u ↔ _
    rw [bind_eq_ok, List.forall_mem_cons, ← ih]
    exact ⟨fun ⟨_, head, tail⟩ => ⟨head, tail⟩, fun ⟨head, tail⟩ => ⟨u, head, tail⟩⟩

/-- A filter whose tests all succeed. -/
theorem filterM_eq_ok {p : α → Except ε Bool} {q : α → Bool} {xs : List α}
    (each : ∀ x ∈ xs, p x = .ok (q x)) : xs.filterM p = .ok (xs.filter q) := by
  have gathered : ∀ kept, xs.filterAuxM p kept = .ok ((xs.filter q).reverse ++ kept) := by
    induction xs with
    | nil => exact fun _ => rfl
    | cons x xs ih =>
      intro kept
      rw [List.filterAuxM, each x (by simp)]
      refine (ih (fun y member => each y (by simp [member])) _).trans ?_
      cases kind : q x <;> simp [kind]
  rw [List.filterM, gathered]
  simp [bind, Except.bind, pure, Except.pure]

theorem Crash.deref_eq_ok {x? : Option α} {x : α} : Crash.deref x? = .ok x ↔ x? = some x := by
  cases x? <;> simp [Crash.deref]

theorem Crash.lift_eq_ok {x : Except Crash α} {a : α} :
    (Crash.lift x : Except (Fault ε) α) = .ok a ↔ x = .ok a := by
  cases x <;> simp [Crash.lift]

theorem Crash.index_eq_ok {xs : List α} {i : Nat} {x : α} :
    Crash.index xs i = .ok x ↔ xs[i]? = some x := by
  unfold Crash.index
  split <;> simp_all

/-- The computation does not crash, and what it gives has the property. -/
def CrashFree (x : Except (Fault ε) α) (Q : α → Prop) : Prop :=
  (∀ c, x ≠ .error (.crash c)) ∧ ∀ a, x = .ok a → Q a

theorem CrashFree.ok {Q : α → Prop} {a : α} (holds : Q a) :
    CrashFree (.ok a : Except (Fault ε) α) Q :=
  ⟨fun _ same => (by cases same), fun _ same => Except.ok.inj same ▸ holds⟩

theorem CrashFree.error {Q : α → Prop} (e : ε) : CrashFree (.error (.error e)) Q :=
  ⟨fun _ same => (by cases same), fun _ same => (by cases same)⟩

end TieredEngine
