import TieredEngine.Native.Convention
import TieredEngine.Proofs.Except
import Mathlib.Data.List.Forall2

/-!
The calling convention on signatures of integer words: parameters get the integer registers in their
order, and placing arguments of the parameters' types puts each word into the register of its
position.
-/
namespace TieredEngine.Native.Convention
open TieredEngine TieredEngine.Ir

/-- Places of words from the register `first` on. -/
def wordPlaces (first count : Nat) : List ArgPlace :=
  (List.range' first count).map fun n => ⟨false, n⟩

theorem wordPlaces_succ (first count : Nat) :
    wordPlaces first (count + 1) = ⟨false, first⟩ :: wordPlaces (first + 1) count := rfl

/-- Integer parameters get the next integer registers. -/
theorem foldlM_place {ts : List Ty} (words : ∀ t ∈ ts, t.isFloat = false) {c c' : Convention}
    (few : c.ints ≤ maxIntArgs) (placed : ts.foldlM place c = .ok c') :
    c'.sig = c.sig ∧ c'.places = c.places ++ wordPlaces c.ints ts.length ∧
      c.ints + ts.length ≤ maxIntArgs ∧ ∀ t ∈ ts, t.isIntLike = true := by
  induction ts generalizing c with
  | nil =>
    cases placed
    exact ⟨rfl, by simp [wordPlaces], few, by simp⟩
  | cons t ts ih =>
    obtain ⟨d, first, rest⟩ := bind_eq_ok.mp placed
    unfold place at first
    rw [if_neg (by simp [words t (by simp)])] at first
    split at first
    · next int =>
      split at first
      · cases first
      · next room =>
        cases first
        have room : c.ints + 1 ≤ maxIntArgs := by omega
        obtain ⟨sig, places, count, ints⟩ := ih (fun u member => words u (by simp [member])) room rest
        refine ⟨sig, ?_, ?_, List.forall_mem_cons.mpr ⟨int, ints⟩⟩
        · rw [places, List.append_assoc]
          rfl
        · rw [List.length_cons]
          dsimp only at count
          omega
    · cases first

theorem ofSignature_words {sig : Signature} {c : Convention} (made : ofSignature sig = .ok c)
    (words : ∀ t ∈ sig.params, t.isFloat = false) :
    c.sig = sig ∧ c.places = wordPlaces 0 sig.params.length ∧ sig.params.length ≤ maxIntArgs ∧
      ∀ t ∈ sig.params, t.isIntLike = true := by
  obtain ⟨same, places, count, ints⟩ := foldlM_place words (Nat.zero_le _) made
  exact ⟨same, by simpa using places, by simpa using count, ints⟩

/-- A convention is for its signature, and has a place for each parameter. -/
theorem ofSignature_places {sig : Signature} {c : Convention} (made : ofSignature sig = .ok c) :
    c.sig = sig ∧ c.places.length = sig.params.length := by
  have counts : ∀ (ts : List Ty) (c c' : Convention), ts.foldlM place c = .ok c' →
      c'.sig = c.sig ∧ c'.places.length = c.places.length + ts.length := by
    intro ts
    induction ts with
    | nil =>
      rintro c _ ⟨⟩
      exact ⟨rfl, rfl⟩
    | cons t ts ih =>
      intro c c' placed
      obtain ⟨d, first, rest⟩ := bind_eq_ok.mp placed
      obtain ⟨sig, places⟩ := ih d c' rest
      have one : d.sig = c.sig ∧ d.places.length = c.places.length + 1 := by
        unfold place at first
        split at first
        · split at first <;> cases first
          exact ⟨rfl, by simp⟩
        · split at first
          · split at first <;> cases first
            exact ⟨rfl, by simp⟩
          · cases first
      exact ⟨sig.trans one.1, by rw [places, one.2, List.length_cons]; omega⟩
  simpa using counts sig.params ⟨sig, [], 0, 0⟩ c made

/-- Only arguments of the parameters' types are placed. -/
theorem matching_of_putArguments {ts : List Ty} {ps : List ArgPlace} {args : List Value}
    {w w' : Words} {position : Nat} (places : ps.length = ts.length) (count : args.length = ts.length)
    (put : putArguments w position ts ps args = .ok w') : args.map (·.ty) = ts := by
  induction args generalizing ts ps w position with
  | nil => simpa using count.symm
  | cons a args ih =>
    cases ts with
    | nil => cases count
    | cons t ts =>
      cases ps with
      | nil => cases places
      | cons p ps =>
        obtain ⟨next, first, rest⟩ := bind_eq_ok.mp put
        rw [List.map_cons, ih (Nat.succ.inj places) (Nat.succ.inj count) rest]
        unfold putArgument at first
        split at first
        · cases first
        · next same => rw [show a.ty = t by simpa using same]

theorem matching_of_marshal {sig : Signature} {c : Convention} (made : ofSignature sig = .ok c)
    {args : List Value} {w : Words} (marshalled : c.marshal args = .ok w) :
    args.map (·.ty) = sig.params := by
  obtain ⟨same, places⟩ := ofSignature_places made
  unfold marshal at marshalled
  split at marshalled
  · cases marshalled
  · next count =>
    rw [same] at marshalled
    exact matching_of_putArguments places ((not_not.mp count).trans places) marshalled

/-- Words go to the registers of their positions, and nowhere else. -/
theorem putArguments_words {args : List Value} (w : Words) (position first : Nat)
    (room : first + args.length ≤ w.ints.size) :
    ∃ w', putArguments w position (args.map (·.ty)) (wordPlaces first args.length) args = .ok w' ∧
      w'.ints.size = w.ints.size ∧
      (∀ n, n < first → w'.ints[n]? = w.ints[n]?) ∧
      ∀ n v, args[n]? = some v → w'.ints[first + n]? = some v.bits := by
  induction args generalizing w position first with
  | nil => exact ⟨w, rfl, rfl, fun _ _ => rfl, by simp⟩
  | cons a args ih =>
    simp only [List.length_cons] at room
    let next : Words := { w with ints := w.ints.setIfInBounds first a.bits }
    have size : next.ints.size = w.ints.size := by simp [next]
    obtain ⟨w', put, size', before, after⟩ := ih next (position + 1) (first + 1) (by omega)
    have stored : putArgument w position a.ty ⟨false, first⟩ a = .ok next := by simp [putArgument, next]
    refine ⟨w', ?_, size'.trans size, fun n below => ?_, fun n v at_n => ?_⟩
    · rw [List.length_cons, wordPlaces_succ, List.map_cons, putArguments, stored]
      exact put
    · rw [before n (by omega)]
      simp only [next, Array.getElem?_setIfInBounds]
      rw [if_neg (by omega)]
    · cases n with
      | zero =>
        cases at_n
        rw [Nat.add_zero, before first (by omega)]
        simp only [next, Array.getElem?_setIfInBounds, if_true]
        rw [if_pos (by omega)]
      | succ n =>
        have there := after n v at_n
        rwa [Nat.add_right_comm] at there

/-- Arguments of the parameters' types are placed, each in the register of its position. -/
theorem marshal_words {sig : Signature} {c : Convention} (made : ofSignature sig = .ok c)
    (words : ∀ t ∈ sig.params, t.isFloat = false) {args : List Value}
    (matching : args.map (·.ty) = sig.params) :
    ∃ w, c.marshal args = .ok w ∧ w.ints.size = 8 ∧
      ∀ (n : Nat) (v : Value), args[n]? = some v → w.ints[n]? = some v.bits := by
  obtain ⟨same, places, few, _⟩ := ofSignature_words made words
  have count : args.length = sig.params.length := by rw [← matching, List.length_map]
  have room : 0 + args.length ≤ ({} : Words).ints.size := by
    have eight : ({} : Words).ints.size = 8 := rfl
    unfold maxIntArgs at few
    omega
  obtain ⟨w, put, size, _, held⟩ := putArguments_words {} 0 0 room
  refine ⟨w, ?_, by simpa using size, by simpa using held⟩
  unfold marshal
  rw [if_neg (by simp [places, wordPlaces, count]), same, places, ← matching, List.length_map]
  exact put

end TieredEngine.Native.Convention
