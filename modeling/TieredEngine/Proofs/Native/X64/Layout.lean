import Mathlib.Algebra.Ring.Nat
import TieredEngine.Native.X64.Assembly
import TieredEngine.Proofs.Except
import TieredEngine.Proofs.Native.X64.RoundTrip

/-!
Where the lines of assembly come to stand. A finished program holds at each line's offset the
instruction of that line, with the distance to the label it jumps to; labels that are bound once
stand where they are bound, and code within the reach of a jump is jumped through as written.
-/
namespace TieredEngine.Native.X64
open TieredEngine

/-- Farthest that a jump reaches. -/
def reach : Nat := 2 ^ 31

/-- A distance within reach is not cut. -/
theorem toInt_distance {here there : Nat} (close : here < reach) (near : there < reach) :
    (Int32.ofInt ((there : Int) - here)).toInt = there - here := by
  unfold reach at close near
  exact Int32.toInt_ofInt_of_le (by omega) (by omega)

namespace Instr

variable {τ : Type}

theorem length_encode_mapTarget (i : Instr τ) (f : τ → Int32) :
    (i.mapTarget f).encode.length = i.size := by
  cases i <;> rfl

theorem size_mapTarget {σ : Type} (i : Instr σ) (f : σ → τ) : (i.mapTarget f).size = i.size := by
  cases i <;> rfl

theorem target?_mapTarget {σ : Type} (i : Instr σ) (f : σ → τ) :
    (i.mapTarget f).target? = i.target?.map f := by
  cases i <;> rfl

theorem mapTarget_mapTarget {σ υ : Type} (i : Instr σ) (f : σ → τ) (g : τ → υ) :
    (i.mapTarget f).mapTarget g = i.mapTarget (g ∘ f) := by
  cases i <;> rfl

theorem Legible.mapTarget {σ : Type} {i : Instr σ} (legible : i.Legible) (f : σ → τ) :
    (i.mapTarget f).Legible := by
  cases i <;> exact legible

theorem mapTarget_of_target? {σ : Type} {i : Instr σ} (none : i.target? = none) (f g : σ → τ) :
    i.mapTarget f = i.mapTarget g := by
  cases i <;> first | rfl | cases none

theorem mapTarget_of_target?_some {σ : Type} {i : Instr σ} {l : σ} (some : i.target? = some l)
    {f g : σ → τ} (same : f l = g l) : i.mapTarget f = i.mapTarget g := by
  cases i <;> cases some <;> simp [Instr.mapTarget, same]

end Instr

theorem getElem?_from' (bytes : List UInt8) (acc : Program) (k : Nat) :
    (Program.ofBytes.from' bytes acc)[k]? =
      if k < acc.size then acc[k]?
      else if k < acc.size + bytes.length then some (instrAt (bytes.drop (k - acc.size)))
      else none := by
  induction bytes generalizing acc with
  | nil =>
    simp only [Program.ofBytes.from', List.length_nil, Nat.add_zero]
    split
    · rfl
    · next beyond => simpa using beyond
  | cons b bytes ih =>
    rw [Program.ofBytes.from', ih, Array.size_push, Array.getElem?_push]
    by_cases before : k < acc.size
    · rw [if_pos (by omega), if_neg (by omega), if_pos before]
    · by_cases here : k = acc.size
      · simp [here]
      · rw [if_neg (by omega), if_neg before, List.length_cons]
        by_cases inside : k < acc.size + 1 + bytes.length
        · rw [if_pos inside, if_pos (by omega), show k - acc.size = k - (acc.size + 1) + 1 by omega,
            List.drop_succ_cons]
        · rw [if_neg inside, if_neg (by omega)]

/-- A program holds at an offset the instruction whose bytes stand there. -/
theorem getElem?_ofBytes (front rest : List UInt8) (i : Instr Int32) (legible : i.Legible) :
    (Program.ofBytes (front ++ (i.encode ++ rest)))[front.length]? =
      some (some (i, i.encode.length)) := by
  have some_byte : 0 < i.encode.length := by
    cases i <;> simp [Instr.encode, Instr.registers, Instr.grouped, Instr.frameAccess]
  rw [Program.ofBytes, getElem?_from']
  simp only [Array.size_empty, Nat.not_lt_zero, if_false, Nat.zero_add, List.length_append,
    Nat.sub_zero, List.drop_left]
  rw [if_pos (by omega), instrAt_encode i legible]

namespace Assembly

variable {ℓ : Type}

@[simp] theorem size_nil : size ([] : List (Line ℓ)) = 0 := rfl

theorem size_cons (line : Line ℓ) (lines : List (Line ℓ)) :
    size (line :: lines) = lineSize line + size lines := by
  have shift : ∀ (lines : List (Line ℓ)) (n : Nat),
      lines.foldl (fun n l => n + lineSize l) n = n + size lines := by
    intro lines
    induction lines with
    | nil => intro n; rfl
    | cons line lines ih =>
      intro n
      rw [size, List.foldl_cons, List.foldl_cons, ih, ih (0 + lineSize line)]
      omega
  rw [size, List.foldl_cons, shift]
  omega

/-- The labels that lines bind, in order. -/
def labels : List (Line ℓ) → List ℓ
  | [] => []
  | .instr _ :: rest => labels rest
  | .bind l :: rest => l :: labels rest

theorem labels_append (front rest : List (Line ℓ)) :
    labels (front ++ rest) = labels front ++ labels rest := by
  induction front with
  | nil => rfl
  | cons line front ih => cases line <;> simp [labels, ih]

theorem mem_labels_iff {l : ℓ} {lines : List (Line ℓ)} : l ∈ labels lines ↔ .bind l ∈ lines := by
  induction lines with
  | nil => simp [labels]
  | cons line lines ih => cases line <;> simp [labels, ih]

@[simp] theorem labels_instrs (code : List (Instr ℓ)) : labels (code.map Line.instr) = [] := by
  induction code with
  | nil => rfl
  | cons i code ih => simpa [labels] using ih

section Bound

variable [DecidableEq ℓ]

theorem boundAt?_eq_none {l : ℓ} {lines : List (Line ℓ)} {start : Nat} :
    boundAt? l start lines = none ↔ l ∉ labels lines := by
  induction lines generalizing start with
  | nil => simp [boundAt?, labels]
  | cons line lines ih =>
    cases line with
    | instr i => exact ih
    | bind l' =>
      rw [labels, List.mem_cons, not_or, ← @ih start, boundAt?]
      cases boundAt? l start lines with
      | none => simp [eq_comm]
      | some n => simp

/-- A label stands where it is bound last. -/
theorem boundAt?_split {l : ℓ} {after : List (Line ℓ)} (last : l ∉ labels after)
    (before : List (Line ℓ)) (start : Nat) :
    boundAt? l start (before ++ .bind l :: after) = some (start + size before) := by
  induction before generalizing start with
  | nil => simp [boundAt?, boundAt?_eq_none.mpr last]
  | cons line before ih =>
    cases line with
    | instr i =>
      rw [List.cons_append, boundAt?, ih, size_cons, lineSize, Nat.add_assoc]
    | bind l' =>
      rw [List.cons_append, boundAt?, ih, size_cons, lineSize, Nat.zero_add]

theorem boundAt?_le {l : ℓ} {lines : List (Line ℓ)} {start n : Nat}
    (bound : boundAt? l start lines = some n) : n ≤ start + size lines := by
  induction lines generalizing start with
  | nil => cases bound
  | cons line lines ih =>
    rw [size_cons]
    cases line with
    | instr i =>
      have below := ih bound
      simp only [lineSize]
      omega
    | bind l' =>
      simp only [lineSize]
      simp only [boundAt?] at bound
      split at bound
      · next later =>
        cases bound
        have below := ih later
        omega
      · split at bound
        · cases bound
          omega
        · cases bound

end Bound

/-- From an offset on the program consists of the lines, whose labels stand at their places. -/
def Laid (p : Program) (place : ℓ → Nat) : Nat → List (Line ℓ) → Prop
  | _, [] => True
  | ip, .bind l :: rest => place l = ip ∧ Laid p place ip rest
  | ip, .instr i :: rest =>
    p[ip]? = some (some (i.mapTarget fun l => Int32.ofInt ((place l : Int) - (ip + i.size : Nat)),
      i.size)) ∧
    ip + i.size < reach ∧ (∀ l ∈ i.target?, place l < reach) ∧ Laid p place (ip + i.size) rest

theorem Laid.append {p : Program} {place : ℓ → Nat} {ip : Nat} {front rest : List (Line ℓ)}
    (laid : Laid p place ip (front ++ rest)) : Laid p place (ip + size front) rest := by
  induction front generalizing ip with
  | nil => exact laid
  | cons line front ih =>
    rw [size_cons, ← Nat.add_assoc]
    cases line with
    | instr i => exact ih laid.2.2.2
    | bind l => exact ih laid.2

/-- What the bytes of an instruction are followed by. -/
theorem encodeFrom_instr {ε : Type} {place : ℓ → Except ε Nat} {start : Nat} {i : Instr ℓ}
    {rest : List (Line ℓ)} {code : List UInt8}
    (encoded : encodeFrom place start (.instr i :: rest) = .ok code) :
    ∃ (distance : ℓ → Int32) (tail : List UInt8),
      code = (i.mapTarget distance).encode ++ tail ∧
      encodeFrom place (start + i.size) rest = .ok tail ∧
      ∀ l ∈ i.target?, ∃ n, place l = .ok n ∧
        distance l = Int32.ofInt ((n : Int) - (start + i.size : Nat)) := by
  rw [encodeFrom] at encoded
  split at encoded
  · next l named =>
    obtain ⟨n, placed, more⟩ := bind_eq_ok.mp encoded
    obtain ⟨head, ⟨⟩, more⟩ := bind_eq_ok.mp more
    obtain ⟨tail, following, same⟩ := bind_eq_ok.mp more
    cases same
    refine ⟨_, tail, rfl, following, fun l' named' => ?_⟩
    rw [named, Option.mem_def, Option.some.injEq] at named'
    exact ⟨n, named' ▸ placed, rfl⟩
  · next named =>
    obtain ⟨head, ⟨⟩, more⟩ := bind_eq_ok.mp encoded
    obtain ⟨tail, following, same⟩ := bind_eq_ok.mp more
    cases same
    refine ⟨_, tail, rfl, following, fun l' named' => ?_⟩
    rw [named] at named'
    cases named'

theorem length_encodeFrom {ε : Type} {place : ℓ → Except ε Nat} {lines : List (Line ℓ)}
    {start : Nat} {code : List UInt8} (encoded : encodeFrom place start lines = .ok code) :
    code.length = size lines := by
  induction lines generalizing start code with
  | nil =>
    cases encoded
    rfl
  | cons line lines ih =>
    rw [size_cons]
    cases line with
    | bind l => rw [ih encoded, lineSize, Nat.zero_add]
    | instr i =>
      obtain ⟨_, tail, rfl, following, _⟩ := encodeFrom_instr encoded
      rw [List.length_append, ih following, i.length_encode_mapTarget, lineSize]

/-- Encoded lines are laid out in the program they give. -/
theorem laid_of_encodeFrom {ε : Type} {place : ℓ → Except ε Nat} {stands : ℓ → Nat}
    (agree : ∀ l n, place l = .ok n → stands l = n ∧ n < reach)
    {rest : List (Line ℓ)} {front code : List UInt8} {whole : List UInt8}
    (split : whole = front ++ code) (short : whole.length < reach)
    (encoded : encodeFrom place front.length rest = .ok code)
    (legible : ∀ i, .instr i ∈ rest → i.Legible)
    (bound : ∀ before l after, rest = before ++ .bind l :: after →
      stands l = front.length + size before) :
    Laid (Program.ofBytes whole) stands front.length rest := by
  induction rest generalizing front code with
  | nil => exact trivial
  | cons line rest ih =>
    cases line with
    | bind l =>
      refine ⟨by simpa using bound [] l rest rfl, ih split encoded (fun i member => ?_) ?_⟩
      · exact legible i (List.mem_cons_of_mem _ member)
      · intro before l' after same
        have there := bound (.bind l :: before) l' after (by rw [same]; rfl)
        rwa [size_cons, lineSize, Nat.zero_add] at there
    | instr i =>
      obtain ⟨distance, tail, rfl, following, targets⟩ := encodeFrom_instr encoded
      have target : ∀ l ∈ i.target?, stands l < reach := by
        intro l named
        obtain ⟨n, placed, _⟩ := targets l named
        obtain ⟨there, near⟩ := agree l n placed
        omega
      have written : i.mapTarget distance = i.mapTarget fun l =>
          Int32.ofInt ((stands l : Int) - (front.length + i.size : Nat)) := by
        cases named : i.target? with
        | none => exact Instr.mapTarget_of_target? named _ _
        | some l =>
          obtain ⟨n, placed, same⟩ := targets l named
          refine Instr.mapTarget_of_target?_some named ?_
          rw [same, (agree l n placed).1]
      have length := i.length_encode_mapTarget distance
      have own : i.Legible := legible i (List.mem_cons_self ..)
      subst split
      refine ⟨?_, ?_, target, ?_⟩
      · have there := getElem?_ofBytes front tail _ (own.mapTarget distance)
        rw [length] at there
        rw [there, written]
      · simp only [List.length_append] at short
        omega
      · have next := @ih (front ++ (i.mapTarget distance).encode) tail (by simp)
          (by rw [List.length_append, length]; exact following)
          (fun j member => legible j (List.mem_cons_of_mem _ member)) ?_
        · rwa [List.length_append, length] at next
        · intro before l' after same
          have there := bound (.instr i :: before) l' after (by rw [same]; rfl)
          rw [size_cons, lineSize] at there
          rw [List.length_append, length]
          omega

end Assembly

end TieredEngine.Native.X64
