import TieredEngine.Native.X64.Disassembly
import TieredEngine.Proofs.Native.X64.Layout

/-!
What comes out of the assembler is read back as what went in. Whatever labels are made, bound and
jumped to on the way, the bytes of a finished program are decoded as its instructions, one after
the other and without a remainder, and every jump goes to the place where its label was bound last.
Finishing fails for an unbound label and for nothing else.
-/
namespace TieredEngine.Native.X64
open TieredEngine

/-- The line with other labels. -/
def Line.relabel {ℓ σ : Type} (g : ℓ → σ) : Line ℓ → Line σ
  | .instr i => .instr (i.mapTarget g)
  | .bind l => .bind (g l)

namespace Assembly

variable {ℓ ε : Type} {place : ℓ → Except ε Nat}

/-- The instructions among the lines. -/
def instrs (lines : List (Line ℓ)) : List (Instr ℓ) :=
  lines.filterMap fun
    | .instr i => some i
    | .bind _ => none

theorem mem_instrs {i : Instr ℓ} {lines : List (Line ℓ)} :
    i ∈ instrs lines ↔ .instr i ∈ lines := by
  simp only [instrs, List.mem_filterMap]
  constructor
  · rintro ⟨line, member, same⟩
    cases line with
    | instr j =>
      cases same
      exact member
    | bind l => cases same
  · intro member
    exact ⟨_, member, rfl⟩

/-- Lines that have bytes have a place for every jump. -/
theorem placed_of_encodeFrom {lines : List (Line ℓ)} {start : Nat} {code : List UInt8}
    (encoded : encodeFrom place start lines = .ok code) :
    ∀ i ∈ instrs lines, ∀ l ∈ i.target?, ∃ n, place l = .ok n := by
  induction lines generalizing start code with
  | nil => simp [instrs]
  | cons line lines ih =>
    cases line with
    | bind l => exact ih encoded
    | instr i =>
      obtain ⟨_, tail, -, following, targets⟩ := encodeFrom_instr encoded
      intro j member l named
      rcases List.mem_cons.mp member with rfl | later
      · obtain ⟨n, there, -⟩ := targets l named
        exact ⟨n, there⟩
      · exact ih following j later l named

/-- Lines fail to have bytes for the place of a jump only. -/
theorem encodeFrom_eq_error {lines : List (Line ℓ)} {start : Nat} {e : ε}
    (failed : encodeFrom place start lines = .error e) :
    ∃ i ∈ instrs lines, ∃ l ∈ i.target?, place l = .error e := by
  induction lines generalizing start with
  | nil => cases failed
  | cons line lines ih =>
    cases line with
    | bind l => exact ih failed
    | instr i =>
      have later : ∀ {head : List UInt8}, (do
          let head ← pure head
          return head ++ (← encodeFrom place (start + i.size) lines)) = .error e →
          ∃ j ∈ instrs (.instr i :: lines), ∃ l ∈ j.target?, place l = .error e := by
        intro head failed
        rcases bind_eq_error.mp failed with ⟨⟨⟩⟩ | ⟨_, -, failed⟩
        rcases bind_eq_error.mp failed with tail | ⟨_, -, ⟨⟩⟩
        obtain ⟨j, member, target⟩ := ih tail
        exact ⟨j, List.mem_cons_of_mem _ member, target⟩
      rw [encodeFrom] at failed
      split at failed
      · next l named =>
        rcases bind_eq_error.mp failed with absent | ⟨_, -, failed⟩
        · exact ⟨i, List.mem_cons_self .., l, named, absent⟩
        · exact later failed
      · exact later failed

section Relabel

variable {σ ε' : Type} {g : ℓ → σ}

/-- Bytes do not depend on what the labels are. -/
theorem encodeFrom_relabel {place : ℓ → Except ε Nat} {place' : σ → Except ε' Nat}
    {lines : List (Line ℓ)} {start : Nat} {code : List UInt8}
    (encoded : encodeFrom place start lines = .ok code)
    (agree : ∀ i, .instr i ∈ lines → ∀ l ∈ i.target?, ∀ n, place l = .ok n → place' (g l) = .ok n) :
    encodeFrom place' start (lines.map (·.relabel g)) = .ok code := by
  induction lines generalizing start code with
  | nil =>
    cases encoded
    rfl
  | cons line lines ih =>
    have later := fun i member => agree i (List.mem_cons_of_mem _ member)
    cases line with
    | bind l => exact ih encoded later
    | instr i =>
      rw [encodeFrom] at encoded
      rw [List.map_cons, Line.relabel, encodeFrom, i.size_mapTarget, i.target?_mapTarget]
      cases named : i.target? with
      | none =>
        simp only [named] at encoded
        obtain ⟨head, ⟨⟩, more⟩ := bind_eq_ok.mp encoded
        obtain ⟨tail, following, ⟨⟩⟩ := bind_eq_ok.mp more
        simp only [Option.map_none, i.mapTarget_mapTarget]
        exact bind_eq_ok.mpr ⟨_, rfl, bind_eq_ok.mpr ⟨tail, ih following later, rfl⟩⟩
      | some l =>
        simp only [named] at encoded
        obtain ⟨n, placed, more⟩ := bind_eq_ok.mp encoded
        obtain ⟨head, ⟨⟩, more⟩ := bind_eq_ok.mp more
        obtain ⟨tail, following, ⟨⟩⟩ := bind_eq_ok.mp more
        simp only [Option.map_some, i.mapTarget_mapTarget]
        refine bind_eq_ok.mpr ⟨n, agree i List.mem_cons_self l named n placed, ?_⟩
        exact bind_eq_ok.mpr ⟨_, rfl, bind_eq_ok.mpr ⟨tail, ih following later, rfl⟩⟩

/-- A label stands where it stood when no other label is changed into the same. -/
theorem boundAt?_relabel [DecidableEq ℓ] [DecidableEq σ] {l : ℓ} {lines : List (Line ℓ)}
    (apart : ∀ l', .bind l' ∈ lines → g l' = g l → l' = l) (start : Nat) :
    boundAt? (g l) start (lines.map (·.relabel g)) = boundAt? l start lines := by
  induction lines generalizing start with
  | nil => rfl
  | cons line lines ih =>
    have ih := ih fun l' member => apart l' (List.mem_cons_of_mem _ member)
    cases line with
    | instr i =>
      rw [List.map_cons, Line.relabel, boundAt?, boundAt?, i.size_mapTarget]
      exact ih _
    | bind l' =>
      have same : g l' = g l ↔ l' = l :=
        ⟨apart l' List.mem_cons_self, fun same => same ▸ rfl⟩
      rw [List.map_cons, Line.relabel, boundAt?, boundAt?, ih start]
      simp only [same]

end Relabel

end Assembly

/-- Reading on after an instruction. -/
theorem decodeAll_spelled {bytes : List UInt8} {d : Decoded} (spells : Decode.Spells bytes d)
    (some_byte : bytes ≠ []) (rest : List UInt8) (fuel offset : Nat) :
    decodeAll (fuel + 1) offset (bytes ++ rest) =
      ((d, bytes.length) :: (decodeAll fuel (offset + bytes.length) rest).1,
        (decodeAll fuel (offset + bytes.length) rest).2) := by
  cases bytes with
  | nil => exact absurd rfl some_byte
  | cons b more =>
    have read : decode (b :: (more ++ rest)) = .ok (d, more.length + 1) := spells rest
    rw [List.cons_append, decodeAll]
    simp only [read, List.drop_left, List.length_cons, Nat.add_assoc]

theorem Instr.encode_ne_nil (i : Instr Int32) : i.encode ≠ [] := by
  cases i <;> simp [Instr.encode, Instr.registers, Instr.grouped, Instr.frameAccess]

namespace Assembly

variable {ℓ ε : Type} {place : ℓ → Except ε Nat}

/-- Encoded lines are decoded as their instructions. -/
theorem decodeAll_encodeFrom {lines : List (Line ℓ)} {start : Nat} {code : List UInt8}
    (encoded : encodeFrom place start lines = .ok code)
    (legible : ∀ i ∈ instrs lines, i.Legible) (fuel : Nat) (enough : code.length ≤ fuel) :
    ∃ listing, decodeAll fuel start code = (listing, none) ∧
      listing.length = (instrs lines).length ∧
      ∀ before i after, lines = before ++ .instr i :: after → ∃ distance : ℓ → Int32,
        listing[(instrs before).length]? = some ((i.mapTarget distance).listed, i.size) ∧
        ∀ l ∈ i.target?, ∃ n, place l = .ok n ∧
          distance l = Int32.ofInt ((n : Int) - (start + size before + i.size : Nat)) := by
  induction lines generalizing start code fuel with
  | nil =>
    cases encoded
    refine ⟨[], by cases fuel <;> rfl, rfl, ?_⟩
    intro before i after split
    simp at split
  | cons line lines ih =>
    cases line with
    | bind l =>
      obtain ⟨listing, read, length, each⟩ := ih encoded legible fuel enough
      refine ⟨listing, read, length, ?_⟩
      intro before i after split
      cases before with
      | nil => cases split
      | cons first before =>
        cases split
        obtain ⟨distance, here, target⟩ := each before i after rfl
        refine ⟨distance, here, fun l' named => ?_⟩
        obtain ⟨n, there, same⟩ := target l' named
        rw [size_cons, lineSize, Nat.zero_add]
        exact ⟨n, there, same⟩
    | instr i =>
      obtain ⟨distance, tail, rfl, following, targets⟩ := encodeFrom_instr encoded
      have own : (i.mapTarget distance).Legible :=
        (legible i (List.mem_cons_self ..)).mapTarget distance
      have nonempty := (i.mapTarget distance).encode_ne_nil
      have positive := List.length_pos_iff.mpr nonempty
      rw [List.length_append] at enough
      obtain ⟨fuel, rfl⟩ : ∃ k, fuel = k + 1 := ⟨fuel - 1, by omega⟩
      obtain ⟨listing, read, length, each⟩ := ih following
        (fun j member => legible j (List.mem_cons_of_mem _ member)) fuel (by omega)
      have step := decodeAll_spelled (spells_encode _ own) nonempty tail fuel start
      rw [i.length_encode_mapTarget, read] at step
      refine ⟨_, step, congrArg (· + 1) length, ?_⟩
      intro before j after split
      cases before with
      | nil =>
        cases split
        refine ⟨distance, rfl, fun l named => ?_⟩
        obtain ⟨n, there, same⟩ := targets l named
        exact ⟨n, there, same⟩
      | cons first before =>
        cases split
        obtain ⟨distance', here, target⟩ := each before j after rfl
        refine ⟨distance', here, fun l' named => ?_⟩
        obtain ⟨n, there, same⟩ := target l' named
        rw [size_cons, lineSize, ← Nat.add_assoc]
        exact ⟨n, there, same⟩

end Assembly

/-- What is asked of an assembler while code is written. -/
inductive Directive where
  /-- Makes the next label. -/
  | label
  /-- Binds a label to the current place. -/
  | bind (label : Nat)
  | emit (i : Instr Nat)
  deriving DecidableEq, Repr

def Assembler.perform (a : Assembler) : Directive → Except Crash Assembler
  | .label => .ok a.newLabel.2
  | .bind l => a.bind l
  | .emit i => .ok (a.emit i)

/-- The assembler after directives in order. -/
def Assembler.assemble (ds : List Directive) : Except Crash Assembler := ds.foldlM perform {}

/-- Where the label of a jump stands, for the assembler that has it bound. -/
def Assembler.place (a : Assembler) (label : Nat) : Except (Fault UnboundLabel) Nat :=
  if label < a.labels then
    match Assembly.boundAt? label 0 a.lines with
    | some p => .ok p
    | none => .error (.error ⟨label⟩)
  else .error (.crash .outOfRange)

namespace Directive

/-- From `n` labels on, a label is made before anything names it, and a condition is stored in a
register that has its own low byte. -/
def Proper : Nat → List Directive → Prop
  | _, [] => True
  | n, .label :: rest => Proper (n + 1) rest
  | n, .bind l :: rest => l < n ∧ Proper n rest
  | n, .emit i :: rest => (i.Legible ∧ ∀ l ∈ i.target?, l < n) ∧ Proper n rest

/-- The instructions asked for, in order. -/
def instrs (ds : List Directive) : List (Instr Nat) :=
  ds.filterMap fun
    | .emit i => some i
    | _ => none

/-- Number of bytes of the instructions asked for. -/
def size (ds : List Directive) : Nat := ((instrs ds).map Instr.size).sum

/-- The labels that are jumped to. -/
def targets (ds : List Directive) : List Nat := (instrs ds).filterMap Instr.target?

/-- The lines that directives add. -/
def lines : List Directive → List (Line Nat)
  | [] => []
  | .label :: rest => lines rest
  | .bind l :: rest => .bind l :: lines rest
  | .emit i :: rest => .instr i :: lines rest

theorem lines_append (front back : List Directive) :
    lines (front ++ back) = lines front ++ lines back := by
  induction front with
  | nil => rfl
  | cons d front ih => cases d <;> simp [lines, ih]

theorem instrs_lines (ds : List Directive) : Assembly.instrs (lines ds) = instrs ds := by
  induction ds with
  | nil => rfl
  | cons d ds ih =>
    cases d with
    | label => exact ih
    | bind l => exact ih
    | emit i => exact congrArg (i :: ·) ih

theorem size_lines (ds : List Directive) : Assembly.size (lines ds) = size ds := by
  induction ds with
  | nil => rfl
  | cons d ds ih =>
    cases d with
    | label => exact ih
    | bind l => rw [lines, Assembly.size_cons, ih, Assembly.lineSize, Nat.zero_add]; rfl
    | emit i => rw [lines, Assembly.size_cons, ih]; rfl

theorem bind_mem_iff {l : Nat} {ds : List Directive} :
    .bind l ∈ ds ↔ l ∈ Assembly.labels (lines ds) := by
  induction ds with
  | nil => simp [lines, Assembly.labels]
  | cons d ds ih => cases d <;> simp [lines, Assembly.labels, ih]

theorem size_append (front back : List Directive) :
    size (front ++ back) = size front + size back := by
  simp [size, instrs]

theorem size_cons_emit (i : Instr Nat) (rest : List Directive) :
    size (.emit i :: rest) = i.size + size rest := rfl

/-- Proper directives are performed one after the other. -/
theorem foldlM_perform {a : Assembler} {ds : List Directive} (proper : Proper a.labels ds) :
    ds.foldlM Assembler.perform a =
      .ok { lines := a.lines ++ lines ds, labels := a.labels + ds.count .label } := by
  induction ds generalizing a with
  | nil => simp [lines, pure, Except.pure]
  | cons d ds ih =>
    rw [List.foldlM_cons]
    cases d with
    | label =>
      refine (ih (a := a.newLabel.2) proper).trans ?_
      simp [Assembler.newLabel, lines, Nat.add_assoc, Nat.add_comm 1]
    | bind l =>
      have made : a.perform (.bind l) = .ok { a with lines := a.lines ++ [.bind l] } :=
        if_pos proper.1
      rw [made]
      refine (ih (a := { a with lines := a.lines ++ [.bind l] }) proper.2).trans ?_
      simp [lines]
    | emit i =>
      refine (ih (a := a.emit i) proper.2).trans ?_
      simp [Assembler.emit, lines]

/-- The instructions of proper directives. -/
theorem Proper.instr {n : Nat} {ds : List Directive} (proper : Proper n ds) :
    ∀ i ∈ instrs ds, i.Legible ∧ ∀ l ∈ i.target?, l < n + ds.count .label := by
  induction ds generalizing n with
  | nil => simp [instrs]
  | cons d ds ih =>
    cases d with
    | label =>
      intro i member
      have known := ih proper i member
      rwa [List.count_cons_self, Nat.add_comm _ 1, ← Nat.add_assoc]
    | bind l =>
      intro i member
      have known := ih proper.2 i member
      rwa [List.count_cons_of_ne (by simp)]
    | emit j =>
      rw [List.count_cons_of_ne (by simp)]
      intro i member
      rcases List.mem_cons.mp member with rfl | later
      · refine ⟨proper.1.1, fun l named => ?_⟩
        exact Nat.lt_of_lt_of_le (proper.1.2 l named) (Nat.le_add_right ..)
      · exact ih proper.2 i later

/-- A label that is bound at all is bound last at some place. -/
theorem bound_last {l : Nat} {ds : List Directive} (bound : .bind l ∈ ds) :
    ∃ front back, ds = front ++ .bind l :: back ∧ .bind l ∉ back := by
  obtain ⟨back, front, split, last⟩ :=
    List.eq_append_cons_of_mem (List.mem_reverse.mpr bound)
  refine ⟨front.reverse, back.reverse, ?_, by simpa using last⟩
  rw [← List.reverse_reverse ds, split]
  simp

/-- The assembler that directives lead to. -/
def assembled (ds : List Directive) : Assembler := { lines := lines ds, labels := ds.count .label }

variable {ds : List Directive}

theorem Proper.performed (proper : Proper 0 ds) : Assembler.assemble ds = .ok (assembled ds) := by
  rw [Assembler.assemble, foldlM_perform proper]
  simp [assembled]

/-- A label that is jumped to has been made. -/
theorem Proper.made (proper : Proper 0 ds) {l : Nat} (target : l ∈ targets ds) :
    l < (assembled ds).labels := by
  obtain ⟨i, member, named⟩ := List.mem_filterMap.mp target
  have below := (proper.instr i member).2 l named
  rwa [Nat.zero_add] at below

theorem finish_assembled : (assembled ds).finish =
    Assembly.encodeFrom (assembled ds).place 0 (lines ds) := rfl

theorem mem_targets {l : Nat} {i : Instr Nat} (member : i ∈ Assembly.instrs (lines ds))
    (named : l ∈ i.target?) : l ∈ targets ds := by
  rw [instrs_lines] at member
  exact List.mem_filterMap.mpr ⟨i, member, named⟩

/-- A label stands where it is bound last. -/
theorem place_of_bound {l : Nat} (made : l < (assembled ds).labels) {front back : List Directive}
    (split : ds = front ++ .bind l :: back) (last : .bind l ∉ back) :
    (assembled ds).place l = .ok (size front) := by
  have there := Assembly.boundAt?_split (bind_mem_iff.not.mp last) (lines front) 0
  have whole : lines ds = lines front ++ .bind l :: lines back := by
    rw [split, lines_append, lines]
  rw [Assembler.place, if_pos made, assembled, whole, there, Nat.zero_add, size_lines]

theorem place_of_unbound {l : Nat} (made : l < (assembled ds).labels) (unbound : .bind l ∉ ds) :
    (assembled ds).place l = .error (.error ⟨l⟩) := by
  have nowhere : Assembly.boundAt? l 0 (lines ds) = none :=
    Assembly.boundAt?_eq_none.mpr (bind_mem_iff.not.mp unbound)
  rw [Assembler.place, if_pos made, assembled, nowhere]

/-- Finishing fails for a label that is jumped to and bound nowhere. -/
theorem Proper.finish_eq_error (proper : Proper 0 ds) {e : Fault UnboundLabel}
    (failed : (assembled ds).finish = .error e) :
    ∃ l ∈ targets ds, .bind l ∉ ds ∧ e = .error ⟨l⟩ := by
  rw [finish_assembled] at failed
  obtain ⟨i, member, l, named, absent⟩ := Assembly.encodeFrom_eq_error failed
  have target := mem_targets member named
  by_cases bound : .bind l ∈ ds
  · obtain ⟨front, back, split, last⟩ := bound_last bound
    rw [place_of_bound (proper.made target) split last] at absent
    cases absent
  · rw [place_of_unbound (proper.made target) bound] at absent
    cases absent
    exact ⟨l, target, bound, rfl⟩

/-- Finished code has every label bound that it jumps to. -/
theorem Proper.bound_of_finish (proper : Proper 0 ds) {code : List UInt8}
    (finished : (assembled ds).finish = .ok code) {l : Nat} (target : l ∈ targets ds) :
    .bind l ∈ ds := by
  by_contra unbound
  obtain ⟨i, member, named⟩ := List.mem_filterMap.mp target
  rw [finish_assembled] at finished
  rw [← instrs_lines] at member
  obtain ⟨n, there⟩ := Assembly.placed_of_encodeFrom finished i member l named
  rw [place_of_unbound (proper.made target) unbound] at there
  cases there

/-- Code whose labels are bound is finished. -/
theorem Proper.finish_of_bound (proper : Proper 0 ds) (bound : ∀ l ∈ targets ds, .bind l ∈ ds) :
    ∃ code, (assembled ds).finish = .ok code := by
  cases finished : (assembled ds).finish with
  | ok code => exact ⟨code, rfl⟩
  | error e =>
    obtain ⟨l, target, unbound, -⟩ := proper.finish_eq_error finished
    exact absurd (bound l target) unbound

/-- In finished code a jump's distance is that to the last place of its label. -/
theorem Proper.lands (proper : Proper 0 ds) (short : size ds < reach) {before after : List Directive}
    {i : Instr Nat} (split : ds = before ++ .emit i :: after) {l : Nat} (named : l ∈ i.target?)
    (bound : .bind l ∈ ds) {n : Nat} (there : (assembled ds).place l = .ok n) :
    ∃ front back, ds = front ++ .bind l :: back ∧ .bind l ∉ back ∧
      (size before + i.size : Nat) +
        (Int32.ofInt ((n : Int) - (size before + i.size : Nat))).toInt = size front := by
  have target : l ∈ targets ds := by
    refine List.mem_filterMap.mpr ⟨i, ?_, named⟩
    rw [split, instrs, List.filterMap_append]
    simp
  obtain ⟨front, back, parts, last⟩ := bound_last bound
  rw [place_of_bound (proper.made target) parts last] at there
  cases there
  have end_le : size before + i.size ≤ size ds := by
    rw [split, size_append, size_cons_emit]
    omega
  have place_le : size front ≤ size ds := by
    rw [parts, size_append]
    omega
  refine ⟨front, back, parts, last, ?_⟩
  rw [toInt_distance (Nat.lt_of_le_of_lt end_le short) (Nat.lt_of_le_of_lt place_le short)]
  omega

end Directive

open Directive

/-- What an assembler is asked for is what its code is decoded as: proper directives are performed,
finishing fails only where a jump's label is bound nowhere, and short of the reach of a jump the
listing of the code has the instructions in order, each jump leading to its label's last place. -/
theorem decoded_as_assembled (ds : List Directive) (proper : Proper 0 ds) :
    ∃ a, Assembler.assemble ds = .ok a ∧
      ((∃ e, a.finish = .error e) ↔ ∃ l ∈ targets ds, .bind l ∉ ds) ∧
      (∀ e, a.finish = .error e → ∃ l ∈ targets ds, .bind l ∉ ds ∧ e = .error ⟨l⟩) ∧
      ((∀ l ∈ targets ds, .bind l ∈ ds) → size ds < 2 ^ 31 → ∃ code listing,
        a.finish = .ok code ∧ code.length = size ds ∧
        decodeAll code.length 0 code = (listing, none) ∧
        listing.length = (instrs ds).length ∧
        ∀ before i after, ds = before ++ .emit i :: after → ∃ distance : Nat → Int32,
          listing[(instrs before).length]? = some ((i.mapTarget distance).listed, i.size) ∧
          ∀ l ∈ i.target?, ∃ front back, ds = front ++ .bind l :: back ∧ .bind l ∉ back ∧
            (size before + i.size : Nat) + (distance l).toInt = size front) := by
  refine ⟨assembled ds, proper.performed, ⟨?_, ?_⟩, fun e => proper.finish_eq_error, ?_⟩
  · rintro ⟨e, failed⟩
    obtain ⟨l, target, unbound, -⟩ := proper.finish_eq_error failed
    exact ⟨l, target, unbound⟩
  · rintro ⟨l, target, unbound⟩
    cases finished : (assembled ds).finish with
    | error e => exact ⟨e, rfl⟩
    | ok code => exact absurd (proper.bound_of_finish finished target) unbound
  · intro bound short
    obtain ⟨code, finished⟩ := proper.finish_of_bound bound
    rw [finish_assembled] at finished
    have legible : ∀ i ∈ Assembly.instrs (lines ds), i.Legible := by
      intro i member
      rw [instrs_lines] at member
      exact (proper.instr i member).1
    obtain ⟨listing, read, count, each⟩ :=
      Assembly.decodeAll_encodeFrom finished legible code.length (Nat.le_refl _)
    refine ⟨code, listing, finished, ?_, read, ?_, ?_⟩
    · rw [Assembly.length_encodeFrom finished]
      exact size_lines ds
    · rw [count, instrs_lines]
    · intro before i after split
      have whole : lines ds = lines before ++ .instr i :: lines after := by
        rw [split, lines_append, lines]
      obtain ⟨distance, here, jumps⟩ := each _ i _ whole
      rw [instrs_lines] at here
      refine ⟨distance, here, fun l named => ?_⟩
      obtain ⟨n, there, same⟩ := jumps l named
      rw [Nat.zero_add, size_lines] at same
      rw [same]
      refine proper.lands short split named (bound l ?_) there
      exact mem_targets (Assembly.mem_instrs.mpr (by simp [whole])) named

/-- A loop that jumps forwards out of itself and back to its start. -/
def loopDirectives : List Directive :=
  [.label, .label, .bind 0, .emit (.alu .cmp .r9 .rax), .emit (.jcc .ge 1), .emit (.setcc .l .rbx),
    .emit (.movImm .r10 7), .emit (.jmp 0), .bind 1, .emit (.store (-16) .r9), .emit .ret]

theorem decoded_as_assembled_loop : Proper 0 loopDirectives ∧ ∃ a code listing,
    Assembler.assemble loopDirectives = .ok a ∧ a.finish = .ok code ∧ code.length = 35 ∧
      decodeAll code.length 0 code = (listing, none) ∧ listing.length = 7 := by
  have proper : Proper 0 loopDirectives := by simp [loopDirectives, Proper, Instr.Legible,
    Instr.target?, Reg.code]
  refine ⟨proper, ?_⟩
  obtain ⟨a, assembled, -, -, decoded⟩ := decoded_as_assembled loopDirectives proper
  obtain ⟨code, listing, finished, length, read, count, -⟩ := decoded (by decide) (by decide)
  exact ⟨a, code, listing, assembled, finished, length, read, count⟩

end TieredEngine.Native.X64
