import TieredEngine.Proofs.Path
import TieredEngine.Ship.Manifest
import TieredEngine.Ship.Options

/-!
Where the results of a compilation are put when no output is asked for: beside the input, under its
name with another extension. The input is spared unless its name already has the extension that the
output gets. An executable gets none outside Windows, so that the description of an executable has
the name of an input that ends in `.json`.
-/
namespace TieredEngine.Ship
open TieredEngine TieredEngine.Path

/-- Paths that name one place. -/
def SamePlace (p q : String) : Prop := clean p = clean q

instance (p q : String) : Decidable (SamePlace p q) := inferInstanceAs (Decidable (_ = _))

/-- The file's name is one that an output can keep, followed by an extension. -/
def EndsIn (p ext : String) : Prop :=
  stem (base p) ∉ ["", "."] ∧ base p = stem (base p) ++ ext

instance (p ext : String) : Decidable (EndsIn p ext) := inferInstanceAs (Decidable (_ ∧ _))

/-- The extensions of outputs: none, or a point and letters. -/
theorem Format.extension_cases (f : Format) (os : String) : f.extension os = "" ∨
    ∃ x, f.extension os = "." ++ x ∧ '.' ∉ x.toList ∧ IsName (f.extension os) := by
  have point : ∀ x : String, '.' ∉ x.toList → '/' ∉ ("." ++ x).toList →
      ∃ y, "." ++ x = "." ++ y ∧ '.' ∉ y.toList ∧ IsName ("." ++ x) := fun x a b => ⟨x, rfl, a, b⟩
  unfold Format.extension
  cases f with
  | executable =>
    dsimp only
    split
    · exact .inr (point "exe" (by decide) (by decide))
    · exact .inl rfl
  | object =>
    dsimp only
    split
    · exact .inr (point "obj" (by decide) (by decide))
    · exact .inr (point "o" (by decide) (by decide))
  | llvmText => exact .inr (point "ll" (by decide) (by decide))
  | llvmBitcode => exact .inr (point "bc" (by decide) (by decide))
  | assembly => exact .inr (point "s" (by decide) (by decide))

/-- The name that an output beside an input gets. -/
def Options.outputName (o : Options) (input : String) : String :=
  (if stem (base input) ∈ ["", "."] then "a.out" else stem (base input)) ++ o.format.extension o.system

theorem Options.outputPath_eq {o : Options} (unset : o.output = "") (p : String) :
    o.outputPath p = join [dir p, o.outputName p] := by
  simp [outputPath, outputName, unset]

section Beside

variable {o : Options} {p : String}

theorem Options.outputName_nonempty (o : Options) (p : String) :
    o.outputName p ≠ "" ∧ o.outputName p ≠ "." := by
  have start : ∀ s e : String, s ≠ "" → s ≠ "." → s ++ e ≠ "" ∧ s ++ e ≠ "." := by
    intro s e nonempty noPoint
    refine ⟨fun none => nonempty (String.append_eq_empty_iff.mp none).1, fun point => ?_⟩
    have chars := congrArg String.toList point
    rw [String.toList_append, show ".".toList = ['.'] from rfl, List.append_eq_singleton_iff] at chars
    rcases chars with ⟨none, _⟩ | ⟨one, _⟩
    · exact nonempty (String.toList_injective none)
    · exact noPoint (String.toList_injective one)
  unfold outputName
  split
  · exact start _ _ (by decide) (by decide)
  · next usable =>
    simp only [List.mem_cons, List.not_mem_nil, or_false, not_or] at usable
    exact start _ _ usable.1 usable.2

theorem Options.isName_outputName (name : IsName (base p)) : IsName (o.outputName p) := by
  unfold outputName
  apply IsName.append
  · split
    · simp [IsName]
    · exact name.stem
  · rcases o.format.extension_cases o.system with none | ⟨_, _, _, free⟩
    · rw [none]
      exact isName_empty
    · exact free

/-- The output has the name of the input exactly if the input ends in the extension of the output. -/
theorem Options.outputName_eq_base_iff :
    o.outputName p = base p ↔ EndsIn p (o.format.extension o.system) := by
  unfold outputName EndsIn
  by_cases unusable : stem (base p) ∈ ["", "."]
  · rw [if_pos unusable]
    refine ⟨fun same => ?_, fun ends => absurd unusable ends.1⟩
    -- the name that stands in for an unusable one has a stem of its own
    rcases o.format.extension_cases o.system with none | ⟨x, ext, noPoint, _⟩
    · rw [← same, none, show "a.out" ++ "" = "a" ++ "." ++ "out" from rfl,
        stem_append "a" (by decide)] at unusable
      exact absurd unusable (by decide)
    · rw [← same, ext, ← String.append_assoc, stem_append "a.out" noPoint] at unusable
      exact absurd unusable (by decide)
  · rw [if_neg unusable]
    exact ⟨fun same => ⟨unusable, same.symm⟩, fun ends => ends.2.symm⟩

/-- The description of the output has the name of the input exactly if the output has no extension
and the input ends in `.json`. -/
theorem Options.outputName_json_iff : o.outputName p ++ ".json" = base p ↔
    o.format.extension o.system = "" ∧ EndsIn p ".json" := by
  constructor
  · intro same
    have cut : stem (base p) = o.outputName p := by
      rw [← same, show o.outputName p ++ ".json" = o.outputName p ++ "." ++ "json" by
        rw [String.append_assoc]; rfl, stem_append _ (by decide)]
    have usable : stem (base p) ∉ ["", "."] := by
      rw [cut]
      simpa using o.outputName_nonempty p
    refine ⟨?_, usable, by rw [cut, same]⟩
    rw [outputName, if_neg usable] at cut
    have lengths := congrArg String.length cut
    rw [String.length_append] at lengths
    exact String.length_eq_zero_iff.mp (by omega)
  · rintro ⟨none, usable, ends⟩
    rw [outputName, if_neg usable, none, String.append_empty, ← ends]

/-- Another name leads to another place. -/
theorem push_eq_cons_iff {rooted : Bool} {kept : List String} {n m : String} (proper : Proper m)
    (plain : n ≠ "" ∧ n ≠ ".") (name : IsName n) : push rooted kept n = m :: kept ↔ n = m := by
  by_cases step : n = ".."
  · subst step
    have other : ".." ≠ m := fun same => proper.noStep same.symm
    refine ⟨fun same => absurd same ?_, fun same => absurd same other⟩
    cases kept with
    | nil => cases rooted <;> simp [push, other]
    | cons top below =>
      by_cases up : top = ".."
      · simp [push, up, other]
      · have left : push rooted (top :: below) ".." = below := by simp [push, up]
        rw [left]
        intro same
        have lengths := congrArg List.length same
        simp only [List.length_cons] at lengths
        omega
  · rw [push_proper ⟨plain.1, plain.2, step, name⟩]
    simp

theorem proper_json {n : String} (name : IsName n) : Proper (n ++ ".json") := by
  have long : ∀ m : String, m.length < 5 → n ++ ".json" ≠ m := by
    intro m short same
    have lengths := congrArg String.length same
    rw [String.length_append, show ".json".length = 5 from rfl] at lengths
    omega
  exact ⟨long "" (by decide), long "." (by decide), long ".." (by decide), name.append (by simp [IsName])⟩

/-- The path of a description ends in a name with its extension. -/
theorem clean_append_json {p : String} (nonempty : p ≠ "") : ∃ n kept, Kept (isAbsolute p) kept ∧
    Proper (n ++ ".json") ∧ clean (p ++ ".json") = render (isAbsolute p) ((n ++ ".json") :: kept) := by
  obtain ⟨front, n, order, free, name⟩ := exists_last_name p
  have proper := proper_json name
  refine ⟨n, _, (Kept.nil _).pushAll free, proper, ?_⟩
  rw [clean_eq_render, isAbsolute_append nonempty, names_append_name order (by simp [IsName]),
    List.foldl_append]
  exact congrArg _ (push_proper proper _ _)

/-- An output whose name is a step up comes from that name, without an extension. -/
theorem Options.outputName_step (step : o.outputName p = "..") :
    o.format.extension o.system = "" ∧ stem (base p) = ".." := by
  have chars := congrArg String.toList step
  unfold outputName at chars
  rw [String.toList_append, show "..".toList = ['.', '.'] from rfl] at chars
  by_cases unusable : stem (base p) ∈ ["", "."]
  · rw [if_pos unusable] at chars
    cases chars
  · rw [if_neg unusable] at chars
    simp only [List.mem_cons, List.not_mem_nil, or_false, not_or] at unusable
    rcases List.append_eq_cons_iff.mp chars with ⟨none, _⟩ | ⟨rest, first, others⟩
    · exact absurd (String.toList_injective none) unusable.1
    · rcases List.append_eq_cons_iff.mp others.symm with ⟨none, _⟩ | ⟨rest', second, last⟩
      · rw [none] at first
        exact absurd (String.toList_injective first) unusable.2
      · obtain ⟨rfl, none⟩ := List.append_eq_nil_iff.mp last.symm
        rw [second] at first
        exact ⟨String.toList_injective none, String.toList_injective first⟩

end Beside

/-- Without an output of its own a compilation spares its input, unless the input's name ends in the
extension of the output, or in `.json` where the output has no extension. Then the output, or its
description, takes the input's place; a stem of two points is the one exception. -/
theorem outputs_spare_input {o : Options} (unset : o.output = "") {p : String} (file : NamesFile p)
    {a : Artifact} (made : a.path = o.outputPath p) :
    (SamePlace (o.outputPath p) p ↔ EndsIn p (o.format.extension o.system)) ∧
    (SamePlace a.manifestPath p → o.format.extension o.system = "" ∧ EndsIn p ".json") ∧
    (o.format.extension o.system = "" → EndsIn p ".json" → stem (base p) ≠ ".." →
      SamePlace a.manifestPath p) := by
  obtain ⟨kept, all, proper, directory, whole⟩ := split_of_namesFile file
  have name : IsName (o.outputName p) := Options.isName_outputName proper.name
  have plain := o.outputName_nonempty p
  have output : o.outputPath p = render (isAbsolute p) (push (isAbsolute p) kept (o.outputName p)) := by
    rw [Options.outputPath_eq unset, directory, all.join plain.1 name]
  have put := all.push name
  -- unless the output's name is a step up, the description's name is that name with its extension
  have described : o.outputName p ≠ ".." →
      (clean (o.outputPath p ++ ".json") = clean p ↔ o.outputName p ++ ".json" = base p) := by
    intro noStep
    have added := all.cons (proper_json name)
    rw [output, push_proper ⟨plain.1, plain.2, noStep, name⟩, render_append _ _ plain.1, whole,
      added.clean_render, added.render_inj (all.cons proper)]
    simp
  unfold SamePlace Artifact.manifestPath
  rw [made]
  refine ⟨?_, fun same => ?_, fun none ends stem => ?_⟩
  · rw [whole, output, put.clean_render, put.render_inj (all.cons proper),
      push_eq_cons_iff proper plain name, Options.outputName_eq_base_iff]
  · by_cases step : o.outputName p = ".."
    · obtain ⟨none, two⟩ := Options.outputName_step step
      obtain ⟨nonempty, absolute, _⟩ := put.names_render
      rw [← output] at nonempty absolute
      obtain ⟨n, kept', all', proper', text⟩ := clean_append_json nonempty
      rw [absolute] at all' text
      rw [text, whole, (all'.cons proper').render_inj (all.cons proper)] at same
      have last := (List.cons.inj same).1
      have cut : Path.stem (base p) = n := by
        rw [← last, show n ++ ".json" = n ++ "." ++ "json" by rw [String.append_assoc]; rfl,
          stem_append _ (by decide)]
      exact ⟨none, by rw [two]; decide, by rw [cut, last]⟩
    · exact Options.outputName_json_iff.mp ((described step).mp same)
  · refine (described ?_).mpr (Options.outputName_json_iff.mpr ⟨none, ends⟩)
    exact fun step => stem (Options.outputName_step step).2

/-- An object file is put beside its module, and so is its description. -/
theorem outputs_spare_input_object : NamesFile "dir/prog.json" ∧
    ¬ SamePlace (({ format := .object } : Options).outputPath "dir/prog.json") "dir/prog.json" ∧
    ¬ SamePlace ({ path := "dir/prog.o" } : Artifact).manifestPath "dir/prog.json" := by
  have file : NamesFile "dir/prog.json" := by decide +kernel
  have made : "dir/prog.o" = ({ format := .object } : Options).outputPath "dir/prog.json" := by
    decide +kernel
  obtain ⟨output, described, _⟩ :=
    @outputs_spare_input { format := .object } rfl "dir/prog.json" file { path := "dir/prog.o" } made
  refine ⟨file, fun same => absurd (output.mp same) (by decide +kernel), fun same => ?_⟩
  exact absurd (described same).1 (by decide +kernel)

/-- The description of an executable is put over the module, an executable over a module without an
extension, and LLVM text over a module with the extension of LLVM text. -/
theorem outputs_overwrite_input :
    ({} : Options).outputPath "m.json" = "m" ∧
    ({ path := "m" } : Artifact).manifestPath = "m.json" ∧
    ({} : Options).outputPath "dir/prog" = "dir/prog" ∧
    ({ format := .llvmText } : Options).outputPath "m.ll" = "m.ll" := by
  decide +kernel

end TieredEngine.Ship
