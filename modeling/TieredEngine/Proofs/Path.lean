import TieredEngine.Path

/-!
Cleaned paths. A cleaned path is the text of a list of names without empty names, points and steps
up that have something to leave. Cleaning it again changes nothing, and adding a name to it adds the
name to the list. So a file beside another one is told from it by its last name.
-/
namespace TieredEngine.Path
open TieredEngine

/-- A text without slashes. -/
def IsName (n : String) : Prop := '/' ∉ n.toList

theorem isName_empty : IsName "" := by simp [IsName]

theorem IsName.append {n q : String} (first : IsName n) (second : IsName q) : IsName (n ++ q) := by
  unfold IsName at *
  simp [first, second]

theorem names_eq (p : String) : names p = (p.toList.splitOn '/').map String.ofList := by
  have split : ∀ cs : List Char, cs.foldr
      (fun c (acc : List Char × List String) =>
        if c == '/' then ([], String.ofList acc.1 :: acc.2) else (c :: acc.1, acc.2)) ([], []) =
      ((cs.splitOn '/').headD [], (cs.splitOn '/').tail.map String.ofList) := by
    intro cs
    induction cs with
    | nil => rfl
    | cons c cs ih =>
      rw [List.foldr_cons, ih, List.splitOn_cons_eq_if_modifyHead]
      obtain ⟨first, rest, parts⟩ : ∃ first rest, cs.splitOn '/' = first :: rest :=
        List.exists_cons_of_ne_nil (List.splitOn_ne_nil '/' cs)
      rw [parts]
      by_cases slash : c = '/' <;> simp [slash]
  unfold names Text.splitAt
  dsimp only
  rw [split]
  obtain ⟨first, rest, parts⟩ : ∃ first rest, p.toList.splitOn '/' = first :: rest :=
    List.exists_cons_of_ne_nil (List.splitOn_ne_nil '/' _)
  simp [parts]

theorem names_ne_nil (p : String) : names p ≠ [] := by
  rw [names_eq]
  simp

theorem intercalate_names (p : String) : String.intercalate "/" (names p) = p := by
  apply String.toList_injective
  rw [String.toList_intercalate, names_eq, List.map_map]
  simp [Function.comp_def]

theorem names_intercalate {ns : List String} (free : ∀ n ∈ ns, IsName n) (some : ns ≠ []) :
    names (String.intercalate "/" ns) = ns := by
  have parts : ("/".toList.intercalate (ns.map String.toList)).splitOn '/' = ns.map String.toList :=
    List.splitOn_intercalate '/' (List.forall_mem_map.mpr free) (by simpa using some)
  rw [names_eq, String.toList_intercalate, parts]
  simp

theorem names_append (p q : String) : names (p ++ "/" ++ q) = names p ++ names q := by
  have whole : (p ++ "/" ++ q).toList = p.toList ++ '/' :: q.toList := by simp
  rw [names_eq, whole, List.splitOn_append_cons_self, List.map_append, ← names_eq, ← names_eq]

theorem names_of_isName {n : String} (name : IsName n) : names n = [n] := by
  rw [names_eq, List.splitOn_eq_singleton name]
  simp

theorem isName_of_mem {p n : String} (member : n ∈ names p) : IsName n := by
  have free : ∀ cs : List Char, ∀ part ∈ cs.splitOn '/', '/' ∉ part := by
    intro cs
    induction cs with
    | nil => simp
    | cons c cs ih =>
      rw [List.splitOn_cons_eq_if_modifyHead]
      obtain ⟨first, rest, parts⟩ : ∃ first rest, cs.splitOn '/' = first :: rest :=
        List.exists_cons_of_ne_nil (List.splitOn_ne_nil '/' cs)
      rw [parts] at ih ⊢
      by_cases slash : c = '/'
      · simpa [slash] using ih
      · have other : ¬ '/' = c := fun equal => slash equal.symm
        simpa [slash, other] using ih
  rw [names_eq] at member
  obtain ⟨part, listed, rfl⟩ := List.mem_map.mp member
  simpa [IsName] using free _ part listed

/-- What a list of names kept by cleaning looks like, the last name first: none is empty or a point,
and going through them again keeps them all. -/
structure Kept (rooted : Bool) (kept : List String) : Prop where
  plain : ∀ n ∈ kept, n ≠ "" ∧ n ≠ "." ∧ IsName n
  stable : kept.reverse.foldl (push rooted) [] = kept

/-- A name that is kept whatever stands before it. -/
structure Proper (n : String) : Prop where
  nonempty : n ≠ ""
  noPoint : n ≠ "."
  noStep : n ≠ ".."
  name : IsName n

theorem push_proper {n : String} (proper : Proper n) (rooted : Bool) (kept : List String) :
    push rooted kept n = n :: kept := by
  simp [push, proper.nonempty, proper.noPoint, proper.noStep]

theorem Kept.nil (rooted : Bool) : Kept rooted [] := ⟨by simp, rfl⟩

theorem Kept.cons {rooted : Bool} {kept : List String} (all : Kept rooted kept) {n : String}
    (proper : Proper n) : Kept rooted (n :: kept) := by
  refine ⟨?_, ?_⟩
  · intro m member
    rcases List.mem_cons.mp member with rfl | early
    · exact ⟨proper.nonempty, proper.noPoint, proper.name⟩
    · exact all.plain m early
  · rw [List.reverse_cons, List.foldl_append, all.stable]
    exact push_proper proper rooted kept

/-- Cleaning keeps such lists. -/
theorem Kept.push {rooted : Bool} {kept : List String} (all : Kept rooted kept) {n : String}
    (name : IsName n) : Kept rooted (push rooted kept n) := by
  by_cases trivial : n = "" ∨ n = "."
  · have same : Path.push rooted kept n = kept := by
      rcases trivial with rfl | rfl <;> rfl
    rw [same]
    exact all
  · obtain ⟨nonempty, noPoint⟩ := not_or.mp trivial
    by_cases step : n = ".."
    · subst step
      cases kept with
      | nil => cases rooted <;> exact ⟨by simp [Path.push, IsName], rfl⟩
      | cons top below =>
        by_cases up : top = ".."
        · subst up
          have same : Path.push rooted (".." :: below) ".." = ".." :: ".." :: below := rfl
          rw [same]
          refine ⟨?_, ?_⟩
          · intro m member
            rcases List.mem_cons.mp member with rfl | early
            · exact all.plain _ (by simp)
            · exact all.plain m early
          · rw [List.reverse_cons, List.foldl_append, all.stable]
            rfl
        · have same : Path.push rooted (top :: below) ".." = below := by simp [Path.push, up]
          rw [same]
          have plain := all.plain top (by simp)
          refine ⟨fun m early => all.plain m (by simp [early]), ?_⟩
          have stable := all.stable
          rw [List.reverse_cons, List.foldl_append] at stable
          have last := push_proper ⟨plain.1, plain.2.1, up, plain.2.2⟩ rooted
            (below.reverse.foldl (Path.push rooted) [])
          exact (List.cons.inj (last.symm.trans stable)).2
    · rw [push_proper ⟨nonempty, noPoint, step, name⟩]
      exact all.cons ⟨nonempty, noPoint, step, name⟩

theorem Kept.pushAll {rooted : Bool} {kept : List String} (all : Kept rooted kept)
    {ns : List String} (free : ∀ n ∈ ns, IsName n) : Kept rooted (ns.foldl (Path.push rooted) kept) := by
  induction ns generalizing kept with
  | nil => exact all
  | cons n ns ih =>
    exact ih (all.push (free n (by simp))) fun m member => free m (by simp [member])

/-- The text of a list of kept names. -/
def render (rooted : Bool) (kept : List String) : String :=
  let body := String.intercalate "/" kept.reverse
  if rooted then "/" ++ body else if body.isEmpty then "." else body

theorem clean_eq_render (p : String) :
    clean p = render (isAbsolute p) ((names p).foldl (push (isAbsolute p)) []) := rfl

theorem isAbsolute_append {p : String} (nonempty : p ≠ "") (q : String) :
    isAbsolute (p ++ q) = isAbsolute p := by
  obtain ⟨c, cs, chars⟩ : ∃ c cs, p.toList = c :: cs :=
    List.exists_cons_of_ne_nil fun none => nonempty (String.toList_injective none)
  simp [isAbsolute, chars]

/-- The text of kept names, taken apart again. -/
theorem Kept.names_render {rooted : Bool} {kept : List String} (all : Kept rooted kept) :
    render rooted kept ≠ "" ∧ isAbsolute (render rooted kept) = rooted ∧
      (names (render rooted kept)).foldl (Path.push rooted) [] = kept := by
  have free : ∀ n ∈ kept.reverse, IsName n := fun n member =>
    (all.plain n (List.mem_reverse.mp member)).2.2
  cases rooted with
  | true =>
    have whole : render true kept = "" ++ "/" ++ String.intercalate "/" kept.reverse := by
      simp [render]
    refine ⟨fun none => ?_, ?_, ?_⟩
    · have := congrArg String.toList none
      simp [whole] at this
    · simp [whole, isAbsolute]
    · rw [whole, names_append, names_of_isName isName_empty, List.foldl_append]
      cases kept with
      | nil =>
        rw [List.reverse_nil, String.intercalate_nil, names_of_isName isName_empty]
        rfl
      | cons n kept =>
        rw [names_intercalate free (by simp)]
        exact all.stable
  | false =>
    cases kept with
    | nil => exact ⟨by simp [render], by simp [render, isAbsolute], by
        rw [show render false [] = "." by simp [render], names_of_isName (by simp [IsName])]
        rfl⟩
    | cons n kept =>
      obtain ⟨first, rest, order⟩ : ∃ first rest, (n :: kept).reverse = first :: rest :=
        List.exists_cons_of_ne_nil (by simp)
      have member : first ∈ (n :: kept) := List.mem_reverse.mp (by rw [order]; simp)
      have plain := all.plain first member
      obtain ⟨c, cs, chars⟩ : ∃ c cs, first.toList = c :: cs :=
        List.exists_cons_of_ne_nil fun none => plain.1 (String.toList_injective none)
      have noSlash : c ≠ '/' := by
        intro slash
        have := plain.2.2
        simp [IsName, chars, slash] at this
      obtain ⟨others, text⟩ : ∃ others, (String.intercalate "/" (first :: rest)).toList = c :: others := by
        cases rest <;> simp [chars]
      have nonempty : String.intercalate "/" (first :: rest) ≠ "" := by
        intro none
        simp [none] at text
      have whole : render false (n :: kept) = String.intercalate "/" (first :: rest) := by
        simp only [render, order]
        simp [nonempty]
      rw [whole]
      refine ⟨nonempty, by simp [isAbsolute, text, noSlash], ?_⟩
      rw [← order, names_intercalate free (by simp)]
      exact all.stable

theorem Kept.clean_append {rooted : Bool} {kept : List String} (all : Kept rooted kept) {n : String}
    (name : IsName n) :
    clean (render rooted kept ++ "/" ++ n) = render rooted (Path.push rooted kept n) := by
  obtain ⟨nonempty, absolute, apart⟩ := all.names_render
  rw [clean_eq_render, String.append_assoc, isAbsolute_append nonempty, absolute,
    ← String.append_assoc, names_append, names_of_isName name, List.foldl_append, apart]
  rfl

/-- Different lists have different texts. -/
theorem Kept.render_inj {rooted : Bool} {kept kept' : List String} (all : Kept rooted kept)
    (all' : Kept rooted kept') : render rooted kept = render rooted kept' ↔ kept = kept' := by
  constructor
  · intro same
    rw [← all.names_render.2.2, same, all'.names_render.2.2]
  · exact congrArg _

theorem Kept.clean_render {rooted : Bool} {kept : List String} (all : Kept rooted kept) :
    clean (render rooted kept) = render rooted kept := by
  obtain ⟨_, absolute, apart⟩ := all.names_render
  rw [clean_eq_render, absolute, apart]

/-- The last name of a path and the names before it. -/
theorem exists_last_name (p : String) : ∃ front n, names p = front ++ [n] ∧
    (∀ m ∈ front, IsName m) ∧ IsName n := by
  refine ⟨_, _, (List.dropLast_concat_getLast (names_ne_nil p)).symm, fun m member => ?_, ?_⟩
  · exact isName_of_mem (List.dropLast_subset _ member)
  · exact isName_of_mem (List.getLast_mem (names_ne_nil p))

/-- The directory of a path, by its names. -/
theorem dir_eq {p : String} {front : List String} {n : String} (order : names p = front ++ [n]) :
    dir p = render (isAbsolute p) (front.foldl (push (isAbsolute p)) []) := by
  have free : ∀ m ∈ front ++ [n], IsName m := fun m member => isName_of_mem (order ▸ member)
  have text := intercalate_names p
  rw [order] at text
  unfold dir
  rw [order, List.dropLast_concat]
  cases front with
  | nil =>
    have relative : isAbsolute p = false := by
      rw [← text, List.nil_append, String.intercalate_singleton]
      have name := free n (by simp)
      unfold isAbsolute IsName at *
      cases chars : n.toList with
      | nil => rfl
      | cons c cs =>
        have noSlash : c ≠ '/' := fun slash => name (by simp [chars, slash])
        simp [noSlash]
    simp [relative, render]
  | cons first rest =>
    have above : ∀ m ∈ first :: rest, IsName m := fun m member =>
      free m (List.mem_append_left _ member)
    rw [String.intercalate_append_of_ne_nil (by simp) (by simp), String.intercalate_singleton] at text
    have nonempty : String.intercalate "/" (first :: rest) ++ "/" ≠ "" := by
      intro none
      have := congrArg String.toList none
      simp at this
    have same : isAbsolute (String.intercalate "/" (first :: rest) ++ "/") = isAbsolute p := by
      rw [← text]
      exact (isAbsolute_append nonempty n).symm
    have parts : names (String.intercalate "/" (first :: rest) ++ "/") = (first :: rest) ++ [""] := by
      have ended := names_append (String.intercalate "/" (first :: rest)) ""
      rwa [String.append_empty, names_intercalate above (by simp), names_of_isName isName_empty]
        at ended
    simp only [List.isEmpty_cons, Bool.false_eq_true, if_false]
    rw [clean_eq_render, same, parts, List.foldl_append]
    rfl

/-- What follows a path without a slash goes to its last name. -/
theorem names_append_name {p : String} {front : List String} {n : String}
    (order : names p = front ++ [n]) {q : String} (name : IsName q) :
    names (p ++ q) = front ++ [n ++ q] := by
  have free : ∀ m ∈ front ++ [n], IsName m := fun m member => isName_of_mem (order ▸ member)
  have longer : ∀ m ∈ front ++ [n ++ q], IsName m := by
    intro m member
    rcases List.mem_append.mp member with early | last
    · exact free m (by simp [early])
    · rw [List.mem_singleton.mp last]
      exact (free n (by simp)).append name
  have text : p ++ q = String.intercalate "/" (front ++ [n ++ q]) := by
    rw [← intercalate_names p, order]
    cases front with
    | nil => simp
    | cons first rest =>
      rw [String.intercalate_append_of_ne_nil (by simp) (by simp),
        String.intercalate_append_of_ne_nil (by simp) (by simp)]
      simp [String.append_assoc]
  rw [text, names_intercalate longer (by simp)]

/-- The path ends in the name of a file. -/
def NamesFile (p : String) : Prop := (names p).getLast? ∉ [some "", some ".", some ".."]

instance (p : String) : Decidable (NamesFile p) := inferInstanceAs (Decidable (¬ _))

/-- The path of a file: the last name is added to the names of the directory. -/
theorem split_of_namesFile {p : String} (file : NamesFile p) :
    ∃ kept, Kept (isAbsolute p) kept ∧ Proper (base p) ∧ dir p = render (isAbsolute p) kept ∧
      clean p = render (isAbsolute p) (base p :: kept) := by
  obtain ⟨front, n, order, free, name⟩ := exists_last_name p
  have proper : Proper n := by
    simp only [NamesFile, order, List.getLast?_append, List.getLast?_singleton, Option.some_or,
      List.mem_cons, Option.some.injEq, List.not_mem_nil, or_false, not_or] at file
    exact ⟨file.1, file.2.1, file.2.2, name⟩
  have last : base p = n := by
    have nonempty : p ≠ "" := by
      rintro rfl
      rw [names_of_isName isName_empty] at order
      have : n = "" := by
        cases front with
        | nil => exact (List.cons.inj order).1.symm
        | cons first rest => simp at order
      exact proper.nonempty this
    simp [base, nonempty, order, proper.nonempty]
  refine ⟨_, (Kept.nil _).pushAll free, last ▸ proper, dir_eq order, ?_⟩
  rw [clean_eq_render, order, List.foldl_append, last]
  exact congrArg _ (push_proper proper _ _)

/-- A file in the directory of a cleaned path. -/
theorem Kept.join {rooted : Bool} {kept : List String} (all : Kept rooted kept) {n : String}
    (nonempty : n ≠ "") (name : IsName n) :
    Path.join [render rooted kept, n] = render rooted (Path.push rooted kept n) := by
  rw [← all.clean_append name]
  simp [Path.join, all.names_render.1, nonempty]

/-- The last name stands at the end of the text. -/
theorem render_cons (rooted : Bool) (kept : List String) {n : String} (nonempty : n ≠ "") :
    render rooted (n :: kept) = (if rooted then "/" else "") ++
      (if kept = [] then "" else String.intercalate "/" kept.reverse ++ "/") ++ n := by
  have body : String.intercalate "/" (n :: kept).reverse =
      (if kept = [] then "" else String.intercalate "/" kept.reverse ++ "/") ++ n := by
    cases kept with
    | nil => simp
    | cons top below =>
      rw [List.reverse_cons, String.intercalate_append_of_ne_nil (by simp) (by simp)]
      simp
  simp only [render, body, String.append_assoc]
  cases rooted <;> simp [nonempty]

theorem render_append (rooted : Bool) (kept : List String) {n : String} (nonempty : n ≠ "")
    (q : String) : render rooted (n :: kept) ++ q = render rooted ((n ++ q) :: kept) := by
  have some : n ++ q ≠ "" := fun none => nonempty (String.append_eq_empty_iff.mp none).1
  rw [render_cons _ _ nonempty, render_cons _ _ some, String.append_assoc]

/-- A name is cut before its last point. -/
theorem stem_append (n : String) {x : String} (noPoint : '.' ∉ x.toList) :
    stem (n ++ "." ++ x) = n := by
  have chars : (n ++ "." ++ x).toList.reverse = x.toList.reverse ++ '.' :: n.toList.reverse := by simp
  have dropped : (x.toList.reverse ++ '.' :: n.toList.reverse).dropWhile (· != '.') =
      '.' :: n.toList.reverse := by
    rw [List.dropWhile_append_of_pos]
    · simp
    · intro c member
      have : c ≠ '.' := fun point => noPoint (point ▸ List.mem_reverse.mp member)
      simpa using this
  unfold stem
  rw [chars, dropped]
  simp

theorem IsName.stem {n : String} (name : IsName n) : IsName (Path.stem n) := by
  unfold Path.stem
  split
  · exact name
  · next before cut =>
    intro slash
    simp only [String.toList_ofList, List.mem_reverse] at slash
    have inside : '/' ∈ n.toList.reverse.dropWhile (· != '.') := by
      rw [cut]
      exact List.mem_cons_of_mem _ slash
    exact name (List.mem_reverse.mp ((List.dropWhile_suffix _).subset inside))

end TieredEngine.Path
