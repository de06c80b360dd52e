import TieredEngine.Proofs.Json.Numbers
import TieredEngine.Proofs.Json.Strings

/-!
Reading what was written. A document whose numbers are spelled as numbers, or as the words for
truth, is read back from its indented text as a node that shows it: the same value with the same
spelling, its items and members in the same order.
-/
namespace TieredEngine.Json
open Doc

/-- The words for truth, which may stand where a number is spelled. -/
def truthWord (b : Bool) : String := if b then "true" else "false"

/-- Documents whose text is JSON. -/
inductive Legible : Doc → Prop
  | null : Legible .null
  | bool (b : Bool) : Legible (.bool b)
  | number {s : String} : NumberText s.toList → Legible (.num s)
  | word (b : Bool) : Legible (.num (truthWord b))
  | str (s : String) : Legible (.str s)
  | arr {ds : List Doc} : (∀ d ∈ ds, Legible d) → Legible (.arr ds)
  | obj {ms : List (String × Doc)} : (∀ m ∈ ms, Legible m.2) → Legible (.obj ms)

mutual

/-- A node that has been read from the text of a document. -/
inductive Shows (e : Escaping) : Doc → Node → Prop
  | null (sp : Span) : Shows e .null (.null sp)
  | bool (b : Bool) (sp : Span) : Shows e (.bool b) (.bool b sp)
  | number {s : String} {sp : Span} : sp.text = s → Shows e (.num s) (.num s sp)
  | word {b : Bool} {sp : Span} : sp.text = truthWord b → Shows e (.num (truthWord b)) (.bool b sp)
  | str {s : String} {sp : Span} : sp.text = e.string s → Shows e (.str s) (.str s sp)
  | arr {ds : List Doc} {ns : List Node} (sp : Span) :
      ShowsItems e ds ns → Shows e (.arr ds) (.arr ns sp)
  | obj {ms : List (String × Doc)} {ns : List (String × Node)} (sp : Span) :
      ShowsMembers e ms ns → Shows e (.obj ms) (.obj ns sp)

inductive ShowsItems (e : Escaping) : List Doc → List Node → Prop
  | nil : ShowsItems e [] []
  | cons {d : Doc} {ds : List Doc} {n : Node} {ns : List Node} :
      Shows e d n → ShowsItems e ds ns → ShowsItems e (d :: ds) (n :: ns)

inductive ShowsMembers (e : Escaping) : List (String × Doc) → List (String × Node) → Prop
  | nil : ShowsMembers e [] []
  | cons {k : String} {d : Doc} {ms : List (String × Doc)} {n : Node} {ns : List (String × Node)} :
      Shows e d n → ShowsMembers e ms ns → ShowsMembers e ((k, d) :: ms) ((k, n) :: ns)

end

theorem Span.text_append (cs rest : List Char) :
    Span.text ⟨cs ++ rest, rest⟩ = String.ofList cs := by
  simp [Span.text]

theorem skipBlank_break (depth : Nat) (s : List Char) :
    skipBlank (breakChars depth ++ s) = skipBlank s := by
  have blanks : ∀ k, skipBlank (List.replicate k ' ' ++ s) = skipBlank s := by
    intro k
    rw [skipBlank, List.dropWhile_append_of_pos, skipBlank]
    intro c member
    rw [List.eq_of_mem_replicate member]
    rfl
  exact blanks (2 * depth)

theorem skipBlank_cons {c : Char} (solid : isJsonBlank c = false) (s : List Char) :
    skipBlank (c :: s) = c :: s := by
  rw [skipBlank, List.dropWhile_cons_of_neg (by simp [solid])]

/-- A character that may start a number is none of those that may not. -/
theorem ne_of_startsNumber {c x : Char} (start : c = '-' ∨ c.isDigit)
    (other : ¬ (x = '-' ∨ x.isDigit)) : c ≠ x := by
  rintro rfl
  exact other start

theorem solid_of_startsNumber {c : Char} (start : c = '-' ∨ c.isDigit) : isJsonBlank c = false := by
  have space : c ≠ ' ' := ne_of_startsNumber start (by decide)
  have tab : c ≠ '\t' := ne_of_startsNumber start (by decide)
  have line : c ≠ '\n' := ne_of_startsNumber start (by decide)
  have feed : c ≠ '\r' := ne_of_startsNumber start (by decide)
  simp [isJsonBlank, space, tab, line, feed]

/-- A value starts with a character that is neither a blank nor a closing bracket. -/
theorem Legible.cons {d : Doc} (legible : Legible d) (e : Escaping) (depth : Nat) :
    ∃ c cs, d.chars e depth = c :: cs ∧ isJsonBlank c = false ∧ c ≠ ']' := by
  cases legible with
  | null => exact ⟨'n', _, rfl, rfl, by decide⟩
  | bool b => cases b <;> exact ⟨_, _, rfl, rfl, by decide⟩
  | number number =>
    obtain ⟨c, more, text, start⟩ := number.cons
    exact ⟨c, more, by rw [chars, text], solid_of_startsNumber start,
      ne_of_startsNumber start (by decide)⟩
  | word b => cases b <;> exact ⟨_, _, rfl, rfl, by decide⟩
  | str s => exact ⟨'"', _, by rw [chars, e.toList_string], rfl, by decide⟩
  | @arr ds _ => cases ds <;> exact ⟨'[', _, by rw [chars], rfl, by decide⟩
  | @obj ms _ => cases ms <;> exact ⟨'\x7b', _, by rw [chars], rfl, by decide⟩

/-- What shows a number is a number, not a word. -/
theorem Shows.of_number {e : Escaping} {s : String} {n : Node} (shown : Shows e (.num s) n)
    (number : NumberText s.toList) : ∃ sp, n = .num s sp ∧ sp.text = s := by
  cases shown with
  | number text => exact ⟨_, rfl, text⟩
  | @word b _ _ =>
    obtain ⟨c, more, text, start⟩ := number.cons
    cases b <;> cases text <;> exact absurd start (by decide)

theorem readValue_null (fuel : Nat) (rest : List Char) :
    readValue (fuel + 1) ("null".toList ++ rest) =
      .ok (.null ⟨"null".toList ++ rest, rest⟩, rest) := by
  rfl

theorem readValue_truthWord (b : Bool) (fuel : Nat) (rest : List Char) :
    readValue (fuel + 1) ((truthWord b).toList ++ rest) =
      .ok (.bool b ⟨(truthWord b).toList ++ rest, rest⟩, rest) := by
  cases b <;> rfl

theorem readValue_number {cs rest : List Char} (number : NumberText cs) (ended : Ended rest)
    (fuel : Nat) :
    readValue (fuel + 1) (cs ++ rest) =
      .ok (.num (String.ofList cs) ⟨cs ++ rest, rest⟩, rest) := by
  have read := readNumber_append number ended
  obtain ⟨c, more, rfl, start⟩ := number.cons
  rw [List.cons_append] at read ⊢
  rw [readValue, skipBlank_cons (solid_of_startsNumber start)]
  dsimp only
  split
  case h_8 text =>
    cases text
    rw [if_pos (by simpa using start), read]
    rfl
  all_goals
    rename_i text
    cases text <;> exact absurd start (by decide)

theorem readValue_string (e : Escaping) (s : String) (fuel : Nat) (rest : List Char) :
    readValue (fuel + 1) ((e.string s).toList ++ rest) =
      .ok (.str s ⟨(e.string s).toList ++ rest, rest⟩, rest) := by
  have read := readString_string e s rest
  rw [e.toList_string, List.cons_append] at read ⊢
  rw [readValue, skipBlank_cons rfl]
  dsimp only
  rw [read]
  rfl

theorem readValue_array {fuel : Nat} {s items rest : List Char} {ns : List Node}
    (first : skipBlank s = items) (noClose : items.head? ≠ some ']')
    (read : readItems fuel [] items = .ok (ns.reverse, rest)) :
    readValue (fuel + 1) ('[' :: s) = .ok (.arr ns ⟨'[' :: s, rest⟩, rest) := by
  rw [readValue, skipBlank_cons rfl]
  dsimp only
  split
  case h_6 text =>
    cases text
    rw [first]
    split
    · simp at noClose
    · rw [read]
      simp [Except.map]
  all_goals
    rename_i text
    cases text <;> simp_all

theorem readValue_object {fuel : Nat} {s members rest : List Char} {ns : List (String × Node)}
    (first : skipBlank s = members) (noClose : members.head? ≠ some '\x7d')
    (read : readMembers fuel [] members = .ok (ns.reverse, rest)) :
    readValue (fuel + 1) ('\x7b' :: s) = .ok (.obj ns ⟨'\x7b' :: s, rest⟩, rest) := by
  rw [readValue, skipBlank_cons rfl]
  dsimp only
  split
  case h_7 text =>
    cases text
    rw [first]
    split
    · simp at noClose
    · rw [read]
      simp [Except.map]
  all_goals
    rename_i text
    cases text <;> simp_all

/-- The reader takes the text of a document, at any depth, if it has as much fuel as the text is
long, twice. -/
def Returns (e : Escaping) (d : Doc) : Prop :=
  ∀ (depth fuel : Nat) (rest : List Char), Ended rest → 2 * (d.chars e depth).length ≤ fuel →
    ∃ n, Shows e d n ∧ readValue fuel (d.chars e depth ++ rest) = .ok (n, rest)

theorem ended_items (e : Escaping) (depth outer : Nat) (ds : List Doc) (rest : List Char) :
    Ended (furtherItems e depth ds ++ (breakChars outer ++ rest)) := by
  cases ds with
  | nil => simp [furtherItems, Ended, breakChars]
  | cons d ds => simp [furtherItems, Ended]

theorem ended_members (e : Escaping) (depth outer : Nat) (ms : List (String × Doc))
    (rest : List Char) : Ended (furtherMembers e depth ms ++ (breakChars outer ++ rest)) := by
  cases ms with
  | nil => simp [furtherMembers, Ended, breakChars]
  | cons m ms => simp [furtherMembers, Ended]

theorem skipBlank_chars {d : Doc} (legible : Legible d) (e : Escaping) (outer depth : Nat)
    (s : List Char) :
    skipBlank (breakChars outer ++ (d.chars e depth ++ s)) = d.chars e depth ++ s := by
  obtain ⟨c, cs, text, solid, -⟩ := legible.cons e depth
  rw [skipBlank_break, text, List.cons_append, skipBlank_cons solid]

theorem skipBlank_string (e : Escaping) (outer : Nat) (k : String) (s : List Char) :
    skipBlank (breakChars outer ++ ((e.string k).toList ++ s)) = (e.string k).toList ++ s := by
  rw [skipBlank_break, e.toList_string, List.cons_append, skipBlank_cons rfl]

/-- Items from the first one on, up to the closing bracket. -/
theorem readItems_chars {e : Escaping} {d : Doc} {ds : List Doc}
    (each : ∀ x ∈ d :: ds, Legible x ∧ Returns e x) (depth outer : Nat) {fuel : Nat}
    (enough : 2 * (d.chars e depth ++ furtherItems e depth ds).length < fuel)
    (acc : List Node) (rest : List Char) :
    ∃ ns, ShowsItems e (d :: ds) ns ∧
      readItems fuel acc (d.chars e depth ++
          (furtherItems e depth ds ++ (breakChars outer ++ ']' :: rest))) =
        .ok (ns.reverse ++ acc, rest) := by
  induction ds generalizing d fuel acc with
  | nil =>
    obtain ⟨fuel, rfl⟩ := Nat.exists_eq_succ_of_ne_zero (Nat.ne_zero_of_lt enough)
    simp only [List.length_append] at enough
    obtain ⟨n, shown, read⟩ := (each d (by simp)).2 depth fuel _
      (ended_items e depth outer [] (']' :: rest)) (by omega)
    refine ⟨[n], .cons shown .nil, ?_⟩
    rw [readItems, read]
    simp only [bind, Except.bind, furtherItems, List.nil_append, skipBlank_break,
      skipBlank_cons (show isJsonBlank ']' = false from rfl)]
    rfl
  | cons d' ds ih =>
    obtain ⟨fuel, rfl⟩ := Nat.exists_eq_succ_of_ne_zero (Nat.ne_zero_of_lt enough)
    simp only [furtherItems, List.length_append, List.length_cons] at enough
    obtain ⟨n, shown, read⟩ := (each d (by simp)).2 depth fuel _
      (ended_items e depth outer (d' :: ds) (']' :: rest)) (by omega)
    obtain ⟨ns, shows, reads⟩ := ih (fun x member => each x (.tail d member))
      (show _ < fuel by simp only [List.length_append]; omega) (n :: acc)
    obtain ⟨c, cs, text, -, noClose⟩ := (each d' (by simp)).1.cons e depth
    refine ⟨n :: ns, .cons shown shows, ?_⟩
    rw [readItems, read]
    simp only [bind, Except.bind, furtherItems, List.cons_append, List.append_assoc,
      skipBlank_cons (show isJsonBlank ',' = false from rfl),
      skipBlank_chars (each d' (by simp)).1]
    rw [text, List.cons_append] at reads ⊢
    split
    · simp_all
    · rw [reads]
      simp

theorem readValue_space (fuel : Nat) (s : List Char) :
    readValue fuel (' ' :: s) = readValue fuel s := by
  cases fuel with
  | zero => rw [readValue, readValue]
  | succ fuel =>
    rw [readValue, readValue]
    rfl

/-- Members from the first one on, up to the closing brace. -/
theorem readMembers_chars {e : Escaping} {k : String} {d : Doc} {ms : List (String × Doc)}
    (each : ∀ m ∈ (k, d) :: ms, Returns e m.2) (depth outer : Nat) {fuel : Nat}
    (enough : 2 * (d.chars e depth ++ furtherMembers e depth ms).length < fuel)
    (acc : List (String × Node)) (rest : List Char) :
    ∃ ns, ShowsMembers e ((k, d) :: ms) ns ∧
      readMembers fuel acc ((e.string k).toList ++ ':' :: ' ' :: (d.chars e depth ++
          (furtherMembers e depth ms ++ (breakChars outer ++ '\x7d' :: rest)))) =
        .ok (ns.reverse ++ acc, rest) := by
  induction ms generalizing k d fuel acc with
  | nil =>
    obtain ⟨fuel, rfl⟩ := Nat.exists_eq_succ_of_ne_zero (Nat.ne_zero_of_lt enough)
    simp only [List.length_append] at enough
    have own : Returns e d := each (k, d) (by simp)
    obtain ⟨n, shown, read⟩ := own depth fuel _
      (ended_members e depth outer [] ('\x7d' :: rest)) (by omega)
    refine ⟨[(k, n)], .cons shown .nil, ?_⟩
    rw [readMembers, readString_string]
    simp only [bind, Except.bind, skipBlank_cons (show isJsonBlank ':' = false from rfl),
      readValue_space, read]
    simp only [furtherMembers, List.nil_append, skipBlank_break,
      skipBlank_cons (show isJsonBlank '\x7d' = false from rfl)]
    rfl
  | cons m ms ih =>
    obtain ⟨k', d'⟩ := m
    obtain ⟨fuel, rfl⟩ := Nat.exists_eq_succ_of_ne_zero (Nat.ne_zero_of_lt enough)
    simp only [furtherMembers, List.length_append, List.length_cons] at enough
    have own : Returns e d := each (k, d) (by simp)
    obtain ⟨n, shown, read⟩ := own depth fuel _
      (ended_members e depth outer ((k', d') :: ms) ('\x7d' :: rest)) (by omega)
    obtain ⟨ns, shows, reads⟩ := ih (fun m member => each m (.tail _ member))
      (show _ < fuel by simp only [List.length_append]; omega) ((k, n) :: acc)
    refine ⟨(k, n) :: ns, .cons shown shows, ?_⟩
    rw [readMembers, readString_string]
    simp only [bind, Except.bind, skipBlank_cons (show isJsonBlank ':' = false from rfl),
      readValue_space, read]
    simp only [furtherMembers, List.cons_append, List.append_assoc, List.nil_append,
      skipBlank_cons (show isJsonBlank ',' = false from rfl), skipBlank_string]
    rw [e.toList_string, List.cons_append] at reads ⊢
    split
    case h_1 text => simp at text
    case h_2 =>
      rw [reads]
      simp

theorem Legible.fuel {d : Doc} (legible : Legible d) {e : Escaping} {depth fuel : Nat}
    (enough : 2 * (d.chars e depth).length ≤ fuel) : ∃ less, fuel = less + 1 := by
  obtain ⟨c, cs, text, -, -⟩ := legible.cons e depth
  rw [text, List.length_cons] at enough
  exact Nat.exists_eq_add_of_le' (by omega)

/-- The reader takes the text of every legible document. -/
theorem Legible.returns {d : Doc} (legible : Legible d) (e : Escaping) : Returns e d := by
  induction legible with
  | null =>
    intro depth fuel rest ended enough
    obtain ⟨fuel, rfl⟩ := Legible.null.fuel enough
    exact ⟨_, .null _, readValue_null fuel rest⟩
  | bool b =>
    intro depth fuel rest ended enough
    obtain ⟨fuel, rfl⟩ := (Legible.bool b).fuel enough
    exact ⟨_, .bool b _, readValue_truthWord b fuel rest⟩
  | @number s number =>
    intro depth fuel rest ended enough
    obtain ⟨fuel, rfl⟩ := (Legible.number number).fuel enough
    refine ⟨.num s ⟨s.toList ++ rest, rest⟩, .number ?_, ?_⟩
    · rw [Span.text_append, String.ofList_toList]
    · rw [chars, readValue_number number ended, String.ofList_toList]
  | word b =>
    intro depth fuel rest ended enough
    obtain ⟨fuel, rfl⟩ := (Legible.word b).fuel enough
    refine ⟨_, .word ?_, readValue_truthWord b fuel rest⟩
    rw [Span.text_append, String.ofList_toList]
  | str s =>
    intro depth fuel rest ended enough
    obtain ⟨fuel, rfl⟩ := (Legible.str s).fuel enough
    refine ⟨_, .str ?_, readValue_string e s fuel rest⟩
    rw [Span.text_append, String.ofList_toList]
  | @arr ds items ih =>
    intro depth fuel rest ended enough
    obtain ⟨fuel, rfl⟩ := (Legible.arr items).fuel enough
    cases ds with
    | nil => exact ⟨.arr [] ⟨_, rest⟩, .arr _ .nil, rfl⟩
    | cons d ds =>
      simp only [chars, List.length_append, List.length_cons] at enough
      obtain ⟨ns, shown, read⟩ := readItems_chars (fun x member => ⟨items x member, ih x member⟩)
        (depth + 1) depth (show _ < fuel by simp only [List.length_append]; omega) [] rest
      obtain ⟨c, cs, text, -, noClose⟩ := (items d (by simp)).cons e (depth + 1)
      simp only [chars, List.cons_append, List.append_assoc, List.nil_append]
      exact ⟨_, .arr _ shown, readValue_array (skipBlank_chars (items d (by simp)) e _ _ _)
        (by simp [text, noClose]) (by simpa using read)⟩
  | @obj ms members ih =>
    intro depth fuel rest ended enough
    obtain ⟨fuel, rfl⟩ := (Legible.obj members).fuel enough
    cases ms with
    | nil => exact ⟨.obj [] ⟨_, rest⟩, .obj _ .nil, rfl⟩
    | cons m ms =>
      obtain ⟨k, d⟩ := m
      simp only [chars, List.length_append, List.length_cons] at enough
      obtain ⟨ns, shown, read⟩ := readMembers_chars ih (depth + 1) depth
        (show _ < fuel by simp only [List.length_append]; omega) [] rest
      simp only [chars, List.cons_append, List.append_assoc, List.nil_append]
      exact ⟨_, .obj _ shown, readValue_object (skipBlank_string e _ k _)
        (by simp [e.toList_string]) (by simpa using read)⟩

/-- The first value of the indented text of a legible document shows the document. -/
theorem readFirst_indented {d : Doc} (legible : Legible d) (e : Escaping) :
    ∃ n, Shows e d n ∧ readFirst (d.indented e ++ "\n") = .ok n := by
  have text : (d.indented e ++ "\n").toList = d.chars e 0 ++ ['\n'] := by
    rw [String.toList_append, toList_indented]
    rfl
  have line : Ended ['\n'] := by simp [Ended]
  obtain ⟨n, shown, read⟩ := legible.returns e 0 (2 * (d.chars e 0 ++ ['\n']).length + 2) ['\n']
    line (by simp only [List.length_append]; omega)
  refine ⟨n, shown, ?_⟩
  unfold readFirst
  rw [text]
  dsimp only
  rw [read]
  rfl

end TieredEngine.Json
