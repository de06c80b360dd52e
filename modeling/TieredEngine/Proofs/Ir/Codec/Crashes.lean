import TieredEngine.Ir.Codec.Decode
import TieredEngine.Ir.WellFormed
import TieredEngine.Proofs.Except

/-!
Which module files end in a crash. Lists of functions, globals and blocks may have a `null` for an
entry. The structural check has a defect for a block that is missing, but a missing function is used
as if it were there when the names are indexed, and so is a missing global when the module is
checked. Nothing else on the way from a text to its defects crashes. Of a list that is given more
than once only the last text counts.

Lists of types may be given by the bytes of their codes. A code of no declared type is refused here,
and files with such a code are left out.
-/
namespace TieredEngine.Text

theorem charactersAfter_append (front bytes : List UInt8) :
    charactersAfter front.length (front ++ bytes) = charactersAfter 0 bytes := by
  induction front with
  | nil => rfl
  | cons b front ih => exact ih

/-- A text is read back from its bytes. -/
theorem ofBytes_toUTF8 (text : String) : ofBytes text.toUTF8.data.toList = text := by
  have characters : ∀ cs : List Char, charactersAfter 0 (cs.flatMap String.utf8EncodeChar) = cs := by
    intro cs
    induction cs with
    | nil => rfl
    | cons c cs ih =>
      have first : (String.utf8EncodeChar c ++ cs.flatMap String.utf8EncodeChar).toByteArray.utf8DecodeChar?
          0 = some c := by
        rw [List.toByteArray_append]
        exact ByteArray.utf8DecodeChar?_utf8EncodeChar_append
      have size := String.length_utf8EncodeChar c
      rw [List.flatMap_cons]
      cases bytes : String.utf8EncodeChar c with
      | nil =>
        have positive := c.utf8Size_pos
        rw [← size, bytes] at positive
        cases positive
      | cons b front =>
        rw [bytes] at first size
        rw [List.cons_append] at first ⊢
        unfold charactersAfter
        rw [first]
        simp only [← size, List.length_cons, Nat.add_sub_cancel, charactersAfter_append, ih]
  have encoded : text.toUTF8.data.toList = text.toList.flatMap String.utf8EncodeChar := calc
    text.toUTF8.data.toList = (String.ofList text.toList).toByteArray.data.toList := by
      rw [String.ofList_toList]
      rfl
    _ = text.toList.flatMap String.utf8EncodeChar := by
      rw [String.toByteArray_ofList, List.utf8Encode, List.data_toByteArray]
  rw [ofBytes, encoded, characters, String.ofList_toList]

end TieredEngine.Text

namespace TieredEngine.Ir
open TieredEngine.Json (Node)

namespace Codec

/-- The value of a field: the last member whose name is the key, in whatever case. -/
def lastMember? (members : List (String × Node)) (key : String) : Option Node :=
  (members.reverse.find? (·.1.toLower == key)).map (·.2)

def Null (n : Node) : Prop := ∃ span, n = .null span

/-- A list with a `null` for one of its entries. -/
def Gapped (n : Node) : Prop := ∃ nodes span, n = .arr nodes span ∧ ∃ entry ∈ nodes, Null entry

/-- The record gives the field, and the value that counts is of the kind. -/
def Given (n : Node) (key : String) (Q : Node → Prop) : Prop :=
  ∃ members span, n = .obj members span ∧ ∃ value, lastMember? members key = some value ∧ Q value

theorem lastMember?_cons (m : String × Node) (members : List (String × Node)) (key : String) :
    lastMember? (m :: members) key =
      (lastMember? members key).or (if m.1.toLower = key then some m.2 else none) := by
  unfold lastMember?
  rw [List.reverse_cons, List.find?_append, Option.map_or]
  by_cases same : m.1.toLower = key <;> simp [same]

section Record

variable {α : Type} {kind : String} {step : α → String → Node → Read α} {key : String}
  {P : α → Prop} {Q : Node → Prop}

/-- A property that one field of a record decides, whatever the record was before, and that the
other fields leave alone. By induction on the members: the last one for that field decides it. -/
theorem last_decides (decides : ∀ a n b, step a key n = .ok b → (P b ↔ Q n))
    (keeps : ∀ a k n b, k ≠ key → step a k n = .ok b → (P b ↔ P a)) {n : Node} {a b : α}
    (start : ¬ P a) (read : fields kind n a step = .ok b) : P b ↔ Given n key Q := by
  unfold fields at read
  split at read
  · cases read
    simp [Given, start]
  · next members span =>
    have last : P b ↔ (lastMember? members key).elim (P a) Q := by
      clear start
      induction members generalizing a with
      | nil =>
        cases read
        rfl
      | cons m members ih =>
        obtain ⟨next, first, rest⟩ := bind_eq_ok.mp read
        rw [mapError_eq_ok] at first
        rw [ih rest, lastMember?_cons]
        cases lastMember? members key with
        | some n => rfl
        | none =>
          by_cases same : m.1.toLower = key
          · simpa [same] using decides a m.2 next (same ▸ first)
          · simpa [same] using keeps a _ m.2 next same first
    rw [last]
    cases given : lastMember? members key <;> simp [Given, given, start]
  · cases read

end Record

/-- An entry is missing exactly where the list has a `null`. -/
theorem none_mem_items {α : Type} {kind : String} {start : α} {item : α → Node → Read α}
    {old : List (Option α)} {n : Node} {list : List (Option α)} {empty : Bool}
    (read : items kind old n (optional start item) = .ok (list, empty)) :
    none ∈ list ↔ Gapped n := by
  unfold items at read
  split at read
  · cases read
    simp [Gapped]
  · next nodes span =>
    obtain ⟨entries, each, done⟩ := bind_eq_ok.mp read
    cases done
    have entry : ∀ {node : Node} {i : Nat} {x : Option α},
        (optional start item old[i]? node).mapError (·.inside kind (toString i)) = .ok x →
        (x = none ↔ Null node) := by
      intro node i x made
      rw [mapError_eq_ok] at made
      unfold optional at made
      split at made
      · cases made
        simp [Null]
      · next present =>
        obtain ⟨a, _, some⟩ := bind_eq_ok.mp made
        cases some
        simpa [Null] using present
    have related := mapM_eq_ok.mp each
    constructor
    · intro missing
      obtain ⟨⟨node, i⟩, listed, made⟩ := forall₂_partner related.flip missing
      exact ⟨nodes, span, rfl, node, (List.mem_zipIdx listed).2.2 ▸ List.getElem_mem _,
        (entry made).mp rfl⟩
    · rintro ⟨_, _, ⟨⟩, node, member, null⟩
      obtain ⟨i, bound, rfl⟩ := List.getElem_of_mem member
      have listed : (nodes[i], i) ∈ nodes.zipIdx := by simp [List.mem_zipIdx_iff_getElem?, bound]
      obtain ⟨x, among, made⟩ := forall₂_partner related listed
      exact (entry made).mpr null ▸ among
  · cases read

section Fields

variable {n : Node} {raw : ModuleFields} (read : moduleFields n = .ok raw)
include read

theorem none_mem_functions : none ∈ raw.functions ↔ Given n "functions" Gapped := by
  unfold moduleFields at read
  refine last_decides (P := fun m : ModuleFields => none ∈ m.functions) (fun m node m' made => ?_)
    (fun m k node m' other made => ?_) (by simp) read
  · obtain ⟨⟨list, empty⟩, items, done⟩ := bind_eq_ok.mp made
    cases done
    exact none_mem_items items
  · split at made
    all_goals first
      | contradiction
      | (obtain ⟨_, _, done⟩ := bind_eq_ok.mp made
         cases done
         rfl)
      | (cases made
         rfl)

theorem none_mem_globals : none ∈ raw.globals ↔ Given n "globals" Gapped := by
  unfold moduleFields at read
  refine last_decides (P := fun m : ModuleFields => none ∈ m.globals) (fun m node m' made => ?_)
    (fun m k node m' other made => ?_) (by simp) read
  · obtain ⟨⟨list, empty⟩, items, done⟩ := bind_eq_ok.mp made
    cases done
    exact none_mem_items items
  · split at made
    all_goals first
      | contradiction
      | (obtain ⟨_, _, done⟩ := bind_eq_ok.mp made
         cases done
         rfl)
      | (cases made
         rfl)

end Fields

theorem mapM_deref_error {α : Type} {xs : List (Option α)} {c : Crash} :
    xs.mapM Crash.deref = .error c ↔ c = .nullReference ∧ none ∈ xs := by
  induction xs with
  | nil => simp [pure, Except.pure]
  | cons x xs ih =>
    rw [List.mapM_cons, bind_eq_error]
    cases x with
    | none => simp [Crash.deref, eq_comm]
    | some x =>
      simp only [Crash.deref, bind_eq_error, reduceCtorEq, false_or, Except.ok.injEq,
        exists_eq_left', ih, List.mem_cons]
      simp [pure, Except.pure]

end Codec

open Codec

theorem Module.ofNode_crash {n : Node} {c : Crash} :
    Module.ofNode n = .error (.crash c) ↔
      c = .nullReference ∧ (∃ raw, moduleFields n = .ok raw) ∧ Given n "functions" Gapped := by
  unfold Module.ofNode
  cases read : moduleFields n with
  | error e => simp [Codec.unit, Except.mapError, bind, Except.bind]
  | ok raw =>
    cases indexed : raw.functions.mapM Crash.deref with
    | error c' =>
      have missing := mapM_deref_error.mp indexed
      have gapped := (none_mem_functions read).mp missing.2
      simp [Codec.unit, Except.mapError, bind, Except.bind, indexed, Crash.lift, missing.1, gapped,
        eq_comm]
    | ok functions =>
      have whole : ¬ Given n "functions" Gapped := by
        rw [← none_mem_functions read]
        intro missing
        cases (mapM_deref_error.mpr ⟨rfl, missing⟩).symm.trans indexed
      simp [Codec.unit, Except.mapError, bind, Except.bind, indexed, Crash.lift, whole, pure,
        Except.pure]

theorem Module.ofNode_globals {n : Node} {m : Module} (made : Module.ofNode n = .ok m) :
    none ∈ m.globals ↔ Given n "globals" Gapped := by
  obtain ⟨raw, read, rest⟩ := bind_eq_ok.mp made
  obtain ⟨functions, _, done⟩ := bind_eq_ok.mp rest
  cases done
  rw [Codec.unit, mapError_eq_ok, mapError_eq_ok] at read
  simpa using none_mem_globals read

/-- The structural check crashes on a missing global and on nothing else. -/
theorem Module.defects_crash {m : Module} {c : Crash} :
    m.defects = .error c ↔ c = .nullReference ∧ none ∈ m.globals := by
  have crashes : ∀ {c' : Crash}, m.defects = .error c' → c' = .nullReference ∧ none ∈ m.globals := by
    intro c' crashed
    rcases bind_eq_error.mp crashed with stopped | ⟨_, _, impossible⟩
    · obtain ⟨_, listed, failed⟩ := mapM_eq_error stopped
      obtain ⟨i, bound, same⟩ := List.mem_mapIdx.mp listed
      cases same
      cases missing : m.globals.toList[i] with
      | none =>
        rw [missing] at failed
        cases failed
        exact ⟨rfl, by simpa [missing] using List.getElem_mem bound⟩
      | some g =>
        rw [missing] at failed
        cases failed
    · cases impossible
  refine ⟨crashes, fun ⟨null, missing⟩ => ?_⟩
  cases checked : m.defects with
  | error c' => rw [(crashes checked).1, null]
  | ok ds =>
    obtain ⟨_, each, _⟩ := bind_eq_ok.mp checked
    obtain ⟨i, bound, absent⟩ := List.getElem_of_mem (Array.mem_toList_iff.mpr missing)
    obtain ⟨_, _, present⟩ := forall₂_partner (mapM_eq_ok.mp each)
      (List.mem_mapIdx.mpr ⟨i, bound, rfl⟩)
    rw [absent] at present
    cases present

/-- Files that spell out a text are read as the text is. -/
theorem Module.decodeBytes_toUTF8 (text : String) :
    Module.decodeBytes text.toUTF8.data.toList = Module.decode text := by
  rw [Module.decodeBytes, Text.ofBytes_toUTF8]

/-- Where reading a file and checking what it says crashes. Reading gives a module, or an error, or it
crashes, and it crashes when the last list of functions has a `null` in it and nothing else is wrong
with the text; checking does when the last list of globals has one. -/
theorem Module.decode_defects_crash {bytes : List UInt8}
    (declared : ∀ code, Module.decodeBytes bytes ≠ .error (.error (.unknownCode code))) :
    ((∃ m, Module.decodeBytes bytes = .ok m) ∨
      (∃ e, Module.decodeBytes bytes = .error (.error e) ∧ ∀ code, e ≠ .unknownCode code) ∨
      Module.decodeBytes bytes = .error (.crash .nullReference)) ∧
    ∀ c : Crash, (Module.decodeBytes bytes = .error (.crash c) ↔ c = .nullReference ∧ ∃ n raw,
        Json.readFirst (Text.ofBytes bytes) = .ok n ∧ moduleFields n = .ok raw ∧
          Given n "functions" Gapped) ∧
      ∀ m, Module.decodeBytes bytes = .ok m → (m.defects = .error c ↔ c = .nullReference ∧ ∃ n,
        Json.readFirst (Text.ofBytes bytes) = .ok n ∧ Given n "globals" Gapped) := by
  have crashes : ∀ c : Crash, Module.decodeBytes bytes = .error (.crash c) ↔
      c = .nullReference ∧ ∃ n raw, Json.readFirst (Text.ofBytes bytes) = .ok n ∧
        moduleFields n = .ok raw ∧ Given n "functions" Gapped := by
    intro c
    unfold Module.decodeBytes Module.decode
    cases Json.readFirst (Text.ofBytes bytes) <;> simp [Module.ofNode_crash]
  refine ⟨?_, fun c => ⟨crashes c, fun m made => ?_⟩⟩
  · cases read : Module.decodeBytes bytes with
    | ok m => exact .inl ⟨m, rfl⟩
    | error fault =>
      cases fault with
      | crash c => exact .inr (.inr (by rw [((crashes c).mp read).1]))
      | error e =>
        refine .inr (.inl ⟨e, rfl, fun code same => ?_⟩)
        exact declared code (same ▸ read)
  · unfold Module.decodeBytes Module.decode at made
    cases first : Json.readFirst (Text.ofBytes bytes) with
    | error f => simp [first] at made
    | ok n =>
      rw [first] at made
      simp [Module.defects_crash, Module.ofNode_globals made]

/-- A module file with a missing block and a missing global. -/
def gapped : String :=
  "\x7b\"functions\":[\x7b\"blocks\":[null]\x7d],\"globals\":[null]\x7d"

theorem decode_gapped : Module.decodeBytes gapped.toUTF8.data.toList =
    .ok { functions := #[{ blocks := #[none] }], globals := #[none] } := by
  rw [Module.decodeBytes_toUTF8]
  decide +kernel

/-- Of a missing block and a missing global only the global makes the check crash. -/
theorem Module.decode_defects_crash_gapped : ∃ m, Module.decodeBytes gapped.toUTF8.data.toList = .ok m ∧
    m.defects = .error .nullReference ∧
    ∃ n, Json.readFirst gapped = .ok n ∧ Given n "globals" Gapped := by
  have crashed : Module.defects { functions := #[{ blocks := #[none] }], globals := #[none] } =
      .error .nullReference := by decide +kernel
  have declared : ∀ code, Module.decodeBytes gapped.toUTF8.data.toList ≠
      .error (.error (.unknownCode code)) := by
    intro code
    rw [decode_gapped]
    rintro ⟨⟩
  have found := ((((Module.decode_defects_crash declared).2 .nullReference).2 _ decode_gapped).mp
    crashed).2
  rw [Text.ofBytes_toUTF8] at found
  exact ⟨_, decode_gapped, crashed, found⟩

/-- Neither a missing function nor a missing global is reported. -/
theorem Module.null_entries_crash :
    Module.decodeBytes "\x7b\"functions\":[null]\x7d".toUTF8.data.toList =
      .error (.crash .nullReference) ∧
    ∃ m, Module.decodeBytes "\x7b\"globals\":[null]\x7d".toUTF8.data.toList = .ok m ∧
      m.defects = .error .nullReference := by
  refine ⟨?_, { globals := #[none] }, ?_, by decide +kernel⟩
  · rw [Module.decodeBytes_toUTF8]
    decide +kernel
  · rw [Module.decodeBytes_toUTF8]
    decide +kernel

end TieredEngine.Ir
