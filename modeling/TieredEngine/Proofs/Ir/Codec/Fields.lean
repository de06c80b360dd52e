import TieredEngine.Ir.Codec.Encode
import TieredEngine.Ir.Codec.Decode
import TieredEngine.Proofs.Except
import TieredEngine.Proofs.Json.Reading

/-!
Records and lists of the file form. A reader reads a document when it gives one and the same value
for every node that shows the document. A record is read member by member: what the members read so
far have made of the record is carried along, and a member that is left out changes nothing.
-/
namespace TieredEngine.Ir.Codec
open TieredEngine.Json

/-- The document is legible, and whatever node shows it, the reader gives the value. -/
structure Reads {α : Type} (r : Node → Read α) (d : Doc) (a : α) : Prop where
  legible : Legible d
  read : ∀ n, Shows .file d n → r n = .ok a

/-- A key without capitals is its own spelling in small letters. -/
theorem toLower_of_small {k : String} (small : k.toList.all (!·.isUpper)) : k.toLower = k := by
  have each : ∀ c ∈ k.toList, c.toLower = id c := by
    intro c member
    have plain : c.isUpper = false := by simpa using List.all_eq_true.mp small c member
    apply dif_neg
    intro range
    have upper : c.isUpper = true := decide_eq_true range
    rw [plain] at upper
    cases upper
  show String.map Char.toLower k = k
  rw [← String.toList_inj, String.toList_map, List.map_congr_left each, List.map_id]

/-- Members, read one after the other, turn one state of a record into another. -/
inductive Steps {α : Type} (step : α → String → Node → Read α) :
    List (String × Doc) → α → α → Prop
  | nil (a : α) : Steps step [] a a
  | cons {k : String} {d : Doc} {ms : List (String × Doc)} {a b c : α} :
      Reads (step a k.toLower) d b → Steps step ms b c → Steps step ((k, d) :: ms) a c

section Records
variable {α β : Type} {step : α → String → Node → Read α}

theorem Steps.append {ms ms' : List (String × Doc)} {a b c : α} (first : Steps step ms a b)
    (second : Steps step ms' b c) : Steps step (ms ++ ms') a c := by
  induction first with
  | nil => exact second
  | cons member _ ih => exact .cons member (ih second)

theorem Steps.to {ms : List (String × Doc)} {a b c : α} (steps : Steps step ms a b) (last : b = c) :
    Steps step ms a c := last ▸ steps

theorem Steps.legible {ms : List (String × Doc)} {a b : α} (steps : Steps step ms a b) :
    ∀ m ∈ ms, Legible m.2 := by
  induction steps with
  | nil => simp
  | cons member _ ih =>
    intro m listed
    rcases List.mem_cons.mp listed with rfl | later
    · exact member.legible
    · exact ih m later

theorem Steps.run {ms : List (String × Doc)} {a b : α} (steps : Steps step ms a b) (kind : String)
    {ns : List (String × Node)} (shown : ShowsMembers .file ms ns) :
    ns.foldlM (fun acc m =>
      (step acc m.1.toLower m.2).mapError (·.inside kind m.1.toLower)) a = .ok b := by
  induction steps generalizing ns with
  | nil =>
    cases shown
    rfl
  | cons member _ ih =>
    cases shown with
    | cons first rest =>
      rw [List.foldlM_cons, member.read _ first]
      exact ih rest

/-- A record is read when its members are. -/
theorem Steps.reads {ms : List (String × Doc)} {a b : α} (steps : Steps step ms a b)
    (kind : String) : Reads (fun n => fields kind n a step) (.obj ms) b := by
  refine ⟨.obj steps.legible, ?_⟩
  intro n shown
  cases shown with
  | obj sp members => exact steps.run kind members

/-- A member whose value goes into one field, and the members after it. -/
theorem Steps.field {r : Node → Read β} {d : Doc} {x : β} {a c : α} {k : String} {f : β → α}
    {ms : List (String × Doc)} (read : Reads r d x) (rest : Steps step ms (f x) c)
    (into : k.toList.all (!·.isUpper) ∧ ∀ n, step a k n = (r n >>= fun x => pure (f x))) :
    Steps step ((k, d) :: ms) a c := by
  refine .cons ⟨read.legible, ?_⟩ rest
  intro n shown
  rw [toLower_of_small into.1, into.2, read.read n shown]
  rfl

/-- A member that is only written under a condition; without it the field keeps its value. -/
theorem Steps.when {p : Prop} [Decidable p] {r : Node → Read β} {d : Doc} {x : β} {a : α}
    {k : String} {f : β → α} (read : p → Reads r d x) (default : ¬ p → f x = a)
    (into : k.toList.all (!·.isUpper) ∧ ∀ n, step a k n = (r n >>= fun x => pure (f x))) :
    Steps step (if p then [(k, d)] else []) a (f x) := by
  split
  case isTrue holds => exact .field (read holds) (.nil _) into
  case isFalse fails =>
    rw [default fails]
    exact .nil a

/-- A member that is left out under a condition. -/
theorem Steps.unless {p : Prop} [Decidable p] {r : Node → Read β} {d : Doc} {x : β} {a : α}
    {k : String} {f : β → α} (read : Reads r d x) (default : p → f x = a)
    (into : k.toList.all (!·.isUpper) ∧ ∀ n, step a k n = (r n >>= fun x => pure (f x))) :
    Steps step (if p then [] else [(k, d)]) a (f x) := by
  split
  case isTrue holds =>
    rw [default holds]
    exact .nil a
  case isFalse => exact .field read (.nil _) into

/-- A list that is left out when it is empty. -/
theorem Steps.omitEmpty {r : Node → Read β} {ds : List Doc} {x : β} {a : α} {k : String} {f : β → α}
    (read : Reads r (.arr ds) x) (default : ds = [] → f x = a)
    (into : k.toList.all (!·.isUpper) ∧ ∀ n, step a k n = (r n >>= fun x => pure (f x))) :
    Steps step (omitEmpty k ds) a (f x) := by
  refine Steps.unless read ?_ into
  simpa using default

theorem Reads.unit {r : Node → Read α} {d : Doc} {a : α} (reads : Reads r d a) :
    Reads (fun n => unit n (r n)) d a := by
  refine ⟨reads.legible, ?_⟩
  intro n shown
  rw [Codec.unit, reads.read n shown]
  rfl

theorem Reads.map {r : Node → Read β} {d : Doc} {x : β} (reads : Reads r d x) (f : β → α) :
    Reads (fun n => r n >>= fun x => pure (f x)) d (f x) := by
  refine ⟨reads.legible, ?_⟩
  intro n shown
  rw [reads.read n shown]
  rfl

end Records

section Lists
variable {α β : Type} {item : Option α → Node → Read α} {f : β → Doc} {g : β → α} {xs : List β}

/-- A list is read item by item; there is no earlier list to read it over. -/
theorem Reads.items (each : ∀ x ∈ xs, Reads (item none) (f x) (g x)) (kind : String) :
    Reads (fun n => items kind [] n item) (.arr (xs.map f)) (xs.map g, xs.isEmpty) := by
  refine ⟨.arr ?_, ?_⟩
  · intro d member
    obtain ⟨x, listed, rfl⟩ := List.mem_map.mp member
    exact (each x listed).legible
  intro n shown
  cases shown with
  | @arr ds ns sp shown =>
    have read : ∀ (xs : List β) (ns : List Node) (k : Nat), (∀ x ∈ xs, Reads (item none) (f x) (g x)) →
        ShowsItems .file (xs.map f) ns →
        (ns.zipIdx k).mapM (fun p => (item ([] : List α)[p.2]? p.1).mapError
          (·.inside kind (toString p.2))) = .ok (xs.map g) := by
      intro xs
      induction xs with
      | nil =>
        intro ns k each shown
        cases shown
        rfl
      | cons x xs ih =>
        intro ns k each shown
        cases shown with
        | cons first rest =>
          have own := (each x (by simp)).read _ first
          have others := ih _ (k + 1) (fun y member => each y (.tail x member)) rest
          simp only [List.zipIdx_cons, List.mapM_cons, List.getElem?_nil, own] at others ⊢
          rw [others]
          rfl
    have same : ns.isEmpty = xs.isEmpty := by
      cases xs <;> cases shown <;> rfl
    simp only [Codec.items]
    rw [read xs ns 0 each shown, same]
    rfl

/-- A list that is always written remembers whether it was spelled out empty. -/
theorem Reads.written (each : ∀ x ∈ xs, Reads (item none) (f x) (g x)) (kind : String)
    (explicitEmpty : Bool) :
    Reads (fun n => Codec.items kind [] n item) (Ir.written explicitEmpty (xs.map f))
      (xs.map g, xs.isEmpty && explicitEmpty) := by
  unfold Ir.written
  split
  case isTrue empty =>
    simp only [List.isEmpty_map, Bool.and_eq_true, List.isEmpty_iff, Bool.not_eq_true'] at empty
    obtain ⟨rfl, rfl⟩ := empty
    refine ⟨.null, ?_⟩
    intro n shown
    cases shown
    rfl
  case isFalse spelled =>
    have flag : (xs.isEmpty && explicitEmpty) = xs.isEmpty := by
      cases xs <;> cases explicitEmpty <;> simp_all
    rw [flag]
    exact Reads.items each kind

end Lists

section Leaves

theorem reads_string (old s : String) : Reads (string old) (.str s) s := by
  refine ⟨.str s, ?_⟩
  intro n shown
  cases shown
  rfl

theorem reads_bool (old b : Bool) : Reads (bool old) (.bool b) b := by
  refine ⟨.bool b, ?_⟩
  intro n shown
  cases shown
  rfl

theorem reads_word {α : Type} {ofName? : String → Option α} {s : String} {a : α}
    (known : ofName? s = some a) (kind : String) (unknown : String → DecodeError) (old : α) :
    Reads (word kind ofName? unknown old) (.str s) a := by
  refine ⟨.str s, ?_⟩
  intro n shown
  cases shown
  simp [word, known]

theorem reads_ty (old t : Ty) : Reads (ty old) (.str t.name) t :=
  reads_word (by cases t <;> decide) _ _ old

theorem reads_op (old o : Op) :
    Reads (word "*mir.Op" Op.ofName? .unknownOp old) (.str o.name) o :=
  reads_word (by cases o <;> decide) _ _ old

theorem reads_word32 (old w : UInt32) : Reads (word32 old) (Doc.ofNat w.toNat) w := by
  have number : NumberText (toString w.toNat).toList := by
    simpa using (whole_toDigits w.toNat).magnitude.number
  refine ⟨.number number, ?_⟩
  intro n shown
  obtain ⟨sp, rfl, -⟩ := shown.of_number number
  rw [word32, word32_toString]
  · rfl
  · simp

theorem reads_int64 (old z : Int64) : Reads (int64 old) (Doc.ofInt z.toInt) z := by
  have number : NumberText (toString z.toInt).toList := by
    rw [Text.toList_toString_int]
    exact numberText_signedDigitsOf z.toInt
  refine ⟨.number number, ?_⟩
  intro n shown
  obtain ⟨sp, rfl, -⟩ := shown.of_number number
  rw [int64, int64_toString]
  · rfl
  · simp

theorem reads_reg (old r : Reg) : Reads (reg old) (regDoc r) r :=
  (reads_word32 old.index r.index).map Reg.mk

theorem reads_blockId (old b : BlockId) : Reads (blockId old) (blockDoc b) b :=
  (reads_word32 old.index b.index).map BlockId.mk

theorem reads_regs (rs : List Reg) : Reads (regs []) (.arr (rs.map regDoc)) (rs, rs.isEmpty) := by
  have read : Reads (regs []) (.arr (rs.map regDoc)) (rs.map id, rs.isEmpty) :=
    Reads.items (fun r _ => reads_reg ⟨0⟩ r) "[]mir.Reg"
  rwa [List.map_id] at read

/-- Types are read as a list unless they are given as one text. -/
theorem reads_types_of_items {d : Doc} {x : List Ty × Bool}
    (list : Reads (fun n => items "[]mir.Type" [] n fun t => ty (t.getD .void)) d x)
    (noText : ∀ s, d ≠ .str s) : Reads (types []) d x := by
  refine ⟨list.legible, ?_⟩
  intro n shown
  have read := list.read n shown
  cases shown with
  | null => exact read
  | arr => exact read
  | str => exact absurd rfl (noText _)
  | _ => cases read

theorem reads_types (ts : List Ty) :
    Reads (types []) (.arr (ts.map (.str ·.name))) (ts, ts.isEmpty) := by
  have read : Reads (fun n => items "[]mir.Type" [] n fun t => ty (t.getD .void))
      (.arr (ts.map (.str ·.name))) (ts.map id, ts.isEmpty) :=
    Reads.items (fun t _ => reads_ty .void t) _
  rw [List.map_id] at read
  exact reads_types_of_items read (by simp)

theorem reads_types_written (ts : List Ty) (explicitEmpty : Bool) :
    Reads (types []) (Ir.written explicitEmpty (ts.map (.str ·.name)))
      (ts, ts.isEmpty && explicitEmpty) := by
  have read : Reads (fun n => items "[]mir.Type" [] n fun t => ty (t.getD .void))
      (Ir.written explicitEmpty (ts.map (.str ·.name)))
      (ts.map id, ts.isEmpty && explicitEmpty) :=
    Reads.written (fun t _ => reads_ty .void t) _ explicitEmpty
  rw [List.map_id] at read
  refine reads_types_of_items read ?_
  intro s
  unfold Ir.written
  split <;> simp

end Leaves

/-- A missing entry is written as `null`, and read as a missing entry. -/
theorem Reads.optional {α β : Type} {start : β} {item : β → Node → Read β} {f : α → Doc} {g : α → β}
    {entry : Option α} (read : ∀ a ∈ entry, Reads (item start) (f a) (g a))
    (record : ∀ a, ∃ ms, f a = .obj ms) :
    Reads (optional start item none) (orNull f entry) (entry.map g) := by
  cases entry with
  | none =>
    refine ⟨.null, ?_⟩
    intro n shown
    cases shown
    rfl
  | some a =>
    refine ⟨(read a rfl).legible, ?_⟩
    intro n shown
    have given := (read a rfl).read n shown
    obtain ⟨ms, object⟩ := record a
    rw [orNull, object] at shown
    cases shown with
    | obj sp members =>
      simp only [Codec.optional, Option.join_none, Option.getD_none, given]
      rfl

end TieredEngine.Ir.Codec
