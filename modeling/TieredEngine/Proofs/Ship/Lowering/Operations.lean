import TieredEngine.Proofs.Eval.Steps
import TieredEngine.Proofs.Ship.Lowering.Executing

/-!
Operations, lowered and run. Where the operands stand for the values that evaluation reads, what is written
for an operation comes to a value that stands for the one that evaluation computes; no instruction on the way
is one whose outcome the language leaves open. A zero divisor comes to the runtime's panic instead.
-/
namespace TieredEngine

theorem Ir.Ty.isIntLike_of_plain {t : Ty} (plain : t.isFloat = false) (some : t ≠ .void) :
    t.isIntLike = true := by
  cases t <;> first | rfl | exact absurd rfl some | cases plain

namespace Eval
open Ir

variable {op : Op} {t : Ty} {x y z : Value}

/-- What the lowered program reports too: that a divisor is zero, and panics. -/
def Cause.Reported (c : Cause) : Prop := c.kind = .divideByZero ∨ c.kind = .panic

theorem Cause.not_reported {c : Cause}
    (other : c.kind = .typeMismatch ∨ c.kind = .missingRegister ∨ c.kind = .unknownFunction) :
    ¬ c.Reported := by
  unfold Cause.Reported
  rcases other with other | other | other <;> rw [other] <;> decide

/-- Refused for a reason of types. -/
def Refused (r : Except Cause Value) : Prop := ∃ c, r = .error c ∧ c.kind = .typeMismatch

theorem binary_cases (plain : x.ty.isFloat = false) : Refused (binary op t x y) ∨
    x.ty = t ∧ y.ty = t ∧ t.isIntLike = true ∧ op.isFloat = false := by
  unfold binary
  split
  · exact .inl ⟨_, rfl, rfl⟩
  · next same =>
    obtain ⟨left, right⟩ := not_or.mp same
    split
    · rw [← not_not.mp left, plain]
      exact .inl ⟨_, rfl, rfl⟩
    · next float =>
      split
      · exact .inl ⟨_, rfl, rfl⟩
      · next word => exact .inr ⟨not_not.mp left, not_not.mp right, by simpa using word, by simpa using float⟩

theorem unary_cases (plain : x.ty.isFloat = false) : Refused (unary op t x) ∨
    x.ty = t ∧ t.isIntLike = true ∧ (op = .neg ∨ op = .not) := by
  unfold unary
  split
  · exact .inl ⟨_, rfl, rfl⟩
  · next same =>
    obtain rfl := not_not.mp same
    cases word : x.ty.isIntLike with
    | true =>
      cases op with
      | neg => exact .inr ⟨rfl, rfl, .inl rfl⟩
      | not => exact .inr ⟨rfl, rfl, .inr rfl⟩
      | fneg =>
        simp only [plain]
        exact .inl ⟨_, rfl, rfl⟩
      | _ => exact .inl ⟨_, rfl, rfl⟩
    | false =>
      have other : x.ty ≠ .bool := fun boolean => by rw [boolean] at word; cases word
      cases op with
      | not =>
        simp only [if_neg other]
        exact .inl ⟨_, rfl, rfl⟩
      | fneg =>
        simp only [plain]
        exact .inl ⟨_, rfl, rfl⟩
      | _ => exact .inl ⟨_, rfl, rfl⟩

theorem compare_cases (plain : x.ty.isFloat = false) : Refused (compare op x y) ∨
    y.ty = x.ty ∧ x.ty.isIntLike = true ∧ op.isFloat = false := by
  unfold compare
  dsimp only
  split
  · exact .inl ⟨_, rfl, rfl⟩
  · next same =>
    split
    · rw [plain]
      exact .inl ⟨_, rfl, rfl⟩
    · next float =>
      split
      · exact .inl ⟨_, rfl, rfl⟩
      · next word => exact .inr ⟨not_not.mp same, by simpa using word, by simpa using float⟩

theorem select_cases : Refused (select z x y) ∨
    z.ty = .bool ∧ y.ty = x.ty ∧ select z x y = .ok (if z.toBool then x else y) := by
  unfold select
  split
  · exact .inl ⟨_, rfl, rfl⟩
  · next fits =>
    obtain ⟨boolean, same⟩ := not_or.mp fits
    exact .inr ⟨not_not.mp boolean, (not_not.mp same).symm, rfl⟩

variable {i : Inst} (globals : Array Value) (vs : List Value)

theorem compute_copy (is : i.op = .copy) :
    Refused (compute globals i vs) ∨ ∃ x, vs = [x] ∧ compute globals i vs = .ok x := by
  rcases vs with _ | ⟨x, _ | ⟨y, vs⟩⟩
  · exact .inl ⟨_, by simp only [compute, is]; rfl, rfl⟩
  · exact .inr ⟨x, rfl, by simp only [compute, is]⟩
  · exact .inl ⟨_, by simp only [compute, is]; rfl, rfl⟩

theorem compute_cast (is : i.op = .cast) :
    Refused (compute globals i vs) ∨ ∃ x, vs = [x] ∧ compute globals i vs = cast i.ty x := by
  rcases vs with _ | ⟨x, _ | ⟨y, vs⟩⟩
  · exact .inl ⟨_, by simp only [compute, is]; rfl, rfl⟩
  · exact .inr ⟨x, rfl, by simp only [compute, is]⟩
  · exact .inl ⟨_, by simp only [compute, is]; rfl, rfl⟩

theorem compute_select (is : i.op = .select) : Refused (compute globals i vs) ∨
    ∃ z x y, vs = [z, x, y] ∧ compute globals i vs = select z x y := by
  rcases vs with _ | ⟨z, _ | ⟨x, _ | ⟨y, _ | ⟨u, vs⟩⟩⟩⟩
  · exact .inl ⟨_, by simp only [compute, is]; rfl, rfl⟩
  · exact .inl ⟨_, by simp only [compute, is]; rfl, rfl⟩
  · exact .inl ⟨_, by simp only [compute, is]; rfl, rfl⟩
  · exact .inr ⟨z, x, y, rfl, by simp only [compute, is]⟩
  · exact .inl ⟨_, by simp only [compute, is]; rfl, rfl⟩

end Eval

end TieredEngine

namespace TieredEngine.Ir

/-- The type that an instruction names for its operand brings about the change of width that the
operand's own type `t` does. -/
def Inst.NamesLike (i : Inst) (t : Ty) : Prop :=
  i.source = .void ∨ i.source.isIntLike = true ∧
    compare i.source.width i.ty.width = compare t.width i.ty.width ∧
      (t.width < i.ty.width → i.source.isSigned = t.isSigned)

instance (i : Inst) (t : Ty) : Decidable (i.NamesLike t) := inferInstanceAs (Decidable (_ ∨ _))

/-- The type that is taken for the operand's in place of its own. -/
theorem Inst.NamesLike.source {i : Inst} {t : Ty} (named : i.NamesLike t) (word : t.isIntLike = true) :
    ∃ source : Ty, source = (if i.source = .void then t else i.source) ∧
      source.isIntLike = true ∧ compare source.width i.ty.width = compare t.width i.ty.width ∧
        (t.width < i.ty.width → source.isSigned = t.isSigned) := by
  rcases named with void | ⟨word', same, signs⟩
  · exact ⟨t, (if_pos void).symm, word, rfl, fun _ => rfl⟩
  · refine ⟨i.source, (if_neg fun void => ?_).symm, word', same, signs⟩
    rw [void] at word'
    cases word'

end TieredEngine.Ir

namespace TieredEngine.Llvm.Activation

variable {a : Activation} {x y : Val} {w : Nat} {p q : BitVec w}

theorem value?_binary (op : BinOp) (left : a.operand? x = some ⟨w, p⟩)
    (right : a.operand? y = some ⟨w, q⟩) {b : BitVec w} (applied : op.apply? p q = some b) :
    a.value? (.binary op x y) = some ⟨w, b⟩ := by
  have read : a.read? w y = some q := (operand?_eq_some.mp right).2
  simp only [value?, left, read, Option.bind_eq_bind, Option.bind_some, applied, Option.pure_def]

theorem value?_icmp (left : a.operand? x = some ⟨w, p⟩) (right : a.operand? y = some ⟨w, q⟩)
    (pred : IntPred) : a.value? (.icmp pred x y) = some (.ofBool (pred.holds p q)) := by
  have read : a.read? w y = some q := (operand?_eq_some.mp right).2
  simp only [value?, left, read, Option.bind_eq_bind, Option.bind_some, Option.pure_def]

theorem value?_cast (there : a.operand? x = some ⟨w, p⟩) {op : CastOp} {n : Nat} {b : BitVec n}
    (applied : op.apply? p n = some b) : a.value? (.cast op x (.int n)) = some ⟨n, b⟩ := by
  simp only [value?, there, Option.bind_eq_bind, Option.bind_some, applied, Option.pure_def]

theorem value?_select {c : Val} {b : Bool} (chosen : a.operand? c = some (.ofBool b))
    (left : a.operand? x = some ⟨w, p⟩) (right : a.operand? y = some ⟨w, q⟩) :
    a.value? (.select c x y) = some ⟨w, if b then p else q⟩ := by
  simp only [value?, chosen, left, right, truth?_ofBool, Option.bind_eq_bind, Option.bind_some, if_true,
    Option.pure_def]
  cases b <;> rfl

end TieredEngine.Llvm.Activation

namespace TieredEngine.Ship.Lowering
open TieredEngine TieredEngine.Llvm

section

variable {a : Activation} {t : Ir.Ty}

theorem operand?_intConst (a : Activation) (word : t.isIntLike = true) (bits : UInt64) :
    a.operand? (.const (intConst t bits)) = some ⟨t.width, bits.toBitVec.setWidth t.width⟩ := by
  obtain ⟨n, same, value⟩ := intConst_eq word bits
  rw [same, ← value]
  rfl

theorem operand?_zeroOf (a : Activation) (word : t.isIntLike = true) :
    a.operand? (zeroOf t) = some ⟨t.width, .ofInt t.width 0⟩ := by
  rw [zeroOf, operand?_intConst a word]
  simp

theorem operand?_oneOf (a : Activation) (word : t.isIntLike = true) :
    a.operand? (oneOf t) = some ⟨t.width, .ofInt t.width 1⟩ := by
  rw [oneOf, operand?_intConst a word]
  congr 2
  cases t <;> rfl

theorem operand?_onesOf (a : Activation) (word : t.isIntLike = true) :
    a.operand? (onesOf t) = some ⟨t.width, .ofInt t.width (-1)⟩ := by
  rw [onesOf, operand?_intConst a word]
  congr 2
  cases t <;> rfl

/-- Shift counts are cut off by the width less one, as the widths are powers of two. -/
theorem operand?_mask (a : Activation) (word : t.isIntLike = true) :
    a.operand? (.const (intConst t (UInt64.ofNat t.width - 1))) =
      some ⟨t.width, .ofInt t.width (t.width - 1)⟩ := by
  rw [operand?_intConst a word]
  congr 2
  cases t <;> rfl

/-- An operand stands for a value. For nothing there is nothing to stand. -/
def Holds (a : Activation) (x : Val) (v : Ir.Value) : Prop := v.ty ≠ .void → a.operand? x = some v.word

theorem Holds.of_ty {x : Val} {v : Ir.Value} (holds : Holds a x v) (type : v.ty = t)
    (word : t.isIntLike = true) : a.operand? x = some ⟨t.width, v.low t.width⟩ := by
  subst type
  refine holds fun nothing => ?_
  rw [nothing] at word
  cases word

theorem holds_of_shows {x : Val} {v : Ir.Value} {b : BitVec t.width} (shows : Eval.Shows (.ok v) t b)
    (there : a.operand? x = some ⟨t.width, b⟩) : Holds a x v := by
  obtain ⟨v', same, rfl, _, rfl⟩ := shows
  cases same
  exact fun _ => there

end

section

variable {σ : Type} {l : Llvm.Module} {out : Outside σ} {blocks : List Llvm.Block} {mem : Memory}
  {s t u : State} {a a' a'' : Activation} {v x y : Val} {ty : Ir.Ty} {f : Ir.Function} {i : Ir.Inst}

/-- Running to where lowering stands makes a value stand for what evaluation gives, or stops for the cause
that evaluation stops for. -/
def Answers (l : Llvm.Module) (out : Outside σ) (blocks : List Llvm.Block) (mem : Memory) (s t : State)
    (a : Activation) (v : Val) : Except Eval.Cause Ir.Value → Prop
  | .ok r => ∃ a', Advances l out blocks mem s t a a' ∧ Holds a' v r
  | .error c => c.Reported → Stops l out mem a c

theorem Answers.of_shows {r : Except Eval.Cause Ir.Value} {b : BitVec ty.width}
    (shows : Eval.Shows r ty b) {m : Word} (same : m = ⟨ty.width, b⟩)
    (ran : ∃ a', Computes l out blocks mem s t a v m a') :
    Answers l out blocks mem s t a v r := by
  subst same
  obtain ⟨r, rfl, _⟩ := id shows
  obtain ⟨a', computes⟩ := ran
  exact ⟨a', computes.toAdvances, holds_of_shows shows computes.value⟩

/-- What comes before does not change the answer. -/
theorem Answers.after {r : Except Eval.Cause Ir.Value} (advances : Advances l out blocks mem s t a a')
    (answers : Answers l out blocks mem t u a' v r) : Answers l out blocks mem s u a v r := by
  cases r with
  | ok r =>
    obtain ⟨a'', advances', holds⟩ := answers
    exact ⟨a'', advances.trans advances', holds⟩
  | error c => exact fun kind => advances.stops (answers kind)

/-- Only a zero divisor and a panic have an answer in the lowered program. -/
theorem Answers.of_kind {c : Eval.Cause} (other : c.kind = .typeMismatch) :
    Answers l out blocks mem s t a v (.error c) := by
  exact fun reported => (Eval.Cause.not_reported (.inl other) reported).elim

/-- Lowering in two parts: what the first part wrote is final as well. -/
theorem Stands.bind (stands : Stands blocks s a) {x : Lower Val} {g : Val → Lower Val}
    (first : Makes s (fun _ => True) x) (rest : ∀ m y, Makes m (fun _ => True) (g y))
    (ran : (x >>= g) s = .ok (v, t)) (final : t.Final l blocks) :
    ∃ y m, x s = .ok (y, m) ∧ m.Final l blocks ∧ g y m = .ok (v, t) := by
  obtain ⟨y, m, ran₁, ran₂⟩ := run_bind.mp ran
  have carries := ((first s (.refl stands.opens)).1 y m ran₁).toCarries
  have carries' := ((rest m y m (.refl carries.opens)).1 v t ran₂).toCarries
  exact ⟨y, m, ran₁, final.extends carries'.toExtends, ran₂⟩

theorem Stands.icmp (out : Outside σ) (mem : Memory) (stands : Stands blocks s a)
    (final : t.Final l blocks) {w : Nat} {p q : BitVec w}
    (left : a.operand? x = some ⟨w, p⟩) (right : a.operand? y = some ⟨w, q⟩) {pred : IntPred}
    (ran : Lowering.icmp pred x y s = .ok (v, t)) :
    ∃ a', Computes l out blocks mem s t a v (.ofBool (pred.holds p q)) a' := by
  have int : x.ty.isInt = true := by
    rw [(Activation.operand?_eq_some.mp left).1]
    rfl
  rw [Lowering.icmp, if_pos int] at ran
  exact stands.emit _ _ ran final (Activation.value?_icmp left right pred)

/-- A divisor that is minus one is replaced by one. -/
theorem Stands.safe (out : Outside σ) (mem : Memory) (stands : Stands blocks s a)
    (final : t.Final l blocks) (word : ty.isIntLike = true) {b : BitVec ty.width}
    (there : a.operand? y = some ⟨ty.width, b⟩) (born : y.Born (· < s.nextId))
    {g : Val → Val → Lower Val} (rest : ∀ m p q, Makes m (fun _ => True) (g p q))
    (ran : (do
      let isMinusOne ← Lowering.icmp .eq y (onesOf ty)
      let safe ← Lowering.emit (.select isMinusOne (oneOf ty) y)
      g isMinusOne safe) s = .ok (v, t)) :
    ∃ minus safe m a', Advances l out blocks mem s m a a' ∧ m.Final l blocks ∧
      a'.operand? minus = some (.ofBool (b == .ofInt ty.width (-1))) ∧ minus.Born (· < m.nextId) ∧
      a'.operand? safe = some ⟨ty.width, Eval.safeDivisor b⟩ ∧ safe.Born (· < m.nextId) ∧
      g minus safe m = .ok (v, t) := by
  obtain ⟨minus, m₁, ran₁, final₁, ran⟩ := stands.bind (.icmp _ _ _)
    (fun _ _ => (Makes.emit (by simp)).bind fun _ => rest _ _ _) ran final
  obtain ⟨a₁, compares⟩ := stands.icmp out mem final₁ there (operand?_onesOf a word) ran₁
  obtain ⟨safe, m₂, ran₂, final₂, ran⟩ :=
    compares.stands.bind (.emit (by simp)) (fun _ _ => rest _ _ _) ran final
  obtain ⟨a₂, selects⟩ := compares.stands.emit out mem ran₂ final₂
    (Activation.value?_select compares.value (operand?_oneOf a₁ word) ((compares.operand? born).trans there))
  refine ⟨minus, safe, m₂, a₂, compares.trans selects.toAdvances, final₂,
    (selects.operand? compares.born).trans compares.value, ?_, ?_, selects.born, ran⟩
  · exact compares.born.mono fun _ older => Nat.lt_of_lt_of_le older selects.nextId
  · rw [selects.value]
    simp [Eval.safeDivisor, IntPred.holds]

section Binary

variable (stands : Stands blocks s a) (final : t.Final l blocks)
  {vx vy : Ir.Value} (word : ty.isIntLike = true) (left : vx.ty = ty) (right : vy.ty = ty)
  (holds : Holds a x vx) (holds' : Holds a y vy)
include stands final word left right holds holds'

theorem Stands.plain {op : Ir.Op} {lowered : BinOp} (plain : Eval.plainOp? op = some lowered)
    (ran : Lowering.emit (.binary lowered x y) s = .ok (v, t)) :
    Answers l out blocks mem s t a v (Eval.binary op ty vx vy) := by
  obtain ⟨b, applied, shows⟩ := Eval.plain_shows word left right plain
  exact .of_shows shows rfl (stands.emit _ _ ran final
    (Activation.value?_binary _ (holds.of_ty left word) (holds'.of_ty right word) applied))

variable (normal : vx.Normal) (normal' : vy.Normal) (born : x.Born (· < s.nextId))
include normal normal' born

/-- A shift by a count that is taken modulo the width. -/
theorem Stands.counted {op : Ir.Op} {lowered : BinOp} (shift : Eval.shiftOp? ty op = some lowered)
    (ran : (do
      let count ← Lowering.emit (.binary .and y (.const (intConst ty (UInt64.ofNat ty.width - 1))))
      Lowering.emit (.binary lowered x count) : Lower Val) s = .ok (v, t)) :
    Answers l out blocks mem s t a v (Eval.binary op ty vx vy) := by
  obtain ⟨count, m, ran₁, final₁, ran₂⟩ :=
    stands.bind (.emit (by simp)) (fun _ _ => .emit (by simp)) ran final
  obtain ⟨b, applied, shows⟩ := Eval.counted_shows word left right normal normal' shift
  obtain ⟨a₁, counts⟩ := stands.emit out mem ran₁ final₁
    (Activation.value?_binary .and (holds'.of_ty right word) (operand?_mask a word) rfl)
  have there : a₁.operand? x = some ⟨ty.width, vx.low ty.width⟩ :=
    (counts.operand? born).trans (holds.of_ty left word)
  obtain ⟨a₂, shifts⟩ := counts.stands.emit out mem ran₂ final
    (Activation.value?_binary _ there counts.value applied)
  exact .after counts.toAdvances (.of_shows shows rfl ⟨a₂, shifts⟩)

variable (born' : y.Born (· < s.nextId)) (some : vy.low ty.width ≠ 0)
include born' some

/-- A quotient or remainder by a divisor that is not zero. -/
theorem Stands.quotient {op : Ir.Op} (divides : op = .div ∨ op = .rem)
    (ran : Lowering.quotient op ty x y s = .ok (v, t)) :
    Answers l out blocks mem s t a v (Eval.binary op ty vx vy) := by
  have there := holds.of_ty left word
  have there' := holds'.of_ty right word
  unfold Lowering.quotient at ran
  cases signed : ty.isSigned with
  | false =>
    obtain ⟨⟨q, div, shows⟩, ⟨r, rem, shows'⟩⟩ :=
      Eval.unsigned_shows word left right normal normal' some signed
    rw [if_pos (by rw [signed]; rfl)] at ran
    rcases divides with rfl | rfl
    · exact .of_shows shows rfl (stands.emit _ _ ran final (Activation.value?_binary _ there there' div))
    · exact .of_shows shows' rfl (stands.emit _ _ ran final (Activation.value?_binary _ there there' rem))
  | true =>
    obtain ⟨⟨q, div, shows⟩, ⟨r, rem, shows'⟩⟩ :=
      Eval.signed_shows word left right normal normal' some signed
    rw [if_neg (by rw [signed]; decide)] at ran
    obtain ⟨minus, safe, m, a₁, advances, final₁, isMinus, bornMinus, isSafe, bornSafe, ran⟩ :=
      stands.safe out mem final word there' born' (fun _ _ _ => .ite (fun _ =>
        (Makes.emit (by simp)).bind fun _ => (Makes.emit (by simp)).bind fun _ => .emit (by simp))
        fun _ => (Makes.emit (by simp)).bind fun _ => .emit (by simp)) ran
    refine .after advances ?_
    replace there := (advances.operand? born).trans there
    replace born := born.mono fun _ older => Nat.lt_of_lt_of_le older advances.nextId
    rcases divides with rfl | rfl
    · obtain ⟨quotient, m₂, ran₂, final₂, ran⟩ := advances.stands.bind (.emit (by simp))
        (fun _ _ => (Makes.emit (by simp)).bind fun _ => .emit (by simp)) ran final
      obtain ⟨a₂, divided⟩ := advances.stands.emit out mem ran₂ final₂
        (Activation.value?_binary _ there isSafe div)
      obtain ⟨negated, m₃, ran₃, final₃, ran⟩ := divided.stands.bind (.emit (by simp))
        (fun _ _ => .emit (by simp)) ran final
      obtain ⟨a₃, negates⟩ := divided.stands.emit out mem ran₃ final₃
        (Activation.value?_binary .sub (operand?_zeroOf a₂ word) ((divided.operand? born).trans there)
          rfl)
      have both := divided.trans negates.toAdvances
      obtain ⟨a₄, chosen⟩ := negates.stands.emit out mem ran final
        (Activation.value?_select ((both.operand? bornMinus).trans isMinus) negates.value
          ((negates.operand? divided.born).trans divided.value))
      refine .after both (.of_shows shows ?_ ⟨a₄, chosen⟩)
      simp
    · obtain ⟨remainder, m₂, ran₂, final₂, ran⟩ := advances.stands.bind (.emit (by simp))
        (fun _ _ => .emit (by simp)) ran final
      obtain ⟨a₂, divided⟩ := advances.stands.emit out mem ran₂ final₂
        (Activation.value?_binary _ there isSafe rem)
      obtain ⟨a₃, chosen⟩ := divided.stands.emit out mem ran final
        (Activation.value?_select ((divided.operand? bornMinus).trans isMinus) (operand?_zeroOf a₂ word)
          divided.value)
      refine .after divided.toAdvances (.of_shows shows' ?_ ⟨a₃, chosen⟩)
      simp

omit some in
/-- The divisor is checked first. -/
theorem Stands.divide (names : (blocks.map (·.name)).Nodup) {op : Ir.Op} (divides : op = .div ∨ op = .rem)
    (ran : Lowering.divide op ty x y s = .ok (v, t)) :
    Answers l out blocks mem s t a v (Eval.binary op ty vx vy) := by
  obtain ⟨isZero, s₁, s₂, ran₁, checks, ran⟩ := divide_ok ran
  have carries := (((Makes.icmp (P := fun _ => True) .eq y (zeroOf ty)) s (.refl stands.opens)).1
    isZero s₁ ran₁).toCarries
  obtain ⟨moves, _⟩ := checks.continues carries.opens
  have carries' := (((Makes.quotient (P := fun _ => True) op ty x y) s₂ (.refl moves.opens)).1
    v t ran).toCarries
  have final₂ := final.extends carries'.toExtends
  have final₁ := final₂.extends moves.toExtends
  obtain ⟨a₁, compares⟩ :=
    stands.icmp out mem final₁ (holds'.of_ty right word) (operand?_zeroOf a word) ran₁
  have checked := compares.stands.checks out mem (c := .divideByZero op ty) names checks
    final₂ compares.value
  by_cases zero : vy.low ty.width = 0
  · have number : vy.number = 0 := Ir.Value.number_eq_zero_iff.mpr
      ((Ir.Value.pattern_eq_zero normal' (by rw [right]; exact word)).mp (by subst right; exact zero))
    rw [Eval.divides_by_zero word left right normal' number op divides]
    intro _
    refine compares.stops ?_
    rw [if_pos (by simp [IntPred.holds, zero])] at checked
    exact checked
  · rw [if_neg (by simpa [IntPred.holds] using zero)] at checked
    obtain ⟨a₂, advances⟩ := checked
    have both := compares.trans advances
    refine .after both
      (advances.stands.quotient final word left right ?_ ?_ normal normal' ?_ ?_ zero divides ran)
    · exact fun some => (both.operand? born).trans (holds some)
    · exact fun some => (both.operand? born').trans (holds' some)
    · exact born.mono fun _ older => Nat.lt_of_lt_of_le older both.nextId
    · exact born'.mono fun _ older => Nat.lt_of_lt_of_le older both.nextId

end Binary

theorem word_ofBool (b : Bool) : (Ir.Value.ofBool b).word = .ofBool b := by
  cases b <;> rfl

theorem word_of_bool {v : Ir.Value} (normal : v.Normal) (boolean : v.ty = .bool) :
    v.word = .ofBool v.toBool := by
  rw [← word_ofBool, Ir.Value.ofBool_toBool normal boolean]

section Casts

variable {f : Ir.Function} {i : Ir.Inst} {s : State} {n : Nat} {r : Ir.Reg} {x : Val} {a : Activation}

theorem argReg_eq (operand : i.args[n]? = some r) : argReg i n s = .ok (r, s) := by
  unfold argReg
  rw [operand]
  rfl

theorem arg_eq (operand : i.args[n]? = some r) (value : (s.values[r.num]?).join = some x) :
    arg f i n s = .ok (x, s) := by
  simp only [arg, bind, StateT.bind, argReg_eq operand, Except.bind, use, get, getThe,
    MonadStateOf.get, StateT.get, pure, Except.pure, value]
  rfl

/-- A change of width that goes the way it says is emitted. -/
theorem resize_eq {w : Nat} {op : CastOp} (type : x.ty = .int w)
    (way : if op = .trunc then n ≤ w else w ≤ n) :
    resize op x n s = emit (.cast op x (.int n)) s := by
  unfold resize
  rw [type]
  simp only [if_pos way]

/-- Lowering a conversion between words, by the type that is taken for the operand's. -/
theorem cast_eq {source : Ir.Ty} (operand : i.args[0]? = some r)
    (value : (s.values[r.num]?).join = some x)
    (named : source = if i.source = .void then regType f r else i.source)
    (word : source.isIntLike = true) (target : i.ty.isIntLike = true) :
    cast f i s = (if i.ty = .bool then
        if source = .bool then pure x else icmp .ne x (zeroOf source)
      else if i.ty.width < source.width then resize .trunc x i.ty.width
      else if source.width < i.ty.width then
        resize (if source.isSigned then .sext else .zext) x i.ty.width
      else pure x : Lower Val) s := by
  have types : source ≠ .void ∧ source.isFloat = false := by
    cases source <;> first | exact ⟨by decide, rfl⟩ | cases word
  have types' : i.ty ≠ .void ∧ i.ty.isFloat = false := by
    generalize i.ty = t at target
    cases t <;> first | exact ⟨by decide, rfl⟩ | cases target
  simp only [cast, bind, StateT.bind, argReg_eq operand, Except.bind, arg_eq operand value, ← named,
    types, types', decide_false, Bool.or_self, Bool.false_eq_true, if_false]

/-- The constant zero of a type, read at any width. -/
theorem read?_zeroOf (a : Activation) {t : Ir.Ty} (word : t.isIntLike = true) (n : Nat) :
    a.read? n (zeroOf t) = some 0 := by
  have none : intConst t 0 = .int t.width 0 := by
    unfold intConst
    split
    · rfl
    · cases word
    · exact congrArg (Const.int _) Int.zero_bmod
  unfold zeroOf
  rw [none]
  exact congrArg some (by simp)

/-- Lowering leaves an operand that stands for a word: it does already, or one instruction computes
the word. -/
inductive Leaves (a : Activation) (s : State) (m : Word) : Val → State → Prop
  | held {x : Val} : a.operand? x = some m → Leaves a s m x s
  | computed {op : Operation} {y : Val} {t : State} :
    emit op s = .ok (y, t) → a.value? op = some m → Leaves a s m y t

/-- A lowered conversion leaves the word of the converted value. -/
theorem cast_leaves {t : Ir.Ty} (operand : i.args[0]? = some r)
    (type : f.regType? r = some t) (word : t.isIntLike = true) (target : i.ty.isIntLike = true)
    (named : i.NamesLike t) {v w : Ir.Value} (own : v.ty = t) (normal : v.Normal)
    (computed : Eval.cast i.ty v = .ok w) (value : (s.values[r.num]?).join = some x)
    (there : a.operand? x = some v.word) :
    ∃ y u, cast f i s = .ok (y, u) ∧ Leaves a s w.word y u := by
  subst own
  obtain ⟨source, chosen, word', widths, signs⟩ := Ir.Inst.NamesLike.source named word
  have regType : regType f r = v.ty := by
    rw [regType, type]
    rfl
  have integer : x.ty = .int v.ty.width := (Activation.operand?_eq_some.mp there).1
  rw [cast_eq operand value (by rw [regType, chosen]) word' target]
  have pattern := Eval.cast_pattern normal word target computed
  by_cases boolean : i.ty = .bool
  · rw [if_pos boolean]
    rw [if_pos boolean] at pattern
    by_cases narrow : source = .bool
    · -- a boolean stays as it is
      rw [if_pos narrow]
      rw [narrow, boolean, Nat.compare_eq_eq.mpr rfl, eq_comm, Nat.compare_eq_eq] at widths
      have same : w.pattern = v.pattern := pattern.trans (Ir.Pattern.truth (widths.trans rfl))
      exact ⟨x, s, rfl, .held (there.trans (congrArg some (Ir.Value.word_of_pattern same).symm))⟩
    · rw [if_neg narrow, icmp, if_pos (by rw [integer]; rfl)]
      refine ⟨_, _, rfl, .computed rfl ?_⟩
      rw [Ir.Value.word_of_pattern pattern]
      simp only [Activation.value?, there, Option.bind_eq_bind, Option.bind_some,
        read?_zeroOf a word', Option.pure_def, Word.ofBool, Ir.Value.word, IntPred.holds]
      congr 3
      rw [Bool.eq_iff_iff, decide_eq_true_iff]
      exact bne_iff_ne
  · rw [if_neg boolean]
    rw [if_neg boolean] at pattern
    rcases Nat.lt_trichotomy v.ty.width i.ty.width with wider | same | narrower
    · rw [Nat.compare_eq_lt.mpr wider, Nat.compare_eq_lt] at widths
      rw [if_neg (by omega), if_pos widths, resize_eq integer (by split <;> simp <;> omega)]
      refine ⟨_, _, rfl, .computed rfl ?_⟩
      rw [signs wider, Ir.Value.word_of_pattern pattern]
      refine Activation.value?_cast there ?_
      unfold Ir.Ty.extend
      cases v.ty.isSigned
      · exact if_pos wider
      · exact if_pos wider
    · rw [Nat.compare_eq_eq.mpr same, Nat.compare_eq_eq] at widths
      rw [if_neg (by omega), if_neg (by omega)]
      have alike : w.pattern = v.pattern := pattern.trans (Ir.Pattern.extend _ same)
      exact ⟨x, s, rfl, .held (there.trans (congrArg some (Ir.Value.word_of_pattern alike).symm))⟩
    · rw [Nat.compare_eq_gt.mpr narrower, Nat.compare_eq_gt] at widths
      rw [if_pos widths, resize_eq integer (by simp; omega)]
      refine ⟨_, _, rfl, .computed rfl ?_⟩
      rw [Ir.Value.word_of_pattern pattern]
      refine Activation.value?_cast there ?_
      rw [Ir.Ty.extend_of_le (show i.ty.width ≤ v.pattern.width from Nat.le_of_lt narrower)]
      exact if_pos narrower

end Casts

/-- What a register has in lowering stands for a value, which is one of the register's type. -/
structure Mirrors (f : Ir.Function) (s : State) (a : Activation) (r : Ir.Reg) (v : Ir.Value) : Prop where
  value : ∃ x, s.values[r.num]? = some (some x) ∧ x.Born (· < s.nextId) ∧ Holds a x v
  type : f.regType? r = some v.ty
  normal : v.Normal

theorem Mirrors.arg {r : Ir.Reg} {v : Ir.Value} (mirrors : Mirrors f s a r v) {n : Nat}
    (operand : i.args[n]? = some r) {α : Type} {g : Val → Lower α} {b : α}
    (ran : (arg f i n >>= g) s = .ok (b, t)) :
    ∃ x, x.Born (· < s.nextId) ∧ Holds a x v ∧ g x s = .ok (b, t) := by
  obtain ⟨x, value, born, holds⟩ := mirrors.value
  obtain ⟨_, _, got, ran⟩ := run_bind.mp ran
  rw [arg_eq operand (by rw [value]; rfl)] at got
  cases got
  exact ⟨x, born, holds, ran⟩

theorem Answers.of_refused {r : Except Eval.Cause Ir.Value} (refused : Eval.Refused r) :
    Answers l out blocks mem s t a v r := by
  obtain ⟨c, rfl, kind⟩ := refused
  exact .of_kind kind

section Instruction

variable (stands : Stands blocks s a) (final : t.Final l blocks)
  (words : ∀ r u, f.regType? r = some u → u.isFloat = false) {vx vy : Ir.Value} {rx ry : Ir.Reg}
  (mirrors : Mirrors f s a rx vx)
include stands final words mirrors

theorem Stands.unary (args : i.args = [rx])
    (ran : Lowering.unary f i s = .ok (v, t)) :
    Answers l out blocks mem s t a v (Eval.unary i.op i.ty vx) := by
  obtain ⟨x, born, holds, ran⟩ := mirrors.arg (by rw [args]; rfl) ran
  rcases Eval.unary_cases (words rx _ mirrors.type) with refused | ⟨same, word, op | op⟩
  · exact .of_refused refused
  · rw [op] at ran ⊢
    exact .of_shows (Eval.neg_shows word same) rfl (stands.emit _ _ ran final
      (Activation.value?_binary .sub (operand?_zeroOf a word) (holds.of_ty same word) rfl))
  · rw [op] at ran ⊢
    exact .of_shows (Eval.not_shows word same mirrors.normal) rfl (stands.emit _ _ ran final
      (Activation.value?_binary .xor (holds.of_ty same word) (operand?_onesOf a word) rfl))

theorem Stands.cast (args : i.args = [rx]) (source : i.source = .void ∨ i.source = vx.ty)
    (target : i.ty.isFloat = false) (ran : Lowering.cast f i s = .ok (v, t)) :
    Answers l out blocks mem s t a v (Eval.cast i.ty vx) := by
  cases computed : Eval.cast i.ty vx with
  | error c => exact .of_kind (Eval.kind_of_cast computed)
  | ok w =>
    have types : vx.ty ≠ .void ∧ i.ty ≠ .void := by
      constructor <;> intro nothing <;> simp [Eval.cast, nothing] at computed
    have word := Ir.Ty.isIntLike_of_plain (words rx _ mirrors.type) types.1
    have named : i.NamesLike vx.ty := by
      rcases source with void | same
      · exact .inl void
      · exact .inr ⟨by rw [same, word], by rw [same], fun _ => by rw [same]⟩
    obtain ⟨x, value, born, holds⟩ := mirrors.value
    obtain ⟨y, u, ran', leaves⟩ := cast_leaves (by rw [args]; rfl) mirrors.type word
      (Ir.Ty.isIntLike_of_plain target types.2) named rfl mirrors.normal computed (by rw [value]; rfl)
      (holds types.1)
    cases ran.symm.trans ran'
    cases leaves with
    | held there => exact ⟨a, .refl stands, fun _ => there⟩
    | computed emitted value =>
      obtain ⟨a', computes⟩ := stands.emit out mem emitted final value
      exact ⟨a', computes.toAdvances, fun _ => computes.value⟩

variable (mirrors' : Mirrors f s a ry vy)
include mirrors'

theorem Stands.compare (args : i.args = [rx, ry]) (is : i.op.isCompare = true)
    (ran : Lowering.compare f i s = .ok (v, t)) :
    Answers l out blocks mem s t a v (Eval.compare i.op vx vy) := by
  obtain ⟨_, _, got, ran⟩ := run_bind.mp ran
  rw [argReg_eq (by rw [args]; rfl)] at got
  cases got
  obtain ⟨x, born, holds, ran⟩ := mirrors.arg (by rw [args]; rfl) ran
  obtain ⟨y, born', holds', ran⟩ := mirrors'.arg (by rw [args]; rfl) ran
  rcases Eval.compare_cases (words rx _ mirrors.type) with refused | ⟨same, word, plain⟩
  · exact .of_refused refused
  · rw [if_neg (by rw [plain]; decide), show regType f rx = vx.ty by rw [regType, mirrors.type]; rfl] at ran
    rw [Eval.compare_holds word same mirrors.normal mirrors'.normal is plain]
    obtain ⟨a', computes⟩ :=
      stands.icmp out mem final (holds.of_ty rfl word) (holds'.of_ty same word) ran
    exact ⟨a', computes.toAdvances, fun _ => computes.value.trans (congrArg some (word_ofBool _).symm)⟩

theorem Stands.binary (names : (blocks.map (·.name)).Nodup) (args : i.args = [rx, ry])
    (is : i.op.isBinary = true) (ran : Lowering.binary f i s = .ok (v, t)) :
    Answers l out blocks mem s t a v (Eval.binary i.op i.ty vx vy) := by
  obtain ⟨x, born, holds, ran⟩ := mirrors.arg (by rw [args]; rfl) ran
  obtain ⟨y, born', holds', ran⟩ := mirrors'.arg (by rw [args]; rfl) ran
  rcases Eval.binary_cases (words rx _ mirrors.type) with refused | ⟨left, right, word, plain⟩
  · exact .of_refused refused
  · dsimp only at ran
    revert is plain ran
    cases i.op <;> intro is ran plain <;> first
      | exact (Bool.false_ne_true is).elim
      | exact (Bool.false_ne_true plain.symm).elim
      | skip
    case add | sub | mul | and | or | xor =>
      exact stands.plain final word left right holds holds' rfl ran
    case shl | shr =>
      exact stands.counted final word left right holds holds' mirrors.normal mirrors'.normal born rfl ran
    case div | rem =>
      exact stands.divide final word left right holds holds' mirrors.normal mirrors'.normal born born' names
        (by simp) ran

end Instruction

theorem State.Final.of_defines {r : Ir.Reg} (defines : State.Defines r v t u) (final : u.Final l blocks) :
    t.Final l blocks := by
  obtain ⟨values, rfl⟩ : ∃ values, u = { t with values } := ⟨_, defines.same⟩
  exact ⟨final.blocks, final.functions, final.globals⟩

/-- The globals of evaluation, as memory of the lowered program. -/
def memory (globals : Array Ir.Value) : Memory := fun k => (globals[k]?).map Ir.Value.word

section

variable {α β : Type} {R : α → β → Prop} {xs : List α} {y y' y'' : β}

theorem forall₂_one (related : List.Forall₂ R xs [y]) : ∃ x, xs = [x] ∧ R x y := by
  obtain ⟨x, _, here, rest, rfl⟩ := List.forall₂_cons_right_iff.mp related
  rw [List.forall₂_nil_right_iff] at rest
  exact ⟨x, rest ▸ rfl, here⟩

theorem forall₂_two (related : List.Forall₂ R xs [y, y']) : ∃ x x', xs = [x, x'] ∧ R x y ∧ R x' y' := by
  obtain ⟨x, _, here, rest, rfl⟩ := List.forall₂_cons_right_iff.mp related
  obtain ⟨x', rfl, here'⟩ := forall₂_one rest
  exact ⟨x, x', rfl, here, here'⟩

theorem forall₂_three (related : List.Forall₂ R xs [y, y', y'']) :
    ∃ x x' x'', xs = [x, x', x''] ∧ R x y ∧ R x' y' ∧ R x'' y'' := by
  obtain ⟨x, _, here, rest, rfl⟩ := List.forall₂_cons_right_iff.mp related
  obtain ⟨x', x'', rfl, here', here''⟩ := forall₂_two rest
  exact ⟨x, x', x'', rfl, here, here', here''⟩

end

theorem orFail_ok {α : Type} {c : LowerCause} {x? : Option α} {x : α} (ran : orFail c x? s = .ok (x, t)) :
    x? = some x ∧ t = s := by
  cases x? with
  | none => cases ran
  | some x =>
    cases ran
    exact ⟨rfl, rfl⟩

theorem valueType?_eq {u : Ir.Ty} (word : u.isIntLike = true) : valueType? u = some (.int u.width) := by
  cases u <;> first | rfl | cases word

theorem constFor?_eq {c : Ir.Value} (word : c.ty.isIntLike = true) :
    constFor? c = some (intConst c.ty c.bits) := by
  unfold constFor?
  split <;> simp_all [Ir.Ty.isIntLike, Ir.Ty.isInteger]

/-- Instructions between words whose meaning is defined. -/
structure Plain (f : Ir.Function) (i : Ir.Inst) : Prop where
  words : ∀ r u, f.regType? r = some u → u.isFloat = false
  absent : f.declares .absent = false
  casts : i.op = .cast → i.ty.isFloat = false ∧
    (i.source = .void ∨ ∀ r ∈ i.args, f.regType? r = some i.source)
  selects : i.op = .select → f.regType? i.dest ≠ some .void
  defined : i.op ≠ .undef
  constant : i.op = .const → i.const.Normal

theorem inst_of_operate {n k : Nat} (computes : i.op ∉ Ir.Op.plain) :
    inst n k f i =
      if i.op.isBinary then binary f i >>= define i.dest
      else if i.op.isUnary then unary f i >>= define i.dest
      else Lowering.compare f i >>= define i.dest := by
  unfold inst
  split <;> first | rfl | simp_all [Ir.Op.plain]

/-- The answer of an instruction is in the register that it writes. -/
def Delivers (l : Llvm.Module) (out : Outside σ) (blocks : List Llvm.Block) (mem : Memory) (s t : State)
    (a : Activation) (r : Ir.Reg) (result : Except Eval.Cause Ir.Value) : Prop :=
  ∃ x, Answers l out blocks mem s t a x result ∧
    ∀ v, result = .ok v → t.values[r.num]? = some (some x)

theorem Delivers.of_refused {r : Ir.Reg} {result : Except Eval.Cause Ir.Value}
    (refused : Eval.Refused result) : Delivers l out blocks mem s t a r result :=
  ⟨zeroOf .bool, .of_refused refused, fun v returned => by
    obtain ⟨c, rfl, _⟩ := refused
    cases returned⟩

section Delivers

variable {n k : Nat} {globals : Array Ir.Value} (final : t.Final l blocks)
  (size : s.values.size = f.regTypes.size) (plain : Plain f i) {vs : List Ir.Value}
  (fits : ∀ v, Eval.compute globals i vs = .ok v → f.regType? i.dest = some v.ty)
include final size plain fits

theorem Delivers.of_define {y : Val} {m : State} (carries : s.Carries m)
    (set : define i.dest y m = .ok ((), t))
    (answers : m.Final l blocks → Answers l out blocks mem s m a y (Eval.compute globals i vs)) :
    Delivers l out blocks mem s t a i.dest (Eval.compute globals i vs) := by
  have defines := State.Defines.of_define set
  have answer := answers (.of_defines defines final)
  refine ⟨y, ?_, fun v computed => ?_⟩
  · cases computed : Eval.compute globals i vs with
    | error c =>
      rw [computed] at answer
      exact answer
    | ok v =>
      rw [computed] at answer
      obtain ⟨a', advances, holds⟩ := answer
      exact ⟨a', ⟨advances.toMoves.define defines, advances.leads⟩, holds⟩
  · have declared := fits v computed
    refine defines.dest ?_ ?_
    · intro none
      have absent := plain.absent
      rw [← none, Ir.Function.declares, declared] at absent
      cases absent
    · rw [carries.values, size]
      exact (Array.getElem?_eq_some_iff.mp declared).1

variable (stands : Stands blocks s a)
include stands

theorem Delivers.of_makes {X : Lower Val} (makes : Makes s (fun _ => True) X)
    (ran : (X >>= define i.dest) s = .ok ((), t))
    (answers : ∀ y m, X s = .ok (y, m) → m.Final l blocks →
      Answers l out blocks mem s m a y (Eval.compute globals i vs)) :
    Delivers l out blocks mem s t a i.dest (Eval.compute globals i vs) := by
  obtain ⟨y, m, ran, set⟩ := run_bind.mp ran
  exact .of_define final size plain fits ((makes s (.refl stands.opens)).1 y m ran).toCarries set
    (answers y m ran)

/-- Constants. -/
theorem Delivers.constant (op : i.op = .const) (ran : inst n k f i s = .ok ((), t)) :
    Delivers l out blocks mem s t a i.dest (Eval.compute globals i vs) := by
  have computed : Eval.compute globals i vs = .ok i.const := by simp [Eval.compute, op]
  simp only [inst, op] at ran
  obtain ⟨c, m, got, set⟩ := run_bind.mp ran
  obtain ⟨there, rfl⟩ := orFail_ok got
  refine .of_define final size plain fits (.refl stands.opens) set fun _ => ?_
  rw [computed]
  refine ⟨a, .refl stands, fun some => ?_⟩
  have word := Ir.Ty.isIntLike_of_plain (plain.words _ _ (fits _ computed)) some
  rw [constFor?_eq word] at there
  cases there
  exact operand?_intConst a word _

/-- Loads: memory has the words of the globals. -/
theorem Delivers.load (op : i.op = .loadGlobal) (type : f.regType? i.dest = some i.ty)
    (ran : inst n k f i s = .ok ((), t)) :
    Delivers l out blocks (memory globals) s t a i.dest (Eval.compute globals i vs) := by
  simp only [inst, op] at ran
  split at ran
  · cases ran
  obtain ⟨ty, _, got, loaded⟩ := run_bind.mp ran
  obtain ⟨known, rfl⟩ := orFail_ok got
  refine .of_makes final size plain fits stands (.emit (by simp)) loaded fun v m ran final => ?_
  cases there : globals[i.global.num]? with
  | none =>
    have computed : Eval.compute globals i vs = .error (.loadUnknownGlobal i.global) := by
      simp [Eval.compute, op, there]
    rw [computed]
    exact fun reported => (Eval.Cause.not_reported (.inr (.inl rfl)) reported).elim
  | some x =>
    have computed : Eval.compute globals i vs = .ok x := by simp [Eval.compute, op, there]
    have same : i.ty = x.ty := Option.some.inj (type.symm.trans (fits x computed))
    rw [computed]
    have some : i.ty ≠ .void := by
      intro nothing
      rw [nothing] at known
      cases known
    have word := Ir.Ty.isIntLike_of_plain (plain.words _ _ type) some
    rw [valueType?_eq word] at known
    obtain ⟨a', computes⟩ := stands.load out (memory globals) ran final
      (by rw [memory, there]; rfl) (by rw [← Option.some.inj known, same]; rfl)
    exact ⟨a', computes.toAdvances, fun _ => computes.value⟩

variable (mirrored : List.Forall₂ (Mirrors f s a) i.args vs)
include mirrored

/-- Operations on one or two operands. -/
theorem Delivers.of_operate (names : (blocks.map (·.name)).Nodup) (computes : i.op ∉ Ir.Op.plain)
    (ran : inst n k f i s = .ok ((), t)) :
    Delivers l out blocks mem s t a i.dest (Eval.compute globals i vs) := by
  have operands : ∀ r ∈ i.args, ∀ x, (s.values[r.num]?).join = some x → x.Born fun _ => True :=
    fun _ _ x _ => x.born_true
  rw [inst_of_operate computes] at ran
  split at ran
  · next binary =>
    refine .of_makes final size plain fits stands (.binary operands) ran fun y m ran final => ?_
    rw [Eval.compute_eq_operate computes]
    unfold Eval.operate
    rw [if_neg (by rw [Ir.Op.isUnary_of_binary binary]; decide)]
    split
    · obtain ⟨rx, ry, args, mirrors, mirrors'⟩ := forall₂_two mirrored
      rw [if_pos binary]
      exact stands.binary final plain.words mirrors mirrors' names args binary ran
    · exact .of_kind rfl
  · next binary =>
    split at ran
    · next unary =>
      refine .of_makes final size plain fits stands (.unary operands) ran fun y m ran final => ?_
      rw [Eval.compute_eq_operate computes]
      unfold Eval.operate
      rw [if_pos unary]
      split
      · obtain ⟨rx, args, mirrors⟩ := forall₂_one mirrored
        exact stands.unary final plain.words mirrors args ran
      · exact .of_kind rfl
    · next unary =>
      have compares : i.op.isCompare = true := by
        rcases Ir.Op.kinds i.op with is | is | is | is
        · exact absurd is unary
        · exact absurd is binary
        · exact is
        · exact absurd is computes
      refine .of_makes final size plain fits stands (.compare operands) ran fun y m ran final => ?_
      rw [Eval.compute_eq_operate computes]
      unfold Eval.operate
      rw [if_neg unary]
      split
      · obtain ⟨rx, ry, args, mirrors, mirrors'⟩ := forall₂_two mirrored
        rw [if_neg binary]
        exact stands.compare final plain.words mirrors mirrors' args compares ran
      · exact .of_kind rfl

/-- Copies, which are lowered to nothing. -/
theorem Delivers.copy (op : i.op = .copy) (ran : inst n k f i s = .ok ((), t)) :
    Delivers l out blocks mem s t a i.dest (Eval.compute globals i vs) := by
  rcases Eval.compute_copy globals vs op with refused | ⟨vx, rfl, computed⟩
  · exact .of_refused refused
  · obtain ⟨rx, args, mirrors⟩ := forall₂_one mirrored
    simp only [inst, op] at ran
    obtain ⟨x, born, holds, set⟩ := mirrors.arg (by rw [args]; rfl) ran
    refine .of_define final size plain fits (.refl stands.opens) set fun _ => ?_
    rw [computed]
    exact ⟨a, .refl stands, holds⟩

/-- Conversions, from the type that the operand has. -/
theorem Delivers.cast (op : i.op = .cast) (ran : inst n k f i s = .ok ((), t)) :
    Delivers l out blocks mem s t a i.dest (Eval.compute globals i vs) := by
  rcases Eval.compute_cast globals vs op with refused | ⟨vx, rfl, computed⟩
  · exact .of_refused refused
  · obtain ⟨rx, args, mirrors⟩ := forall₂_one mirrored
    obtain ⟨target, source⟩ := plain.casts op
    simp only [inst, op] at ran
    refine .of_makes final size plain fits stands (.cast fun _ _ x _ => x.born_true) ran
      fun y m ran final => ?_
    rw [computed]
    refine stands.cast final plain.words mirrors args (source.imp id fun own => ?_) target ran
    exact Option.some.inj ((own rx (by rw [args]; exact .head _)).symm.trans mirrors.type)

/-- Choices, which are not between values of type void. -/
theorem Delivers.select (op : i.op = .select) (ran : inst n k f i s = .ok ((), t)) :
    Delivers l out blocks mem s t a i.dest (Eval.compute globals i vs) := by
  rcases Eval.compute_select globals vs op with refused | ⟨vz, vx, vy, rfl, computed⟩
  · exact .of_refused refused
  rcases Eval.select_cases with refused | ⟨boolean, same, chosen⟩
  · exact .of_refused (computed ▸ refused)
  obtain ⟨rz, rx, ry, args, mirrors, mirrors', mirrors''⟩ := forall₂_three mirrored
  simp only [inst, op] at ran
  obtain ⟨z, _, holds, ran⟩ := mirrors.arg (by rw [args]; rfl) ran
  obtain ⟨x, _, holds', ran⟩ := mirrors'.arg (by rw [args]; rfl) ran
  obtain ⟨y, _, holds'', ran⟩ := mirrors''.arg (by rw [args]; rfl) ran
  refine .of_makes final size plain fits stands (.emit (by simp)) ran fun v m ran final => ?_
  rw [computed, chosen]
  have type : (if vz.toBool then vx else vy).ty = vx.ty := by
    split
    · rfl
    · exact same
  have some : vx.ty ≠ .void := fun nothing =>
    plain.selects op ((fits _ (computed.trans chosen)).trans (by rw [type, nothing]))
  have word := Ir.Ty.isIntLike_of_plain (plain.words _ _ mirrors'.type) some
  have chooses : a.operand? z = Option.some (.ofBool vz.toBool) := by
    rw [holds (by rw [boolean]; decide), word_of_bool mirrors.normal boolean]
  obtain ⟨a', computes⟩ := stands.emit out mem ran final
    (Activation.value?_select chooses (holds'.of_ty rfl word) (holds''.of_ty same word))
  refine ⟨a', computes.toAdvances, fun _ => computes.value.trans (congrArg Option.some ?_)⟩
  cases vz.toBool with
  | true => rfl
  | false =>
    show (⟨vx.ty.width, vy.low vx.ty.width⟩ : Word) = ⟨vy.ty.width, vy.low vy.ty.width⟩
    rw [same]

omit size plain fits mirrored in
/-- The panic, which calls the runtime and never comes back. -/
theorem Delivers.panic (op : i.op = .panic) (ran : inst n k f i s = .ok ((), t)) :
    Delivers l out blocks mem s t a i.dest (Eval.compute globals i vs) := by
  have computed : Eval.compute globals i vs = .error (.panicked i.message) := by simp [Eval.compute, op]
  simp only [inst, op] at ran
  obtain ⟨_, _, got, ran⟩ := run_bind.mp ran
  cases got
  obtain ⟨_, s₁, trapped, ran⟩ := run_bind.mp ran
  obtain ⟨⟨n, name⟩, s₂, made, ran⟩ := run_bind.mp ran
  cases ran
  obtain ⟨adds, _⟩ := State.Adds.newAux made
  have final₂ : s₂.Final l blocks := ⟨final.blocks, final.functions, final.globals⟩
  have final₁ := final₂.extends adds.toExtends
  rw [computed]
  exact ⟨zeroOf .bool, fun _ callers o => ⟨a, .refl _, stands.trap trapped final₁ callers o⟩,
    fun w made => by cases made⟩

/-- Constants, loads, copies, conversions and choices; and the panic, which never comes to an end. -/
theorem Delivers.of_plain (computes : i.op ∈ Ir.Op.plain) (calls : i.op ≠ .call)
    (stores : i.op ≠ .storeGlobal) (loads : i.op = .loadGlobal → f.regType? i.dest = some i.ty)
    (ran : inst n k f i s = .ok ((), t)) :
    Delivers l out blocks (memory globals) s t a i.dest (Eval.compute globals i vs) := by
  simp only [Ir.Op.plain, List.mem_cons, List.not_mem_nil, or_false] at computes
  rcases computes with op | op | op | op | op | op | op | op | op
  · exact .constant final size plain fits stands op ran
  · exact absurd op plain.defined
  · exact .load final size plain fits stands op (loads op) ran
  · exact .copy final size plain fits stands mirrored op ran
  · exact .cast final size plain fits stands mirrored op ran
  · exact .select final size plain fits stands mirrored op ran
  · exact absurd op calls
  · exact absurd op stores
  · exact .panic final stands op ran

/-- Instructions that only read the frame and the globals. -/
theorem Delivers.of_inst (names : (blocks.map (·.name)).Nodup) (calls : i.op ≠ .call)
    (stores : i.op ≠ .storeGlobal) (loads : i.op = .loadGlobal → f.regType? i.dest = some i.ty)
    (ran : inst n k f i s = .ok ((), t)) :
    Delivers l out blocks (memory globals) s t a i.dest (Eval.compute globals i vs) := by
  by_cases computes : i.op ∈ Ir.Op.plain
  · exact .of_plain final size plain fits stands mirrored computes calls stores loads ran
  · exact .of_operate final size plain fits stands mirrored names computes ran

end Delivers

end

end TieredEngine.Ship.Lowering
