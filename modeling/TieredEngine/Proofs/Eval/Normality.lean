import TieredEngine.Proofs.Eval.Congruence
import TieredEngine.Proofs.Ir.NormalForm

/-!
Evaluation keeps values in normal form: what an operation computes is brought to normal form, and
the other instructions pass on a value that was there before. So any property that holds of values
in normal form is kept, that of integer words to be in normal form among them.
-/
namespace TieredEngine.Eval
open TieredEngine.Ir

/-- An integer word is in normal form. -/
def NormalWord (v : Value) : Prop := v.ty.isFloat = false → v.Normal

instance (v : Value) : Decidable (NormalWord v) :=
  inferInstanceAs (Decidable (v.ty.isFloat = false → v.Normal))

theorem normal_intToFloat (t : Ty) (x : Value) : (intToFloat t x).Normal := by
  cases t with
  | f32 => exact Value.normal_single _
  | _ => rfl

theorem normal_binary {op : Op} {t : Ty} {x y v : Value} (computed : binary op t x y = .ok v) :
    v.Normal := by
  unfold binary at computed
  split at computed
  · cases computed
  · split at computed
    · split at computed
      · cases computed
      · cases computed
        exact Value.normal_ofDatum _ _
    · split at computed
      · cases computed
      · -- every integer result is brought to normal form last
        have made : ∃ w, v = Value.ofBits t w := by
          cases op <;> simp only [reduceCtorEq] at computed
          all_goals first
            | (cases computed; exact ⟨_, rfl⟩)
            | (split at computed <;> first
                | (cases computed; done)
                | (cases computed; exact ⟨_, rfl⟩)
                | (split at computed <;> cases computed <;> exact ⟨_, rfl⟩))
        obtain ⟨w, rfl⟩ := made
        exact Value.normal_ofBits t w

theorem normal_unary {op : Op} {t : Ty} {x v : Value} (computed : unary op t x = .ok v) :
    v.Normal := by
  unfold unary at computed
  split at computed
  · cases computed
  · split at computed
    · split at computed
      · cases computed
      · cases computed
        exact Value.normal_ofBits _ _
    · split at computed
      · cases computed
        exact Value.normal_ofBool _
      · split at computed
        · cases computed
        · cases computed
          exact Value.normal_ofBits _ _
    · split at computed
      · cases computed
      · cases computed
        exact Value.normal_ofDatum _ _
    · cases computed

theorem normal_compare {op : Op} {x y v : Value} (computed : compare op x y = .ok v) :
    v.Normal := by
  have boolean : ∃ b, v = Value.ofBool b := by
    unfold compare at computed
    by_cases types : y.ty = x.ty
    · by_cases float : op.isFloat = true
      · by_cases word : x.ty.isFloat = true
        · simp only [types, float, word, ne_eq, not_true, if_false, if_true, Bool.not_true,
            Bool.false_eq_true, Except.ok.injEq] at computed
          exact ⟨_, computed.symm⟩
        · simp [types, float, word] at computed
      · by_cases word : x.ty.isIntLike = true
        · simp only [types, float, word, ne_eq, not_true, if_false, Bool.not_true,
            Bool.false_eq_true] at computed
          cases op <;> cases computed <;> exact ⟨_, rfl⟩
        · simp [types, float, word] at computed
    · simp [types] at computed
  obtain ⟨b, rfl⟩ := boolean
  exact Value.normal_ofBool b

theorem normal_floatToInt (t : Ty) (d : Number.Datum) : (floatToInt t d).Normal := by
  unfold floatToInt
  cases d with
  | notANumber => exact Value.normal_zero t
  | infinite negative => exact Value.normal_ofBits t _
  | finite => exact Value.normal_ofBits t _

theorem normal_cast {t : Ty} {x v : Value} (computed : Eval.cast t x = .ok v) : v.Normal := by
  unfold Eval.cast at computed
  by_cases void : t = .void ∨ x.ty = .void
  · simp [void] at computed
  · simp only [void, if_false] at computed
    split at computed
    · split at computed <;> cases computed <;> exact Value.normal_ofBool _
    · split at computed
      · split at computed
        · cases computed
          exact Value.normal_ofBits _ _
        · cases computed
          exact normal_intToFloat _ _
      · split at computed
        · cases computed
          exact Value.normal_ofDatum _ _
        · cases computed
          exact normal_floatToInt _ _

theorem normal_operate {op : Op} {t : Ty} {vs : List Value} {v : Value}
    (computed : operate op t vs = .ok v) : v.Normal := by
  unfold operate at computed
  split at computed
  · split at computed
    · exact normal_unary computed
    · cases computed
  · split at computed
    · split at computed
      · exact normal_binary computed
      · exact normal_compare computed
    · cases computed

/-- A property of values in normal form is kept by whatever is computed. -/
theorem closed_of_normal {P : Value → Prop} (normal : ∀ v, v.Normal → P v) : Closed P where
  void := normal _ (by decide)
  compute := by
    intro globals i vs v shared held const computed
    unfold compute at computed
    split at computed
    · next op =>
      cases computed
      exact const op
    · cases computed
      exact normal _ (Value.normal_zero _)
    · split at computed
      · next there =>
        cases computed
        exact shared v (Array.mem_of_getElem? there)
      · cases computed
    · cases computed
    · cases computed
      exact held v (List.mem_singleton_self v)
    · cases computed
    · exact normal v (normal_cast computed)
    · cases computed
    · next c a b _ =>
      unfold select at computed
      split at computed
      · cases computed
      · cases computed
        split
        · exact held a (by simp)
        · exact held b (by simp)
    · cases computed
    · exact normal v (normal_operate computed)

theorem closed_normal : Closed Value.Normal := closed_of_normal fun _ => id

theorem closed_normalWord : Closed NormalWord := closed_of_normal fun _ normal _ => normal

end TieredEngine.Eval
