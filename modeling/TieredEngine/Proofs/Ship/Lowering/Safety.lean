import TieredEngine.Proofs.Ir.Translatable
import TieredEngine.Proofs.Ship.Lowering.Tables

/-!
What lowering an instruction can crash on. The tables of the module are kept
throughout. An instruction without the operands that its operation reads is out of range of them; where
instructions can be translated, every register holds a value of its type, and every operation is built on
operands of the types it takes.
-/
namespace TieredEngine.Ship.Lowering
open TieredEngine TieredEngine.Llvm

/-- The value has the type that stands for a type, if one does. -/
def OfType (t : Ir.Ty) (v : Val) : Prop := ∀ u, valueType? t = some u → v.ty = u

theorem valueType?_word {t : Ir.Ty} (word : t.isIntLike = true) : valueType? t = some (.int t.width) := by
  cases t <;> first | rfl | cases word

theorem word_of {t : Ir.Ty} (some : t ≠ .void) (whole : t.isFloat = false) : t.isIntLike = true := by
  cases t <;> first | exact absurd rfl some | rfl | cases whole

/-- The width and the kind of a type say what stands for it. -/
theorem valueType?_of_width {t u : Ir.Ty} (kind : t.isFloat = u.isFloat) (some : t ≠ .void)
    (some' : u ≠ .void) (width : t.width = u.width) : valueType? t = valueType? u := by
  revert kind some some' width
  cases t <;> cases u <;> decide

theorem intWidth_word {t : Ir.Ty} (word : t.isIntLike = true) : intWidth t = t.width := by
  cases t <;> first | rfl | cases word

theorem intConst_ty (t : Ir.Ty) (bits : UInt64) : (intConst t bits).ty = .int (intWidth t) := by
  cases t <;> rfl

/-- Words of a type written as constants have it. -/
theorem ofType_intConst {t : Ir.Ty} (word : t.isIntLike = true) (bits : UInt64) :
    OfType t (.const (intConst t bits)) := by
  intro u known
  cases (valueType?_word word).symm.trans known
  exact (intConst_ty t bits).trans (by rw [intWidth_word word])

theorem constFor?_ty {v : Ir.Value} {c : Const} (made : constFor? v = some c) :
    valueType? v.ty = some c.ty := by
  unfold constFor? at made
  split at made
  · cases made
  · next float =>
    cases made
    rw [float]
    rfl
  · next double =>
    cases made
    rw [double]
    rfl
  · next proper single double =>
    cases made
    rw [intConst_ty]
    generalize v.ty = t at *
    cases t <;> first | rfl | exact absurd rfl proper | exact absurd rfl single | exact absurd rfl double

theorem ofType_of_eq {t : Ir.Ty} {v : Val} (stands : valueType? t = some v.ty) : OfType t v := by
  intro u known
  exact Option.some.inj (stands.symm.trans known)

namespace OfType

variable {t : Ir.Ty} {v : Val}

theorem word (typed : OfType t v) (word : t.isIntLike = true) : v.ty = .int t.width :=
  typed _ (valueType?_word word)

theorem isInt (typed : OfType t v) (word : t.isIntLike = true) : v.ty.isInt = true := by
  rw [typed.word word]
  rfl

theorem isFloat (typed : OfType t v) (float : t.isFloat = true) : v.ty.isFloat = true := by
  cases t <;> first | (rw [typed _ rfl]; rfl) | cases float

theorem of_eq {x : Val} (typed : OfType t v) (same : x.ty = v.ty) : OfType t x :=
  fun u known => same.trans (typed u known)

end OfType

/-- The tables are kept, and if no operation may be built on wrong operands, registers hold values of
their types. -/
structure Sound (may : Crash → Prop) (m : Ir.Module) (o : LowerOptions) (f : Ir.Function) (s : State) :
    Prop extends Tables m o s where
  values : ¬ may .illTyped → ∀ (r : Ir.Reg) v, (s.values[r.num]?).join = some v →
    OfType (regType f r) v

variable {may : Crash → Prop} {m : Ir.Module} {o : LowerOptions} {f : Ir.Function}

/-- Blocks are not looked at. -/
theorem Sound.blocks {s : State} (sound : Sound may m o f s) (blocks : Array Llvm.Block)
    (nextId current aux : Nat) : Sound may m o f { s with nextId, blocks, current, aux } :=
  ⟨⟨sound.globals, sound.functions, sound.declared⟩, sound.values⟩

section Parts

theorem emitTo_keeps (block : Nat) (op : Operation) :
    Keeps may (Sound may m o f) (emitTo block op) fun v => v.ty = op.ty :=
  .bind_get fun _ sound => Ends.bind (Ends.of_set (Q := fun _ => Sound may m o f)
    fun _ _ => sound.blocks _ _ _ _) fun _ => .pure fun _ sound => ⟨sound, rfl⟩

theorem emit_keeps (op : Operation) : Keeps may (Sound may m o f) (emit op) fun v => v.ty = op.ty :=
  .bind_get fun _ _ => emitTo_keeps _ op

theorem terminate_keeps (block : Nat) (t : Llvm.Term) :
    Keeps may (Sound may m o f) (terminate block t) fun _ => True :=
  .of_modify fun _ sound => sound.blocks _ _ _ _

theorem newBlock_keeps (name : BlockName) :
    Keeps may (Sound may m o f) (newBlock name) fun _ => True :=
  .bind_get fun _ sound => Ends.bind (Ends.of_set (Q := fun _ => Sound may m o f)
    fun _ _ => sound.blocks _ _ _ _) fun _ => .pure fun _ sound => ⟨sound, trivial⟩

theorem newAux_keeps (kind : String) :
    Keeps may (Sound may m o f) (newAux kind) fun _ => True :=
  (Keeps.of_modify fun _ sound => sound.blocks _ _ _ _).bind fun _ _ =>
    Keeps.bind_get fun _ _ => (newBlock_keeps _).bind fun _ _ => Keeps.pure trivial

/-- A register whose type is known is read. -/
theorem use_keeps (r : Ir.Reg) : Keeps may (Sound may m o f) (use r (regType f r)) fun v =>
    ¬ may .illTyped → OfType (regType f r) v := by
  refine .bind_get fun s sound => ?_
  split
  · next v held => exact Keeps.pure fun strict => sound.values strict r v held
  · exact Keeps.pure fun _ u known => by rw [known]; rfl

/-- A register is read for whatever it holds. -/
theorem use_any (r : Ir.Reg) (t : Ir.Ty) :
    Keeps may (Sound may m o f) (use r t) fun _ => True := by
  refine .bind_get fun s sound => ?_
  split <;> exact Keeps.pure trivial

theorem define_keeps {r : Ir.Reg} {v : Val} (fits : ¬ may .illTyped → OfType (regType f r) v) :
    Keeps may (Sound may m o f) (define r v) fun _ => True := by
  refine Ends.ite (fun _ => Keeps.pure trivial) fun _ => Keeps.of_modify fun s sound => ?_
  refine ⟨⟨sound.globals, sound.functions, sound.declared⟩, fun strict r' v' held => ?_⟩
  dsimp only at held
  rw [Array.getElem?_setIfInBounds] at held
  split at held
  · next same =>
    obtain rfl := Ir.Reg.num_inj.mp same
    split at held
    · cases held
      exact fits strict
    · cases held
  · exact sound.values strict r' v' held

/-- A value that is made for a register is put into it. -/
theorem define_made {x : Lower Val} {r : Ir.Reg} (made : Keeps may (Sound may m o f) x fun v =>
    ¬ may .illTyped → OfType (regType f r) v) :
    Keeps may (Sound may m o f) (x >>= define r) fun _ => True :=
  made.bind fun _ fits => define_keeps fits

theorem orFail_keeps {α : Type} (c : LowerCause) (a? : Option α) :
    Keeps may (Sound may m o f) (orFail c a?) fun a => a? = some a := by
  cases a? with
  | none => exact Ends.error c
  | some a => exact Keeps.pure rfl

theorem declare_ends {name : String} {ret : Llvm.Ty} (param : Llvm.Ty)
    (listed : (name, ret) ∈ runtime) :
    Ends may (Sound may m o f) (declare name ret param) fun i t =>
      Sound may m o f t ∧ ∃ g, t.functions[i]? = some g ∧ g.name = name := by
  refine .bind_get fun s sound => ?_
  cases known : s.declared.find? (·.1 == name) with
  | some p =>
    refine Ends.pure ?_
    rintro _ rfl
    exact ⟨sound, sound.found known⟩
  | none =>
    refine Ends.bind (Ends.of_set (Q := fun _ t => Sound may m o f t ∧
      ∃ g, t.functions[s.functions.size]? = some g ∧ g.name = name) fun _ _ => ⟨⟨?_, sound.values⟩, ?_⟩)
      fun _ => .pure fun _ => id
    · exact sound.declare listed known { name, ret, params := [param], namedParams := false } rfl rfl
    · exact ⟨{ name, ret, params := [param], namedParams := false }, Array.getElem?_push_size, rfl⟩

theorem textAddress_ends (text : String) (P : Array Llvm.Func → Prop) :
    Ends may (fun s => Sound may m o f s ∧ P s.functions) (textAddress text) fun _ t =>
      Sound may m o f t ∧ P t.functions := by
  refine .bind_get fun s holds => ?_
  cases known : s.texts.find? (·.1 == text) with
  | some p => exact Ends.pure fun _ same => same ▸ holds
  | none =>
    refine Ends.bind (Ends.of_set (Q := fun _ t => Sound may m o f t ∧ P t.functions)
      fun _ _ => ⟨⟨?_, holds.1.values⟩, holds.2⟩) fun _ => .pure fun _ => id
    exact holds.1.text text _ _

/-- A call gives what the function that is called returns. -/
theorem emitCall_ends (block callee : Nat) (args : List Val) {P : State → Prop} {R : Val → Prop}
    (there : ∀ s, P s → Sound may m o f s ∧
      ∃ g, s.functions[callee]? = some g ∧ ∀ v : Val, v.ty = g.ret → R v) :
    Ends may P (emitCall block callee args) fun v t => Sound may m o f t ∧ R v := by
  refine .bind_get fun s before => ?_
  obtain ⟨sound, g, known, gives⟩ := there s before
  rw [known]
  exact Ends.mono (emitTo_keeps block _) (fun _ same => same ▸ sound) fun v _ => .imp_right (gives v)

theorem trap_keeps (block : Nat) (message : String) :
    Keeps may (Sound may m o f) (trap block message) fun _ => True := by
  refine Ends.bind (declare_ends .text List.mem_cons_self) fun callee =>
    Ends.bind (textAddress_ends message fun fs => ∃ g, fs[callee]? = some g ∧ g.name = panicSymbol)
      fun text => Ends.bind (Q := fun _ t => Sound may m o f t ∧ True)
        (emitCall_ends block callee _ ?_) fun v => ?_
  · exact fun s ⟨sound, g, known, _⟩ => ⟨sound, g, known, fun _ _ => trivial⟩
  · exact Ends.mono (terminate_keeps block .unreachable) (fun _ => And.left) fun _ _ => id

theorem icmp_keeps (p : IntPred) {x : Val} (y : Val) (int : ¬ may .illTyped → x.ty.isInt = true) :
    Keeps may (Sound may m o f) (icmp p x y) fun v => v.ty = .int 1 :=
  Ends.ite (fun _ => emit_keeps _) fun other => .crash (by_contra fun strict => other (int strict))

theorem fcmp_keeps (p : FloatPred) {x : Val} (y : Val) (float : ¬ may .illTyped → x.ty.isFloat = true) :
    Keeps may (Sound may m o f) (fcmp p x y) fun v => v.ty = .int 1 :=
  Ends.ite (fun _ => emit_keeps _) fun other => .crash (by_contra fun strict => other (float strict))

theorem resize_keeps (op : CastOp) {x : Val} (width : Nat)
    (fits : ¬ may .illTyped → ∃ w, x.ty = .int w ∧ if op = .trunc then width ≤ w else w ≤ width) :
    Keeps may (Sound may m o f) (resize op x width) fun v => v.ty = .int width := by
  unfold resize
  split
  · next w known =>
    refine Ends.ite (fun _ => emit_keeps _) fun other => .crash (by_contra fun strict => other ?_)
    obtain ⟨w', known', sized⟩ := fits strict
    cases known.symm.trans known'
    exact sized
  · next other =>
    refine .crash (by_contra fun strict => ?_)
    obtain ⟨w, known, _⟩ := fits strict
    exact other w known

end Parts

section Instructions

variable {i : Ir.Inst}

theorem argReg_keeps {n : Nat} (supplied : ¬ may .outOfRange → n < i.args.length) :
    Keeps may (Sound may m o f) (argReg i n) fun r => i.args[n]? = some r := by
  unfold argReg
  split
  · next r there => exact Keeps.pure there
  · next missing =>
    refine .crash (by_contra fun strict => ?_)
    exact absurd (supplied strict) (Nat.not_lt.mpr (List.getElem?_eq_none_iff.mp missing))

theorem types_at {rs : List Ir.Reg} {types : List Ir.Ty} (known : f.Types rs types) {n : Nat}
    {r : Ir.Reg} {t : Ir.Ty} (at_r : rs[n]? = some r) (at_t : types[n]? = some t) : regType f r = t := by
  obtain ⟨bound, rfl⟩ := List.getElem?_eq_some_iff.mp at_r
  obtain ⟨bound', rfl⟩ := List.getElem?_eq_some_iff.mp at_t
  have typed : f.regType? rs[n] = some types[n] := known.get bound bound'
  rw [regType, typed, Option.getD_some]

theorem arg_keeps {n : Nat} (supplied : ¬ may .outOfRange → n < i.args.length) :
    Keeps may (Sound may m o f) (arg f i n) fun v => ¬ may .illTyped →
      ∀ types, f.Types i.args types → ∀ t, types[n]? = some t → OfType t v :=
  (argReg_keeps supplied).bind fun r there => (use_keeps r).mono fun _ typed strict _ known _ at_t =>
    types_at known there at_t ▸ typed strict

/-- A quotient or remainder of words is one, whichever way it is computed. -/
theorem divide_keeps (op : Ir.Op) {t : Ir.Ty} {x y : Val}
    (fits : ¬ may .illTyped → t.isIntLike = true ∧ OfType t x ∧ OfType t y) :
    Keeps may (Sound may m o f) (divide op t x y) fun v => ¬ may .illTyped → OfType t v := by
  have int : ¬ may .illTyped → y.ty.isInt = true := fun strict =>
    (fits strict).2.2.isInt (fits strict).1
  have zero : ¬ may .illTyped → OfType t (zeroOf t) := fun strict => ofType_intConst (fits strict).1 0
  unfold divide
  refine (icmp_keeps _ _ int).bind fun isZero _ => Keeps.bind_get fun s _ => ?_
  refine (newAux_keeps _).bind fun (trapBlock, trapName) _ => ?_
  refine (newAux_keeps _).bind fun (restBlock, restName) _ => ?_
  refine (terminate_keeps _ _).bind fun _ _ => (trap_keeps _ _).bind fun _ _ => ?_
  refine (Keeps.of_modify fun _ sound => sound.blocks _ _ _ _).bind fun _ _ => ?_
  refine Ends.ite (fun _ => ?unsigned) fun _ => (icmp_keeps _ _ int).bind fun isMinusOne _ =>
    (emit_keeps _).bind fun safe _ => Ends.ite (fun _ => ?quotient) fun _ => ?remainder
  case unsigned =>
    exact (emit_keeps _).mono fun v same strict => (fits strict).2.1.of_eq same
  case quotient =>
    refine (emit_keeps _).bind fun q _ => (emit_keeps _).bind fun negated like => ?_
    exact (emit_keeps _).mono fun v same strict => (zero strict).of_eq (same.trans like)
  case remainder =>
    refine (emit_keeps _).bind fun r _ => ?_
    exact (emit_keeps _).mono fun v same strict => (zero strict).of_eq same

/-- A value of a type that is not void is compared with zero. -/
theorem toBool_keeps {t : Ir.Ty} {x : Val} (some : t ≠ .void) (typed : ¬ may .illTyped → OfType t x)
    (zero : Val) : Keeps may (Sound may m o f)
      (if t.isFloat then fcmp .une x zero else icmp .ne x (zeroOf t)) fun v =>
        ¬ may .illTyped → OfType .bool v := by
  have bit : ∀ v : Val, v.ty = .int 1 → ¬ may .illTyped → OfType .bool v := by
    intro v bit _ u known
    cases known
    exact bit
  exact Ends.ite (fun float => (fcmp_keeps _ _ fun strict => (typed strict).isFloat float).mono bit)
    fun word => (icmp_keeps _ _ fun strict =>
      (typed strict).isInt (word_of some (by simpa using word))).mono bit

/-- A word is brought to another width, or stays. -/
theorem toWidth_keeps {t source : Ir.Ty} {x : Val} (word : t.isIntLike = true)
    (word' : source.isIntLike = true) (typed : ¬ may .illTyped → OfType source x) :
    Keeps may (Sound may m o f) (do
      if t.width < source.width then resize .trunc x t.width
      else if source.width < t.width then resize (if source.isSigned then .sext else .zext) x t.width
      else return x) fun v => ¬ may .illTyped → OfType t v := by
  have sized : ∀ v : Val, v.ty = .int t.width → ¬ may .illTyped → OfType t v := by
    intro v type _ u known
    cases (valueType?_word word).symm.trans known
    exact type
  have wide : ¬ may .illTyped → x.ty = .int source.width := fun strict => (typed strict).word word'
  refine Ends.ite (fun narrower => (resize_keeps _ _ fun strict => ⟨_, wide strict, ?_⟩).mono sized)
    fun notNarrower => Ends.ite
      (fun wider => (resize_keeps _ _ fun strict => ⟨_, wide strict, ?_⟩).mono sized)
      fun notWider => Keeps.pure fun strict => sized x ?_ strict
  · rw [if_pos rfl]
    exact narrower.le
  · rw [if_neg (by split <;> simp)]
    exact wider.le
  · rw [wide strict, Nat.le_antisymm (Nat.le_of_not_lt notNarrower) (Nat.le_of_not_lt notWider)]

/-- A number in floating point is converted to a word by a function of the runtime. -/
theorem toWord_keeps
    (honest : ¬ may .illTyped → ∀ e ∈ o.functionsOf m, ∀ t, (e.1, t) ∈ conversions → e.2 = t)
    {t source : Ir.Ty} (word : t.isIntLike = true) (wide : t ≠ .bool) (float : source.isFloat = true)
    (param : Llvm.Ty) (x : Val) : Keeps may (Sound may m o f) (do
      let callee ← declare (conversionName t source) (.int (intWidth t)) param
      emitCall (← get).current callee [x]) fun v => ¬ may .illTyped → OfType t v := by
  have listed := mem_conversions word wide float
  refine Ends.bind (declare_ends _ (List.mem_cons_of_mem _ listed)) fun callee => ?_
  refine Ends.bind_get fun s holds => ?_
  obtain ⟨sound, g, there, named⟩ := holds
  refine emitCall_ends _ callee [x] fun _ same => ⟨same ▸ sound, g, same ▸ there,
    fun v type strict u known => ?_⟩
  cases (valueType?_word word).symm.trans known
  rw [type, ← intWidth_word word]
  exact sound.conversion_ret there (named.symm ▸ listed) (honest strict)

theorem regType_of {r : Ir.Reg} {t : Ir.Ty} (known : f.regType? r = some t) : regType f r = t := by
  rw [regType, known, Option.getD_some]

variable (supplied : ¬ may .outOfRange → i.Supplied) (fits : ¬ may .illTyped → i.Translatable m f)
include supplied fits

theorem binary_keeps (kind : i.op.isBinary = true) :
    Keeps may (Sound may m o f) (binary f i) fun v =>
      ¬ may .illTyped → OfType (regType f i.dest) v := by
  have two : ¬ may .outOfRange → 2 ≤ i.args.length := fun strict => by
    simpa [Ir.Inst.Supplied, Ir.Typing.arity?_binary kind] using supplied strict
  refine (arg_keeps fun strict => by have := two strict; omega).bind fun x left => ?_
  refine (arg_keeps fun strict => by have := two strict; omega).bind fun y right => ?_
  have operands : ¬ may .illTyped → OfType i.ty x ∧ OfType i.ty y ∧ regType f i.dest = i.ty := by
    intro strict
    obtain ⟨types, known, takes, -⟩ := fits strict
    obtain ⟨rfl, dest⟩ := takes.of_binary kind
    exact ⟨left strict _ known _ rfl, right strict _ known _ rfl, regType_of dest⟩
  have word : i.op = .div ∨ i.op = .rem → ¬ may .illTyped → i.ty.isIntLike = true := by
    intro op strict
    obtain ⟨types, -, takes, suits⟩ := fits strict
    obtain ⟨rfl, -⟩ := takes.of_binary kind
    rcases op with op | op <;> simpa [Ir.Inst.Suits, op] using suits
  have plain : ∀ {op z}, Keeps may (Sound may m o f) (emit (.binary op x z)) fun v =>
      ¬ may .illTyped → OfType (regType f i.dest) v := fun {op z} =>
    (emit_keeps _).mono fun v same strict => by
      obtain ⟨typed, -, dest⟩ := operands strict
      exact dest ▸ typed.of_eq same
  have counted : ∀ op, Keeps may (Sound may m o f) (do
      let count ← emit (.binary .and y (.const (intConst i.ty (UInt64.ofNat i.ty.width - 1))))
      emit (.binary op x count)) fun v => ¬ may .illTyped → OfType (regType f i.dest) v := fun op =>
    (emit_keeps _).bind fun _ _ => plain
  dsimp only
  split
  case h_14 =>
    have divides : i.op = .div ∨ i.op = .rem := by
      cases op : i.op <;> simp_all [Ir.Op.isBinary]
    refine (divide_keeps _ fun strict => ?_).mono fun v typed strict => ?_
    · obtain ⟨left, right, -⟩ := operands strict
      exact ⟨word divides strict, left, right⟩
    · exact (operands strict).2.2 ▸ typed strict
  all_goals first | exact plain | exact counted _

theorem unary_keeps (kind : i.op.isUnary = true) :
    Keeps may (Sound may m o f) (unary f i) fun v =>
      ¬ may .illTyped → OfType (regType f i.dest) v := by
  refine (arg_keeps fun strict => ?_).bind fun x operand => ?_
  · simpa [Ir.Inst.Supplied, Ir.Typing.arity?_unary kind, Nat.succ_le_iff] using supplied strict
  have known : ¬ may .illTyped → OfType i.ty x ∧ regType f i.dest = i.ty ∧
      (i.op = .neg → i.ty.isIntLike = true) := by
    intro strict
    obtain ⟨types, known, takes, suits⟩ := fits strict
    obtain ⟨rfl, dest⟩ := takes.of_unary kind
    exact ⟨operand strict _ known _ rfl, regType_of dest, fun op => by simpa [Ir.Inst.Suits, op] using suits⟩
  have emits : ∀ op : Operation, (¬ may .illTyped → OfType i.ty x → ∀ u, valueType? i.ty = some u →
      op.ty = u) → Keeps may (Sound may m o f) (emit op) fun v =>
        ¬ may .illTyped → OfType (regType f i.dest) v := fun op typed =>
    (emit_keeps op).mono fun v same strict => by
      obtain ⟨operand, dest, -⟩ := known strict
      rw [dest]
      exact fun u known => same.trans (typed strict operand u known)
  dsimp only
  split
  · next op =>
    exact emits _ fun strict _ => ofType_intConst ((known strict).2.2 op) 0
  · exact emits _ fun _ operand => operand
  · exact emits _ fun _ operand => operand

theorem compare_keeps (kind : i.op.isCompare = true) :
    Keeps may (Sound may m o f) (compare f i) fun v =>
      ¬ may .illTyped → OfType (regType f i.dest) v := by
  have two : ¬ may .outOfRange → 2 ≤ i.args.length := fun strict => by
    simpa [Ir.Inst.Supplied, Ir.Typing.arity?_compare kind] using supplied strict
  have one : ¬ may .outOfRange → 0 < i.args.length := fun strict => by
    have := two strict
    omega
  refine (argReg_keeps one).bind fun r _ => (arg_keeps one).bind fun x left => ?_
  refine (arg_keeps fun strict => two strict).bind fun y _ => ?_
  have result : ∀ v : Val, v.ty = .int 1 → ¬ may .illTyped → OfType (regType f i.dest) v := by
    intro v bit strict
    obtain ⟨types, known, takes, -⟩ := fits strict
    obtain ⟨a, rfl, dest⟩ := takes.of_compare kind
    rw [regType_of dest]
    intro u known
    cases known
    exact bit
  have operand : ¬ may .illTyped → ∃ a, OfType a x ∧
      if i.op.isFloat then a.isFloat = true else a.isIntLike = true := by
    intro strict
    obtain ⟨types, known, takes, suits⟩ := fits strict
    obtain ⟨a, rfl, -⟩ := takes.of_compare kind
    refine ⟨a, left strict _ known _ rfl, suits.of_compare kind⟩
  refine Ends.ite (fun float => (fcmp_keeps _ _ fun strict => ?_).mono result)
    fun word => (icmp_keeps _ _ fun strict => ?_).mono result
  · obtain ⟨a, typed, kind⟩ := operand strict
    rw [if_pos float] at kind
    exact typed.isFloat kind
  · obtain ⟨a, typed, kind⟩ := operand strict
    rw [if_neg word] at kind
    exact typed.isInt kind

omit supplied in
/-- What a cast goes from is the type of its operand, whether it names it or not. -/
theorem cast_source (kind : i.op = .cast) {r : Ir.Reg} (there : i.args[0]? = some r) {x : Val}
    (operand : ¬ may .illTyped → ∀ types, f.Types i.args types → ∀ t, types[0]? = some t → OfType t x)
    (strict : ¬ may .illTyped) :
    OfType (if i.source = .void then regType f r else i.source) x ∧ regType f i.dest = i.ty := by
  obtain ⟨types, known, takes, suits⟩ := fits strict
  obtain ⟨a, rfl, -, -, dest⟩ := takes.of_cast kind
  have type : regType f r = a := types_at known there rfl
  have same : (if i.source = .void then regType f r else i.source) = a := by
    split
    · exact type
    · next named =>
      have suits : i.source = .void ∨ i.source = a := by simpa [Ir.Inst.Suits, kind] using suits
      exact suits.resolve_left named
  exact ⟨same ▸ operand strict _ known _ rfl, regType_of dest⟩

variable (honest : ¬ may .illTyped → ∀ e ∈ o.functionsOf m, ∀ t, (e.1, t) ∈ conversions → e.2 = t)
include honest

theorem cast_keeps (kind : i.op = .cast) :
    Keeps may (Sound may m o f) (cast f i) fun v =>
      ¬ may .illTyped → OfType (regType f i.dest) v := by
  have one : ¬ may .outOfRange → 0 < i.args.length := fun strict => by
    simpa [Ir.Inst.Supplied, kind, Ir.Typing.arity?, Nat.succ_le_iff] using supplied strict
  refine (argReg_keeps one).bind fun r there => (arg_keeps one).bind fun x operand => ?_
  have known := cast_source fits kind there operand
  generalize (if i.source = .void then regType f r else i.source) = source at known
  have typed : ¬ may .illTyped → OfType source x := fun strict => (known strict).1
  refine Keeps.mono (R := fun v => ¬ may .illTyped → OfType i.ty v) ?_ fun v gives strict =>
    (known strict).2 ▸ gives strict
  have same : valueType? i.ty = valueType? source → ¬ may .illTyped → OfType i.ty x :=
    fun equal strict u type => typed strict u (equal ▸ type)
  have casts : ∀ op, Keeps may (Sound may m o f)
      (emit (.cast op x ((valueType? i.ty).getD .double))) fun v => ¬ may .illTyped → OfType i.ty v :=
    fun op => (emit_keeps _).mono fun v like _ u type => like.trans (by
      show (valueType? i.ty).getD .double = u
      rw [type, Option.getD_some])
  refine Ends.ite (fun _ => .error _) fun some => ?_
  obtain ⟨target_some, source_some⟩ : i.ty ≠ .void ∧ source ≠ .void := by simpa using some
  refine Ends.ite (fun toBool => ?toBool) fun other => Ends.ite
    (fun fromFloat => Ends.ite (fun toFloat => ?floats) fun toWord => ?toWord)
    fun fromWord => Ends.ite (fun _ => casts _) fun toWord => ?words
  case toBool =>
    refine Ends.ite (fun fromBool => Keeps.pure (same (by rw [toBool, fromBool]))) fun _ => ?_
    rw [toBool]
    exact toBool_keeps source_some typed _
  case floats =>
    refine Ends.ite (fun _ => casts _) fun notWider => Ends.ite (fun _ => casts _) fun notNarrower =>
      Keeps.pure (same ?_)
    exact valueType?_of_width (toFloat.trans fromFloat.symm) target_some source_some (by omega)
  case toWord =>
    exact toWord_keeps honest (word_of target_some (by simpa using toWord)) other fromFloat _ x
  case words =>
    exact toWidth_keeps (word_of target_some (by simpa using toWord))
      (word_of source_some (by simpa using fromWord)) typed

variable (present : ∀ g? ∈ m.globals.toList, ∃ g, g? = some g ∧ g.ty ≠ .void)
include present

omit supplied honest present in
/-- A call of a function of the source gives what its signature says. -/
theorem call_keeps (kind : i.op = .call) {block : Nat} (inside : i.callee.num < m.functions.size)
    (args : List Val) :
    Keeps may (Sound may m o f) (emitCall block i.callee.num args) fun v =>
      ¬ may .illTyped → OfType (regType f i.dest) v := by
  have at_g : (o.functionsOf m)[i.callee.num]? = some (o.nameOf m.functions[i.callee.num],
      returnType m.functions[i.callee.num].sig.ret) := by
    simp [LowerOptions.functionsOf, inside]
  refine emitCall_ends block _ args fun s sound => ?_
  obtain ⟨g, there, ret⟩ := sound.function at_g
  refine ⟨sound, g, there, fun v type strict u known => ?_⟩
  obtain ⟨types, -, -, suits⟩ := fits strict
  have agrees : ∀ g t, m.function? i.callee = some g → f.regType? i.dest = some t →
      t = .void ∨ t = g.sig.ret := by simpa [Ir.Inst.Suits, kind] using suits
  cases dest : f.regType? i.dest with
  | none => simp [regType, dest, valueType?] at known
  | some t =>
    rw [regType_of dest] at known
    rcases agrees _ t (Array.getElem?_eq_getElem inside) dest with rfl | rfl
    · cases known
    · rw [type, ret, returnType, known, Option.getD_some]

omit supplied honest in
/-- The contents of a global have the type of the value that is stored. -/
theorem storeGlobal_keeps (kind : i.op = .storeGlobal) (inside : i.global.num < m.globals.size) {x : Val}
    (operand : ¬ may .illTyped → ∀ types, f.Types i.args types → ∀ t, types[0]? = some t → OfType t x) :
    Keeps may (Sound may m o f) (do
      match (← get).globals[i.global.num]? with
      | some g => if g.init.ty = x.ty then let _ ← emit (.store x i.global.num) else crash .illTyped
      | none => crash .outOfRange) fun _ => True := by
  refine Keeps.bind_get fun s sound => ?_
  obtain ⟨g, held, sized⟩ := present m.globals[i.global.num] (by simp)
  have at_g : (globalsOf m)[i.global.num]? = some (g.name, returnType g.ty) := by
    simp [globalsOf, inside, held]
  obtain ⟨l, there, type⟩ := sound.global at_g
  rw [there]
  refine Ends.ite (fun _ => (emit_keeps _).bind fun _ _ => Keeps.pure trivial) fun other =>
    .crash (by_contra fun strict => other ?_)
  obtain ⟨types, known, takes, suits⟩ := fits strict
  obtain ⟨a, rfl⟩ := List.length_eq_one_iff.mp (takes.length (n := 1) (by simp [kind, Ir.Typing.arity?]))
  have same : ∀ g, m.global? i.global = some g → a = g.ty := by simpa [Ir.Inst.Suits, kind] using suits
  obtain rfl := same g (by simp [Ir.Module.global?, inside, held])
  rw [type]
  exact (operand strict _ known _ rfl _ (by cases ty : g.ty <;> simp_all [returnType, valueType?])).symm

theorem inst_keeps :
    Keeps may (Sound may m o f) (inst m.functions.size m.globals.size f i) fun _ => True := by
  have operands : ∀ n, Ir.Typing.arity? i.op = some n → ∀ k < n,
      Keeps may (Sound may m o f) (arg f i k) fun v => ¬ may .illTyped →
        ∀ types, f.Types i.args types → ∀ t, types[k]? = some t → OfType t v := by
    intro n arity k below
    refine arg_keeps fun strict => ?_
    have enough := supplied strict
    rw [Ir.Inst.Supplied, arity, Option.getD_some] at enough
    omega
  unfold inst
  split
  case h_1 op =>
    refine (orFail_keeps _ _).bind fun c made => define_keeps fun strict => ?_
    obtain ⟨types, -, takes, -⟩ := fits strict
    rw [regType_of (takes.of_const op)]
    exact ofType_of_eq (constFor?_ty made)
  case h_2 op =>
    refine define_made ((operands 1 (by rw [op]; rfl) 0 (by omega)).mono fun v operand strict => ?_)
    obtain ⟨types, known, takes, -⟩ := fits strict
    obtain ⟨a, rfl, dest⟩ := takes.of_copy op
    exact regType_of dest ▸ operand strict _ known _ rfl
  case h_3 op => exact define_made (cast_keeps supplied fits honest op)
  case h_4 op =>
    have operand := fun k below => operands 3 (by rw [op]; rfl) k below
    refine (operand 0 (by omega)).bind fun c _ => (operand 1 (by omega)).bind fun x chosen =>
      (operand 2 (by omega)).bind fun y _ => define_made ((emit_keeps _).mono fun v same strict => ?_)
    obtain ⟨types, known, takes, -⟩ := fits strict
    obtain ⟨a, rfl, dest⟩ := takes.of_select op
    exact regType_of dest ▸ (chosen strict _ known _ rfl).of_eq same
  case h_5 op =>
    refine Ends.ite (fun _ => Ends.error_bind _) fun inside => ?_
    refine (Keeps.mapM fun r _ => use_keeps r).bind fun args _ => Keeps.bind_get fun s sound => ?_
    exact define_made (call_keeps fits op (by omega) args)
  case h_6 op =>
    refine Ends.ite (fun _ => Ends.error_bind _) fun _ => (orFail_keeps _ _).bind fun t known =>
      define_made ((emit_keeps _).mono fun v same strict => ?_)
    obtain ⟨types, -, takes, -⟩ := fits strict
    rw [regType_of (takes.of_typed (.inr op))]
    exact ofType_of_eq (known.trans (congrArg some same.symm))
  case h_7 op =>
    refine Ends.ite (fun _ => Ends.error_bind _) fun inside =>
      (operands 1 (by rw [op]; rfl) 0 (by omega)).bind fun x operand => ?_
    exact storeGlobal_keeps fits present op (by omega) operand
  case h_8 op =>
    refine (orFail_keeps _ _).bind fun t known => define_keeps fun strict => ?_
    obtain ⟨types, -, takes, -⟩ := fits strict
    rw [regType_of (takes.of_typed (.inl op))]
    exact ofType_of_eq known
  case h_9 op =>
    refine Keeps.bind_get fun s _ => (trap_keeps _ _).bind fun _ _ => (newAux_keeps _).bind fun _ _ => ?_
    exact Keeps.of_modify fun _ sound => sound.blocks _ _ _ _
  case h_10 =>
    refine Ends.ite (fun kind => define_made (binary_keeps supplied fits kind)) fun notBinary =>
      Ends.ite (fun kind => define_made (unary_keeps supplied fits kind)) fun notUnary =>
        define_made (compare_keeps supplied fits ?_)
    rcases Ir.Op.kinds i.op with unary | binary | compares | plain
    · exact absurd unary notUnary
    · exact absurd binary notBinary
    · exact compares
    · simp_all [Ir.Op.plain]

end Instructions

end TieredEngine.Ship.Lowering
