import TieredEngine.Proofs.Ir.Checked

/-!
The types that the typing check establishes. A function without typing errors has operands, results,
inputs of phis and returned values of the types that its registers declare. What the check does not
ask for is left open here too: an operation on integers may still be given registers of type void.
-/
namespace TieredEngine.Ir

/-- The operation takes operands of the types, and the register it writes has the type of the
result. -/
def Inst.Takes (f : Function) (i : Inst) (types : List Ty) : Prop :=
  match i.op, types with
  | .const, [] => f.regType? i.dest = some i.const.ty
  | .undef, [] | .loadGlobal, [] => f.regType? i.dest = some i.ty
  | .copy, [a] => f.regType? i.dest = some a
  | .cast, [a] => a ≠ .void ∧ i.ty ≠ .void ∧ f.regType? i.dest = some i.ty
  | .select, [c, a, b] => c = .bool ∧ a = b ∧ f.regType? i.dest = some a
  | .call, _ | .storeGlobal, [_] | .panic, [] => True
  | op, [a] => op.isUnary = true ∧ a = i.ty ∧ f.regType? i.dest = some i.ty
  | op, [a, b] =>
    if op.isBinary then a = i.ty ∧ b = i.ty ∧ f.regType? i.dest = some i.ty
    else op.isCompare = true ∧ a = b ∧ f.regType? i.dest = some .bool
  | _, _ => False

namespace Inst

variable {f : Function} {i : Inst} {a b : Ty}

theorem takes_unary (unary : i.op.isUnary = true) :
    i.Takes f [a] ↔ a = i.ty ∧ f.regType? i.dest = some i.ty := by
  unfold Takes
  split <;> simp_all [Op.isUnary]

theorem takes_binary (binary : i.op.isBinary = true) :
    i.Takes f [a, b] ↔ a = i.ty ∧ b = i.ty ∧ f.regType? i.dest = some i.ty := by
  unfold Takes
  split <;> simp_all [Op.isBinary]

theorem takes_compare (compares : i.op.isCompare = true) :
    i.Takes f [a, b] ↔ a = b ∧ f.regType? i.dest = some .bool := by
  have binary := (Op.other_of_compare compares).2
  unfold Takes
  split <;> simp_all [Op.isCompare]

theorem Takes.of_cast {types : List Ty} (takes : i.Takes f types) (op : i.op = .cast) :
    ∃ a, types = [a] ∧ a ≠ .void ∧ i.ty ≠ .void ∧ f.regType? i.dest = some i.ty := by
  unfold Takes at takes
  split at takes <;> simp_all [Op.isBinary, Op.isCompare]

end Inst

/-- The registers have the types. -/
def Function.Types (f : Function) (rs : List Reg) (types : List Ty) : Prop :=
  List.Forall₂ (fun r t => f.regType? r = some t) rs types

theorem Function.Types.unique {f : Function} {rs : List Reg} {one two : List Ty}
    (first : f.Types rs one) (second : f.Types rs two) : one = two :=
  List.right_unique_forall₂' (fun _ _ _ left right => Option.some.inj (left.symm.trans right)) first
    second

def Inst.WellTyped (f : Function) (i : Inst) : Prop :=
  ∃ types, f.Types i.args types ∧ i.Takes f types

/-- Branches are on words, and what is returned has the type of the signature. -/
def Term.WellTyped (f : Function) : Term → Prop
  | .condBr c _ _ | .switch c _ _ => ∃ t, f.regType? c = some t ∧ t.isIntLike = true
  | .ret none => f.sig.ret = .void
  | .ret (some r) => f.regType? r = some f.sig.ret
  | _ => True

/-- A block is well typed when entered from `prev`. -/
structure Block.WellTyped (f : Function) (b : Block) (prev : Option BlockId) : Prop where
  phis : ∀ p ∈ b.phis, f.regType? p.dest = some p.ty ∧
    ∀ pred r, prev = some pred → p.valueFor? pred = some r → f.regType? r = some p.ty
  insts : ∀ i ∈ b.insts, i.WellTyped f
  term : b.term.WellTyped f

namespace Typing

variable {α β : Type} {f : Function}

namespace Clean

/-- Every check of a list finds what it promises. -/
theorem each {γ : Type} {g : γ → Check Unit} {P : γ → Prop} {xs : List γ}
    (clean : ∀ x ∈ xs, Clean (g x) fun _ _ _ => P x) :
    Clean (xs.forM g) fun _ _ _ => ∀ x ∈ xs, P x := by
  induction xs with
  | nil => exact (Clean.pure ()).mono fun _ _ _ _ => by simp
  | cons x xs ih =>
    refine ((clean x (by simp)).bind fun _ => ih fun y member => clean y (by simp [member])).mono ?_
    rintro s _ s'' ⟨_, _, head, tail⟩
    exact List.forall_mem_cons.mpr ⟨head, tail⟩

/-- A test that reports is not met. -/
theorem guard {p : Prop} [Decidable p] (cause : TypingCause) :
    Clean (if p then Typing.report cause else Pure.pure ()) fun _ _ _ => ¬ p :=
  Clean.ite (fun _ => (Clean.report cause).mono fun _ _ _ absurd => absurd.elim)
    fun fine => (Clean.pure ()).mono fun _ _ _ _ => fine

end Clean

theorem arity?_unary {op : Op} (unary : op.isUnary = true) : arity? op = some 1 := by
  cases op <;> first | rfl | cases unary

theorem arity?_binary {op : Op} (binary : op.isBinary = true) : arity? op = some 2 := by
  cases op <;> first | rfl | cases binary

theorem arity?_compare {op : Op} (compares : op.isCompare = true) : arity? op = some 2 := by
  cases op <;> first | rfl | cases compares

theorem write_types (r : Reg) (t : Ty) (what : String) :
    Clean (write f r t what) fun _ _ _ => f.regType? r = some t := by
  unfold write
  split
  · exact (Clean.report _).mono fun _ _ _ absurd => absurd.elim
  · next want known =>
    refine (Clean.guard _).mono fun _ _ _ same => ?_
    rw [known, not_not.mp same]

theorem guarded_write_types {p : Prop} [Decidable p] (cause : TypingCause) (r : Reg) (t : Ty)
    (what : String) :
    Clean (if p then do Typing.report cause; write f r t what else write f r t what)
      fun _ _ _ => ¬ p ∧ f.regType? r = some t :=
  Clean.ite
    (fun _ => (Clean.reported fun _ => write_types r t what).mono fun _ _ _ absurd => absurd.elim)
    (fun fine => (write_types r t what).mono fun _ _ _ typed => ⟨fine, typed⟩)

theorem uses_types (rs : List Reg) (what : String) :
    Clean (rs.mapM fun r => use f r what) fun _ ps _ =>
      f.Types rs (ps.map (·.1)) ∧ ps.all (·.2) = true := by
  induction rs with
  | nil =>
    refine (Clean.pure []).mono ?_
    rintro s ps s' ⟨rfl, rfl⟩
    exact ⟨.nil, rfl⟩
  | cons r rs ih =>
    rw [List.mapM_cons]
    refine ((use_clean r what).bind fun p => ih.bind fun ps => Clean.pure (p :: ps)).mono ?_
    rintro s qs s₃ ⟨p, s₁, ⟨rfl, _, known, fine⟩, ps, s₂, ⟨types, all⟩, rfl, rfl⟩
    exact ⟨.cons known types, by simp [fine, all]⟩

/-- With as many operand types as the operation takes, the check is what `Takes` says. -/
theorem checkTypes_takes (i : Inst) (types : List Ty)
    (count : ∀ n, arity? i.op = some n → types.length = n) :
    Clean (checkTypes f i types) fun _ _ _ => i.Takes f types := by
  have none : arity? i.op = some 0 → types = [] := fun arity => List.length_eq_zero_iff.mp (count 0 arity)
  unfold checkTypes
  dsimp only
  split
  · next op =>
    refine (write_types _ _ _).mono fun _ _ _ typed => ?_
    simpa [Inst.Takes, op, none (by simp [op, arity?])] using typed
  · next op =>
    refine (write_types _ _ _).mono fun _ _ _ typed => ?_
    simpa [Inst.Takes, op, none (by simp [op, arity?])] using typed
  · next op =>
    refine (write_types _ _ _).mono fun _ _ _ typed => ?_
    simpa [Inst.Takes, op, none (by simp [op, arity?])] using typed
  · next a rest op =>
    refine (write_types _ _ _).mono fun _ _ _ typed => ?_
    obtain rfl : rest = [] := by simpa [op, arity?] using count
    simpa [Inst.Takes, op] using typed
  · next a rest op =>
    refine (guarded_write_types _ _ _ _).mono fun _ _ _ typed => ?_
    obtain rfl : rest = [] := by simpa [op, arity?] using count
    simpa [Inst.Takes, op, and_assoc] using typed
  · next c a b rest op =>
    refine (guarded_write_types _ _ _ _).mono fun _ _ _ typed => ?_
    obtain rfl : rest = [] := by simpa [op, arity?] using count
    simpa [Inst.Takes, op, and_assoc] using typed
  · next op =>
    exact (Clean.guard _).mono fun _ _ _ _ => by simp [Inst.Takes, op]
  · next op =>
    obtain ⟨a, rfl⟩ := List.length_eq_one_iff.mp (count 1 (by simp [op, arity?]))
    exact (Clean.pure ()).mono fun _ _ _ _ => by simp [Inst.Takes, op]
  · next op =>
    refine (Clean.pure ()).mono fun _ _ _ _ => ?_
    simp [Inst.Takes, op, none (by simp [op, arity?])]
  · exact (Clean.crash _).mono fun _ _ _ absurd => absurd.elim
  · next a rest _ _ _ _ _ _ _ _ _ _ =>
    rcases Op.kinds i.op with unary | binary | compares | plain
    · obtain rfl : rest = [] := by simpa using count 1 (arity?_unary unary)
      rw [if_pos unary]
      refine (guarded_write_types _ _ _ _).mono fun _ _ _ typed => ?_
      simpa [Inst.takes_unary unary] using typed
    · obtain ⟨b, rfl⟩ : ∃ b, rest = [b] := by
        simpa [List.length_eq_one_iff] using count 2 (arity?_binary binary)
      rw [if_neg (by simp [Op.isUnary_of_binary binary])]
      dsimp only
      rw [if_pos binary]
      refine (guarded_write_types _ _ _ _).mono fun _ _ _ typed => ?_
      simpa [Inst.takes_binary binary, and_assoc] using typed
    · obtain ⟨b, rfl⟩ : ∃ b, rest = [b] := by
        simpa [List.length_eq_one_iff] using count 2 (arity?_compare compares)
      obtain ⟨notUnary, notBinary⟩ := Op.other_of_compare compares
      rw [if_neg (by simp [notUnary])]
      dsimp only
      rw [if_neg (by simp [notBinary])]
      refine (guarded_write_types _ _ _ _).mono fun _ _ _ typed => ?_
      simpa [Inst.takes_compare compares] using typed
    · simp_all [Op.plain]
  · exact (Clean.crash _).mono fun _ _ _ absurd => absurd.elim

theorem checkInst_wellTyped (i : Inst) :
    Clean (checkInst f i) fun _ _ _ => i.WellTyped f := by
  have mark : Clean (if i.hasDest then markDefined i.dest else pure ()) fun _ _ _ => True :=
    Clean.ite (fun _ => (markDefined_clean i.dest).mono fun _ _ _ _ => trivial)
      fun _ => (Clean.pure ()).mono fun _ _ _ _ => trivial
  have main : (∀ n, arity? i.op = some n → i.args.length = n) →
      Clean (do
        let uses ← i.args.mapM fun r => use f r i.op.name
        if uses.all (·.2) then
          checkTypes f i (uses.map (·.1))
          if i.hasDest then markDefined i.dest) fun _ _ _ => i.WellTyped f := by
    intro count
    refine ((uses_types i.args i.op.name).bind
      (Q := fun uses _ _ _ => uses.all (·.2) = true → uses.length = i.args.length →
        i.Takes f (uses.map (·.1))) fun uses => ?_).mono ?_
    · refine Clean.ite (fun _ => ?_)
        fun missing => (Clean.pure ()).mono fun _ _ _ _ all => absurd all missing
      by_cases length : uses.length = i.args.length
      · refine ((checkTypes_takes i _ (by simpa [length] using count)).bind fun _ => mark).mono ?_
        rintro s _ s' ⟨_, _, takes, _⟩ _ _
        exact takes
      · exact ((checkTypes_clean i _).bind fun _ => mark).mono fun _ _ _ _ _ same => absurd same length
    · rintro s _ s' ⟨uses, s₁, ⟨types, all⟩, rest⟩
      exact ⟨_, types, rest all (by simpa using (List.Forall₂.length_eq types).symm)⟩
  unfold checkInst
  dsimp only
  split
  · next n arity =>
    refine Clean.ite (fun _ => ?_) fun same => main fun k known => ?_
    · exact (Clean.reported fun _ => Clean.pure _).mono fun _ _ _ absurd => absurd.elim
    · rw [arity] at known
      cases known
      simpa using same
  · next free => exact main fun n known => by simp [free] at known

/-- A register whose type is tested. -/
theorem tested_use (r : Reg) (what : String) (bad : Ty → Bool) (cause : Ty → TypingCause) :
    Clean (do
      let (t, ok) ← use f r what
      if ok && bad t then report (cause t)) fun _ _ _ => ∃ t, f.regType? r = some t ∧ bad t = false := by
  refine ((use_clean r what).bind fun p => Clean.guard (cause p.1)).mono ?_
  rintro s _ s' ⟨p, _, ⟨_, _, known, fine⟩, good⟩
  exact ⟨p.1, known, by simpa [fine] using good⟩

theorem checkTerm_wellTyped (t : Term) : Clean (checkTerm f t) fun _ _ _ => t.WellTyped f := by
  unfold checkTerm
  split
  · refine (tested_use _ _ (fun t => !t.isIntLike) _).mono ?_
    rintro _ _ _ ⟨t, known, good⟩
    exact ⟨t, known, by simpa using good⟩
  · refine (tested_use _ _ (fun t => !t.isIntLike) _).mono ?_
    rintro _ _ _ ⟨t, known, good⟩
    exact ⟨t, known, by simpa using good⟩
  · exact (Clean.guard _).mono fun _ _ _ same => not_not.mp same
  · refine (tested_use _ _ (fun t => t ≠ f.sig.ret) fun t => .returnType t f.sig.ret).mono ?_
    rintro _ _ _ ⟨t, known, good⟩
    have same : t = f.sig.ret := by simpa using good
    rw [same] at known
    exact known
  · refine (Clean.pure ()).mono fun _ _ _ _ => ?_
    cases t <;> simp_all [Term.WellTyped]

/-- Inputs of a phi from blocks that control reaches have the type of the phi. -/
def PhiTyped (f : Function) (d : Definedness) (p : Phi) : Prop :=
  f.regType? p.dest = some p.ty ∧
    ∀ i ∈ p.incoming, (d.exit? i.pred).isSome = true → f.regType? i.value = some p.ty

theorem checkInput_typed (d : Definedness) (p : Phi) (i : Incoming) :
    Clean (checkInput f d p i) fun _ _ _ =>
      (d.exit? i.pred).isSome = true → f.regType? i.value = some p.ty := by
  unfold checkInput
  split
  · next none => exact (Clean.pure ()).mono fun _ _ _ _ exit => by simp [none] at exit
  · split
    · exact (Clean.report _).mono fun _ _ _ absurd => absurd.elim
    · next known =>
      split
      · exact (Clean.crash _).mono fun _ _ _ absurd => absurd.elim
      · exact (Clean.report _).mono fun _ _ _ absurd => absurd.elim
      · refine (Clean.guard _).mono fun _ _ _ same _ => ?_
        rw [known, not_not.mp same]

theorem checkPhi_typed (edges : List (BlockId × BlockId)) (d : Definedness) (b : Block) (p : Phi) :
    Clean (checkPhi f edges d b p) fun _ _ _ => PhiTyped f d p := by
  refine ((write_types p.dest p.ty "phi").bind fun _ =>
    (Clean.each (P := fun _ => True) fun pred _ =>
      (checkEdge_clean d p pred).mono fun _ _ _ _ => trivial).bind fun _ =>
    Clean.each fun i _ => checkInput_typed d p i).mono ?_
  rintro s _ s' ⟨_, _, typed, _, _, _, inputs⟩
  exact ⟨typed, inputs⟩

theorem checkBlock_typed (edges : List (BlockId × BlockId)) (d : Definedness) (b : Block) :
    Clean (checkBlock f edges d b) fun _ _ _ =>
      (∀ p ∈ b.phis, PhiTyped f d p) ∧ (∀ i ∈ b.insts, i.WellTyped f) ∧ b.term.WellTyped f := by
  have parts : Clean (do
      b.phis.forM (checkPhi f edges d b)
      b.phis.forM (markDefined ·.dest)
      b.insts.forM (checkInst f)
      checkTerm f b.term) fun _ _ _ =>
      (∀ p ∈ b.phis, PhiTyped f d p) ∧ (∀ i ∈ b.insts, i.WellTyped f) ∧ b.term.WellTyped f := by
    refine ((Clean.each fun p _ => checkPhi_typed edges d b p).bind fun _ =>
      (markAll_clean b.phis).bind fun _ =>
      (Clean.each fun i _ => checkInst_wellTyped i).bind fun _ => checkTerm_wellTyped b.term).mono ?_
    rintro s _ s' ⟨_, _, phis, _, _, _, _, _, insts, term⟩
    exact ⟨phis, insts, term⟩
  unfold checkBlock
  dsimp only
  exact Clean.ite
    (fun _ => (Clean.reported fun _ => parts).mono fun _ _ _ absurd => absurd.elim) fun _ => parts

end Typing

/-- What the typing check says of the types of a function: parameters as in the signature, and every
block well typed however control comes to it. -/
structure Function.WellTyped (f : Function) : Prop where
  params : ∀ p t, (p, t) ∈ f.params.zip f.sig.params → ∀ s, f.regType? p = some s → s = t
  blocks : ∀ prev id written b, f.Arrives prev id written → f.block? id = some b →
    b.WellTyped f prev

theorem Function.params_of_paramErrors {f : Function} (none : f.paramErrors = []) (p : Reg) (t : Ty)
    (pair : (p, t) ∈ f.params.zip f.sig.params) (s : Ty) (known : f.regType? p = some s) : s = t := by
  obtain ⟨n, bound, at_n⟩ := List.mem_iff_getElem.mp pair
  rw [paramErrors, List.flatten_eq_nil_iff] at none
  have clean := none _ (List.mem_mapIdx.mpr ⟨n, bound, rfl⟩)
  rw [at_n] at clean
  simpa [known] using clean

theorem Function.wellTyped_of_typed {f : Function} (numbered : f.WellNumbered)
    (body : f.isExternal = false) (typed : f.typingErrors = .ok []) : f.WellTyped := by
  obtain ⟨edges, order, read, walked, params, ran⟩ := clean_of_typed body typed
  obtain ⟨order', walked', _, listed⟩ := reversePostorder_ok numbered
  cases walked.symm.trans walked'
  have settled : ∀ x ∈ order, ∀ b, f.block? x = some b →
      SettledAt f edges (f.definedness edges order) x b :=
    definedness_settled fun x member => ((listed x).mp member).present numbered
  refine ⟨params_of_paramErrors params, fun prev id written b path found => ?_⟩
  obtain ⟨u, s, checked, clean⟩ := ran id ((listed id).mpr path.reachable) b found
  obtain ⟨phis, insts, term⟩ := (Typing.checkBlock_typed edges _ b _ u s checked clean).2
  refine ⟨fun p member => ⟨(phis p member).1, ?_⟩, insts, term⟩
  rintro pred r rfl value
  -- the block that control came from is reached, so the check has looked at its input
  cases path with
  | @step before _ _ early c path' found' branch =>
    obtain ⟨i, input, rfl⟩ := Option.map_eq_some_iff.mp value
    have same : i.pred = pred := by simpa using List.find?_some input
    refine (phis p member).2 i (List.mem_of_find?_eq_some input) ?_
    rw [same, (settled pred ((listed pred).mpr path'.reachable) c found').2]
    rfl

end TieredEngine.Ir
