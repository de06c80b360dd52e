import TieredEngine.Proofs.Ir.Definedness

/-!
What the typing check is good for. The check only ever adds to its errors, so when it ends without
any, none of its parts found one, and each part has confirmed what it looks at: a function that it
accepts is grounded. Only definedness is taken from the check here: the evaluator tests types again
as it runs.

The check comes to an end whatever is wrong with the function. It looks registers up in sets that it
trusts to have a place for each of them; it only does so for declared registers, every part of the
check leaves such a set behind, and the analysis gives such sets. It takes the types of operands only
after it has counted them. Operands that are missing, registers without a type and blocks out of
reach are reported or passed over.
-/
namespace TieredEngine.Ir

namespace Typing

variable {α β : Type} {f : Function}

/-- When the check ends without an error, it started without one and `P` holds of its run. -/
def Clean (c : Check α) (P : State → α → State → Prop) : Prop :=
  ∀ s a s', c s = .ok (a, s') → s'.causes = [] → s.causes = [] ∧ P s a s'

namespace Clean

theorem mono {c : Check α} {P Q : State → α → State → Prop} (clean : Clean c P)
    (weaker : ∀ s a s', P s a s' → Q s a s') : Clean c Q := by
  intro s a s' ran empty
  obtain ⟨start, post⟩ := clean s a s' ran empty
  exact ⟨start, weaker s a s' post⟩

theorem report (cause : TypingCause) : Clean (report cause) fun _ _ _ => False := by
  intro s a s' ran empty
  cases ran
  cases empty

theorem crash (c : Crash) : Clean (throw c : Check α) fun _ _ _ => False := by
  intro s a s' ran
  cases ran

theorem pure (a : α) : Clean (Pure.pure a : Check α) fun s b s' => b = a ∧ s' = s := by
  intro s b s' ran empty
  cases ran
  exact ⟨empty, rfl, rfl⟩

theorem bind {c : Check α} {k : α → Check β} {P : State → α → State → Prop}
    {Q : α → State → β → State → Prop} (first : Clean c P) (rest : ∀ a, Clean (k a) (Q a)) :
    Clean (c >>= k) fun s b s'' => ∃ a s', P s a s' ∧ Q a s' b s'' := by
  intro s b s'' ran empty
  obtain ⟨⟨a, s'⟩, ran₁, ran₂⟩ := bind_eq_ok.mp (show (c s >>= fun p => k p.1 p.2) = _ from ran)
  obtain ⟨middle, post₂⟩ := rest a s' b s'' ran₂ empty
  obtain ⟨start, post₁⟩ := first s a s' ran₁ middle
  exact ⟨start, a, s', post₁, post₂⟩

/-- A branch that reports an error is not taken in a clean run. -/
theorem reported {cause : TypingCause} {k : Unit → Check β} {Q : Unit → State → β → State → Prop}
    (rest : ∀ u, Clean (k u) (Q u)) : Clean (Typing.report cause >>= k) fun _ _ _ => False := by
  refine ((report cause).bind rest).mono ?_
  rintro s b s'' ⟨_, _, absurd, _⟩
  exact absurd

theorem ite {p : Prop} [Decidable p] {c d : Check α} {P : State → α → State → Prop}
    (yes : p → Clean c P) (no : ¬ p → Clean d P) : Clean (if p then c else d) P := by
  split
  · next h => exact yes h
  · next h => exact no h

/-- A list of checks that leave the state alone. -/
theorem forM {γ : Type} {g : γ → Check Unit} {P : State → γ → Prop} {xs : List γ}
    (each : ∀ x ∈ xs, Clean (g x) fun s _ s' => s' = s ∧ P s x) :
    Clean (xs.forM g) fun s _ s' => s' = s ∧ ∀ x ∈ xs, P s x := by
  induction xs with
  | nil =>
    refine (Clean.pure ()).mono ?_
    rintro s _ s' ⟨_, same⟩
    exact ⟨same, by simp⟩
  | cons x xs ih =>
    refine ((each x (by simp)).bind fun _ => ih fun y member => each y (by simp [member])).mono ?_
    rintro s _ s'' ⟨_, s', ⟨rfl, head⟩, rfl, tail⟩
    exact ⟨rfl, List.forall_mem_cons.mpr ⟨head, tail⟩⟩

end Clean

theorem isDefined_clean (r : Reg) :
    Clean (isDefined r) fun s b s' => s' = s ∧ s.defined[r.num]? = some b := by
  intro s a s' ran empty
  simp only [isDefined, bind, StateT.bind, get, getThe, MonadStateOf.get, StateT.get, pure,
    Except.pure, Except.bind] at ran
  cases at_r : s.defined[r.num]? with
  | none =>
    simp only [at_r] at ran
    cases ran
  | some b =>
    rw [at_r] at ran
    cases show Except.ok (b, s) = Except.ok (a, s') from ran
    exact ⟨empty, rfl, at_r⟩

theorem use_clean (r : Reg) (what : String) :
    Clean (use f r what) fun s p s' => s' = s ∧ s.defined.has r = true ∧
      f.regType? r = some p.1 ∧ p.2 = true := by
  unfold use
  split
  · exact (Clean.reported fun _ => Clean.pure _).mono fun _ _ _ absurd => absurd.elim
  · next t known =>
    refine ((isDefined_clean r).bind (Q := fun b s p s' => b = true ∧ p = (t, true) ∧ s' = s)
      fun b => ?_).mono ?_
    · cases b with
      | true =>
        refine (Clean.pure (t, true)).mono ?_
        rintro s p s' ⟨rfl, rfl⟩
        exact ⟨rfl, rfl, rfl⟩
      | false =>
        exact (Clean.reported fun _ => Clean.pure _).mono fun _ _ _ absurd => absurd.elim
    · rintro s p s'' ⟨b, s', ⟨rfl, present⟩, rfl, rfl, rfl⟩
      exact ⟨rfl, RegSet.has_iff.mpr present, known, rfl⟩

theorem write_clean (r : Reg) (t : Ty) (what : String) :
    Clean (write f r t what) fun s _ s' => s' = s ∧ f.declares r = true := by
  unfold write
  split
  · exact (Clean.report _).mono fun _ _ _ absurd => absurd.elim
  · next known =>
    refine Clean.ite (fun _ => (Clean.report _).mono fun _ _ _ absurd => absurd.elim) fun _ => ?_
    refine (Clean.pure ()).mono ?_
    rintro s _ s' ⟨_, same⟩
    exact ⟨same, by simp [Function.declares, known]⟩

/-- A write behind a test that may report. -/
theorem guarded_write_clean {p : Prop} [Decidable p] (cause : TypingCause) (r : Reg) (t : Ty)
    (what : String) :
    Clean (if p then do Typing.report cause; write f r t what else write f r t what)
      fun s _ s' => s' = s ∧ f.declares r = true :=
  Clean.ite
    (fun _ => (Clean.reported fun _ => write_clean r t what).mono fun _ _ _ absurd => absurd.elim)
    (fun _ => write_clean r t what)

/-- The register that an operation writes is declared. -/
theorem checkTypes_clean (i : Inst) (types : List Ty) :
    Clean (checkTypes f i types) fun s _ s' => s' = s ∧
      ∀ r, i.target? = some r → f.declares r = true := by
  have written : ∀ {c : Check Unit},
      Clean c (fun s _ s' => s' = s ∧ f.declares i.dest = true) →
      Clean c fun s _ s' => s' = s ∧ ∀ r, i.target? = some r → f.declares r = true := by
    intro c clean
    refine clean.mono ?_
    rintro s _ s' ⟨same, declared⟩
    refine ⟨same, fun r target => ?_⟩
    have : r = i.dest := by
      unfold Inst.target? at target
      split at target <;> simp_all
    exact this ▸ declared
  have nothing : (∀ r, i.target? = some r → f.declares r = true) →
      Clean (pure () : Check Unit) fun s _ s' => s' = s ∧
        ∀ r, i.target? = some r → f.declares r = true := by
    intro known
    refine (Clean.pure ()).mono ?_
    rintro s _ s' ⟨_, same⟩
    exact ⟨same, known⟩
  have crashed : Clean (throw .outOfRange : Check Unit) fun s _ s' => s' = s ∧
      ∀ r, i.target? = some r → f.declares r = true :=
    (Clean.crash _).mono fun _ _ _ absurd => absurd.elim
  unfold checkTypes
  dsimp only
  split
  · exact written (write_clean _ _ _)
  · exact written (write_clean _ _ _)
  · exact written (write_clean _ _ _)
  · exact written (write_clean _ _ _)
  · exact written (guarded_write_clean _ _ _ _)
  · exact written (guarded_write_clean _ _ _ _)
  · next call =>
    refine Clean.ite (fun _ => (Clean.report _).mono fun _ _ _ absurd => absurd.elim)
      fun fine => nothing fun r target => ?_
    simp only [Inst.target?, call] at target
    split at target
    · cases target
    · next present =>
      cases target
      by_contra undeclared
      exact fine ⟨present, by simpa [Function.declares] using undeclared⟩
  · next store => exact nothing fun r target => by simp [Inst.target?, store] at target
  · next panics => exact nothing fun r target => by simp [Inst.target?, panics] at target
  · exact crashed
  · refine Clean.ite (fun _ => written (guarded_write_clean _ _ _ _)) fun _ => ?_
    split
    · exact crashed
    · exact Clean.ite (fun _ => written (guarded_write_clean _ _ _ _))
        fun _ => written (guarded_write_clean _ _ _ _)
  · exact crashed

theorem uses_clean (rs : List Reg) (what : String) :
    Clean (rs.mapM fun r => use f r what) fun s ps s' => s' = s ∧
      (∀ r ∈ rs, s.defined.has r = true) ∧ ps.all (·.2) = true := by
  induction rs with
  | nil =>
    refine (Clean.pure []).mono ?_
    rintro s ps s' ⟨rfl, rfl⟩
    simp
  | cons r rs ih =>
    rw [List.mapM_cons]
    refine ((use_clean r what).bind fun p => ih.bind fun ps => Clean.pure (p :: ps)).mono ?_
    rintro s qs s₃ ⟨p, s₁, ⟨rfl, defined, _, fine⟩, ps, s₂, ⟨rfl, others, all⟩, rfl, rfl⟩
    exact ⟨rfl, List.forall_mem_cons.mpr ⟨defined, others⟩, by simp [fine, all]⟩

theorem markDefined_clean (r : Reg) :
    Clean (markDefined r) fun s _ s' => s'.defined = s.defined.insert r := by
  intro s a s' ran empty
  cases ran
  exact ⟨empty, rfl⟩

/-- What a clean check of an instruction says: it reads defined registers, writes a declared one,
and nothing else becomes defined. -/
def InstChecked (f : Function) (i : Inst) (s s' : State) : Prop :=
  (∀ r ∈ i.args, s.defined.has r = true) ∧ (∀ r, i.target? = some r → f.declares r = true) ∧
    ∀ r, s'.defined.has r = true → s.defined.has r = true ∨ i.target? = some r

theorem checkInst_clean (i : Inst) :
    Clean (checkInst f i) fun s _ s' => InstChecked f i s s' := by
  have mark : Clean (if i.hasDest then markDefined i.dest else pure ()) fun s _ s' =>
      ∀ r, s'.defined.has r = true → s.defined.has r = true ∨ i.target? = some r := by
    refine Clean.ite (fun defines => (markDefined_clean i.dest).mono ?_)
      fun _ => (Clean.pure ()).mono ?_
    · intro s _ s' set r has
      rw [RegSet.has_iff, set, RegSet.getElem?_insert] at has
      rcases has with old | ⟨same, _⟩
      · exact .inl (RegSet.has_iff.mpr old)
      · exact .inr (by rw [Inst.target?_of_hasDest defines, Reg.num_inj.mp same])
    · rintro s _ s' ⟨_, rfl⟩ r has
      exact .inl has
  have main : Clean (do
      let uses ← i.args.mapM fun r => use f r i.op.name
      if uses.all (·.2) then
        checkTypes f i (uses.map (·.1))
        if i.hasDest then markDefined i.dest) fun s _ s' => InstChecked f i s s' := by
    refine ((uses_clean i.args i.op.name).bind
      (Q := fun uses s _ s' => uses.all (·.2) = true →
        (∀ r, i.target? = some r → f.declares r = true) ∧
          ∀ r, s'.defined.has r = true → s.defined.has r = true ∨ i.target? = some r)
      fun uses => ?_).mono ?_
    · refine Clean.ite (fun _ => ((checkTypes_clean i _).bind fun _ => mark).mono ?_)
        fun missing => (Clean.pure ()).mono fun _ _ _ _ all => absurd all missing
      rintro s _ s' ⟨_, s₁, ⟨rfl, declared⟩, grown⟩ _
      exact ⟨declared, grown⟩
    · rintro s _ s' ⟨uses, s₁, ⟨rfl, args, all⟩, rest⟩
      exact ⟨args, rest all⟩
  unfold checkInst
  dsimp only
  split
  · refine Clean.ite (fun _ => ?_) fun _ => main
    exact (Clean.reported fun _ => Clean.pure _).mono fun _ _ _ absurd => absurd.elim
  · exact main

/-- A clean check of several instructions: each of them reads what was defined at the start or
written by an earlier one. -/
theorem insts_clean (is : List Inst) :
    Clean (is.forM (checkInst f)) fun s _ s' =>
      (∀ before i after, is = before ++ i :: after → ∀ r ∈ i.args,
        s.defined.has r = true ∨ r ∈ before.filterMap Inst.target?) ∧
      (∀ i ∈ is, ∀ r, i.target? = some r → f.declares r = true) ∧
      ∀ r, s'.defined.has r = true → s.defined.has r = true ∨ r ∈ is.filterMap Inst.target? := by
  induction is with
  | nil =>
    refine (Clean.pure ()).mono ?_
    rintro s _ s' ⟨_, rfl⟩
    simp
  | cons i is ih =>
    refine ((checkInst_clean i).bind fun _ => ih).mono ?_
    rintro s _ s'' ⟨_, s', ⟨args, target, grown⟩, reads, targets, grown'⟩
    -- what is defined after the first instruction, in terms of what was before it
    have earlier : ∀ r rest, s'.defined.has r = true ∨ r ∈ List.filterMap Inst.target? rest →
        s.defined.has r = true ∨ r ∈ (i :: rest).filterMap Inst.target? := by
      intro r rest known
      rw [List.mem_filterMap]
      rcases known with old | later
      · rcases grown r old with start | own
        · exact .inl start
        · exact .inr ⟨i, by simp, own⟩
      · obtain ⟨j, member, own⟩ := List.mem_filterMap.mp later
        exact .inr ⟨j, by simp [member], own⟩
    refine ⟨?_, List.forall_mem_cons.mpr ⟨target, targets⟩, fun r has => earlier r is (grown' r has)⟩
    intro before j after split r member
    cases before with
    | nil =>
      obtain ⟨rfl, rfl⟩ := List.cons.inj split
      exact .inl (args r member)
    | cons k before =>
      obtain ⟨rfl, rest⟩ := List.cons.inj split
      exact earlier r before (reads before j after rest r member)

theorem checkEdge_clean (d : Definedness) (p : Phi) (pred : BlockId) :
    Clean (checkEdge d p pred) fun s _ s' => s' = s ∧
      ((d.exit? pred).isSome = true → (p.valueFor? pred).isSome = true) := by
  refine Clean.ite (fun _ => (Clean.report _).mono fun _ _ _ absurd => absurd.elim)
    fun fine => (Clean.pure ()).mono ?_
  rintro s _ s' ⟨_, same⟩
  refine ⟨same, fun exit => ?_⟩
  simpa [exit, Option.isSome_iff_ne_none] using fine

theorem checkInput_clean (d : Definedness) (p : Phi) (i : Incoming) :
    Clean (checkInput f d p i) fun s _ s' => s' = s ∧
      ∀ out, d.exit? i.pred = some out → out.has i.value = true := by
  unfold checkInput
  split
  · next none =>
    refine (Clean.pure ()).mono ?_
    rintro s _ s' ⟨_, same⟩
    exact ⟨same, by simp [none]⟩
  · next out exit =>
    split
    · exact (Clean.report _).mono fun _ _ _ absurd => absurd.elim
    · split
      · exact (Clean.crash _).mono fun _ _ _ absurd => absurd.elim
      · exact (Clean.report _).mono fun _ _ _ absurd => absurd.elim
      · next present =>
        refine Clean.ite (fun _ => (Clean.report _).mono fun _ _ _ absurd => absurd.elim)
          fun _ => (Clean.pure ()).mono ?_
        rintro s _ s' ⟨_, same⟩
        refine ⟨same, fun out' exit' => ?_⟩
        cases exit.symm.trans exit'
        exact RegSet.has_iff.mpr present

/-- What a clean check of a phi says. -/
def PhiChecked (f : Function) (edges : List (BlockId × BlockId)) (d : Definedness) (b : Block)
    (p : Phi) : Prop :=
  f.declares p.dest = true ∧
    ∀ pred ∈ Function.predecessorsIn edges b.id, ∀ out, d.exit? pred = some out →
      ∃ r, p.valueFor? pred = some r ∧ out.has r = true

theorem checkPhi_clean (edges : List (BlockId × BlockId)) (d : Definedness) (b : Block) (p : Phi) :
    Clean (checkPhi f edges d b p) fun s _ s' => s' = s ∧ PhiChecked f edges d b p := by
  refine ((write_clean p.dest p.ty "phi").bind fun _ =>
    (Clean.forM (P := fun _ pred => (d.exit? pred).isSome = true → (p.valueFor? pred).isSome = true)
      fun pred _ => checkEdge_clean d p pred).bind fun _ =>
    Clean.forM (P := fun _ i => ∀ out, d.exit? i.pred = some out → out.has i.value = true)
      fun i _ => checkInput_clean d p i).mono ?_
  rintro s _ s₃ ⟨_, s₁, ⟨rfl, declared⟩, _, s₂, ⟨rfl, edges⟩, rfl, inputs⟩
  refine ⟨rfl, declared, fun pred member out exit => ?_⟩
  obtain ⟨r, value⟩ := Option.isSome_iff_exists.mp (edges pred member (by simp [exit]))
  refine ⟨r, value, ?_⟩
  obtain ⟨i, found, rfl⟩ := Option.map_eq_some_iff.mp value
  have same : i.pred = pred := by simpa using List.find?_some found
  exact inputs i (List.mem_of_find?_eq_some found) out (same ▸ exit)

theorem markAll_clean (ps : List Phi) :
    Clean (ps.forM (markDefined ·.dest)) fun s _ s' =>
      ∀ r, s'.defined.has r = true → s.defined.has r = true ∨ r ∈ ps.map (·.dest) := by
  induction ps with
  | nil =>
    refine (Clean.pure ()).mono ?_
    rintro s _ s' ⟨_, rfl⟩
    simp
  | cons p ps ih =>
    refine ((markDefined_clean p.dest).bind fun _ => ih).mono ?_
    rintro s _ s'' ⟨_, s', set, rest⟩ r has
    rcases rest r has with early | later
    · rw [RegSet.has_iff, set, RegSet.getElem?_insert] at early
      rcases early with old | ⟨same, _⟩
      · exact .inl (RegSet.has_iff.mpr old)
      · exact .inr (by simp [Reg.num_inj.mp same])
    · exact .inr (by simp only [List.map_cons, List.mem_cons, later, or_true])

theorem checkTerm_clean (t : Term) :
    Clean (checkTerm f t) fun s _ _ => ∀ r ∈ t.uses, s.defined.has r = true := by
  have tested : ∀ (r : Reg) (what : String) (k : Ty × Bool → Check Unit),
      (∀ p, Clean (k p) fun _ _ _ => True) →
      Clean (use f r what >>= k) fun s _ _ => s.defined.has r = true := by
    intro r what k rest
    refine ((use_clean r what).bind rest).mono ?_
    rintro s _ s' ⟨p, s₁, ⟨_, defined, _⟩, _⟩
    exact defined
  have any : ∀ (p : Prop) [Decidable p] (cause : TypingCause),
      Clean (if p then report cause else pure ()) fun _ _ _ => True := by
    intro p _ cause
    exact Clean.ite (fun _ => (Clean.report _).mono fun _ _ _ _ => trivial)
      fun _ => (Clean.pure ()).mono fun _ _ _ _ => trivial
  unfold checkTerm
  split
  · exact (tested _ _ _ fun _ => any _ _).mono fun s _ _ defined => by simpa [Term.uses] using defined
  · exact (tested _ _ _ fun _ => any _ _).mono fun s _ _ defined => by simpa [Term.uses] using defined
  · exact (any _ _).mono fun s _ _ _ => by simp [Term.uses]
  · exact (tested _ _ _ fun _ => any _ _).mono fun s _ _ defined => by simpa [Term.uses] using defined
  · refine (Clean.pure ()).mono fun s _ _ _ => ?_
    cases t <;> simp_all [Term.uses]

/-- What a clean check of a block says, given what is defined on entry to it. -/
structure BlockChecked (f : Function) (edges : List (BlockId × BlockId)) (d : Definedness)
    (b : Block) (defined : RegSet) : Prop where
  entry : b.id = f.entry → b.phis = []
  phis : ∀ p ∈ b.phis, PhiChecked f edges d b p
  args : ∀ before i after, b.insts = before ++ i :: after → ∀ r ∈ i.args,
    defined.has r = true ∨ r ∈ b.writesUpTo before
  targets : ∀ i ∈ b.insts, ∀ r, i.target? = some r → f.declares r = true
  uses : ∀ r ∈ b.term.uses, defined.has r = true ∨ r ∈ b.writes

theorem checkBlock_clean (edges : List (BlockId × BlockId)) (d : Definedness) (b : Block) :
    Clean (checkBlock f edges d b) fun s _ _ => BlockChecked f edges d b s.defined := by
  have body : (b.id = f.entry → b.phis = []) → Clean (do
      b.phis.forM (checkPhi f edges d b)
      b.phis.forM (markDefined ·.dest)
      b.insts.forM (checkInst f)
      checkTerm f b.term) fun s _ _ => BlockChecked f edges d b s.defined := by
    intro entry
    refine ((Clean.forM (P := fun _ p => PhiChecked f edges d b p)
      fun p _ => checkPhi_clean edges d b p).bind fun _ => (markAll_clean b.phis).bind fun _ =>
      (insts_clean b.insts).bind fun _ => checkTerm_clean b.term).mono ?_
    rintro s _ s₄ ⟨_, s₁, ⟨rfl, phis⟩, _, s₂, marked, _, s₃, ⟨args, targets, grown⟩, uses⟩
    refine ⟨entry, phis, ?_, targets, ?_⟩
    · intro before i after split r member
      rcases args before i after split r member with early | own
      · rcases marked r early with start | phi
        · exact .inl start
        · exact .inr (List.mem_append_left _ phi)
      · exact .inr (List.mem_append_right _ own)
    · intro r member
      rcases grown r (uses r member) with early | own
      · rcases marked r early with start | phi
        · exact .inl start
        · exact .inr (List.mem_append_left _ phi)
      · exact .inr (List.mem_append_right _ own)
  unfold checkBlock
  dsimp only
  refine Clean.ite (fun _ => ?_) fun fine => body fun same => ?_
  · refine ((Clean.report _).bind fun _ => (Clean.forM (P := fun _ p => PhiChecked f edges d b p)
      fun p _ => checkPhi_clean edges d b p).bind fun _ => (markAll_clean b.phis).bind fun _ =>
      (insts_clean b.insts).bind fun _ => checkTerm_clean b.term).mono ?_
    rintro s _ s' ⟨_, _, absurd, _⟩
    exact absurd.elim
  · simpa [same] using fine

end Typing

/-- An empty list of errors: none in the parameters, and the check of each reachable block ran
without finding one. -/
theorem Function.clean_of_typed {f : Function} (body : f.isExternal = false)
    (typed : f.typingErrors = .ok []) :
    ∃ edges order, f.edges = .ok edges ∧ f.reversePostorder = .ok order ∧ f.paramErrors = [] ∧
      ∀ id ∈ order, ∀ b, f.block? id = some b → ∃ u s,
        Typing.checkBlock f edges (f.definedness edges order) b
          { defined := ((f.definedness edges order).before? b.id).getD #[] } = .ok (u, s) ∧
          s.causes = [] := by
  unfold typingErrors at typed
  simp only [body, Bool.false_eq_true, if_false] at typed
  obtain ⟨edges, read, typed⟩ := bind_eq_ok.mp typed
  obtain ⟨order, walked, typed⟩ := bind_eq_ok.mp typed
  obtain ⟨inBlocks, each, whole⟩ := bind_eq_ok.mp typed
  obtain ⟨params, empty⟩ := List.append_eq_nil_iff.mp (Except.ok.inj whole)
  refine ⟨edges, order, read, walked, params, fun id listed b found => ?_⟩
  obtain ⟨errors, member, checked⟩ := forall₂_partner (mapM_eq_ok.mp each) listed
  obtain ⟨c, present, checked⟩ := bind_eq_ok.mp checked
  cases (Crash.deref_eq_ok.mp present).symm.trans found
  obtain ⟨⟨u, s⟩, ran, mapped⟩ := bind_eq_ok.mp checked
  have none : errors = [] := List.flatten_eq_nil_iff.mp empty errors member
  refine ⟨u, s, ran, ?_⟩
  cases Except.ok.inj mapped
  simpa using none

/-- The check of a function goes through its reachable blocks, and an empty list of errors means
that each of them is clean. -/
theorem Function.blockChecked_of_typed {f : Function} (body : f.isExternal = false)
    (typed : f.typingErrors = .ok []) :
    ∃ edges order, f.edges = .ok edges ∧ f.reversePostorder = .ok order ∧
      ∀ id ∈ order, ∀ b, f.block? id = some b →
        Typing.BlockChecked f edges (f.definedness edges order) b
          (((f.definedness edges order).before? b.id).getD #[]) := by
  obtain ⟨edges, order, read, walked, _, ran⟩ := clean_of_typed body typed
  refine ⟨edges, order, read, walked, fun id listed b found => ?_⟩
  obtain ⟨u, s, checked, clean⟩ := ran id listed b found
  exact (Typing.checkBlock_clean edges _ b _ u s checked clean).2

/-- On every path through a function that the typing check accepts, registers are written before
they are read. -/
theorem Function.grounded_of_typed {f : Function} (numbered : f.WellNumbered)
    (body : f.isExternal = false) (typed : f.typingErrors = .ok []) : f.Grounded := by
  obtain ⟨edges, order, read, walked, checked⟩ := blockChecked_of_typed body typed
  obtain ⟨order', walked', _, listed⟩ := reversePostorder_ok numbered
  cases walked.symm.trans walked'
  have settled : ∀ x ∈ order, ∀ b, f.block? x = some b →
      SettledAt f edges (f.definedness edges order) x b :=
    definedness_settled fun x member => ((listed x).mp member).present numbered
  intro prev id written b path found
  have reached := path.reachable
  have fine := checked id ((listed id).mpr reached) b found
  have number := numbered.number id b found
  rw [number, (settled id ((listed id).mpr reached) b found).1, Option.getD_some] at fine
  have entered : ∀ r, (f.entrySet edges (f.definedness edges order) id).has r = true →
      r ∈ written := fun r has =>
    entry_sound numbered read listed path (settled id ((listed id).mpr reached) b found).1 has
  refine ⟨fun p member => ⟨(fine.phis p member).1, ?_⟩, ?_, fine.targets, ?_⟩
  · -- a block with phis is not the entry, so the path came over an edge
    cases path with
    | entry => simp [fine.entry number] at member
    | @step before last _ early c path' found' branch =>
      have edge : last ∈ predecessorsIn edges b.id := by
        rw [number]
        exact List.mem_map.mpr ⟨(last, id), List.mem_filter.mpr
          ⟨mem_edges numbered read found' branch, by simp⟩, rfl⟩
      obtain ⟨enteredLast, exit⟩ :=
        settled last ((listed last).mpr path'.reachable) c found'
      obtain ⟨r, value, has⟩ := (fine.phis p member).2 last edge _ exit
      refine ⟨last, r, rfl, value, ?_⟩
      rcases RegSet.has_insertAll has with start | own
      · exact List.mem_append_left _ (entry_sound numbered read listed path' enteredLast start)
      · exact List.mem_append_right _ (writes_of_defs own)
  · intro before i after split r member
    rcases fine.args before i after split r member with start | own
    · exact List.mem_append_left _ (entered r start)
    · exact List.mem_append_right _ own
  · intro r member
    rcases fine.uses r member with start | own
    · exact List.mem_append_left _ (entered r start)
    · exact List.mem_append_right _ own

namespace Typing

variable {α β γ : Type} {f : Function}

/-- From a state with a place for each declared register the check comes to an end, in such a
state. -/
def Ends (f : Function) (c : Check α) : Prop :=
  ∀ s, s.defined.size = f.regTypes.size →
    ∃ a s', c s = .ok (a, s') ∧ s'.defined.size = f.regTypes.size

namespace Ends

theorem pure (a : α) : Ends f (Pure.pure a : Check α) := fun s sized => ⟨a, s, rfl, sized⟩

theorem report (cause : TypingCause) : Ends f (report cause) := fun _ sized => ⟨(), _, rfl, sized⟩

theorem bind {c : Check α} {k : α → Check β} (first : Ends f c) (rest : ∀ a, Ends f (k a)) :
    Ends f (c >>= k) := by
  intro s sized
  obtain ⟨a, s', ran, sized'⟩ := first s sized
  obtain ⟨b, s'', ran', sized''⟩ := rest a s' sized'
  exact ⟨b, s'', bind_eq_ok.mpr ⟨(a, s'), ran, ran'⟩, sized''⟩

theorem ite {p : Prop} [Decidable p] {c d : Check α} (yes : p → Ends f c) (no : ¬ p → Ends f d) :
    Ends f (if p then c else d) := by
  split
  · next h => exact yes h
  · next h => exact no h

/-- A test that may report. -/
theorem guard {p : Prop} [Decidable p] (cause : TypingCause) :
    Ends f (if p then Typing.report cause else Pure.pure ()) :=
  .ite (fun _ => .report cause) fun _ => .pure ()

theorem forM {g : γ → Check Unit} (each : ∀ x, Ends f (g x)) (xs : List γ) : Ends f (xs.forM g) := by
  induction xs with
  | nil => exact .pure ()
  | cons x xs ih => exact (each x).bind fun _ => ih

/-- What follows checks of a list that have a result for each. -/
theorem mapM_bind {g : γ → Check α} (each : ∀ x, Ends f (g x)) {xs : List γ} {k : List α → Check β}
    (rest : ∀ ys, ys.length = xs.length → Ends f (k ys)) : Ends f (xs.mapM g >>= k) := by
  induction xs generalizing k with
  | nil =>
    rw [List.mapM_nil, pure_bind]
    exact rest [] rfl
  | cons x xs ih =>
    simp only [List.mapM_cons, bind_assoc, pure_bind]
    exact (each x).bind fun y => ih fun ys length => rest (y :: ys) (by simp [length])

end Ends

theorem isDefined_ends {r : Reg} (declared : r.num < f.regTypes.size) : Ends f (isDefined r) := by
  intro s sized
  obtain ⟨b, there⟩ : ∃ b, s.defined[r.num]? = some b :=
    ⟨_, Array.getElem?_eq_getElem (sized ▸ declared)⟩
  refine ⟨b, s, ?_, sized⟩
  simp only [isDefined, StateT.bind, get, getThe, MonadStateOf.get, StateT.get, bind, pure,
    Except.pure, Except.bind, there]
  rfl

theorem use_ends (r : Reg) (what : String) : Ends f (use f r what) := by
  unfold use
  split
  · exact (Ends.report _).bind fun _ => .pure _
  · next t known =>
    refine (isDefined_ends (Array.getElem?_eq_some_iff.mp known).1).bind fun found => ?_
    exact .ite (fun _ => .pure _) fun _ => (Ends.report _).bind fun _ => .pure _

theorem write_ends (r : Reg) (t : Ty) (what : String) : Ends f (write f r t what) := by
  unfold write
  split
  · exact .report _
  · exact .guard _

theorem markDefined_ends (r : Reg) : Ends f (markDefined r) := by
  intro s sized
  exact ⟨(), _, rfl, (RegSet.size_insert s.defined r).trans sized⟩

theorem checkEdge_ends (d : Definedness) (p : Phi) (pred : BlockId) :
    Ends f (checkEdge d p pred) := .guard _

theorem checkInput_ends {d : Definedness}
    (sizes : ∀ id s, d.exit? id = some s → s.size = f.regTypes.size) (p : Phi) (i : Incoming) :
    Ends f (checkInput f d p i) := by
  unfold checkInput
  split
  · exact .pure ()
  · next out exit =>
    split
    · exact .report _
    · next t known =>
      have declared := (Array.getElem?_eq_some_iff.mp known).1
      rw [Array.getElem?_eq_getElem (sizes _ out exit ▸ declared)]
      split
      · next absent => cases absent
      · exact .report _
      · exact .guard _

theorem checkPhi_ends (edges : List (BlockId × BlockId)) {d : Definedness}
    (sizes : ∀ id s, d.exit? id = some s → s.size = f.regTypes.size) (b : Block) (p : Phi) :
    Ends f (checkPhi f edges d b p) :=
  (write_ends _ _ _).bind fun _ => (Ends.forM (checkEdge_ends d p) _).bind fun _ =>
    .forM (checkInput_ends sizes p) _

/-- A write behind a test that may report. -/
theorem guarded_write_ends {p : Prop} [Decidable p] (cause : TypingCause) (r : Reg) (t : Ty)
    (what : String) :
    Ends f (if p then do Typing.report cause; write f r t what else write f r t what) :=
  .ite (fun _ => (Ends.report cause).bind fun _ => write_ends r t what) fun _ => write_ends r t what

/-- With as many operand types as the operation takes, the check does not look for more. -/
theorem checkTypes_ends (i : Inst) (types : List Ty)
    (count : ∀ n, arity? i.op = some n → types.length = n) : Ends f (checkTypes f i types) := by
  unfold checkTypes
  dsimp only
  split
  · exact write_ends _ _ _
  · exact write_ends _ _ _
  · exact write_ends _ _ _
  · exact write_ends _ _ _
  · exact guarded_write_ends _ _ _ _
  · exact guarded_write_ends _ _ _ _
  · exact .guard _
  · exact .pure ()
  · exact .pure ()
  · next op short =>
    obtain ⟨c, a, b, rfl⟩ := List.length_eq_three.mp (count 3 (by simp [op, arity?]))
    exact (short c a b [] rfl).elim
  · next a rest _ _ _ _ _ _ _ _ _ _ =>
    refine .ite (fun _ => guarded_write_ends _ _ _ _) fun unary => ?_
    split
    · -- an operation of two operands does not have one
      exfalso
      cases arity : arity? i.op with
      | none => simp_all [call_of_arity arity]
      | some n =>
        cases count n arity
        rcases unary_of_arity arity with op | op | op | op <;> simp_all
    · exact .ite (fun _ => guarded_write_ends _ _ _ _) fun _ => guarded_write_ends _ _ _ _
  · exfalso
    cases arity : arity? i.op with
    | none => simp_all [call_of_arity arity]
    | some n =>
      cases count n arity
      rcases nullary_of_arity arity with op | op | op | op <;> simp_all

theorem checkInst_ends (i : Inst) : Ends f (checkInst f i) := by
  have main : (∀ n, arity? i.op = some n → i.args.length = n) → Ends f (do
      let uses ← i.args.mapM fun r => use f r i.op.name
      if uses.all (·.2) then
        checkTypes f i (uses.map (·.1))
        if i.hasDest then markDefined i.dest) := by
    intro count
    refine Ends.mapM_bind (fun r => use_ends r i.op.name) fun uses length =>
      .ite (fun _ => ?_) fun _ => .pure ()
    refine (checkTypes_ends i _ (by simpa [length] using count)).bind fun _ => ?_
    exact .ite (fun _ => markDefined_ends i.dest) fun _ => .pure ()
  unfold checkInst
  dsimp only
  split
  · next n arity =>
    refine .ite (fun _ => (Ends.report _).bind fun _ => .pure ()) fun same => main fun k known => ?_
    rw [arity] at known
    cases known
    simpa using same
  · next free => exact main fun n known => by simp [free] at known

theorem checkTerm_ends (t : Term) : Ends f (checkTerm f t) := by
  unfold checkTerm
  split
  · exact (use_ends _ _).bind fun _ => .guard _
  · exact (use_ends _ _).bind fun _ => .guard _
  · exact .guard _
  · exact (use_ends _ _).bind fun _ => .guard _
  · exact .pure ()

theorem checkBlock_ends (edges : List (BlockId × BlockId)) {d : Definedness}
    (sizes : ∀ id s, d.exit? id = some s → s.size = f.regTypes.size) (b : Block) :
    Ends f (checkBlock f edges d b) := by
  have parts : Ends f (do
      b.phis.forM (checkPhi f edges d b)
      b.phis.forM (markDefined ·.dest)
      b.insts.forM (checkInst f)
      checkTerm f b.term) :=
    (Ends.forM (checkPhi_ends edges sizes b) _).bind fun _ =>
      (Ends.forM (fun p : Phi => markDefined_ends p.dest) _).bind fun _ =>
      (Ends.forM checkInst_ends _).bind fun _ => checkTerm_ends b.term
  unfold checkBlock
  dsimp only
  exact .ite (fun _ => (Ends.report _).bind fun _ => parts) fun _ => parts

end Typing

/-- The typing check gives a list of errors for every function that is a declaration or
well numbered. -/
theorem Function.typingErrors_ok {f : Function} (numbered : f.isExternal = false → f.WellNumbered) :
    ∃ errors, f.typingErrors = .ok errors := by
  unfold typingErrors
  cases body : f.isExternal with
  | true => exact ⟨[], rfl⟩
  | false =>
    have numbered := numbered body
    obtain ⟨bs, all⟩ := numbered.allBlocks
    obtain ⟨edges, read⟩ : ∃ edges, f.edges = .ok edges := ⟨_, bind_eq_ok.mpr ⟨bs, all, rfl⟩⟩
    obtain ⟨order, walked, -, listed⟩ := reversePostorder_ok numbered
    have present : ∀ id ∈ order, ∃ b, f.block? id = some b := fun id inside =>
      ((listed id).mp inside).present numbered
    rw [if_neg Bool.false_ne_true, read]
    show ∃ errors, (f.reversePostorder >>= _) = _
    rw [walked]
    refine mapM_bind_ok (Q := fun _ => True) (fun id inside => ?_) fun inBlocks _ => ⟨_, rfl⟩
    obtain ⟨b, found⟩ := present id inside
    obtain ⟨defined, before, size⟩ := size_before edges present inside
    obtain ⟨u, s, ran, -⟩ := Typing.checkBlock_ends edges (definedness_ends present).1.sizes b
      { defined := ((f.definedness edges order).before? b.id).getD #[] }
      (by rw [numbered.number id b found, before]; exact size)
    exact ⟨_, bind_eq_ok.mpr ⟨b, Crash.deref_eq_ok.mpr found, bind_eq_ok.mpr ⟨(u, s), ran, rfl⟩⟩,
      trivial⟩

end TieredEngine.Ir
