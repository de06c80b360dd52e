import TieredEngine.Proofs.Ir.WellTyped

/-!
What the typing check accepts, exactly: functions that have an account of the registers defined on
entry to each block. An account claims nothing that is not defined on every way to the block, and
what the block reads is in it. What the analysis finds is an account, and the largest one: it starts
above all accounts, and no step takes out of it what an account has. So a function is shown to be
accepted by giving an account, without running the analysis.
-/
namespace TieredEngine.Ir

/-- The registers that a block defines by its phis and by the first of its instructions. -/
def Block.defsUpTo (b : Block) (before : List Inst) : List Reg :=
  b.phis.map (·.dest) ++ (before.filter Inst.hasDest).map (·.dest)

theorem Block.mem_defsUpTo {b : Block} {before : List Inst} {r : Reg} :
    r ∈ b.defsUpTo before ↔
      (∃ p ∈ b.phis, p.dest = r) ∨ ∃ i ∈ before, i.hasDest = true ∧ i.dest = r := by
  simp [Block.defsUpTo, and_assoc]

/-- A block is typable on an account of what is defined on entry to the blocks. -/
structure Block.Typable (f : Function) (account : BlockId → Reg → Prop) (id : BlockId) (b : Block) :
    Prop where
  entry : id = f.entry → b.phis = []
  dests : ∀ p ∈ b.phis, f.regType? p.dest = some p.ty
  edges : ∀ p ∈ b.phis, ∀ pred c, f.Reachable pred → f.block? pred = some c →
    id ∈ c.term.successors → (p.valueFor? pred).isSome = true
  inputs : ∀ p ∈ b.phis, ∀ i ∈ p.incoming, ∀ c, f.Reachable i.pred → f.block? i.pred = some c →
    f.regType? i.value = some p.ty ∧ (account i.pred i.value ∨ i.value ∈ c.defs)
  insts : ∀ i ∈ b.insts, i.WellTyped f ∧ ∀ r, i.target? = some r → f.declares r = true
  args : ∀ before i after, b.insts = before ++ i :: after → ∀ r ∈ i.args,
    account id r ∨ r ∈ b.defsUpTo before
  term : b.term.WellTyped f
  uses : ∀ r ∈ b.term.uses, account id r ∨ r ∈ b.defs

/-- A function is typable on an account. -/
structure Function.Typable (f : Function) (account : BlockId → Reg → Prop) : Prop where
  params : ∀ p t, (p, t) ∈ f.params.zip f.sig.params → ∀ s, f.regType? p = some s → s = t
  start : ∀ r, account f.entry r → r ∈ f.params
  flow : ∀ id b s, f.Reachable id → f.block? id = some b → s ∈ b.term.successors → s ≠ f.entry →
    ∀ r, account s r → account id r ∨ r ∈ b.defs
  block : ∀ id b, f.Reachable id → f.block? id = some b → b.Typable f account id

/-- An account claims nothing that is not defined on every way to a block: the parameters on entry to
the function, and from then on what a block defines or has on entry. -/
structure Function.Accounts (f : Function) (account : BlockId → Reg → Prop) : Prop where
  start : ∀ r, account f.entry r → r ∈ f.params
  flow : ∀ id b s, f.Reachable id → f.block? id = some b → s ∈ b.term.successors → s ≠ f.entry →
    ∀ r, account s r → account id r ∨ r ∈ b.defs

theorem Function.Typable.accounts {f : Function} {account : BlockId → Reg → Prop}
    (typable : f.Typable account) : f.Accounts account :=
  ⟨typable.start, typable.flow⟩

/-- What an account has on entry to a block is written on every path to it. -/
theorem Function.Accounts.written {f : Function} {account : BlockId → Reg → Prop}
    (accounts : f.Accounts account) {prev : Option BlockId} {id : BlockId} {written : List Reg}
    (path : f.Arrives prev id written) {r : Reg} (given : account id r) : r ∈ written := by
  induction path with
  | entry => exact accounts.start r given
  | @step prev id s written b before found branch ih =>
    by_cases inner : s = f.entry
    · exact (before.step found branch).params r (accounts.start r (inner ▸ given))
    · rcases accounts.flow id b s before.reachable found branch inner r given with early | own
      · exact List.mem_append_left _ (ih early)
      · exact List.mem_append_right _ (writes_of_defs own)

namespace RegSet

theorem has_insert {s : RegSet} {x r : Reg} :
    (s.insert x).has r = true ↔ s.has r = true ∨ x = r ∧ r.num < s.size := by
  rw [has_iff, has_iff, getElem?_insert, Reg.num_inj]

theorem has_insertAll_iff {s : RegSet} {rs : List Reg} {r : Reg} :
    (rs.foldl insert s).has r = true ↔ s.has r = true ∨ r ∈ rs ∧ r.num < s.size := by
  induction rs generalizing s with
  | nil => simp
  | cons x rs ih =>
    rw [List.foldl_cons, ih, has_insert, size_insert, List.mem_cons]
    grind

theorem has_interAll_iff {ss : List RegSet} {s : RegSet} {r : Reg} :
    (ss.foldl inter s).has r = true ↔ ∀ t ∈ s :: ss, t.has r = true := by
  constructor
  · exact fun has => has_interAll has
  · intro all
    induction ss generalizing s with
    | nil => exact all s (by simp)
    | cons u us ih =>
      apply ih
      intro t member
      rcases List.mem_cons.mp member with rfl | later
      · rw [has_iff, getElem?_inter]
        exact ⟨has_iff.mp (all s (by simp)), has_iff.mp (all u (by simp))⟩
      · exact all t (by simp [later])

end RegSet

theorem Function.declares_iff {f : Function} {r : Reg} :
    f.declares r = true ↔ r.num < f.regTypes.size := by
  simp [declares, regType?]

theorem Function.declares_of_type {f : Function} {r : Reg} {t : Ty}
    (typed : f.regType? r = some t) : f.declares r = true := by
  simp [declares, typed]

theorem Term.WellTyped.declares {f : Function} {t : Term} (typed : t.WellTyped f) {r : Reg}
    (member : r ∈ t.uses) : f.declares r = true := by
  cases t with
  | condBr c yes no =>
    obtain ⟨type, known, -⟩ := typed
    obtain rfl : r = c := by simpa [Term.uses] using member
    exact Function.declares_of_type known
  | switch c cases d =>
    obtain ⟨type, known, -⟩ := typed
    obtain rfl : r = c := by simpa [Term.uses] using member
    exact Function.declares_of_type known
  | ret v? =>
    cases v? with
    | none => cases member
    | some v =>
      obtain rfl : r = v := by simpa [Term.uses] using member
      exact Function.declares_of_type typed
  | _ => cases member

namespace Typing

variable {α β : Type} {f : Function} {s : State}

/-- What is defined after an instruction. -/
def State.after (s : State) (i : Inst) : State :=
  if i.hasDest then { s with defined := s.defined.insert i.dest } else s

/-- An instruction that the check has nothing to say about. -/
structure Fits (f : Function) (defined : RegSet) (i : Inst) : Prop where
  typed : i.WellTyped f
  target : ∀ r, i.target? = some r → f.declares r = true
  args : ∀ r ∈ i.args, defined.has r = true

theorem bind_of_ok {c : Check α} {k : α → Check β} {a : α} {s' : State}
    (first : c s = .ok (a, s')) : (c >>= k) s = k a s' := by
  show (c s >>= fun p => k p.1 p.2) = _
  rw [first]
  rfl

theorem forM_pure {γ : Type} {g : γ → Check Unit} {xs : List γ} (each : ∀ x ∈ xs, g x = pure ()) :
    xs.forM g = pure () := by
  induction xs with
  | nil => rfl
  | cons x xs ih =>
    show (g x >>= fun _ => xs.forM g) = _
    rw [each x (by simp), pure_bind]
    exact ih fun y member => each y (by simp [member])

theorem use_ok {r : Reg} {t : Ty} (known : f.regType? r = some t) (defined : s.defined.has r = true)
    (what : String) : use f r what s = .ok ((t, true), s) := by
  have found : isDefined r s = .ok (true, s) := by
    simp only [isDefined, bind, StateT.bind, get, getThe, MonadStateOf.get, StateT.get, pure,
      Except.pure, Except.bind]
    rw [RegSet.has_iff.mp defined]
    rfl
  unfold use
  simp only [known]
  rw [bind_of_ok found]
  rfl

theorem uses_ok {rs : List Reg} {types : List Ty} (known : f.Types rs types)
    (defined : ∀ r ∈ rs, s.defined.has r = true) (what : String) :
    (rs.mapM fun r => use f r what) s = .ok (types.map (·, true), s) := by
  unfold Function.Types at known
  induction known with
  | nil => rfl
  | cons head _ ih =>
    rw [List.mapM_cons, bind_of_ok (use_ok head (defined _ (by simp)) what),
      bind_of_ok (ih fun r member => defined r (by simp [member]))]
    rfl

theorem write_ok {r : Reg} {t : Ty} (known : f.regType? r = some t) (what : String) :
    write f r t what = pure () := by
  simp [write, known]

/-- An instruction that takes operands of some types has as many as its operation asks for. -/
theorem takes_length {i : Inst} {types : List Ty} (takes : i.Takes f types) {n : Nat}
    (arity : arity? i.op = some n) : types.length = n := by
  unfold Inst.Takes at takes
  split at takes
  case h_10 a _ _ _ _ =>
    rw [arity?_unary takes.1] at arity
    exact Option.some.inj arity
  case h_11 a b =>
    have two : arity? i.op = some 2 := by
      split at takes
      · next binary => exact arity?_binary binary
      · exact arity?_compare takes.1
    exact Option.some.inj (two.symm.trans arity)
  all_goals simp_all [arity?, Op.isUnary]

theorem checkTypes_ok {i : Inst} {types : List Ty} (takes : i.Takes f types)
    (target : ∀ r, i.target? = some r → f.declares r = true) : checkTypes f i types = pure () := by
  have count : ∀ n, arity? i.op = some n → types.length = n := fun n => takes_length takes
  have none : arity? i.op = some 0 → types = [] := fun arity =>
    List.length_eq_zero_iff.mp (count 0 arity)
  unfold checkTypes
  dsimp only
  split
  · next op =>
    obtain rfl := none (by simp [op, arity?])
    exact write_ok (by simpa [Inst.Takes, op] using takes) _
  · next op =>
    obtain rfl := none (by simp [op, arity?])
    exact write_ok (by simpa [Inst.Takes, op] using takes) _
  · next op =>
    obtain rfl := none (by simp [op, arity?])
    exact write_ok (by simpa [Inst.Takes, op] using takes) _
  · next a rest op =>
    obtain rfl : rest = [] := by simpa [op, arity?] using count
    exact write_ok (by simpa [Inst.Takes, op] using takes) _
  · next a rest op =>
    obtain rfl : rest = [] := by simpa [op, arity?] using count
    obtain ⟨source, dest, typed⟩ : a ≠ .void ∧ i.ty ≠ .void ∧ f.regType? i.dest = some i.ty := by
      simpa [Inst.Takes, op] using takes
    rw [if_neg (by simp [source, dest])]
    exact write_ok typed _
  · next c a b rest op =>
    obtain rfl : rest = [] := by simpa [op, arity?] using count
    obtain ⟨cond, same, typed⟩ : c = .bool ∧ a = b ∧ f.regType? i.dest = some a := by
      simpa [Inst.Takes, op] using takes
    rw [if_neg (by simp [cond, same])]
    exact write_ok typed _
  · next op =>
    apply if_neg
    rintro ⟨present, undeclared⟩
    have declared := target i.dest (by simp [Inst.target?, op, present])
    simp [Function.declares, Option.isNone_iff_eq_none.mp undeclared] at declared
  · rfl
  · rfl
  · next op short =>
    obtain ⟨c, a, b, rfl⟩ := List.length_eq_three.mp (count 3 (by simp [op, arity?]))
    exact (short c a b [] rfl).elim
  · next a rest _ _ _ _ _ _ _ _ _ _ =>
    rcases Op.kinds i.op with unary | binary | compares | plain
    · obtain rfl : rest = [] := by simpa using count 1 (arity?_unary unary)
      obtain ⟨same, typed⟩ := (Inst.takes_unary unary).mp takes
      rw [if_pos unary, if_neg (not_not.mpr same)]
      exact write_ok typed _
    · obtain ⟨b, rfl⟩ : ∃ b, rest = [b] := by
        simpa [List.length_eq_one_iff] using count 2 (arity?_binary binary)
      obtain ⟨left, right, typed⟩ := (Inst.takes_binary binary).mp takes
      rw [if_neg (by simp [Op.isUnary_of_binary binary])]
      dsimp only
      rw [if_pos binary, if_neg (by simp [left, right])]
      exact write_ok typed _
    · obtain ⟨b, rfl⟩ : ∃ b, rest = [b] := by
        simpa [List.length_eq_one_iff] using count 2 (arity?_compare compares)
      obtain ⟨notUnary, notBinary⟩ := Op.other_of_compare compares
      obtain ⟨same, typed⟩ := (Inst.takes_compare compares).mp takes
      rw [if_neg (by simp [notUnary])]
      dsimp only
      rw [if_neg (by simp [notBinary]), if_neg (not_not.mpr same)]
      exact write_ok typed _
    · simp_all [Op.plain]
  · exfalso
    cases arity : arity? i.op with
    | none => simp_all [call_of_arity arity]
    | some n =>
      cases count n arity
      rcases nullary_of_arity arity with op | op | op | op <;> simp_all

theorem checkInst_ok {i : Inst} (fits : Fits f s.defined i) :
    checkInst f i s = .ok ((), s.after i) := by
  obtain ⟨types, known, takes⟩ := fits.typed
  have length : i.args.length = types.length := List.Forall₂.length_eq known
  have all : (types.map (·, true)).all (·.2) = true := by simp
  have main : (do
      let uses ← i.args.mapM fun r => use f r i.op.name
      if uses.all (·.2) then
        checkTypes f i (uses.map (·.1))
        if i.hasDest then markDefined i.dest : Check Unit) s = .ok ((), s.after i) := by
    rw [bind_of_ok (uses_ok known fits.args _), if_pos all, List.map_map]
    show ((checkTypes f i (types.map fun t => t)) >>= _) s = _
    rw [List.map_id', checkTypes_ok takes fits.target, pure_bind]
    unfold State.after
    split <;> rfl
  unfold checkInst
  cases arity : arity? i.op with
  | none => exact main
  | some n =>
    dsimp only
    rw [if_neg (not_not.mpr (length.trans (takes_length takes arity)))]
    exact main

/-- A clean check of an instruction says that it fits, and nothing else is done. -/
theorem checkInst_fits (i : Inst) :
    Clean (checkInst f i) fun s _ s' => Fits f s.defined i ∧ s' = s.after i := by
  intro s a s' ran empty
  obtain ⟨start, args, target, -⟩ := checkInst_clean i s a s' ran empty
  have fits : Fits f s.defined i := ⟨(checkInst_wellTyped i s a s' ran empty).2, target, args⟩
  cases ran.symm.trans (checkInst_ok fits)
  exact ⟨start, fits, rfl⟩

/-- What is defined after several instructions. -/
theorem foldl_after (is : List Inst) (s : State) : is.foldl State.after s =
    { s with defined := ((is.filter Inst.hasDest).map (·.dest)).foldl RegSet.insert s.defined } := by
  induction is generalizing s with
  | nil => rfl
  | cons i is ih =>
    rw [List.foldl_cons, ih]
    unfold State.after
    by_cases defines : i.hasDest = true
    · simp [defines]
    · simp [defines]

theorem insts_ok {is : List Inst} (fits : ∀ before i after, is = before ++ i :: after →
    Fits f (before.foldl State.after s).defined i) :
    is.forM (checkInst f) s = .ok ((), is.foldl State.after s) := by
  induction is generalizing s with
  | nil => rfl
  | cons i is ih =>
    show (checkInst f i >>= fun _ => is.forM (checkInst f)) s = _
    have first : Fits f s.defined i := fits [] i is rfl
    rw [bind_of_ok (checkInst_ok first)]
    exact ih fun before j after split => fits (i :: before) j after (by rw [split, List.cons_append])

theorem insts_fit (is : List Inst) :
    Clean (is.forM (checkInst f)) fun s _ s' =>
      (∀ before i after, is = before ++ i :: after →
        Fits f (before.foldl State.after s).defined i) ∧ s' = is.foldl State.after s := by
  induction is with
  | nil =>
    refine (Clean.pure ()).mono ?_
    rintro s _ s' ⟨_, rfl⟩
    simp
  | cons i is ih =>
    refine ((checkInst_fits i).bind fun _ => ih).mono ?_
    rintro s _ s'' ⟨_, _, ⟨first, rfl⟩, rest, rfl⟩
    refine ⟨fun before j after split => ?_, rfl⟩
    cases before with
    | nil =>
      obtain ⟨rfl, rfl⟩ := List.cons.inj split
      exact first
    | cons k before =>
      obtain ⟨rfl, later⟩ := List.cons.inj split
      exact rest before j after later

theorem markAll_ok (ps : List Phi) (s : State) : ps.forM (markDefined ·.dest) s =
    .ok ((), { s with defined := (ps.map (·.dest)).foldl RegSet.insert s.defined }) := by
  induction ps generalizing s with
  | nil => rfl
  | cons p ps ih =>
    show (markDefined p.dest >>= fun _ => ps.forM (markDefined ·.dest)) s = _
    rw [bind_of_ok (show markDefined p.dest s = .ok ((), _) from rfl), ih]
    rfl

theorem checkTerm_ok {t : Term} (typed : t.WellTyped f)
    (defined : ∀ r ∈ t.uses, s.defined.has r = true) : checkTerm f t s = .ok ((), s) := by
  cases t with
  | condBr c yes no =>
    obtain ⟨type, known, word⟩ := typed
    unfold checkTerm
    dsimp only
    rw [bind_of_ok (use_ok known (defined c (by simp [Term.uses])) _)]
    simp only [word, Bool.not_true, Bool.and_false]
    rfl
  | switch c cases d =>
    obtain ⟨type, known, word⟩ := typed
    unfold checkTerm
    dsimp only
    rw [bind_of_ok (use_ok known (defined c (by simp [Term.uses])) _)]
    simp only [word, Bool.not_true, Bool.and_false]
    rfl
  | ret v? =>
    cases v? with
    | none =>
      unfold checkTerm
      dsimp only
      have void : f.sig.ret = .void := typed
      rw [if_neg (not_not.mpr void)]
      rfl
    | some v =>
      unfold checkTerm
      dsimp only
      rw [bind_of_ok (use_ok typed (defined v (by simp [Term.uses])) _)]
      simp
      rfl
  | _ => rfl

/-- The phis of a block with the edges and the inputs that the check looks at. -/
structure PhiFits (f : Function) (edges : List (BlockId × BlockId)) (d : Definedness) (b : Block)
    (p : Phi) : Prop where
  dest : f.regType? p.dest = some p.ty
  edges : ∀ pred ∈ Function.predecessorsIn edges b.id, (d.exit? pred).isSome = true →
    (p.valueFor? pred).isSome = true
  inputs : ∀ i ∈ p.incoming, ∀ out, d.exit? i.pred = some out →
    f.regType? i.value = some p.ty ∧ out.has i.value = true

theorem checkPhi_ok {edges : List (BlockId × BlockId)} {d : Definedness} {b : Block} {p : Phi}
    (fits : PhiFits f edges d b p) : checkPhi f edges d b p = pure () := by
  have edge : ∀ pred ∈ Function.predecessorsIn edges b.id, checkEdge d p pred = pure () := by
    intro pred member
    apply if_neg
    intro missing
    rw [Bool.and_eq_true] at missing
    have given := fits.edges pred member missing.1
    rw [Option.isNone_iff_eq_none.mp missing.2] at given
    cases given
  have input : ∀ i ∈ p.incoming, checkInput f d p i = pure () := by
    intro i member
    unfold checkInput
    split
    · rfl
    · next out exit =>
      obtain ⟨typed, defined⟩ := fits.inputs i member out exit
      simp [typed, RegSet.has_iff.mp defined]
  unfold checkPhi
  rw [write_ok fits.dest, pure_bind, forM_pure edge, pure_bind, forM_pure input]

theorem Clean.and {c : Check α} {P Q : State → α → State → Prop} (first : Clean c P)
    (second : Clean c Q) : Clean c fun s a s' => P s a s' ∧ Q s a s' := by
  intro s a s' ran empty
  obtain ⟨start, left⟩ := first s a s' ran empty
  exact ⟨start, left, (second s a s' ran empty).2⟩

theorem checkPhi_fits (edges : List (BlockId × BlockId)) (d : Definedness) (b : Block) (p : Phi) :
    Clean (checkPhi f edges d b p) fun s _ s' => s' = s ∧ PhiFits f edges d b p := by
  refine (((write_clean p.dest p.ty "phi").and (write_types p.dest p.ty "phi")).bind fun _ =>
    (Clean.forM (P := fun _ pred => (d.exit? pred).isSome = true → (p.valueFor? pred).isSome = true)
      fun pred _ => checkEdge_clean d p pred).bind fun _ =>
    Clean.forM (P := fun _ i => ∀ out, d.exit? i.pred = some out →
      f.regType? i.value = some p.ty ∧ out.has i.value = true) fun i _ =>
      ((checkInput_clean d p i).and (checkInput_typed d p i)).mono ?_).mono ?_
  · rintro s _ s' ⟨⟨same, defined⟩, typed⟩
    exact ⟨same, fun out exit => ⟨typed (by simp [exit]), defined out exit⟩⟩
  · rintro s _ s₃ ⟨_, s₁, ⟨⟨rfl, _⟩, dest⟩, _, s₂, ⟨rfl, given⟩, rfl, inputs⟩
    exact ⟨rfl, dest, given, inputs⟩

/-- A block that the check has nothing to say about, given what is defined on entry to it. -/
structure BlockFits (f : Function) (edges : List (BlockId × BlockId)) (d : Definedness) (b : Block)
    (defined : RegSet) : Prop where
  entry : b.id = f.entry → b.phis = []
  phis : ∀ p ∈ b.phis, PhiFits f edges d b p
  insts : ∀ before i after, b.insts = before ++ i :: after →
    Fits f ((b.defsUpTo before).foldl RegSet.insert defined) i
  term : b.term.WellTyped f
  uses : ∀ r ∈ b.term.uses, (b.defs.foldl RegSet.insert defined).has r = true

theorem foldl_after_phis (b : Block) (before : List Inst) (s : State) :
    before.foldl State.after
      { s with defined := (b.phis.map (·.dest)).foldl RegSet.insert s.defined } =
      { s with defined := (b.defsUpTo before).foldl RegSet.insert s.defined } := by
  rw [foldl_after, Block.defsUpTo, List.foldl_append]

theorem checkBlock_parts {edges : List (BlockId × BlockId)} {d : Definedness} {b : Block}
    (entry : b.id = f.entry → b.phis = []) : checkBlock f edges d b = (do
      b.phis.forM (checkPhi f edges d b)
      b.phis.forM (markDefined ·.dest)
      b.insts.forM (checkInst f)
      checkTerm f b.term) := by
  unfold checkBlock
  apply if_neg
  intro wrong
  simp only [Bool.and_eq_true, Bool.not_eq_true', List.isEmpty_eq_false_iff, beq_iff_eq] at wrong
  exact wrong.1 (entry wrong.2)

theorem checkBlock_ok {edges : List (BlockId × BlockId)} {d : Definedness} {b : Block}
    (fits : BlockFits f edges d b s.defined) : checkBlock f edges d b s =
      .ok ((), { s with defined := b.defs.foldl RegSet.insert s.defined }) := by
  have insts : b.insts.forM (checkInst f)
      { s with defined := (b.phis.map (·.dest)).foldl RegSet.insert s.defined } =
      .ok ((), { s with defined := b.defs.foldl RegSet.insert s.defined }) := by
    rw [insts_ok fun before i after split => ?_, foldl_after_phis b b.insts]
    · rfl
    · rw [foldl_after_phis]
      exact fits.insts before i after split
  rw [checkBlock_parts fits.entry]
  rw [forM_pure fun p member => checkPhi_ok (fits.phis p member), pure_bind,
    bind_of_ok (markAll_ok b.phis s), bind_of_ok insts]
  exact checkTerm_ok fits.term fits.uses

theorem checkBlock_fits (edges : List (BlockId × BlockId)) (d : Definedness) (b : Block) :
    Clean (checkBlock f edges d b) fun s _ _ => BlockFits f edges d b s.defined := by
  intro s a s' ran empty
  have entry := (checkBlock_clean edges d b s a s' ran empty).2.entry
  rw [checkBlock_parts entry] at ran
  have marked : Clean (b.phis.forM (markDefined ·.dest)) fun s _ s' =>
      s' = { s with defined := (b.phis.map (·.dest)).foldl RegSet.insert s.defined } := by
    intro s a s' ran empty
    cases ran.symm.trans (markAll_ok b.phis s)
    exact ⟨empty, rfl⟩
  have phis : Clean (b.phis.forM (checkPhi f edges d b)) fun s _ s' =>
      s' = s ∧ ∀ p ∈ b.phis, PhiFits f edges d b p :=
    Clean.forM fun p _ => checkPhi_fits edges d b p
  have parts := phis.bind fun _ => marked.bind fun _ => (insts_fit (f := f) b.insts).bind fun _ =>
    (checkTerm_clean (f := f) b.term).and (checkTerm_wellTyped b.term)
  obtain ⟨start, _, _, ⟨rfl, phis⟩, _, _, rfl, _, _, ⟨insts, rfl⟩, uses, term⟩ :=
    parts s a s' ran empty
  refine ⟨start, entry, phis, fun before i after split => ?_, term, ?_⟩
  · have fits := insts before i after split
    rw [foldl_after_phis] at fits
    exact fits
  · rw [foldl_after_phis] at uses
    exact uses

end Typing

namespace Function
variable {f : Function} {edges : List (BlockId × BlockId)} {order : List BlockId}
  {account : BlockId → Reg → Prop}

/-- The analysis has not fallen below an account. -/
structure Covers (f : Function) (account : BlockId → Reg → Prop) (order : List BlockId)
    (d : Definedness) : Prop where
  listed : ∀ id s, d.exit? id = some s → id ∈ order
  exits : ∀ id s b, d.exit? id = some s → f.block? id = some b →
    ∀ r, f.declares r = true → account id r ∨ r ∈ b.defs → s.has r = true

theorem mem_predecessors (numbered : f.WellNumbered) (read : f.edges = .ok edges) {id s : BlockId}
    {b : Block} (found : f.block? id = some b) (branch : s ∈ b.term.successors) :
    id ∈ predecessorsIn edges s := by
  apply List.mem_map.mpr
  refine ⟨(id, s), List.mem_filter.mpr ⟨mem_edges numbered read found branch, ?_⟩, rfl⟩
  simp

theorem branch_of_predecessor (numbered : f.WellNumbered) (read : f.edges = .ok edges)
    {id s : BlockId} (pred : id ∈ predecessorsIn edges s) :
    ∃ b, f.block? id = some b ∧ s ∈ b.term.successors := by
  obtain ⟨⟨_, target⟩, member, rfl⟩ := List.mem_map.mp pred
  obtain ⟨listed, same⟩ := List.mem_filter.mp member
  obtain rfl : target = s := by simpa using same
  obtain ⟨bs, all, whole⟩ := bind_eq_ok.mp read
  cases whole
  obtain ⟨b, among, edge⟩ := List.mem_flatMap.mp listed
  obtain ⟨t, branch, pair⟩ := List.mem_map.mp edge
  cases pair
  exact ⟨b, numbered.block?_of_mem all among, branch⟩

section Analysis
variable (numbered : f.WellNumbered) (read : f.edges = .ok edges)
  (reached : ∀ id, id ∈ order ↔ f.Reachable id)
include numbered read reached

/-- What an account has on entry to a block is found by the analysis. -/
theorem Accounts.entrySet (accounts : f.Accounts account) {d : Definedness}
    (down : Descending f edges order d) (covers : f.Covers account order d) {id : BlockId}
    (member : id ∈ order) {r : Reg} (declared : f.declares r = true) (given : account id r) :
    (f.entrySet edges d id).has r = true := by
  unfold Function.entrySet
  split
  · next same =>
    subst same
    unfold paramSet
    rw [RegSet.has_insertAll_iff]
    right
    exact ⟨accounts.start r given, by simpa using declares_iff.mp declared⟩
  · next inner =>
    have all : ∀ t ∈ (predecessorsIn edges id).filterMap d.exit?, t.has r = true := by
      intro t among
      obtain ⟨p, pred, exit⟩ := List.mem_filterMap.mp among
      obtain ⟨b, found, branch⟩ := branch_of_predecessor numbered read pred
      have live := (reached p).mp (covers.listed p t exit)
      exact covers.exits p t b exit found r declared
        (accounts.flow p b id live found branch inner r given)
    -- a reachable block other than the entry has a reachable predecessor
    have some : ∃ t, t ∈ (predecessorsIn edges id).filterMap d.exit? := by
      cases (reached id).mp member with
      | entry => exact absurd rfl inner
      | @step pred _ b before found branch =>
        obtain ⟨t, exit, -⟩ := down.above pred ((reached pred).mpr before) b found
        exact ⟨t, List.mem_filterMap.mpr ⟨pred, mem_predecessors numbered read found branch, exit⟩⟩
    revert all some
    cases (predecessorsIn edges id).filterMap d.exit? with
    | nil => simp
    | cons t ts => exact fun all _ => RegSet.has_interAll_iff.mpr all

theorem Accounts.exitSet (accounts : f.Accounts account) {d : Definedness}
    (down : Descending f edges order d) (covers : f.Covers account order d) {id : BlockId}
    (member : id ∈ order) {b : Block} {r : Reg} (declared : f.declares r = true)
    (given : account id r ∨ r ∈ b.defs) : (f.exitSet edges d id b).has r = true := by
  unfold Function.exitSet
  rw [RegSet.has_insertAll_iff]
  rcases given with early | own
  · exact .inl (accounts.entrySet numbered read reached down covers member declared early)
  · right
    rw [size_entrySet down.sizes]
    exact ⟨own, declares_iff.mp declared⟩

theorem Accounts.flowStep (accounts : f.Accounts account) {d : Definedness}
    (down : Descending f edges order d) (covers : f.Covers account order d) {id : BlockId}
    (member : id ∈ order) (c : Bool) : f.Covers account order (f.flowStep edges (d, c) id).1 := by
  obtain ⟨b, found⟩ := ((reached id).mp member).present numbered
  unfold Function.flowStep
  simp only [found]
  split
  · exact ⟨covers.listed, covers.exits⟩
  · have bound : id.num < d.exit.size := by
      rw [down.exits]
      exact (Array.getElem?_eq_some_iff.mp (block?_eq_some.mp found)).1
    have exits : ∀ x, Definedness.exit?
        { entry := d.entry.setIfInBounds id.num (some (f.entrySet edges d id))
          exit := d.exit.setIfInBounds id.num (some (f.exitSet edges d id b)) } x =
        if x = id then some (f.exitSet edges d id b) else d.exit? x := fun x => exit?_set bound
    change f.Covers account order
      { entry := d.entry.setIfInBounds id.num (some (f.entrySet edges d id))
        exit := d.exit.setIfInBounds id.num (some (f.exitSet edges d id b)) }
    constructor
    · intro x s exit
      rw [exits x] at exit
      split at exit
      · next same => exact same ▸ member
      · exact covers.listed x s exit
    · intro x s c exit present r declared given
      rw [exits x] at exit
      split at exit
      · next same =>
        subst same
        cases found.symm.trans present
        cases exit
        exact accounts.exitSet numbered read reached down covers member declared given
      · exact covers.exits x s c exit present r declared given

theorem Accounts.flowRound (accounts : f.Accounts account) {ids : List BlockId}
    (listed : ∀ id ∈ ids, id ∈ order) {d : Definedness} (down : Descending f edges order d)
    (covers : f.Covers account order d) (c : Bool) :
    f.Covers account order (ids.foldl (f.flowStep edges) (d, c)).1 := by
  induction ids generalizing d c with
  | nil => exact covers
  | cons id ids ih =>
    have member := listed id (by simp)
    obtain ⟨b, found⟩ := ((reached id).mp member).present numbered
    have next := accounts.flowStep numbered read reached down covers member c
    obtain ⟨d', c', stepped, down', -⟩ := flowStep_spec down member found c
    rw [stepped] at next
    rw [List.foldl_cons, stepped]
    exact ih (fun x later => listed x (by simp [later])) down' next c'

theorem Accounts.flow_covers (accounts : f.Accounts account) (fuel : Nat) {d : Definedness}
    (down : Descending f edges order d) (covers : f.Covers account order d) :
    Descending f edges order (f.flow edges order fuel d) ∧
      f.Covers account order (f.flow edges order fuel d) := by
  induction fuel generalizing d with
  | zero => exact ⟨down, covers⟩
  | succ fuel ih =>
    have present : ∀ id ∈ order, ∃ b, f.block? id = some b := fun id member =>
      ((reached id).mp member).present numbered
    have round := accounts.flowRound numbered read reached (fun _ member => member) down covers false
    obtain ⟨d', c', rounds, down', -⟩ := flowRound_spec down (fun _ member => member) present false
    rw [rounds] at round
    unfold Function.flow
    rw [rounds]
    dsimp only
    split
    · exact ih down' round
    · exact ⟨down', round⟩

/-- The check has nothing to say about a block when the analysis covers an account that the block is
typable on. -/
theorem Typable.fits (typable : f.Typable account) {d : Definedness}
    (down : Descending f edges order d) (covers : f.Covers account order d) {id : BlockId}
    (member : id ∈ order) {b : Block} (found : f.block? id = some b) :
    Typing.BlockFits f edges d b (f.entrySet edges d id) := by
  have fine := typable.block id b ((reached id).mp member) found
  have number := numbered.number id b found
  have entered : ∀ (before : List Inst) r, f.declares r = true →
      account id r ∨ r ∈ b.defsUpTo before →
      ((b.defsUpTo before).foldl RegSet.insert (f.entrySet edges d id)).has r = true := by
    intro before r declared given
    rw [RegSet.has_insertAll_iff]
    rcases given with early | own
    · exact .inl (typable.accounts.entrySet numbered read reached down covers member declared early)
    · right
      rw [size_entrySet down.sizes]
      exact ⟨own, declares_iff.mp declared⟩
  constructor
  case entry => exact fun same => fine.entry (number.symm.trans same)
  case phis =>
    intro p inside
    constructor
    case dest => exact fine.dests p inside
    case edges =>
      intro pred among exit
      obtain ⟨c, present, branch⟩ := branch_of_predecessor numbered read among
      obtain ⟨out, left⟩ := Option.isSome_iff_exists.mp exit
      rw [number] at branch
      exact fine.edges p inside pred c ((reached pred).mp (covers.listed pred out left)) present branch
    case inputs =>
      intro i input out left
      have live := (reached i.pred).mp (covers.listed i.pred out left)
      obtain ⟨c, present⟩ := live.present numbered
      obtain ⟨typed, given⟩ := fine.inputs p inside i input c live present
      exact ⟨typed, covers.exits i.pred out c left present i.value (declares_of_type typed) given⟩
  case insts =>
    intro before i after split
    obtain ⟨typed, target⟩ := fine.insts i (by simp [split])
    refine ⟨typed, target, fun r inside => ?_⟩
    obtain ⟨types, known, -⟩ := typed
    obtain ⟨t, -, type⟩ := forall₂_partner known inside
    exact entered before r (declares_of_type type) (fine.args before i after split r inside)
  case term => exact fine.term
  case uses =>
    exact fun r inside => entered b.insts r (fine.term.declares inside) (fine.uses r inside)

omit reached in
/-- A block that the check has nothing to say about is typable on what the analysis has found. -/
theorem block_typable {d : Definedness} (settled : ∀ id b, f.Reachable id → f.block? id = some b →
    SettledAt f edges d id b) {id : BlockId} {b : Block} (found : f.block? id = some b)
    (fits : Typing.BlockFits f edges d b (f.entrySet edges d id)) :
    b.Typable f (fun id r => (f.entrySet edges d id).has r = true) id := by
  have number := numbered.number id b found
  constructor
  case entry => exact fun same => fits.entry (number.trans same)
  case dests => exact fun p member => (fits.phis p member).dest
  case edges =>
    intro p member pred c before present branch
    apply (fits.phis p member).edges pred
    · rw [number]
      exact mem_predecessors numbered read present branch
    · rw [(settled pred c before present).2]
      rfl
  case inputs =>
    intro p member i inside c before present
    obtain ⟨typed, has⟩ := (fits.phis p member).inputs i inside _ (settled _ c before present).2
    exact ⟨typed, RegSet.has_insertAll has⟩
  case insts =>
    intro i member
    obtain ⟨before, after, split⟩ := List.append_of_mem member
    have one := fits.insts before i after split
    exact ⟨one.typed, one.target⟩
  case args =>
    exact fun before i after split r member =>
      RegSet.has_insertAll ((fits.insts before i after split).args r member)
  case term => exact fits.term
  case uses => exact fun r member => RegSet.has_insertAll (fits.uses r member)

end Analysis

/-- At the start every block that the analysis looks at has all registers. -/
theorem covers_start (f : Function) (account : BlockId → Reg → Prop) (order : List BlockId) :
    f.Covers account order (f.definednessStart order) := by
  constructor
  · intro id s exit
    have fill : ∀ (ids : List BlockId) (a : Array (Option RegSet)) (full : RegSet),
        (ids.foldl (fun a x => a.setIfInBounds x.num (some full)) a)[id.num]? = some (some s) →
        id ∈ ids ∨ a[id.num]? = some (some s) := by
      intro ids
      induction ids with
      | nil => exact fun a _ same => .inr same
      | cons x xs ih =>
        intro a full filled
        rcases ih _ full filled with later | first
        · exact .inl (List.mem_cons_of_mem _ later)
        · rw [Array.getElem?_setIfInBounds] at first
          split at first
          · next same => exact .inl (by simp [BlockId.num_inj.mp same])
          · exact .inr first
    rcases fill order _ _ (Option.join_eq_some_iff.mp exit) with listed | none
    · exact listed
    · simp [Array.getElem?_replicate] at none
  · intro id s b exit _ r declared _
    rw [exit?_start_eq exit, RegSet.has_iff]
    simp [declares_iff.mp declared]

theorem paramErrors_eq_nil (params : ∀ p t, (p, t) ∈ f.params.zip f.sig.params →
    ∀ s, f.regType? p = some s → s = t) : f.paramErrors = [] := by
  unfold paramErrors
  rw [List.flatten_eq_nil_iff]
  intro errors member
  obtain ⟨n, bound, rfl⟩ := List.mem_mapIdx.mp member
  dsimp only
  split
  · next t known =>
    apply if_neg
    exact not_not.mpr (params _ _ (List.getElem_mem bound) t known)
  · rfl

/-- What the analysis finds of an accepted function is an account that it is typable on. -/
theorem typable_of_typed (numbered : f.WellNumbered) (body : f.isExternal = false)
    (typed : f.typingErrors = .ok []) : ∃ account, f.Typable account := by
  obtain ⟨edges, order, read, walked, params, ran⟩ := clean_of_typed body typed
  obtain ⟨order', walked', -, listed⟩ := reversePostorder_ok numbered
  cases walked.symm.trans walked'
  have settled : ∀ id b, f.Reachable id → f.block? id = some b →
      SettledAt f edges (f.definedness edges order) id b := fun id b live found =>
    definedness_settled (fun x member => ((listed x).mp member).present numbered) id
      ((listed id).mpr live) b found
  generalize f.definedness edges order = d at ran settled
  refine ⟨fun id r => (f.entrySet edges d id).has r = true, ?_⟩
  constructor
  case params => exact params_of_paramErrors params
  case start =>
    intro r has
    rw [entrySet, if_pos rfl] at has
    exact has_paramSet has
  case flow =>
    intro id b s live found branch inner r has
    have among : f.exitSet edges d id b ∈ (predecessorsIn edges s).filterMap d.exit? := by
      refine List.mem_filterMap.mpr ⟨id, ?_, (settled id b live found).2⟩
      exact mem_predecessors numbered read found branch
    rw [entrySet, if_neg inner] at has
    revert has among
    cases (predecessorsIn edges s).filterMap d.exit? with
    | nil => simp
    | cons t ts => exact fun has among => RegSet.has_insertAll (RegSet.has_interAll has _ among)
  case block =>
    intro id b live found
    obtain ⟨u, s, checked, clean⟩ := ran id ((listed id).mpr live) b found
    have fits := (Typing.checkBlock_fits edges d b _ u s checked clean).2
    rw [numbered.number id b found, (settled id b live found).1, Option.getD_some] at fits
    exact block_typable numbered read settled found fits

/-- A function that is typable on some account is accepted. -/
theorem Typable.typed (numbered : f.WellNumbered) (body : f.isExternal = false)
    (typable : f.Typable account) : f.typingErrors = .ok [] := by
  obtain ⟨bs, all⟩ := numbered.allBlocks
  obtain ⟨edges, read⟩ : ∃ edges, f.edges = .ok edges := ⟨_, bind_eq_ok.mpr ⟨bs, all, rfl⟩⟩
  obtain ⟨order, walked, -, listed⟩ := reversePostorder_ok numbered
  have settled : ∀ id ∈ order, ∀ b, f.block? id = some b →
      SettledAt f edges (f.definedness edges order) id b :=
    definedness_settled fun x member => ((listed x).mp member).present numbered
  obtain ⟨down, covers⟩ := typable.accounts.flow_covers numbered read listed
    (order.length * f.regTypes.size + 2) descending_start (covers_start f account order)
  unfold typingErrors
  rw [if_neg (by simp [body])]
  refine bind_eq_ok.mpr ⟨edges, read, bind_eq_ok.mpr ⟨order, walked, bind_eq_ok.mpr
    ⟨order.map fun _ => [], mapM_eq_map ?_, ?_⟩⟩⟩
  · intro id member
    obtain ⟨b, found⟩ := ((listed id).mp member).present numbered
    have fits := typable.fits numbered read listed down covers member found
    have entered : ((f.definedness edges order).before? b.id).getD #[] =
        f.entrySet edges (f.definedness edges order) id := by
      rw [numbered.number id b found, (settled id member b found).1, Option.getD_some]
    rw [found]
    refine bind_eq_ok.mpr ⟨b, rfl, bind_eq_ok.mpr ⟨_, Typing.checkBlock_ok ?_, rfl⟩⟩
    rw [entered]
    exact fits
  · rw [paramErrors_eq_nil typable.params]
    simp
    rfl

end Function
end TieredEngine.Ir
