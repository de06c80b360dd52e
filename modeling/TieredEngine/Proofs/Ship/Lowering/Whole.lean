import TieredEngine.Proofs.Ir.WellFormed
import TieredEngine.Proofs.Ship.Lowering.Safety

/-!
Lowering bodies and whole modules. The blocks of a body that are lowered are those that can be
reached; in a function that the structural check accepts all of them are there, and so is whatever
they go to, so a body keeps the tables and ends unless its instructions crash. For a module the tables
start with what the source has, each body is lowered into them, and a wrapper comes last. An accepted
module that is lowered crashes only as its bodies may, or when the function that is to be wrapped is
not one of its own.
-/
namespace TieredEngine.Ship.Lowering
open TieredEngine TieredEngine.Llvm

variable {may : Crash → Prop} {m : Ir.Module} {o : LowerOptions} {f : Ir.Function}

theorem target_keeps {b : Ir.BlockId} (inside : b.num < f.blocks.size) :
    Keeps may (Sound may m o f) (target f b) fun _ => True :=
  Ends.ite (fun _ => Keeps.pure trivial) fun outside => absurd inside outside

theorem term_keeps {t : Ir.Term} (targets : ∀ s ∈ t.successors, s.num < f.blocks.size)
    (fits : ¬ may .illTyped → t.OnWord f) :
    Keeps may (Sound may m o f) (term f t) fun _ => True := by
  have finish : ∀ T : Llvm.Term, Keeps may (Sound may m o f)
      (do terminate (← get).current T : Lower Unit) fun _ => True :=
    fun T => .bind_get fun _ _ => terminate_keeps _ T
  cases t with
  | br b => exact (target_keeps (targets b (by simp [Ir.Term.successors]))).bind fun _ _ => finish _
  | condBr c yes no =>
    have jump : ∀ cond : Val, Keeps may (Sound may m o f) (do
        let yes ← target f yes
        let no ← target f no
        (do terminate (← get).current (.condBr cond yes no) : Lower Unit)) fun _ => True := fun cond =>
      (target_keeps (targets yes (by simp [Ir.Term.successors]))).bind fun _ _ =>
        (target_keeps (targets no (by simp [Ir.Term.successors]))).bind fun _ _ => finish _
    refine (use_keeps c).bind fun cond typed => Ends.ite (fun _ => jump cond) fun _ =>
      (icmp_keeps _ _ fun strict => ?_).bind fun bit _ => jump bit
    obtain ⟨t, known, word⟩ := fits strict
    have typed := typed strict
    rw [regType_of known] at typed
    exact typed.isInt word
  | switch c cases d =>
    refine Ends.ite (fun _ => Ends.error_bind _) fun _ => ?_
    refine (Keeps.mapM (T := fun _ _ => True) fun k member => ?_).bind fun _ _ =>
      (use_keeps c).bind fun _ _ => (target_keeps ?_).bind fun _ _ => finish _
    · refine (target_keeps (targets k.target ?_)).bind fun _ _ => Keeps.pure trivial
      have listed := distinctCases_subset _ _ _ member
      simp only [Ir.Term.successors, List.mem_append, List.mem_map]
      exact .inl ⟨k, listed, rfl⟩
    · exact targets d (by simp [Ir.Term.successors])
  | ret r? =>
    cases r? with
    | none => exact finish _
    | some r => exact Ends.ite (fun _ => finish _) fun _ => (use_any r _).bind fun _ _ => finish _
  | missing => exact finish _
  | unreachable => exact finish _

theorem putPhi_keeps (id : Ir.BlockId) (lowered position : Nat) {p : Ir.Phi}
    (fits : ¬ may .illTyped → f.regType? p.dest = some p.ty) :
    Keeps may (Sound may m o f) (putPhi id lowered p position) fun _ => True := by
  refine (orFail_keeps _ _).bind fun ty known => (emitTo_keeps _ _).bind fun v same => ?_
  refine (define_keeps fun strict => ?_).bind fun _ _ => Keeps.pure trivial
  rw [regType_of (fits strict)]
  exact ofType_of_eq (known.trans (congrArg some same.symm))

/-- The inputs of a phi are given as they are found. -/
theorem completePhi_keeps (hasStart : Bool) (exits : List (Nat × BlockName)) (w : WaitingPhi) :
    Keeps may (Sound may m o f) (completePhi f hasStart exits w) fun _ => True := by
  refine Keeps.bind (R := fun _ => True) ?_ fun _ _ => Keeps.of_modify fun _ sound =>
    sound.blocks _ _ _ _
  refine (Keeps.mapM (T := fun _ _ => True) fun i _ => ?_).bind fun _ _ => Keeps.pure trivial
  split
  · exact (use_any _ _).bind fun _ _ => Keeps.pure trivial
  · exact Keeps.pure trivial

/-- Parameters are put into registers of their types. -/
theorem bindParams_keeps (count : f.params.length = f.sig.params.length)
    (fits : ¬ may .illTyped → ∀ p t, (p, t) ∈ f.params.zip f.sig.params →
      ∀ s, f.regType? p = some s → s = t) :
    Keeps may (Sound may m o f) (bindParams f) fun _ => True := by
  refine (Keeps.forIn fun (r, k) member => ?_).bind fun _ _ => Keeps.pure trivial
  obtain ⟨bound, at_k⟩ := List.getElem?_eq_some_iff.mp (List.mk_mem_zipIdx_iff_getElem?.mp member)
  have bound' : k < f.sig.params.length := count ▸ bound
  refine Ends.ite (fun _ => ?_) fun _ => Keeps.pure rfl
  rw [List.getElem?_eq_getElem bound']
  refine (define_keeps fun strict => ?_).bind fun _ _ => Keeps.pure rfl
  have pair : (r, f.sig.params[k]) ∈ f.params.zip f.sig.params :=
    List.mem_iff_getElem.mpr ⟨k, by simp [bound, bound'], by simp [at_k]⟩
  intro u known
  cases type : f.regType? r with
  | none => simp [regType, type, valueType?] at known
  | some t =>
    rw [regType_of type] at known
    obtain rfl := fits strict _ _ pair _ type
    show (valueType? f.sig.params[k]).getD .void = u
    rw [known, Option.getD_some]

theorem makeBlock_keeps {id : Ir.BlockId} {b : Ir.Block} (found : f.block? id = some b) :
    Keeps may (Sound may m o f) (makeBlock f id) fun p => p.id = id ∧ p.block = b := by
  have read : Crash.deref (f.block? id) = .ok b := Crash.deref_eq_ok.mpr found
  refine Keeps.bind (R := (· = b)) (Ends.liftCrash read fun _ sound => ⟨sound, rfl⟩) ?_
  rintro _ rfl
  exact Keeps.bind (Ends.placed (newBlock_keeps _) _ _) fun _ _ => Keeps.pure ⟨rfl, rfl⟩

/-- The module can be lowered but for its bodies: its globals have values, and no function is named like a
conversion and gives something else. -/
structure Grounds (may : Crash → Prop) (m : Ir.Module) (o : LowerOptions) : Prop where
  present : ∀ g? ∈ m.globals.toList, ∃ g, g? = some g ∧ g.ty ≠ .void
  honest : ¬ may .illTyped → ∀ e ∈ o.functionsOf m, ∀ t, (e.1, t) ∈ conversions → e.2 = t

section Body

variable (grounds : Grounds may m o) (formed : f.WellFormed m)
  (supplied : ¬ may .outOfRange → f.Supplied) (fits : ¬ may .illTyped → f.Translatable m)
include grounds formed supplied fits

theorem fillBlock_keeps {p : Placement} (live : f.Reachable p.id) (found : f.block? p.id = some p.block) :
    Keeps may (Sound may m o f) (fillBlock m.functions.size m.globals.size f p) fun _ => True := by
  refine (Keeps.of_modify fun _ sound => sound.blocks _ _ _ _).bind fun _ _ => ?_
  refine (Keeps.forM fun i member => ?_).bind fun _ _ => (term_keeps ?_ ?_).bind fun _ _ => ?_
  · exact inst_keeps (fun strict => supplied strict p.id p.block live found i member)
      (fun strict => ((fits strict).block p.id p.block live found).insts i member) grounds.honest
      grounds.present
  · exact formed.numbered.target p.id p.block found
  · exact fun strict => ((fits strict).block p.id p.block live found).term
  · exact Keeps.bind_get fun _ _ => Keeps.pure trivial

theorem fillBody_keeps {order : List Ir.BlockId} (live : ∀ id ∈ order, f.Reachable id)
    (hasStart : Bool) :
    Keeps may (Sound may m o f) (fillBody m.functions.size m.globals.size f order hasStart)
      fun _ => True := by
  have start : Keeps may (Sound may m o f) (placed f.name none (startBlock f)) fun _ => True :=
    Ends.placed ((newBlock_keeps _).bind fun _ _ => (target_keeps formed.numbered.entry).bind
      fun _ _ => terminate_keeps _ _) _ _
  have rest : Keeps may (Sound may m o f) (do
      let placements ← order.mapM (makeBlock f)
      let waiting ← placements.mapM fun p => placed f.name none (putPhis p)
      let exits ← placements.mapM fun p =>
        placed f.name (some p.id) (fillBlock m.functions.size m.globals.size f p)
      waiting.flatten.forM fun w => placed f.name none (completePhi f hasStart exits w))
      fun _ => True := by
    refine (Keeps.mapM (T := fun _ p => f.Reachable p.id ∧ f.block? p.id = some p.block)
      fun id member => ?_).bind fun placements made => ?_
    · obtain ⟨b, found⟩ := (live id member).present formed.numbered
      refine (makeBlock_keeps found).mono fun p ⟨same, block⟩ => ?_
      rw [same, block]
      exact ⟨live id member, found⟩
    have located : ∀ p ∈ placements, f.Reachable p.id ∧ f.block? p.id = some p.block := by
      intro p member
      obtain ⟨_, _, known⟩ := forall₂_partner made.flip member
      exact known
    refine (Keeps.mapM (T := fun _ _ => True) fun p member => ?_).bind fun waiting _ =>
      (Keeps.mapM (T := fun _ _ => True) fun p member => ?_).bind fun exits _ =>
        Keeps.forM fun w _ => Ends.placed (completePhi_keeps hasStart exits w) _ _
    · refine Ends.placed ((Keeps.mapM (T := fun _ _ => True) fun (phi, position) listed =>
        putPhi_keeps _ _ _ fun strict => ?_).mono fun _ _ => trivial) _ _
      obtain ⟨reached, found⟩ := located p member
      exact ((fits strict).block p.id p.block reached found).phis phi (List.fst_mem_of_mem_zipIdx listed)
    · obtain ⟨reached, found⟩ := located p member
      exact Ends.placed (fillBlock_keeps grounds formed supplied fits reached found) _ _
  unfold fillBody
  refine Ends.ite (fun _ => ?_) fun _ => ?_
  · exact start.bind fun _ _ => rest
  · exact rest

/-- The body of a function is lowered into the tables of its module. -/
theorem body_ends (inside : f.id.num < m.functions.size) :
    Ends may (Tables m o) (body m.functions.size m.globals.size f) fun _ => Tables m o := by
  obtain ⟨order, walked, _, listed⟩ := Ir.Function.reversePostorder_ok formed.numbered
  obtain ⟨bs, all⟩ := formed.numbered.allBlocks
  have edges : f.edges = .ok _ := bind_eq_ok.mpr ⟨bs, all, rfl⟩
  refine Ends.ite (fun outside => absurd inside (Nat.not_lt.mpr outside)) fun _ => ?_
  refine Ends.bind (Ends.of_modify (Q := fun _ => Sound may m o f) fun s tables => ?_) fun _ => ?_
  · refine ⟨⟨tables.globals, tables.functions, tables.declared⟩, fun _ r v held => ?_⟩
    dsimp only at held
    rw [Array.getElem?_replicate] at held
    split at held <;> cases held
  refine Keeps.bind (Ends.placed (bindParams_keeps formed.params fun strict => (fits strict).params) _ _)
    fun _ _ => Keeps.bind (R := (· = order)) (Ends.liftCrash walked fun _ sound => ⟨sound, rfl⟩) ?_
  rintro _ rfl
  refine Keeps.bind (R := fun _ => True) (Ends.liftCrash edges fun _ sound => ⟨sound, trivial⟩) fun _ _ =>
    (fillBody_keeps grounds formed supplied fits (fun id => (listed id).mp) _).bind fun _ _ =>
      Ends.of_modify fun s sound => sound.modify f.id.num (fun _ => rfl) fun _ => rfl

end Body

theorem globalOf_ok {g : Ir.Global} {l : Llvm.Global} (made : globalOf g = .ok l) :
    l.name = g.name ∧ g.ty ≠ .void ∧ l.init.ty = returnType g.ty := by
  unfold globalOf at made
  have typed : (if g.init.ty = g.ty then g.init else Ir.Value.zero g.ty).ty = g.ty := by
    split
    · next same => exact same
    · rfl
  generalize (if g.init.ty = g.ty then g.init else Ir.Value.zero g.ty) = init at made typed
  cases known : constFor? init with
  | none => simp [known] at made
  | some c =>
    simp only [known, Except.ok.injEq] at made
    subst made
    have stands := constFor?_ty known
    rw [typed] at stands
    refine ⟨rfl, ?_, ?_⟩
    · intro nothing
      rw [nothing] at stands
      cases stands
    · show c.ty = returnType g.ty
      rw [returnType, stands, Option.getD_some]

theorem signatureOf_ret {name : String} {f : Ir.Function} {g : Llvm.Func}
    (made : signatureOf name f = .ok g) : g.ret = returnType f.sig.ret := by
  obtain ⟨params, _, same⟩ := bind_eq_ok.mp made
  cases same
  rfl

/-- Only a reference that is missing crashes before the bodies are lowered. -/
theorem mapError_ne_crash {α : Type} {x : Except LowerError α} {c : Crash} :
    x.mapError Fault.error ≠ .error (.crash c) := by
  cases x <;> simp [Except.mapError]

variable {may : Crash → Prop} {m : Ir.Module} {o : LowerOptions}

/-- The state that bodies are lowered from. -/
def startState (globals : List Llvm.Global) (functions : List Llvm.Func) : State := {
  globals := globals.toArray, functions := functions.toArray
  declared := (functions.zipIdx.map fun (f, i) => (f.name, i)).reverse }

/-- Each global becomes the one with its number. -/
theorem globals_made {globals : List Llvm.Global}
    (made : m.globals.toList.mapM (fun g? => do
      let g ← Crash.lift (Crash.deref g?)
      (globalOf g).mapError .error) = (.ok globals : Except (Fault LowerError) _)) :
    List.Forall₂ (fun g? l => ∃ g, g? = some g ∧ globalOf g = .ok l) m.globals.toList globals :=
  (mapM_eq_ok.mp made).imp fun g? l step => by
    obtain ⟨g, there, known⟩ := bind_eq_ok.mp step
    exact ⟨g, Crash.deref_eq_ok.mp (Crash.lift_eq_ok.mp there), mapError_eq_ok.mp known⟩

theorem tables_start {globals : List Llvm.Global} {functions : List Llvm.Func}
    (made : m.globals.toList.mapM (fun g? => do
      let g ← Crash.lift (Crash.deref g?)
      (globalOf g).mapError .error) = (.ok globals : Except (Fault LowerError) _))
    (made' : m.functions.toList.mapM (fun f => (signatureOf (o.nameOf f) f).mapError Fault.error) =
      (.ok functions : Except (Fault LowerError) _)) :
    Tables m o (startState globals functions) ∧
      ∀ g? ∈ m.globals.toList, ∃ g, g? = some g ∧ g.ty ≠ .void := by
  have each := globals_made made
  refine ⟨⟨⟨[], ?_, rfl⟩, ⟨[], ?_, List.nodup_nil, List.nil_subset _, by simp⟩, ?_⟩, ?_⟩
  · rw [List.append_nil, globalsOf, ← List.forall₂_eq_eq_eq, List.forall₂_map_left_iff,
      List.forall₂_map_right_iff]
    refine each.flip.imp fun l g? step => ?_
    obtain ⟨g, there, known⟩ := step
    obtain ⟨name, _, type⟩ := globalOf_ok known
    rw [there, name, type]
    rfl
  · rw [List.append_nil, LowerOptions.functionsOf, ← List.forall₂_eq_eq_eq, List.forall₂_map_left_iff,
      List.forall₂_map_right_iff]
    refine (mapM_eq_ok.mp made').flip.imp fun l f step => ?_
    have known := mapError_eq_ok.mp step
    rw [(signatureOf_ok known).1, signatureOf_ret known]
  · show (functions.zipIdx.map fun (f, i) => (f.name, i)).reverse =
      (functions.map (·.name)).zipIdx.reverse
    rw [List.zipIdx_map]
    rfl
  · intro g? member
    obtain ⟨l, _, g, there, known⟩ := forall₂_partner each member
    exact ⟨g, there, (globalOf_ok known).2.1⟩

/-- The bodies are lowered, and the wrapper is added if one is wanted. -/
def Finished (m : Ir.Module) (o : LowerOptions) (t : State) : Prop :=
  ∃ s, Tables m o s ∧ t.globals = s.globals ∧
    (o.wrapped = none ∧ t.functions = s.functions ∨
      o.wrapped.isSome = true ∧ "main" ∉ s.functions.toList.map (·.name) ∧
        ∃ g : Llvm.Func, g.name = "main" ∧ t.functions = s.functions.push g)

theorem mainWrapper_ends {entry : Ir.Function} (wanted : o.wrapped = some entry)
    (inside : ¬ may .outOfRange → entry.id.num < m.functions.size) :
    Ends may (fun s => Tables m o s ∧ "main" ∉ s.functions.toList.map (·.name)) (mainWrapper entry)
      fun _ => Finished m o := by
  refine .bind_get fun s ⟨tables, free⟩ => ?_
  split
  · next missing =>
    refine .crash (by_contra fun strict => ?_)
    obtain ⟨made, all, _⟩ := tables.functions
    have size := congrArg List.length all
    rw [List.length_map, Array.length_toList, List.length_append, LowerOptions.functionsOf,
      List.length_map, Array.length_toList] at size
    have outside := Array.getElem?_eq_none_iff.mp missing
    have bound := inside strict
    omega
  · exact Ends.of_set fun _ _ => ⟨s, tables, rfl, .inr ⟨by rw [wanted]; rfl, free, _, rfl, rfl⟩⟩

section Whole

variable (accepted : m.defects = .ok [])
  (inside : ¬ may .outOfRange → ∀ e, o.wrapped = some e → e.id.num < m.functions.size)
  (supplied : ¬ may .outOfRange → ∀ f ∈ m.functions, f.Supplied)
  (fits : ¬ may .illTyped → ∀ f ∈ m.functions, f.isExternal = false → f.Translatable m)
  (honest : ¬ may .illTyped → ∀ e ∈ o.functionsOf m, ∀ t, (e.1, t) ∈ conversions → e.2 = t)
include accepted inside supplied fits honest

theorem bodies_end (present : ∀ g? ∈ m.globals.toList, ∃ g, g? = some g ∧ g.ty ≠ .void) :
    Ends may (Tables m o) (do
      for f in m.functions do
        if !f.isExternal then body m.functions.size m.globals.size f
      match o.wrapped with
      | none => pure ()
      | some entry =>
        if (← get).declared.any (·.1 == "main") then throw (.error .mainTaken)
        mainWrapper entry : Placed Unit) fun _ => Finished m o := by
  have bodies : Keeps may (Tables m o) (forIn m.functions PUnit.unit fun f _ => (do
      if !f.isExternal then body m.functions.size m.globals.size f
      pure (.yield .unit) : Placed (ForInStep PUnit))) fun _ => True := by
    rw [← Array.forIn_toList]
    refine Keeps.forIn fun f member => Ends.ite (fun body => ?_) fun _ => Keeps.pure rfl
    have listed : f ∈ m.functions := Array.mem_toList_iff.mp member
    have body : f.isExternal = false := by simpa using body
    obtain ⟨k, at_k⟩ := Array.mem_iff_getElem?.mp listed
    have bound : f.id.num < m.functions.size :=
      Ir.Module.number_of_accepted accepted at_k ▸ (Array.getElem?_eq_some_iff.mp at_k).1
    refine Ends.bind (body_ends ⟨present, honest⟩ (Ir.wellFormed_of_accepted accepted listed body)
      (fun strict => supplied strict f listed) (fun strict => fits strict f listed body) bound)
      fun _ => Keeps.pure rfl
  refine Keeps.bind bodies fun _ _ => ?_
  split
  · next none => exact Ends.pure fun s tables => ⟨s, tables, rfl, .inl ⟨none, rfl⟩⟩
  · next entry wanted =>
    refine .bind_get fun s tables => Ends.ite (fun _ => Ends.error_bind _) fun free => ?_
    refine (mainWrapper_ends wanted fun strict => inside strict entry wanted).mono ?_ fun _ _ => id
    rintro _ rfl
    refine ⟨tables, tables.missing (List.find?_eq_none.mpr fun e member named => free ?_)⟩
    exact List.any_eq_true.mpr ⟨e, member, named⟩

/-- What lowering an accepted module ends in. -/
theorem lower_outcome : (∀ l, lower m o = .ok l →
      ∃ s, Finished m o s ∧ l.globals = s.globals ∧ l.functions = s.functions) ∧
    ∀ c, lower m o = .error (.crash c) → may c := by
  constructor
  · intro l ran
    obtain ⟨globals, made, rest⟩ := bind_eq_ok.mp ran
    obtain ⟨functions, made', rest⟩ := bind_eq_ok.mp rest
    obtain ⟨⟨u, s⟩, lowered, last⟩ := bind_eq_ok.mp rest
    cases last
    obtain ⟨tables, present⟩ := tables_start made made'
    exact ⟨s, (bodies_end accepted inside supplied fits honest present _ tables).1 u s lowered, rfl, rfl⟩
  · intro c ran
    rcases bind_eq_error.mp ran with failed | ⟨globals, made, rest⟩
    · obtain ⟨g?, member, failed⟩ := mapM_eq_error failed
      obtain ⟨g, rfl⟩ := Ir.Module.present_of_accepted accepted (Array.mem_toList_iff.mp member)
      exact absurd failed mapError_ne_crash
    rcases bind_eq_error.mp rest with failed | ⟨functions, made', rest⟩
    · obtain ⟨f, _, failed⟩ := mapM_eq_error failed
      exact absurd failed mapError_ne_crash
    rcases bind_eq_error.mp rest with crashed | ⟨_, _, last⟩
    · obtain ⟨tables, present⟩ := tables_start made made'
      exact (bodies_end accepted inside supplied fits honest present _ tables).2 c crashed
    · cases last

end Whole

end TieredEngine.Ship.Lowering
