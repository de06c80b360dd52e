import TieredEngine.Ir.Builder
import TieredEngine.Proofs.Ir.Paths
import TieredEngine.Proofs.Modified

/-!
What building a module gives, whatever the steps are and wherever they crash. The invariant of a
function under construction says where its numbers come from: blocks and registers are numbered as
they are made, and a register is written only by what made it. A step that stops halfway may have made
a register that nothing writes. From the invariant follows which defects a built module can have: two
functions of one name, and operands that name something that is not there.
-/
namespace TieredEngine.Ir

/-- Each predecessor has at most one input. -/
def Phi.Distinct (p : Phi) : Prop := (p.incoming.map (·.pred)).Nodup

section Inputs
variable (dest : Reg) (pred : BlockId) (value : Reg)

theorem Phi.map_pred_replace (l : List Incoming) :
    (setIncoming.replace pred value l).map (·.pred) = l.map (·.pred) := by
  induction l with
  | nil => rfl
  | cons i l ih => by_cases same : i.pred == pred <;> simp [setIncoming.replace, same, ih]

theorem Phi.setIncoming_dest (p : Phi) : (p.setIncoming pred value).dest = p.dest := by
  unfold setIncoming
  split <;> rfl

theorem Phi.Distinct.setIncoming {p : Phi} (distinct : p.Distinct) :
    (p.setIncoming pred value).Distinct := by
  unfold Phi.setIncoming Phi.Distinct
  split
  · rw [map_pred_replace]
    exact distinct
  · next absent =>
    rw [List.map_append, List.nodup_append]
    refine ⟨distinct, by simp, fun old member new last same => absent ?_⟩
    obtain ⟨i, inside, rfl⟩ := List.mem_map.mp member
    exact List.any_eq_true.mpr ⟨i, inside, by simpa [same] using last⟩

namespace Build

theorem setFirstPhi_some {phis phis' : List Phi}
    (set : setFirstPhi dest pred value phis = some phis') :
    phis'.map (·.dest) = phis.map (·.dest) ∧
      ((∀ p ∈ phis, p.Distinct) → ∀ p ∈ phis', p.Distinct) := by
  induction phis generalizing phis' with
  | nil => cases set
  | cons p phis ih =>
    unfold setFirstPhi at set
    split at set
    · cases set
      refine ⟨by simp [p.setIncoming_dest], fun distinct => List.forall_mem_cons.mpr ⟨?_, ?_⟩⟩
      · exact (distinct p (by simp)).setIncoming pred value
      · exact fun q member => distinct q (by simp [member])
    · obtain ⟨rest, tail, rfl⟩ := Option.map_eq_some_iff.mp set
      obtain ⟨dests, kept⟩ := ih tail
      refine ⟨by simp [dests], fun distinct => List.forall_mem_cons.mpr ⟨distinct p (by simp), ?_⟩⟩
      exact kept fun q member => distinct q (by simp [member])

/-- A block in which the first phi with the destination has the input. -/
def withInput (b : Block) : Block :=
  { b with phis := (setFirstPhi dest pred value b.phis).getD b.phis }

/-- At most one block changes. -/
theorem setFirstBlock_eq (l : List (Option Block)) :
    setFirstBlock dest pred value l = l ∨ ∃ n < l.length,
      setFirstBlock dest pred value l = l.modify n (·.map (withInput dest pred value)) := by
  induction l with
  | nil => exact .inl rfl
  | cons b? l ih =>
    cases b? with
    | none =>
      rcases ih with same | ⟨n, inside, changed⟩
      · exact .inl (by rw [setFirstBlock, same])
      · exact .inr ⟨n + 1, by simpa using inside, by rw [setFirstBlock, changed]; rfl⟩
    | some b =>
      unfold setFirstBlock
      cases set : setFirstPhi dest pred value b.phis with
      | some phis => exact .inr ⟨0, by simp, by simp [withInput, set]⟩
      | none =>
        rcases ih with same | ⟨n, inside, changed⟩
        · exact .inl (by simp [same])
        · exact .inr ⟨n + 1, by simpa using inside, by simp [changed]⟩

end Build

end Inputs

theorem Inst.target?_eq (i : Inst) : i.target? = none ∨ i.target? = some i.dest := by
  unfold target?
  split
  · exact .inl rfl
  · exact .inl rfl
  · split
    · exact .inl rfl
    · exact .inr rfl
  · exact .inr rfl

theorem Function.writes_eq (f : Function) :
    f.writes = f.params ++ f.blocks.toList.flatMap fun b? => (b?.map Block.writes).getD [] := by
  unfold writes
  congr 1
  induction f.blocks.toList with
  | nil => rfl
  | cons b? l ih => cases b? <;> simp [ih]

namespace FunctionBuilder

variable {i : Nat} {spare : List Nat} {fb : FunctionBuilder}

/-- What holds of the function with a position between any two steps on it. Of its registers those
that are `spare` have been made but nothing writes them yet; the parameters and whatever else is
written is written once. -/
structure Sound (i : Nat) (spare : List Nat) (fb : FunctionBuilder) : Prop where
  id : fb.function.id = ⟨UInt32.ofNat i⟩
  convention : fb.function.sig.callConv ≠ .c
  params : fb.function.params =
    (List.range fb.function.sig.params.length).map fun n => ⟨UInt32.ofNat n⟩
  typed : fb.function.sig.params <+: fb.function.regTypes.toList
  blocks : ∀ (n : Nat) (b? : Option Block), fb.function.blocks[n]? = some b? → ∃ b, b? = some b ∧
    b.id = ⟨UInt32.ofNat n⟩ ∧ ∀ p ∈ b.phis, p.Distinct
  entry : fb.function.blocks.size ≠ 0 → fb.function.entry = ⟨0⟩
  current : fb.current = none ∧ fb.function.blocks.size = 0 ∨
    ∃ n < fb.function.blocks.size, fb.current = some n
  writes : ∃ ns : List Nat, (spare ++ ns).Nodup ∧
    (∀ n ∈ spare ++ ns, n < fb.function.regTypes.size) ∧
    fb.function.writes.Perm (ns.map fun n => ⟨UInt32.ofNat n⟩)

theorem Sound.drop (sound : fb.Sound i spare) :
    fb.Sound i [] := by
  obtain ⟨ns, apart, bound, perm⟩ := sound.writes
  exact { sound with
    writes := ⟨ns, apart.of_append_right, fun n member => bound n (List.mem_append_right _ member), perm⟩ }

/-- A block is changed; registers that were spare may be written by it now. -/
theorem Sound.modifyBlock (used : List Nat) (sound : fb.Sound i (used ++ spare)) {n : Nat}
    (inside : n < fb.function.blocks.size) {g : Block → Block} (sameId : ∀ b, (g b).id = b.id)
    (phis : ∀ b : Block, (∀ p ∈ b.phis, p.Distinct) → ∀ p ∈ (g b).phis, p.Distinct)
    (more : ∀ b : Block, (g b).writes.Perm (b.writes ++ used.map fun n => ⟨UInt32.ofNat n⟩)) :
    { fb with function :=
        { fb.function with blocks := fb.function.blocks.modify n (·.map g) } }.Sound i spare := by
  refine { sound with blocks := ?_, entry := ?_, current := ?_, writes := ?_ }
  · intro j b? there
    obtain ⟨old?, before, rfl⟩ := getElem?_modify_eq_some.mp there
    obtain ⟨b, rfl, number, distinct⟩ := sound.blocks j old? before
    split
    · exact ⟨g b, rfl, (sameId b).trans number, phis b distinct⟩
    · exact ⟨b, rfl, number, distinct⟩
  · simpa using sound.entry
  · simpa using sound.current
  · obtain ⟨ns, apart, bound, perm⟩ := sound.writes
    have swap : (spare ++ (ns ++ used)).Perm (used ++ spare ++ ns) := by
      rw [← List.append_assoc, List.append_assoc used]
      exact List.perm_append_comm
    refine ⟨ns ++ used, swap.nodup_iff.mpr apart, fun n member => bound n (swap.mem_iff.mp member), ?_⟩
    obtain ⟨b, there, -, -⟩ := sound.blocks n _ (Array.getElem?_eq_getElem inside)
    rw [Function.writes_eq] at perm ⊢
    have written : (((fb.function.blocks[n].map g).map Block.writes).getD []).Perm
        ((fb.function.blocks[n].map Block.writes).getD [] ++ used.map fun n => ⟨UInt32.ofNat n⟩) := by
      simpa [there] using more b
    have blocks := flatMap_modify_perm (f := fun b? : Option Block => (b?.map Block.writes).getD [])
      (g := (·.map g)) (l := fb.function.blocks.toList) (j := n) (by simp) written
    rw [Array.toList_modify, List.map_append]
    refine (blocks.append_left _).trans ?_
    rw [← List.append_assoc]
    exact perm.append_right _

end FunctionBuilder

namespace Build

/-- Steps that end with a property, or crash and leave the function sound. -/
def Leaves {α : Type} (i : Nat) (fb : FunctionBuilder) (steps : Build α)
    (ends : α → FunctionBuilder → Prop) : Prop :=
  match (ExceptT.run steps).run fb with
  | (.ok a, fb') => ends a fb'
  | (.error _, fb') => fb'.Sound i []

section Rules
variable {α β : Type} {i : Nat} {fb : FunctionBuilder}

theorem Leaves.pure {ends : α → FunctionBuilder → Prop} {a : α} (holds : ends a fb) :
    Leaves i fb (pure a) ends := holds

theorem Leaves.bind {steps : Build α} {more : α → Build β} {mid : α → FunctionBuilder → Prop}
    {ends : β → FunctionBuilder → Prop} (first : Leaves i fb steps mid)
    (rest : ∀ a fb', mid a fb' → Leaves i fb' (more a) ends) :
    Leaves i fb (steps >>= more) ends := by
  have run : (ExceptT.run (steps >>= more)).run fb = match (ExceptT.run steps).run fb with
      | (.ok a, fb') => (ExceptT.run (more a)).run fb'
      | (.error e, fb') => (.error e, fb') := by
    rw [ExceptT.run_bind, StateT.run_bind]
    rcases (ExceptT.run steps).run fb with ⟨_ | a, fb'⟩ <;> rfl
  unfold Leaves at first ⊢
  rw [run]
  split at first
  · next a fb' ran => exact rest a fb' first
  · next e fb' ran => exact first

theorem Leaves.discard {steps : Build α} {ends : FunctionBuilder → Prop}
    (leaves : Leaves i fb steps fun _ => ends) : Leaves i fb (discard steps) fun _ => ends := by
  unfold Leaves at leaves ⊢
  have run : (ExceptT.run (Functor.discard steps)).run fb = match (ExceptT.run steps).run fb with
      | (.ok _, fb') => (.ok (), fb')
      | (.error e, fb') => (.error e, fb') := by
    change (ExceptT.run ((fun _ => ()) <$> steps)).run fb = _
    rw [ExceptT.run_map, StateT.run_map]
    rcases (ExceptT.run steps).run fb with ⟨_ | a, fb'⟩ <;> rfl
  rw [run]
  split at leaves
  · exact leaves
  · exact leaves

theorem Leaves.mono {steps : Build α} {mid ends : α → FunctionBuilder → Prop}
    (leaves : Leaves i fb steps mid) (weaker : ∀ a fb', mid a fb' → ends a fb') :
    Leaves i fb steps ends := by
  unfold Leaves at leaves ⊢
  split at leaves
  · next a fb' ran => exact weaker a fb' leaves
  · exact leaves

/-- Reading the function under construction. -/
theorem Leaves.get {steps : FunctionBuilder → Build α} {ends : α → FunctionBuilder → Prop}
    (rest : Leaves i fb (steps fb) ends) : Leaves i fb (get >>= steps) ends := by
  have read : Leaves i fb MonadState.get fun fb₀ fb' => fb₀ = fb ∧ fb' = fb := ⟨rfl, rfl⟩
  refine read.bind ?_
  rintro _ _ ⟨rfl, rfl⟩
  exact rest

end Rules

section Primitives
variable {i : Nat} {spare : List Nat} {fb : FunctionBuilder}

theorem typeOf_leaves (sound : fb.Sound i spare) (r : Reg) :
    Leaves i fb (typeOf r) fun _ fb' => fb'.Sound i spare := sound

/-- A new register is spare. -/
theorem newReg_leaves (sound : fb.Sound i []) (t : Ty) :
    Leaves i fb (newReg t) fun r fb' => ∃ n, r = ⟨UInt32.ofNat n⟩ ∧ fb'.Sound i [n] := by
  refine ⟨fb.function.regTypes.size, rfl, ?_⟩
  obtain ⟨ns, apart, bound, perm⟩ := sound.writes
  refine { sound with typed := ?_, writes := ⟨ns, ?_, fun n member => ?_, perm⟩ }
  · exact sound.typed.trans (by simp)
  · exact List.nodup_cons.mpr ⟨fun again => Nat.lt_irrefl _ (bound _ again), apart⟩
  · rw [Array.size_push]
    rcases List.mem_cons.mp member with rfl | old
    · exact Nat.lt_succ_self _
    · exact Nat.lt_succ_of_lt (bound n old)

theorem modifyCurrent_leaves (used : List Nat) (sound : fb.Sound i (used ++ spare))
    {g : Block → Block} (sameId : ∀ b, (g b).id = b.id)
    (phis : ∀ b : Block, (∀ p ∈ b.phis, p.Distinct) → ∀ p ∈ (g b).phis, p.Distinct)
    (more : ∀ b : Block, (g b).writes.Perm (b.writes ++ used.map fun n => ⟨UInt32.ofNat n⟩)) :
    Leaves i fb (modifyCurrent g) fun _ fb' => fb'.Sound i spare := by
  unfold modifyCurrent
  refine Leaves.get ?_
  rcases sound.current with ⟨none, -⟩ | ⟨n, inside, here⟩
  · rw [none]
    exact sound.drop
  · rw [here]
    exact sound.modifyBlock used inside sameId phis more

/-- An instruction that writes what the spare registers are, or nothing. -/
theorem emit_leaves (used : List Nat) (inst : Inst) (sound : fb.Sound i (used ++ spare))
    (target : inst.target?.toList = used.map fun n => ⟨UInt32.ofNat n⟩) :
    Leaves i fb (emit inst) fun _ fb' => fb'.Sound i spare := by
  unfold emit
  refine Leaves.bind (modifyCurrent_leaves used sound (fun _ => rfl) (fun _ distinct => distinct) ?_)
    fun _ _ after => Leaves.pure after
  intro b
  have last : [inst].filterMap Inst.target? = inst.target?.toList := by
    cases target : inst.target? <;> simp [target]
  rw [Block.writes, Block.writesUpTo, List.filterMap_append, last, target, ← List.append_assoc]
  rfl

/-- An instruction for a register that was just made. Some operations write nothing. -/
theorem emit_made {n : Nat} (sound : fb.Sound i [n]) {inst : Inst}
    (dest : inst.dest = ⟨UInt32.ofNat n⟩) :
    Leaves i fb (emit inst) fun _ fb' => fb'.Sound i [] := by
  rcases inst.target?_eq with none | writes
  · refine (emit_leaves [] inst sound ?_).mono fun _ _ after => after.drop
    simp [none]
  · refine emit_leaves [n] inst sound ?_
    simp [writes, dest]

theorem made_leaves (sound : fb.Sound i []) (t : Ty) {inst : Reg → Inst}
    (dest : ∀ r, (inst r).dest = r) :
    Leaves i fb (newReg t >>= fun r => emit (inst r)) fun _ fb' => fb'.Sound i [] := by
  refine (newReg_leaves sound t).bind fun r fb' ⟨n, number, after⟩ => ?_
  exact emit_made after ((dest r).trans number)

theorem terminate_leaves (sound : fb.Sound i []) (t : Term) :
    Leaves i fb (terminate t) fun _ fb' => fb'.Sound i [] :=
  modifyCurrent_leaves [] sound (fun _ => rfl) (fun _ distinct => distinct)
    fun b => .of_eq (by simp; rfl)

theorem phi_leaves (sound : fb.Sound i []) (t : Ty) :
    Leaves i fb (phi t) fun _ fb' => fb'.Sound i [] := by
  unfold phi
  refine (newReg_leaves sound t).bind ?_
  rintro _ fb' ⟨n, rfl, made⟩
  refine Leaves.bind (modifyCurrent_leaves [n] made (fun _ => rfl) ?_ ?_)
    fun _ _ after => Leaves.pure after
  · intro b distinct p member
    rcases List.mem_append.mp member with old | new
    · exact distinct p old
    · obtain rfl := List.mem_singleton.mp new
      exact .nil
  · intro b
    rw [Block.writes, Block.writesUpTo, Block.writes, Block.writesUpTo, List.map_append,
      List.append_assoc, List.append_assoc]
    exact List.perm_append_comm.append_left _

theorem addIncoming_leaves (sound : fb.Sound i []) (dest : Reg) (pred : BlockId) (value : Reg) :
    Leaves i fb (addIncoming dest pred value) fun _ fb' => fb'.Sound i [] := by
  change FunctionBuilder.Sound i [] { fb with function := { fb.function with blocks := _ } }
  rcases setFirstBlock_eq dest pred value fb.function.blocks.toList with same | ⟨n, inside, changed⟩
  · rw [same]
    exact sound
  · rw [changed, ← Array.toList_modify, Array.toArray_toList]
    refine sound.modifyBlock [] inside (fun _ => rfl) (fun b distinct => ?_) fun b => ?_
    · unfold withInput
      cases set : setFirstPhi dest pred value b.phis with
      | none => exact distinct
      | some phis => exact (setFirstPhi_some _ _ _ set).2 distinct
    · refine .of_eq ?_
      unfold withInput Block.writes Block.writesUpTo
      cases set : setFirstPhi dest pred value b.phis with
      | none => simp
      | some phis => simp [(setFirstPhi_some _ _ _ set).1]

theorem newBlock_leaves (sound : fb.Sound i []) :
    Leaves i fb newBlock fun _ fb' => fb'.Sound i [] := by
  obtain ⟨f, current⟩ := fb
  have blocks : ∀ (n : Nat) (b? : Option Block),
      (f.blocks.push (some { id := ⟨UInt32.ofNat f.blocks.size⟩ }))[n]? = some b? →
        ∃ b, b? = some b ∧ b.id = ⟨UInt32.ofNat n⟩ ∧ ∀ p ∈ b.phis, p.Distinct := by
    intro n b? there
    rw [Array.getElem?_push] at there
    split at there
    · next last =>
      cases there
      exact ⟨_, rfl, by rw [last], by simp⟩
    · exact sound.blocks n b? there
  have writes : ∀ entry, Function.writes { f with
      blocks := f.blocks.push (some { id := ⟨UInt32.ofNat f.blocks.size⟩ }), entry } = f.writes := by
    intro entry
    simp [Function.writes_eq, Block.writes, Block.writesUpTo]
  rcases sound.current with ⟨none, empty⟩ | ⟨n, inside, here⟩
  · obtain rfl : current = .none := none
    change FunctionBuilder.Sound i [] ⟨{ f with
      blocks := f.blocks.push (some { id := ⟨UInt32.ofNat f.blocks.size⟩ })
      entry := ⟨UInt32.ofNat f.blocks.size⟩ }, some f.blocks.size⟩
    refine { sound with blocks, entry := fun _ => ?_, current := .inr ?_, writes := ?_ }
    · exact congrArg (fun n => (⟨UInt32.ofNat n⟩ : BlockId)) empty
    · exact ⟨f.blocks.size, by simp, rfl⟩
    · rw [writes]
      exact sound.writes
  · obtain rfl : current = some n := here
    change FunctionBuilder.Sound i [] ⟨{ f with
      blocks := f.blocks.push (some { id := ⟨UInt32.ofNat f.blocks.size⟩ }) }, some n⟩
    refine { sound with blocks, entry := fun _ => ?_, current := .inr ?_, writes := ?_ }
    · exact sound.entry (by have := inside; simp only at this; omega)
    · exact ⟨n, by have := inside; simp only at this; simp; omega, rfl⟩
    · rw [writes]
      exact sound.writes

theorem param_leaves (sound : fb.Sound i []) (n : Nat) :
    Leaves i fb (param n) fun _ fb' => fb'.Sound i [] := by
  refine Leaves.get ?_
  cases fb.function.params[n]? with
  | none => exact sound
  | some r => exact sound

theorem setBlock_leaves (sound : fb.Sound i []) (id : BlockId) :
    Leaves i fb (setBlock id) fun _ fb' => fb'.Sound i [] := by
  refine Leaves.get ?_
  split
  · next inside => exact { sound with current := .inr ⟨id.num, inside, rfl⟩ }
  · exact sound

theorem call_leaves (sound : fb.Sound i []) (callee : FuncId) (t : Ty) (args : List Reg) :
    Leaves i fb (call callee t args) fun _ fb' => fb'.Sound i [] := by
  unfold call
  split
  · exact emit_leaves [] _ sound rfl
  · exact made_leaves sound t fun _ => rfl

end Primitives

end Build

/-- Every step keeps a function sound, whether it crashes or not. -/
theorem BuildStep.perform_leaves {i : Nat} {fb : FunctionBuilder} (sound : fb.Sound i [])
    (step : BuildStep) : Build.Leaves i fb step.perform fun _ fb' => fb'.Sound i [] := by
  have typed {r : Reg} {inst : Ty → Reg → Inst} (dest : ∀ t r, (inst t r).dest = r) :
      Build.Leaves i fb
        (Build.typeOf r >>= fun t => Build.newReg t >>= fun r => Build.emit (inst t r))
        fun _ fb' => fb'.Sound i [] :=
    (Build.typeOf_leaves sound r).bind fun t _ read => Build.made_leaves read t (dest t)
  cases step with
  | param n => exact (Build.param_leaves sound n).discard
  | newBlock => exact (Build.newBlock_leaves sound).discard
  | setBlock id => exact Build.setBlock_leaves sound id
  | newReg t =>
    exact ((Build.newReg_leaves sound t).mono fun _ _ ⟨_, _, made⟩ => made.drop).discard
  | const v => exact (Build.made_leaves sound v.ty fun _ => rfl).discard
  | copy x => exact (typed fun _ _ => rfl).discard
  | binary op x y => exact (typed fun _ _ => rfl).discard
  | unary op x => exact (typed fun _ _ => rfl).discard
  | compare op x y => exact (Build.made_leaves sound .bool fun _ => rfl).discard
  | cast target x =>
    refine ((Build.newReg_leaves sound target).bind ?_).discard
    rintro _ fb' ⟨n, rfl, made⟩
    exact (Build.typeOf_leaves made x).bind fun _ _ read => Build.emit_made read rfl
  | select c x y => exact (typed fun _ _ => rfl).discard
  | call callee t args => exact (Build.call_leaves sound callee t args).discard
  | loadGlobal g t => exact (Build.made_leaves sound t fun _ => rfl).discard
  | storeGlobal g v =>
    refine (Build.typeOf_leaves sound v).bind fun t _ read => ?_
    exact (Build.emit_leaves [] _ read rfl).bind fun _ _ after => Build.Leaves.pure after
  | undef t => exact (Build.made_leaves sound t fun _ => rfl).discard
  | panic message =>
    exact (Build.emit_leaves [] _ sound rfl).bind fun _ _ after => Build.Leaves.pure after
  | phi t => exact (Build.phi_leaves sound t).discard
  | addIncoming dest pred value => exact Build.addIncoming_leaves sound dest pred value
  | br target => exact Build.terminate_leaves sound _
  | condBr c yes no => exact Build.terminate_leaves sound _
  | switch c default cases => exact Build.terminate_leaves sound _
  | ret v => exact Build.terminate_leaves sound _
  | retVoid => exact Build.terminate_leaves sound _
  | unreachable => exact Build.terminate_leaves sound _

/-- A function that was only declared: it has no body and no registers for its parameters. -/
structure FunctionBuilder.Declared (i : Nat) (fb : FunctionBuilder) : Prop where
  id : fb.function.id = ⟨UInt32.ofNat i⟩
  convention : fb.function.sig.callConv = .c
  params : fb.function.params = []
  empty : fb.function.blocks = #[]

namespace ModuleBuilder

/-- What holds of a module between any two steps on it. -/
structure Sound (b : ModuleBuilder) : Prop where
  functions : ∀ (i : Nat) (fb : FunctionBuilder), b.functions[i]? = some fb →
    fb.Declared i ∨ fb.Sound i []
  globals : ∀ (i : Nat) (g : Global), b.globals[i]? = some g → g.id = ⟨UInt32.ofNat i⟩

variable {b : ModuleBuilder}

theorem Sound.addFunction (sound : b.Sound) (name : String) (params : List Ty) (ret : Ty) :
    (b.addFunction name params ret).2.Sound := by
  refine { sound with functions := fun i fb there => ?_ }
  rw [ModuleBuilder.addFunction, Array.getElem?_push] at there
  split at there
  · next last =>
    cases there
    refine .inr ⟨by rw [last]; rfl, by simp, rfl, by simp, by simp, by simp, .inl ⟨rfl, rfl⟩, ?_⟩
    refine ⟨List.range params.length, List.nodup_range, by simp, ?_⟩
    exact .of_eq (List.append_nil _)
  · exact sound.functions i fb there

theorem Sound.addExternal (sound : b.Sound) (name : String) (params : List Ty) (ret : Ty) :
    (b.addExternal name params ret).2.Sound := by
  refine { sound with functions := fun i fb there => ?_ }
  rw [ModuleBuilder.addExternal, Array.getElem?_push] at there
  split at there
  · next last =>
    cases there
    exact .inl ⟨by rw [last]; rfl, rfl, rfl, rfl⟩
  · exact sound.functions i fb there

theorem Sound.addGlobal (sound : b.Sound) (name : String) (init : Value) :
    (b.addGlobal name init).2.Sound := by
  refine { sound with globals := fun i g there => ?_ }
  rw [ModuleBuilder.addGlobal, Array.getElem?_push] at there
  split at there
  · next last =>
    cases there
    rw [last]
  · exact sound.globals i g there

/-- Only functions that were begun take steps. -/
theorem Sound.onFunction (sound : b.Sound) {id : FuncId} (begun : b.begun id = true)
    (step : BuildStep) : (b.onFunction id step.perform).2.Sound := by
  unfold ModuleBuilder.onFunction
  split
  · exact sound
  · next fb here =>
    have before : fb.Sound id.num [] := by
      rcases sound.functions _ _ here with declared | begun'
      · simp [ModuleBuilder.begun, here, declared.convention] at begun
      · exact begun'
    have kept : ((ExceptT.run step.perform).run fb).2.Sound id.num [] := by
      have leaves := step.perform_leaves before
      unfold Build.Leaves at leaves
      split at leaves
      · next ran => rwa [ran]
      · next ran => rwa [ran]
    refine { sound with functions := fun i fb' there => ?_ }
    change (b.functions.setIfInBounds id.num ((ExceptT.run step.perform).run fb).2)[i]? = _ at there
    rw [Array.getElem?_setIfInBounds] at there
    split at there
    · next same =>
      split at there
      · cases there
        exact .inr (same ▸ kept)
      · cases there
    · exact sound.functions i fb' there

theorem Sound.perform (sound : b.Sound) (step : Step) : (b.perform step).Sound := by
  cases step with
  | addGlobal name init => exact sound.addGlobal name init
  | addExternal name params ret => exact sound.addExternal name params ret
  | addFunction name params ret => exact sound.addFunction name params ret
  | setEntry name => exact { sound with }
  | onFunction id step =>
    change (if b.begun id = true then (b.onFunction id step.perform).2 else b).Sound
    split
    · next begun => exact sound.onFunction begun step
    · exact sound

theorem sound_after (name : String) (steps : List Step) : (after name steps).Sound := by
  unfold after
  have start : ({ name } : ModuleBuilder).Sound := ⟨by simp, by simp⟩
  generalize ({ name } : ModuleBuilder) = b at start
  induction steps generalizing b with
  | nil => exact start
  | cons step steps ih => exact ih _ (start.perform step)

end ModuleBuilder

/-- Every number there is has a place in thirty-two bits, and the last one is left for no register. -/
structure ModuleBuilder.Small (b : ModuleBuilder) : Prop where
  functions : b.functions.size < 2 ^ 32 - 1
  globals : b.globals.size < 2 ^ 32 - 1
  blocks : ∀ fb ∈ b.functions, fb.function.blocks.size < 2 ^ 32 - 1
  registers : ∀ fb ∈ b.functions, fb.function.regTypes.size < 2 ^ 32 - 1

/-- The numbers of a function's blocks are their positions, control starts at the first, and each
phi has at most one input for a predecessor. No register is written in two places. A declared function
has no body; any other has a register of its type for each parameter. -/
structure Function.WellBuilt (f : Function) : Prop where
  blocks : ∀ (n : Nat) (b? : Option Block), f.blocks[n]? = some b? → ∃ b, b? = some b ∧
    b.id.num = n ∧ ∀ p ∈ b.phis, p.Distinct
  entry : f.blocks.size ≠ 0 → f.entry.num = 0
  params : if f.sig.callConv = .c then f.blocks = #[] ∧ f.params = []
    else f.params.map f.regType? = f.sig.params.map some
  writes : f.writes.Nodup

/-- All functions are well built, and numbers of functions and globals are their positions. -/
structure Module.WellBuilt (m : Module) : Prop where
  functions : ∀ (n : Nat) (f : Function), m.functions[n]? = some f → f.id.num = n ∧ f.WellBuilt
  globals : ∀ (n : Nat) (g? : Option Global), m.globals[n]? = some g? →
    ∃ g, g? = some g ∧ g.id.num = n

theorem FunctionBuilder.Declared.wellBuilt {i : Nat} {fb : FunctionBuilder}
    (declared : fb.Declared i) : fb.function.WellBuilt := by
  have writes : fb.function.writes = [] := by
    simp [Function.writes, declared.params, declared.empty]
  refine ⟨by simp [declared.empty], by simp [declared.empty], ?_, writes ▸ .nil⟩
  rw [if_pos declared.convention]
  exact ⟨declared.empty, declared.params⟩

theorem FunctionBuilder.Sound.wellBuilt {i : Nat} {spare : List Nat} {fb : FunctionBuilder}
    (sound : fb.Sound i spare) (blocks : fb.function.blocks.size < 2 ^ 32 - 1)
    (registers : fb.function.regTypes.size < 2 ^ 32 - 1) : fb.function.WellBuilt := by
  refine ⟨fun n b? there => ?_, fun nonempty => ?_, ?_, ?_⟩
  · obtain ⟨b, rfl, number, distinct⟩ := sound.blocks n b? there
    obtain ⟨inside, -⟩ := Array.getElem?_eq_some_iff.mp there
    exact ⟨b, rfl, number ▸ BlockId.num_ofNat (by omega), distinct⟩
  · rw [sound.entry nonempty]
    rfl
  · rw [if_neg sound.convention, sound.params]
    have fewer := sound.typed.length_le
    rw [Array.length_toList] at fewer
    refine List.ext_getElem (by simp) fun n bound bound' => ?_
    have inside : n < fb.function.sig.params.length := by simpa using bound'
    have same := sound.typed.getElem inside
    simp only [List.getElem_map, List.getElem_range]
    rw [Function.regType?, Reg.num_ofNat (by omega), Array.getElem?_eq_getElem (by omega), same,
      Array.getElem_toList]
  · obtain ⟨ns, apart, bound, perm⟩ := sound.writes
    refine perm.nodup_iff.mpr (List.Nodup.map_on ?_ apart.of_append_right)
    intro n member n' member' same
    have below := bound n (List.mem_append_right _ member)
    have below' := bound n' (List.mem_append_right _ member')
    rw [← Reg.num_inj, Reg.num_ofNat (by omega), Reg.num_ofNat (by omega)] at same
    exact same

theorem ModuleBuilder.Sound.wellBuilt {b : ModuleBuilder} (sound : b.Sound) (small : b.Small) :
    b.build.WellBuilt := by
  refine ⟨fun n f there => ?_, fun n g? there => ?_⟩
  · obtain ⟨fb, here, rfl⟩ := Array.getElem?_map .. ▸ there |> Option.map_eq_some_iff.mp
    obtain ⟨inside, rfl⟩ := Array.getElem?_eq_some_iff.mp here
    have room := small.functions
    have member := Array.getElem_mem inside
    rcases sound.functions n _ here with declared | begun
    · exact ⟨declared.id ▸ FuncId.num_ofNat (by omega), declared.wellBuilt⟩
    · exact ⟨begun.id ▸ FuncId.num_ofNat (by omega),
        begun.wellBuilt (small.blocks _ member) (small.registers _ member)⟩
  · obtain ⟨g, here, rfl⟩ := Array.getElem?_map .. ▸ there |> Option.map_eq_some_iff.mp
    obtain ⟨inside, -⟩ := Array.getElem?_eq_some_iff.mp here
    have room := small.globals
    exact ⟨g, rfl, sound.globals n g here ▸ GlobalId.num_ofNat (by omega)⟩

/-- Defects that lie in what the operands of a step name. -/
def FunctionDefect.named : FunctionDefect → Bool
  | .branchTarget .. | .phiPredecessor .. | .unknownCallee .. | .callArguments ..
  | .unknownGlobal .. => true
  | .paramCount .. | .paramUntyped .. | .entryOutOfRange .. | .blockMissing .. | .blockNumber .. =>
    false

/-- Defects that lie in the names given to functions or in what the operands of a step name. -/
def Defect.named : Defect → Bool
  | .duplicateName .. => true
  | .inFunction _ d => d.named
  | .functionNumber .. | .globalNumber .. => false

theorem mem_defectIf {α : Type} {p : Bool} {d e : α} : e ∈ defectIf p d ↔ p = true ∧ e = d := by
  cases p <;> simp [defectIf]

theorem Block.named_of_mem_instDefects {m : Module} {b : Block} {i : Inst} {d : FunctionDefect}
    (member : d ∈ b.instDefects m i) : d.named = true := by
  unfold Block.instDefects at member
  split at member
  · split at member
    · obtain rfl := List.mem_singleton.mp member
      rfl
    · obtain ⟨-, rfl⟩ := mem_defectIf.mp member
      rfl
  · obtain ⟨-, rfl⟩ := mem_defectIf.mp member
    rfl
  · obtain ⟨-, rfl⟩ := mem_defectIf.mp member
    rfl
  · cases member

theorem Block.named_of_mem_defects {m : Module} {count index : Nat} {b : Block}
    (number : b.id.num = index) {d : FunctionDefect} (member : d ∈ b.defects m count index) :
    d.named = true := by
  simp only [Block.defects, List.mem_append, List.mem_flatMap, mem_defectIf] at member
  rcases member with ((⟨wrong, -⟩ | ⟨_, -, -, rfl⟩) | ⟨_, -, _, -, -, rfl⟩) | ⟨_, -, inst⟩
  · simp [number] at wrong
  · rfl
  · rfl
  · exact named_of_mem_instDefects inst

theorem Function.WellBuilt.named {m : Module} {f : Function} (built : f.WellBuilt)
    {d : FunctionDefect} (member : d ∈ f.defects m) : d.named = true := by
  unfold Function.defects at member
  split at member
  · cases member
  · next body =>
    have nonempty : f.blocks.size ≠ 0 := by simpa [Function.isExternal] using body
    have typed : f.params.map f.regType? = f.sig.params.map some := by
      have params := built.params
      split at params
      · exact absurd (by simp [params.1]) nonempty
      · exact params
    simp only [List.mem_append, List.mem_flatMap, mem_defectIf] at member
    rcases member with ((⟨wrong, -⟩ | ⟨p, param, wrong, -⟩) | ⟨wrong, -⟩) | inBlocks
    · have count := congrArg List.length typed
      rw [List.length_map, List.length_map] at count
      simp [count] at wrong
    · have there : f.regType? p ∈ f.sig.params.map some := typed ▸ List.mem_map_of_mem param
      obtain ⟨t, -, same⟩ := List.mem_map.mp there
      obtain ⟨inside, -⟩ := Array.getElem?_eq_some_iff.mp same.symm
      exact absurd inside (Nat.not_lt.mpr (by simpa using wrong))
    · rw [built.entry nonempty] at wrong
      exact absurd (by simpa using wrong) nonempty
    · obtain ⟨ds, listed, inside⟩ := List.mem_flatten.mp inBlocks
      obtain ⟨n, bound, rfl⟩ := List.mem_mapIdx.mp listed
      obtain ⟨b, there, number, -⟩ := built.blocks n f.blocks.toList[n] (by simp)
      rw [there] at inside
      exact Block.named_of_mem_defects number inside

theorem Module.WellBuilt.defects {m : Module} (built : m.WellBuilt) :
    ∃ ds, m.defects = .ok ds ∧ ∀ d ∈ ds, d.named = true := by
  have globals : (m.globals.toList.mapIdx fun i g? => (i, g?)).mapM (fun p => do
      let g ← Crash.deref p.2
      return defectIf (g.id.num != p.1) (Defect.globalNumber g.name g.id p.1)) =
        .ok ((m.globals.toList.mapIdx fun i g? => (i, g?)).map fun _ => []) := by
    refine mapM_eq_map fun x member => ?_
    obtain ⟨n, bound, rfl⟩ := List.mem_mapIdx.mp member
    obtain ⟨g, there, number⟩ := built.globals n m.globals.toList[n] (by simp)
    rw [there]
    simp [Crash.deref, bind, Except.bind, pure, Except.pure, defectIf, number]
  refine ⟨_, bind_eq_ok.mpr ⟨_, globals, rfl⟩, fun d member => ?_⟩
  rcases List.mem_append.mp member with inFunctions | inGlobals
  · obtain ⟨ds, listed, inside⟩ := List.mem_flatten.mp inFunctions
    obtain ⟨n, bound, rfl⟩ := List.mem_mapIdx.mp listed
    obtain ⟨number, function⟩ := built.functions n m.functions.toList[n] (by simp)
    simp only [functionDefects, List.mem_append, mem_defectIf, List.mem_map] at inside
    rcases inside with (⟨wrong, -⟩ | ⟨-, rfl⟩) | ⟨_, defect, rfl⟩
    · exact absurd number (by simpa using wrong)
    · rfl
    · exact function.named defect
  · simp at inGlobals

/-- Whatever is built is well built, and what the structural check can find in it lies in names of
functions and in what operands name. -/
theorem ModuleBuilder.after_wellBuilt (name : String) (steps : List Step)
    (small : (after name steps).Small) :
    (after name steps).build.WellBuilt ∧
      ∃ ds, (after name steps).build.defects = .ok ds ∧ ∀ d ∈ ds, d.named = true := by
  have built := (sound_after name steps).wellBuilt small
  exact ⟨built, built.defects⟩

/-- Two functions of one name that are built in turns. A copy without a block to put it in crashes
after it made a register, one input of a phi is given twice, and operands name what is not there. -/
def ModuleBuilder.inTurns : List Step := [
  .addFunction "main" [] .i64, .addFunction "main" [.i64, .bool] .i64,
  .addExternal "print" [.i64] .void,
  .onFunction ⟨0⟩ (.copy ⟨7⟩), .onFunction ⟨0⟩ .newBlock, .onFunction ⟨1⟩ .newBlock,
  .onFunction ⟨0⟩ (.undef .i64), .onFunction ⟨1⟩ (.phi .i64),
  .onFunction ⟨1⟩ (.addIncoming ⟨2⟩ ⟨0⟩ ⟨0⟩), .onFunction ⟨1⟩ (.addIncoming ⟨2⟩ ⟨5⟩ ⟨0⟩),
  .onFunction ⟨1⟩ (.addIncoming ⟨2⟩ ⟨0⟩ ⟨2⟩), .onFunction ⟨0⟩ (.call ⟨2⟩ .void []),
  .onFunction ⟨1⟩ (.call ⟨9⟩ .i64 [⟨0⟩]), .onFunction ⟨1⟩ (.loadGlobal ⟨1⟩ .i64),
  .onFunction ⟨0⟩ (.br ⟨3⟩), .onFunction ⟨2⟩ .newBlock]

theorem ModuleBuilder.after_wellBuilt_inTurns :
    (after "m" inTurns).Small ∧ (after "m" inTurns).build.WellBuilt ∧
      (∃ ds, (after "m" inTurns).build.defects = .ok ds ∧ ∀ d ∈ ds, d.named = true) ∧
      (after "m" inTurns).build.defects = .ok [
        .inFunction "main" (.branchTarget ⟨0⟩ ⟨3⟩),
        .inFunction "main" (.callArguments ⟨0⟩ "print" 0 1),
        .duplicateName "main",
        .inFunction "main" (.phiPredecessor ⟨0⟩ ⟨2⟩ ⟨5⟩),
        .inFunction "main" (.unknownCallee ⟨0⟩ ⟨9⟩),
        .inFunction "main" (.unknownGlobal ⟨0⟩ ⟨1⟩)] := by
  have small : (after "m" inTurns).Small :=
    ⟨by decide +kernel, by decide +kernel, by decide +kernel, by decide +kernel⟩
  have built := after_wellBuilt "m" inTurns small
  exact ⟨small, built.1, built.2, by decide +kernel⟩

end TieredEngine.Ir
