import TieredEngine.Proofs.Ir.Reachability
import TieredEngine.Proofs.Ir.WellTyped

/-!
What a translation relies on without looking: each instruction has the operands that its operation
reads, they have the types that the operation takes, and what an operation reads besides its operands
agrees with them. The typing check sees to the operands and their types, but the rest is beyond it: the
kinds of type that integer and floating-point operations are for, a source type that a cast names
itself, the results of calls and the contents of globals.
-/
namespace TieredEngine.Ir

/-- As many operands are there as the operation reads. -/
def Inst.Supplied (i : Inst) : Prop := (Typing.arity? i.op).getD 0 ≤ i.args.length

/-- What the operation reads besides its operands agrees with them, and their types are of the kind that
the operation is for. -/
def Inst.Suits (m : Module) (f : Function) (i : Inst) (types : List Ty) : Prop :=
  match i.op, types with
  | .cast, [a] => i.source = .void ∨ i.source = a
  | .call, _ => ∀ g t, m.function? i.callee = some g → f.regType? i.dest = some t →
      t = .void ∨ t = g.sig.ret
  | .storeGlobal, [a] => ∀ g, m.global? i.global = some g → a = g.ty
  | .neg, [a] | .not, [a] | .div, [a, _] | .rem, [a, _] => a.isIntLike = true
  | op, [a, _] => op.isCompare = true → if op.isFloat then a.isFloat = true else a.isIntLike = true
  | _, _ => True

/-- The instruction can be translated as it stands. -/
def Inst.Translatable (m : Module) (f : Function) (i : Inst) : Prop :=
  ∃ types, f.Types i.args types ∧ i.Takes f types ∧ i.Suits m f types

/-- A branch on a condition is on a word. -/
def Term.OnWord (f : Function) : Term → Prop
  | .condBr c _ _ => ∃ t, f.regType? c = some t ∧ t.isIntLike = true
  | _ => True

structure Block.Translatable (m : Module) (f : Function) (b : Block) : Prop where
  phis : ∀ p ∈ b.phis, f.regType? p.dest = some p.ty
  insts : ∀ i ∈ b.insts, i.Translatable m f
  term : b.term.OnWord f

/-- Every instruction that is reached has its operands. -/
def Function.Supplied (f : Function) : Prop :=
  ∀ id b, f.Reachable id → f.block? id = some b → ∀ i ∈ b.insts, i.Supplied

/-- The parameters have the types of the signature, and everything that is reached can be translated. -/
structure Function.Translatable (m : Module) (f : Function) : Prop where
  params : ∀ p t, (p, t) ∈ f.params.zip f.sig.params → ∀ s, f.regType? p = some s → s = t
  block : ∀ id b, f.Reachable id → f.block? id = some b → b.Translatable m f

namespace Inst

variable {m : Module} {f : Function} {i : Inst} {types : List Ty}

/-- There are as many types as the operation takes operands. -/
theorem Takes.length (takes : i.Takes f types) {n : Nat} (arity : Typing.arity? i.op = some n) :
    types.length = n := by
  unfold Takes at takes
  split at takes
  case h_10 => simpa [Typing.arity?_unary takes.1] using arity
  case h_11 =>
    split at takes
    · next binary => simpa [Typing.arity?_binary binary] using arity
    · simpa [Typing.arity?_compare takes.1] using arity
  all_goals simp_all [Typing.arity?]

theorem Takes.of_unary (takes : i.Takes f types) (unary : i.op.isUnary = true) :
    types = [i.ty] ∧ f.regType? i.dest = some i.ty := by
  obtain ⟨a, rfl⟩ := List.length_eq_one_iff.mp (takes.length (Typing.arity?_unary unary))
  obtain ⟨rfl, dest⟩ := (takes_unary unary).mp takes
  exact ⟨rfl, dest⟩

theorem Takes.of_binary (takes : i.Takes f types) (binary : i.op.isBinary = true) :
    types = [i.ty, i.ty] ∧ f.regType? i.dest = some i.ty := by
  obtain ⟨a, b, rfl⟩ := List.length_eq_two.mp (takes.length (Typing.arity?_binary binary))
  obtain ⟨rfl, rfl, dest⟩ := (takes_binary binary).mp takes
  exact ⟨rfl, dest⟩

theorem Takes.of_compare (takes : i.Takes f types) (compares : i.op.isCompare = true) :
    ∃ a, types = [a, a] ∧ f.regType? i.dest = some .bool := by
  obtain ⟨a, b, rfl⟩ := List.length_eq_two.mp (takes.length (Typing.arity?_compare compares))
  obtain ⟨rfl, dest⟩ := (takes_compare compares).mp takes
  exact ⟨a, rfl, dest⟩

theorem Takes.of_const (takes : i.Takes f types) (op : i.op = .const) :
    f.regType? i.dest = some i.const.ty := by
  obtain rfl := List.length_eq_zero_iff.mp (takes.length (n := 0) (by rw [op]; rfl))
  simpa [Takes, op] using takes

/-- The result has the type that is written with the operation. -/
theorem Takes.of_typed (takes : i.Takes f types) (op : i.op = .undef ∨ i.op = .loadGlobal) :
    f.regType? i.dest = some i.ty := by
  obtain rfl := List.length_eq_zero_iff.mp
    (takes.length (n := 0) (by rcases op with op | op <;> rw [op] <;> rfl))
  rcases op with op | op <;> simpa [Takes, op] using takes

theorem Takes.of_copy (takes : i.Takes f types) (op : i.op = .copy) :
    ∃ a, types = [a] ∧ f.regType? i.dest = some a := by
  obtain ⟨a, rfl⟩ := List.length_eq_one_iff.mp (takes.length (n := 1) (by rw [op]; rfl))
  exact ⟨a, rfl, by simpa [Takes, op] using takes⟩

theorem Takes.of_select (takes : i.Takes f types) (op : i.op = .select) :
    ∃ a, types = [.bool, a, a] ∧ f.regType? i.dest = some a := by
  obtain ⟨c, a, b, rfl⟩ := List.length_eq_three.mp (takes.length (n := 3) (by rw [op]; rfl))
  obtain ⟨rfl, rfl, dest⟩ : c = .bool ∧ a = b ∧ f.regType? i.dest = some a := by
    simpa [Takes, op] using takes
  exact ⟨a, rfl, dest⟩

theorem Suits.of_compare {a b : Ty} (suits : i.Suits m f [a, b]) (compares : i.op.isCompare = true) :
    if i.op.isFloat then a.isFloat = true else a.isIntLike = true := by
  unfold Suits at suits
  split at suits <;> simp_all [Op.isCompare]

theorem Translatable.wellTyped (fits : i.Translatable m f) : i.WellTyped f :=
  fits.imp fun _ known => ⟨known.1, known.2.1⟩

theorem WellTyped.supplied (typed : i.WellTyped f) : i.Supplied := by
  obtain ⟨types, known, takes⟩ := typed
  unfold Supplied
  cases arity : Typing.arity? i.op with
  | none => exact Nat.zero_le _
  | some n => exact ((List.Forall₂.length_eq known).trans (takes.length arity)).ge

/-- What an instruction names besides its operands matters by its type only. -/
theorem Translatable.rename {m' : Module} {f' : Function} {callee : FuncId} {global : GlobalId}
    (types : f'.regType? = f.regType?)
    (callees : i.op = .call → ∀ g', m'.function? callee = some g' →
      ∃ g, m.function? i.callee = some g ∧ g.sig = g'.sig)
    (globals : i.op = .storeGlobal → ∀ g', m'.global? global = some g' →
      ∃ g, m.global? i.global = some g ∧ g.ty = g'.ty)
    (translates : i.Translatable m f) : ({ i with callee, global } : Inst).Translatable m' f' := by
  obtain ⟨ts, operands, takes, suits⟩ := translates
  refine ⟨ts, ?_, by simpa only [Takes, types] using takes, ?_⟩
  · unfold Function.Types at operands ⊢
    rwa [types]
  · unfold Suits at suits ⊢
    split at suits
    case h_2 op =>
      simp only [op]
      intro g' t found dest
      obtain ⟨g, there, sig⟩ := callees op g' found
      rw [types] at dest
      rw [← sig]
      exact suits g t there dest
    case h_3 op =>
      simp only [op]
      intro g' found
      obtain ⟨g, there, ty⟩ := globals op g' found
      rw [← ty]
      exact suits g there
    case h_9 => trivial
    all_goals split <;> simp_all

end Inst

/-- `f'` of `m'` is to be lowered under the name and the signature of `f` of `m`, and is as easy to lower. -/
structure Function.StaysReady (m m' : Module) (f f' : Function) : Prop where
  name : f'.name = f.name
  sig : f'.sig = f.sig
  external : f'.isExternal = f.isExternal
  supplied : f.Supplied → f'.Supplied
  translatable : f.Translatable m → f'.Translatable m'

namespace Function.StaysReady
variable {m m' m'' : Module} {f f' f'' : Function}

theorem trans (first : StaysReady m m' f f') (second : StaysReady m' m'' f' f'') :
    StaysReady m m'' f f'' where
  name := second.name.trans first.name
  sig := second.sig.trans first.sig
  external := second.external.trans first.external
  supplied := second.supplied ∘ first.supplied
  translatable := second.translatable ∘ first.translatable

/-- A function whose instructions are changed in what they name besides their operands. -/
theorem of_rename {g : Block → Block} (name : f'.name = f.name) (sig : f'.sig = f.sig)
    (params : f'.params = f.params) (entry : f'.entry = f.entry) (regTypes : f'.regTypes = f.regTypes)
    (blocks : f'.blocks = f.blocks.map (·.map g)) (phis : ∀ b, (g b).phis = b.phis)
    (term : ∀ b, (g b).term = b.term)
    (insts : ∀ id b, f.block? id = some b → ∀ i' ∈ (g b).insts, ∃ i ∈ b.insts,
      i'.op = i.op ∧ i'.args = i.args ∧ (i.Translatable m f → i'.Translatable m' f')) :
    StaysReady m m' f f' := by
  have found : ∀ id b', f'.block? id = some b' → ∃ b, f.block? id = some b ∧ g b = b' := by
    intro id b' there
    have same : f'.block? id = (f.mapBlocks g).block? id := by
      rw [block?, block?, mapBlocks, blocks]
    exact block_of_mapBlocks (same ▸ there)
  have reached : ∀ {id}, f'.Reachable id → f.Reachable id := fun live =>
    live.of_branches entry fun id c there => by
      obtain ⟨b, before, rfl⟩ := found id c there
      exact ⟨b, before, by rw [term]⟩
  have types : f'.regType? = f.regType? := by
    funext r
    rw [regType?, regType?, regTypes]
  constructor
  case name => exact name
  case sig => exact sig
  case external => simp [isExternal, blocks, Array.isEmpty]
  case supplied =>
    intro supplied id b' live there i' member
    obtain ⟨b, before, rfl⟩ := found id b' there
    obtain ⟨i, inside, op, args, -⟩ := insts id b before i' member
    unfold Inst.Supplied
    rw [op, args]
    exact supplied id b (reached live) before i inside
  case translatable =>
    intro translates
    refine ⟨by rw [params, sig, types]; exact translates.params, fun id b' live there => ?_⟩
    obtain ⟨b, before, rfl⟩ := found id b' there
    have fine := translates.block id b (reached live) before
    refine ⟨by rw [phis, types]; exact fine.phis, fun i' member => ?_, ?_⟩
    · obtain ⟨i, inside, -, -, same⟩ := insts id b before i' member
      exact same (fine.insts i inside)
    · rw [term]
      have word := fine.term
      unfold Term.OnWord at word ⊢
      rw [types]
      exact word

end Function.StaysReady

/-- Every function of `m'` comes from one of `m` that is no easier to lower. -/
def Module.StaysReady (m m' : Module) : Prop :=
  ∀ f' ∈ m'.functions, ∃ f ∈ m.functions, f.StaysReady m m' f'

theorem Module.StaysReady.refl (m : Module) : m.StaysReady m :=
  fun f member => ⟨f, member, rfl, rfl, rfl, id, id⟩

theorem Module.StaysReady.trans {m m' m'' : Module} (first : m.StaysReady m')
    (second : m'.StaysReady m'') : m.StaysReady m'' := by
  intro f'' member
  obtain ⟨f', listed, late⟩ := second f'' member
  obtain ⟨f, source, early⟩ := first f' listed
  exact ⟨f, source, early.trans late⟩

end TieredEngine.Ir
