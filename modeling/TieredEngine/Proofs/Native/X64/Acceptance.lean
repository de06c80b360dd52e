import TieredEngine.Native.X64.Baseline
import TieredEngine.Proofs.Eval.Safety

/-!
What the generator has confirmed of a function that it makes code for, and what that means for the
evaluator. The code tests neither that registers are defined nor their types. The typing check does
not ask that operands of integer operations are integers, so a register of type void gets through
it, and through the generator; for functions that compute on words only, acceptance leaves the
evaluator no way to fail but a place declared unreachable.
-/
namespace TieredEngine.Native.X64
open TieredEngine TieredEngine.Ir TieredEngine.Eval

namespace Baseline

/-- The phis of the block with the most. -/
def mostPhis (blocks : List Block) : Nat := blocks.foldl (fun n b => max n b.phis.length) 0

theorem length_phis_le {blocks : List Block} {b : Block} (member : b ∈ blocks) :
    b.phis.length ≤ mostPhis blocks := by
  have most : ∀ (bs : List Block) (n : Nat), n ≤ bs.foldl (fun n b => max n b.phis.length) n ∧
      ∀ b ∈ bs, b.phis.length ≤ bs.foldl (fun n b => max n b.phis.length) n := by
    intro bs
    induction bs with
    | nil => simp
    | cons x bs ih =>
      intro n
      obtain ⟨grows, covers⟩ := ih (max n x.phis.length)
      rw [List.foldl_cons]
      exact ⟨by omega, List.forall_mem_cons.mpr ⟨by omega, covers⟩⟩
  exact (most blocks 0).2 b member

theorem frameSize_eq (regs : Nat) (blocks : List Block) :
    frameSize regs blocks = (8 * (regs + mostPhis blocks) + 15) / 16 * 16 := rfl

/-- What is known of a function that passes the generator's check. -/
structure Checked (f : Function) : Prop where
  internal : f.isExternal = false
  few : f.sig.params.length ≤ X64.Reg.arguments.length
  frame : ∃ blocks, f.allBlocks = .ok blocks ∧ frameSize f.regTypes.size blocks ≤ maxFrame
  result : f.sig.ret = .void ∨ f.sig.ret.isIntLike = true
  words : ∀ r t, f.regType? r = some t → t = .void ∨ t.isIntLike = true
  insts : ∀ id b, f.block? id = some b → ∀ i ∈ b.insts, checkInst i = .ok ()
  terms : ∀ id b, f.block? id = some b → b.term ≠ .missing
  typed : f.typingErrors = .ok []

/-- What is known of a function for which the generator has made code. -/
structure Accepts (f : Function) (c : CompiledCode) : Prop extends Checked f where
  convention : ∃ v, Convention.ofSignature f.sig = .ok v ∧ c.convention = some v
  code : machineCode f = .ok c.code

/-- A test that refuses was not met. -/
theorem unless_eq_ok {α : Type} {p : Prop} [Decidable p] {r : Refusal} {k : Unit → Lower α} {a : α} :
    (if p then refuse r >>= k else k ()) = .ok a ↔ ¬ p ∧ k () = .ok a := by
  split
  · next met => exact ⟨by rintro ⟨⟩, fun ⟨unmet, _⟩ => absurd met unmet⟩
  · next unmet => exact ⟨fun done => ⟨unmet, done⟩, And.right⟩

theorem pure_of_checkInst {i : Inst} (allowed : checkInst i = .ok ()) :
    i.op.hasEffects = false ∧ i.op ≠ .loadGlobal := by
  cases op : i.op <;> simp [checkInst, op, Op.isFloat, refuse, Op.hasEffects] at allowed ⊢

theorem checkBlock_eq_ok {b : Block} {u : Unit} (passed : checkBlock b = .ok u) :
    (∀ i ∈ b.insts, checkInst i = .ok ()) ∧ b.term ≠ .missing := by
  obtain ⟨_, insts, term⟩ := bind_eq_ok.mp passed
  refine ⟨fun i member => forM_eq_ok.mp insts i member, fun missing => ?_⟩
  simp [missing, refuse] at term

theorem checked_of_check {f : Function} {u : Unit} (passed : check f = .ok u) : Checked f := by
  unfold check at passed
  obtain ⟨internal, passed⟩ := unless_eq_ok.mp passed
  obtain ⟨few, passed⟩ := unless_eq_ok.mp passed
  obtain ⟨blocks, all, passed⟩ := bind_eq_ok.mp passed
  obtain ⟨frame, passed⟩ := unless_eq_ok.mp passed
  obtain ⟨result, passed⟩ := unless_eq_ok.mp passed
  have all := Crash.lift_eq_ok.mp all
  split at passed
  · cases passed
  · next words =>
    obtain ⟨_, inBlocks, passed⟩ := bind_eq_ok.mp passed
    obtain ⟨errors, found, none⟩ := bind_eq_ok.mp passed
    have each : ∀ id b, f.block? id = some b →
        (∀ i ∈ b.insts, checkInst i = .ok ()) ∧ b.term ≠ .missing := fun id b found =>
      checkBlock_eq_ok (forM_eq_ok.mp inBlocks b (Function.mem_of_block? all found))
    have empty : errors = [] := by
      split at none
      · cases none
      · next fine => simpa using fine
    refine ⟨by simpa using internal, by simpa using few, ⟨blocks, all, by simpa using frame⟩,
      or_iff_not_imp_left.mpr (by simpa using result), fun r t known => ?_, fun id b found => (each id b found).1,
      fun id b found => (each id b found).2, ?_⟩
    · obtain ⟨bound, at_r⟩ := Array.getElem?_eq_some_iff.mp known
      have fine := List.find?_eq_none.mp words (r.num, t)
        (List.mem_mapIdx.mpr ⟨r.num, by simpa using bound, by simpa using at_r⟩)
      exact or_iff_not_imp_left.mpr (by simpa using fine)
    · rw [← empty]
      exact Crash.lift_eq_ok.mp found

theorem accepts_of_compile {f : Function} {c : CompiledCode} (made : compile f = .ok c) :
    Accepts f c := by
  have made : compileOrRefuse f = .ok c := mapError_eq_ok.mp made
  obtain ⟨_, passed, made⟩ := bind_eq_ok.mp made
  obtain ⟨v, placed, made⟩ := bind_eq_ok.mp made
  obtain ⟨code, coded, same⟩ := bind_eq_ok.mp made
  cases same
  exact ⟨checked_of_check passed, ⟨v, mapError_eq_ok.mp placed, rfl⟩, coded⟩

end Baseline

/-- Operations on integers, conversions apart, are not given registers of type void. The typing
check does not ask for this. -/
def ComputesOnWords (f : Function) : Prop :=
  ∀ id b, f.Reachable id → f.block? id = some b → ∀ i ∈ b.insts, i.op ∉ Op.plain →
    ∀ r ∈ i.args, f.regType? r ≠ some .void

theorem Baseline.Accepts.total {f : Function} {c : CompiledCode} (accepts : Baseline.Accepts f c)
    {i : Inst} (allowed : Baseline.checkInst i = .ok ()) (sorted : i.WellTyped f)
    (words : i.op ∉ Op.plain → ∀ r ∈ i.args, f.regType? r ≠ some .void) : Total f i := by
  have int : ∀ r t, f.regType? r = some t → t ≠ .void → t.isIntLike = true := fun r t known other =>
    (accepts.words r t known).resolve_left other
  obtain ⟨types, has, takes⟩ := sorted
  refine ⟨?_, Baseline.pure_of_checkInst allowed, fun op => ?_, ?_⟩
  · cases float : i.op.isFloat with
    | false => rfl
    | true => simp [Baseline.checkInst, float, Baseline.refuse] at allowed
  · obtain ⟨_, _, _, other, known⟩ := takes.of_cast op
    exact int _ _ known other
  · rintro (op | computes) r member t known
    · obtain ⟨a, rfl, other, _⟩ := takes.of_cast op
      obtain ⟨_, single, known'⟩ := forall₂_partner has member
      cases List.mem_singleton.mp single
      exact int r t known (Option.some.inj (known.symm.trans known') ▸ other)
    · exact int r t known fun void => words computes r member (void ▸ known)

theorem Baseline.Accepts.steady {m : Module} {f : Function} {c : CompiledCode}
    (accepts : Baseline.Accepts f c) (clean : f.defects m = []) (words : ComputesOnWords f) :
    Steady f := by
  have numbered := (Function.wellNumbered_of_defects clean accepts.internal).1
  have typed := Function.wellTyped_of_typed numbered accepts.internal accepts.typed
  refine ⟨numbered, Function.grounded_of_typed numbered accepts.internal accepts.typed, typed, ?_,
    fun id b _ found => accepts.terms id b found⟩
  intro id b reached found i member
  obtain ⟨prev, written, path⟩ := reached.arrives
  exact accepts.total (accepts.insts id b found i member)
    ((typed.blocks prev id written b path found).insts i member) (words id b reached found i member)

/-- A function that the generator makes code for, and that gives no register of type void to an
operation on integers, does not fail in the evaluator: called with arguments of its signature, it
returns a value or stops at a place declared unreachable, unless it runs on. -/
theorem compiled_never_fails {κ ε : Type} {m : Module} (accepted : m.defects = .ok []) {id : FuncId}
    {f : Function} (found : m.function? id = some f) {c : CompiledCode}
    (made : Baseline.compile f = .ok c) (words : ComputesOnWords f) {setup : Setup}
    (positive : 0 < setup.maxDepth) {args : List Value} (matching : args.map (·.ty) = f.sig.params)
    (fuel : Nat) (w : World κ) :
    Settled (runAt (ε := ε) setup m fuel 0 id args w).result ∨
      (runAt (ε := ε) setup m fuel 0 id args w).result = .error .outOfFuel := by
  have accepts := Baseline.accepts_of_compile made
  have steady := accepts.steady (Module.function_of_accepted accepted found).1 words
  exact steady.runAt accepted found accepts.internal (by simpa using positive) matching fuel w

/-- Adds its argument to itself. -/
def doubled : Function := {
  name := "doubled"
  sig := { params := [.i64], ret := .i64 }
  params := [⟨0⟩]
  regTypes := #[.i64, .i64]
  blocks := #[
    some { id := ⟨0⟩, insts := [{ op := .add, dest := ⟨1⟩, ty := .i64, args := [⟨0⟩, ⟨0⟩] }],
           term := .ret (some ⟨1⟩) }] }

theorem compiled_never_fails_doubled :
    Settled (runAt {} { functions := #[doubled] } 3 0 ⟨0⟩ [.ofInt .i64 21]
      (⟨#[], [], ()⟩ : World Unit) : Frame.Finished Unit Unit).result := by
  obtain ⟨c, made⟩ : ∃ c, Baseline.compile doubled = .ok c := by
    have some : (Baseline.compile doubled).toOption.isSome = true := by decide +kernel
    cases made : Baseline.compile doubled with
    | ok c => exact ⟨c, rfl⟩
    | error e => simp [made, Except.toOption] at some
  have words : ComputesOnWords doubled := by
    intro id b _ found i member _ r used
    have typed : ∀ b? ∈ doubled.blocks, ∀ b, b? = some b → ∀ i ∈ b.insts, ∀ r ∈ i.args,
        doubled.regType? r ≠ some .void := by decide +kernel
    exact typed _ (Array.mem_of_getElem? (Function.block?_eq_some.mp found)) b rfl i member r used
  have finished : (runAt {} { functions := #[doubled] } 3 0 ⟨0⟩ [.ofInt .i64 21]
      (⟨#[], [], ()⟩ : World Unit) : Frame.Finished Unit Unit).result ≠ .error .outOfFuel := by
    decide +kernel
  exact (compiled_never_fails (m := { functions := #[doubled] }) (by decide +kernel) rfl made words
    (by decide) rfl 3 ⟨#[], [], ()⟩).resolve_right finished

/-- Adds a register of type void to itself, and returns one. -/
def voidSum : Function := {
  name := "voidSum"
  sig := { params := [], ret := .i32 }
  regTypes := #[.void, .void, .i32]
  blocks := #[
    some { id := ⟨0⟩,
           insts := [{ op := .undef, dest := ⟨0⟩, ty := .void },
                     { op := .add, dest := ⟨1⟩, ty := .void, args := [⟨0⟩, ⟨0⟩] },
                     { op := .const, dest := ⟨2⟩, ty := .i32, const := .ofInt .i32 1 }],
           term := .ret (some ⟨2⟩) }] }

/-- Code is made for the sum of registers of type void, on which the evaluator fails. -/
theorem compiled_voidSum_fails :
    ({ functions := #[voidSum] } : Module).defects = .ok [] ∧
      (Baseline.compile voidSum).toOption.isSome = true ∧
      (runAt {} { functions := #[voidSum] } 3 0 ⟨0⟩ [] (⟨#[], [], ()⟩ : World Unit) :
        Frame.Finished Unit Unit).result =
        .error (.fault ⟨"voidSum", ⟨0⟩, .needsInteger .add .void⟩) := by
  decide +kernel

end TieredEngine.Native.X64
