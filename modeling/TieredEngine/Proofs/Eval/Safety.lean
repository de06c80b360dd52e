import TieredEngine.Proofs.Eval.Definite
import TieredEngine.Proofs.Ir.WellTyped

/-!
Runs that cannot fail. Operations on integer words have a value on operands of their types, so a
checked function that makes no call, divides nothing and leaves the globals alone runs until it
returns or comes to a place that it declares unreachable.
-/
namespace TieredEngine.Eval
open TieredEngine.Ir

variable {κ ε : Type}

theorem unary_total {op : Op} {t : Ty} {x : Value} (is : op.isUnary = true)
    (word : op.isFloat = false) (typed : x.ty = t) (int : t.isIntLike = true) :
    ∃ v, unary op t x = .ok v ∧ v.ty = t := by
  unfold unary
  rw [if_neg (not_not.mpr typed)]
  split
  · rw [if_neg (by simp [int])]
    exact ⟨_, rfl, rfl⟩
  · split
    · next bool => exact ⟨_, rfl, bool.symm⟩
    · rw [if_neg (by simp [int])]
      exact ⟨_, rfl, rfl⟩
  · cases word
  · cases op <;> contradiction

theorem binary_total {op : Op} {t : Ty} {x y : Value} (is : op.isBinary = true)
    (word : op.isFloat = false) (divides : op ≠ .div ∧ op ≠ .rem) (left : x.ty = t)
    (right : y.ty = t) (int : t.isIntLike = true) : ∃ v, binary op t x y = .ok v ∧ v.ty = t := by
  unfold binary
  rw [if_neg (by simp [left, right]), if_neg (by simp [word]), if_neg (by simp [int])]
  dsimp only
  split
  · exact ⟨_, rfl, rfl⟩
  · exact ⟨_, rfl, rfl⟩
  · exact ⟨_, rfl, rfl⟩
  · exact absurd rfl divides.1
  · exact absurd rfl divides.2
  · exact ⟨_, rfl, rfl⟩
  · exact ⟨_, rfl, rfl⟩
  · exact ⟨_, rfl, rfl⟩
  · exact ⟨_, rfl, rfl⟩
  · split <;> exact ⟨_, rfl, rfl⟩
  · cases op <;> contradiction

theorem compare_total {op : Op} {x y : Value} (is : op.isCompare = true) (word : op.isFloat = false)
    (same : y.ty = x.ty) (int : x.ty.isIntLike = true) :
    ∃ v, compare op x y = .ok v ∧ v.ty = .bool := by
  unfold compare
  dsimp only
  rw [if_neg (not_not.mpr same), if_neg (by simp [word]), if_neg (by simp [int])]
  split
  all_goals first | exact ⟨_, rfl, rfl⟩ | (cases op <;> contradiction)

theorem cast_total {t : Ty} {x : Value} (source : x.ty.isIntLike = true)
    (target : t.isIntLike = true) : ∃ v, cast t x = .ok v ∧ v.ty = t := by
  have left : t ≠ .void := by
    rintro rfl
    cases target
  have right : x.ty ≠ .void := by
    intro void
    rw [void] at source
    cases source
  unfold cast
  dsimp only
  rw [if_neg (by simp [left, right])]
  split
  · next bool => split <;> exact ⟨_, rfl, bool.symm⟩
  · exact ⟨_, rfl, rfl⟩

/-- An instruction that always has a value: an operation on integer words without division, or one
that only moves values. -/
structure Total (f : Function) (i : Inst) : Prop where
  word : i.op.isFloat = false
  pure : i.op.hasEffects = false ∧ i.op ≠ .loadGlobal
  target : i.op = .cast → i.ty.isIntLike = true
  operands : i.op = .cast ∨ i.op ∉ Op.plain → ∀ r ∈ i.args, ∀ t, f.regType? r = some t →
    t.isIntLike = true

/-- On operands of its types such an instruction has a value, of the type of the register it
writes. -/
theorem Total.compute {f : Function} {i : Inst} (total : Total f i) {types : List Ty}
    (has : f.Types i.args types) (takes : i.Takes f types) {vs : List Value}
    (typed : vs.map (·.ty) = types) (globals : Array Value) :
    ∃ v, compute globals i vs = .ok v ∧ f.regType? i.dest = some v.ty := by
  have ints : i.op = .cast ∨ i.op ∉ Op.plain → ∀ v ∈ vs, v.ty.isIntLike = true := by
    intro computes v member
    obtain ⟨r, inside, known⟩ := forall₂_partner has.flip
      (show v.ty ∈ types by rw [← typed]; exact List.mem_map_of_mem member)
    exact total.operands computes r inside _ known
  obtain ⟨effects, loads⟩ := total.pure
  unfold Inst.Takes at takes
  split at takes
  · next op => exact ⟨i.const, by simp only [Eval.compute, op], takes⟩
  · next op => exact ⟨.zero i.ty, by simp only [Eval.compute, op], takes⟩
  · next op => exact absurd op loads
  · next a op =>
    obtain ⟨x, rfl, rfl⟩ := List.map_eq_singleton_iff.mp typed
    exact ⟨x, by simp only [Eval.compute, op], takes⟩
  · next a op =>
    obtain ⟨x, rfl, rfl⟩ := List.map_eq_singleton_iff.mp typed
    obtain ⟨v, computed, type⟩ := cast_total (ints (.inl op) x (by simp)) (total.target op)
    exact ⟨v, by simpa only [Eval.compute, op] using computed, by rw [takes.2.2, type]⟩
  · next c a b op =>
    obtain ⟨x, y, z, rfl⟩ := List.length_eq_three.mp (by simpa using congrArg List.length typed)
    simp only [List.map_cons, List.map_nil, List.cons.injEq, and_true] at typed
    obtain ⟨rfl, rfl, rfl⟩ := typed
    obtain ⟨condition, same, result⟩ := takes
    refine ⟨if x.toBool then y else z, ?_, ?_⟩
    · simp [Eval.compute, op, select, condition, same]
    · rw [result]
      split
      · rfl
      · rw [same]
  · next op => simp [op, Op.hasEffects] at effects
  · next op => simp [op, Op.hasEffects] at effects
  · next op => simp [op, Op.hasEffects] at effects
  · obtain ⟨x, rfl, rfl⟩ := List.map_eq_singleton_iff.mp typed
    obtain ⟨is, same, result⟩ := takes
    have computes := Op.not_plain (.inl is)
    obtain ⟨v, computed, type⟩ := unary_total is total.word same
      (same ▸ ints (.inr computes) x (by simp))
    refine ⟨v, ?_, by rw [result, type]⟩
    rw [compute_eq_operate computes]
    simpa only [operate, is, if_true] using computed
  · obtain ⟨x, y, rfl⟩ := List.length_eq_two.mp (by simpa using congrArg List.length typed)
    simp only [List.map_cons, List.map_nil, List.cons.injEq, and_true] at typed
    obtain ⟨rfl, rfl⟩ := typed
    split at takes
    · next is =>
      obtain ⟨left, right, result⟩ := takes
      have computes := Op.not_plain (.inr (.inl is))
      have divides : i.op ≠ .div ∧ i.op ≠ .rem := by
        constructor <;> intro op <;> simp [op, Op.hasEffects] at effects
      obtain ⟨v, computed, type⟩ := binary_total is total.word divides left right
        (left ▸ ints (.inr computes) x (by simp))
      refine ⟨v, ?_, by rw [result, type]⟩
      rw [compute_eq_operate computes]
      simpa [operate, is, Op.isUnary_of_binary is] using computed
    · obtain ⟨is, same, result⟩ := takes
      have computes := Op.not_plain (.inr (.inr is))
      obtain ⟨notUnary, notBinary⟩ := Op.other_of_compare is
      obtain ⟨v, computed, type⟩ := compare_total is total.word same.symm
        (ints (.inr computes) x (by simp))
      refine ⟨v, ?_, by rw [result, type]⟩
      rw [compute_eq_operate computes]
      simpa [operate, notUnary, notBinary] using computed
  · exact takes.elim

namespace Frame

/-- Every register that has been written holds a value of its type. -/
def WellTyped (fr : Frame) : Prop := ∀ r v, fr.reg? r = some v → fr.function.regType? r = some v.ty

namespace WellTyped

variable {fr g : Frame}

theorem set (typed : fr.WellTyped) {r : Reg} {v : Value} (done : fr.set r v = .ok g) :
    g.WellTyped := by
  obtain ⟨known, rfl⟩ := set_eq_ok.mp done
  intro x y held
  unfold Frame.reg? Frame.put at held
  rw [Array.getElem?_setIfInBounds] at held
  split at held
  · next same =>
    split at held
    · cases held
      rw [← Reg.num_inj.mp same]
      exact known
    · cases held
  · exact typed x y held

theorem reads (typed : fr.WellTyped) {rs : List Reg} {vs : List Value} (reads : fr.Reads rs vs) :
    fr.function.Types rs (vs.map (·.ty)) :=
  List.forall₂_map_right_iff.mpr (reads.imp fun r v held => typed r v held)

theorem setAll {xs : List (Reg × Value)} (typed : fr.WellTyped) (done : fr.setAll xs = .ok g) :
    g.WellTyped := by
  induction xs generalizing fr with
  | nil =>
    cases done
    exact typed
  | cons x xs ih =>
    obtain ⟨fr₁, first, rest⟩ := bind_eq_ok.mp done
    exact ih (typed.set first) rest

theorem applyPhis {b : Block} {prev : Option BlockId} (typed : fr.WellTyped)
    (done : fr.applyPhis b prev = .ok g) : g.WellTyped := by
  unfold Frame.applyPhis at done
  split at done
  · cases done
    exact typed
  · unfold resolvePhis at done
    split at done
    · cases done
    · obtain ⟨xs, _, written⟩ := bind_eq_ok.mp done
      exact typed.setAll written

theorem execAll {call : Call κ ε} {known : FuncId → Bool} {w w' : World κ} {is : List Inst}
    (typed : fr.WellTyped) (done : Frame.execAll call known is fr w = (.ok g, w')) :
    g.WellTyped := by
  induction is generalizing fr w with
  | nil =>
    cases done
    exact typed
  | cons i is ih =>
    unfold Frame.execAll at done
    split at done
    · cases done
    · next fr₁ w₁ ran =>
      have first : fr₁.WellTyped := by
        rcases exec_ok ran with ⟨_, rfl⟩ | ⟨v, _, set⟩
        · exact typed
        · exact typed.set set
      have counted : ({ fr₁ with stats := { fr.stats with insts := fr.stats.insts + 1 } } :
        Frame).WellTyped := first
      exact ih counted done

end WellTyped

/-- Values of the types that the registers declare can all be written. -/
theorem setAll_total {fr : Frame} {xs : List (Reg × Value)}
    (typed : ∀ x ∈ xs, fr.function.regType? x.1 = some x.2.ty) : ∃ g, fr.setAll xs = .ok g := by
  induction xs generalizing fr with
  | nil => exact ⟨fr, rfl⟩
  | cons x xs ih =>
    have first : fr.set x.1 x.2 = .ok (fr.put x.1 x.2) := set_eq_ok.mpr ⟨typed x (by simp), rfl⟩
    obtain ⟨g, rest⟩ : ∃ g, (fr.put x.1 x.2).setAll xs = .ok g :=
      ih fun y member => typed y (by simp [member])
    exact ⟨g, bind_eq_ok.mpr ⟨_, first, rest⟩⟩

section Progress

variable {f : Function} {written : List Reg} {fr : Frame} (follows : fr.Follows f written)
  (typed : fr.WellTyped)
include follows typed

theorem applyPhis_total {b : Block} {prev : Option BlockId} (grounded : b.Grounded f prev written)
    (sorted : b.WellTyped f prev) : ∃ g, fr.applyPhis b prev = .ok g := by
  unfold applyPhis
  split
  · exact ⟨fr, rfl⟩
  · next some =>
    obtain ⟨p, member⟩ := List.exists_mem_of_ne_nil b.phis (by simpa using some)
    obtain ⟨_, pred, _, rfl, _⟩ := grounded.phis p member
    -- every phi has an input from the block that control came from, and its type fits
    have inputs : ∀ p ∈ b.phis, ∃ r v, p.valueFor? pred = Option.some r ∧ fr.reg? r = Option.some v ∧
        f.regType? p.dest = Option.some v.ty := by
      intro p member
      obtain ⟨_, pred', r, same, value, early⟩ := grounded.phis p member
      cases same
      obtain ⟨v, held⟩ := Option.isSome_iff_exists.mp (follows.defined r early)
      obtain ⟨dest, sources⟩ := sorted.phis p member
      have source := sources pred r rfl value
      have type := typed r v held
      rw [follows.function, source] at type
      exact ⟨r, v, value, held, by rw [dest, type]⟩
    refine mapM_bind_ok (Q := fun x => f.regType? x.1 = Option.some x.2.ty) (fun p member => ?_)
      fun xs types => setAll_total fun x listed => follows.function ▸ types x listed
    obtain ⟨r, v, value, held, type⟩ := inputs p member
    refine ⟨(p.dest, v), ?_, type⟩
    simp only [value, get_eq_ok.mpr held, bind, Except.bind, pure, Except.pure]

theorem exec_total {i : Inst} (total : Total f i) (sorted : i.WellTyped f)
    (early : ∀ r ∈ i.args, r ∈ written) (call : Call κ ε) (known : FuncId → Bool) (w : World κ) :
    ∃ g, fr.exec call known w i = (.ok g, w) := by
  obtain ⟨vs, reads⟩ := reads_of_isSome fun r member => follows.defined r (early r member)
  obtain ⟨types, has, takes⟩ := sorted
  have same : vs.map (·.ty) = types :=
    Function.Types.unique (follows.function ▸ typed.reads reads) has
  obtain ⟨v, computed, type⟩ := total.compute has takes same w.globals
  have calls : i.op ≠ .call := by
    intro op
    simpa [op, Op.hasEffects] using total.pure.1
  have stores : i.op ≠ .storeGlobal := by
    intro op
    simpa [op, Op.hasEffects] using total.pure.1
  have set : fr.set i.dest v = .ok (fr.put i.dest v) :=
    set_eq_ok.mpr ⟨by rw [follows.function, type], rfl⟩
  exact ⟨fr.put i.dest v, by simp only [exec_of_reads reads calls stores, computed, set, Except.mapError]⟩

/-- A terminator fails only where control is not meant to come. -/
theorem terminate_total {t : Term} (sorted : t.WellTyped f) (early : ∀ r ∈ t.uses, r ∈ written)
    (present : t ≠ .missing) {e : Error} (failed : fr.terminate t = .error e) :
    e.kind = .unreachable := by
  have held : ∀ r ∈ t.uses, ∀ type, f.regType? r = some type →
      ∃ v, fr.reg? r = some v ∧ v.ty = type := by
    intro r used type known
    obtain ⟨v, held⟩ := Option.isSome_iff_exists.mp (follows.defined r (early r used))
    have own := typed r v held
    rw [follows.function, known] at own
    exact ⟨v, held, (Option.some.inj own).symm⟩
  cases t with
  | missing => exact absurd rfl present
  | br t => cases failed
  | condBr c yes no =>
    obtain ⟨type, known, int⟩ := sorted
    obtain ⟨v, held, rfl⟩ := held c (by simp [Term.uses]) type known
    simp [terminate_condBr held, int] at failed
  | switch c cases d =>
    obtain ⟨type, known, int⟩ := sorted
    obtain ⟨v, held, rfl⟩ := held c (by simp [Term.uses]) type known
    simp [terminate_switch held, int] at failed
  | ret v? =>
    cases v? with
    | none =>
      have void : f.sig.ret = .void := sorted
      simp [terminate, follows.function, void] at failed
    | some r =>
      obtain ⟨v, held, same⟩ := held r (by simp [Term.uses]) f.sig.ret sorted
      simp [terminate_ret held, follows.function, same] at failed
  | unreachable =>
    cases failed
    rfl

end Progress

end Frame

/-- A function whose runs cannot fail, unless they come to a place declared unreachable. -/
structure Steady (f : Function) : Prop where
  numbered : f.WellNumbered
  grounded : f.Grounded
  typed : f.WellTyped
  total : ∀ id b, f.Reachable id → f.block? id = some b → ∀ i ∈ b.insts, Total f i
  ended : ∀ id b, f.Reachable id → f.block? id = some b → b.term ≠ .missing

/-- A result that is a value, or a stop at a place declared unreachable. -/
def Settled (result : Except (Halt ε) Value) : Prop :=
  (∃ v, result = .ok v) ∨ ∃ e, result = .error (.fault e) ∧ e.kind = .unreachable

section Run

variable {f : Function} (steady : Steady f) {fr : Frame} {written : List Reg}
  {prev : Option BlockId} {cur : BlockId} (call : Call κ ε) (known : FuncId → Bool)
include steady

/-- One block of a steady function. -/
theorem Steady.turn (follows : fr.Follows f written) (typed : fr.WellTyped)
    (path : f.Arrives prev cur written) (w : World κ) :
    match Frame.turn call known fr w prev cur with
    | .stop out => Settled out.result
    | .go fr' _ next => ∃ written', fr'.Follows f written' ∧ fr'.WellTyped ∧
        f.Arrives (some cur) next written' := by
  obtain ⟨b, found⟩ := path.reachable.present steady.numbered
  have grounded := steady.grounded prev cur written b path found
  have sorted := steady.typed.blocks prev cur written b path found
  have arrived : (fr.arrive cur).Follows f written :=
    ⟨follows.function, follows.sized, follows.defined⟩
  have arrivedTyped : (fr.arrive cur).WellTyped := typed
  obtain ⟨fr₁, applied⟩ := Frame.applyPhis_total arrived arrivedTyped grounded sorted
  have entered := arrived.applyPhis applied
  have enteredTyped := arrivedTyped.applyPhis applied
  unfold Frame.turn
  rw [follows.function, found]
  simp only [Frame.runBlock, applied]
  rcases executed : Frame.execAll call known b.insts fr₁ w with ⟨_ | fr₂, w₂⟩
  · next stopped =>
    -- the instruction that failed would have had a value
    obtain ⟨h, stats⟩ := stopped
    obtain ⟨before, i, after, g, w₁, split, early, failed⟩ := Frame.execAll_error executed
    have member : i ∈ b.insts := by simp [split]
    have there : g.Follows f (written ++ b.writesUpTo before) := by
      simpa [Block.writesUpTo] using entered.execAll early
    obtain ⟨g', ran⟩ := Frame.exec_total there (enteredTyped.execAll early)
      (steady.total cur b path.reachable found i member) (sorted.insts i member)
      (grounded.args before i after split) call known w₁
    rw [ran] at failed
    cases failed
  · have finished : fr₂.Follows f (written ++ b.writes) := by
      simpa [Block.writes, Block.writesUpTo] using entered.execAll executed
    dsimp only
    cases ended : fr₂.terminate b.term with
    | error e =>
      exact .inr ⟨e, rfl, Frame.terminate_total finished (enteredTyped.execAll executed) sorted.term
        grounded.uses (steady.ended cur b path.reachable found) ended⟩
    | ok next =>
      cases next with
      | done v => exact .inl ⟨v, rfl⟩
      | goto next =>
        exact ⟨_, finished, enteredTyped.execAll executed, path.step found (Frame.goto_mem ended)⟩

/-- A run of a steady function: it goes on, or it ends well. -/
theorem Steady.run (fuel : Nat) (follows : fr.Follows f written) (typed : fr.WellTyped)
    (path : f.Arrives prev cur written) (w : World κ) :
    Settled (Frame.run call known fuel fr w prev cur).result ∨
      (Frame.run call known fuel fr w prev cur).result = .error .outOfFuel := by
  induction fuel generalizing fr w prev cur written with
  | zero => exact .inr rfl
  | succ fuel ih =>
    have turned := steady.turn call known follows typed path w
    unfold Frame.run
    cases stepped : Frame.turn call known fr w prev cur with
    | stop out =>
      rw [stepped] at turned
      exact .inl turned
    | go fr' w' next =>
      rw [stepped] at turned
      obtain ⟨written', follows', typed', path'⟩ := turned
      exact ih follows' typed' path' _

end Run

theorem Frame.WellTyped.bindParams {entry : BlockId} {params : List Reg} {fr g : Frame}
    {args : List Value} (typed : fr.WellTyped)
    (bound : Eval.bindParams entry fr params args = .ok g) : g.WellTyped := by
  induction params generalizing fr args with
  | nil =>
    cases bound
    exact typed
  | cons p params ih =>
    cases args with
    | nil => cases bound
    | cons a args =>
      simp only [Eval.bindParams] at bound
      cases set : fr.set p a with
      | error e => simp [set] at bound
      | ok fr₁ =>
        rw [set] at bound
        exact ih (typed.set set) bound

/-- Parameters that all have a type, as many as the signature says, take arguments of the
signature's types. -/
theorem params_of_wellTyped {f : Function} (typed : f.WellTyped)
    (params : f.params.length = f.sig.params.length ∧ ∀ p ∈ f.params, (f.regType? p).isSome = true)
    {args : List Value} (matching : args.map (·.ty) = f.sig.params) :
    List.Forall₂ (fun p a => f.regType? p = some (Value.ty a)) f.params args := by
  obtain ⟨count, declared⟩ := params
  rw [List.forall₂_iff_get]
  have length : args.length = f.params.length := by rw [count, ← matching, List.length_map]
  refine ⟨length.symm, fun n first second => ?_⟩
  have inside : n < f.sig.params.length := by omega
  obtain ⟨t, known⟩ := Option.isSome_iff_exists.mp (declared _ (List.get_mem f.params ⟨n, first⟩))
  have pair : (f.params.get ⟨n, first⟩, f.sig.params.get ⟨n, inside⟩) ∈ f.params.zip f.sig.params := by
    rw [List.mem_iff_getElem]
    exact ⟨n, by simp; omega, by simp⟩
  rw [known, typed.params _ _ pair t known]
  simp [← matching]

/-- A call of a steady function from outside, with arguments of its signature. -/
theorem Steady.runAt {m : Module} (accepted : m.defects = .ok []) {id : FuncId} {f : Function}
    (found : m.function? id = some f) (internal : f.isExternal = false) (steady : Steady f)
    {setup : Setup} {depth : Nat} (shallow : (depth : Int) < setup.maxDepth) {args : List Value}
    (matching : args.map (·.ty) = f.sig.params) (fuel : Nat) (w : World κ) :
    Settled (Eval.runAt (ε := ε) setup m fuel depth id args w).result ∨
      (Eval.runAt (ε := ε) setup m fuel depth id args w).result = .error .outOfFuel := by
  cases fuel with
  | zero => exact .inr rfl
  | succ fuel =>
    have clean := (Module.function_of_accepted accepted found).1
    obtain ⟨fr, bound⟩ : ∃ fr, bindParams f.entry (.fresh f) f.params args = .ok fr :=
      bindParams_of_typed (params_of_wellTyped steady.typed
        (Function.params_of_defects clean internal) matching) rfl
    have started := started_of_bindParams bound
    have typed : fr.WellTyped := by
      refine Frame.WellTyped.bindParams (fun r v held => ?_) bound
      rw [Frame.reg?_fresh] at held
      cases held
    obtain ⟨globals, origin⟩ :
        ∃ globals, (if setup.shared then .ok w.globals else initialGlobals m) = .ok globals := by
      split
      · exact ⟨_, rfl⟩
      · exact initialGlobals_of_accepted accepted
    unfold Eval.runAt
    rw [enter_of_matching found internal matching shallow bound origin]
    have ran := steady.run (fun id args (w : World κ) =>
        let out : Frame.Finished κ ε := Eval.runAt setup m fuel (depth + 1) id args w
        (out.result, out.world)) (fun x => x.num < m.functions.size) fuel (.of_started started) typed
      .entry { w with globals }
    unfold Setup.settle
    split <;> exact ran

end TieredEngine.Eval
