import TieredEngine.Proofs.Eval.Agreement
import TieredEngine.Proofs.Eval.Steps
import TieredEngine.Proofs.Pass.Rewriting

/-!
A rewritten function runs like the original, block by block. While both run, a register that is
still read holds the same value in both, a register known to be constant holds its constant or
nothing yet, and a copy holds what its source holds wherever it is sure to be written.
-/
namespace TieredEngine.Pass
open TieredEngine.Ir TieredEngine.Eval

variable {κ ε : Type} {n : Nat}

/-- Writes of one value to one register succeed or fail alike in frames of the same types. -/
theorem set_alike {fr fr' : Frame} (name : fr'.function.name = fr.function.name)
    (types : fr'.function.regTypes = fr.function.regTypes) (r : Reg) (v : Value) :
    fr.set r v = .ok (fr.put r v) ∧ fr'.set r v = .ok (fr'.put r v) ∨
      ∃ e e', fr.set r v = .error e ∧ fr'.set r v = .error e' ∧ e.Alike e' := by
  have same : fr'.function.regType? r = fr.function.regType? r := by
    simp only [Function.regType?, types]
  cases known : fr.function.regType? r with
  | none =>
    refine .inr ⟨fr.fail (.undeclaredRegister r), fr'.fail (.undeclaredRegister r), ?_, ?_,
      name, rfl⟩ <;> simp [Frame.set, same, known]
  | some t =>
    by_cases fits : t = v.ty
    · exact .inl ⟨Frame.set_eq_ok.mpr ⟨fits ▸ known, rfl⟩,
        Frame.set_eq_ok.mpr ⟨fits ▸ same.trans known, rfl⟩⟩
    · refine .inr ⟨fr.fail (.registerType r t v.ty), fr'.fail (.registerType r t v.ty), ?_, ?_,
        name, rfl⟩ <;> simp [Frame.set, same, known, fits]

/-- An instruction run on the same operand values in both frames. -/
theorem exec_keep {call call' : Call κ ε}
    (calls : CallsMatch (preserving κ ε n) (fun _ => True) call call')
    (known : FuncId → Bool) {fr fr' : Frame} {w : World κ} (size : w.globals.size = n) {i : Inst}
    {args : List Reg} {vs : List Value} (name : fr'.function.name = fr.function.name)
    (types : fr'.function.regTypes = fr.function.regTypes) (reads : fr.Reads i.args vs)
    (reads' : fr'.Reads args vs) :
    (preserving κ ε n).Matches
      (fun g g' => ∃ v, g = fr.record i v ∧ g' = fr'.record i v ∧
        (i.op ≠ .call → i.op ≠ .storeGlobal → compute w.globals i vs = .ok v))
      (fr.exec call known w i) (fr'.exec call' known w { i with args }) := by
  have refl : (preserving κ ε n).worlds w w := ⟨rfl, size⟩
  by_cases isCall : i.op = .call
  · simp only [Frame.exec, isCall, Frame.callOut]
    by_cases exists_ : known i.callee = true
    · simp only [exists_, Bool.not_true, Bool.false_eq_true, if_false,
        Frame.mapM_get_eq_ok.mpr reads, Frame.mapM_get_eq_ok.mpr reads']
      have called := calls i.callee vs w w refl fun _ _ => trivial
      revert called
      generalize call i.callee vs w = out
      generalize call' i.callee vs w = out'
      intro called
      cases called with
      | left free => exact .left free
      | right free => exact free.elim
      | error worlds failures => exact .error worlds failures
      | @ok v v' w₁ w₁' worlds related =>
        obtain ⟨rfl, _⟩ := related
        by_cases unwanted : i.dest = .absent
        · simp only [unwanted, if_true]
          refine .ok worlds ⟨v', ?_, ?_, by simp⟩ <;>
            simp [Frame.record, Inst.target?, isCall, unwanted]
        · simp only [unwanted, if_false]
          rcases set_alike name types i.dest v' with ⟨left, right⟩ | ⟨e, e', left, right, alike⟩
          · rw [left, right]
            refine .ok worlds ⟨v', ?_, ?_, by simp⟩ <;>
              simp [Frame.record, Inst.target?, isCall, unwanted]
          · rw [left, right]
            exact .error worlds (.fault alike)
    · simp only [exists_, Bool.not_false, if_true]
      exact .error refl (.fault ⟨name, rfl⟩)
  · by_cases isStore : i.op = .storeGlobal
    · simp only [Frame.exec, isStore, Frame.operands_of_reads reads]
      have right : fr'.operands { i with args } 1 = _ :=
        Frame.operands_of_reads (i := { i with args }) reads' 1
      simp only [isStore] at right
      simp only [right]
      by_cases one : vs.length = 1
      · simp only [one, if_true]
        cases stored : storeGlobal w.globals i.global (vs.headD .void) with
        | error c => exact .error refl (.fault ⟨name, rfl⟩)
        | ok globals =>
          have kept : globals.size = n := by
            simp only [storeGlobal] at stored
            split at stored
            · cases stored
            · split at stored
              · cases stored
              · cases stored
                simpa using size
          refine .ok ⟨rfl, kept⟩ ⟨.void, ?_, ?_, by simp⟩ <;>
            simp [Frame.record, Inst.target?, isStore]
      · simp only [one, if_false]
        exact .error refl (.fault ⟨name, rfl⟩)
    · rw [Frame.exec_of_reads reads isCall isStore,
        Frame.exec_of_reads (i := { i with args }) reads' isCall isStore]
      have same : compute w.globals { i with args } vs = compute w.globals i vs := rfl
      rw [same]
      cases computed : compute w.globals i vs with
      | error c => exact .error refl (.fault ⟨name, rfl⟩)
      | ok v =>
        simp only
        rcases set_alike name types i.dest v with ⟨left, right⟩ | ⟨e, e', left, right, alike⟩
        · rw [left, right]
          by_cases panics : i.op = .panic
          · simp [compute, panics] at computed
          · have target : i.target? = some i.dest := by
              unfold Inst.target?
              split <;> simp_all
            refine .ok refl ⟨v, ?_, ?_, fun _ _ => rfl⟩ <;> simp [Frame.record, target]
        · rw [left, right]
          exact .error refl (.fault alike)

/-- An instruction without effects either gives a value or meets one of the wrong type. -/
theorem exec_pure (call : Call κ ε) (known : FuncId → Bool) {fr : Frame} {w : World κ} {i : Inst}
    {vs : List Value} (reads : fr.Reads i.args vs)
    (pure : i.op.hasEffects = false) (declared : fr.function.declares i.dest = true)
    (loads : i.op = .loadGlobal → i.global.num < w.globals.size) :
    (∃ v, fr.exec call known w i = (.ok (fr.put i.dest v), w) ∧ compute w.globals i vs = .ok v) ∨
      ∃ e, fr.exec call known w i = (.error (.fault e), w) ∧ e.kind = .typeMismatch := by
  have isCall : i.op ≠ .call := by
    intro calls
    simp [calls, Op.hasEffects] at pure
  have isStore : i.op ≠ .storeGlobal := by
    intro stores
    simp [stores, Op.hasEffects] at pure
  rw [Frame.exec_of_reads reads isCall isStore]
  cases computed : compute w.globals i vs with
  | error c => exact .inr ⟨_, rfl, kind_of_compute pure loads computed⟩
  | ok v =>
    rcases Frame.set_of_declared declared v with done | ⟨e, failed, kind⟩
    · exact .inl ⟨v, by simp only [done, Except.mapError], rfl⟩
    · exact .inr ⟨e, by simp only [failed, Except.mapError], kind⟩

/-- What the passes rely on in a function of a module with `n` globals, and leave so. -/
structure Regular (n : Nat) (f : Function) : Prop where
  numbered : f.WellNumbered
  grounded : f.Grounded
  single : f.SingleAssignment
  loads : ∀ id b, f.Reachable id → f.block? id = some b → ∀ i ∈ b.insts, i.op = .loadGlobal →
    i.global.num < n

/-- Two frames at the same place of a block `id` of the original function: `written` are the
registers the path to the block has written, `extra` those the block has. -/
structure Tracks (k : Facts) (f f' : Function) (id : BlockId) (written extra : List Reg)
    (fr fr' : Frame) : Prop where
  function : fr.function = f
  function' : fr'.function = f'
  sized : fr.Sized
  sized' : fr'.Sized
  blocks : fr'.stats.blocks = fr.stats.blocks
  defined : ∀ r, (fr.reg? r).isSome = true ↔ r ∈ written ++ extra
  used : ∀ r, k.used r → fr'.reg? r = fr.reg? r
  constant : ∀ r v x, k.constant r v → fr.reg? r = some x → x = v
  copy : ∀ d s, k.copy d s → f.SureAt id extra d → fr.reg? d = fr.reg? s

namespace Tracks

variable {k : Facts} {f f' : Function} {id : BlockId} {written extra : List Reg} {fr fr' g g' : Frame}

/-- Only registers and the count of blocks matter. -/
theorem congr (tracks : Tracks k f f' id written extra fr fr') (function : g.function = fr.function)
    (regs : g.regs = fr.regs) (function' : g'.function = fr'.function) (regs' : g'.regs = fr'.regs)
    (blocks : g'.stats.blocks = g.stats.blocks) : Tracks k f f' id written extra g g' := by
  have left : g.reg? = fr.reg? := by
    funext r
    simp only [Frame.reg?, regs]
  have right : g'.reg? = fr'.reg? := by
    funext r
    simp only [Frame.reg?, regs']
  refine ⟨function.trans tracks.function, function'.trans tracks.function', ?_, ?_, blocks, ?_, ?_,
    ?_, ?_⟩
  · rw [Frame.Sized, regs, function]
    exact tracks.sized
  · rw [Frame.Sized, regs', function']
    exact tracks.sized'
  · rw [left]
    exact tracks.defined
  · rw [left, right]
    exact tracks.used
  · rw [left]
    exact tracks.constant
  · rw [left]
    exact tracks.copy

/-- One register is written in the original; the rewritten function writes it too, or nobody reads
it there. -/
theorem write (tracks : Tracks k f f' id written extra fr fr') (just : k.Justified f)
    {r : Reg} {v : Value} (declared : f.declares r = true) (function' : g'.function = f')
    (sized' : g'.Sized) (blocks' : g'.stats.blocks = fr'.stats.blocks)
    (right : ∀ x, k.used x → g'.reg? x = if x = r then some v else fr'.reg? x)
    (constant : ∀ c, k.constant r c → v = c) (target : ∀ s, k.copy r s → fr.reg? s = some v)
    (source : ∀ d, k.copy d r → ¬ f.SureAt id extra d) :
    Tracks k f f' id written (extra ++ [r]) (fr.put r v) g' := by
  have left := Frame.reg?_put tracks.sized (tracks.function ▸ declared) v
  refine ⟨tracks.function, function', Frame.sized_put tracks.sized r v, sized',
    blocks'.trans tracks.blocks, ?_, ?_, ?_, ?_⟩
  · intro x
    rw [left x, ← List.append_assoc, List.mem_append, List.mem_singleton, ← tracks.defined x]
    by_cases same : x = r <;> simp [same]
  · intro x used
    rw [right x used, left x, tracks.used x used]
  · intro x c y known held
    rw [left x] at held
    split at held
    · next same =>
      subst same
      cases held
      exact constant c known
    · exact tracks.constant x c y known held
  · intro d s copy sure
    rw [left d, left s]
    by_cases copied : d = r
    · subst copied
      have apart : ¬ s = d := fun same => (just.copy d s copy).1 same.symm
      rw [if_pos rfl, if_neg apart, target s copy]
    · -- the copy was written before, so its source is not written here
      have before : f.SureAt id extra d := by
        intro prev path_written path
        have member := sure prev path_written path
        rw [← List.append_assoc, List.mem_append, List.mem_singleton] at member
        exact member.resolve_right copied
      have apart : ¬ s = r := fun same => source d (same ▸ copy) before
      rw [if_neg copied, if_neg apart]
      exact tracks.copy d s copy before

/-- Registers known to be constant are read as their constants. -/
theorem reads_constant (tracks : Tracks k f f' id written extra fr fr') {rs : List Reg}
    {vs cs : List Value} (reads : fr.Reads rs vs) (known : List.Forall₂ k.constant rs cs) :
    vs = cs := by
  induction known generalizing vs with
  | nil =>
    cases reads
    rfl
  | cons head _ ih =>
    cases reads with
    | cons held tail => rw [tracks.constant _ _ _ head held, ih tail]

/-- A register and what it was copied from hold the same value where the register is sure to be
written. -/
theorem same (just : k.Justified f) (grounded : f.Grounded) {b : Block}
    (found : f.block? id = some b) {before after : List Inst} (split : b.insts = before ++ after)
    (equal : ∀ d s, k.copy d s → f.SureAt id (b.writesUpTo before) d → fr.reg? d = fr.reg? s)
    {r r' : Reg} (same : k.Same r r') (sure : f.SureAt id (b.writesUpTo before) r) :
    fr.reg? r' = fr.reg? r := by
  induction same with
  | refl => rfl
  | tail early copy ih =>
    rw [← ih]
    refine (equal _ _ copy ?_).symm
    intro prev written path
    exact just.same_writtenUpTo grounded early path found split (sure prev written path)

/-- Operands under other names hold the same values. -/
theorem reads_renamed (tracks : Tracks k f f' id written extra fr fr') {rs rs' : List Reg}
    {vs : List Value} (reads : fr.Reads rs vs)
    (renamed : List.Forall₂ (fun r r' => k.Same r r' ∧ k.used r') rs rs')
    (equal : ∀ r ∈ rs, ∀ r', k.Same r r' → fr.reg? r' = fr.reg? r) : fr'.Reads rs' vs := by
  induction renamed generalizing vs with
  | nil =>
    cases reads
    exact .nil
  | @cons r r' rs rs' head _ ih =>
    cases reads with
    | cons held tail =>
      refine .cons ?_ (ih tail fun x member => equal x (by simp [member]))
      rw [tracks.used r' head.2, equal r (by simp) r' head.1, held]

end Tracks

section Block

variable {k : Facts} {f f' : Function} (rewrites : Rewrites k f f') (just : k.Justified f)
  (regular : Regular n f) {prev : Option BlockId} {id : BlockId} {written : List Reg}
  (path : f.Arrives prev id written) {b : Block} (found : f.block? id = some b)
include just regular path found

/-- What an instruction reads is sure to be written and has a value. -/
theorem Tracks.operands {before after : List Inst} {i : Inst} {fr fr' : Frame}
    (tracks : Tracks k f f' id written (b.writesUpTo before) fr fr')
    (split : b.insts = before ++ i :: after) :
    ∃ vs, fr.Reads i.args vs ∧ ∀ r ∈ i.args, ∀ r', k.Same r r' → fr.reg? r' = fr.reg? r := by
  have sure : ∀ r ∈ i.args, f.SureAt id (b.writesUpTo before) r := fun r member _ _ any =>
    (regular.grounded _ _ _ _ any found).args before i after split r member
  obtain ⟨vs, reads⟩ := Frame.reads_of_isSome fun r member =>
    (tracks.defined r).mpr (sure r member prev written path)
  exact ⟨vs, reads, fun r member r' same =>
    Tracks.same just regular.grounded found split tracks.copy same (sure r member)⟩

/-- The value an instruction writes agrees with the facts. -/
theorem Tracks.result {before after : List Inst} {i : Inst} {fr fr' g' : Frame}
    (tracks : Tracks k f f' id written (b.writesUpTo before) fr fr')
    (split : b.insts = before ++ i :: after) {vs : List Value} (reads : fr.Reads i.args vs)
    {globals : Array Value} {v : Value}
    (computed : i.op ≠ .call → i.op ≠ .storeGlobal → compute globals i vs = .ok v)
    {r : Reg} (target : i.target? = some r) (function' : g'.function = f') (sized' : g'.Sized)
    (blocks' : g'.stats.blocks = fr'.stats.blocks)
    (right : ∀ x, k.used x → g'.reg? x = if x = r then some v else fr'.reg? x) :
    Tracks k f f' id written (b.writesUpTo (before ++ [i])) (fr.put r v) g' := by
  have member : i ∈ b.insts := by simp [split]
  have declared := (regular.grounded _ _ _ _ path found).targets i member r target
  have extra : b.writesUpTo (before ++ [i]) = b.writesUpTo before ++ [r] := by
    simp [Block.writesUpTo, target]
  rw [extra]
  refine tracks.write just declared function' sized' blocks' right ?_ ?_ ?_
  · intro c known
    rcases ((just.constant r c known).2 id b path.reachable found).2 i member target with
      ⟨op, value⟩ | ⟨cs, constants, folded⟩
    · have given := computed (by simp [op]) (by simp [op])
      simp only [compute, op, Except.ok.injEq] at given
      exact given.symm.trans value
    · cases tracks.reads_constant reads constants
      obtain ⟨given, noCall, noStore⟩ := compute_of_fold? folded globals
      have same := (computed noCall noStore).symm.trans given
      simpa using same
  · intro s copy
    obtain ⟨op, args⟩ := ((just.copy r s copy).2.2 id b path.reachable found).2 i member target
    rw [args] at reads
    cases reads with
    | cons held rest =>
      cases rest
      have given := computed (by simp [op]) (by simp [op])
      simp only [compute, op, Except.ok.injEq] at given
      rw [held, given]
  · intro d copy
    exact ((just.fresh regular.numbered regular.grounded regular.single copy) id b path.reachable
      found).2 before i after split target

/-- The instructions of a block and their rewriting. -/
theorem insts_match {call call' : Call κ ε}
    (calls : CallsMatch (preserving κ ε n) (fun _ => True) call call')
    (known : FuncId → Bool) (rewrites : Rewrites k f f') {is is' : List Inst}
    (rewritten : k.Insts is is') {before : List Inst} (split : b.insts = before ++ is)
    {fr fr' : Frame} (tracks : Tracks k f f' id written (b.writesUpTo before) fr fr')
    {w : World κ} (size : w.globals.size = n) :
    (preserving κ ε n).counted.Matches (Tracks k f f' id written b.writes)
      (Frame.execAll call known is fr w) (Frame.execAll call' known is' fr' w) := by
  induction rewritten generalizing before fr fr' w with
  | nil =>
    have whole : b.writesUpTo before = b.writes := by
      rw [Block.writes, split, List.append_nil]
    exact .ok ⟨rfl, size⟩ (whole ▸ tracks)
  | @step i i' is is' head tail ih =>
    obtain ⟨vs, reads, equal⟩ := Tracks.operands just regular path found tracks split
    have name : fr'.function.name = fr.function.name := by
      rw [tracks.function', tracks.function, rewrites.name]
    have types : fr'.function.regTypes = fr.function.regTypes := by
      rw [tracks.function', tracks.function, rewrites.regTypes]
    have declared : ∀ r, i.target? = some r → fr'.function.declares r = true := by
      intro r target
      rw [tracks.function', rewrites.declares]
      exact (regular.grounded _ _ _ _ path found).targets i (by simp [split]) r target
    -- both write the same value, and the rest runs from there
    have go : ∀ (v : Value) (w : World κ) (globals : Array Value) (stats stats' : Stats),
        w.globals.size = n → stats'.blocks = stats.blocks →
        (i.op ≠ .call → i.op ≠ .storeGlobal → compute globals i vs = .ok v) →
        (preserving κ ε n).counted.Matches (Tracks k f f' id written b.writes)
          (Frame.execAll call known is { fr.record i v with stats } w)
          (Frame.execAll call' known is' { fr'.record i v with stats := stats' } w) := by
      intro v w globals stats stats' size same computed
      have later : b.insts = (before ++ [i]) ++ is := by simp [split]
      refine ih later ?_ size
      cases target : i.target? with
      | none =>
        have extra : b.writesUpTo (before ++ [i]) = b.writesUpTo before := by
          simp [Block.writesUpTo, target]
        rw [extra]
        simp only [Frame.record, target]
        exact tracks.congr rfl rfl rfl rfl same
      | some r =>
        have result : Tracks k f f' id written (b.writesUpTo (before ++ [i])) (fr.put r v)
            (fr'.put r v) :=
          Tracks.result just regular path found tracks split reads computed target
            tracks.function' (Frame.sized_put tracks.sized' r v) rfl
            fun x _ => Frame.reg?_put tracks.sized' (declared r target) v x
        simp only [Frame.record, target]
        exact result.congr rfl rfl rfl rfl same
    cases head with
    | @keep args renamed =>
      have reads' := tracks.reads_renamed reads renamed equal
      have ran := exec_keep calls known size name types reads reads'
      simp only [Frame.execAll]
      revert ran
      generalize fr.exec call known w i = out
      generalize fr'.exec call' known w { i with args } = out'
      intro ran
      cases ran with
      | left free => exact .left free
      | right free => exact free.elim
      | error worlds failures => exact .error worlds ⟨failures, tracks.blocks⟩
      | ok worlds related =>
        obtain ⟨rfl, size'⟩ := worlds
        obtain ⟨v, rfl, rfl, computed⟩ := related
        exact go v _ w.globals _ _ size' tracks.blocks computed
    | @fold v cs defines constants folded =>
      cases tracks.reads_constant reads constants
      obtain ⟨given, noCall, noStore⟩ := compute_of_fold? folded w.globals
      have target := Inst.target?_of_hasDest defines
      have right : fr'.exec call' known w { op := .const, dest := i.dest, ty := i.ty, const := v } =
          ((fr'.set i.dest v).mapError .fault, w) :=
        Frame.exec_of_reads (show fr'.Reads [] [] from .nil) (by simp) (by simp)
      simp only [Frame.execAll]
      rw [Frame.exec_of_reads reads noCall noStore, given, right]
      rcases set_alike name types i.dest v with ⟨left, right⟩ | ⟨e, e', left, right, alike⟩
      · have next := go v w w.globals { fr.stats with insts := fr.stats.insts + 1 }
          { fr'.stats with insts := fr'.stats.insts + 1 } size tracks.blocks fun _ _ => given
        simp only [Frame.record, target] at next
        simpa only [left, right, Except.mapError] using next
      · simp only [left, right, Except.mapError]
        exact .error ⟨rfl, size⟩ ⟨.fault alike, tracks.blocks⟩
  | @drop i is is' defines pure unused tail ih =>
    obtain ⟨vs, reads, _⟩ := Tracks.operands just regular path found tracks split
    have target := Inst.target?_of_hasDest defines
    have member : i ∈ b.insts := by simp [split]
    have declared : fr.function.declares i.dest = true := by
      rw [tracks.function]
      exact (regular.grounded _ _ _ _ path found).targets i member i.dest target
    have loads : i.op = .loadGlobal → i.global.num < w.globals.size := fun load =>
      size ▸ regular.loads id b path.reachable found i member load
    rcases exec_pure call known reads pure declared loads with
      ⟨v, ran, computed⟩ | ⟨e, ran, kind⟩
    · simp only [Frame.execAll, ran]
      have later : b.insts = (before ++ [i]) ++ is := by simp [split]
      have apart : ∀ x, k.used x → fr'.reg? x = if x = i.dest then some v else fr'.reg? x := by
        intro x used
        rw [if_neg]
        rintro rfl
        exact unused used
      have result := Tracks.result just regular path found tracks split reads
        (fun _ _ => computed) target tracks.function' tracks.sized' rfl apart
      refine ih later ?_ size
      exact result.congr rfl rfl rfl rfl tracks.blocks
    · simp only [Frame.execAll, ran]
      exact .left ⟨e, rfl, kind⟩

end Block

end TieredEngine.Pass
