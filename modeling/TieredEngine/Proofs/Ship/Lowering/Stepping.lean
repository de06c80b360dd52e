import TieredEngine.Proofs.Eval.TypedRuns
import TieredEngine.Proofs.Ship.Lowering.Filled
import TieredEngine.Proofs.Ship.Lowering.Operations

/-!
Running what is written for the instructions of a block, and for its end. Stores change memory as evaluation
changes the globals; calls do what evaluation says that they do, if that is so of what they call. Registers
that are known keep operands that stand for their values. At the end control goes where evaluation goes, or
the result that evaluation returns is given.
-/
namespace TieredEngine

theorem Ir.Inst.WellTyped.dest_of_load {f : Function} {i : Inst} (typed : i.WellTyped f)
    (loads : i.op = .loadGlobal) : f.regType? i.dest = some i.ty := by
  obtain ⟨types, _, takes⟩ := typed
  unfold Takes at takes
  split at takes <;> simp_all [Op.isBinary, Op.isCompare]

namespace Eval
open Ir

theorem Frame.get_not_reported {fr : Frame} {r : Reg} {e : Error} (failed : fr.get r = .error e) :
    ¬ e.cause.Reported := by
  obtain ⟨rfl, _⟩ := get_error failed
  exact Cause.not_reported (.inr (.inl rfl))

theorem Frame.set_not_reported {fr : Frame} {r : Reg} {v : Value} {e : Error}
    (failed : fr.set r v = .error e) : ¬ e.cause.Reported := by
  unfold Frame.set at failed
  split at failed
  · cases failed
    exact Cause.not_reported (.inr (.inl rfl))
  · split at failed
    · cases failed
      exact Cause.not_reported (.inl rfl)
    · cases failed

theorem storeGlobal_ok {globals globals' : Array Value} {id : GlobalId} {v : Value}
    (stored : storeGlobal globals id v = .ok globals') : ∃ old, globals[id.num]? = some old ∧
      old.ty = v.ty ∧ globals' = globals.setIfInBounds id.num v := by
  unfold storeGlobal at stored
  split at stored
  · cases stored
  · next old there =>
    split at stored
    · cases stored
    · next same =>
      cases stored
      exact ⟨old, there, not_not.mp same, rfl⟩

theorem storeGlobal_not_reported {globals : Array Value} {id : GlobalId} {v : Value} {c : Cause}
    (failed : storeGlobal globals id v = .error c) : ¬ c.Reported := by
  unfold storeGlobal at failed
  split at failed
  · cases failed
    exact Cause.not_reported (.inl rfl)
  · split at failed
    · cases failed
      exact Cause.not_reported (.inl rfl)
    · cases failed

theorem Frame.setAll_not_reported {xs : List (Reg × Value)} {fr : Frame} {e : Error}
    (failed : fr.setAll xs = .error e) : ¬ e.cause.Reported := by
  induction xs generalizing fr with
  | nil => cases failed
  | cons x xs ih =>
    rcases bind_eq_error.mp failed with failed | ⟨g, _, failed⟩
    · exact set_not_reported failed
    · exact ih failed

theorem Frame.applyPhis_not_reported {fr : Frame} {b : Block} {prev : Option BlockId} {e : Error}
    (failed : fr.applyPhis b prev = .error e) : ¬ e.cause.Reported := by
  unfold Frame.applyPhis Frame.resolvePhis at failed
  split at failed
  · cases failed
  · split at failed
    · cases failed
      exact Cause.not_reported (.inr (.inl rfl))
    · rcases bind_eq_error.mp failed with failed | ⟨_, _, failed⟩
      · obtain ⟨p, _, failed⟩ := mapM_eq_error failed
        split at failed
        · cases failed
          exact Cause.not_reported (.inr (.inl rfl))
        · rcases bind_eq_error.mp failed with failed | ⟨_, _, done⟩
          · exact get_not_reported failed
          · cases done
      · exact setAll_not_reported failed

theorem Frame.terminate_not_reported {fr : Frame} {t : Term} {e : Error}
    (failed : fr.terminate t = .error e) : ¬ e.cause.Reported := by
  have mismatch : ∀ {c : Cause}, c.kind = .typeMismatch → ¬ c.Reported :=
    fun kind => Cause.not_reported (.inl kind)
  cases t with
  | br => cases failed
  | missing | unreachable =>
    cases failed
    rintro (kind | kind) <;> cases kind
  | condBr c yes no =>
    rcases bind_eq_error.mp failed with missing | ⟨v, got, _⟩
    · exact get_not_reported missing
    · rw [terminate_condBr (get_eq_ok.mp got)] at failed
      split at failed <;> cases failed
      exact mismatch rfl
  | switch c cases d =>
    rcases bind_eq_error.mp failed with missing | ⟨v, got, _⟩
    · exact get_not_reported missing
    · rw [terminate_switch (get_eq_ok.mp got)] at failed
      split at failed <;> cases failed
      exact mismatch rfl
  | ret r? =>
    cases r? with
    | none =>
      simp only [terminate] at failed
      split at failed <;> cases failed
      exact mismatch rfl
    | some r =>
      rcases bind_eq_error.mp failed with missing | ⟨v, got, _⟩
      · exact get_not_reported missing
      · rw [terminate_ret (get_eq_ok.mp got)] at failed
        split at failed <;> cases failed
        exact mismatch rfl

end Eval

end TieredEngine

namespace TieredEngine.Ship.Lowering
open TieredEngine TieredEngine.Llvm

section

variable {σ κ ε : Type} {l : Llvm.Module} {out : Outside σ} {R : List Eval.HostCall → σ → Prop}
  {blocks : List Llvm.Block} {s t u : State} {a a' : Activation} {f : Ir.Function} {fr g : Eval.Frame}
  {i : Ir.Inst} {w w' : Eval.World κ} {o o' : σ}

/-- Steps lead to a call of the runtime's panic with the text of a cause; memory and the outside are then as
evaluation leaves the world. -/
def Panics (l : Llvm.Module) (out : Outside σ) (R : List Eval.HostCall → σ → Prop) (x : Next σ)
    (w : Eval.World κ) (c : Eval.Cause) : Prop :=
  ∃ t, Leads l out x (.step t) ∧
    t.call? l = some (panicSymbol, [.text (c.detail.toUTF8.toList ++ [0])]) ∧
    t.memory = memory w.globals ∧ R w.hostCalls t.outside

theorem Panics.after {x y : Next σ} {c : Eval.Cause} (leads : Leads l out x y)
    (panics : Panics l out R y w c) : Panics l out R x w c := by
  obtain ⟨t, leads', rest⟩ := panics
  exact ⟨t, leads.trans leads', rest⟩

theorem Stops.panics {c : Eval.Cause} (stops : Stops l out (memory w.globals) a c) (related : R w.hostCalls o)
    (callers : List (Nat × Activation)) : Panics l out R (.step ⟨memory w.globals, a, callers, o⟩) w c := by
  obtain ⟨a', leads, calls⟩ := stops callers o
  exact ⟨_, leads, calls, rfl, related⟩

/-- What a call of the lowered program comes to, when evaluation comes to a result in a world: it gives the
result to the caller, or panics. -/
def Meets (l : Llvm.Module) (out : Outside σ) (R : List Eval.HostCall → σ → Prop) (k : Nat)
    (args : List Ir.Value) (mem : Memory) (o : σ) (w : Eval.World κ) :
    Except (Eval.Halt ε) Ir.Value → Prop
  | .ok v => (∀ x ∈ args, x.ty ≠ .void) ∧ (∃ g, l.functions[k]? = some g ∧ g.ret = returnType v.ty) ∧
    ∃ o', R w.hostCalls o' ∧ ∀ callers, ∃ first,
      invoke l out k (args.map fun x => .word x.word) mem o callers = some first ∧
        Leads l out first (give v.word? (memory w.globals) o' callers)
  | .error (.fault e) => e.cause.Reported → (∀ x ∈ args, x.ty ≠ .void) ∧ ∀ callers, ∃ first,
    invoke l out k (args.map fun x => .word x.word) mem o callers = some first ∧
      Panics l out R first w e.cause
  | .error _ => True

/-- The lowered program makes the calls of a module as evaluation does. -/
def Simulates (m : Ir.Module) (l : Llvm.Module) (out : Outside σ) (R : List Eval.HostCall → σ → Prop)
    (call : Eval.Call κ ε) : Prop :=
  ∀ id args (w : Eval.World κ) o, (∀ x ∈ args, x.Normal) → Eval.TypedGlobals m w.globals → R w.hostCalls o →
    Meets l out R id.num args (memory w.globals) o (call id args w).2 (call id args w).1

/-- A running call goes on; memory and the outside may change. -/
structure Proceeds (l : Llvm.Module) (out : Outside σ) (blocks : List Llvm.Block) (s t : State)
    (mem : Memory) (o : σ) (a : Activation) (mem' : Memory) (o' : σ) (a' : Activation) : Prop
    extends Moves blocks s t a a' where
  leads : ∀ callers, Leads l out (.step ⟨mem, a, callers, o⟩) (.step ⟨mem', a', callers, o'⟩)

theorem Advances.proceeds {mem : Memory} (advances : Advances l out blocks mem s t a a') (o : σ) :
    Proceeds l out blocks s t mem o a mem o a' :=
  ⟨advances.toMoves, fun callers => advances.leads callers o⟩

/-- A word is stored. -/
theorem Stands.store {mem : Memory} (stands : Stands blocks s a) {x v : Val} {k : Nat}
    (ran : Lowering.emit (.store x k) s = .ok (v, t)) (final : t.Final l blocks) {word old : Word}
    (there : a.operand? x = some word) (held : mem k = some old) (width : old.width = word.width) (o : σ) :
    ∃ a', Proceeds l out blocks s t mem o a (fun j => if j = k then some word else mem j) o a' := by
  obtain ⟨_, _, got, ran⟩ := run_bind.mp ran
  cases got
  obtain ⟨rest, at_rest, after, _, next⟩ := StandsAt.emitTo stands (by simp) ran final
  obtain ⟨works, _⟩ := State.Works.emitTo stands.opens (by simp) ran
  refine ⟨{ a with rest }, ⟨?_, works.nextId, rfl, rfl, fun _ _ => rfl⟩, fun callers => .of_next ?_⟩
  · rw [Stands, works.current]
    exact after _ rfl rfl rfl
  · unfold Llvm.next
    rw [at_rest]
    simp only [there, held, Option.bind_eq_bind, Option.bind_some, if_pos width]
    rfl

theorem arg?_of_operand? {x : Val} {word : Word} (there : a.operand? x = some word) :
    a.arg? l x = some (.word word) := by
  unfold Activation.arg?
  split
  · cases there
  · rw [there]
    rfl

theorem mapM_arg? {rs : List Ir.Reg} {vs : List Ir.Value} (mirrored : List.Forall₂ (Mirrors f s a) rs vs)
    (some : ∀ x ∈ vs, x.ty ≠ .void) :
    (rs.map fun r => s.valueOf r (regType f r)).mapM (a.arg? l) =
      Option.some (vs.map fun x => .word x.word) := by
  induction mirrored with
  | nil => rfl
  | @cons r v rs vs mirrors rest ih =>
    obtain ⟨x, value, _, holds⟩ := mirrors.value
    have own : s.valueOf r (regType f r) = x := by rw [State.valueOf, value]; rfl
    rw [List.map_cons, List.mapM_cons, own, arg?_of_operand? (holds (some v List.mem_cons_self)),
      ih fun y member => some y (List.mem_cons_of_mem v member)]
    rfl

/-- A call is written: it invokes the function, and is waited for in front of the rest of the block. -/
theorem Stands.call (out : Outside σ) (stands : Stands blocks s a) {xs : List Val} {v : Val} {k : Nat}
    (ran : Lowering.emitCall s.current k xs s = .ok (v, t)) (final : t.Final l blocks) {zs : List Arg}
    (args : xs.mapM (a.arg? l) = some zs) : ∃ rest g, l.functions[k]? = some g ∧
      v = .result s.nextId g.ret ∧ s.nextId < t.nextId ∧
      (∀ b, b.function = a.function → b.block = a.block → b.rest = rest → Stands blocks t b) ∧
      ∀ mem callers o, next l out ⟨mem, a, callers, o⟩ =
        invoke l out k zs mem o ((s.nextId, { a with rest }) :: callers) := by
  obtain ⟨g, there, ran⟩ := State.emitCall_ok ran
  obtain ⟨rest, at_rest, after, rfl, next⟩ := StandsAt.emitTo stands (by simp) ran final
  obtain ⟨works, _⟩ := State.Works.emitTo stands.opens (by simp) ran
  obtain ⟨g', there', ret, _⟩ := (final.extends works.toExtends).functions k g there
  refine ⟨rest, g', there', by rw [ret]; rfl, by omega, fun b function block same => ?_,
    fun mem callers o => ?_⟩
  · rw [Stands, works.current]
    exact after b function block same
  · unfold Llvm.next
    rw [at_rest]
    simp only [args, there', Option.bind_eq_bind, Option.bind_some, if_pos ret]

theorem memory_set {globals : Array Ir.Value} {k : Nat} (inside : k < globals.size) (v : Ir.Value) :
    memory (globals.setIfInBounds k v) = fun j => if j = k then some v.word else memory globals j := by
  funext j
  unfold memory
  rw [Array.getElem?_setIfInBounds]
  by_cases same : j = k
  · rw [if_pos same, if_pos same.symm, if_pos (same ▸ inside)]
    rfl
  · rw [if_neg same, if_neg (Ne.symm same)]

/-- Registers of a set have operands that stand for their values. -/
def Mirrored (s : State) (a : Activation) (fr : Eval.Frame) (K : Ir.Reg → Prop) : Prop :=
  ∀ r v, K r → fr.reg? r = some v → ∃ x,
    s.values[r.num]? = some (some x) ∧ x.Born (· < s.nextId) ∧ Holds a x v

/-- What running an instruction, or several, comes to: the frame and the world that evaluation comes to, or
the panic. -/
def Goes (l : Llvm.Module) (out : Outside σ) (R : List Eval.HostCall → σ → Prop) (blocks : List Llvm.Block)
    (s t : State) (mem : Memory) (o : σ) (a : Activation) (K : Ir.Reg → Prop) (w : Eval.World κ) :
    Except (Eval.Halt ε) Eval.Frame → Prop
  | .ok g => ∃ a' o', Proceeds l out blocks s t mem o a (memory w.globals) o' a' ∧ R w.hostCalls o' ∧
    Mirrored t a' g K
  | .error (.fault e) => e.cause.Reported → ∀ callers, Panics l out R (.step ⟨mem, a, callers, o⟩) w e.cause
  | .error _ => True

theorem Mirrored.mirrors {K : Ir.Reg → Prop} (mirrored : Mirrored s a fr K) (frame : fr.Typed f) {r : Ir.Reg}
    {v : Ir.Value} (known : K r) (held : fr.reg? r = some v) : Mirrors f s a r v where
  value := mirrored r v known held
  type := frame.holds.function ▸ frame.typed r v held
  normal := frame.holds.values r v held

section Writing

variable {K : Ir.Reg → Prop} {P : Nat → Prop} {r? : Option Ir.Reg} (moves : Moves blocks s t a a')
  (sets : Sets r? (· < s.nextId) s t) (mirrored : Mirrored s a fr K)
include moves sets mirrored

/-- What is not written stays. -/
theorem Mirrored.kept {r : Ir.Reg} {v : Ir.Value} (known : K r) (other : r? ≠ some r)
    (held : fr.reg? r = some v) :
    ∃ x, t.values[r.num]? = some (some x) ∧ x.Born (· < t.nextId) ∧ Holds a' x v := by
  obtain ⟨x, value, born, holds⟩ := mirrored r v known held
  refine ⟨x, (sets.kept r other).trans value, ?_, fun some => (moves.operand? born).trans (holds some)⟩
  exact born.mono fun _ older => Nat.lt_of_lt_of_le older moves.nextId

theorem Mirrored.same (none : r? = none) : Mirrored t a' fr fun r => K r ∨ r? = some r := by
  intro r v known held
  subst none
  exact mirrored.kept moves sets (known.resolve_right nofun) nofun held

theorem Mirrored.put (size : s.values.size = f.regTypes.size) (absent : f.declares .absent = false)
    (frame : fr.Typed f) (sized : fr.Sized) {r : Ir.Reg} (target : r? = some r) {v : Ir.Value}
    (type : f.regType? r = some v.ty) {x : Val} (value : t.values[r.num]? = some (some x))
    (holds : Holds a' x v) : Mirrored t a' (fr.put r v) fun q => K q ∨ r? = some q := by
  have declared : f.declares r = true := by rw [Ir.Function.declares, type]; rfl
  intro q u known held
  rw [Eval.Frame.reg?_put sized (frame.holds.function.symm ▸ declared)] at held
  split at held
  · next same =>
    subst same
    cases held
    obtain ⟨y, value', born⟩ := sets.dest q target
      (fun none => by rw [none, absent] at declared; cases declared)
      (by rw [size]; exact (Array.getElem?_eq_some_iff.mp type).1)
    cases value.symm.trans value'
    refine ⟨x, value, born.mono fun id either => ?_, holds⟩
    exact either.elim (fun older => Nat.lt_of_lt_of_le older moves.nextId) And.right
  · next other =>
    have apart : r? ≠ some q := fun same => other (Option.some.inj (same.symm.trans target))
    exact mirrored.kept moves sets (known.resolve_right apart) apart held

end Writing

/-- Where an instruction is lowered, and what is known of the frame that runs it. -/
structure Prepared (m : Ir.Module) (l : Llvm.Module) (blocks : List Llvm.Block) (f : Ir.Function)
    (K : Ir.Reg → Prop) (i : Ir.Inst) (s t : State) (a : Activation) (fr : Eval.Frame)
    (globals : Array Ir.Value) : Prop where
  ran : inst m.functions.size m.globals.size f i s = .ok ((), t)
  stands : Stands blocks s a
  final : t.Final l blocks
  size : s.values.size = f.regTypes.size
  plain : Plain f i
  typed : i.WellTyped f
  early : ∀ r ∈ i.args, K r
  defined : ∀ r ∈ i.args, (fr.reg? r).isSome = true
  frame : fr.Typed f
  sized : fr.Sized
  globals : Eval.TypedGlobals m globals
  mirrored : Mirrored s a fr K

namespace Prepared

variable {m : Ir.Module} {K : Ir.Reg → Prop} (prepared : Prepared m l blocks f K i s t a fr w.globals)
include prepared

theorem reads : ∃ vs, fr.Reads i.args vs ∧ List.Forall₂ (Mirrors f s a) i.args vs := by
  obtain ⟨vs, reads⟩ := Eval.Frame.reads_of_isSome prepared.defined
  refine ⟨vs, reads, ?_⟩
  have early := prepared.early
  revert reads early
  generalize i.args = rs
  intro reads early
  induction reads with
  | nil => exact .nil
  | cons held rest ih =>
    refine .cons (prepared.mirrored.mirrors prepared.frame (early _ List.mem_cons_self) held) (ih ?_)
    exact fun r member => early r (List.mem_cons_of_mem _ member)

theorem sets : Sets i.target? (· < s.nextId) s t := by
  refine inst_sets (fun r member x value => ?_) prepared.stands.opens prepared.ran
  obtain ⟨v, held⟩ := Option.isSome_iff_exists.mp (prepared.defined r member)
  obtain ⟨y, value', born, _⟩ := prepared.mirrored r v (prepared.early r member) held
  rw [value'] at value
  cases value
  exact born

variable (names : (blocks.map (·.name)).Nodup) (related : R w.hostCalls o)
include names related

/-- Instructions that only read the frame and the globals. -/
theorem computes (call : Eval.Call κ ε) (known : Ir.FuncId → Bool) (calls : i.op ≠ .call)
    (stores : i.op ≠ .storeGlobal) :
    Goes l out R blocks s t (memory w.globals) o a (fun r => K r ∨ i.target? = some r)
      (fr.exec call known w i).2 (fr.exec call known w i).1 := by
  obtain ⟨vs, reads, mirrored⟩ := prepared.reads
  rw [Eval.Frame.exec_of_reads reads calls stores]
  have loads : i.op = .loadGlobal → f.regType? i.dest = some i.ty := prepared.typed.dest_of_load
  obtain ⟨ran, stands, final, size, plain, _, _, _, frame, sized, _, known⟩ := id prepared
  cases computed : Eval.compute w.globals i vs with
  | error c =>
    obtain ⟨_, answers, _⟩ :
        Delivers l out blocks (memory w.globals) s t a i.dest (Eval.compute w.globals i vs) :=
      .of_inst final size plain (by rw [computed]; nofun) stands mirrored names calls stores loads ran
    rw [computed] at answers
    exact fun reported callers => (answers reported).panics related callers
  | ok v =>
    have valued : fr.value w.globals i = .ok v := by
      rw [Eval.Frame.value_eq_compute reads, computed]
      rfl
    have target := Eval.Frame.target?_of_value valued calls stores
    dsimp only
    cases written : fr.set i.dest v with
    | error e => exact fun reported => absurd reported (Eval.Frame.set_not_reported written)
    | ok g =>
      obtain ⟨type, rfl⟩ := Eval.Frame.set_eq_ok.mp written
      rw [frame.holds.function] at type
      have fits : ∀ u, Eval.compute w.globals i vs = .ok u → f.regType? i.dest = some u.ty := by
        intro u same
        cases computed.symm.trans same
        exact type
      obtain ⟨x, answers, value⟩ : Delivers l out blocks (memory w.globals) s t a i.dest _ :=
        .of_inst final size plain fits stands mirrored names calls stores loads ran
      rw [computed] at answers
      obtain ⟨a', advances, holds⟩ := answers
      exact ⟨a', o, advances.proceeds o, related, known.put advances.toMoves prepared.sets size plain.absent
        frame sized target type (value v computed) holds⟩

omit names in
/-- A store changes the global and its word alike. -/
theorem stores (call : Eval.Call κ ε) (known : Ir.FuncId → Bool) (op : i.op = .storeGlobal)
    (solid : ∀ g, some g ∈ m.globals → g.ty ≠ .void) :
    Goes l out R blocks s t (memory w.globals) o a (fun r => K r ∨ i.target? = some r)
      (fr.exec call known w i).2 (fr.exec call known w i).1 := by
  obtain ⟨vs, reads, mirrored⟩ := prepared.reads
  have none : i.target? = none := by simp only [Ir.Inst.target?, op]
  by_cases one : vs.length = 1
  · obtain ⟨v, rfl⟩ := List.length_eq_one_iff.mp one
    have operands : fr.operands i 1 = .ok [v] := by
      rw [Eval.Frame.operands_of_reads reads]
      rfl
    simp only [Eval.Frame.exec, op, operands, List.headD_cons]
    cases stored : Eval.storeGlobal w.globals i.global v with
    | error c => exact fun reported => absurd reported (Eval.storeGlobal_not_reported stored)
    | ok globals' =>
      obtain ⟨old, there, same, rfl⟩ := Eval.storeGlobal_ok stored
      obtain ⟨r, args, mirrors⟩ := forall₂_one mirrored
      obtain ⟨_, g, declared, type⟩ := prepared.globals.typed _ old there
      have some : v.ty ≠ .void := same ▸ type ▸ solid g (Array.mem_of_getElem? declared)
      have ran := prepared.ran
      simp only [inst, op] at ran
      split at ran
      · cases ran
      · obtain ⟨x, _, holds, ran⟩ := mirrors.arg (by rw [args]; rfl) ran
        obtain ⟨_, _, got, ran⟩ := run_bind.mp ran
        cases got
        cases found : s.globals[i.global.num]? with
        | none =>
          rw [found] at ran
          cases ran
        | some _ =>
          rw [found] at ran
          dsimp only at ran
          split at ran
          · obtain ⟨_, _, ran, last⟩ := run_bind.mp ran
            cases last
            have width : old.word.width = v.word.width := congrArg Ir.Ty.width same
            have held : memory w.globals i.global.num = Option.some old.word := by
              rw [memory, there]
              rfl
            obtain ⟨a', proceeds⟩ := prepared.stands.store ran prepared.final (holds some) held width o
            rw [← memory_set (Array.getElem?_eq_some_iff.mp there).1] at proceeds
            exact ⟨a', o, proceeds, related, prepared.mirrored.same proceeds.toMoves prepared.sets none⟩
          · cases ran
  · have operands : fr.operands i 1 = .error (fr.fail (.operandCount i.op 1 vs.length)) := by
      rw [Eval.Frame.operands_of_reads reads, if_neg one]
    simp only [Eval.Frame.exec, op, operands]
    exact fun reported => absurd reported (Eval.Cause.not_reported (.inl rfl))

end Prepared

/-- A call has come back, and its result is recorded under the number of the instruction. -/
theorem Moves.of_call {rest : List Llvm.Inst} (later : s.nextId < t.nextId) (x? : Option Word)
    (stands : ∀ b, b.function = a.function → b.block = a.block → b.rest = rest → Stands blocks t b) :
    Moves blocks s t a (({ a with rest } : Activation).record s.nextId x?) := by
  refine ⟨stands _ ?_ ?_ ?_, Nat.le_of_lt later, ?_, ?_, fun id older => ?_⟩
  case refine_6 => exact Activation.results_record _ _ _ (Nat.ne_of_lt older)
  all_goals simp

/-- A call is emitted with what its arguments are at the time, and then its destination is defined. -/
theorem call_parts {n k : Nat} (op : i.op = .call) (ran : inst n k f i s = .ok ((), t)) :
    ∃ x u, emitCall s.current i.callee.num (i.args.map fun r => s.valueOf r (regType f r)) s = .ok (x, u) ∧
      define i.dest x u = .ok ((), t) := by
  simp only [inst, op] at ran
  split at ran
  · cases ran
  obtain ⟨_, _, uses, ran⟩ := run_bind.mp ran
  rw [mapM_reads fun r _ => use_eq s r (regType f r)] at uses
  cases uses
  obtain ⟨_, _, got, ran⟩ := run_bind.mp ran
  cases got
  exact run_bind.mp ran

section Calls

variable {m : Ir.Module} {K : Ir.Reg → Prop} (prepared : Prepared m l blocks f K i s t a fr w.globals)
include prepared

/-- A call that comes to what evaluation comes to. -/
theorem Prepared.calls (related : R w.hostCalls o) {call : Eval.Call κ ε}
    (simulates : Simulates m l out R call) (known : Ir.FuncId → Bool) (op : i.op = .call) :
    Goes l out R blocks s t (memory w.globals) o a (fun r => K r ∨ i.target? = some r)
      (fr.exec call known w i).2 (fr.exec call known w i).1 := by
  obtain ⟨vs, reads, mirrored⟩ := prepared.reads
  simp only [Eval.Frame.exec, op, Eval.Frame.callOut, Eval.Frame.mapM_get_eq_ok.mpr reads]
  split
  · exact fun reported => absurd reported (Eval.Cause.not_reported (.inr (.inr rfl)))
  · have normal : ∀ x ∈ vs, x.Normal := fun x member => by
      obtain ⟨_, _, mirrors⟩ := forall₂_partner mirrored.flip member
      exact mirrors.normal
    have meets := simulates i.callee vs w o normal prepared.globals related
    obtain ⟨x, m', emitted, set⟩ := call_parts op prepared.ran
    have defines := State.Defines.of_define set
    have final : m'.Final l blocks := .of_defines defines prepared.final
    revert meets
    generalize call i.callee vs w = result
    obtain ⟨result, w'⟩ := result
    intro meets
    cases result with
    | error h =>
      cases h with
      | fault e =>
        intro reported callers
        obtain ⟨some, runs⟩ := meets reported
        obtain ⟨rest, g, _, _, _, _, stepped⟩ := prepared.stands.call out emitted final
          (mapM_arg? mirrored some)
        obtain ⟨first, invoked, panics⟩ := runs ((s.nextId, { a with rest }) :: callers)
        exact panics.after (.of_next ((stepped _ _ _).trans invoked))
      | _ => trivial
    | ok v =>
      obtain ⟨some, ⟨g', at_callee, ret⟩, o', related', runs⟩ := meets
      obtain ⟨rest, g, there, rfl, later, stands, stepped⟩ :=
        prepared.stands.call out emitted final (mapM_arg? mirrored some)
      cases at_callee.symm.trans there
      let a' := ({ a with rest } : Activation).record s.nextId v.word?
      have moves : Moves blocks s t a a' := (Moves.of_call later v.word? stands).define defines
      have proceeds : Proceeds l out blocks s t (memory w.globals) o a (memory w'.globals) o' a' := by
        refine ⟨moves, fun callers => ?_⟩
        obtain ⟨first, invoked, leads⟩ := runs ((s.nextId, { a with rest }) :: callers)
        exact .trans (.of_next ((stepped _ _ _).trans invoked)) leads
      dsimp only
      split
      · next absent =>
        have none : i.target? = none := by simp only [Ir.Inst.target?, op, if_pos absent]
        exact ⟨a', o', proceeds, related', prepared.mirrored.same moves prepared.sets none⟩
      · next present =>
        have target : i.target? = Option.some i.dest := by simp only [Ir.Inst.target?, op, if_neg present]
        cases written : fr.set i.dest v with
        | error e => exact fun reported => absurd reported (Eval.Frame.set_not_reported written)
        | ok g =>
          obtain ⟨type, rfl⟩ := Eval.Frame.set_eq_ok.mp written
          rw [prepared.frame.holds.function] at type
          have inside : i.dest.num < m'.values.size := by
            rw [← defines.size, prepared.sets.size, prepared.size]
            exact (Array.getElem?_eq_some_iff.mp type).1
          refine ⟨a', o', proceeds, related', prepared.mirrored.put moves prepared.sets prepared.size
            prepared.plain.absent prepared.frame prepared.sized target type (defines.dest present inside) ?_⟩
          intro some
          have word := Ir.Ty.isIntLike_of_plain (prepared.plain.words _ _ type) some
          rw [ret, returnType, valueType?_eq word]
          show (Activation.record _ _ (if v.ty = .void then none else _)).operand? _ = _
          rw [if_neg some]
          exact Activation.operand?_result _ _ _

/-- Any instruction. -/
theorem Prepared.goes (names : (blocks.map (·.name)).Nodup) (related : R w.hostCalls o)
    {call : Eval.Call κ ε} (simulates : Simulates m l out R call) (known : Ir.FuncId → Bool)
    (solid : ∀ g, some g ∈ m.globals → g.ty ≠ .void) :
    Goes l out R blocks s t (memory w.globals) o a (fun r => K r ∨ i.target? = some r)
      (fr.exec call known w i).2 (fr.exec call known w i).1 := by
  by_cases calls : i.op = .call
  · exact prepared.calls related simulates known calls
  · by_cases stores : i.op = .storeGlobal
    · exact prepared.stores related call known stores solid
    · exact prepared.computes names related call known calls stores

end Calls

theorem Goes.after {mem mem' : Memory} {K : Ir.Reg → Prop} {result : Except (Eval.Halt ε) Eval.Frame}
    (proceeds : Proceeds l out blocks s t mem o a mem' o' a')
    (goes : Goes l out R blocks t u mem' o' a' K w result) : Goes l out R blocks s u mem o a K w result := by
  cases result with
  | ok g =>
    obtain ⟨b, o'', further, related, mirrored⟩ := goes
    refine ⟨b, o'', ⟨proceeds.toMoves.trans further.toMoves, fun callers => ?_⟩, related, mirrored⟩
    exact (proceeds.leads callers).trans (further.leads callers)
  | error h =>
    cases h with
    | fault e => exact fun reported callers => (goes reported callers).after (proceeds.leads callers)
    | _ => trivial

/-- Where the instructions that are left of a block are lowered, and what is known of the frame that runs
them. -/
structure Ahead (m : Ir.Module) (l : Llvm.Module) (blocks : List Llvm.Block) (f : Ir.Function)
    (K : Ir.Reg → Prop) (written : List Ir.Reg) (is : List Ir.Inst) (s t : State) (a : Activation)
    (fr : Eval.Frame) (globals : Array Ir.Value) : Prop where
  ran : is.forM (inst m.functions.size m.globals.size f) s = .ok ((), t)
  stands : Stands blocks s a
  final : t.Final l blocks
  size : s.values.size = f.regTypes.size
  plain : ∀ i ∈ is, Plain f i
  typed : ∀ i ∈ is, i.WellTyped f
  early : ∀ before i after, is = before ++ i :: after → ∀ r ∈ i.args,
    K r ∨ r ∈ before.filterMap Ir.Inst.target?
  known : ∀ r, K r → r ∈ written
  follows : fr.Follows f written
  frame : fr.Typed f
  globals : Eval.TypedGlobals m globals
  mirrored : Mirrored s a fr K

section Block

variable {m : Ir.Module} {K : Ir.Reg → Prop} {written : List Ir.Reg} {is : List Ir.Inst}

/-- The first of the instructions. -/
theorem Ahead.prepared (ahead : Ahead m l blocks f K written (i :: is) s t a fr w.globals) : ∃ u,
    Prepared m l blocks f K i s u a fr w.globals ∧
      is.forM (inst m.functions.size m.globals.size f) u = .ok ((), t) := by
  obtain ⟨_, u, ran, rest⟩ := run_bind.mp ahead.ran
  have early : ∀ r ∈ i.args, K r := fun r member => (ahead.early [] i is rfl r member).resolve_right nofun
  have defined : ∀ r ∈ i.args, (fr.reg? r).isSome = true := fun r member =>
    ahead.follows.defined r (ahead.known r (early r member))
  have sets := inst_sets (P := fun _ => True) (fun _ _ x _ => by cases x <;> trivial) ahead.stands.opens ran
  obtain ⟨continues, _, _⟩ := insts_frame sets.opens rest
  exact ⟨u, ⟨ran, ahead.stands, ahead.final.extends continues.toExtends, ahead.size,
    ahead.plain i List.mem_cons_self, ahead.typed i List.mem_cons_self, early, defined, ahead.frame,
    ahead.follows.sized, ahead.globals, ahead.mirrored⟩, rest⟩

/-- The instructions of a block run as in evaluation, one after the other. -/
theorem Ahead.goes (ahead : Ahead m l blocks f K written is s t a fr w.globals)
    (names : (blocks.map (·.name)).Nodup) (solid : ∀ g, some g ∈ m.globals → g.ty ≠ .void)
    {call : Eval.Call κ ε} (simulates : Simulates m l out R call) (keeps : Eval.KeepsTyped m call)
    (known : Ir.FuncId → Bool) (related : R w.hostCalls o) :
    Goes l out R blocks s t (memory w.globals) o a (fun r => K r ∨ r ∈ is.filterMap Ir.Inst.target?)
      (Eval.Frame.execAll call known is fr w).2
      ((Eval.Frame.execAll call known is fr w).1.mapError Prod.fst) := by
  induction is generalizing s K written a fr w o with
  | nil =>
    obtain ⟨_, rfl⟩ := run_pure.mp ahead.ran
    refine ⟨a, o, (Advances.refl ahead.stands).proceeds o, related, fun r v either held => ?_⟩
    exact ahead.mirrored r v (either.resolve_right nofun) held
  | cons i is ih =>
    obtain ⟨u, prepared, rest⟩ := ahead.prepared
    have goes := prepared.goes names related simulates known solid
    have typed := ahead.frame.exec keeps known (ahead.plain i List.mem_cons_self).constant ahead.globals
    unfold Eval.Frame.execAll
    revert goes typed
    cases ran : fr.exec call known w i with
    | mk result w' =>
      intro goes typed
      cases result with
      | error h =>
        cases h with
        | fault e => exact goes
        | _ => trivial
      | ok g =>
        obtain ⟨a', o', proceeds, related', mirrored⟩ := goes
        have follows := ahead.follows.exec ran
        let g' : Eval.Frame := { g with stats := { fr.stats with insts := fr.stats.insts + 1 } }
        have next : Ahead m l blocks f (fun r => K r ∨ i.target? = some r) (written ++ i.target?.toList) is
            u t a' g' w'.globals := by
          refine ⟨rest, proceeds.stands, ahead.final, prepared.sets.size.symm ▸ ahead.size,
            fun j member => ahead.plain j (List.mem_cons_of_mem i member),
            fun j member => ahead.typed j (List.mem_cons_of_mem i member),
            fun before j after split r member => ?_, ?_,
            ⟨follows.function, follows.sized, follows.defined⟩, (typed.2 g rfl).of_regs rfl rfl, typed.1,
            mirrored⟩
          · exact or_targets_cons.mp (ahead.early (i :: before) j after (by rw [split]; rfl) r member)
          · rintro r (old | new)
            · exact List.mem_append_left _ (ahead.known r old)
            · exact List.mem_append_right _ (by simp [new])
        have all := (ih next related').after proceeds
        rw [show (fun r => K r ∨ r ∈ (i :: is).filterMap Ir.Inst.target?) = _ from
          funext fun r => propext or_targets_cons]
        exact all

end Block

end

section

variable {t : Ir.Ty} {v : Ir.Value}

/-- What a case of a switch is compared with. -/
def caseValue (t : Ir.Ty) (k : Ir.SwitchCase) : Ir.Value := .ofInt t k.value.toInt

/-- Dropping equal cases leaves the first one of each. -/
theorem find?_distinctCases (type : v.ty = t) (cases : List Ir.SwitchCase) {seen : List UInt64}
    (unseen : v.bits ∉ seen) : (distinctCases t cases seen).find? (v == caseValue t ·) =
      cases.find? (v == caseValue t ·) := by
  induction cases generalizing seen with
  | nil => rfl
  | cons k cases ih =>
    unfold distinctCases
    dsimp only
    split
    · next known =>
      have other : v ≠ caseValue t k := fun same => unseen (by
        rw [same]
        exact List.contains_iff_mem.mp known)
      rw [ih unseen, List.find?_cons_of_neg (by simpa using other)]
    · by_cases same : v = caseValue t k
      · rw [List.find?_cons_of_pos (by simpa using same), List.find?_cons_of_pos (by simpa using same)]
      · rw [List.find?_cons_of_neg (by simpa using same), List.find?_cons_of_neg (by simpa using same)]
        refine ih fun member => ?_
        rcases List.mem_cons.mp member with bits | old
        · obtain ⟨ty, b⟩ := v
          cases type
          exact same (by rw [show b = (caseValue ty k).bits from bits]; rfl)
        · exact unseen old

theorem nodup_distinctCases (cases : List Ir.SwitchCase) (seen : List UInt64) :
    ((distinctCases t cases seen).map (caseValue t)).Nodup ∧
      ∀ k ∈ distinctCases t cases seen, (caseValue t k).bits ∉ seen := by
  induction cases generalizing seen with
  | nil => exact ⟨.nil, nofun⟩
  | cons k cases ih =>
    unfold distinctCases
    dsimp only
    split
    · exact ih seen
    · next fresh =>
      obtain ⟨distinct, others⟩ := ih ((Ir.Value.ofInt t k.value.toInt).bits :: seen)
      refine ⟨List.nodup_cons.mpr ⟨fun again => ?_, distinct⟩, fun j member => ?_⟩
      · obtain ⟨j, listed, same⟩ := List.mem_map.mp again
        exact others j listed (by rw [same]; exact List.mem_cons_self)
      · rcases List.mem_cons.mp member with rfl | later
        · exact fun old => fresh (List.contains_iff_mem.mpr old)
        · exact fun old => others j later (List.mem_cons_of_mem _ old)

theorem lookup_map_find? {α β γ : Type} [BEq β] (g : α → β) (h : α → γ) (x : β) (l : List α) :
    (l.map fun a => (g a, h a)).lookup x = (l.find? (x == g ·)).map h := by
  induction l with
  | nil => rfl
  | cons a l ih =>
    rw [List.map_cons, List.lookup_cons, List.find?_cons, ih]
    cases x == g a <;> rfl

theorem mapM_map_eq_some {α β γ : Type} {p : α → β} {g : β → Option γ} {h : α → γ} {l : List α}
    (each : ∀ a ∈ l, g (p a) = some (h a)) : (l.map p).mapM g = some (l.map h) := by
  induction l with
  | nil => rfl
  | cons a l ih =>
    rw [List.map_cons, List.mapM_cons, each a List.mem_cons_self,
      ih fun b member => each b (List.mem_cons_of_mem a member)]
    rfl

/-- The cases of a lowered switch, as words. -/
def caseKeys (t : Ir.Ty) (cases : List Ir.SwitchCase) : List (BitVec t.width × BlockName) :=
  (distinctCases t cases []).map fun k => ((caseValue t k).low t.width, nameOf k.target)

variable (word : t.isIntLike = true) (cases : List Ir.SwitchCase)
include word

theorem caseKeys_read : ((distinctCases t cases []).map fun k =>
      (intConst t (caseValue t k).bits, nameOf k.target)).mapM
        (fun x => (caseBits? t.width x.1).map (·, x.2)) = some (caseKeys t cases) := by
  refine mapM_map_eq_some fun k _ => ?_
  obtain ⟨i, const, same⟩ := intConst_eq word (caseValue t k).bits
  rw [const, caseBits?, if_pos rfl, same]
  rfl

theorem nodup_caseKeys : ((caseKeys t cases).map (·.1)).Nodup := by
  have apart := (nodup_distinctCases (t := t) cases []).1
  have values : (caseKeys t cases).map (·.1) =
      ((distinctCases t cases []).map (caseValue t)).map (·.low t.width) := by
    simp [caseKeys]
  rw [values]
  refine List.Nodup.map_on (fun x one y two same => ?_) apart
  obtain ⟨j, _, rfl⟩ := List.mem_map.mp one
  obtain ⟨k, _, rfl⟩ := List.mem_map.mp two
  exact Ir.Value.eq_of_low word (Ir.Value.normal_ofBits _ _) (Ir.Value.normal_ofBits _ _) rfl rfl same

omit word in
theorem switchTarget_eq (type : v.ty = t) (default : Ir.BlockId) : Eval.switchTarget v cases default =
    (((distinctCases t cases []).find? (v == caseValue t ·)).map (·.target)).getD default := by
  rw [find?_distinctCases type cases (by simp)]
  subst type
  unfold Eval.switchTarget caseValue
  cases cases.find? (v == Ir.Value.ofInt v.ty ·.value.toInt) <;> rfl

/-- The key of a value is that of the case that evaluation finds. -/
theorem lookup_caseKeys (normal : v.Normal) (type : v.ty = t) (default : Ir.BlockId) :
    ((caseKeys t cases).lookup (v.low t.width)).getD (nameOf default) =
      nameOf (Eval.switchTarget v cases default) := by
  have low : ∀ k, (v.low t.width == (caseValue t k).low t.width) = (v == caseValue t k) := by
    intro k
    rw [Bool.eq_iff_iff, beq_iff_eq, beq_iff_eq]
    exact ⟨Ir.Value.eq_of_low word normal (Ir.Value.normal_ofBits _ _) type rfl,
      fun same => congrArg (Ir.Value.low · _) same⟩
  rw [caseKeys, lookup_map_find?, switchTarget_eq cases type]
  simp only [low]
  cases (distinctCases t cases []).find? (v == caseValue t ·) <;> rfl

end

section

variable {σ : Type} {l : Llvm.Module} {out : Outside σ} {blocks : List Llvm.Block} {mem : Memory}
  {s t : State} {a a' : Activation} {f : Ir.Function} {fr : Eval.Frame} {K : Ir.Reg → Prop} {T : Llvm.Term}
  {before : Ir.Term}

/-- A terminator sends a running call to a block. -/
def Sends (σ : Type) (a : Activation) (T : Llvm.Term) (n : BlockName) : Prop :=
  ∀ (mem : Memory) callers (o : σ), Llvm.State.leave ⟨mem, a, callers, o⟩ T =
    (a.goto? n).map fun b => .step ⟨mem, b, callers, o⟩

theorem Sends.of_goto {n : BlockName}
    (goes : ∀ s : Llvm.State σ, s.active = a →
      s.leave T = (do return .step { s with active := ← a.goto? n })) : Sends σ a T n := by
  intro mem callers o
  rw [goes _ rfl]
  cases a.goto? n <;> rfl

theorem State.leave_switch {s : Llvm.State σ} {x : Val} {default : BlockName}
    {cases : List (Llvm.Const × BlockName)} {m : Word} {keys : List (BitVec m.width × BlockName)}
    (there : s.active.operand? x = some m)
    (read : cases.mapM (fun c => (caseBits? m.width c.1).map (·, c.2)) = some keys)
    (distinct : (keys.map (·.1)).Nodup) : s.leave (.switch x default cases) =
      (do return .step { s with active := ← s.active.goto? ((keys.lookup m.bits).getD default) }) := by
  simp only [Llvm.State.leave, there, Option.bind_eq_bind, Option.bind_some, read, if_pos distinct]

theorem regType_of_typed {r : Ir.Reg} {v : Ir.Value} (type : f.regType? r = some v.ty) :
    regType f r = v.ty := by
  rw [regType, type]
  rfl

theorem Mirrors.valueOf {r : Ir.Reg} {v : Ir.Value} (mirrors : Mirrors f s a r v) (u : Ir.Ty) :
    Holds a (s.valueOf r u) v := by
  obtain ⟨x, value, _, holds⟩ := mirrors.value
  rw [State.valueOf, value]
  exact holds

section Terminators

variable (ending : Ending f s before t T)
  (frame : fr.Typed f) (mirrored : Mirrored s a fr K) (uses : ∀ r ∈ before.uses, K r)
include ending frame mirrored uses

/-- Where evaluation goes on, the lowered terminator sends control. -/
theorem Ending.sends (out : Outside σ) (mem : Memory) (stands : Stands blocks s a) (final : t.Final l blocks)
    {target : Ir.BlockId} (ended : fr.terminate before = .ok (.goto target)) :
    ∃ a', Advances l out blocks mem s t a a' ∧ Sends σ a' T (nameOf target) ∧
      target ∈ loweredSuccessors f before := by
  have mirrors : ∀ {c v}, c ∈ before.uses → fr.reg? c = some v → Mirrors f s a c v := fun used held =>
    mirrored.mirrors frame (uses _ used) held
  cases ending with
  | br b =>
    cases ended
    exact ⟨a, .refl stands, .of_goto fun s active => by subst active; rfl,
      by simp [loweredSuccessors, Ir.Term.successors]⟩
  | @truth c yes no boolean =>
    obtain ⟨v, got, _⟩ := bind_eq_ok.mp ended
    have held := Eval.Frame.get_eq_ok.mp got
    have reads := mirrors (by simp [Ir.Term.uses]) held
    rw [Eval.Frame.terminate_condBr held] at ended
    split at ended <;> cases ended
    have type : v.ty = .bool := (regType_of_typed reads.type).symm.trans boolean
    have there := reads.valueOf .bool (by rw [type]; decide)
    rw [word_of_bool reads.normal type] at there
    refine ⟨a, .refl stands, .of_goto fun s active => ?_, ?_⟩
    · subst active
      simp only [State.leave, there, Option.bind_eq_bind, Option.bind_some, Activation.truth?_ofBool]
      cases v.toBool <;> rfl
    · cases v.toBool <;> simp [loweredSuccessors, Ir.Term.successors]
  | @test c yes no x m ran =>
    obtain ⟨v, got, _⟩ := bind_eq_ok.mp ended
    have held := Eval.Frame.get_eq_ok.mp got
    have reads := mirrors (by simp [Ir.Term.uses]) held
    rw [Eval.Frame.terminate_condBr held] at ended
    split at ended
    · next word =>
      cases ended
      rw [regType_of_typed reads.type] at ran
      have there := (reads.valueOf v.ty).of_ty rfl word
      obtain ⟨a', compares⟩ := stands.icmp out mem final there (operand?_zeroOf a word) ran
      have truth : IntPred.ne.holds (v.low v.ty.width) (.ofInt v.ty.width 0) = v.toBool := by
        have zero := Ir.Value.pattern_eq_zero reads.normal word
        rw [Bool.eq_iff_iff]
        simpa [IntPred.holds, Ir.Value.low, Ir.Value.pattern, Ir.Value.toBool] using not_congr zero
      refine ⟨a', compares.toAdvances, .of_goto fun s active => ?_, ?_⟩
      · subst active
        simp only [State.leave, compares.value, truth, Option.bind_eq_bind, Option.bind_some,
          Activation.truth?_ofBool]
        cases v.toBool <;> rfl
      · cases v.toBool <;> simp [loweredSuccessors, Ir.Term.successors]
    · cases ended
  | @switch c cases default =>
    obtain ⟨v, got, _⟩ := bind_eq_ok.mp ended
    have held := Eval.Frame.get_eq_ok.mp got
    have reads := mirrors (by simp [Ir.Term.uses]) held
    rw [Eval.Frame.terminate_switch held] at ended
    split at ended
    · next word =>
      cases ended
      rw [regType_of_typed reads.type]
      have there := (reads.valueOf v.ty).of_ty rfl word
      refine ⟨a, .refl stands, .of_goto fun s active => ?_, ?_⟩
      · subst active
        refine (State.leave_switch there (caseKeys_read word cases) (nodup_caseKeys word cases)).trans ?_
        rw [lookup_caseKeys word cases reads.normal rfl]
      · rw [switchTarget_eq cases rfl, loweredSuccessors, regType_of_typed reads.type]
        cases chosen : (distinctCases v.ty cases []).find? (v == caseValue v.ty ·) with
        | none => exact List.mem_cons_self
        | some k =>
          exact List.mem_cons_of_mem _ (List.mem_map_of_mem (List.mem_of_find?_eq_some chosen))
    · cases ended
  | ret | retVoid =>
    rcases Eval.Frame.goto_cases ended with is | ⟨_, _, _, _, is, _⟩ | ⟨_, _, _, _, is, _⟩ <;> cases is
  | unreachable never => rcases never with rfl | rfl <;> cases ended

/-- Where evaluation returns, the lowered terminator gives the result. -/
theorem Ending.gives (words : ∀ r u, f.regType? r = some u → u.isFloat = false) {v : Ir.Value}
    (ended : fr.terminate before = .ok (.done v)) (ret : a.function.ret = returnType f.sig.ret) :
    t = s ∧ v.ty = f.sig.ret ∧ ∀ mem callers (o : σ),
      Llvm.State.leave ⟨mem, a, callers, o⟩ T = some (give v.word? mem o callers) := by
  have nothing : v.word? = none → a.function.ret = .void → ∀ mem callers (o : σ),
      Llvm.State.leave ⟨mem, a, callers, o⟩ (.ret none) = some (give v.word? mem o callers) := by
    intro none void mem callers o
    rw [none]
    exact if_pos void
  rcases Eval.Frame.done_cases ended with ⟨rfl, rfl, void⟩ | ⟨r, rfl, held, type⟩
  · rw [frame.holds.function] at void
    cases ending with
    | retVoid => exact ⟨rfl, void.symm, nothing rfl (by rw [ret, void]; rfl)⟩
    | unreachable never => rcases never with is | is <;> cases is
  · rw [frame.holds.function] at type
    have reads := mirrored.mirrors frame (uses r (by simp [Ir.Term.uses])) held
    cases ending with
    | ret some =>
      rw [← type] at some ret ⊢
      have there := reads.valueOf v.ty some
      have word := valueType?_eq (Ir.Ty.isIntLike_of_plain (words r _ reads.type) some)
      refine ⟨rfl, rfl, fun mem callers o => ?_⟩
      rw [Ir.Value.word?, if_neg some]
      simp only [Llvm.State.leave, there, Option.bind_eq_bind, Option.bind_some, ret, returnType, word]
      exact if_pos rfl
    | retVoid void =>
      have void := void.resolve_left (Option.some_ne_none r)
      refine ⟨rfl, type, nothing ?_ (by rw [ret, void]; rfl)⟩
      rw [Ir.Value.word?, if_pos (type.trans void)]
    | unreachable never => rcases never with is | is <;> cases is

end Terminators

end

end TieredEngine.Ship.Lowering
