import TieredEngine.Eval.Machine
import TieredEngine.Proofs.Except
import TieredEngine.Proofs.Ir.Paths

/-!
Single steps of the evaluator, described by the values an instruction reads. Once the operands are
known, what an instruction computes does not depend on the frame, so each step is the reading of
its operands, a computation on values, and one write.

Folding and executing are one computation. Folding looks at the number of operands first and at the
type of the result last; execution reads the operands in order, and the type of the result is tested
when it is written. On an instruction whose result depends on its operands alone both come to the
same computation on values, with the same test at the end, so neither can succeed where the other
fails.
-/
namespace TieredEngine.Ir

/-- Operations whose result depends on the values of their operands alone. -/
def Op.folds (op : Op) : Bool :=
  op.isUnary || op.isBinary || op.isCompare || op == .copy || op == .cast || op == .select

theorem Op.not_effect_of_folds {op : Op} (pure : op.folds = true) : op ≠ .call ∧ op ≠ .storeGlobal := by
  constructor <;> rintro rfl <;> revert pure <;> decide

end TieredEngine.Ir

namespace TieredEngine.Eval
open TieredEngine.Ir

/-- Value of an operation of one or two operands. -/
def operate (op : Op) (t : Ty) (args : List Value) : Except Cause Value :=
  if op.isUnary then
    match args with
    | [a] => unary op t a
    | _ => .error (.operandCount op 1 args.length)
  else
    match args with
    | [a, b] => if op.isBinary then binary op t a b else compare op a b
    | _ => .error (.operandCount op 2 args.length)

/-- Value of an instruction that makes no call and stores nothing, from the values it reads. -/
def compute (globals : Array Value) (i : Inst) (args : List Value) : Except Cause Value :=
  match i.op, args with
  | .const, _ => .ok i.const
  | .undef, _ => .ok (Value.zero i.ty)
  | .loadGlobal, _ =>
    match globals[i.global.num]? with
    | some v => .ok v
    | none => .error (.loadUnknownGlobal i.global)
  | .panic, _ => .error (.panicked i.message)
  | .copy, [a] => .ok a
  | .copy, _ => .error (.operandCount i.op 1 args.length)
  | .cast, [a] => cast i.ty a
  | .cast, _ => .error (.operandCount i.op 1 args.length)
  | .select, [c, a, b] => select c a b
  | .select, _ => .error (.operandCount i.op 3 args.length)
  | op, _ => operate op i.ty args

namespace Frame

/-- Contents of a register, if it has been written. -/
def reg? (fr : Frame) (r : Reg) : Option Value := (fr.regs[r.num]?).join

def put (fr : Frame) (r : Reg) (v : Value) : Frame :=
  { fr with regs := fr.regs.setIfInBounds r.num (some v) }

/-- The frame has a place for each declared register. -/
def Sized (fr : Frame) : Prop := fr.regs.size = fr.function.regTypes.size

/-- The registers hold the values. -/
def Reads (fr : Frame) (rs : List Reg) (vs : List Value) : Prop :=
  List.Forall₂ (fun r v => fr.reg? r = some v) rs vs

theorem get_eq_ok {fr : Frame} {r : Reg} {v : Value} : fr.get r = .ok v ↔ fr.reg? r = some v := by
  unfold get reg?
  cases (fr.regs[r.num]?).join <;> simp

theorem mapM_get_eq_ok {fr : Frame} {rs : List Reg} {vs : List Value} :
    rs.mapM fr.get = .ok vs ↔ fr.Reads rs vs := by
  rw [mapM_eq_ok]
  simp only [get_eq_ok, Reads]

theorem Reads.length_eq {fr : Frame} {rs : List Reg} {vs : List Value} (reads : fr.Reads rs vs) :
    vs.length = rs.length := (List.Forall₂.length_eq reads).symm

/-- Registers that have all been written hold some values. -/
theorem reads_of_isSome {fr : Frame} {rs : List Reg} (each : ∀ r ∈ rs, (fr.reg? r).isSome = true) :
    ∃ vs, fr.Reads rs vs := by
  induction rs with
  | nil => exact ⟨[], .nil⟩
  | cons r rs ih =>
    obtain ⟨v, head⟩ := Option.isSome_iff_exists.mp (each r (by simp))
    obtain ⟨vs, tail⟩ := ih fun x member => each x (by simp [member])
    exact ⟨v :: vs, .cons head tail⟩

/-- Operands are counted before they are read. -/
theorem operands_of_reads {fr : Frame} {i : Inst} {vs : List Value} (reads : fr.Reads i.args vs)
    (n : Nat) : fr.operands i n =
      if vs.length = n then .ok vs else .error (fr.fail (.operandCount i.op n vs.length)) := by
  unfold operands
  rw [mapM_get_eq_ok.mpr reads, reads.length_eq]
  by_cases count : i.args.length = n <;> simp [count]

theorem operands_bind {fr : Frame} {i : Inst} {vs : List Value} (reads : fr.Reads i.args vs)
    (n : Nat) (k : List Value → Except Error Value) : (fr.operands i n >>= k) =
      if vs.length = n then k vs else .error (fr.fail (.operandCount i.op n vs.length)) := by
  rw [operands_of_reads reads]
  split <;> rfl

/-- The value of an instruction is computed from the values it reads. -/
theorem value_eq_compute {fr : Frame} {i : Inst} {vs : List Value} (reads : fr.Reads i.args vs)
    (globals : Array Value) : fr.value globals i = fr.located (compute globals i vs) := by
  have count := reads.length_eq
  unfold value
  split
  · next op => simp only [compute, op, located, pure, Except.pure]
  · next op => simp only [compute, op, located, pure, Except.pure]
  · next op =>
    rw [operands_bind reads]
    rcases vs with _ | ⟨a, _ | ⟨b, rest⟩⟩ <;> simp [compute, op, located, pure, Except.pure]
  · next op =>
    rw [operands_bind reads]
    rcases vs with _ | ⟨a, _ | ⟨b, rest⟩⟩ <;> simp [compute, op, located]
  · next op =>
    rw [operands_bind reads]
    rcases vs with _ | ⟨a, _ | ⟨b, _ | ⟨c, _ | ⟨d, rest⟩⟩⟩⟩ <;> simp [compute, op, located]
  · next op =>
    simp only [compute, op]
    split <;> simp_all [located, pure, Except.pure, throw, throwThe, MonadExceptOf.throw]
  · next op =>
    simp only [compute, op, located, throw, throwThe, MonadExceptOf.throw]
  · have other : compute globals i vs = operate i.op i.ty vs := by
      unfold compute
      split <;> first | contradiction | rfl
    rw [other]
    unfold operate
    split
    · rw [operands_bind reads]
      rcases vs with _ | ⟨a, _ | ⟨b, rest⟩⟩ <;> simp [located]
    · rw [operands_bind reads]
      rcases vs with _ | ⟨a, _ | ⟨b, _ | ⟨c, rest⟩⟩⟩ <;> simp [located]

/-- An instruction that has a value computed it from registers it reads. -/
theorem compute_of_value {fr : Frame} {i : Inst} {globals : Array Value} {v : Value}
    (valued : fr.value globals i = .ok v) :
    ∃ vs, (∀ x ∈ vs, ∃ r, fr.reg? r = some x) ∧ compute globals i vs = .ok v := by
  cases read : i.args.mapM fr.get with
  | ok vs =>
    have reads := mapM_get_eq_ok.mp read
    rw [value_eq_compute reads] at valued
    refine ⟨vs, fun x member => ?_, ?_⟩
    · obtain ⟨r, _, held⟩ := forall₂_partner reads.flip member
      exact ⟨r, held⟩
    · cases computed : compute globals i vs <;> simp_all [located]
  | error e =>
    -- operations that read their operands fail, and the others have none
    have fails : ∀ n (k : List Value → Except Error Value), (fr.operands i n >>= k) ≠ .ok v := by
      intro n k
      unfold operands
      split <;> simp [read, bind, Except.bind]
    refine ⟨[], by simp, ?_⟩
    unfold value at valued
    split at valued
    · next op => simpa [compute, op, pure, Except.pure] using valued
    · next op => simpa [compute, op, pure, Except.pure] using valued
    · exact absurd valued (fails _ _)
    · exact absurd valued (fails _ _)
    · exact absurd valued (fails _ _)
    · next op =>
      split at valued
      · next at_id => simpa [compute, op, at_id, pure, Except.pure] using valued
      · cases valued
    · cases valued
    · split at valued
      · exact absurd valued (fails _ _)
      · exact absurd valued (fails _ _)

theorem reg?_put {fr : Frame} (sized : fr.Sized) {r : Reg} (declared : fr.function.declares r = true)
    (v : Value) (x : Reg) : (fr.put r v).reg? x = if x = r then some v else fr.reg? x := by
  have bound : r.num < fr.regs.size := by
    rw [sized]
    simpa [Function.declares, Function.regType?] using declared
  unfold reg? put
  rw [Array.getElem?_setIfInBounds]
  by_cases same : x = r
  · simp [same, bound]
  · have different : ¬ r.num = x.num := fun equal => same (Reg.num_inj.mp equal.symm)
    simp [same, different]

@[simp] theorem function_put (fr : Frame) (r : Reg) (v : Value) :
    (fr.put r v).function = fr.function := rfl

@[simp] theorem stats_put (fr : Frame) (r : Reg) (v : Value) :
    (fr.put r v).stats = fr.stats := rfl

theorem sized_put {fr : Frame} (sized : fr.Sized) (r : Reg) (v : Value) : (fr.put r v).Sized := by
  simpa [Sized, put] using sized

theorem set_eq_ok {fr fr' : Frame} {r : Reg} {v : Value} :
    fr.set r v = .ok fr' ↔ fr.function.regType? r = some v.ty ∧ fr' = fr.put r v := by
  unfold set put
  split
  · next none => simp [none]
  · next want known =>
    by_cases same : want = v.ty
    · simp [known, same, eq_comm]
    · simp [known, same]

/-- Writing a declared register fails only on a value of another type. -/
theorem set_of_declared {fr : Frame} {r : Reg} (declared : fr.function.declares r = true)
    (v : Value) : fr.set r v = .ok (fr.put r v) ∨
      ∃ e, fr.set r v = .error e ∧ e.kind = .typeMismatch := by
  obtain ⟨t, known⟩ := Option.isSome_iff_exists.mp declared
  by_cases same : t = v.ty
  · exact .inl (set_eq_ok.mpr ⟨same ▸ known, rfl⟩)
  · refine .inr ⟨fr.fail (.registerType r t v.ty), ?_, rfl⟩
    simp only [set, known, ne_eq, same, not_false_eq_true, if_true]

/-- The frame after an instruction that gave a value: the register it writes, if any, holds it. -/
def record (fr : Frame) (i : Inst) (v : Value) : Frame :=
  match i.target? with
  | some r => fr.put r v
  | none => fr

/-- An instruction that makes no call and stores nothing computes a value and writes it. -/
theorem exec_of_reads {κ ε : Type} {call : Call κ ε} {known : FuncId → Bool} {fr : Frame}
    {w : World κ} {i : Inst} {vs : List Value} (reads : fr.Reads i.args vs)
    (calls : i.op ≠ .call) (stores : i.op ≠ .storeGlobal) :
    fr.exec call known w i =
      match compute w.globals i vs with
      | .error c => (.error (.fault (fr.fail c)), w)
      | .ok v => ((fr.set i.dest v).mapError .fault, w) := by
  unfold exec
  split
  · contradiction
  · contradiction
  · rw [value_eq_compute reads]
    cases compute w.globals i vs <;> rfl

end Frame

/-- Where a switch on a value leads. -/
def switchTarget (v : Value) (cases : List SwitchCase) (default : BlockId) : BlockId :=
  match cases.find? (fun k => v == Value.ofInt v.ty k.value.toInt) with
  | some k => k.target
  | none => default

theorem switchTarget_mem (v : Value) (c : Reg) (cases : List SwitchCase) (default : BlockId) :
    switchTarget v cases default ∈ (Term.switch c cases default).successors := by
  unfold switchTarget
  simp only [Term.successors, List.mem_append, List.mem_map, List.mem_singleton]
  split
  · next k matched => exact .inl ⟨k, List.mem_of_find?_eq_some matched, rfl⟩
  · exact .inr rfl

theorem switchTarget_map (v : Value) (cases : List SwitchCase) (default : BlockId)
    (π : BlockId → BlockId) :
    switchTarget v (cases.map fun k => { k with target := π k.target }) (π default) =
      π (switchTarget v cases default) := by
  unfold switchTarget
  rw [List.find?_map]
  simp only [Function.comp_def]
  cases cases.find? (fun k => v == Value.ofInt v.ty k.value.toInt) <;> rfl

namespace Frame

variable {fr : Frame} {r : Reg} {v : Value}

theorem terminate_condBr (held : fr.reg? r = some v) (yes no : BlockId) :
    fr.terminate (.condBr r yes no) =
      if v.ty.isIntLike then .ok (.goto (if v.toBool then yes else no))
      else .error (fr.fail (.branchOn v.ty)) := by
  simp only [terminate, get_eq_ok.mpr held, bind, Except.bind]
  by_cases word : v.ty.isIntLike = true
  · simp [word, pure, Except.pure]
  · simp [word, throw, throwThe, MonadExceptOf.throw]

theorem terminate_switch (held : fr.reg? r = some v) (cases : List SwitchCase)
    (default : BlockId) : fr.terminate (.switch r cases default) =
      if v.ty.isIntLike then .ok (.goto (switchTarget v cases default))
      else .error (fr.fail (.switchOn v.ty)) := by
  simp only [terminate, get_eq_ok.mpr held, bind, Except.bind]
  by_cases word : v.ty.isIntLike = true
  · simp only [word, Bool.not_true, Bool.false_eq_true, if_false, if_true, pure, Except.pure,
      switchTarget]
    cases cases.find? (fun k => v == Value.ofInt v.ty k.value.toInt) <;> rfl
  · simp [word, throw, throwThe, MonadExceptOf.throw]

theorem terminate_ret (held : fr.reg? r = some v) : fr.terminate (.ret (some r)) =
      if v.ty = fr.function.sig.ret then .ok (.done v)
      else .error (fr.fail (.returnType v.ty fr.function.sig.ret)) := by
  simp only [terminate, get_eq_ok.mpr held, bind, Except.bind]
  by_cases fits : v.ty = fr.function.sig.ret
  · simp [fits, pure, Except.pure]
  · simp [fits, throw, throwThe, MonadExceptOf.throw]

/-- The terminators that go on, and where. -/
theorem goto_cases {t : Term} {next : BlockId} (ended : fr.terminate t = .ok (.goto next)) :
    t = .br next ∨
    (∃ c yes no v, t = .condBr c yes no ∧ fr.reg? c = some v ∧
      next = if v.toBool then yes else no) ∨
    ∃ c cases d v, t = .switch c cases d ∧ fr.reg? c = some v ∧
      next = switchTarget v cases d := by
  cases t with
  | missing => cases ended
  | br t =>
    cases ended
    exact .inl rfl
  | condBr c yes no =>
    obtain ⟨v, got, _⟩ := bind_eq_ok.mp ended
    rw [terminate_condBr (get_eq_ok.mp got)] at ended
    split at ended
    · cases ended
      exact .inr (.inl ⟨c, yes, no, v, rfl, get_eq_ok.mp got, rfl⟩)
    · cases ended
  | switch c cases d =>
    obtain ⟨v, got, _⟩ := bind_eq_ok.mp ended
    rw [terminate_switch (get_eq_ok.mp got)] at ended
    split at ended
    · cases ended
      exact .inr (.inr ⟨c, cases, d, v, rfl, get_eq_ok.mp got, rfl⟩)
    · cases ended
  | ret v? =>
    cases v? with
    | none =>
      simp only [terminate] at ended
      split at ended <;> cases ended
    | some r =>
      obtain ⟨v, got, _⟩ := bind_eq_ok.mp ended
      rw [terminate_ret (get_eq_ok.mp got)] at ended
      split at ended <;> cases ended
  | unreachable => cases ended

/-- Control goes only to successors. -/
theorem goto_mem {t : Term} {next : BlockId} (ended : fr.terminate t = .ok (.goto next)) :
    next ∈ t.successors := by
  rcases goto_cases ended with rfl | ⟨c, yes, no, v, rfl, _, rfl⟩ | ⟨c, cases, d, v, rfl, _, rfl⟩
  · simp [Term.successors]
  · split <;> simp [Term.successors]
  · exact switchTarget_mem v c cases d

/-- The terminators that end a call, and with which value. -/
theorem done_cases {t : Term} {v : Value} (ended : fr.terminate t = .ok (.done v)) :
    t = .ret none ∧ v = .void ∧ fr.function.sig.ret = .void ∨
    ∃ r, t = .ret (some r) ∧ fr.reg? r = some v ∧ v.ty = fr.function.sig.ret := by
  cases t with
  | missing => cases ended
  | br t => cases ended
  | condBr c yes no =>
    obtain ⟨x, got, _⟩ := bind_eq_ok.mp ended
    rw [terminate_condBr (get_eq_ok.mp got)] at ended
    split at ended <;> cases ended
  | switch c cases d =>
    obtain ⟨x, got, _⟩ := bind_eq_ok.mp ended
    rw [terminate_switch (get_eq_ok.mp got)] at ended
    split at ended <;> cases ended
  | ret v? =>
    cases v? with
    | none =>
      simp only [terminate] at ended
      split at ended
      · cases ended
      · next void =>
        cases ended
        exact .inl ⟨rfl, rfl, not_not.mp void⟩
    | some r =>
      obtain ⟨x, got, _⟩ := bind_eq_ok.mp ended
      rw [terminate_ret (get_eq_ok.mp got)] at ended
      split at ended
      · next typed =>
        cases ended
        exact .inr ⟨r, rfl, get_eq_ok.mp got, typed⟩
      · cases ended
  | unreachable => cases ended

/-- A value that a terminator returns is nothing, or the contents of a register. -/
theorem done_reg? {t : Term} {v : Value} (ended : fr.terminate t = .ok (.done v)) :
    v = .void ∨ ∃ r, fr.reg? r = some v := by
  rcases done_cases ended with ⟨_, rfl, _⟩ | ⟨r, _, held, _⟩
  · exact .inl rfl
  · exact .inr ⟨r, held⟩

end Frame

theorem kind_of_binary {op : Op} {t : Ty} {x y : Value} {c : Cause}
    (total : op ≠ .div ∧ op ≠ .rem) (failed : binary op t x y = .error c) :
    c.kind = .typeMismatch := by
  unfold binary at failed
  split at failed
  · cases failed
    rfl
  · split at failed
    · split at failed <;> cases failed
      rfl
    · split at failed
      · cases failed
        rfl
      · dsimp only at failed
        split at failed <;> first | simp_all; done | skip
        · split at failed <;> cases failed
        · cases failed
          rfl

theorem kind_of_unary {op : Op} {t : Ty} {x : Value} {c : Cause}
    (failed : unary op t x = .error c) : c.kind = .typeMismatch := by
  unfold unary at failed
  repeat' split at failed
  all_goals first | (cases failed; rfl) | cases failed

theorem kind_of_compare {op : Op} {x y : Value} {c : Cause}
    (failed : compare op x y = .error c) : c.kind = .typeMismatch := by
  unfold compare at failed
  dsimp only at failed
  split at failed
  · cases failed
    rfl
  · split at failed
    · split at failed <;> cases failed
      rfl
    · split at failed
      · cases failed
        rfl
      · split at failed <;> cases failed
        rfl

theorem kind_of_cast {t : Ty} {x : Value} {c : Cause} (failed : cast t x = .error c) :
    c.kind = .typeMismatch := by
  unfold cast at failed
  dsimp only at failed
  repeat' split at failed
  all_goals first | (cases failed; rfl) | cases failed

theorem kind_of_select {x y z : Value} {c : Cause} (failed : select x y z = .error c) :
    c.kind = .typeMismatch := by
  unfold select at failed
  split at failed <;> cases failed
  rfl

theorem kind_of_operate {op : Op} {t : Ty} {vs : List Value} {c : Cause}
    (total : op ≠ .div ∧ op ≠ .rem) (failed : operate op t vs = .error c) :
    c.kind = .typeMismatch := by
  unfold operate at failed
  split at failed
  · split at failed
    · exact kind_of_unary failed
    · cases failed
      rfl
  · split at failed
    · split at failed
      · exact kind_of_binary total failed
      · exact kind_of_compare failed
    · cases failed
      rfl

/-- An operation without effects fails only on types, when the global it may load exists. -/
theorem kind_of_compute {globals : Array Value} {i : Inst} {vs : List Value} {c : Cause}
    (pure : i.op.hasEffects = false)
    (loads : i.op = .loadGlobal → i.global.num < globals.size)
    (failed : compute globals i vs = .error c) : c.kind = .typeMismatch := by
  unfold compute at failed
  split at failed
  · cases failed
  · cases failed
  · next load =>
    rw [Array.getElem?_eq_getElem (loads load)] at failed
    cases failed
  · next panics => simp [panics, Op.hasEffects] at pure
  · cases failed
  · cases failed
    rfl
  · exact kind_of_cast failed
  · cases failed
    rfl
  · exact kind_of_select failed
  · cases failed
    rfl
  · refine kind_of_operate ⟨?_, ?_⟩ failed
    · intro divides
      simp [divides, Op.hasEffects] at pure
    · intro divides
      simp [divides, Op.hasEffects] at pure

theorem compute_eq_operate {globals : Array Value} {i : Inst} {vs : List Value}
    (computes : i.op ∉ Op.plain) : compute globals i vs = operate i.op i.ty vs := by
  unfold compute
  split <;> first | rfl | simp_all [Op.plain]

/-- Folding is computing, kept when the result has the type that the instruction declares. -/
theorem fold?_eq_compute {i : Inst} (pure : i.op.folds = true) (vs : List Value) (globals : Array Value) :
    fold? i vs = (compute globals i vs).toOption.filter (·.ty == i.ty) := by
  unfold fold?
  dsimp only
  congr 1
  have operated : i.op ∉ Op.plain → compute globals i vs = operate i.op i.ty vs :=
    compute_eq_operate
  rcases i.op.kinds with unary | binary | compares | plain
  · have apart : i.op ∉ Op.plain := Op.not_plain (.inl unary)
    have alone : i.op.isBinary = false ∧ i.op.isCompare = false := by
      revert unary
      cases i.op <;> decide
    rw [operated apart]
    simp only [Op.plain, List.mem_cons, List.not_mem_nil, or_false, not_or] at apart
    rcases vs with _ | ⟨a, _ | ⟨b, _ | ⟨c, _ | ⟨d, vs⟩⟩⟩⟩ <;>
      simp [operate, unary, alone, apart, Except.toOption]
  · have apart : i.op ∉ Op.plain := Op.not_plain (.inr (.inl binary))
    have alone := Op.isUnary_of_binary binary
    rw [operated apart]
    simp only [Op.plain, List.mem_cons, List.not_mem_nil, or_false, not_or] at apart
    rcases vs with _ | ⟨a, _ | ⟨b, _ | ⟨c, _ | ⟨d, vs⟩⟩⟩⟩ <;>
      simp [operate, binary, alone, apart, Except.toOption]
  · have apart : i.op ∉ Op.plain := Op.not_plain (.inr (.inr compares))
    have alone := Op.other_of_compare compares
    rw [operated apart]
    simp only [Op.plain, List.mem_cons, List.not_mem_nil, or_false, not_or] at apart
    rcases vs with _ | ⟨a, _ | ⟨b, _ | ⟨c, _ | ⟨d, vs⟩⟩⟩⟩ <;>
      simp [operate, compares, alone, apart, Except.toOption]
  · have one : i.op = .copy ∨ i.op = .cast ∨ i.op = .select := by
      revert pure plain
      cases i.op <;> decide
    rcases one with op | op | op <;>
      rcases vs with _ | ⟨a, _ | ⟨b, _ | ⟨c, _ | ⟨d, vs⟩⟩⟩⟩ <;>
      simp [compute, op, Op.isUnary, Op.isBinary, Op.isCompare, Except.toOption]

/-- An operation that does more than compute on its operands is not folded. -/
theorem fold?_eq_none {i : Inst} (other : i.op.folds = false) (vs : List Value) : fold? i vs = none := by
  simp only [Op.folds, Bool.or_eq_false_iff, beq_eq_false_iff_ne] at other
  unfold fold?
  rcases vs with _ | ⟨a, _ | ⟨b, _ | ⟨c, _ | ⟨d, vs⟩⟩⟩⟩ <;> simp [other]

theorem fold?_eq_some_iff {i : Inst} (pure : i.op.folds = true) {vs : List Value} {v : Value}
    (globals : Array Value) :
    fold? i vs = some v ↔ compute globals i vs = .ok v ∧ v.ty = i.ty := by
  rw [fold?_eq_compute pure vs globals, Option.filter_eq_some_iff, beq_iff_eq]
  cases compute globals i vs <;> simp [Except.toOption]

/-- Folding an instruction on known operands gives what running it would compute. -/
theorem compute_of_fold? {i : Inst} {vs : List Value} {v : Value} (folded : fold? i vs = some v)
    (globals : Array Value) :
    compute globals i vs = .ok v ∧ i.op ≠ .call ∧ i.op ≠ .storeGlobal := by
  cases pure : i.op.folds with
  | false =>
    rw [fold?_eq_none pure] at folded
    cases folded
  | true =>
    exact ⟨((fold?_eq_some_iff pure globals).mp folded).1, Op.not_effect_of_folds pure⟩

namespace Frame

/-- What a frame is after a register has been given a value: the register holds it, and nothing else
is different. -/
structure Wrote (fr : Frame) (r : Reg) (v : Value) (after : Frame) : Prop where
  dest : after.get r = .ok v
  others : ∀ x, x ≠ r → after.get x = fr.get x
  function : after.function = fr.function
  block : after.block = fr.block
  stats : after.stats = fr.stats

variable {fr after : Frame} {r : Reg} {v : Value}

theorem wrote_put (sized : fr.Sized) (declared : fr.function.declares r = true) (v : Value) :
    fr.Wrote r v (fr.put r v) where
  dest := by rw [get_eq_ok, reg?_put sized declared, if_pos rfl]
  others x other := by
    have kept : (fr.put r v).reg? x = fr.reg? x := by
      rw [reg?_put sized declared, if_neg other]
    unfold reg? at kept
    simp only [get, kept]
    rfl
  function := rfl
  block := rfl
  stats := rfl

/-- Executing an instruction that folds succeeds when folding does, and writes what folding gives. -/
theorem exec_of_folds {κ ε : Type} {call : Call κ ε} {known : FuncId → Bool} {w w' : World κ}
    {i : Inst} {vs : List Value} (pure : i.op.folds = true) (reads : fr.Reads i.args vs)
    (declared : fr.function.regType? i.dest = some i.ty) :
    fr.exec call known w i = (.ok after, w') ↔
      w' = w ∧ ∃ v, fold? i vs = some v ∧ after = fr.put i.dest v := by
  obtain ⟨calls, stores⟩ := Op.not_effect_of_folds pure
  rw [exec_of_reads reads calls stores]
  simp only [fold?_eq_some_iff pure w.globals]
  cases computed : compute w.globals i vs with
  | error c => simp
  | ok v =>
    simp only [Prod.mk.injEq, mapError_eq_ok, set_eq_ok, declared, Option.some.injEq,
      Except.ok.injEq]
    constructor
    · rintro ⟨⟨same, rfl⟩, rfl⟩
      exact ⟨rfl, v, ⟨rfl, same.symm⟩, rfl⟩
    · rintro ⟨rfl, _, ⟨rfl, same⟩, rfl⟩
      exact ⟨⟨same.symm, rfl⟩, rfl⟩

end Frame

/-- An instruction that folds, in a frame whose registers hold its operands and declare its
destination with its type: it folds to a value exactly when executing it succeeds, and then executing
it gives the destination that value and changes nothing else, in the frame or outside. All other
instructions do not fold. -/
theorem folds_as_executed (i : Inst) (args : List Value) :
    (i.op.folds = true → ∀ (κ ε : Type) (call : Call κ ε) (known : FuncId → Bool) (fr : Frame)
      (w : World κ), fr.Sized → List.Forall₂ (fun r v => fr.get r = .ok v) i.args args →
      fr.function.regType? i.dest = some i.ty →
      (∀ v, fold? i args = some v ↔
        ∃ after, fr.exec call known w i = (.ok after, w) ∧ fr.Wrote i.dest v after) ∧
      ∀ after w', fr.exec call known w i = (.ok after, w') → ∃ v, fold? i args = some v) ∧
    (i.op.folds = false → fold? i args = none) := by
  refine ⟨fun pure κ ε call known fr w sized held declared => ?_, fun other => fold?_eq_none other args⟩
  have reads : fr.Reads i.args args := held.imp fun _ _ => Frame.get_eq_ok.mp
  have there : fr.function.declares i.dest = true :=
    Option.isSome_iff_exists.mpr ⟨i.ty, declared⟩
  refine ⟨fun v => ⟨fun folded => ?_, ?_⟩, fun after w' ran => ?_⟩
  · exact ⟨_, (Frame.exec_of_folds pure reads declared).mpr ⟨rfl, v, folded, rfl⟩,
      Frame.wrote_put sized there v⟩
  · rintro ⟨after, ran, wrote⟩
    obtain ⟨-, v', folded, rfl⟩ := (Frame.exec_of_folds pure reads declared).mp ran
    -- a register holds one value
    cases wrote.dest.symm.trans (Frame.wrote_put sized there v').dest
    exact folded
  · obtain ⟨-, v, folded, -⟩ := (Frame.exec_of_folds pure reads declared).mp ran
    exact ⟨v, folded⟩

/-- Divides one number of eight bits by another. -/
def quotient : Inst := { op := .div, dest := ⟨2⟩, ty := .i8, args := [⟨0⟩, ⟨1⟩] }

/-- A frame with the two numbers for `quotient`. -/
def dividing (a b : Int) : Frame := {
  function := { name := "dividing", regTypes := #[.i8, .i8, .i8] }
  regs := #[some (.ofInt .i8 a), some (.ofInt .i8 b), none] }

/-- Executes `quotient` where no call can be made and nothing is outside the frame. -/
def executed (a b : Int) : Except (Halt Unit) Frame × World Unit :=
  (dividing a b).exec (fun _ _ w => (.error .outOfFuel, w)) (fun _ => false) ⟨#[], [], ()⟩ quotient

/-- The least number divided by minus one wraps, and a division by zero has no value, when folded and
when executed. -/
theorem folds_as_executed_quotient :
    fold? quotient [.ofInt .i8 (-128), .ofInt .i8 (-1)] = some (.ofInt .i8 (-128)) ∧
    (∃ after, executed (-128) (-1) = (.ok after, ⟨#[], [], ()⟩) ∧
      after.get ⟨2⟩ = .ok (.ofInt .i8 (-128))) ∧
    fold? quotient [.ofInt .i8 (-128), .ofInt .i8 0] = none ∧
    ¬ ∃ after w, executed (-128) 0 = (.ok after, w) := by
  have wraps : fold? quotient [.ofInt .i8 (-128), .ofInt .i8 (-1)] = some (.ofInt .i8 (-128)) := by
    decide +kernel
  have fails : fold? quotient [.ofInt .i8 (-128), .ofInt .i8 0] = none := by decide +kernel
  have agree := fun b => (folds_as_executed quotient [.ofInt .i8 (-128), .ofInt .i8 b]).1 rfl Unit
    Unit (fun _ _ w => (.error .outOfFuel, w)) (fun _ => false) (dividing (-128) b) ⟨#[], [], ()⟩ rfl
    (.cons rfl (.cons rfl .nil)) rfl
  obtain ⟨after, ran, wrote⟩ := ((agree (-1)).1 _).mp wraps
  refine ⟨wraps, ⟨after, ran, wrote.dest⟩, fails, ?_⟩
  rintro ⟨after', w, ran'⟩
  obtain ⟨v, known⟩ := (agree 0).2 after' w ran'
  rw [fails] at known
  cases known

end TieredEngine.Eval
