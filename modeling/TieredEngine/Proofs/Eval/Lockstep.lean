import TieredEngine.Proofs.Eval.Entering

/-!
Two runs in lockstep. The functions they run have one header and the same blocks, up to the
functions and globals that single instructions name. Their frames are then the same frame, in one
function and in the other, and the runs agree on everything a frame holds, the counters included,
as long as each instruction does the same in both worlds.
-/
namespace TieredEngine.Eval
open TieredEngine.Ir

variable {κ ε : Type}

theorem getElem?_store (globals : Array Value) (g x : GlobalId) (v : Value) :
    (globals.setIfInBounds g.num v)[x.num]? =
      if g = x then (globals[g.num]?).map fun _ => v else globals[x.num]? := by
  rw [Array.getElem?_setIfInBounds]
  by_cases same : g = x
  · subst same
    by_cases bound : g.num < globals.size
    · simp [bound]
    · simp [bound]
  · have apart : ¬ g.num = x.num := fun equal => same (GlobalId.num_inj.mp equal)
    simp [same, apart]

namespace Frame

/-- The frame in another function. -/
def on (fr : Frame) (f : Function) : Frame := { fr with function := f }

@[simp] theorem function_on (fr : Frame) (f : Function) : (fr.on f).function = f := rfl

@[simp] theorem stats_on (fr : Frame) (f : Function) : (fr.on f).stats = fr.stats := rfl

theorem function_of_set {fr g : Frame} {r : Reg} {v : Value} (written : fr.set r v = .ok g) :
    g.function = fr.function := by
  obtain ⟨_, rfl⟩ := set_eq_ok.mp written
  rfl

section Header

variable {fr : Frame} {f' : Function} (header : SameHeader fr.function f')
include header

theorem fail_on (c : Cause) : (fr.on f').fail c = fr.fail c := by
  simp [fail, on, header.name]

theorem get_on (r : Reg) : (fr.on f').get r = fr.get r := by
  unfold get
  rw [fail_on header]
  rfl

theorem set_on (r : Reg) (v : Value) : (fr.on f').set r v = (fr.set r v).map (·.on f') := by
  have types : (fr.on f').function.regType? r = fr.function.regType? r := by
    simp [Function.regType?, header.regTypes]
  unfold set
  simp only [types, fail_on header]
  cases fr.function.regType? r with
  | none => rfl
  | some want =>
    by_cases fits : want = v.ty
    · simp only [fits, ne_eq, not_true, if_false]
      rfl
    · simp only [ne_eq, fits, not_false_eq_true, if_true]
      rfl

theorem operands_on (i : Inst) (n : Nat) : (fr.on f').operands i n = fr.operands i n := by
  unfold operands
  rw [fail_on header, funext (get_on header)]

omit header in
theorem setAll_on {fr : Frame} (header : SameHeader fr.function f') (xs : List (Reg × Value)) :
    (fr.on f').setAll xs = (fr.setAll xs).map (·.on f') := by
  induction xs generalizing fr with
  | nil => rfl
  | cons x xs ih =>
    obtain ⟨r, v⟩ := x
    simp only [setAll, set_on header]
    cases written : fr.set r v with
    | error e => rfl
    | ok g => exact ih (function_of_set written ▸ header)

theorem applyPhis_on (b : Block) (prev : Option BlockId) :
    (fr.on f').applyPhis b prev = (fr.applyPhis b prev).map (·.on f') := by
  unfold applyPhis
  split
  · rfl
  · unfold resolvePhis
    cases prev with
    | none =>
      simp only [fail_on header]
      rfl
    | some prev =>
      simp only [fail_on header, get_on header]
      generalize (b.phis.mapM _ : Except Error (List (Reg × Value))) = values
      cases values with
      | error e => rfl
      | ok xs => exact setAll_on header xs

theorem terminate_on (t : Term) : (fr.on f').terminate t = fr.terminate t := by
  have sig : (fr.on f').function.sig = fr.function.sig := header.sig
  unfold terminate
  simp only [fail_on header, get_on header, sig]
  rfl

theorem value_on (globals : Array Value) (i : Inst) :
    (fr.on f').value globals i = fr.value globals i := by
  unfold value
  simp only [fail_on header, operands_on header]
  have located : (fr.on f').located = fr.located := by
    funext x
    cases x with
    | ok v => rfl
    | error c => exact congrArg Except.error (fail_on header c)
  rw [located]

end Header

end Frame

/-- Instructions that do the same, up to the function and the global they name. -/
structure Renamed (i i' : Inst) : Prop where
  op : i'.op = i.op
  dest : i'.dest = i.dest
  ty : i'.ty = i.ty
  args : i'.args = i.args
  const : i'.const = i.const
  message : i'.message = i.message

theorem Renamed.refl (i : Inst) : Renamed i i := ⟨rfl, rfl, rfl, rfl, rfl, rfl⟩

theorem Renamed.operands {i i' : Inst} (renamed : Renamed i i') (fr : Frame) (n : Nat) :
    fr.operands i' n = fr.operands i n := by
  unfold Frame.operands
  rw [renamed.op, renamed.args]

/-- The value of an instruction other than a load does not depend on the global it names. -/
theorem Renamed.value {i i' : Inst} (renamed : Renamed i i') (load : i.op ≠ .loadGlobal) (fr : Frame)
    (globals globals' : Array Value) : fr.value globals' i' = fr.value globals i := by
  unfold Frame.value
  simp only [renamed.operands]
  rw [renamed.op, renamed.ty, renamed.args, renamed.const, renamed.message]
  split <;> first | contradiction | rfl

theorem bindParams_on {f' : Function} {fr : Frame} (header : SameHeader fr.function f')
    (entry : BlockId) (params : List Reg) (args : List Value) :
    bindParams entry (fr.on f') params args = (bindParams entry fr params args).map (·.on f') := by
  induction params generalizing fr args with
  | nil => rfl
  | cons r params ih =>
    cases args with
    | nil => rfl
    | cons a args =>
      simp only [bindParams, Frame.set_on header]
      cases written : fr.set r a with
      | error e => rfl
      | ok g => exact ih (Frame.function_of_set written ▸ header) args

namespace Link

variable (L : Link κ κ (Halt ε) (Halt ε))

/-- The link for failures that carry counters, which have to be the same. -/
def exactly : Link κ κ (Halt ε × Stats) (Halt ε × Stats) where
  worlds := L.worlds
  left e := L.left e.1
  right e := L.right e.1
  failures e e' := L.failures e.1 e'.1 ∧ e'.2 = e.2

/-- Two runs that end in step: in equal values or failures that belong together, with the same
counters. -/
def InStep (out out' : Frame.Finished κ ε) : Prop :=
  L.exactly.Matches (fun v v' => v' = v) out.outcome out'.outcome

variable {L} in
theorem inStep_iff {out out' : Frame.Finished κ ε} : L.InStep out out' ↔
    (∃ h, out.result = .error h ∧ L.left h) ∨ (∃ h, out'.result = .error h ∧ L.right h) ∨
      L.worlds out.world out'.world ∧ out'.stats = out.stats ∧
        ((∃ v, out.result = .ok v ∧ out'.result = .ok v) ∨
          ∃ h h', out.result = .error h ∧ out'.result = .error h' ∧ L.failures h h') := by
  obtain ⟨r, stats, w⟩ := out
  obtain ⟨r', stats', w'⟩ := out'
  unfold InStep Frame.Finished.outcome
  constructor
  · intro ends
    cases r <;> cases r' <;> cases ends <;> simp_all [exactly]
  · rintro (⟨h, rfl, free⟩ | ⟨h, rfl, free⟩ | ⟨worlds, rfl, ⟨v, rfl, rfl⟩ | ⟨h, h', rfl, rfl, failed⟩⟩)
    · exact .left free
    · exact .right free
    · exact .ok worlds rfl
    · exact .error worlds ⟨failed, rfl⟩

variable {L} in
/-- What a caller sees of two runs in step. -/
theorem InStep.result {out out' : Frame.Finished κ ε} (ends : L.InStep out out') :
    L.Matches (fun v v' => v' = v) (out.result, out.world) (out'.result, out'.world) := by
  obtain ⟨h, failed, free⟩ | ⟨h, failed, free⟩ |
    ⟨worlds, _, ⟨v, done, done'⟩ | ⟨h, h', failed, failed', alike⟩⟩ := inStep_iff.mp ends
  · rw [failed]
    exact .left free
  · rw [failed]
    exact .right free
  · rw [done, done']
    exact .ok worlds rfl
  · rw [failed, failed']
    exact .error worlds alike

/-- The link of worlds that differ in their globals only, which are related by `R`. -/
def byGlobals (κ : Type) (failures : Halt ε → Halt ε → Prop) (R : Array Value → Array Value → Prop) :
    Link κ κ (Halt ε) (Halt ε) where
  worlds w w' := w'.hostCalls = w.hostCalls ∧ w'.rest = w.rest ∧ R w.globals w'.globals
  left _ := False
  right _ := False
  failures

/-- Runs in step still are when callers get their own globals back, if what they get is related. -/
theorem InStep.settle {failures : Halt ε → Halt ε → Prop} {R S : Array Value → Array Value → Prop}
    {out out' : Frame.Finished κ ε} (ends : (byGlobals κ failures R).InStep out out')
    (setup setup' : Setup) (w w' : World κ)
    (related : ∀ a b, R a b →
      S (if setup.shared then a else w.globals) (if setup'.shared then b else w'.globals)) :
    (byGlobals κ failures S).InStep (setup.settle w out) (setup'.settle w' out') := by
  have settled : ∀ (setup : Setup) (w : World κ) (out : Frame.Finished κ ε), setup.settle w out =
      { out with world := { out.world with
        globals := if setup.shared then out.world.globals else w.globals } } := by
    intro setup w out
    unfold Setup.settle
    split <;> rfl
  rw [settled, settled]
  rw [inStep_iff] at ends ⊢
  refine ends.imp_right (.imp_right fun both => ⟨⟨both.1.1, both.1.2.1, ?_⟩, both.2⟩)
  exact related _ _ both.1.2.2

/-- One block of each run, after which both stop or both go on from the same frame. -/
inductive TurnsInStep (f f' : Function) : Frame.Turn κ ε → Frame.Turn κ ε → Prop where
  | left {h : Halt ε} {stats : Stats} {w : World κ} {turn : Frame.Turn κ ε} (free : L.left h) :
      TurnsInStep f f' (.stop ⟨.error h, stats, w⟩) turn
  | right {turn : Frame.Turn κ ε} {h : Halt ε} {stats : Stats} {w : World κ} (free : L.right h) :
      TurnsInStep f f' turn (.stop ⟨.error h, stats, w⟩)
  | stop {out out' : Frame.Finished κ ε} (ends : L.InStep out out') :
      TurnsInStep f f' (.stop out) (.stop out')
  | go {fr : Frame} {w w' : World κ} {next : BlockId} (worlds : L.worlds w w')
      (function : fr.function = f) : TurnsInStep f f' (.go fr w next) (.go (fr.on f') w' next)

/-- What an instruction of `f` does in the first world, another one does in the second. -/
def Executes (f f' : Function) (call call' : Call κ ε) (known known' : FuncId → Bool)
    (i i' : Inst) : Prop :=
  ∀ (fr : Frame) (w w' : World κ), fr.function = f → L.worlds w w' →
    L.Matches (fun g g' => g' = g.on f' ∧ g.function = f) (fr.exec call known w i)
      ((fr.on f').exec call' known' w' i')

/-- Blocks of the same number and shape whose instructions do the same, one by one. -/
structure Blocks (f f' : Function) (call call' : Call κ ε) (known known' : FuncId → Bool)
    (b b' : Block) : Prop where
  id : b'.id = b.id
  phis : b'.phis = b.phis
  term : b'.term = b.term
  insts : List.Forall₂ (L.Executes f f' call call' known known') b.insts b'.insts

end Link

section Lockstep

variable {L : Link κ κ (Halt ε) (Halt ε)} {f f' : Function} {call call' : Call κ ε}
  {known known' : FuncId → Bool} (reflexive : ∀ h, L.failures h h) (header : SameHeader f f')
include reflexive header

/-- A write of one value to one register, in both frames. -/
theorem Link.writes {fr : Frame} (function : fr.function = f) {w w' : World κ}
    (worlds : L.worlds w w') (r : Reg) (v : Value) :
    L.Matches (fun g g' => g' = g.on f' ∧ g.function = f) ((fr.set r v).mapError .fault, w)
      (((fr.on f').set r v).mapError .fault, w') := by
  subst function
  rw [Frame.set_on header]
  cases written : fr.set r v with
  | error e => exact .error worlds (reflexive _)
  | ok g => exact .ok worlds ⟨rfl, Frame.function_of_set written⟩

/-- An instruction executes in step with one that names another function or another global, when
the globals they load hold the same value, stores to the globals they store keep the worlds
together, and the functions they call end alike. -/
theorem Link.executes {i i' : Inst} (renamed : Renamed i i')
    (naming : i'.global = i.global ∨
      ∀ e e' : Error, e.Alike e' → L.failures (.fault e) (.fault e'))
    (loads : i.op = .loadGlobal → ∀ w w', L.worlds w w' →
      w'.globals[i'.global.num]? = w.globals[i.global.num]?)
    (stores : i.op = .storeGlobal → ∀ w w', L.worlds w w' →
      (w'.globals[i'.global.num]?).map (·.ty) = (w.globals[i.global.num]?).map (·.ty) ∧
      ∀ v, (w.globals[i.global.num]?).map (·.ty) = some v.ty →
        L.worlds { w with globals := w.globals.setIfInBounds i.global.num v }
          { w' with globals := w'.globals.setIfInBounds i'.global.num v })
    (calls : i.op = .call → known i.callee = true ∧ known' i'.callee = true ∧
      ∀ args w w', L.worlds w w' →
        L.Matches (fun v v' => v' = v) (call i.callee args w) (call' i'.callee args w')) :
    L.Executes f f' call call' known known' i i' := by
  rintro fr w w' rfl worlds
  -- causes that name the global are the same, or it is enough that they are of one kind
  have fails : ∀ cause : GlobalId → Cause, (∀ g g', (cause g).kind = (cause g').kind) →
      L.failures (.fault (fr.fail (cause i.global))) (.fault (fr.fail (cause i'.global))) := by
    intro cause kind
    rcases naming with same | alike
    · rw [same]
      exact reflexive _
    · exact alike _ _ ⟨rfl, kind _ _⟩
  unfold Frame.exec
  rw [renamed.op, renamed.dest]
  cases op : i.op with
  | call =>
    obtain ⟨known, known', called⟩ := calls op
    simp only [Frame.callOut, known, known', renamed.args, renamed.dest, funext (Frame.get_on header),
      Bool.not_true, Bool.false_eq_true, if_false]
    cases i.args.mapM fr.get with
    | error e => exact .error worlds (reflexive _)
    | ok args =>
      have called := called args w w' worlds
      dsimp only
      revert called
      generalize call i.callee args w = out
      generalize call' i'.callee args w' = out'
      intro called
      cases called with
      | left free => exact .left free
      | right free => exact .right free
      | error worlds failures => exact .error worlds failures
      | ok worlds same =>
        subst same
        by_cases unwanted : i.dest = .absent
        · simp only [unwanted, if_true]
          exact .ok worlds ⟨rfl, rfl⟩
        · simp only [unwanted, if_false]
          exact Link.writes reflexive header rfl worlds _ _
  | storeGlobal =>
    obtain ⟨types, kept⟩ := stores op w w' worlds
    simp only [Frame.operands_on header, renamed.operands, Frame.fail_on header]
    cases fr.operands i 1 with
    | error e => exact .error worlds (reflexive _)
    | ok args =>
      simp only [storeGlobal]
      cases old : w.globals[i.global.num]? with
      | none =>
        rw [old, Option.map_none, Option.map_eq_none_iff] at types
        simp only [types]
        exact .error worlds (fails .storeUnknownGlobal fun _ _ => rfl)
      | some x =>
        rw [old, Option.map_some, Option.map_eq_some_iff] at types
        obtain ⟨x', found, same⟩ := types
        simp only [found, same]
        by_cases fits : x.ty = (args.headD .void).ty
        · simp only [fits, ne_eq, not_true, if_false]
          exact .ok (kept _ (by rw [old, Option.map_some, fits])) ⟨rfl, rfl⟩
        · simp only [ne_eq, fits, not_false_eq_true, if_true]
          exact .error worlds (fails (.globalType · _ _) fun _ _ => rfl)
  | loadGlobal =>
    have same := loads op w w' worlds
    simp only [Frame.value_on header]
    simp only [Frame.value, op, renamed.op, same]
    cases w.globals[i.global.num]? with
    | none => exact .error worlds (fails .loadUnknownGlobal fun _ _ => rfl)
    | some v => exact Link.writes reflexive header rfl worlds _ _
  | _ =>
    simp only [Frame.value_on header, renamed.value (by simp [op]) fr w.globals w'.globals]
    cases fr.value w.globals i with
    | error e => exact .error worlds (reflexive _)
    | ok v => exact Link.writes reflexive header rfl worlds _ _

omit reflexive header in
theorem Link.executesAll {is is' : List Inst}
    (each : List.Forall₂ (L.Executes f f' call call' known known') is is') {fr : Frame}
    (function : fr.function = f) {w w' : World κ} (worlds : L.worlds w w') :
    L.exactly.Matches (fun g g' => g' = g.on f' ∧ g.function = f)
      (Frame.execAll call known is fr w) (Frame.execAll call' known' is' (fr.on f') w') := by
  induction each generalizing fr w w' with
  | nil => exact .ok worlds ⟨rfl, function⟩
  | @cons i i' is is' head _ ih =>
    have ran := head fr w w' function worlds
    simp only [Frame.execAll]
    revert ran
    generalize fr.exec call known w i = out
    generalize (fr.on f').exec call' known' w' i' = out'
    intro ran
    cases ran with
    | left free => exact .left free
    | right free => exact .right free
    | error worlds failures => exact .error worlds ⟨failures, rfl⟩
    | @ok g _ _ _ worlds related =>
      obtain ⟨rfl, function⟩ := related
      exact @ih { g with stats := { fr.stats with insts := fr.stats.insts + 1 } } function _ _ worlds

theorem Link.turn_inStep
    (missing : ∀ id, f.block? id = none → f'.block? id = none)
    (blocks : ∀ id b, f.block? id = some b → ∃ b', f'.block? id = some b' ∧
      L.Blocks f f' call call' known known' b b')
    {fr : Frame} (function : fr.function = f) (prev : Option BlockId) (cur : BlockId)
    {w w' : World κ} (worlds : L.worlds w w') :
    L.TurnsInStep f f' (Frame.turn call known fr w prev cur)
      (Frame.turn call' known' (fr.on f') w' prev cur) := by
  subst function
  unfold Frame.turn
  simp only [Frame.fail_on header, Frame.function_on]
  cases found : fr.function.block? cur with
  | none =>
    simp only [missing cur found]
    exact .stop (.error worlds ⟨reflexive _, rfl⟩)
  | some b =>
    obtain ⟨b', found', shape⟩ := blocks cur b found
    simp only [found', Frame.runBlock]
    have phis : ((fr.on f').arrive cur).applyPhis b' prev =
        ((fr.arrive cur).applyPhis b prev).map (·.on f') := by
      have same : ((fr.on f').arrive cur).applyPhis b' prev =
          ((fr.arrive cur).on f').applyPhis b prev := by
        unfold Frame.applyPhis Frame.resolvePhis
        rw [shape.phis, shape.id]
        rfl
      rw [same]
      exact @Frame.applyPhis_on (fr.arrive cur) f' header b prev
    rw [phis]
    cases applied : (fr.arrive cur).applyPhis b prev with
    | error e => exact .stop (.error worlds ⟨reflexive _, rfl⟩)
    | ok g =>
      have kept : g.function = fr.function := by
        have held : (fr.arrive cur).Holds (fun _ => True) fr.function := ⟨rfl, fun _ _ _ => trivial⟩
        exact (held.applyPhis applied).function
      have ran := Link.executesAll shape.insts kept worlds
      simp only [Except.map]
      revert ran
      generalize Frame.execAll call known b.insts g w = out
      generalize Frame.execAll call' known' b'.insts (g.on f') w' = out'
      intro ran
      cases ran with
      | left free => exact .left free
      | right free => exact .right free
      | error worlds failures => exact .stop (.error worlds failures)
      | @ok h _ _ _ worlds related =>
        obtain ⟨rfl, function⟩ := related
        simp only [shape.term, @Frame.terminate_on h f' (function ▸ header)]
        cases h.terminate b.term with
        | error e => exact .stop (.error worlds ⟨reflexive _, rfl⟩)
        | ok next =>
          cases next with
          | goto next => exact .go worlds function
          | done v => exact .stop (.ok worlds rfl)

/-- Runs of the two functions from one frame stay in step. -/
theorem Link.run_inStep
    (missing : ∀ id, f.block? id = none → f'.block? id = none)
    (blocks : ∀ id b, f.block? id = some b → ∃ b', f'.block? id = some b' ∧
      L.Blocks f f' call call' known known' b b')
    (fuel : Nat) {fr : Frame} (function : fr.function = f) (prev : Option BlockId) (cur : BlockId)
    {w w' : World κ} (worlds : L.worlds w w') :
    L.InStep (Frame.run call known fuel fr w prev cur)
      (Frame.run call' known' fuel (fr.on f') w' prev cur) := by
  induction fuel generalizing fr prev cur w w' with
  | zero => exact .error worlds ⟨reflexive _, rfl⟩
  | succ fuel ih =>
    have turned := Link.turn_inStep reflexive header missing blocks function prev cur worlds
    simp only [Frame.run]
    revert turned
    generalize Frame.turn call known fr w prev cur = t
    generalize Frame.turn call' known' (fr.on f') w' prev cur = t'
    intro turned
    cases turned with
    | left free => exact .left free
    | right free => exact .right free
    | stop ends => exact ends
    | go worlds function => exact ih function _ _ worlds

/-- The two functions are entered in step: before the first block only the headers count, and the
host is called with the same arguments after the same calls. -/
theorem Link.enter_inStep {setup setup' : Setup} (hosts : setup'.hosts = setup.hosts)
    (limit : setup'.maxDepth = setup.maxDepth) {m m' : Module} {id id' : FuncId}
    (found : m.function? id = some f) (found' : m'.function? id' = some f')
    (entry : f'.entry = f.entry) {w w' : World κ} (worlds : L.worlds w w')
    (past : w'.hostCalls = w.hostCalls)
    (hosted : ∀ made, L.worlds { w with hostCalls := made :: w.hostCalls }
      { w' with hostCalls := made :: w.hostCalls })
    {globals globals' : Array Value}
    (origin : (if setup.shared then .ok w.globals else initialGlobals m) = .ok globals)
    (origin' : (if setup'.shared then .ok w'.globals else initialGlobals m') = .ok globals')
    {args : List Value} {fuel depth : Nat}
    (ran : f.isExternal = false → ∀ fr, bindParams f.entry (.fresh f) f.params args = .ok fr →
      L.InStep
        (setup.settle w (Frame.run call (fun x => x.num < m.functions.size) fuel fr
          { w with globals } none f.entry))
        (setup'.settle w' (Frame.run call' (fun x => x.num < m'.functions.size) fuel (fr.on f')
          { w' with globals := globals' } none f.entry))) :
    L.InStep (enter setup m call fuel depth id args w)
      (enter setup' m' call' fuel depth id' args w') := by
  have fails : ∀ h, L.InStep ⟨.error h, {}, w⟩ ⟨.error h, {}, w'⟩ := fun h =>
    .error worlds ⟨reflexive h, rfl⟩
  simp only [enter, found, found', header.name, header.sig, header.external, entry, limit]
  split
  · exact fails _
  · split
    · exact fails _
    · split
      · unfold callHost
        rw [header.name, hosts]
        cases setup.hosts f.name with
        | none => exact fails _
        | some run =>
          simp only [past]
          cases run w.hostCalls args with
          | error reason => exact .error (hosted _) ⟨reflexive _, rfl⟩
          | ok v =>
            simp only [header.sig]
            by_cases fits : v.ty = f.sig.ret
            · simp only [fits, ne_eq, not_true, if_false]
              exact .ok (hosted _) rfl
            · simp only [ne_eq, fits, not_false_eq_true, if_true]
              exact .error (hosted _) ⟨reflexive _, rfl⟩
      · next _ _ internal =>
        split
        · exact fails _
        · simp only [origin, origin', header.params, header.regTypes]
          have bound' := @bindParams_on f' (.fresh f) header f.entry f.params args
          cases bound : bindParams f.entry (.fresh f) f.params args with
          | error fault =>
            rw [bound] at bound'
            unfold Frame.fresh at bound
            simp only [Frame.on, Frame.fresh] at bound'
            simp only [bound, bound', Except.map]
            cases fault <;> exact fails _
          | ok fr =>
            rw [bound] at bound'
            have ended := ran (by simpa using internal) fr bound
            unfold Frame.fresh at bound
            simp only [Frame.on, Frame.fresh] at bound'
            simp only [bound, bound', Except.map]
            exact ended

end Lockstep

end TieredEngine.Eval
