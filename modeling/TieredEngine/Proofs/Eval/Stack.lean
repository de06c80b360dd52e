import Mathlib.Logic.Relation
import TieredEngine.Proofs.Eval.Definite
import TieredEngine.Proofs.Eval.Entering

/-!
Runs moment by moment. A moment of a run has a stack of frames: one that runs, at some point of its
function, and those below that wait for the calls they made. One step enters a block, writes a phi,
runs an instruction, takes a terminator, enters a callee, or hands its result to the frame that waits
for it. What the evaluator gives for a call, if it has fuel enough, is what these steps lead to.
-/
namespace TieredEngine.Eval
open TieredEngine.Ir

variable {κ ε : Type}

/-- An evaluator at work on a module. -/
structure Interpreter (κ ε : Type) where
  setup : Setup
  module : Module
  /-- Calls that are under way outside when a run starts. -/
  depth : Nat := 0
  /-- Makes the calls of a run, which otherwise makes them itself. -/
  dispatch : Option (Call κ ε) := none

/-- What the evaluator gives for a call. -/
def Interpreter.run (it : Interpreter κ ε) (fuel : Nat) (id : FuncId) (args : List Value)
    (w : World κ) : Frame.Finished κ ε :=
  match it.dispatch with
  | none => runAt it.setup it.module fuel it.depth id args w
  | some call => enter it.setup it.module call fuel it.depth id args w

/-- Where a frame is in its function. -/
inductive Point where
  /-- About to enter the block `cur`, from `prev`. -/
  | entry (prev : Option BlockId) (cur : BlockId)
  /-- In a block whose phis have been read, some of which are still to be written. -/
  | phis (pending : List (Reg × Value)) (b : Block)
  /-- Before the instructions that are left of a block, and its terminator. -/
  | insts (rest : List Inst) (term : Term)

/-- A frame that waits for the result of the call it made. -/
structure Waiting where
  frame : Frame
  /-- The globals it worked on when it made the call. -/
  globals : Array Value
  call : Inst
  rest : List Inst
  term : Term

/-- A moment of a run; the frames that wait are listed from the innermost out. -/
inductive Moment (κ ε : Type) where
  | running (fr : Frame) (point : Point) (below : List Waiting) (w : World κ)
  /-- A call has ended, and whoever waits for it has not yet gone on. -/
  | ended (out : Frame.Finished κ ε) (below : List Waiting)

/-- The frames of the calls of functions with a body that are under way. -/
def Moment.frames : Moment κ ε → List Frame
  | running fr _ below _ => fr :: below.map (·.frame)
  | ended _ below => below.map (·.frame)

namespace Frame

/-- Inputs of the phis of a block. -/
def phiInputs (fr : Frame) (b : Block) (prev : Option BlockId) :
    Except Error (List (Reg × Value)) :=
  if b.phis.isEmpty then .ok []
  else match prev with
  | none => .error (fr.fail (.phiWithoutPredecessor b.id))
  | some prev => b.phis.mapM fun p =>
    match p.valueFor? prev with
    | none => .error (fr.fail (.phiWithoutInput p.dest prev))
    | some r => do return (p.dest, ← fr.get r)

theorem applyPhis_eq (fr : Frame) (b : Block) (prev : Option BlockId) :
    fr.applyPhis b prev = fr.phiInputs b prev >>= fr.setAll := by
  unfold applyPhis phiInputs
  split
  · rfl
  · unfold resolvePhis
    cases prev <;> rfl

/-- What is written together is in the registers then; others keep what they have. -/
theorem reg?_setAll {xs : List (Reg × Value)} {fr g : Frame} (written : fr.setAll xs = .ok g)
    (sized : fr.Sized) (distinct : (xs.map (·.1)).Nodup) :
    (∀ x ∈ xs, g.reg? x.1 = some x.2) ∧ ∀ r ∉ xs.map (·.1), g.reg? r = fr.reg? r := by
  induction xs generalizing fr with
  | nil =>
    cases written
    exact ⟨nofun, fun _ _ => rfl⟩
  | cons x xs ih =>
    obtain ⟨r, v⟩ := x
    obtain ⟨h, set, written⟩ := bind_eq_ok.mp written
    obtain ⟨type, rfl⟩ := set_eq_ok.mp set
    rw [List.map_cons, List.nodup_cons] at distinct
    have declared : fr.function.declares r = true := by rw [Function.declares, type]; rfl
    obtain ⟨each, others⟩ := ih written (sized_put sized r v) distinct.2
    have put := reg?_put sized declared v
    refine ⟨fun y member => ?_, fun q missing => ?_⟩
    · rcases List.mem_cons.mp member with rfl | member
      · rw [others r distinct.1, put, if_pos rfl]
      · exact each y member
    · rw [List.map_cons, List.mem_cons, not_or] at missing
      rw [others q missing.2, put, if_neg missing.1]

/-- What the phis of a block read, when it is entered from another one. -/
theorem phiInputs_ok {fr : Frame} {b : Block} {prev : BlockId} {xs : List (Reg × Value)}
    (read : fr.phiInputs b (some prev) = .ok xs) : List.Forall₂ (fun p x => x.1 = p.dest ∧
      ∃ r, p.valueFor? prev = some r ∧ fr.reg? r = some x.2) b.phis xs := by
  unfold phiInputs at read
  split at read
  · next none =>
    cases read
    rw [List.isEmpty_iff.mp none]
    exact .nil
  · refine (mapM_eq_ok.mp read).imp fun p x step => ?_
    cases value : p.valueFor? prev with
    | none =>
      rw [value] at step
      cases step
    | some r =>
      rw [value] at step
      obtain ⟨v, got, same⟩ := bind_eq_ok.mp step
      cases same
      exact ⟨rfl, r, rfl, get_eq_ok.mp got⟩

/-- One more instruction is finished than were when `before` was the frame. -/
def counted (fr before : Frame) : Frame :=
  { fr with stats := { before.stats with insts := before.stats.insts + 1 } }

theorem block_of_set {fr g : Frame} {r : Reg} {v : Value} (written : fr.set r v = .ok g) :
    g.block = fr.block := by
  obtain ⟨_, rfl⟩ := set_eq_ok.mp written
  rfl

theorem stats_of_set {fr g : Frame} {r : Reg} {v : Value} (written : fr.set r v = .ok g) :
    g.stats = fr.stats := by
  obtain ⟨_, rfl⟩ := set_eq_ok.mp written
  rfl

theorem block_of_setAll {xs : List (Reg × Value)} {fr g : Frame} (written : fr.setAll xs = .ok g) :
    g.block = fr.block := by
  induction xs generalizing fr with
  | nil =>
    cases written
    rfl
  | cons x xs ih =>
    obtain ⟨h, first, rest⟩ := bind_eq_ok.mp written
    exact (ih rest).trans (block_of_set first)

theorem block_of_execAll {call : Call κ ε} {known : FuncId → Bool} {is : List Inst} {fr g : Frame}
    {w w' : World κ} (ran : execAll call known is fr w = (.ok g, w')) : g.block = fr.block := by
  induction is generalizing fr w with
  | nil =>
    cases ran
    rfl
  | cons i is ih =>
    unfold execAll at ran
    split at ran
    · cases ran
    · next h w₁ first =>
      refine (ih ran).trans ?_
      rcases exec_ok first with ⟨-, rfl⟩ | ⟨v, -, written⟩
      · rfl
      · have same := block_of_set written
        exact same

end Frame

/-- There is nothing to give back where the globals are still the caller's. -/
theorem Setup.settle_of_globals {setup : Setup} {w : World κ} {out : Frame.Finished κ ε}
    (same : out.world.globals = w.globals) : setup.settle w out = out := by
  unfold settle
  rw [← same]
  split <;> rfl

theorem Setup.world_settle (setup : Setup) (w : World κ) (out : Frame.Finished κ ε) :
    (setup.settle w out).world =
      if setup.shared then out.world else { out.world with globals := w.globals } := by
  unfold settle
  split <;> rfl

namespace Interpreter

variable (it : Interpreter κ ε)

/-- The functions that can be called. -/
def known (id : FuncId) : Bool := id.num < it.module.functions.size

/-- A function is entered over the frames that wait for it. -/
def enter (id : FuncId) (args : List Value) (below : List Waiting) (w : World κ) : Moment κ ε :=
  match it.module.function? id with
  | none => .ended ⟨.error (.fault ⟨"", ⟨0⟩, .noFunction id⟩), {}, w⟩ below
  | some f =>
    let fail (c : Cause) : Moment κ ε := .ended ⟨.error (.fault ⟨f.name, f.entry, c⟩), {}, w⟩ below
    if args.length ≠ f.sig.params.length then
      fail (.argumentCount args.length f.sig.params.length)
    else match firstMismatch 0 args f.sig.params with
    | some (i, got, want) => fail (.argumentType i got want)
    | none =>
      if f.isExternal then
        let (r, w) := callHost it.setup.hosts f args w
        .ended ⟨r, {}, w⟩ below
      else if it.setup.maxDepth ≤ (it.depth + below.length : Nat) then
        fail (.depthExceeded it.setup.maxDepth)
      else
        match if it.setup.shared then .ok w.globals else initialGlobals it.module with
        | .error c => .ended ⟨.error (.crash c), {}, w⟩ below
        | .ok globals =>
          match bindParams f.entry (.fresh f) f.params args with
          | .error (.error e) => .ended ⟨.error (.fault e), {}, w⟩ below
          | .error (.crash c) => .ended ⟨.error (.crash c), {}, w⟩ below
          | .ok fr => .running fr (.entry none f.entry) below { w with globals }

/-- What comes of entering a function: it is refused, the host answers for it, or its body starts in
a frame with the arguments bound. -/
inductive Admission (id : FuncId) (args : List Value) (below : List Waiting) (w : World κ) :
    Moment κ ε → Prop where
  | refused (h : Halt ε) : Admission id args below w (.ended ⟨.error h, {}, w⟩ below)
  | hosted (f : Function) (found : it.module.function? id = some f)
      (external : f.isExternal = true) :
      Admission id args below w (.ended ⟨(callHost (ε := ε) it.setup.hosts f args w).1, {},
        (callHost (ε := ε) it.setup.hosts f args w).2⟩ below)
  | admitted (f : Function) (found : it.module.function? id = some f)
      (internal : f.isExternal = false) (matching : firstMismatch 0 args f.sig.params = none)
      (shallow : (it.depth + below.length : Nat) < it.setup.maxDepth) (globals : Array Value)
      (origin : (if it.setup.shared then .ok w.globals else initialGlobals it.module) = .ok globals)
      (fr : Frame) (bound : bindParams f.entry (.fresh f) f.params args = .ok fr) :
      Admission id args below w (.running fr (.entry none f.entry) below { w with globals })

theorem admission (id : FuncId) (args : List Value) (below : List Waiting) (w : World κ) :
    it.Admission id args below w (it.enter id args below w) := by
  unfold enter
  split
  · exact .refused _
  · next f found =>
    dsimp only
    split
    · exact .refused _
    · split
      · exact .refused _
      · next matching =>
        split
        · next external => exact .hosted f found external
        · next internal =>
          split
          · exact .refused _
          · next shallow =>
            split
            · exact .refused _
            · next globals origin =>
              split
              · exact .refused _
              · exact .refused _
              · next fr bound =>
                exact .admitted f found (by simpa using internal) matching (by omega) globals
                  origin fr bound

/-- What the evaluator makes of a moment at the door: the result, or that of the body. -/
def answer (call : Call κ ε) (fuel : Nat) (w : World κ) : Moment κ ε → Frame.Finished κ ε
  | .ended out _ => out
  | .running fr (.entry prev cur) _ w' =>
    it.setup.settle w (Frame.run call it.known fuel fr w' prev cur)
  | .running fr _ _ w' => ⟨.error .outOfFuel, fr.stats, w'⟩

theorem enter_eq_answer (call : Call κ ε) (fuel : Nat) (id : FuncId) (args : List Value)
    (below : List Waiting) (w : World κ) :
    Eval.enter it.setup it.module call fuel (it.depth + below.length) id args w =
      it.answer call fuel w (it.enter id args below w) := by
  unfold Eval.enter enter
  cases it.module.function? id with
  | none => rfl
  | some f =>
    dsimp only
    by_cases count : args.length = f.sig.params.length
    case neg => simp only [ne_eq, count, not_false_eq_true, if_true, answer]
    simp only [count, ne_eq, not_true, if_false]
    cases firstMismatch 0 args f.sig.params with
    | some x => rfl
    | none =>
      dsimp only
      by_cases external : f.isExternal = true
      · simp only [external, if_true, answer]
      · by_cases deep : it.setup.maxDepth ≤ (it.depth + below.length : Nat)
        · simp only [external, deep, if_true, if_false, Bool.false_eq_true, answer]
        · simp only [external, deep, if_false, Bool.false_eq_true]
          cases (if it.setup.shared then .ok w.globals else initialGlobals it.module :
            Except Crash (Array Value)) with
          | error c => rfl
          | ok globals =>
            show (match bindParams f.entry (.fresh f) f.params args with
              | .error (.error e) => _
              | .error (.crash c) => _
              | .ok fr => _ : Frame.Finished κ ε) = _
            cases bindParams f.entry (.fresh f) f.params args with
            | ok fr => rfl
            | error e => cases e <;> rfl

/-- A frame goes on behind an instruction that gave it a new frame, or fails with it. -/
def proceed (before : Frame) (rest : List Inst) (term : Term) (below : List Waiting) :
    Except (Halt ε) Frame × World κ → Moment κ ε
  | (.error h, w) => .ended ⟨.error h, before.stats, w⟩ below
  | (.ok fr, w) => .running (fr.counted before) (.insts rest term) below w

/-- For instructions that make no call. -/
def noCall : Call κ ε := fun _ _ w => (.error .outOfFuel, w)

/-- The next instruction of a frame. -/
def execute (fr : Frame) (i : Inst) (rest : List Inst) (term : Term) (below : List Waiting)
    (w : World κ) : Moment κ ε :=
  match it.dispatch with
  | some call => proceed fr rest term below (fr.exec call it.known w i)
  | none =>
    if i.op ≠ .call then proceed fr rest term below (fr.exec noCall it.known w i)
    else if !it.known i.callee then
      .ended ⟨.error (.fault (fr.fail (.unknownCallee i.callee))), fr.stats, w⟩ below
    else match i.args.mapM fr.get with
    | .error e => .ended ⟨.error (.fault e), fr.stats, w⟩ below
    | .ok args => it.enter i.callee args (⟨fr, w.globals, i, rest, term⟩ :: below) w

/-- The next step of the frame that runs. -/
def advance (fr : Frame) (below : List Waiting) (w : World κ) : Point → Moment κ ε
  | .entry prev cur =>
    match fr.function.block? cur with
    | none => .ended ⟨.error (.fault (fr.fail (.missingBlock cur))), fr.stats, w⟩ below
    | some b =>
      match (fr.arrive cur).phiInputs b prev with
      | .error e => .ended ⟨.error (.fault e), (fr.arrive cur).stats, w⟩ below
      | .ok pending => .running (fr.arrive cur) (.phis pending b) below w
  | .phis [] b => .running fr (.insts b.insts b.term) below w
  | .phis ((r, v) :: pending) b =>
    match fr.set r v with
    | .error e => .ended ⟨.error (.fault e), fr.stats, w⟩ below
    | .ok fr => .running fr (.phis pending b) below w
  | .insts (i :: rest) term => it.execute fr i rest term below w
  | .insts [] term =>
    match fr.terminate term with
    | .error e => .ended ⟨.error (.fault e), fr.stats, w⟩ below
    | .ok (.done v) => .ended ⟨.ok v, fr.stats, w⟩ below
    | .ok (.goto next) => .running fr (.entry (some fr.block) next) below w

/-- What can come next for the frame that runs, by the point that it is at. -/
inductive Advance (fr : Frame) (below : List Waiting) (w : World κ) :
    Point → Moment κ ε → Prop where
  | fails (point : Point) (h : Halt ε) (stats : Stats) :
      Advance fr below w point (.ended ⟨.error h, stats, w⟩ below)
  | enters {prev : Option BlockId} {cur : BlockId} {b : Block} {pending : List (Reg × Value)}
      (found : fr.function.block? cur = some b)
      (read : (fr.arrive cur).phiInputs b prev = .ok pending) :
      Advance fr below w (.entry prev cur) (.running (fr.arrive cur) (.phis pending b) below w)
  | writes {r : Reg} {v : Value} {pending : List (Reg × Value)} {b : Block} {g : Frame}
      (written : fr.set r v = .ok g) :
      Advance fr below w (.phis ((r, v) :: pending) b) (.running g (.phis pending b) below w)
  | begins (b : Block) :
      Advance fr below w (.phis [] b) (.running fr (.insts b.insts b.term) below w)
  /-- Runs an instruction; calls are made by what makes them for all runs, or this is none. -/
  | runs {i : Inst} {rest : List Inst} {term : Term} (call : Call κ ε)
      (means : it.dispatch = some call ∨ call = noCall) :
      Advance fr below w (.insts (i :: rest) term)
        (proceed fr rest term below (fr.exec call it.known w i))
  | calls {i : Inst} {rest : List Inst} {term : Term} {args : List Value}
      (read : i.args.mapM fr.get = .ok args) :
      Advance fr below w (.insts (i :: rest) term)
        (it.enter i.callee args (⟨fr, w.globals, i, rest, term⟩ :: below) w)
  | returns {term : Term} {v : Value} (ended : fr.terminate term = .ok (.done v)) :
      Advance fr below w (.insts [] term) (.ended ⟨.ok v, fr.stats, w⟩ below)
  | jumps {term : Term} {next : BlockId} (taken : fr.terminate term = .ok (.goto next)) :
      Advance fr below w (.insts [] term) (.running fr (.entry (some fr.block) next) below w)

theorem advance_of_execute (fr : Frame) (i : Inst) (rest : List Inst) (term : Term)
    (below : List Waiting) (w : World κ) :
    it.Advance fr below w (.insts (i :: rest) term) (it.execute fr i rest term below w) := by
  unfold execute
  split
  · next call dispatch => exact .runs call (.inl dispatch)
  · split
    · exact .runs noCall (.inr rfl)
    · split
      · exact .fails ..
      · split
        · exact .fails ..
        · next args read => exact .calls read

theorem advance_cases (fr : Frame) (below : List Waiting) (w : World κ) (point : Point) :
    it.Advance fr below w point (it.advance fr below w point) := by
  cases point with
  | entry prev cur =>
    simp only [advance]
    split
    · exact .fails ..
    · next b found =>
      split
      · exact .fails ..
      · next pending read => exact .enters found read
  | phis pending b =>
    cases pending with
    | nil => exact .begins b
    | cons x pending =>
      simp only [advance]
      split
      · exact .fails ..
      · next g written => exact .writes written
  | insts rest term =>
    cases rest with
    | cons i rest => exact it.advance_of_execute fr i rest term below w
    | nil =>
      simp only [advance]
      split
      · exact .fails ..
      · next v ended => exact .returns ended
      · next next taken => exact .jumps taken

/-- A frame that waited takes the result of its call, and its own globals unless they are shared. -/
def resume (s : Waiting) (out : Frame.Finished κ ε) (below : List Waiting) : Moment κ ε :=
  let w := if it.setup.shared then out.world else { out.world with globals := s.globals }
  proceed s.frame s.rest s.term below
    (match out.result with
      | .error h => .error h
      | .ok v =>
        if s.call.dest = .absent then .ok s.frame else (s.frame.set s.call.dest v).mapError .fault,
      w)

/-- One step; a run that has ended makes none. -/
def step : Moment κ ε → Option (Moment κ ε)
  | .running fr point below w => some (it.advance fr below w point)
  | .ended _ [] => none
  | .ended out (s :: below) => some (it.resume s out below)

/-- A moment comes after another in a run, or is the same. -/
def Reaches : Moment κ ε → Moment κ ε → Prop :=
  Relation.ReflTransGen fun s t => it.step s = some t

variable {it}

theorem Reaches.refl {s : Moment κ ε} : it.Reaches s s := Relation.ReflTransGen.refl

theorem Reaches.trans {s t u : Moment κ ε} (first : it.Reaches s t) (rest : it.Reaches t u) :
    it.Reaches s u := Relation.ReflTransGen.trans first rest

theorem Reaches.of_step {s t u : Moment κ ε} (first : it.step s = some t) (rest : it.Reaches t u) :
    it.Reaches s u := Relation.ReflTransGen.head first rest

/-- Steps that the frame on top makes by itself. -/
theorem Reaches.of_advance {fr : Frame} {point : Point} {below : List Waiting} {w : World κ}
    {s t : Moment κ ε} (first : it.advance fr below w point = s) (rest : it.Reaches s t) :
    it.Reaches (.running fr point below w) t := .of_step (congrArg some first) rest

/-- Phis are written one after the other. -/
theorem reaches_setAll (it : Interpreter κ ε) (xs : List (Reg × Value)) (fr : Frame) (b : Block)
    (below : List Waiting) (w : World κ) :
    match fr.setAll xs with
    | .error e => it.Reaches (.running fr (.phis xs b) below w)
        (.ended ⟨.error (.fault e), fr.stats, w⟩ below)
    | .ok g => it.Reaches (.running fr (.phis xs b) below w) (.running g (.phis [] b) below w) := by
  induction xs generalizing fr with
  | nil => exact .refl
  | cons x xs ih =>
    obtain ⟨r, v⟩ := x
    unfold Frame.setAll
    cases written : fr.set r v with
    | error e =>
      refine .of_advance ?_ .refl
      simp only [advance, written]
    | ok h =>
      have first : it.advance fr below w (.phis ((r, v) :: xs) b) =
          .running h (.phis xs b) below w := by
        simp only [advance, written]
      have rest := ih h
      rw [Frame.stats_of_set written] at rest
      simp only [bind, Except.bind]
      split at rest
      · exact .of_advance first rest
      · exact .of_advance first rest

/-- How the instructions of frames over `below` are run, if calls are made by `call`. -/
def Executes (it : Interpreter κ ε) (call : Call κ ε) (below : List Waiting) : Prop :=
  ∀ fr i rest term w, (fr.exec call it.known w i).1 ≠ .error .outOfFuel →
    it.Reaches (.running fr (.insts (i :: rest) term) below w)
      (proceed fr rest term below (fr.exec call it.known w i))

section Body

variable {call : Call κ ε} {below : List Waiting} (executes : it.Executes call below)
include executes

theorem reaches_execAll (is : List Inst) (term : Term) (fr : Frame) (w : World κ) :
    match Frame.execAll call it.known is fr w with
    | (.error (h, stats), w') => h ≠ .outOfFuel →
        it.Reaches (.running fr (.insts is term) below w) (.ended ⟨.error h, stats, w'⟩ below)
    | (.ok g, w') =>
        it.Reaches (.running fr (.insts is term) below w) (.running g (.insts [] term) below w') := by
  induction is generalizing fr w with
  | nil => exact .refl
  | cons i is ih =>
    have first := executes fr i is term w
    unfold Frame.execAll
    revert first
    rcases fr.exec call it.known w i with ⟨h | g, w₁⟩
    · intro first fueled
      exact first fun out => fueled (Except.error.inj out)
    · intro first
      have here := first (by simp)
      have rest := ih (g.counted fr) w₁
      simp only [Frame.counted] at rest
      split at rest
      · next ran =>
        simp only [ran]
        exact fun fueled => here.trans (rest fueled)
      · next ran =>
        simp only [ran]
        exact here.trans rest

/-- One block. -/
theorem reaches_turn (fr : Frame) (prev : Option BlockId) (cur : BlockId) (w : World κ) :
    match Frame.turn call it.known fr w prev cur with
    | .stop out => out.result ≠ .error .outOfFuel →
        it.Reaches (.running fr (.entry prev cur) below w) (.ended out below)
    | .go g w' next =>
        it.Reaches (.running fr (.entry prev cur) below w)
          (.running g (.entry (some cur) next) below w') := by
  unfold Frame.turn
  cases found : fr.function.block? cur with
  | none =>
    refine fun _ => .of_advance ?_ .refl
    simp only [advance, found]
  | some b =>
    simp only [Frame.runBlock, Frame.applyPhis_eq]
    cases read : (fr.arrive cur).phiInputs b prev with
    | error e =>
      refine fun _ => .of_advance ?_ .refl
      simp only [advance, found, read]
    | ok xs =>
      have entered : it.advance fr below w (.entry prev cur) =
          .running (fr.arrive cur) (.phis xs b) below w := by
        simp only [advance, found, read]
      have written := reaches_setAll it xs (fr.arrive cur) b below w
      simp only [bind, Except.bind]
      cases wrote : (fr.arrive cur).setAll xs with
      | error e =>
        rw [wrote] at written
        exact fun _ => .of_advance entered written
      | ok g =>
        rw [wrote] at written
        have start : it.Reaches (.running fr (.entry prev cur) below w)
            (.running g (.insts b.insts b.term) below w) :=
          .of_advance entered (written.trans (.of_advance rfl .refl))
        have ran := reaches_execAll executes b.insts b.term g w
        dsimp only
        cases all : Frame.execAll call it.known b.insts g w with
        | mk r w' =>
          rw [all] at ran
          cases r with
          | error e =>
            obtain ⟨h, stats⟩ := e
            exact fun fueled => start.trans (ran fun out => fueled (congrArg _ out))
          | ok h =>
            have block : h.block = cur :=
              (Frame.block_of_execAll all).trans (Frame.block_of_setAll wrote)
            dsimp only
            cases ended : h.terminate b.term with
            | error e =>
              refine fun _ => start.trans (ran.trans (.of_advance ?_ .refl))
              simp only [advance, ended]
            | ok next =>
              cases next with
              | done v =>
                refine fun _ => start.trans (ran.trans (.of_advance ?_ .refl))
                simp only [advance, ended]
              | goto next =>
                refine start.trans (ran.trans (.of_advance ?_ .refl))
                simp only [advance, ended, block]

/-- The body of a function, from a block on. -/
theorem reaches_run (fuel : Nat) (fr : Frame) (prev : Option BlockId) (cur : BlockId) (w : World κ)
    (fueled : (Frame.run call it.known fuel fr w prev cur).result ≠ .error .outOfFuel) :
    it.Reaches (.running fr (.entry prev cur) below w)
      (.ended (Frame.run call it.known fuel fr w prev cur) below) := by
  induction fuel generalizing fr prev cur w with
  | zero => exact absurd rfl fueled
  | succ fuel ih =>
    have turned := reaches_turn executes fr prev cur w
    unfold Frame.run at fueled ⊢
    cases stepped : Frame.turn call it.known fr w prev cur with
    | stop out =>
      rw [stepped] at turned
      simp only [stepped] at fueled
      exact turned fueled
    | go g w' next =>
      rw [stepped] at turned
      simp only [stepped] at fueled
      exact turned.trans (ih g (some cur) next w' fueled)

/-- Entering a function comes to the result of the evaluator, but for the globals of the caller. -/
theorem reaches_enter (fuel : Nat) (id : FuncId) (args : List Value) (w : World κ)
    (fueled : (Eval.enter it.setup it.module call fuel (it.depth + below.length) id args w).result ≠
      .error .outOfFuel) :
    ∃ out, it.Reaches (it.enter id args below w) (.ended out below) ∧
      Eval.enter it.setup it.module call fuel (it.depth + below.length) id args w =
        it.setup.settle w out := by
  rw [enter_eq_answer] at fueled ⊢
  have came := it.admission id args below w
  revert fueled came
  generalize it.enter id args below w = moment
  intro fueled came
  revert fueled
  cases came with
  | refused h =>
    exact fun _ => ⟨_, .refl, (Setup.settle_of_globals rfl).symm⟩
  | hosted f _ _ =>
    exact fun _ => ⟨_, .refl, (Setup.settle_of_globals (globals_callHost _ _ _ _)).symm⟩
  | admitted f _ _ _ _ globals _ fr _ =>
    intro fueled
    simp only [answer, Setup.result_settle] at fueled
    exact ⟨_, reaches_run executes fuel fr none f.entry _ fueled, rfl⟩

end Body

/-- An instruction that makes no call does not depend on how calls are made. -/
theorem exec_of_ne_call {call call' : Call κ ε} {known : FuncId → Bool} {fr : Frame} {w : World κ}
    {i : Inst} (other : i.op ≠ .call) : fr.exec call known w i = fr.exec call' known w i := by
  unfold Frame.exec
  split
  · contradiction
  · rfl
  · rfl

/-- Results of calls as the evaluator makes them, one level deeper each. -/
theorem executes_of_calls (dispatch : it.dispatch = none) {fuel : Nat}
    (calls : ∀ (id : FuncId) (args : List Value) (below : List Waiting) (w : World κ),
      (runAt (ε := ε) it.setup it.module fuel (it.depth + below.length) id args w).result ≠
        .error .outOfFuel →
      ∃ out, it.Reaches (it.enter id args below w) (.ended out below) ∧
        runAt it.setup it.module fuel (it.depth + below.length) id args w = it.setup.settle w out)
    (below : List Waiting) :
    it.Executes (fun id args w =>
      let out := runAt it.setup it.module fuel (it.depth + below.length + 1) id args w
      (out.result, out.world)) below := by
  intro fr i rest term w fueled
  by_cases isCall : i.op = .call
  · by_cases known : it.known i.callee = true
    · cases read : i.args.mapM fr.get with
      | error e =>
        refine .of_advance ?_ .refl
        simp [advance, execute, dispatch, isCall, known, read, Frame.exec, Frame.callOut, proceed]
      | ok args =>
        have entered : it.advance fr below w (.insts (i :: rest) term) =
            it.enter i.callee args (⟨fr, w.globals, i, rest, term⟩ :: below) w := by
          simp [advance, execute, dispatch, isCall, known, read]
        simp only [Frame.exec, isCall, Frame.callOut, known, Bool.not_true, Bool.false_eq_true,
          if_false, read] at fueled ⊢
        have finished : (runAt (ε := ε) it.setup it.module fuel (it.depth + below.length + 1)
            i.callee args w).result ≠ .error .outOfFuel := by
          intro out
          simp [out] at fueled
        obtain ⟨out, reached, same⟩ :=
          calls i.callee args (⟨fr, w.globals, i, rest, term⟩ :: below) w finished
        have result := (congrArg Frame.Finished.result same).trans (it.setup.result_settle w out)
        have world := (congrArg Frame.Finished.world same).trans (it.setup.world_settle w out)
        simp only [List.length_cons, ← Nat.add_assoc] at result world
        refine .of_advance entered (reached.trans (.of_step ?_ .refl))
        simp only [step, resume, result, world]
        cases out.result with
        | error h => rfl
        | ok v =>
          by_cases unwanted : i.dest = .absent
          · simp only [unwanted, if_true]
          · simp only [unwanted, if_false]
    · refine .of_advance ?_ .refl
      simp [advance, execute, dispatch, isCall, known, Frame.exec, Frame.callOut, proceed]
  · refine .of_advance ?_ .refl
    simp only [advance, execute, dispatch, ne_eq, isCall, not_false_eq_true, if_true]
    rw [exec_of_ne_call isCall]

/-- What the evaluator gives for a call is what its steps lead to, with the globals of the caller
given back if they are not shared. -/
theorem reaches_ended (fuel : Nat) (id : FuncId) (args : List Value) (w : World κ)
    (fueled : (it.run fuel id args w).result ≠ .error .outOfFuel) :
    ∃ out, it.Reaches (it.enter id args [] w) (.ended out []) ∧
      it.run fuel id args w = it.setup.settle w out := by
  cases dispatch : it.dispatch with
  | some call =>
    have executes : it.Executes call [] := by
      intro fr i rest term w _
      refine .of_advance ?_ .refl
      simp only [advance, execute, dispatch]
    simp only [run, dispatch] at fueled ⊢
    exact reaches_enter executes fuel id args w fueled
  | none =>
    -- the calls that are under way add to the depth
    have inner : ∀ fuel id args below w,
        (runAt (ε := ε) it.setup it.module fuel (it.depth + below.length) id args w).result ≠
          .error .outOfFuel →
        ∃ out, it.Reaches (it.enter id args below w) (.ended out below) ∧
          runAt it.setup it.module fuel (it.depth + below.length) id args w =
            it.setup.settle w out := by
      intro fuel
      induction fuel with
      | zero => exact fun _ _ _ _ fueled => absurd rfl fueled
      | succ fuel ih =>
        intro id args below w fueled
        exact reaches_enter (executes_of_calls dispatch ih below) fuel id args w fueled
    simp only [run, dispatch] at fueled ⊢
    exact inner fuel id args [] w fueled

end Interpreter

end TieredEngine.Eval
