import TieredEngine.Proofs.Eval.Stack

/-!
The limit on the depth of calls. It bounds the frames that are under way at any moment, and it does
nothing else: a run that is not stopped by a limit is the same run under every larger one.
-/
namespace TieredEngine.Eval
open TieredEngine.Ir

variable {κ ε α : Type}

/-- Stopped because calls went too deep. -/
def TooDeep (r : Except (Halt ε) α) : Prop := ∃ e, r = .error (.fault e) ∧ e.kind = .stackOverflow

/-- The second way to make calls does what the first does wherever that does not go too deep. -/
def GoesOn (call call' : Call κ ε) : Prop :=
  ∀ id args w, TooDeep (call id args w).1 ∨ call' id args w = call id args w

namespace GoesOn

variable {call call' : Call κ ε} (goesOn : GoesOn call call') (known : FuncId → Bool)
include goesOn

/-- An instruction. -/
theorem exec (fr : Frame) (w : World κ) (i : Inst) :
    TooDeep (fr.exec call known w i).1 ∨ fr.exec call' known w i = fr.exec call known w i := by
  by_cases isCall : i.op = .call
  · simp only [Frame.exec, isCall, Frame.callOut]
    split
    · exact .inr rfl
    · split
      · exact .inr rfl
      · next args _ =>
        rcases goesOn i.callee args w with ⟨e, result, kind⟩ | same
        · refine .inl ⟨e, ?_, kind⟩
          revert result
          generalize call i.callee args w = out
          obtain ⟨r, w'⟩ := out
          rintro rfl
          rfl
        · rw [same]
          exact .inr rfl
  · exact .inr (Interpreter.exec_of_ne_call isCall)

/-- The instructions of a block. -/
theorem execAll (is : List Inst) (fr : Frame) (w : World κ) :
    (∃ e stats w', Frame.execAll call known is fr w = (.error (.fault e, stats), w') ∧
      e.kind = .stackOverflow) ∨
    Frame.execAll call' known is fr w = Frame.execAll call known is fr w := by
  induction is generalizing fr w with
  | nil => exact .inr rfl
  | cons i is ih =>
    unfold Frame.execAll
    rcases goesOn.exec known fr w i with ⟨e, result, kind⟩ | same
    · refine .inl ⟨e, fr.stats, (fr.exec call known w i).2, ?_, kind⟩
      rw [show fr.exec call known w i = (.error (.fault e), (fr.exec call known w i).2) from
        Prod.ext result rfl]
    · rw [same]
      rcases fr.exec call known w i with ⟨h | g, w'⟩
      · exact .inr rfl
      · exact ih _ w'

/-- One block. -/
theorem turn (fr : Frame) (w : World κ) (prev : Option BlockId) (cur : BlockId) :
    (∃ out, Frame.turn call known fr w prev cur = .stop out ∧ TooDeep out.result) ∨
    Frame.turn call' known fr w prev cur = Frame.turn call known fr w prev cur := by
  unfold Frame.turn
  split
  · exact .inr rfl
  · next b _ =>
    unfold Frame.runBlock
    split
    · exact .inr rfl
    · next g _ =>
      rcases goesOn.execAll known b.insts g w with ⟨e, stats, w', ran, kind⟩ | same
      · exact .inl ⟨⟨.error (.fault e), stats, w'⟩, by rw [ran], e, rfl, kind⟩
      · rw [same]
        exact .inr rfl

/-- The body of a function, from a block on. -/
theorem run (fuel : Nat) (fr : Frame) (w : World κ) (prev : Option BlockId) (cur : BlockId) :
    TooDeep (Frame.run call known fuel fr w prev cur).result ∨
    Frame.run call' known fuel fr w prev cur = Frame.run call known fuel fr w prev cur := by
  induction fuel generalizing fr w prev cur with
  | zero => exact .inr rfl
  | succ fuel ih =>
    unfold Frame.run
    rcases goesOn.turn known fr w prev cur with ⟨out, stopped, deep⟩ | same
    · rw [stopped]
      exact .inl deep
    · rw [same]
      cases Frame.turn call known fr w prev cur with
      | stop out => exact .inr rfl
      | go g w' next => exact ih g w' (some cur) next

end GoesOn

section Calls

variable (setup : Setup) (m : Module) {n N : Int}

/-- At the door a larger limit makes no difference, unless the call is too deep for the smaller. -/
theorem Interpreter.enter_under (le : n ≤ N) (depth : Nat) (id : FuncId) (args : List Value)
    (below : List Waiting) (w : World κ) :
    let low : Interpreter κ ε := { setup := { setup with maxDepth := n }, module := m, depth }
    let high : Interpreter κ ε := { setup := { setup with maxDepth := N }, module := m, depth }
    (∃ e : Error, low.enter id args below w = .ended ⟨.error (.fault e), {}, w⟩ below ∧
      e.kind = .stackOverflow) ∨
    high.enter id args below w = low.enter id args below w := by
  intro low high
  unfold Interpreter.enter
  dsimp only [low, high]
  cases m.function? id with
  | none => exact .inr rfl
  | some f =>
    dsimp only
    by_cases count : args.length = f.sig.params.length
    case neg => simp [count]
    simp only [count, ne_eq, not_true, if_false]
    cases firstMismatch 0 args f.sig.params with
    | some x => exact .inr rfl
    | none =>
      dsimp only
      by_cases external : f.isExternal = true
      · simp [external]
      · by_cases deep : n ≤ (depth + below.length : Nat)
        · refine .inl ⟨⟨f.name, f.entry, .depthExceeded n⟩, ?_, rfl⟩
          simp only [external, deep, Bool.false_eq_true, if_true, if_false]
        · have shallow : ¬ N ≤ (depth + below.length : Nat) := by omega
          refine .inr ?_
          simp only [external, deep, shallow, Bool.false_eq_true, if_false]

/-- A call, where those of its body go on. -/
theorem GoesOn.enter (le : n ≤ N) {call call' : Call κ ε} (goesOn : GoesOn call call')
    (fuel depth : Nat) (id : FuncId) (args : List Value) (w : World κ) :
    TooDeep (Eval.enter { setup with maxDepth := n } m call fuel depth id args w).result ∨
    Eval.enter { setup with maxDepth := N } m call' fuel depth id args w =
      Eval.enter { setup with maxDepth := n } m call fuel depth id args w := by
  have low := Interpreter.enter_eq_answer ⟨{ setup with maxDepth := n }, m, depth, none⟩ call fuel
    id args [] w
  have high := Interpreter.enter_eq_answer ⟨{ setup with maxDepth := N }, m, depth, none⟩ call' fuel
    id args [] w
  simp only [List.length_nil, Nat.add_zero] at low high
  rw [low, high]
  rcases Interpreter.enter_under (ε := ε) setup m le depth id args [] w with
    ⟨e, refused, kind⟩ | same
  · rw [refused]
    exact .inl ⟨e, rfl, kind⟩
  · rw [same]
    rcases Interpreter.enter _ id args [] w with ⟨fr, point, below, w'⟩ | ⟨out, below⟩
    · cases point with
      | entry prev cur =>
        simp only [Interpreter.answer, Setup.result_settle]
        refine (goesOn.run _ fuel fr w' prev cur).imp_right fun same => ?_
        exact congrArg (Setup.settle { setup with maxDepth := n } w) same
      | phis | insts => exact .inr rfl
    · exact .inr rfl

/-- A run that is not stopped by a limit is the same under every larger one. -/
theorem runAt_under (le : n ≤ N) (fuel depth : Nat) (id : FuncId) (args : List Value)
    (w : World κ) :
    TooDeep (runAt (ε := ε) { setup with maxDepth := n } m fuel depth id args w).result ∨
    runAt (ε := ε) { setup with maxDepth := N } m fuel depth id args w =
      runAt { setup with maxDepth := n } m fuel depth id args w := by
  induction fuel generalizing depth id args w with
  | zero => exact .inr rfl
  | succ fuel ih =>
    refine GoesOn.enter setup m le (fun id args w => ?_) fuel depth id args w
    refine (ih (depth + 1) id args w).imp_right fun same => ?_
    rw [same]

end Calls

namespace Interpreter

variable (it : Interpreter κ ε)

/-- The frames under way, with the calls outside, are no more than the limit. -/
def Within (s : Moment κ ε) : Prop :=
  s.frames = [] ∨ (it.depth + s.frames.length : Nat) ≤ it.setup.maxDepth

variable {it}

theorem within_running {fr : Frame} {point : Point} {below : List Waiting} {w : World κ} :
    it.Within (.running fr point below w) ↔
      (it.depth + below.length : Nat) < it.setup.maxDepth := by
  simp only [Within, Moment.frames, List.length_cons, List.length_map, reduceCtorEq, false_or]
  omega

theorem within_ended {out : Frame.Finished κ ε} {below : List Waiting} :
    it.Within (.ended out below) ↔
      below = [] ∨ (it.depth + below.length : Nat) ≤ it.setup.maxDepth := by
  simp only [Within, Moment.frames, List.length_map, List.map_eq_nil_iff]

/-- A function is entered where its frame is within the limit. -/
theorem within_enter {below : List Waiting}
    (held : below = [] ∨ (it.depth + below.length : Nat) ≤ it.setup.maxDepth) (id : FuncId)
    (args : List Value) (w : World κ) : it.Within (it.enter id args below w) := by
  have came := it.admission id args below w
  revert came
  generalize it.enter id args below w = moment
  intro came
  cases came with
  | refused | hosted => exact within_ended.mpr held
  | admitted _ _ _ _ shallow => exact within_running.mpr shallow

/-- An instruction that is done leaves the frames that there were. -/
theorem within_proceed {below : List Waiting}
    (shallow : (it.depth + below.length : Nat) < it.setup.maxDepth) (before : Frame)
    (rest : List Inst) (term : Term) (out : Except (Halt ε) Frame × World κ) :
    it.Within (proceed before rest term below out) := by
  rcases out with ⟨h | g, w⟩
  · exact within_ended.mpr (.inr (Int.le_of_lt shallow))
  · exact within_running.mpr shallow

/-- Only a call adds a frame. -/
theorem within_advance {fr : Frame} {below : List Waiting} {w : World κ} {point : Point}
    (shallow : (it.depth + below.length : Nat) < it.setup.maxDepth) {t : Moment κ ε}
    (came : it.Advance fr below w point t) : it.Within t := by
  cases came with
  | fails | returns => exact within_ended.mpr (.inr (Int.le_of_lt shallow))
  | enters | writes | begins | jumps => exact within_running.mpr shallow
  | runs => exact within_proceed shallow ..
  | calls =>
    refine within_enter (.inr ?_) ..
    rw [List.length_cons]
    omega

/-- A step stays within the limit. -/
theorem Within.step {s t : Moment κ ε} (held : it.Within s) (stepped : it.step s = some t) :
    it.Within t := by
  cases s with
  | running fr point below w =>
    cases stepped
    exact within_advance (within_running.mp held) (it.advance_cases ..)
  | ended out below =>
    cases below with
    | nil => cases stepped
    | cons s below =>
      cases stepped
      have room := (within_ended.mp held).resolve_left (by simp)
      rw [List.length_cons] at room
      exact within_proceed (by omega) ..

/-- A run stays within the limit. -/
theorem Within.reaches {s t : Moment κ ε} (held : it.Within s) (reached : it.Reaches s t) :
    it.Within t := by
  induction reached with
  | refl => exact held
  | tail _ last ih => exact ih.step last

end Interpreter

/-- The limit on the depth does nothing but stop runs that come to it. A run that is not stopped by
it is the same under every larger limit: its value or error, its counters, the calls of host
functions and the globals. At no moment are more frames under way than the limit says. -/
theorem limit_only_cuts_off (setup : Setup) (m : Module) (n : Int) (id : FuncId)
    (args : List Value) (w : World κ) :
    (∀ fuel,
      ¬ TooDeep (runAt (ε := ε) { setup with maxDepth := n } m fuel 0 id args w).result →
      ∀ N, n ≤ N →
        runAt (ε := ε) { setup with maxDepth := N } m fuel 0 id args w =
          runAt { setup with maxDepth := n } m fuel 0 id args w) ∧
    let it : Interpreter κ ε := { setup := { setup with maxDepth := n }, module := m }
    ∀ s, it.Reaches (it.enter id args [] w) s → s.frames.length ≤ n.toNat := by
  refine ⟨fun fuel finished N le => ?_, fun s reached => ?_⟩
  · exact (runAt_under setup m le fuel 0 id args w).resolve_left finished
  · have held := (Interpreter.within_enter (.inl rfl) id args w).reaches reached
    rcases held with none | few
    · simp [none]
    · simp only [Nat.zero_add] at few
      omega

/-- A function that tells the host its argument and calls itself on one less, down to zero. -/
def descending : Module := {
  functions := #[
    { name := "tell", sig := { params := [.i64] } },
    { id := ⟨1⟩, name := "descend", sig := { params := [.i64], ret := .i64 }, params := [⟨0⟩]
      regTypes := #[.i64, .i64, .i64, .i64]
      blocks := #[
        some { insts := [{ op := .call, dest := .absent, callee := ⟨0⟩, args := [⟨0⟩] }],
               term := .condBr ⟨0⟩ ⟨1⟩ ⟨2⟩ },
        some { id := ⟨1⟩
               insts := [{ op := .const, ty := .i64, dest := ⟨1⟩, const := .ofInt .i64 1 },
                         { op := .sub, ty := .i64, dest := ⟨2⟩, args := [⟨0⟩, ⟨1⟩] },
                         { op := .call, ty := .i64, dest := ⟨3⟩, callee := ⟨1⟩, args := [⟨2⟩] }],
               term := .ret (some ⟨3⟩) },
        some { id := ⟨2⟩, term := .ret (some ⟨0⟩) }] }] }

/-- From two down to zero takes three frames: a limit of two stops the run, and under a limit of
three or more it tells the host three numbers. -/
theorem limit_only_cuts_off_descending :
    let run (n : Int) : Frame.Finished Unit Unit :=
      runAt { hosts := fun _ => some fun _ _ => .ok .void, maxDepth := n } descending 9 0 ⟨1⟩
        [.ofInt .i64 2] ⟨#[], [], ()⟩
    TooDeep (run 2).result ∧ (run 3).result = .ok (.ofInt .i64 0) ∧
      ∀ N, 3 ≤ N → run N = run 3 ∧ (run N).world.hostCalls.length = 3 := by
  intro run
  have stopped : (run 2).result = .error (.fault ⟨"descend", ⟨0⟩, .depthExceeded 2⟩) := rfl
  have result : (run 3).result = .ok (.ofInt .i64 0) := rfl
  have told : (run 3).world.hostCalls.length = 3 := rfl
  obtain ⟨larger, -⟩ := limit_only_cuts_off (ε := Unit) { hosts := fun _ => some fun _ _ => .ok .void }
    descending 3 ⟨1⟩ [.ofInt .i64 2] (⟨#[], [], ()⟩ : World Unit)
  have finished : ¬ TooDeep (run 3).result := by
    rintro ⟨e, deep, _⟩
    cases result.symm.trans deep
  refine ⟨⟨_, stopped, rfl⟩, result, fun N le => ?_⟩
  have same : run N = run 3 := larger 9 finished N le
  exact ⟨same, by rw [same, told]⟩

end TieredEngine.Eval
