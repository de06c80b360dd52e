import TieredEngine.Proofs.Eval.Agreement
import TieredEngine.Proofs.Eval.Steps

/-!
Runs of one function with two ways of making calls. Frames stay equal as long as calls give equal
values, so only the worlds have to be kept together. Values may carry a property that computing
preserves, such as being in normal form.
-/
namespace TieredEngine.Eval
open TieredEngine.Ir

variable {κ κ' ε ε' : Type}

/-- Computing keeps the property of values. -/
structure Closed (P : Value → Prop) : Prop where
  void : P .void
  compute : ∀ globals i vs v, (∀ g ∈ globals, P g) → (∀ x ∈ vs, P x) →
    (i.op = .const → P i.const) → compute globals i vs = .ok v → P v

/-- Worlds that belong together share their globals, `G` is what these have to satisfy, and the
failures of the evaluator itself answer themselves. -/
structure Link.Shares (L : Link κ κ' (Halt ε) (Halt ε')) (P : Value → Prop)
    (G : Array Value → Prop) : Prop where
  globals : ∀ w w', L.worlds w w' → w'.globals = w.globals ∧ G w.globals
  reset : ∀ w w' globals, L.worlds w w' → G globals →
    L.worlds { w with globals } { w' with globals }
  store : ∀ globals id v globals', G globals → P v → storeGlobal globals id v = .ok globals' →
    G globals'
  values : ∀ globals, G globals → ∀ v ∈ globals, P v
  hostCalls : ∀ w w', L.worlds w w' → w'.hostCalls = w.hostCalls
  hosted : ∀ w w' h, L.worlds w w' → L.worlds { w with hostCalls := h :: w.hostCalls }
    { w' with hostCalls := h :: w'.hostCalls }
  alike : ∀ e e', e.Alike e' → L.failures (.fault e) (.fault e')
  host : ∀ f reason, L.failures (.host f reason) (.host f reason)
  crash : ∀ c, L.failures (.crash c) (.crash c)

theorem Link.Shares.fault {L : Link κ κ' (Halt ε) (Halt ε')} {P : Value → Prop}
    {G : Array Value → Prop} (shares : L.Shares P G) (e : Error) :
    L.failures (.fault e) (.fault e) := shares.alike e e ⟨rfl, rfl⟩

/-- A frame of the function in which every register that is written holds a value with the
property. -/
structure Frame.Holds (P : Value → Prop) (f : Function) (fr : Frame) : Prop where
  function : fr.function = f
  values : ∀ r v, fr.reg? r = some v → P v

namespace Frame.Holds

variable {P : Value → Prop} {f : Function} {fr g : Frame}

theorem reads (holds : fr.Holds P f) {rs : List Reg} {vs : List Value} (reads : fr.Reads rs vs) :
    ∀ v ∈ vs, P v := by
  intro v member
  obtain ⟨r, _, held⟩ := forall₂_partner reads.flip member
  exact holds.values r v held

theorem set (holds : fr.Holds P f) {r : Reg} {v : Value} (new : P v)
    (written : fr.set r v = .ok g) : g.Holds P f := by
  obtain ⟨_, rfl⟩ := Frame.set_eq_ok.mp written
  refine ⟨holds.function, fun x y held => ?_⟩
  unfold Frame.reg? Frame.put at held
  rw [Array.getElem?_setIfInBounds] at held
  split at held
  · split at held
    · cases held
      exact new
    · cases held
  · exact holds.values x y held

theorem setAll {xs : List (Reg × Value)} (each : ∀ x ∈ xs, P x.2) (holds : fr.Holds P f)
    (written : fr.setAll xs = .ok g) : g.Holds P f := by
  induction xs generalizing fr with
  | nil =>
    cases written
    exact holds
  | cons x xs ih =>
    obtain ⟨r, v⟩ := x
    obtain ⟨fr₁, first, rest⟩ := bind_eq_ok.mp written
    exact ih (fun y member => each y (by simp [member]))
      (holds.set (each (r, v) (by simp)) first) rest

theorem applyPhis {b : Block} {prev : Option BlockId} (holds : fr.Holds P f)
    (applied : fr.applyPhis b prev = .ok g) : g.Holds P f := by
  unfold Frame.applyPhis at applied
  split at applied
  · cases applied
    exact holds
  · unfold Frame.resolvePhis at applied
    split at applied
    · cases applied
    · obtain ⟨xs, read, written⟩ := bind_eq_ok.mp applied
      refine holds.setAll (fun x member => ?_) written
      obtain ⟨p, _, input⟩ := forall₂_partner (mapM_eq_ok.mp read).flip member
      split at input
      · cases input
      · obtain ⟨v, got, same⟩ := bind_eq_ok.mp input
        cases same
        exact holds.values _ v (Frame.get_eq_ok.mp got)

theorem returned (holds : fr.Holds P f) (closed : Closed P) {t : Term} {v : Value}
    (ended : fr.terminate t = .ok (.done v)) : P v := by
  rcases Frame.done_reg? ended with rfl | ⟨r, held⟩
  · exact closed.void
  · exact holds.values r v held

end Frame.Holds

/-- The constants that control can reach in a function have the property. -/
def Constants (P : Value → Prop) (f : Function) : Prop :=
  ∀ id b, f.Reachable id → f.block? id = some b → ∀ i ∈ b.insts, i.op = .const → P i.const

section Congruence

variable {L : Link κ κ' (Halt ε) (Halt ε')} {P : Value → Prop} {G : Array Value → Prop}
  (shares : L.Shares P G) (closed : Closed P) {call : Call κ ε} {call' : Call κ' ε'}
  (calls : CallsMatch L P call call') (known : FuncId → Bool) {f : Function}
include shares closed calls

theorem exec_congr {fr : Frame} (holds : fr.Holds P f) {i : Inst} (const : i.op = .const → P i.const)
    {w : World κ} {w' : World κ'} (worlds : L.worlds w w') :
    L.Matches (fun g g' => g' = g ∧ g.Holds P f) (fr.exec call known w i)
      (fr.exec call' known w' i) := by
  obtain ⟨same, good⟩ := shares.globals w w' worlds
  -- a write of a value with the property, in both worlds
  have writes : ∀ {w : World κ} {w' : World κ'} {v : Value}, L.worlds w w' → P v →
      L.Matches (fun g g' => g' = g ∧ g.Holds P f)
        ((fr.set i.dest v).mapError Halt.fault, w)
        ((fr.set i.dest v).mapError Halt.fault, w') := by
    intro w w' v worlds new
    cases written : fr.set i.dest v with
    | error e => exact .error worlds (shares.fault e)
    | ok g => exact .ok worlds ⟨rfl, holds.set new written⟩
  unfold Frame.exec
  split
  · unfold Frame.callOut
    split
    · exact .error worlds (shares.fault _)
    · cases read : i.args.mapM fr.get with
      | error e => exact .error worlds (shares.fault e)
      | ok args =>
        have called := calls i.callee args w w' worlds
          (holds.reads (Frame.mapM_get_eq_ok.mp read))
        dsimp only
        revert called
        generalize call i.callee args w = out
        generalize call' i.callee args w' = out'
        intro called
        cases called with
        | left free => exact .left free
        | right free => exact .right free
        | error worlds failures => exact .error worlds failures
        | ok worlds related =>
          obtain ⟨rfl, new⟩ := related
          by_cases unwanted : i.dest = .absent
          · simp only [unwanted, if_true]
            exact .ok worlds ⟨rfl, holds⟩
          · simp only [unwanted, if_false]
            exact writes worlds new
  · cases read : fr.operands i 1 with
    | error e => exact .error worlds (shares.fault e)
    | ok args =>
      simp only [same]
      cases stored : storeGlobal w.globals i.global (args.headD .void) with
      | error c => exact .error worlds (shares.fault _)
      | ok globals =>
        have new : P (args.headD .void) := by
          unfold Frame.operands at read
          split at read
          · cases read
          · next count =>
            have reads := Frame.mapM_get_eq_ok.mp read
            have length := reads.length_eq
            obtain ⟨a, rfl⟩ : ∃ a, args = [a] := List.length_eq_one_iff.mp (by simp_all)
            exact holds.reads reads a (by simp)
        exact .ok (shares.reset w w' globals worlds (shares.store _ _ _ _ good new stored))
          ⟨rfl, holds⟩
  · simp only [same]
    cases valued : fr.value w.globals i with
    | error e => exact .error worlds (shares.fault e)
    | ok v =>
      obtain ⟨vs, held, computed⟩ := Frame.compute_of_value valued
      refine writes worlds (closed.compute w.globals i vs v (shares.values _ good) ?_ const computed)
      intro x member
      obtain ⟨r, at_r⟩ := held x member
      exact holds.values r x at_r

theorem execAll_congr {is : List Inst} (consts : ∀ i ∈ is, i.op = .const → P i.const) {fr : Frame}
    (holds : fr.Holds P f) {w : World κ} {w' : World κ'} (worlds : L.worlds w w') :
    L.counted.Matches (fun g g' => g' = g ∧ g.Holds P f) (Frame.execAll call known is fr w)
      (Frame.execAll call' known is fr w') := by
  induction is generalizing fr w w' with
  | nil => exact .ok worlds ⟨rfl, holds⟩
  | cons i is ih =>
    have ran := exec_congr shares closed calls known holds (consts i (by simp)) worlds
    simp only [Frame.execAll]
    revert ran
    generalize fr.exec call known w i = out
    generalize fr.exec call' known w' i = out'
    intro ran
    cases ran with
    | left free => exact .left free
    | right free => exact .right free
    | error worlds failures => exact .error worlds ⟨failures, rfl⟩
    | ok worlds related =>
      obtain ⟨rfl, holds'⟩ := related
      refine ih (fun j member => consts j (by simp [member])) ?_ worlds
      exact ⟨holds'.function, holds'.values⟩

theorem turn_congr (consts : Constants P f) {fr : Frame} (holds : fr.Holds P f)
    (prev : Option BlockId) {cur : BlockId} (reached : f.Reachable cur) {w : World κ} {w' : World κ'}
    (worlds : L.worlds w w') :
    L.Turns P (fun g next g' next' => g' = g ∧ next' = next ∧ g.Holds P f ∧ f.Reachable next)
      (Frame.turn call known fr w prev cur) (Frame.turn call' known fr w' prev cur) := by
  unfold Frame.turn
  rw [holds.function]
  cases found : f.block? cur with
  | none => exact .stop (.error worlds ⟨shares.fault _, rfl⟩)
  | some b =>
    simp only [Frame.runBlock]
    cases applied : (fr.arrive cur).applyPhis b prev with
    | error e => exact .stop (.error worlds ⟨shares.fault e, rfl⟩)
    | ok g =>
      have arrived : (fr.arrive cur).Holds P f := ⟨holds.function, holds.values⟩
      have ran := execAll_congr shares closed calls known (consts cur b reached found)
        (arrived.applyPhis applied) worlds
      dsimp only
      revert ran
      generalize Frame.execAll call known b.insts g w = out
      generalize Frame.execAll call' known b.insts g w' = out'
      intro ran
      cases ran with
      | left free => exact .left free
      | right free => exact .right free
      | error worlds failures => exact .stop (.error worlds failures)
      | @ok _ h _ _ worlds related =>
        obtain ⟨rfl, holds'⟩ := related
        dsimp only
        cases ended : h.terminate b.term with
        | error e => exact .stop (.error worlds ⟨shares.fault e, rfl⟩)
        | ok next =>
          cases next with
          | goto next =>
            exact .go worlds ⟨rfl, rfl, holds', reached.step found (Frame.goto_mem ended)⟩
          | done v => exact .stop (.ok worlds ⟨rfl, rfl, holds'.returned closed ended⟩)

/-- A run of one function from equal frames. -/
theorem run_congr (consts : Constants P f) {fuel fuel' : Nat} (fuels : L.Fuels fuel fuel')
    {fr : Frame} (holds : fr.Holds P f) (prev : Option BlockId) {cur : BlockId}
    (reached : f.Reachable cur) {w : World κ} {w' : World κ'} (worlds : L.worlds w w') :
    L.Ends P (Frame.run call known fuel fr w prev cur)
      (Frame.run call' known fuel' fr w' prev cur) := by
  refine Link.run_ends
    (R := fun prev fr cur prev' fr' cur' => prev' = prev ∧ fr' = fr ∧ cur' = cur ∧
      fr.Holds P f ∧ f.Reachable cur)
    ?_ ?_ fuels ⟨rfl, rfl, rfl, holds, reached⟩ worlds
  · rintro prev fr cur _ _ _ ⟨rfl, rfl, rfl, _⟩
    rfl
  · rintro prev fr cur _ _ _ w w' ⟨rfl, rfl, rfl, holds, reached⟩ worlds
    refine (turn_congr shares closed calls known consts holds _ reached worlds).mono ?_
    rintro g next _ _ ⟨rfl, rfl, holds', reached'⟩
    exact ⟨rfl, rfl, rfl, holds', reached'⟩

end Congruence

end TieredEngine.Eval
