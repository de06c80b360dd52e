import TieredEngine.Eval.Machine

/-!
Two runs compared. A link says which worlds belong together, which failures of the one answer which
failures of the other, and after which failures of either side nothing is asked of the other. Runs
are compared by their results and by the blocks they entered; the number of instructions may differ.
-/
namespace TieredEngine.Eval
open TieredEngine.Ir

/-- How the results of two runs have to be related. -/
structure Link (κ κ' E E' : Type) where
  worlds : World κ → World κ' → Prop
  left : E → Prop
  right : E' → Prop
  failures : E → E' → Prop

namespace Link

variable {κ κ' E E' α β : Type}

/-- Results that belong together: values by `R`, failures by the link, in worlds that belong
together. -/
inductive Matches (L : Link κ κ' E E') (R : α → β → Prop) :
    Except E α × World κ → Except E' β × World κ' → Prop where
  | left {e : E} {w : World κ} {out : Except E' β × World κ'} (free : L.left e) :
      Matches L R (.error e, w) out
  | right {out : Except E α × World κ} {e : E'} {w : World κ'} (free : L.right e) :
      Matches L R out (.error e, w)
  | ok {a : α} {b : β} {w : World κ} {w' : World κ'} (worlds : L.worlds w w') (related : R a b) :
      Matches L R (.ok a, w) (.ok b, w')
  | error {e : E} {e' : E'} {w : World κ} {w' : World κ'} (worlds : L.worlds w w')
      (failures : L.failures e e') : Matches L R (.error e, w) (.error e', w')

theorem Matches.mono {L : Link κ κ' E E'} {R S : α → β → Prop} (weaker : ∀ a b, R a b → S a b)
    {out : Except E α × World κ} {out' : Except E' β × World κ'} (matched : L.Matches R out out') :
    L.Matches S out out' := by
  cases matched with
  | left free => exact .left free
  | right free => exact .right free
  | ok worlds related => exact .ok worlds (weaker _ _ related)
  | error worlds failures => exact .error worlds failures

/-- The link for failures that carry counters: the blocks entered are the same. -/
def counted (L : Link κ κ' E E') : Link κ κ' (E × Stats) (E' × Stats) where
  worlds := L.worlds
  left e := L.left e.1
  right e := L.right e.1
  failures e e' := L.failures e.1 e'.1 ∧ e'.2.blocks = e.2.blocks

end Link

/-- Calls on values with a property, in worlds that belong together, give equal results, again with
the property. -/
def CallsMatch {κ κ' ε ε' : Type} (L : Link κ κ' (Halt ε) (Halt ε')) (P : Value → Prop)
    (call : Call κ ε) (call' : Call κ' ε') : Prop :=
  ∀ id args w w', L.worlds w w' → (∀ a ∈ args, P a) →
    L.Matches (fun v v' => v' = v ∧ P v) (call id args w) (call' id args w')

/-- Result and counters of a run, in the form results are compared in. -/
def Frame.Finished.outcome {κ ε : Type} (out : Frame.Finished κ ε) :
    Except (Halt ε × Stats) (Value × Stats) × World κ :=
  match out.result with
  | .ok v => (.ok (v, out.stats), out.world)
  | .error h => (.error (h, out.stats), out.world)

/-- Equal values with a property, reached through equally many blocks. -/
def SameValue (P : Value → Prop) (v v' : Value × Stats) : Prop :=
  v'.1 = v.1 ∧ v'.2.blocks = v.2.blocks ∧ P v.1

def Link.Ends {κ κ' ε ε' : Type} (L : Link κ κ' (Halt ε) (Halt ε')) (P : Value → Prop)
    (out : Frame.Finished κ ε) (out' : Frame.Finished κ' ε') : Prop :=
  L.counted.Matches (SameValue P) out.outcome out'.outcome

/-- What a caller sees of two runs that belong together. -/
theorem Link.Ends.result {κ κ' ε ε' : Type} {L : Link κ κ' (Halt ε) (Halt ε')} {P : Value → Prop}
    {out : Frame.Finished κ ε} {out' : Frame.Finished κ' ε'} (ends : L.Ends P out out') :
    L.Matches (fun v v' => v' = v ∧ P v) (out.result, out.world) (out'.result, out'.world) := by
  obtain ⟨r, stats, w⟩ := out
  obtain ⟨r', stats', w'⟩ := out'
  cases r with
  | error h =>
    cases r' with
    | error h' =>
      cases ends with
      | left free => exact .left free
      | right free => exact .right free
      | error worlds failures => exact .error worlds failures.1
    | ok v' =>
      cases ends with
      | left free => exact .left free
  | ok v =>
    cases r' with
    | error h' =>
      cases ends with
      | right free => exact .right free
    | ok v' =>
      cases ends with
      | ok worlds related => exact .ok worlds ⟨related.1, related.2.2⟩

/-- One block of each of two runs: both stop, or both go on from frames related by `R`. -/
inductive Link.Turns {κ κ' ε ε' : Type} (L : Link κ κ' (Halt ε) (Halt ε')) (P : Value → Prop)
    (R : Frame → BlockId → Frame → BlockId → Prop) :
    Frame.Turn κ ε → Frame.Turn κ' ε' → Prop where
  | left {h : Halt ε} {stats : Stats} {w : World κ} {turn : Frame.Turn κ' ε'} (free : L.left h) :
      Turns L P R (.stop ⟨.error h, stats, w⟩) turn
  | right {turn : Frame.Turn κ ε} {h : Halt ε'} {stats : Stats} {w : World κ'} (free : L.right h) :
      Turns L P R turn (.stop ⟨.error h, stats, w⟩)
  | stop {out : Frame.Finished κ ε} {out' : Frame.Finished κ' ε'} (ends : L.Ends P out out') :
      Turns L P R (.stop out) (.stop out')
  | go {fr fr' : Frame} {w : World κ} {w' : World κ'} {next next' : BlockId}
      (worlds : L.worlds w w') (related : R fr next fr' next') :
      Turns L P R (.go fr w next) (.go fr' w' next')

theorem Link.Turns.mono {κ κ' ε ε' : Type} {L : Link κ κ' (Halt ε) (Halt ε')} {P : Value → Prop}
    {R S : Frame → BlockId → Frame → BlockId → Prop}
    (weaker : ∀ fr next fr' next', R fr next fr' next' → S fr next fr' next')
    {turn : Frame.Turn κ ε} {turn' : Frame.Turn κ' ε'} (turns : L.Turns P R turn turn') :
    L.Turns P S turn turn' := by
  cases turns with
  | left free => exact .left free
  | right free => exact .right free
  | stop ends => exact .stop ends
  | go worlds related => exact .go worlds (weaker _ _ _ _ related)

/-- Fuel for two runs: the same for both when both are to run out of it together, otherwise any
more for the second, and nothing is asked of it when the first runs out. -/
def Link.Fuels {κ κ' ε ε' : Type} (L : Link κ κ' (Halt ε) (Halt ε')) (fuel fuel' : Nat) : Prop :=
  fuel' = fuel ∧ L.failures .outOfFuel .outOfFuel ∨ fuel ≤ fuel' ∧ L.left .outOfFuel

/-- Runs belong together when each block of theirs does. -/
theorem Link.run_ends {κ κ' ε ε' : Type} {L : Link κ κ' (Halt ε) (Halt ε')} {P : Value → Prop}
    {call : Call κ ε} {call' : Call κ' ε'} {known known' : FuncId → Bool}
    {R : Option BlockId → Frame → BlockId → Option BlockId → Frame → BlockId → Prop}
    (blocks : ∀ prev fr cur prev' fr' cur', R prev fr cur prev' fr' cur' →
      fr'.stats.blocks = fr.stats.blocks)
    (step : ∀ prev fr cur prev' fr' cur' w w', R prev fr cur prev' fr' cur' → L.worlds w w' →
      L.Turns P (fun fr next fr' next' => R (some cur) fr next (some cur') fr' next')
        (Frame.turn call known fr w prev cur) (Frame.turn call' known' fr' w' prev' cur'))
    {fuel fuel' : Nat} (fuels : L.Fuels fuel fuel') {prev prev' : Option BlockId}
    {fr fr' : Frame} {cur cur' : BlockId} {w : World κ} {w' : World κ'}
    (related : R prev fr cur prev' fr' cur') (worlds : L.worlds w w') :
    L.Ends P (Frame.run call known fuel fr w prev cur)
      (Frame.run call' known' fuel' fr' w' prev' cur') := by
  induction fuel generalizing fuel' prev prev' fr fr' cur cur' w w' with
  | zero =>
    rcases fuels with ⟨rfl, both⟩ | ⟨_, free⟩
    · exact .error worlds ⟨both, blocks _ _ _ _ _ _ related⟩
    · exact .left free
  | succ fuel ih =>
    obtain ⟨rest, rfl, fewer⟩ : ∃ rest, fuel' = rest + 1 ∧ L.Fuels fuel rest := by
      rcases fuels with ⟨rfl, both⟩ | ⟨more, free⟩
      · exact ⟨fuel, rfl, .inl ⟨rfl, both⟩⟩
      · obtain ⟨rest, rfl⟩ : ∃ rest, fuel' = rest + 1 := ⟨fuel' - 1, by omega⟩
        exact ⟨rest, rfl, .inr ⟨by omega, free⟩⟩
    have turned := step _ _ _ _ _ _ w w' related worlds
    simp only [Frame.run]
    revert turned
    generalize Frame.turn call known fr w prev cur = t
    generalize Frame.turn call' known' fr' w' prev' cur' = t'
    intro turned
    cases turned with
    | left free => exact .left free
    | right free => exact .right free
    | stop ends => exact ends
    | go worlds related => exact ih fewer related worlds

/-- Errors of one kind, raised in one function. -/
def Error.Alike (e e' : Error) : Prop := e'.function = e.function ∧ e'.kind = e.kind

inductive Halt.Alike {ε : Type} : Halt ε → Halt ε → Prop where
  | fault {e e' : Error} (alike : e.Alike e') : Alike (.fault e) (.fault e')
  | same (h : Halt ε) : Alike h h

/-- The run met a value of the wrong type. -/
def Halt.IsMismatch {ε : Type} (h : Halt ε) : Prop := ∃ e, h = .fault e ∧ e.kind = .typeMismatch

theorem Halt.Alike.of_fault {ε : Type} {h : Halt ε} {e' : Error} (alike : h.Alike (.fault e')) :
    ∃ e, h = .fault e ∧ e.Alike e' := by
  cases alike with
  | same => exact ⟨e', rfl, rfl, rfl⟩
  | fault alike => exact ⟨_, rfl, alike⟩

theorem Halt.Alike.trans {ε : Type} {h₁ h₂ h₃ : Halt ε} (first : h₁.Alike h₂)
    (second : h₂.Alike h₃) : h₁.Alike h₃ := by
  cases first with
  | same => exact second
  | fault alike =>
    cases second with
    | same => exact .fault alike
    | fault alike' => exact .fault ⟨alike'.1.trans alike.1, alike'.2.trans alike.2⟩

theorem Halt.Alike.mismatch {ε : Type} {h h' : Halt ε} (alike : h.Alike h')
    (mismatch : h'.IsMismatch) : h.IsMismatch := by
  obtain ⟨e', rfl, kind⟩ := mismatch
  cases alike with
  | same => exact ⟨e', rfl, kind⟩
  | fault alike => exact ⟨_, rfl, alike.2 ▸ kind⟩

/-- The second run does what the first does, in the same world, unless the first meets a value of
the wrong type. There are `n` globals. -/
def preserving (κ ε : Type) (n : Nat) : Link κ κ (Halt ε) (Halt ε) where
  worlds w w' := w' = w ∧ w.globals.size = n
  left := Halt.IsMismatch
  right _ := False
  failures := Halt.Alike

theorem preserving_trans {κ ε α : Type} {n : Nat} {x y z : Except (Halt ε × Stats) α × World κ}
    {R : α → α → Prop} (trans : ∀ a b c, R a b → R b c → R a c)
    (first : (preserving κ ε n).counted.Matches R x y)
    (second : (preserving κ ε n).counted.Matches R y z) :
    (preserving κ ε n).counted.Matches R x z := by
  cases first with
  | left free => exact .left free
  | right free => exact free.elim
  | ok worlds related =>
    cases second with
    | right free => exact free.elim
    | ok worlds' related' =>
      exact .ok ⟨worlds'.1.trans worlds.1, worlds.2⟩ (trans _ _ _ related related')
  | error worlds failures =>
    cases second with
    | left free => exact .left (failures.1.mismatch free)
    | right free => exact free.elim
    | error worlds' failures' =>
      exact .error ⟨worlds'.1.trans worlds.1, worlds.2⟩
        ⟨failures.1.trans failures'.1, failures'.2.trans failures.2⟩

theorem preserving_ends_trans {κ ε : Type} {n : Nat} {P : Value → Prop} {x y z : Frame.Finished κ ε}
    (first : (preserving κ ε n).Ends P x y) (second : (preserving κ ε n).Ends P y z) :
    (preserving κ ε n).Ends P x z :=
  preserving_trans
    (fun _ _ _ same same' =>
      ⟨same'.1.trans same.1, same'.2.1.trans same.2.1, same.2.2⟩) first second

end TieredEngine.Eval
