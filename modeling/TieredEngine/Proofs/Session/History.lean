import TieredEngine.Proofs.Session.Promotion

/-!
The calls of a session, with the calls that these make. A session remembers how often each function
was called, but not what became of the calls; here the same run also notes every call when it ends:
the count that the call was given, whether the interpreter ran it and through how many blocks, and
whether it gave a value. Leaving the notes out gives back the run itself.

Every call of a function gets the next number when it begins, and is noted with it when it ends; calls
that it makes meanwhile get later numbers and end earlier. Between the calls of a session nothing is
under way, so the noted calls of a function have the numbers from one on.
-/
namespace TieredEngine.Session
open TieredEngine TieredEngine.Ir TieredEngine.Native

/-- A call that has ended. -/
structure Ended where
  function : FuncId
  count : UInt64
  interpreted : Bool
  /-- Blocks that the interpreter entered, of a call that gave a value. -/
  blocks : Nat := 0
  succeeded : Bool := false
  deriving DecidableEq, Repr

/-- The state of a session with the calls that have ended, the last one first. -/
structure Noted where
  state : State
  calls : List Ended := []

namespace Noted

def withState (n : Noted) (state : State) : Noted := { n with state }

def note (n : Noted) (c : Ended) : Noted := { n with calls := c :: n.calls }

/-- Counts a call of a function. -/
def counted (n : Noted) (id : FuncId) : Noted :=
  n.withState { n.state with tracker := (n.state.tracker.record id.num).2 }

/-- What is to be noted of a call that begins. -/
def begun (n : Noted) (setup : Setup) (slot : Slot) (id : FuncId) : Ended :=
  { function := id, count := (n.state.tracker.record id.num).1
    interpreted := slot.entry.isNone || setup.invoker.isNone }

end Noted

/-- A world without its notes. -/
def forget (w : Eval.World Noted) : Eval.World State := { w with rest := w.rest.state }

/-- Runs a call on what its function runs on, in a world with notes. -/
def runSlotNoting (setup : Setup) (p : Program) (call : Eval.Call Noted Error) (fuel depth : Nat)
    (slot : Slot) (id : FuncId) (args : List Value) (w : Eval.World Noted) :
    Except Halt (Value × Nat) × Eval.World Noted :=
  match slot.entry, setup.invoker with
  | some e, some invoke =>
    let r := (invoke w.rest.state.nativeCalls fuel w.rest.state.manager p.module e args).mapError
      (Halt.ofNative slot.function.name e.tier)
    let state := { w.rest.state with nativeCalls := w.rest.state.nativeCalls + 1 }
    (r.map (·, 0), { w with rest := w.rest.withState state })
  | _, _ =>
    let out := Eval.enter (evalSetup setup) p.module call fuel depth id args w
    (out.result.map (·, out.stats.blocks), out.world)

/-- The end of a call: a promotion is asked for when it has given a value, and the call is noted. -/
def endNoting (setup : Setup) (slot : Slot) (begun : Ended) :
    Except Halt (Value × Nat) × Eval.World Noted → Except Halt Value × Eval.World Noted
  | (.error h, w) => (.error h, { w with rest := w.rest.note begun })
  | (.ok (v, blocks), w) =>
    let ended : Ended := { begun with blocks, succeeded := true }
    let wanted := wantedTier setup.config begun.count blocks
    if slot.tier.rank < wanted.rank then
      match w.rest.state.request setup ⟨begun.function, wanted⟩ with
      | (.ok (), state) => (.ok v, { w with rest := (w.rest.withState state).note ended })
      | (.error c, state) =>
        (.error (.crash c), { w with rest := (w.rest.withState state).note begun })
    else (.ok v, { w with rest := w.rest.note ended })

/-- Calls a function and notes the call when it has ended. -/
def executeNoting (setup : Setup) : Nat → Nat → FuncId → List Value → Eval.World Noted →
    Except Halt Value × Eval.World Noted
  | 0, _, _, _, w => (.error .outOfFuel, w)
  | fuel + 1, depth, id, args, w =>
    if w.rest.state.closed then (.error (.other .closed), w)
    else match w.rest.state.program with
    | none => (.error (.other .noModule), w)
    | some p =>
      match p.slot? id with
      | none => (.error (.other (.unknownFunction id)), w)
      | some slot =>
        endNoting setup slot (w.rest.begun setup slot id)
          (runSlotNoting setup p (executeNoting setup fuel (depth + 1)) fuel depth slot id args
            { w with rest := w.rest.counted id })

namespace State

/-- What a request leaves alone: the calls that were counted, other functions, and a failure. -/
structure Aside (id : FuncId) (s s' : State) : Prop where
  tracker : s'.tracker = s.tracker
  closed : s'.closed = s.closed
  failure : s'.failure = none → s.failure = none
  slots : ∀ x, x ≠ id → s'.slot? x = s.slot? x

theorem Promoted.aside {setup : Setup} {s s' : State} {slot : Slot} {job : Job}
    (promoted : Promoted setup s slot job s') : Aside job.function s s' := by
  have apart := promoted.apart
  cases promoted with
  | uninstalled a succeeded installing e => exact ⟨rfl, rfl, by rintro ⟨⟩, apart.2⟩
  | _ => exact ⟨rfl, rfl, id, apart.2⟩

theorem request_aside (setup : Setup) (s : State) (job : Job) :
    Aside job.function s (s.request setup job).2 := by
  unfold request
  split
  · exact ⟨rfl, rfl, id, fun _ _ => rfl⟩
  · split
    · exact ⟨rfl, rfl, id, fun _ _ => rfl⟩
    · have taken := apart_acquire s job.function
      dsimp only
      split
      · exact ⟨rfl, rfl, id, taken.2⟩
      · unfold promote
        split
        · exact ⟨rfl, rfl, id, taken.2⟩
        · next slot _ =>
          have done := (compileAndInstall_promoted setup (s.acquire job.function) slot job).aside
          have given := apart_release ((s.acquire job.function).compileAndInstall setup slot job).2
            job.function
          exact ⟨done.tracker, done.closed, done.failure,
            fun x other => (given.2 x other).trans ((done.slots x other).trans (taken.2 x other))⟩

end State

/-- How a call ends: without a value, with one on a tier that is high enough, or with a request for
a promotion, which can crash. -/
inductive Ending (setup : Setup) (slot : Slot) (begun : Ended) (n : Noted) :
    Except Halt (Value × Nat) → Noted → Prop where
  | stopped (h : Halt) : Ending setup slot begun n (.error h) (n.note begun)
  | content (v : Value) (blocks : Nat)
      (low : (wantedTier setup.config begun.count blocks).rank ≤ slot.tier.rank) :
      Ending setup slot begun n (.ok (v, blocks)) (n.note { begun with blocks, succeeded := true })
  | asked (v : Value) (blocks : Nat)
      (done : (n.state.request setup
        ⟨begun.function, wantedTier setup.config begun.count blocks⟩).1 = .ok ()) :
      Ending setup slot begun n (.ok (v, blocks)) ((n.withState (n.state.request setup
        ⟨begun.function, wantedTier setup.config begun.count blocks⟩).2).note
          { begun with blocks, succeeded := true })
  | crashed (v : Value) (blocks : Nat)
      (undone : (n.state.request setup
        ⟨begun.function, wantedTier setup.config begun.count blocks⟩).1 ≠ .ok ()) :
      Ending setup slot begun n (.ok (v, blocks)) ((n.withState (n.state.request setup
        ⟨begun.function, wantedTier setup.config begun.count blocks⟩).2).note begun)

theorem endNoting_ending (setup : Setup) (slot : Slot) (begun : Ended)
    (r : Except Halt (Value × Nat)) (w : Eval.World Noted) :
    Ending setup slot begun w.rest r (endNoting setup slot begun (r, w)).2.rest := by
  cases r with
  | error h => exact .stopped h
  | ok value =>
    obtain ⟨v, blocks⟩ := value
    simp only [endNoting]
    split
    · have asked := @Ending.asked setup slot begun w.rest v blocks
      have crashed := @Ending.crashed setup slot begun w.rest v blocks
      revert asked crashed
      generalize w.rest.state.request setup _ = out
      obtain ⟨done, state⟩ := out
      intro asked crashed
      cases done with
      | ok => exact asked rfl
      | error c => exact crashed (by rintro ⟨⟩)
    · next low => exact .content v blocks (Nat.le_of_not_lt low)

section Forgetting

/-- A run beside the same run with notes. -/
def forgetting : Eval.Link State Noted Halt Halt where
  worlds w w' := w = forget w'
  left _ := False
  right _ := False
  failures _ _ := True

theorem forgetting_shares : forgetting.Shares (fun _ => True) fun _ => True where
  globals := by
    rintro _ w' rfl
    exact ⟨rfl, trivial⟩
  reset := by
    rintro _ w' globals rfl _
    rfl
  store := fun _ _ _ _ _ _ _ => trivial
  values := fun _ _ _ _ => trivial
  hostCalls := by
    rintro _ w' rfl
    rfl
  hosted := by
    rintro _ w' h rfl
    rfl
  alike := fun _ _ _ => trivial
  host := fun _ _ => trivial
  crash := fun _ => trivial

/-- Entering a function, calls being noted. -/
theorem enter_forgets {setup : Eval.Setup} {m : Module} {call : Eval.Call State Error}
    {call' : Eval.Call Noted Error} (calls : Eval.CallsMatch forgetting (fun _ => True) call call')
    (fuel depth : Nat) (id : FuncId) (args : List Value) (w : Eval.World Noted) :
    forgetting.Ends (fun _ => True) (Eval.enter setup m call fuel depth id args (forget w))
      (Eval.enter setup m call' fuel depth id args w) := by
  cases found : m.function? id with
  | none =>
    simp only [Eval.enter, found]
    exact .error rfl ⟨trivial, rfl⟩
  | some f =>
    exact Eval.enter_congr forgetting_shares ⟨trivial, fun _ _ _ _ _ _ _ _ => trivial⟩
      (fun _ _ _ _ _ _ _ => trivial) found found (fun _ _ _ _ _ _ _ => trivial) rfl rfl
      (fun _ _ => trivial) calls (.inl ⟨rfl, trivial⟩) (fun _ _ => trivial) rfl

/-- The value and the number of blocks that a caller goes by. -/
theorem finished_forgets {out : Eval.Frame.Finished State Error}
    {out' : Eval.Frame.Finished Noted Error} (ends : forgetting.Ends (fun _ => True) out out') :
    forgetting.Matches (fun a b => b = a) (out.result.map (·, out.stats.blocks), out.world)
      (out'.result.map (·, out'.stats.blocks), out'.world) := by
  obtain ⟨r, stats, u⟩ := out
  obtain ⟨r', stats', u'⟩ := out'
  cases r with
  | error h =>
    cases r' with
    | error h' =>
      cases ends with
      | left free => exact free.elim
      | right free => exact free.elim
      | error worlds _ => exact .error worlds trivial
    | ok v' =>
      cases ends with
      | left free => exact free.elim
  | ok v =>
    cases r' with
    | error h' =>
      cases ends with
      | right free => exact free.elim
    | ok v' =>
      cases ends with
      | ok worlds related =>
        obtain ⟨value, blocks, _⟩ := related
        exact .ok worlds (Prod.ext value blocks)

theorem runSlot_forgets {setup : Setup} {call : Eval.Call State Error}
    {call' : Eval.Call Noted Error} (calls : Eval.CallsMatch forgetting (fun _ => True) call call')
    (p : Program) (fuel depth : Nat) (slot : Slot) (id : FuncId) (args : List Value)
    (w : Eval.World Noted) :
    forgetting.Matches (fun a b => b = a) (runSlot setup p call fuel depth slot id args (forget w))
      (runSlotNoting setup p call' fuel depth slot id args w) := by
  have interpreted := finished_forgets
    (@enter_forgets (evalSetup setup) p.module call call' calls fuel depth id args w)
  unfold runSlot runSlotNoting
  cases slot.entry with
  | none => exact interpreted
  | some e =>
    cases setup.invoker with
    | none => exact interpreted
    | some invoke =>
      dsimp only
      rw [show (forget w).rest = w.rest.state from rfl]
      cases invoke w.rest.state.nativeCalls fuel w.rest.state.manager p.module e args with
      | error h => exact .error rfl trivial
      | ok v => exact .ok rfl rfl

/-- The end of a call: a promotion is asked for when it has given a value. -/
def endCall (setup : Setup) (slot : Slot) (id : FuncId) (count : UInt64) :
    Except Halt (Value × Nat) × Eval.World State → Except Halt Value × Eval.World State
  | (.error h, w) => (.error h, w)
  | (.ok (v, blocks), w) =>
    let wanted := wantedTier setup.config count blocks
    if slot.tier.rank < wanted.rank then
      match w.rest.request setup ⟨id, wanted⟩ with
      | (.ok (), rest) => (.ok v, { w with rest })
      | (.error c, rest) => (.error (.crash c), { w with rest })
    else (.ok v, w)

theorem endCall_forgets (setup : Setup) (slot : Slot) (begun : Ended)
    {out : Except Halt (Value × Nat) × Eval.World State}
    {out' : Except Halt (Value × Nat) × Eval.World Noted}
    (ended : forgetting.Matches (fun a b => b = a) out out') :
    forgetting.Matches (fun v v' => v' = v ∧ True)
      (endCall setup slot begun.function begun.count out) (endNoting setup slot begun out') := by
  cases ended with
  | left free => exact free.elim
  | right free => exact free.elim
  | error worlds _ =>
    cases worlds
    exact .error rfl trivial
  | @ok a _ u u' worlds related =>
    obtain ⟨v, blocks⟩ := a
    cases related
    cases worlds
    simp only [endCall, endNoting, forget]
    by_cases hotter : slot.tier.rank < (wantedTier setup.config begun.count blocks).rank
    · simp only [if_pos hotter]
      generalize u'.rest.state.request setup _ = asked
      obtain ⟨r, state⟩ := asked
      cases r with
      | ok => exact .ok rfl ⟨rfl, trivial⟩
      | error c => exact .error rfl trivial
    · simp only [if_neg hotter]
      exact .ok rfl ⟨rfl, trivial⟩

/-- A call whose function is found. -/
theorem execute_called {setup : Setup} {w : Eval.World State} (active : w.rest.closed = false)
    {p : Program} (program : w.rest.program = some p) {id : FuncId} {slot : Slot}
    (there : p.slot? id = some slot) (fuel depth : Nat) (args : List Value) :
    execute setup (fuel + 1) depth id args w =
      endCall setup slot id (w.rest.tracker.record id.num).1
        (runSlot setup p (execute setup fuel (depth + 1)) fuel depth slot id args
          { w with rest := { w.rest with tracker := (w.rest.tracker.record id.num).2 } }) := by
  simp only [execute, active, program, there, Bool.false_eq_true, if_false]
  rfl

theorem executeNoting_called {setup : Setup} {w : Eval.World Noted}
    (active : w.rest.state.closed = false) {p : Program} (program : w.rest.state.program = some p)
    {id : FuncId} {slot : Slot} (there : p.slot? id = some slot) (fuel depth : Nat)
    (args : List Value) : executeNoting setup (fuel + 1) depth id args w =
      endNoting setup slot (w.rest.begun setup slot id)
        (runSlotNoting setup p (executeNoting setup fuel (depth + 1)) fuel depth slot id args
          { w with rest := w.rest.counted id }) := by
  simp only [executeNoting, active, program, there, Bool.false_eq_true, if_false]

/-- A call that does not get to its function. -/
theorem executeNoting_cases (setup : Setup) (fuel depth : Nat) (id : FuncId) (args : List Value)
    (w : Eval.World Noted) :
    (∃ h, execute setup fuel depth id args (forget w) = (.error h, forget w) ∧
      executeNoting setup fuel depth id args w = (.error h, w)) ∨
    ∃ before p slot, fuel = before + 1 ∧ w.rest.state.closed = false ∧
      w.rest.state.program = some p ∧ p.slot? id = some slot := by
  cases fuel with
  | zero => exact .inl ⟨_, rfl, rfl⟩
  | succ fuel =>
    cases closed : w.rest.state.closed with
    | true =>
      refine .inl ⟨.other .closed, ?_, ?_⟩
      · simp only [execute, forget, closed, if_true]
      · simp only [executeNoting, closed, if_true]
    | false =>
      cases program : w.rest.state.program with
      | none =>
        refine .inl ⟨.other .noModule, ?_, ?_⟩
        · simp only [execute, forget, closed, program, Bool.false_eq_true, if_false]
        · simp only [executeNoting, closed, program, Bool.false_eq_true, if_false]
      | some p =>
        cases there : p.slot? id with
        | none =>
          refine .inl ⟨.other (.unknownFunction id), ?_, ?_⟩
          · simp only [execute, forget, closed, program, there, Bool.false_eq_true, if_false]
          · simp only [executeNoting, closed, program, there, Bool.false_eq_true, if_false]
        | some slot => exact .inr ⟨fuel, p, slot, rfl, rfl, rfl, there⟩

/-- Noting calls changes neither the session nor what a call gives. -/
theorem execute_forgets (setup : Setup) (fuel depth : Nat) (id : FuncId) (args : List Value)
    (w : Eval.World Noted) :
    forgetting.Matches (fun v v' => v' = v ∧ True) (execute setup fuel depth id args (forget w))
      (executeNoting setup fuel depth id args w) := by
  induction fuel generalizing depth id args w with
  | zero => exact .error rfl trivial
  | succ fuel ih =>
    rcases executeNoting_cases setup (fuel + 1) depth id args w with
      ⟨h, left, right⟩ | ⟨_, p, slot, same, active, program, there⟩
    · rw [left, right]
      exact .error rfl trivial
    · cases same
      have calls : Eval.CallsMatch forgetting (fun _ => True) (execute setup fuel (depth + 1))
          (executeNoting setup fuel (depth + 1)) := by
        rintro id args _ w rfl _
        exact ih (depth + 1) id args w
      rw [execute_called (w := forget w) active program there, executeNoting_called active program there]
      exact endCall_forgets setup slot (w.rest.begun setup slot id)
        (runSlot_forgets calls p fuel depth slot id args { w with rest := w.rest.counted id })

theorem world_forgets (setup : Setup) (fuel depth : Nat) (id : FuncId) (args : List Value)
    (w : Eval.World Noted) : (execute setup fuel depth id args (forget w)).2 =
      forget (executeNoting setup fuel depth id args w).2 := by
  have ended := execute_forgets setup fuel depth id args w
  revert ended
  generalize execute setup fuel depth id args (forget w) = out
  generalize executeNoting setup fuel depth id args w = out'
  intro ended
  cases ended with
  | left free => exact free.elim
  | right free => exact free.elim
  | ok worlds _ => exact worlds
  | error worlds _ => exact worlds

end Forgetting

/-- Code enters no block of the interpreter. -/
theorem runSlotNoting_native (setup : Setup) (p : Program) (call : Eval.Call Noted Error)
    (fuel depth : Nat) (slot : Slot) (id : FuncId) (args : List Value) (w : Eval.World Noted)
    (code : (slot.entry.isNone || setup.invoker.isNone) = false) (v : Value) (blocks : Nat)
    (returned : (runSlotNoting setup p call fuel depth slot id args w).1 = .ok (v, blocks)) :
    blocks = 0 := by
  unfold runSlotNoting at returned
  cases entry : slot.entry with
  | none => simp [entry] at code
  | some e =>
    cases invoker : setup.invoker with
    | none => simp [invoker] at code
    | some invoke =>
      simp only [entry, invoker] at returned
      obtain ⟨_, _, same⟩ := map_eq_ok.mp returned
      cases same
      rfl

/-- What begins with counting a call, takes in the calls that are made meanwhile and is finished by
the end of the call, a whole run of calls brings about. -/
theorem executeNoting_relates {setup : Setup} {R : Noted → Noted → Prop} (refl : ∀ n, R n n)
    (trans : ∀ {n u t}, R n u → R u t → R n t)
    (native : ∀ (n : Noted) (nativeCalls : Nat),
      R n (n.withState { n.state with nativeCalls }))
    (ends : ∀ (n u t : Noted) (id : FuncId) (slot : Slot) (r : Except Halt (Value × Nat)),
      n.state.closed = false → n.state.slot? id = some slot →
      ((n.begun setup slot id).interpreted = false → ∀ v blocks, r = .ok (v, blocks) → blocks = 0) →
      R (n.counted id) u → Ending setup slot (n.begun setup slot id) u r t → R n t)
    (fuel depth : Nat) (id : FuncId) (args : List Value) (w : Eval.World Noted) :
    R w.rest (executeNoting setup fuel depth id args w).2.rest := by
  induction fuel generalizing depth id args w with
  | zero => exact refl _
  | succ fuel ih =>
    rcases executeNoting_cases setup (fuel + 1) depth id args w with
      ⟨h, _, stopped⟩ | ⟨_, p, slot, same, active, program, there⟩
    · rw [stopped]
      exact refl _
    · cases same
      rw [executeNoting_called active program there]
      have found : w.rest.state.slot? id = some slot := by
        rw [State.slot?, program]
        exact there
      have interpreted : R (w.rest.counted id)
          (Eval.enter (evalSetup setup) p.module (executeNoting setup fuel (depth + 1)) fuel depth id
            args { w with rest := w.rest.counted id }).world.rest :=
        Eval.enter_keeps (fun id args w kept => trans kept (ih _ id args w)) fuel depth id args
          (w := { w with rest := w.rest.counted id }) (refl _)
      have ran : R (w.rest.counted id) (runSlotNoting setup p (executeNoting setup fuel (depth + 1))
          fuel depth slot id args { w with rest := w.rest.counted id }).2.rest := by
        unfold runSlotNoting
        cases slot.entry with
        | none => exact interpreted
        | some e =>
          cases setup.invoker with
          | none => exact interpreted
          | some invoke => exact native (w.rest.counted id) _
      have without := runSlotNoting_native setup p (executeNoting setup fuel (depth + 1)) fuel depth
        slot id args { w with rest := w.rest.counted id }
      revert ran without
      generalize runSlotNoting setup p _ fuel depth slot id args _ = out
      obtain ⟨r, u⟩ := out
      exact fun ran without => ends w.rest u.rest _ id slot r active found without ran
        (endNoting_ending setup slot _ r u)

/-- Calls one after the other. -/
def callAll (s : Session) (calls : List (FuncId × List Value)) : Session :=
  calls.foldl (fun s c => (s.call c.1 c.2).2) s

/-- Calls one after the other, with notes. -/
def noteAll (setup : Setup) (calls : List (FuncId × List Value)) (w : Eval.World Noted) :
    Eval.World Noted :=
  calls.foldl (fun w c => (executeNoting setup Eval.ampleFuel 0 c.1 c.2 w).2) w

/-- All calls, those of a caller and those that functions make, that end while calls are made one
after the other; the last one first. -/
def history (s : Session) (calls : List (FuncId × List Value)) : List Ended :=
  (noteAll s.setup calls { s.world with rest := ⟨s.state, []⟩ }).rest.calls

theorem noteAll_relates {setup : Setup} {R : Noted → Noted → Prop} (refl : ∀ n, R n n)
    (trans : ∀ {n u t}, R n u → R u t → R n t)
    (each : ∀ id args (w : Eval.World Noted),
      R w.rest (executeNoting setup Eval.ampleFuel 0 id args w).2.rest)
    (calls : List (FuncId × List Value)) (w : Eval.World Noted) :
    R w.rest (noteAll setup calls w).rest := by
  induction calls generalizing w with
  | nil => exact refl _
  | cons c calls ih => exact trans (each c.1 c.2 w) (ih _)

/-- A history is one of the session's calls. -/
theorem noteAll_forgets (calls : List (FuncId × List Value)) (s : Session) (w : Eval.World Noted)
    (same : s.world = forget w) :
    (s.callAll calls).world = forget (noteAll s.setup calls w) := by
  induction calls generalizing s w with
  | nil => exact same
  | cons c calls ih =>
    refine ih (s.call c.1 c.2).2 _ ?_
    show (execute s.setup Eval.ampleFuel 0 c.1 c.2 s.world).2 = _
    rw [same]
    exact world_forgets s.setup Eval.ampleFuel 0 c.1 c.2 w

section Numbers

open TieredEngine.Hotness

theorem count_grow (t : Tracker) (n i : Nat) : (t.grow n).count i = t.count i := by
  unfold Tracker.count Tracker.grow
  rw [Array.getElem?_append]
  split
  · rfl
  · next beyond =>
    rw [Array.getElem?_replicate, Array.getElem?_eq_none (Nat.le_of_not_lt beyond)]
    split <;> rfl

/-- Counting a call raises the counter of its function by one. -/
theorem record_spec (t : Tracker) (i : Nat) : (t.record i).1 = t.count i + 1 ∧
    ∀ j, (t.record i).2.count j = if i = j then t.count i + 1 else t.count j := by
  have number : (t.record i).1 = t.count i + 1 := congrArg (· + 1) (count_grow t (i + 1) i)
  refine ⟨number, fun j => ?_⟩
  have room : i < (t.grow (i + 1)).counts.size := by
    simp only [Tracker.grow, Array.size_append, Array.size_replicate]
    omega
  show ((t.grow (i + 1)).counts.setIfInBounds i (t.record i).1)[j]?.getD 0 = _
  rw [Array.getElem?_setIfInBounds, number, if_pos room]
  split
  · rfl
  · exact count_grow t (i + 1) j

/-- Calls of a function, the last one first. -/
def callsOf (id : FuncId) (calls : List Ended) : List Ended := calls.filter (·.function == id)

/-- The numbers that the calls of a function were given, those first that have ended. -/
def Noted.numbers (id : FuncId) (under : List UInt64) (n : Noted) : List UInt64 :=
  (callsOf id n.calls).map (·.count) ++ under

/-- The calls of a function were numbered from one on; those in the list are under way. -/
structure Noted.Numbered (id : FuncId) (under : List UInt64) (n : Noted) : Prop where
  total : n.state.tracker.count id.num = UInt64.ofNat (n.numbers id under).length
  each : (n.numbers id under).Perm
    ((List.range (n.numbers id under).length).map fun k => UInt64.ofNat (k + 1))

namespace Noted

variable {id x : FuncId} {under under' : List UInt64} {n n' u t : Noted}

theorem Numbered.of_perm (numbered : n.Numbered id under)
    (count : n'.state.tracker.count id.num = n.state.tracker.count id.num)
    (same : (n'.numbers id under').Perm (n.numbers id under)) : n'.Numbered id under' := by
  refine ⟨?_, ?_⟩
  · rw [count, numbered.total, same.length_eq]
  · rw [same.length_eq]
    exact same.trans numbered.each

/-- A call of the function that begins gets the next number. -/
theorem Numbered.begin (numbered : n.Numbered id under) (setup : Setup) (slot : Slot) :
    (n.counted id).Numbered id ((n.begun setup slot id).count :: under) := by
  obtain ⟨next, counts⟩ := record_spec n.state.tracker id.num
  have more : ((n.counted id).numbers id ((n.begun setup slot id).count :: under)).Perm
      ((n.begun setup slot id).count :: n.numbers id under) := List.perm_middle
  have number : (n.begun setup slot id).count =
      UInt64.ofNat ((n.numbers id under).length + 1) := by
    show (n.state.tracker.record id.num).1 = _
    rw [next, numbered.total, UInt64.ofNat_add]
    rfl
  refine ⟨?_, ?_⟩
  · show (n.state.tracker.record id.num).2.count id.num = _
    rw [counts, if_pos rfl, ← next, more.length_eq]
    exact number
  · rw [more.length_eq, List.length_cons, List.range_succ, List.map_append, List.map_singleton,
      ← number]
    exact more.trans ((numbered.each.cons _).trans (List.perm_append_singleton _ _).symm)

/-- A call of another function. -/
theorem Numbered.beginOther (numbered : n.Numbered id under) (other : x ≠ id) :
    (n.counted x).Numbered id under := by
  refine numbered.of_perm ?_ (List.Perm.refl _)
  show (n.state.tracker.record x.num).2.count id.num = _
  rw [(record_spec n.state.tracker x.num).2, if_neg fun same => other (FuncId.num_inj.mp same)]

/-- The notes on a call that ends are those that it began with and what became of it. -/
theorem ending_spec {setup : Setup} {slot : Slot} {begun : Ended}
    {r : Except Halt (Value × Nat)} (ended : Ending setup slot begun u r t) :
    t.state.tracker = u.state.tracker ∧ ∃ c, t.calls = c :: u.calls ∧
      c.function = begun.function ∧ c.count = begun.count := by
  cases ended with
  | stopped => exact ⟨rfl, _, rfl, rfl, rfl⟩
  | content => exact ⟨rfl, _, rfl, rfl, rfl⟩
  | asked => exact ⟨(State.request_aside setup u.state _).tracker, _, rfl, rfl, rfl⟩
  | crashed => exact ⟨(State.request_aside setup u.state _).tracker, _, rfl, rfl, rfl⟩

theorem numbered_call {setup : Setup} {slot : Slot} {r : Except Halt (Value × Nat)}
    (meanwhile : ∀ under, (n.counted x).Numbered id under → u.Numbered id under)
    (ended : Ending setup slot (n.begun setup slot x) u r t) (under : List UInt64)
    (numbered : n.Numbered id under) : t.Numbered id under := by
  obtain ⟨tracker, c, calls, function, count⟩ := ending_spec ended
  have function : c.function = x := function
  by_cases own : x = id
  · subst own
    refine (meanwhile _ (numbered.begin setup slot)).of_perm (by rw [tracker]) ?_
    unfold numbers callsOf
    rw [calls, List.filter_cons_of_pos (by simpa using function), List.map_cons, count]
    exact List.perm_middle.symm
  · refine (meanwhile _ (numbered.beginOther own)).of_perm (by rw [tracker]) ?_
    unfold numbers callsOf
    rw [calls, List.filter_cons_of_neg (by simpa [function] using own)]

end Noted

/-- Calls are numbered one after the other. -/
theorem noteAll_numbered {id : FuncId} {under : List UInt64} (setup : Setup)
    (calls : List (FuncId × List Value)) (w : Eval.World Noted)
    (numbered : w.rest.Numbered id under) : (noteAll setup calls w).rest.Numbered id under := by
  let Keeps (n n' : Noted) : Prop := ∀ under, n.Numbered id under → n'.Numbered id under
  have refl : ∀ n, Keeps n n := fun _ _ numbered => numbered
  have trans : ∀ {n u t}, Keeps n u → Keeps u t → Keeps n t := fun first second under numbered =>
    second under (first under numbered)
  have each : ∀ x args (w : Eval.World Noted),
      Keeps w.rest (executeNoting setup Eval.ampleFuel 0 x args w).2.rest := fun x args w =>
    executeNoting_relates refl trans (fun _ _ _ numbered => ⟨numbered.total, numbered.each⟩)
      (fun _ _ _ _ _ _ _ _ _ meanwhile ended => Noted.numbered_call meanwhile ended) _ 0 x args w
  exact noteAll_relates refl trans each calls w under numbered

end Numbers

end TieredEngine.Session
