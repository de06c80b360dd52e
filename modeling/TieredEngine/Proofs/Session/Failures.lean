import Mathlib.Algebra.Ring.Nat
import TieredEngine.Proofs.Session.Compiling
import TieredEngine.Session.StandIn
import TieredEngine.Session.Report

/-!
Failures of generators. A session remembers for each function the highest tier whose generator
failed, and grants no promotion to that tier or below. The tier that a promotion compiles for is not
always the target, though: where tiers without a generator lie between, the target stays above what
is remembered and the same generator is run again. Failures are remembered for good only below a
tier that has a generator.
-/
namespace TieredEngine.Session
open TieredEngine TieredEngine.Ir TieredEngine.Native

/-- The next tier has a generator. -/
def Setup.Followed (setup : Setup) (t : Tier) : Prop :=
  ∀ u : Tier, u.rank = t.rank + 1 → (setup.backendOf? u).isSome = true

/-- Above a tier with a generator every tier has one. -/
def Setup.Gapless (setup : Setup) : Prop :=
  ∀ t, (setup.backendOf? t).isSome = true → setup.Followed t

theorem Tier.exists_next {t u : Tier} (below : t.rank < u.rank) :
    ∃ v : Tier, v.rank = t.rank + 1 ∧ v.rank ≤ u.rank := by
  cases t with
  | interpreted => exact ⟨.baseline, rfl, below⟩
  | baseline => exact ⟨.standard, rfl, below⟩
  | standard => exact ⟨.optimized, rfl, below⟩
  | optimized => exact ⟨.maximum, rfl, below⟩
  | maximum => cases u <;> cases Nat.not_lt.mpr (by decide) below

/-- Where the next tier has a generator, a promotion compiles for its target. -/
theorem Setup.Followed.target {setup : Setup} {current target t : Tier} {b : Backend}
    (followed : setup.Followed t) (chosen : setup.backendFor current target = some (t, b)) :
    t = target := by
  obtain ⟨_, below, _, missing⟩ := Setup.backendFor_some chosen
  rcases Nat.lt_or_eq_of_le below with lower | same
  · obtain ⟨v, next, inside⟩ := Tier.exists_next lower
    have has := followed v next
    rw [missing v (by omega) inside] at has
    cases has
  · exact Tier.rank_inj same

namespace State

/-- How often the generator failed for a function and a tier. -/
def failuresOf (s : State) (id : FuncId) (t : Tier) : Nat :=
  s.attempts.countP fun a => a.function == id && a.tier == t && !a.succeeded

theorem failuresOf_cons (s : State) (a : Attempt) (id : FuncId) (t : Tier) :
    failuresOf { s with attempts := a :: s.attempts } id t =
      s.failuresOf id t + if a.function = id ∧ a.tier = t ∧ a.succeeded = false then 1 else 0 := by
  unfold failuresOf
  rw [List.countP_cons]
  simp [and_assoc]

theorem slot?_markFailed (s : State) (id : FuncId) (t : Tier) (x : FuncId) :
    (s.markFailed id t).slot? x =
      if x = id then (s.slot? x).map fun slot => { slot with failed := max slot.failed t.rank }
      else s.slot? x :=
  slot?_modifySlot s id _ x

/-- Failures are remembered, and not repeated where they are remembered for good. -/
structure Remembers (setup : Setup) (s : State) : Prop where
  recorded : ∀ id t, 0 < s.failuresOf id t → ∃ slot, s.slot? id = some slot ∧ t.rank ≤ slot.failed
  once : ∀ id t, setup.Followed t → s.failuresOf id t ≤ 1

/-- Nothing is forgotten when no failure is added and what is remembered of each function does not
fall. -/
theorem Remembers.grow {setup : Setup} {s s' : State} (remembers : s.Remembers setup)
    (same : ∀ id t, s'.failuresOf id t = s.failuresOf id t)
    (slots : ∀ id slot, s.slot? id = some slot →
      ∃ slot', s'.slot? id = some slot' ∧ slot.failed ≤ slot'.failed) : s'.Remembers setup := by
  refine ⟨fun id t some => ?_, fun id t followed => (same id t).symm ▸ remembers.once id t followed⟩
  obtain ⟨slot, there, high⟩ := remembers.recorded id t ((same id t) ▸ some)
  obtain ⟨slot', there', grown⟩ := slots id slot there
  exact ⟨slot', there', Nat.le_trans high grown⟩

theorem failed_markFailed (s : State) (id : FuncId) (t : Tier) (x : FuncId) (slot : Slot)
    (there : s.slot? x = some slot) :
    ∃ slot', (s.markFailed id t).slot? x = some slot' ∧ slot.failed ≤ slot'.failed := by
  rw [slot?_markFailed, there]
  split
  · exact ⟨_, rfl, Nat.le_max_left _ _⟩
  · exact ⟨slot, rfl, Nat.le_refl _⟩

theorem Remembers.move {setup : Setup} {s s' : State} (remembers : s.Remembers setup)
    (moves : Moves setup s s') : s'.Remembers setup := by
  cases moves with
  | still alike =>
    refine remembers.grow (fun id t => by rw [failuresOf, alike.attempts]; rfl) fun id slot there => ?_
    obtain ⟨slot', held, there', rfl⟩ := alike.symm.slot there
    exact ⟨slot', there', Nat.le_refl _⟩
  | @promoted slot job there due done =>
    have unchanged : ∀ a : Attempt, a.succeeded = true → ∀ id t,
        failuresOf { s with attempts := a :: s.attempts } id t = s.failuresOf id t := by
      intro a succeeded id t
      rw [failuresOf_cons, if_neg (by simp [succeeded]), Nat.add_zero]
    cases done with
    | unavailable => exact remembers.grow (fun _ _ => rfl) (failed_markFailed s _ _)
    | crashed => exact remembers
    | crashedInstalling a succeeded installing =>
      exact remembers.grow (unchanged a succeeded) fun _ slot there => ⟨slot, there, Nat.le_refl _⟩
    | uninstalled a succeeded installing e =>
      exact remembers.grow (unchanged a succeeded) fun _ slot there => ⟨slot, there, Nat.le_refl _⟩
    | @published _ _ _ a succeeded manager _ _ e _ _ _ _ =>
      refine remembers.grow (unchanged a succeeded) fun id slot there => ?_
      have lookup := slot?_modifySlot { s with attempts := a :: s.attempts, manager } job.function
        (fun slot => { slot with entry := some e, promotions := slot.promotions + 1 }) id
      change _ = if id = job.function then (s.slot? id).map _ else s.slot? id at lookup
      rw [there] at lookup
      split at lookup
      · exact ⟨_, lookup, Nat.le_refl _⟩
      · exact ⟨slot, lookup, Nat.le_refl _⟩
    | @refused tier backend chosen a own level =>
      -- the failure that is added is remembered at once
      have added := failuresOf_cons s a
      have marked := failed_markFailed
        { s with attempts := a :: s.attempts, failures := s.failures + 1 } job.function tier
      refine ⟨fun id t some => ?_, fun id t followed => ?_⟩
      · by_cases new : a.function = id ∧ a.tier = t ∧ a.succeeded = false
        · obtain ⟨rfl, rfl, _⟩ := new
          refine ⟨{ slot with failed := max slot.failed tier.rank }, ?_, ?_⟩
          · rw [slot?_markFailed, own, if_pos rfl]
            change (s.slot? job.function).map _ = _
            rw [there]
            rfl
          · rw [level]
            exact Nat.le_max_right _ _
        · have before : 0 < s.failuresOf id t := by
            have counted := added id t
            rw [if_neg new, Nat.add_zero] at counted
            exact counted ▸ some
          obtain ⟨slot', there', high⟩ := remembers.recorded id t before
          obtain ⟨slot'', there'', grown⟩ := marked id slot' there'
          exact ⟨slot'', there'', Nat.le_trans high grown⟩
      · show failuresOf { s with attempts := a :: s.attempts } id t ≤ 1
        rw [added]
        split
        · next new =>
          -- a failure before this one would have kept the promotion from being due
          obtain ⟨rfl, rfl, _⟩ := new
          have first : s.failuresOf a.function a.tier = 0 := by
            rcases Nat.eq_zero_or_pos (s.failuresOf a.function a.tier) with none | some
            · exact none
            · obtain ⟨slot', there', high⟩ := remembers.recorded _ _ some
              rw [own, there] at there'
              cases there'
              rw [level] at followed high
              have reached := followed.target chosen
              have untried := due.untried
              rw [← reached] at untried
              omega
          omega
        · exact remembers.once id t followed

/-- All that is remembered of the functions together. -/
def remembered (s : State) : Nat := (s.slots.map (·.failed)).sum

theorem sum_modify {α : Type} (g : α → Nat) (f : α → α) {l : List α} {i : Nat} {a : α}
    (there : l[i]? = some a) :
    ((l.modify i f).map g).sum + g a = (l.map g).sum + g (f a) := by
  induction l generalizing i with
  | nil => cases there
  | cons x l ih =>
    cases i with
    | zero =>
      cases there
      simp only [List.modify_zero_cons, List.map_cons, List.sum_cons]
      omega
    | succ i =>
      have rest := ih (i := i) there
      simp only [List.modify_succ_cons, List.map_cons, List.sum_cons]
      omega

theorem remembered_modifySlot {s : State} {id : FuncId} {slot : Slot} (f : Slot → Slot)
    (there : s.slot? id = some slot) :
    (s.modifySlot id f).remembered + slot.failed = s.remembered + (f slot).failed := by
  unfold remembered
  rw [slots_modifySlot]
  exact sum_modify (·.failed) f ((slot?_eq s id).symm.trans there)

/-- Until the code memory fails, every failure raises what is remembered. -/
theorem Moves.remembered {setup : Setup} {s s' : State} (gapless : setup.Gapless)
    (moves : Moves setup s s') (working : s'.failure = none) :
    s.failure = none ∧ s'.failures + s.remembered ≤ s.failures + s'.remembered := by
  cases moves with
  | still alike =>
    have same : s'.slots.map (·.failed) = s.slots.map (·.failed) := by
      simpa [Function.comp_def, Slot.idle] using congrArg (List.map (·.failed)) alike.slots
    have equal : s'.remembered = s.remembered := congrArg List.sum same
    refine ⟨alike.failure ▸ working, Nat.le_of_eq ?_⟩
    rw [alike.failures, equal]
  | @promoted slot job there due done =>
    have untried := due.untried
    cases done with
    | unavailable =>
      have marked := remembered_modifySlot
        (fun slot => { slot with failed := max slot.failed job.target.rank }) there
      dsimp only at marked
      refine ⟨working, ?_⟩
      show s.failures + _ ≤ s.failures + (s.modifySlot _ _).remembered
      omega
    | crashed => exact ⟨working, Nat.le_refl _⟩
    | @refused tier backend chosen a own level =>
      obtain ⟨_, _, has, _⟩ := Setup.backendFor_some chosen
      have reached : tier = job.target := (gapless tier (by rw [has]; rfl)).target chosen
      have marked := @remembered_modifySlot
        { s with attempts := a :: s.attempts, failures := s.failures + 1 } _ _
        (fun slot => { slot with failed := max slot.failed tier.rank }) there
      dsimp only at marked
      refine ⟨working, ?_⟩
      show s.failures + 1 + s.remembered ≤ s.failures + (State.modifySlot _ _ _).remembered
      rw [show State.remembered { s with attempts := a :: s.attempts, failures := s.failures + 1 } =
        s.remembered from rfl] at marked
      subst reached
      omega
    | crashedInstalling a succeeded installing => exact ⟨working, Nat.le_refl _⟩
    | uninstalled a succeeded installing e => cases working
    | @published _ _ _ a succeeded manager _ _ e _ _ _ _ =>
      have same := @remembered_modifySlot { s with attempts := a :: s.attempts, manager } _ _
        (fun slot => { slot with entry := some e, promotions := slot.promotions + 1 }) there
      dsimp only at same
      refine ⟨working, ?_⟩
      show s.failures + s.remembered ≤ s.failures + (State.modifySlot _ _ _).remembered
      rw [show State.remembered { s with attempts := a :: s.attempts, manager } = s.remembered
        from rfl] at same
      omega

/-- No tier above the highest is remembered, and nothing of functions without a body. -/
def Bounded (s : State) : Prop :=
  ∀ slot ∈ s.slots, slot.failed ≤ if slot.function.isExternal then 0 else 4

theorem Bounded.move {setup : Setup} {s s' : State} (bounded : s.Bounded)
    (moves : Moves setup s s') : s'.Bounded := by
  have updated : ∀ (t : State) (id : FuncId) (slot : Slot) (f : Slot → Slot), t.Bounded →
      t.slot? id = some slot →
      (f slot).failed ≤ (if (f slot).function.isExternal then 0 else 4) →
      (t.modifySlot id f).Bounded := by
    intro t id slot f bounded there fine x member
    rcases mem_modifySlot member with old | ⟨slot', there', rfl⟩
    · exact bounded x old
    · cases there.symm.trans there'
      exact fine
  cases moves with
  | still alike =>
    intro slot member
    obtain ⟨x, held, there, rfl⟩ := alike.mem member
    exact bounded x there
  | @promoted slot job there due done =>
    have high : ∀ t : Tier, max slot.failed t.rank ≤ 4 := by
      intro t
      have low := bounded slot (List.mem_of_getElem? ((slot?_eq s _).symm.trans there))
      rw [due.internal] at low
      cases t <;> simp only [Tier.rank] <;> simp at low <;> omega
    cases done with
    | unavailable => exact updated s _ slot _ bounded there (by simpa [due.internal] using high _)
    | crashed => exact bounded
    | @refused tier backend chosen a own level =>
      exact updated { s with attempts := a :: s.attempts, failures := s.failures + 1 } _ slot _
        bounded there (by simpa [due.internal] using high tier)
    | crashedInstalling a succeeded installing => exact bounded
    | uninstalled a succeeded installing e => exact bounded
    | @published _ _ _ a succeeded manager _ _ e _ _ _ _ =>
      exact updated { s with attempts := a :: s.attempts, manager } _ slot _ bounded there
        (bounded slot (List.mem_of_getElem? ((slot?_eq s _).symm.trans there)))

theorem Bounded.remembered_le {s : State} (bounded : s.Bounded) :
    s.remembered ≤ 4 * (s.slots.map (·.function)).countP (!·.isExternal) := by
  unfold State.remembered
  unfold Bounded at bounded
  generalize s.slots = slots at bounded
  induction slots with
  | nil => simp
  | cons slot slots ih =>
    obtain ⟨first, rest⟩ := List.forall_mem_cons.mp bounded
    have others := ih rest
    simp only [List.map_cons, List.sum_cons, List.countP_cons]
    cases external : slot.function.isExternal with
    | true =>
      rw [external, if_pos rfl] at first
      omega
    | false =>
      rw [external, if_neg (by simp)] at first
      rw [Bool.not_false, if_pos rfl]
      omega

end State

/-- A failed compilation is not repeated for a tier that the next one up has a generator for: in
every state of a session, the generator has failed at most once for each function and such a tier.
If this is so of every tier that has a generator, and the code memory does not fail, then there are
at most four failures for each function with a body. -/
theorem failures_remembered {setup : Setup} {heap : Heap} {s : Session}
    (started : start setup heap = .ok s) (m : Module) (turns : List Compiling.Turn)
    (ops : List Operation) :
    (∀ id t, setup.Followed t →
      ((s.register m turns).2.performAll ops).state.failuresOf id t ≤ 1) ∧
    (setup.Gapless → ((s.register m turns).2.performAll ops).state.failure = none →
      ((s.register m turns).2.performAll ops).statistics.failures ≤
        4 * m.functions.toList.countP (!·.isExternal)) := by
  have backends := backendOf?_start started
  obtain ⟨first, blank, reaches⟩ := reaches_of_start started m turns ops
  have functions := reaches.functions blank
  generalize ((s.register m turns).2.performAll ops) = last at reaches functions
  refine ⟨fun id t followed => ?_, fun gapless working => ?_⟩
  · have initial : first.Remembers s.setup := by
      have none : ∀ id t, first.failuresOf id t = 0 := fun id t => by
        simp [State.failuresOf, blank.attempts]
      exact ⟨fun id t some => absurd some (by simp [none]), fun id t _ => by simp [none]⟩
    have remembers := reaches.keeps (fun _ _ moves before => before.move moves) initial
    refine remembers.once id t fun u next => ?_
    rw [backends]
    exact followed u next
  · have gapless' : s.setup.Gapless := by
      intro t has u next
      rw [backends] at has ⊢
      exact gapless t has u next
    have empty : ∀ slot ∈ first.slots, slot.failed = 0 := by
      unfold State.slots
      cases present : first.program with
      | none => simp
      | some p => simp [(blank.program p present).2]
    have bounded : last.state.Bounded := by
      refine reaches.keeps (I := State.Bounded) (fun _ _ moves before => before.move moves) ?_
      intro slot member
      rw [empty slot member]
      exact Nat.zero_le _
    have counted : last.state.failure = none → last.state.failures ≤ last.state.remembered := by
      refine reaches.keeps (I := fun t => t.failure = none → t.failures ≤ t.remembered)
        (fun t u moves before working => ?_) (fun _ => by simp [blank.failures])
      obtain ⟨earlier, grown⟩ := moves.remembered gapless' working
      have := before earlier
      omega
    calc last.state.failures ≤ last.state.remembered := counted working
      _ ≤ 4 * (last.state.slots.map (·.function)).countP (!·.isExternal) := bounded.remembered_le
      _ ≤ 4 * m.functions.toList.countP (!·.isExternal) := by
        rcases functions with none | all
        · simp [none]
        · exact Nat.le_of_eq (by rw [all])

/-- Returns one. -/
def constantOne : Function := {
  name := "one"
  sig := { params := [], ret := .i32 }
  regTypes := #[.i32]
  blocks := #[
    some { id := ⟨0⟩, insts := [{ op := .const, dest := ⟨0⟩, ty := .i32, const := .ofInt .i32 1 }],
           term := .ret (some ⟨0⟩) }] }

/-- A session whose generator refuses the function, for the given tiers. -/
def refusing (tiers : List Tier) : Setup := {
  config := { thresholds := ⟨1, 2, 3, 4, 1⟩, startInterpreted := true, maxPromotions := 10,
              backends := some (tiers.map (·, "refusing")) }
  backends := [.standIn [("one", "refuse")] true "refusing"]
  invoker := some .standIn }

theorem failures_remembered_refusing : ∃ s, start (refusing Tier.compiled) (.ofPage 4096) = .ok s ∧
    ((s.register { functions := #[constantOne] }).2.performAll
      (List.replicate 10 (.call ⟨0⟩ []))).statistics.failures ≤ 4 := by
  have gapless : (refusing Tier.compiled).Gapless := by
    intro t _ u next
    cases u with
    | interpreted => cases next
    | _ => rfl
  obtain ⟨s, started⟩ : ∃ s, start (refusing Tier.compiled) (.ofPage 4096) = .ok s := ⟨_, rfl⟩
  have working : ((start (refusing Tier.compiled) (.ofPage 4096)).toOption.map fun s =>
      ((s.register { functions := #[constantOne] }).2.performAll
        (List.replicate 10 (.call ⟨0⟩ []))).state.failure) = some none := by decide +kernel
  rw [started] at working
  exact ⟨s, started, (failures_remembered started { functions := #[constantOne] } [] _).2 gapless
    (Option.some.inj working)⟩

/-- With a generator for the baseline tier alone, hot functions are compiled again at every call:
ten calls of one function, ten failures for one tier. -/
theorem refusing_baseline_fails_again :
    ((start (refusing [.baseline]) (.ofPage 4096)).toOption.map fun s =>
      let last := (s.register { functions := #[constantOne] }).2.performAll
        (List.replicate 10 (.call ⟨0⟩ []))
      (last.state.failuresOf ⟨0⟩ .baseline, last.statistics.failures, last.state.failure)) =
      some (10, 10, none) := by
  decide +kernel

end TieredEngine.Session
