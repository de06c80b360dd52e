import TieredEngine.Proofs.Session.Callers

/-!
A session and a caller that is alone. A session decides on a request and carries it out in one go;
the same comes out when one caller takes the steps of a promotion and no other is there. So what
holds of callers in any order holds of the requests of a session, which are callers one after the
other.
-/
namespace TieredEngine.Session
open TieredEngine TieredEngine.Ir TieredEngine.Native

/-- A state with the slot that its callers share. -/
structure State.Shares (s : State) (id : FuncId) (shared : Shared) : Prop where
  slot : s.slot? id = some shared.slot
  ended : s.failure.isSome = shared.ended
  closed : s.closed = shared.closed

namespace State.Shares

variable {s : State} {id : FuncId} {shared : Shared}

theorem modifySlot (shares : s.Shares id shared) (f : Slot → Slot) :
    (s.modifySlot id f).Shares id { shared with slot := f shared.slot } := by
  refine ⟨?_, shares.ended, shares.closed⟩
  rw [slot?_modifySlot, if_pos rfl, shares.slot]
  rfl

theorem acquire (shares : s.Shares id shared) :
    (s.acquire id).Shares id { shared with slot := { shared.slot with promoting := true } } :=
  let taken := shares.modifySlot ({ · with promoting := true })
  ⟨taken.slot, taken.ended, taken.closed⟩

theorem release (shares : s.Shares id shared) :
    (s.release id).Shares id { shared with slot := { shared.slot with promoting := false } } :=
  let given := shares.modifySlot ({ · with promoting := false })
  ⟨given.slot, given.ended, given.closed⟩

end State.Shares

namespace Callers

/-- A caller that is alone goes on; what comes of compiling is given. -/
def alone (setup : Setup) (made : Made) (steps : Nat) (s : Shared) (stage : Stage) : Callers :=
  run setup (List.replicate steps (.caller 0 (.advance made))) ⟨s, [stage]⟩

section Alone

variable (setup : Setup) (made : Made) (steps : Nat) (s : Shared)

theorem alone_step {s' : Shared} {stage next : Stage}
    (step : stage.advance setup s made = (s', next)) :
    alone setup made (steps + 1) s stage = alone setup made steps s' next := by
  have first : alone setup made (steps + 1) s stage =
      alone setup made steps (stage.advance setup s made).1 (stage.advance setup s made).2 := by
    cases stage <;> rfl
  rw [first, step]

theorem alone_idle : alone setup made steps s .idle = ⟨s, [.idle]⟩ := by
  induction steps with
  | zero => rfl
  | succ n ih => exact ih

/-- A check lets the caller go on, or ends its request. -/
theorem alone_check {stage next : Stage} {passes : Prop} [Decidable passes]
    (check : stage.advance setup s made = (s, if passes then next else .idle)) :
    alone setup made (steps + 1) s stage =
      if passes then alone setup made steps s next else ⟨s, [.idle]⟩ := by
  rw [alone_step setup made steps s check]
  split
  · rfl
  · exact alone_idle setup made steps s

/-- A caller that is alone takes the function if the function can be taken. -/
theorem alone_takes {t : Tier} (lower : s.slot.tier.rank < t.rank) :
    alone setup made (steps + 2) s (.higher t) =
      if s.slot.promoting = false then
        alone setup made steps { s with slot := { s.slot with promoting := true } } (.granted t)
      else ⟨s, [.idle]⟩ := by
  cases taken : s.slot.promoting with
  | false =>
    let held : Shared := { s with slot := { s.slot with promoting := true } }
    have takes : Stage.advance setup s made (.higher t) = (held, .holding t) := by
      simp [Stage.advance, taken, held]
    have granted : Stage.advance setup held made (.holding t) = (held, .granted t) := by
      have lower : held.slot.tier.rank < t.rank := lower
      simp [Stage.advance, lower]
    rw [alone_step setup made _ s takes, alone_step setup made _ held granted]
    rfl
  | true =>
    have gives : Stage.advance setup s made (.higher t) = (s, .idle) := by
      simp [Stage.advance, taken]
    rw [alone_step setup made _ s gives]
    exact alone_idle setup made (steps + 1) s

end Alone

/-- The checks of a caller that is alone pass when a session grants the promotion. -/
theorem alone_asks (setup : Setup) (made : Made) (steps : Nat) {s : State} {id : FuncId}
    {shared : Shared} (shares : s.Shares id shared) (target : Tier) :
    alone setup made (steps + 7) shared (.asked target) =
      if s.grants setup shared.slot target then
        alone setup made steps { shared with slot := { shared.slot with promoting := true } }
          (.granted target)
      else ⟨shared, [.idle]⟩ := by
  iterate 5 rw [alone_check setup made _ _ rfl]
  unfold State.grants
  rw [shares.closed, ← Option.not_isSome, shares.ended]
  by_cases lower : shared.slot.tier.rank < target.rank
  · rw [alone_takes setup made steps shared lower]
    simp only [lower, decide_true, Bool.and_true, Bool.and_eq_true, Bool.not_eq_true',
      decide_eq_true_eq, if_true, ite_and]
  · simp [lower]

end Callers

/-- Compiling and installing in a session is what a caller does that is alone. -/
theorem State.compileAndInstall_alone (setup : Setup) {s : State} {shared : Shared} {job : Job}
    (shares : s.Shares job.function shared) :
    ∃ made shared', (s.compileAndInstall setup shared.slot job).2.Shares job.function shared' ∧
      ∃ steps ≤ 4, ∀ more, Callers.alone setup made (more + steps) shared (.started job.target) =
        Callers.alone setup made more shared' .leaving := by
  unfold compileAndInstall
  split
  · next unavailable =>
    refine ⟨.refused, _, shares.modifySlot _, 1, by decide, fun more => ?_⟩
    refine Callers.alone_step setup .refused more shared ?_
    simp only [Stage.advance, unavailable]
  · next tier backend chosen =>
    have starts : ∀ made, Stage.advance setup shared made (.started job.target) =
        (shared, .compiling tier) := by
      intro made
      simp only [Stage.advance, chosen]
    have goes : ∀ made more, Callers.alone setup made (more + 1) shared (.started job.target) =
        Callers.alone setup made more shared (.compiling tier) := fun made more =>
      Callers.alone_step setup made more shared (starts made)
    have compiled := compile_cases s shared.slot job.function tier backend
    revert compiled
    generalize s.compile shared.slot job.function tier backend = out
    intro compiled
    cases compiled with
    | crashed c => exact ⟨.crashed, shared, shares, 2, by decide, fun more => goes _ _⟩
    | refused a own level =>
      refine ⟨.refused, _, State.Shares.modifySlot ?_ _, 2, by decide, fun more => goes _ _⟩
      exact ⟨shares.slot, shares.ended, shares.closed⟩
    | made a succeeded code convention built =>
      dsimp only
      generalize named : s!"{shared.slot.function.name}@{tier.name}" = name
      have kept := install_attempts s (a :: s.attempts) name code.code
      have installed : ∀ manager,
          { s with attempts := a :: s.attempts, manager : State }.Shares job.function shared :=
        fun _ => ⟨shares.slot, shares.ended, shares.closed⟩
      split
      · next out =>
        rw [out] at kept
        cases kept
        exact ⟨.crashed, shared, installed _, 2, by decide, fun more => goes _ _⟩
      · next e _ out =>
        rw [out] at kept
        cases kept
        refine ⟨.uninstalled, { shared with ended := true }, ⟨shares.slot, rfl, shares.closed⟩, 2,
          by decide, fun more => goes _ _⟩
      · next addr _ out =>
        rw [out] at kept
        cases kept
        let e : Entry := { tier, addr, convention, backend := backend.name, code := code.code
                           program := .ofBytes code.code }
        let switch (slot : Slot) : Slot :=
          { slot with entry := some e, promotions := slot.promotions + 1 }
        have published := (installed (s.install name code.code).2.manager).modifySlot switch
        exact ⟨.code e, _, ⟨published.slot, published.ended, published.closed⟩, 4, by decide,
          fun more => goes _ _⟩

/-- Carrying out a promotion in a session is what a caller does that is alone. -/
theorem State.promote_alone (setup : Setup) {s : State} {shared : Shared} {job : Job}
    (shares : s.Shares job.function shared) :
    ∃ made shared', (s.promote setup job).2.Shares job.function shared' ∧
      Callers.alone setup made 5 shared (.started job.target) = ⟨shared', [.idle]⟩ := by
  obtain ⟨made, shared', done, steps, few, goes⟩ := compileAndInstall_alone setup shares
  unfold State.promote
  rw [shares.slot]
  refine ⟨made, _, done.release, ?_⟩
  have left : 5 = 4 - steps + 1 + steps := by omega
  rw [left, goes, Callers.alone_step setup made (4 - steps) shared' rfl, Callers.alone_idle]

/-- A request that a session carries out at once is what a caller does that is alone. -/
theorem State.request_alone (setup : Setup) {s : State} {shared : Shared} {job : Job}
    (shares : s.Shares job.function shared) (sync : setup.config.background = false) :
    ∃ made shared', (s.request setup job).2.Shares job.function shared' ∧
      Callers.run setup
        (.caller 0 (.ask job.target) :: List.replicate 13 (.caller 0 (.advance made)))
        ⟨shared, [.idle]⟩ = ⟨shared', [.idle]⟩ := by
  have asks : ∀ made, Callers.run setup
      (.caller 0 (.ask job.target) :: List.replicate 13 (.caller 0 (.advance made)))
      ⟨shared, [.idle]⟩ = Callers.alone setup made (6 + 7) shared (.asked job.target) := by
    intro made
    unfold Callers.alone Callers.run
    rw [List.foldl_cons]
    rfl
  simp only [asks, Callers.alone_asks setup _ 6 shares]
  unfold State.request
  rw [shares.slot]
  dsimp only
  cases s.grants setup shared.slot job.target with
  | false => exact ⟨.refused, shared, shares, rfl⟩
  | true =>
    obtain ⟨made, shared', done, goes⟩ := promote_alone setup shares.acquire
    have starts : ∀ held : Shared, Stage.advance setup held made (.granted job.target) =
        (held, .started job.target) := by
      intro held
      simp [Stage.advance, sync]
    refine ⟨made, shared', ?_, ?_⟩
    · simpa [sync] using done
    · rw [if_pos rfl, Callers.alone_step setup made 5 _ (starts _)]
      exact goes

end TieredEngine.Session
