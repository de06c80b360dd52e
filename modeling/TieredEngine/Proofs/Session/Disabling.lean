import TieredEngine.Proofs.Session.Compiling
import TieredEngine.Session.StandIn
import TieredEngine.Session.Report

/-!
What is left of a session's promotions once the code memory has failed. No promotion is granted
after the failure, so a session that promotes at once changes no tier any more. Promotions that were
granted before and wait in the queue are not given up, though: draining carries them out, and one
that still finds room succeeds. The functions that can still rise are those that were queued when
the memory failed, each by one promotion.
-/
namespace TieredEngine.Session
open TieredEngine TieredEngine.Ir TieredEngine.Native

namespace State

/-- What can have happened to a session since its code memory had failed: jobs that were queued then
have been worked off, and have changed their own functions only. -/
structure Halted (failed s : State) : Prop where
  failure : s.failure = failed.failure
  worked : ∃ done, failed.queue = done ++ s.queue ∧ failed.promotions ≤ s.promotions ∧
    s.promotions ≤ failed.promotions + done.length ∧
    ∀ id, id ∉ done.map (·.function) → (s.slot? id).map Slot.tier = (failed.slot? id).map Slot.tier

theorem Halted.refl (s : State) : Halted s s :=
  ⟨rfl, [], rfl, Nat.le_refl _, Nat.le_refl _, fun _ _ => rfl⟩

/-- After a failure nothing is granted. -/
theorem request_of_failure {setup : Setup} {s : State} (failed : s.failure ≠ none) (job : Job) :
    (s.request setup job).2 = s := by
  unfold request
  split
  · rfl
  · next slot there =>
    have refused : s.grants setup slot job.target = false := by
      simp [grants, Option.isNone_iff_eq_none, failed]
    rw [refused]
    rfl

theorem Halted.request {setup : Setup} {failed s : State} (known : failed.failure ≠ none)
    (halted : Halted failed s) (job : Job) : Halted failed (s.request setup job).2 := by
  rw [request_of_failure (halted.failure ▸ known)]
  exact halted

/-- Working off a job that waited before the failure. -/
theorem Halted.workOff {setup : Setup} {failed s : State} (known : failed.failure ≠ none)
    (halted : Halted failed s) (count : Nat) : Halted failed (s.workOff setup count).2 := by
  induction count generalizing s with
  | zero => exact halted
  | succ count ih =>
    unfold State.workOff
    split
    · exact halted
    · next job rest queued =>
      obtain ⟨failure, low, high, queue, others⟩ := promote_counts setup { s with queue := rest } job
      obtain ⟨done, split, least, most, tiers⟩ := halted.worked
      have stopped : s.failure ≠ none := halted.failure ▸ known
      have next : Halted failed ({ s with queue := rest }.promote setup job).2 := by
        refine ⟨(failure stopped).trans halted.failure, done ++ [job], ?_, ?_, ?_, ?_⟩
        · rw [queue, split, queued, List.append_assoc]
          rfl
        · exact Nat.le_trans least low
        · rw [List.length_append, List.length_singleton]
          exact Nat.le_trans high (Nat.succ_le_succ most)
        · intro id absent
          rw [List.map_append, List.mem_append, not_or] at absent
          have other : id ≠ job.function := by
            rintro rfl
            exact absent.2 (List.mem_singleton_self _)
          rw [others id other]
          exact tiers id absent.1
      dsimp only
      split
      · exact ih next
      · exact next

/-- In a session that promotes at once nothing is ever queued. -/
theorem queue_request {setup : Setup} (sync : setup.config.background = false) {s : State} (job : Job) :
    (s.request setup job).2.queue = s.queue := by
  unfold request
  split
  · rfl
  · next slot _ =>
    split
    · rfl
    · rw [sync]
      exact (promote_counts setup (s.acquire job.function) job).2.2.2.1

end State

/-- What can be done with a session that has its module; a drain can end early. -/
inductive Step where
  | call (id : FuncId) (args : List Value)
  | drain (jobs : Nat)
  | tick (jobs : Nat)

def step (s : Session) : Step → Session
  | .call id args => (s.call id args).2
  | .drain jobs => (s.drainSome jobs).2
  | .tick jobs => (s.tick jobs).2

def stepAll (s : Session) (steps : List Step) : Session := steps.foldl step s

/-- A drain that ends after as many promotions as are queued leaves what a whole one leaves. -/
theorem drainSome_queue (s : Session) : (s.drainSome s.state.queue.length).2 = s.drain.2 := by
  unfold drainSome drain
  rw [State.workOff_queue]
  split
  · rfl
  · dsimp only
    split <;> rfl

/-- What requests and the queue keep is kept by every step, and no step changes the setup. -/
theorem stepAll_keeps {s : Session} {I : State → Prop}
    (aside : ∀ t tracker nativeCalls, I t → I { t with tracker, nativeCalls })
    (request : ∀ t job, I t → I (t.request s.setup job).2)
    (workOff : ∀ t count, I t → I (t.workOff s.setup count).2) (steps : List Step)
    (held : I s.state) : (s.stepAll steps).setup = s.setup ∧ I (s.stepAll steps).state := by
  induction steps generalizing s with
  | nil => exact ⟨rfl, held⟩
  | cons first rest ih =>
    have next : (s.step first).setup = s.setup ∧ I (s.step first).state := by
      cases first with
      | call id args => exact ⟨rfl, execute_keeps aside request Eval.ampleFuel 0 id args held⟩
      | drain jobs =>
        have worked := workOff s.state jobs held
        simp only [step, drainSome]
        split
        · exact ⟨rfl, held⟩
        · split
          all_goals
            next same =>
            rw [same] at worked
            exact ⟨rfl, worked⟩
      | tick jobs =>
        simp only [step, tick]
        split
        · exact ⟨rfl, workOff s.state jobs held⟩
        · exact ⟨rfl, held⟩
    obtain ⟨setup, held⟩ := next
    obtain ⟨later, kept⟩ := @ih (s.step first) (setup ▸ request) (setup ▸ workOff) held
    exact ⟨later.trans setup, kept⟩

theorem queue_register (s : Session) (m : Module) (turns : List Compiling.Turn) :
    (s.register m turns).2.setup = s.setup ∧ (s.register m turns).2.state.queue = s.state.queue := by
  have outcome := register_cases s m turns
  revert outcome
  generalize s.register m turns = out
  intro outcome
  cases outcome with
  | refused reason => exact ⟨rfl, rfl⟩
  | crashed c => exact ⟨rfl, rfl⟩
  | interpreted takes lazily => exact ⟨rfl, rfl⟩
  | @compiled globals takes eagerly r state ran =>
    have kept := State.queue_compileAll s.setup turns (atOnce m) (s.published m globals).state
    rw [ran] at kept
    exact ⟨rfl, kept⟩

/-- In a session that promotes at once nothing waits. -/
theorem queue_of_sync {setup : Setup} {heap : Heap} {s : Session}
    (started : start setup heap = .ok s) (sync : setup.config.background = false) (m : Module)
    (turns : List Compiling.Turn) (steps : List Step) :
    ((s.register m turns).2.stepAll steps).state.queue = [] := by
  obtain ⟨_, _, same⟩ := bind_eq_ok.mp started
  have sync : s.setup.config.background = false := by
    cases same
    exact sync
  have empty : s.state.queue = [] := by
    cases same
    rfl
  obtain ⟨kept, queue⟩ := queue_register s m turns
  have sync : (s.register m turns).2.setup.config.background = false := kept ▸ sync
  refine (stepAll_keeps (I := fun t => t.queue = []) (fun _ _ _ none => none) (fun t job none => ?_)
    (fun t count none => ?_) steps (queue.trans empty)).2
  · rw [State.queue_request sync, none]
  · cases count with
    | zero => exact none
    | succ count =>
      unfold State.workOff
      rw [none]
      exact none

theorem halted_stepAll {s : Session} (failed : s.state.failure ≠ none) (steps : List Step) :
    s.state.Halted (s.stepAll steps).state :=
  (stepAll_keeps (I := s.state.Halted) (fun _ _ _ halted => ⟨halted.failure, halted.worked⟩)
    (fun _ job halted => halted.request failed job)
    (fun _ count halted => halted.workOff failed count) steps (State.Halted.refl _)).2

/-- When nothing waits, a failure of the code memory is the end of all promotions. -/
theorem unchanged_of_failure {s : Session} (failed : s.state.failure ≠ none)
    (idle : s.state.queue = []) (steps : List Step) :
    (s.stepAll steps).state.failure = s.state.failure ∧
      ∀ id, (s.stepAll steps).tierOf id = s.tierOf id := by
  obtain ⟨failure, done, queued, _, _, tiers⟩ := halted_stepAll failed steps
  obtain ⟨rfl, _⟩ := List.append_eq_nil_iff.mp (queued.symm.trans idle)
  refine ⟨failure, fun id => ?_⟩
  unfold tierOf
  rw [tiers id List.not_mem_nil]

/-- Once the code memory of a session has failed, the failure stays and no promotion is granted any
more. A session that promotes at once changes no tier and counts no promotion from then on. Where
promotions are queued, those that waited when the memory failed are still carried out: no other
function changes its tier, and there are no more promotions than jobs that have been worked off. -/
theorem failure_ends_promotions {setup : Setup} {heap : Heap} {s : Session}
    (started : start setup heap = .ok s) (m : Module) (turns : List Compiling.Turn)
    (before after : List Step)
    (failed : ((s.register m turns).2.stepAll before).state.failure ≠ none) :
    let t := (s.register m turns).2.stepAll before
    let u := t.stepAll after
    u.state.failure = t.state.failure ∧
    (setup.config.background = false → (∀ id, u.tierOf id = t.tierOf id) ∧
      u.statistics.promotions = t.statistics.promotions) ∧
    ∃ done, t.state.queue = done ++ u.state.queue ∧
      (∀ id, id ∉ done.map (·.function) → u.tierOf id = t.tierOf id) ∧
      t.statistics.promotions ≤ u.statistics.promotions ∧
      u.statistics.promotions ≤ t.statistics.promotions + done.length := by
  intro t u
  obtain ⟨failure, done, queued, least, most, tiers⟩ := halted_stepAll failed after
  have unchanged : ∀ id, id ∉ done.map (·.function) → u.tierOf id = t.tierOf id := by
    intro id absent
    unfold tierOf
    rw [tiers id absent]
  refine ⟨failure, fun sync => ?_, done, queued, unchanged, least, most⟩
  have none : done = [] := (List.append_eq_nil_iff.mp
    (queued.symm.trans (queue_of_sync started sync m turns before))).1
  subst none
  exact ⟨fun id => unchanged id (List.not_mem_nil), Nat.le_antisymm most least⟩

/-- A function with nothing to do. -/
def idle (name : String) (number : UInt32) : Function :=
  { name, id := ⟨number⟩, blocks := #[some { id := ⟨0⟩, term := .ret none }] }

/-- A session with room for two words of code, for all tiers. -/
def cramped (background : Bool) : Setup := {
  config := { thresholds := ⟨1, 2, 3, 4, 1⟩, startInterpreted := true, maxPromotions := 10,
              background, checkInterval := 1, regionSize := 16
              backends := some (Tier.compiled.map (·, "made")) }
  backends := [.standIn [] true "made"]
  invoker := some .standIn }

/-- Code of the first function needs more room than there is, code of the second one does not. -/
def crowd : Module := { functions := #[idle "needsMoreThanThereIs" 0, idle "small" 1] }

theorem failure_ends_promotions_crowd :
    ∃ s, start (cramped false) { Heap.ofPage 16 with limit := 32 } = .ok s ∧
      let t := (s.register crowd).2.stepAll [.call ⟨0⟩ []]
      t.state.failure ≠ none ∧ ∀ id, (t.stepAll [.call ⟨1⟩ [], .drain 1]).tierOf id = t.tierOf id := by
  obtain ⟨s, started⟩ :
      ∃ s, start (cramped false) { Heap.ofPage 16 with limit := 32 } = .ok s := ⟨_, rfl⟩
  have failed : ((start (cramped false) { Heap.ofPage 16 with limit := 32 }).toOption.map fun s =>
      ((s.register crowd).2.stepAll [.call ⟨0⟩ []]).state.failure.isSome) = some true := by
    decide +kernel
  rw [started] at failed
  have failed := Option.isSome_iff_ne_none.mp (Option.some.inj failed)
  exact ⟨s, started, failed, ((failure_ends_promotions started crowd [] [.call ⟨0⟩ []]
    [.call ⟨1⟩ [], .drain 1] failed).2.1 rfl).1⟩

/-- A promotion that waits outlives the failure: when the first of two queued promotions has failed
for want of memory and nothing has been promoted, draining further promotes the second function. One
drain of the whole queue does the same. -/
theorem queued_promotion_outlives_failure :
    ((start (cramped true) { Heap.ofPage 16 with limit := 32 }).toOption.map fun s =>
      let queued := (s.register crowd).2.stepAll [.call ⟨0⟩ [], .call ⟨1⟩ []]
      let t := queued.stepAll [.drain 1]
      let u := t.stepAll [.drain 1]
      ((t.state.failure.isSome, t.statistics.promotions, t.tierOf ⟨1⟩),
        (u.statistics.promotions, u.tierOf ⟨1⟩),
        (queued.drain.2.state.failure.isSome, queued.drain.2.statistics.promotions))) =
      some ((true, 0, .interpreted), (1, .baseline), (true, 1)) := by
  decide +kernel

end TieredEngine.Session
