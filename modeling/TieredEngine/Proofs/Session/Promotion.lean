import Mathlib.Logic.Relation
import TieredEngine.Proofs.Eval.Entering
import TieredEngine.Session.Run

/-!
What happens to the state of a session. Whatever a session does, its state changes in two ways only:
by bookkeeping, which leaves everything that promotions decide as it is, and by carrying out a
promotion that is due. A promotion is due when the function is below the target and nothing that
failed is as high as the target; queued promotions stay due until they are carried out, since a
function is held by one promotion at a time.
-/
namespace TieredEngine.Session
open TieredEngine TieredEngine.Ir TieredEngine.Native

theorem Tier.rank_inj {t u : Tier} (same : t.rank = u.rank) : t = u := by
  cases t <;> cases u <;> first | rfl | cases same

/-- The generator that is chosen is the one for the highest tier that has one. -/
theorem Setup.backendFor_some {setup : Setup} {current target t : Tier} {b : Backend}
    (chosen : setup.backendFor current target = some (t, b)) :
    current.rank < t.rank ∧ t.rank ≤ target.rank ∧ setup.backendOf? t = some b ∧
      ∀ u, t.rank < u.rank → u.rank ≤ target.rank → setup.backendOf? u = none := by
  obtain ⟨higher, x, lower, split, made, missing⟩ := List.findSome?_eq_some_iff.mp chosen
  obtain ⟨b', has, same⟩ := Option.map_eq_some_iff.mp made
  cases same
  have candidate : ∀ u, u ∈ higher ++ t :: lower ↔ current.rank < u.rank ∧ u.rank ≤ target.rank := by
    intro u
    rw [← split, List.mem_reverse, List.mem_filter]
    have all : u ∈ Tier.all := by cases u <;> decide
    simp [all]
  have descending : (higher ++ t :: lower).Pairwise fun u v => v.rank < u.rank := by
    rw [← split, List.pairwise_reverse]
    exact List.Pairwise.filter _ (by decide)
  obtain ⟨above, below⟩ := (candidate t).mp (by simp)
  refine ⟨above, below, has, fun u higherRank inside => ?_⟩
  have member := (candidate u).mpr ⟨by omega, inside⟩
  rcases List.mem_append.mp member with early | late
  · simpa using missing u early
  · rcases List.mem_cons.mp late with rfl | later
    · omega
    · have order := List.rel_of_pairwise_cons (List.pairwise_append.mp descending).2.1 later
      omega

/-- A slot whatever promotion holds it. -/
def Slot.idle (slot : Slot) : Slot := { slot with promoting := false }

/-- A promotion to the target can be carried out. -/
structure Slot.Due (slot : Slot) (target : Tier) : Prop where
  internal : slot.function.isExternal = false
  untried : slot.failed < target.rank
  higher : slot.tier.rank < target.rank

/-- Code is what the generator makes of the function after the optimisations of a tier. -/
structure Slot.Built (slot : Slot) (tier : Tier) (backend : Backend) (code : CompiledCode)
    (convention : Convention) : Prop where
  made : ∃ done, (Pass.Pipeline.forLevel tier.optLevel).runFunction slot.function {} = .ok done ∧
    backend.compile done.function = .ok code
  convention : code.convention = some convention ∨
    code.convention = none ∧ Convention.ofSignature slot.function.sig = .ok convention

namespace State

/-- Slots of the functions, in their order. -/
def slots (s : State) : List Slot := (s.program.map (·.slots.toList)).getD []

theorem slot?_eq (s : State) (id : FuncId) : s.slot? id = s.slots[id.num]? := by
  unfold slot? slots Program.slot?
  cases s.program with
  | none => rfl
  | some p => simp

theorem slots_modifySlot (s : State) (id : FuncId) (f : Slot → Slot) :
    (s.modifySlot id f).slots = s.slots.modify id.num f := by
  unfold slots modifySlot Program.modifySlot
  cases s.program with
  | none => simp
  | some p => simp

theorem slot?_modifySlot (s : State) (id : FuncId) (f : Slot → Slot) (x : FuncId) :
    (s.modifySlot id f).slot? x = if x = id then (s.slot? x).map f else s.slot? x := by
  rw [slot?_eq, slots_modifySlot, List.getElem?_modify, ← slot?_eq]
  by_cases same : x = id
  · subst same
    simp
  · have different : ¬ id.num = x.num := fun equal => same (FuncId.num_inj.mp equal.symm)
    simp [same, different]

theorem mem_modifySlot {s : State} {id : FuncId} {f : Slot → Slot} {x : Slot}
    (member : x ∈ (s.modifySlot id f).slots) :
    x ∈ s.slots ∨ ∃ slot, s.slot? id = some slot ∧ x = f slot := by
  rw [slots_modifySlot] at member
  obtain ⟨n, at_n⟩ := List.mem_iff_getElem?.mp member
  rw [List.getElem?_modify] at at_n
  obtain ⟨slot, at_slot, rfl⟩ := Option.map_eq_some_iff.mp at_n
  by_cases same : id.num = n
  · subst same
    exact .inr ⟨slot, (slot?_eq s id).trans at_slot, by simp⟩
  · simpa [same] using Or.inl (List.mem_of_getElem? at_slot)

/-- A change of one slot does not show in what it keeps. -/
theorem map_modifySlot {α : Type} {g : Slot → α} (s : State) (id : FuncId) {f : Slot → Slot}
    (keeps : ∀ slot, g (f slot) = g slot) : (s.modifySlot id f).slots.map g = s.slots.map g := by
  rw [slots_modifySlot]
  apply List.ext_getElem?
  intro n
  simp only [List.getElem?_map, List.getElem?_modify]
  cases s.slots[n]? with
  | none => rfl
  | some slot =>
    by_cases same : id.num = n
    · simp [same, keeps]
    · simp [same]

/-- States that differ in nothing that promotions decide. -/
structure Alike (s s' : State) : Prop where
  module : s'.program.map (·.module) = s.program.map (·.module)
  slots : s'.slots.map Slot.idle = s.slots.map Slot.idle
  manager : s'.manager = s.manager
  attempts : s'.attempts = s.attempts
  failures : s'.failures = s.failures
  failure : s'.failure = s.failure
  closed : s'.closed = s.closed

theorem Alike.refl (s : State) : s.Alike s := ⟨rfl, rfl, rfl, rfl, rfl, rfl, rfl⟩

theorem Alike.trans {s t u : State} (first : s.Alike t) (second : t.Alike u) : s.Alike u :=
  ⟨second.module.trans first.module, second.slots.trans first.slots,
    second.manager.trans first.manager, second.attempts.trans first.attempts,
    second.failures.trans first.failures, second.failure.trans first.failure,
    second.closed.trans first.closed⟩

/-- Holding a function for a promotion, or giving it back. -/
theorem alike_hold (s : State) (id : FuncId) (held : Bool) (inflight : Nat) :
    s.Alike { s.modifySlot id ({ · with promoting := held }) with inflight } := by
  refine ⟨?_, ?_, rfl, rfl, rfl, rfl, rfl⟩
  · show (s.program.map _).map _ = _
    cases s.program <;> rfl
  · show (s.modifySlot id ({ · with promoting := held })).slots.map Slot.idle = _
    exact map_modifySlot s id fun _ => rfl

theorem alike_acquire (s : State) (id : FuncId) : s.Alike (s.acquire id) := alike_hold s id true _

theorem alike_release (s : State) (id : FuncId) : s.Alike (s.release id) := alike_hold s id false _

theorem eq_of_idle {slot slot' : Slot} (same : slot'.idle = slot.idle) :
    slot' = { slot with promoting := slot'.promoting } := by
  obtain ⟨function, entry, promoting, failed, promotions⟩ := slot
  obtain ⟨function', entry', promoting', failed', promotions'⟩ := slot'
  cases same
  rfl

/-- Slots of states that are alike differ in who holds them only. -/
theorem Alike.slot {s s' : State} (alike : s.Alike s') {id : FuncId} {slot' : Slot}
    (there : s'.slot? id = some slot') :
    ∃ slot held, s.slot? id = some slot ∧ slot' = { slot with promoting := held } := by
  have same := congrArg (fun slots : List Slot => slots[id.num]?) alike.slots
  simp only [List.getElem?_map, ← slot?_eq, there, Option.map_some] at same
  obtain ⟨slot, found, equal⟩ := Option.map_eq_some_iff.mp same.symm
  exact ⟨slot, _, found, eq_of_idle equal.symm⟩

theorem Alike.mem {s s' : State} (alike : s.Alike s') {slot' : Slot} (member : slot' ∈ s'.slots) :
    ∃ slot held, slot ∈ s.slots ∧ slot' = { slot with promoting := held } := by
  obtain ⟨slot, there, idle⟩ := List.mem_map.mp
    (alike.slots ▸ List.mem_map_of_mem (f := Slot.idle) member)
  exact ⟨slot, _, there, eq_of_idle idle.symm⟩

theorem Alike.symm {s s' : State} (alike : s.Alike s') : s'.Alike s :=
  ⟨alike.module.symm, alike.slots.symm, alike.manager.symm, alike.attempts.symm,
    alike.failures.symm, alike.failure.symm, alike.closed.symm⟩

/-- The code memory after an attempt to install something. -/
def Installing (s : State) (manager : Manager) : Prop :=
  ∃ name code, (s.install name code).2.manager = manager

/-- Everything that a promotion can do, up to giving the function back. -/
inductive Promoted (setup : Setup) (s : State) (slot : Slot) (job : Job) : State → Prop where
  /-- No tier up to the target has a generator. -/
  | unavailable : Promoted setup s slot job (s.markFailed job.function job.target)
  | crashed : Promoted setup s slot job s
  | refused {tier : Tier} {backend : Backend}
      (chosen : setup.backendFor slot.tier job.target = some (tier, backend)) (a : Attempt)
      (own : a.function = job.function) (level : a.tier = tier) :
      Promoted setup s slot job
        ({ s with attempts := a :: s.attempts, failures := s.failures + 1 }.markFailed
          job.function tier)
  | crashedInstalling (a : Attempt) (succeeded : a.succeeded = true) {manager : Manager}
      (installing : Installing s manager) :
      Promoted setup s slot job { s with attempts := a :: s.attempts, manager }
  | uninstalled (a : Attempt) (succeeded : a.succeeded = true) {manager : Manager}
      (installing : Installing s manager) (e : InstallFailure) :
      Promoted setup s slot job
        ({ s with attempts := a :: s.attempts, manager, failures := s.failures + 1 }.disable e)
  | published {tier : Tier} {backend : Backend}
      (chosen : setup.backendFor slot.tier job.target = some (tier, backend)) (a : Attempt)
      (succeeded : a.succeeded = true) {manager : Manager} (installing : Installing s manager)
      {code : CompiledCode} (e : Entry)
      (built : slot.Built tier backend code e.convention) (level : e.tier = tier)
      (bytes : e.code = code.code) (program : e.program = .ofBytes code.code) :
      Promoted setup s slot job
        ({ s with attempts := a :: s.attempts, manager }.publish job.function e)

/-- Installing changes the code memory only, and does not depend on anything else. -/
theorem install_attempts (s : State) (attempts : List Attempt) (name : String) (code : List UInt8) :
    (install { s with attempts } name code).2 =
      { s with attempts, manager := (s.install name code).2.manager } := by
  unfold install
  dsimp only
  split
  · rfl
  · split
    · rfl
    · rfl
    · split <;> rfl

/-- What comes of running a generator. -/
inductive Compiled (s : State) (slot : Slot) (id : FuncId) (tier : Tier) (backend : Backend) :
    Except Crash (Option (CompiledCode × Convention)) × State → Prop where
  | crashed (c : Crash) : Compiled s slot id tier backend (.error c, s)
  | refused (a : Attempt) (own : a.function = id) (level : a.tier = tier) :
      Compiled s slot id tier backend (.ok none, { s with attempts := a :: s.attempts })
  | made (a : Attempt) (succeeded : a.succeeded = true) (code : CompiledCode)
      (convention : Convention) (built : slot.Built tier backend code convention) :
      Compiled s slot id tier backend
        (.ok (some (code, convention)), { s with attempts := a :: s.attempts })

theorem compile_cases (s : State) (slot : Slot) (id : FuncId) (tier : Tier) (backend : Backend) :
    Compiled s slot id tier backend (s.compile slot id tier backend) := by
  unfold compile
  split
  · exact .crashed _
  · next done optimised =>
    dsimp only
    split
    · exact .crashed _
    · exact .refused _ rfl rfl
    · next code made =>
      split
      · next convention chosen =>
        exact .made _ rfl code convention ⟨⟨done, optimised, made⟩, .inl chosen⟩
      · next absent =>
        split
        · next convention placed =>
          exact .made _ rfl code convention ⟨⟨done, optimised, made⟩, .inr ⟨absent, placed⟩⟩
        · exact .refused _ rfl rfl

theorem compileAndInstall_promoted (setup : Setup) (s : State) (slot : Slot) (job : Job) :
    Promoted setup s slot job (s.compileAndInstall setup slot job).2 := by
  unfold compileAndInstall
  split
  · exact .unavailable
  · next tier backend chosen =>
    have compiled := compile_cases s slot job.function tier backend
    revert compiled
    generalize s.compile slot job.function tier backend = out
    intro compiled
    cases compiled with
    | crashed c => exact .crashed
    | refused a own level => exact .refused chosen a own level
    | made a succeeded code convention built =>
      dsimp only
      generalize named : s!"{slot.function.name}@{tier.name}" = name
      have kept := install_attempts s (a :: s.attempts) name code.code
      have installing : Installing s (s.install name code.code).2.manager := ⟨name, code.code, rfl⟩
      split
      · next installed =>
        rw [installed] at kept
        cases kept
        exact .crashedInstalling a succeeded installing
      · next e _ installed =>
        rw [installed] at kept
        cases kept
        exact .uninstalled a succeeded installing e
      · next installed =>
        rw [installed] at kept
        cases kept
        exact .published chosen a succeeded installing _ built rfl rfl rfl

/-- States that differ in one slot, and not in the queue. -/
def Apart (id : FuncId) (s s' : State) : Prop :=
  s'.queue = s.queue ∧ ∀ x, x ≠ id → s'.slot? x = s.slot? x

theorem Apart.trans {id : FuncId} {s t u : State} (first : Apart id s t) (second : Apart id t u) :
    Apart id s u :=
  ⟨second.1.trans first.1, fun x other => (second.2 x other).trans (first.2 x other)⟩

theorem apart_modifySlot (s : State) (id : FuncId) (f : Slot → Slot) :
    Apart id s (s.modifySlot id f) :=
  ⟨rfl, fun x other => by rw [slot?_modifySlot, if_neg other]⟩

theorem apart_acquire (s : State) (id : FuncId) : Apart id s (s.acquire id) :=
  ⟨rfl, (apart_modifySlot s id _).2⟩

theorem apart_release (s : State) (id : FuncId) : Apart id s (s.release id) :=
  ⟨rfl, (apart_modifySlot s id _).2⟩

theorem Promoted.apart {setup : Setup} {s s' : State} {slot : Slot} {job : Job}
    (promoted : Promoted setup s slot job s') : Apart job.function s s' := by
  cases promoted with
  | unavailable => exact apart_modifySlot s job.function _
  | crashed => exact ⟨rfl, fun _ _ => rfl⟩
  | refused chosen a own level =>
    exact apart_modifySlot { s with attempts := a :: s.attempts, failures := s.failures + 1 }
      job.function _
  | crashedInstalling a succeeded installing => exact ⟨rfl, fun _ _ => rfl⟩
  | uninstalled a succeeded installing e => exact ⟨rfl, fun _ _ => rfl⟩
  | @published _ _ _ a _ manager _ _ e _ _ _ _ =>
    exact apart_modifySlot { s with attempts := a :: s.attempts, manager } job.function _

/-- A promotion that is carried out keeps a failure, and promotes once at most. -/
theorem Promoted.counts {setup : Setup} {s s' : State} {slot : Slot} {job : Job}
    (promoted : Promoted setup s slot job s') :
    (s.failure ≠ none → s'.failure = s.failure) ∧ s.promotions ≤ s'.promotions ∧
      s'.promotions ≤ s.promotions + 1 := by
  cases promoted with
  | unavailable => exact ⟨fun _ => rfl, Nat.le_refl _, Nat.le_succ _⟩
  | crashed => exact ⟨fun _ => rfl, Nat.le_refl _, Nat.le_succ _⟩
  | refused => exact ⟨fun _ => rfl, Nat.le_refl _, Nat.le_succ _⟩
  | crashedInstalling => exact ⟨fun _ => rfl, Nat.le_refl _, Nat.le_succ _⟩
  | uninstalled a succeeded installing e =>
    refine ⟨fun failed => ?_, Nat.le_refl _, Nat.le_succ _⟩
    obtain ⟨first, known⟩ := Option.ne_none_iff_exists'.mp failed
    show some (s.failure.getD e) = s.failure
    rw [known]
    rfl
  | published => exact ⟨fun _ => rfl, Nat.le_succ _, Nat.le_refl _⟩

/-- A promotion changes its own slot only, and not the queue. -/
theorem promote_counts (setup : Setup) (s : State) (job : Job) :
    (s.failure ≠ none → (s.promote setup job).2.failure = s.failure) ∧
      s.promotions ≤ (s.promote setup job).2.promotions ∧
      (s.promote setup job).2.promotions ≤ s.promotions + 1 ∧
      Apart job.function s (s.promote setup job).2 := by
  unfold promote
  split
  · exact ⟨fun _ => rfl, Nat.le_refl _, Nat.le_succ _, rfl, fun _ _ => rfl⟩
  · next slot _ =>
    have done := compileAndInstall_promoted setup s slot job
    obtain ⟨failure, low, high⟩ := done.counts
    exact ⟨failure, low, high, done.apart.trans (apart_release _ _)⟩

/-- To work off the whole queue is to run its jobs. -/
theorem workOff_queue (setup : Setup) (s : State) :
    s.workOff setup s.queue.length = s.runJobs setup s.queue := by
  generalize queued : s.queue = jobs
  induction jobs generalizing s with
  | nil =>
    show ((.ok (), s) : Except Crash Unit × State) = (.ok (), { s with queue := [] })
    rw [← queued]
  | cons job rest ih =>
    have same := (promote_counts setup { s with queue := rest } job).2.2.2.1
    rw [List.length_cons]
    unfold State.workOff runJobs
    rw [queued]
    dsimp only
    rw [ih _ same]

/-- Every queued promotion is due, and holds its function alone. -/
structure Orderly (s : State) : Prop where
  distinct : (s.queue.map (·.function)).Nodup
  waiting : ∀ job ∈ s.queue, ∃ slot, s.slot? job.function = some slot ∧ slot.promoting = true ∧
    slot.Due job.target

theorem Orderly.apart {id : FuncId} {s s' : State} (orderly : s.Orderly)
    (absent : id ∉ s.queue.map (·.function)) (apart : Apart id s s') : s'.Orderly := by
  refine ⟨apart.1 ▸ orderly.distinct, fun job member => ?_⟩
  rw [apart.1] at member
  have other : job.function ≠ id := by
    rintro rfl
    exact absent (List.mem_map_of_mem member)
  rw [apart.2 _ other]
  exact orderly.waiting job member

/-- A function that no promotion holds is not in the queue. -/
theorem Orderly.absent {s : State} (orderly : s.Orderly) {id : FuncId} {slot : Slot}
    (there : s.slot? id = some slot) (free : slot.promoting = false) :
    id ∉ s.queue.map (·.function) := by
  intro member
  obtain ⟨job, queued, rfl⟩ := List.mem_map.mp member
  obtain ⟨slot', there', held, _⟩ := orderly.waiting job queued
  cases there.symm.trans there'
  rw [free] at held
  cases held

/-- How the state of a session changes. -/
inductive Moves (setup : Setup) : State → State → Prop where
  | still {s s' : State} (alike : s.Alike s') : Moves setup s s'
  | promoted {s s' : State} {slot : Slot} {job : Job} (there : s.slot? job.function = some slot)
      (due : slot.Due job.target) (done : Promoted setup s slot job s') : Moves setup s s'

/-- A promotion exchanges no function. -/
theorem Promoted.functions {setup : Setup} {s s' : State} {slot : Slot} {job : Job}
    (promoted : Promoted setup s slot job s') :
    s'.slots.map (·.function) = s.slots.map (·.function) := by
  cases promoted with
  | unavailable => exact map_modifySlot s _ fun _ => rfl
  | crashed => rfl
  | refused chosen a own level =>
    exact map_modifySlot { s with attempts := a :: s.attempts, failures := s.failures + 1 } _
      fun _ => rfl
  | crashedInstalling a succeeded installing => rfl
  | uninstalled a succeeded installing e => rfl
  | @published _ _ _ a _ manager _ _ e _ _ _ _ =>
    exact map_modifySlot { s with attempts := a :: s.attempts, manager } _ fun _ => rfl

/-- A promotion exchanges no module and closes no session. -/
theorem Promoted.module {setup : Setup} {s s' : State} {slot : Slot} {job : Job}
    (promoted : Promoted setup s slot job s') :
    s'.program.map (·.module) = s.program.map (·.module) ∧ s'.closed = s.closed := by
  have modified : ∀ (t : State) id f,
      (t.modifySlot id f).program.map (·.module) = t.program.map (·.module) := by
    intro t id f
    show (t.program.map _).map _ = _
    cases t.program <;> rfl
  cases promoted with
  | unavailable => exact ⟨modified s _ _, rfl⟩
  | crashed => exact ⟨rfl, rfl⟩
  | refused chosen a own level => exact ⟨modified _ _ _, rfl⟩
  | crashedInstalling a succeeded installing => exact ⟨rfl, rfl⟩
  | uninstalled a succeeded installing e => exact ⟨rfl, rfl⟩
  | published chosen a succeeded installing e built level bytes program =>
    exact ⟨modified _ _ _, rfl⟩

theorem Alike.functions {s s' : State} (alike : s.Alike s') :
    s'.slots.map (·.function) = s.slots.map (·.function) := by
  have same := congrArg (List.map (·.function)) alike.slots
  simpa [Function.comp_def, Slot.idle] using same

/-- No change exchanges a function. -/
theorem Moves.functions {setup : Setup} {s s' : State} (moves : Moves setup s s') :
    s'.slots.map (·.function) = s.slots.map (·.function) := by
  cases moves with
  | still alike => exact alike.functions
  | promoted there due done => exact done.functions

/-- No change exchanges the module or closes the session. -/
theorem Moves.module {setup : Setup} {s s' : State} (moves : Moves setup s s') :
    s'.program.map (·.module) = s.program.map (·.module) ∧ s'.closed = s.closed := by
  cases moves with
  | still alike => exact ⟨alike.module, alike.closed⟩
  | promoted there due done => exact done.module

/-- Any number of changes, from an orderly state to an orderly one. -/
structure Reaches (setup : Setup) (s s' : State) : Prop where
  orderly : s'.Orderly
  moves : Relation.ReflTransGen (Moves setup) s s'

namespace Reaches

variable {setup : Setup} {s t u : State}

theorem still (reaches : Reaches setup s t) (alike : t.Alike u) (orderly : u.Orderly) :
    Reaches setup s u :=
  ⟨orderly, reaches.moves.tail (.still alike)⟩

/-- What every change keeps holds wherever a session gets. -/
theorem keeps {I : State → Prop} (step : ∀ s s', Moves setup s s' → I s → I s')
    (reaches : Reaches setup s t) (initial : I s) : I t := by
  have moves := reaches.moves
  clear reaches
  induction moves with
  | refl => exact initial
  | tail _ last ih => exact step _ _ last ih

/-- Bookkeeping that touches neither slots nor the queue. -/
theorem aside (reaches : Reaches setup s t) (tracker : Hotness.Tracker) (nativeCalls : Nat) :
    Reaches setup s { t with tracker, nativeCalls } :=
  reaches.still ⟨rfl, rfl, rfl, rfl, rfl, rfl, rfl⟩ ⟨reaches.orderly.distinct, reaches.orderly.waiting⟩

/-- A promotion is carried out and the function given back. -/
theorem promote (reaches : Reaches setup s t) {job : Job} {slot : Slot}
    (there : t.slot? job.function = some slot) (due : slot.Due job.target)
    (absent : job.function ∉ t.queue.map (·.function)) :
    Reaches setup s (t.promote setup job).2 := by
  unfold State.promote
  rw [there]
  have done := compileAndInstall_promoted setup t slot job
  have apart : Apart job.function t ((t.compileAndInstall setup slot job).2.release job.function) :=
    done.apart.trans (apart_release _ _)
  exact ⟨reaches.orderly.apart absent apart,
    (reaches.moves.tail (.promoted there due done)).tail (.still (alike_release _ _))⟩

theorem due_of_grants {slot : Slot} {target : Tier} (granted : t.grants setup slot target = true) :
    slot.Due target ∧ slot.promoting = false := by
  simp only [grants, Bool.and_eq_true, Bool.not_eq_true', decide_eq_true_eq] at granted
  obtain ⟨⟨⟨⟨⟨⟨⟨_, internal⟩, _⟩, _⟩, _⟩, untried⟩, higher⟩, free⟩ := granted
  exact ⟨⟨internal, untried, higher⟩, free⟩

/-- A promotion that is granted is carried out at once. -/
theorem acquire_promote (reaches : Reaches setup s t) {job : Job} {slot : Slot}
    (there : t.slot? job.function = some slot) (granted : t.grants setup slot job.target = true) :
    Reaches setup s ((t.acquire job.function).promote setup job).2 := by
  obtain ⟨due, free⟩ := due_of_grants granted
  have absent := reaches.orderly.absent there free
  have held : (t.acquire job.function).slot? job.function = some { slot with promoting := true } := by
    show (t.modifySlot _ _).slot? _ = _
    rw [slot?_modifySlot, if_pos rfl, there]
    rfl
  have taken : Reaches setup s (t.acquire job.function) :=
    reaches.still (alike_acquire _ _) (reaches.orderly.apart absent (apart_acquire _ _))
  exact taken.promote held ⟨due.internal, due.untried, due.higher⟩ absent

/-- A promotion that is granted waits in the queue. -/
theorem acquire_queue (reaches : Reaches setup s t) {job : Job} {slot : Slot}
    (there : t.slot? job.function = some slot) (granted : t.grants setup slot job.target = true) :
    Reaches setup s { t.acquire job.function with queue := t.queue ++ [job] } := by
  obtain ⟨due, free⟩ := due_of_grants granted
  have absent := reaches.orderly.absent there free
  have lookup : ∀ x, (t.acquire job.function).slot? x =
      if x = job.function then (t.slot? x).map ({ · with promoting := true }) else t.slot? x :=
    slot?_modifySlot t job.function _
  have alike := alike_acquire t job.function
  refine reaches.still ⟨alike.module, alike.slots, rfl, rfl, rfl, rfl, rfl⟩ ⟨?_, ?_⟩
  · show ((t.queue ++ [job]).map _).Nodup
    rw [List.map_append, List.nodup_append]
    refine ⟨reaches.orderly.distinct, by simp, ?_⟩
    rintro x member y single rfl
    rw [List.map_singleton, List.mem_singleton] at single
    exact absent (single ▸ member)
  · intro other member
    show ∃ slot, (t.acquire job.function).slot? other.function = some slot ∧ _
    rcases List.mem_append.mp member with early | last
    · have different : other.function ≠ job.function := by
        intro same
        exact absent (same ▸ List.mem_map_of_mem early)
      rw [lookup, if_neg different]
      exact reaches.orderly.waiting other early
    · cases List.mem_singleton.mp last
      refine ⟨{ slot with promoting := true }, ?_, rfl, due.internal, due.untried, due.higher⟩
      rw [lookup, if_pos rfl, there]
      rfl

theorem request (reaches : Reaches setup s t) (job : Job) :
    Reaches setup s (t.request setup job).2 := by
  unfold State.request
  split
  · exact reaches
  · next slot there =>
    split
    · exact reaches
    · next granted =>
      have granted : t.grants setup slot job.target = true := by simpa using granted
      dsimp only
      split
      · exact reaches.acquire_queue there granted
      · exact reaches.acquire_promote there granted

/-- Jobs of the queue are carried out. -/
theorem workOff (reaches : Reaches setup s t) (count : Nat) :
    Reaches setup s (t.workOff setup count).2 := by
  induction count generalizing t with
  | zero => exact reaches
  | succ count ih =>
    unfold State.workOff
    split
    · exact reaches
    · next job rest queued =>
      have distinct := reaches.orderly.distinct
      have waiting := reaches.orderly.waiting
      rw [queued] at distinct waiting
      obtain ⟨absent, distinct⟩ := List.nodup_cons.mp distinct
      obtain ⟨slot, there, _, due⟩ := waiting job (by simp)
      have taken : Reaches setup s { t with queue := rest } :=
        reaches.still ⟨rfl, rfl, rfl, rfl, rfl, rfl, rfl⟩
          ⟨distinct, fun other member => waiting other (List.mem_cons_of_mem _ member)⟩
      have promoted := taken.promote there due absent
      dsimp only
      split
      · exact ih promoted
      · exact promoted

theorem runJobs (reaches : Reaches setup s t) :
    Reaches setup s (t.runJobs setup t.queue).2 :=
  workOff_queue setup t ▸ reaches.workOff t.queue.length

end Reaches

end State

/-- What bookkeeping and requests keep is kept by a call, and by the calls that it makes. The one
failure that depends on it is that there is no module. -/
theorem execute_keeps_failing {setup : Setup} {I : State → Prop} {F : Halt → Prop}
    (aside : ∀ s tracker nativeCalls, I s → I { s with tracker, nativeCalls })
    (request : ∀ s job, I s → I (s.request setup job).2)
    (own : ∀ h, h ≠ .other .noModule → F h)
    (absent : ∀ s, I s → s.program = none → F (.other .noModule)) (fuel depth : Nat) (id : FuncId)
    (args : List Value) {w : Eval.World State} (held : I w.rest) :
    I (execute setup fuel depth id args w).2.rest ∧
      ∀ h, (execute setup fuel depth id args w).1 = .error h → F h := by
  have failing : ∀ {h : Halt} {t : State}, F h → I t →
      I t ∧ ∀ h', (.error h : Except Halt Value) = .error h' → F h' := by
    intro h t fails held
    refine ⟨held, ?_⟩
    rintro _ ⟨⟩
    exact fails
  induction fuel generalizing depth id args w with
  | zero => exact failing (own _ (by simp)) held
  | succ fuel ih =>
    unfold execute
    split
    · exact failing (own _ (by simp)) held
    · split
      · next none => exact failing (absent _ held none) held
      · next p _ =>
        split
        · exact failing (own _ (by simp)) held
        · next slot _ =>
          dsimp only
          have counted := aside w.rest (w.rest.tracker.record id.num).2 w.rest.nativeCalls held
          have ran : I (runSlot setup p (execute setup fuel (depth + 1)) fuel depth slot id args
                { w with rest := { w.rest with tracker := (w.rest.tracker.record id.num).2 } }).2.rest ∧
              ∀ h, (runSlot setup p (execute setup fuel (depth + 1)) fuel depth slot id args
                { w with rest := { w.rest with tracker := (w.rest.tracker.record id.num).2 } }).1 =
                  .error h → F h := by
            unfold runSlot
            split
            · refine ⟨aside _ _ _ counted, fun h failed => own h ?_⟩
              obtain ⟨reason, _, rfl⟩ := mapError_eq_error.mp (map_eq_error.mp failed)
              cases reason <;> simp [Halt.ofNative]
            · obtain ⟨kept, fails⟩ := Eval.enter_keeps_failing
                (fun h other => own h (other .noModule)) (fun id args w held => ih _ id args held)
                fuel depth id args (w := { w with
                  rest := { w.rest with tracker := (w.rest.tracker.record id.num).2 } }) counted
              exact ⟨kept, fun h failed => fails h (map_eq_error.mp failed)⟩
          obtain ⟨ran, fails⟩ := ran
          split
          · next h w' stopped =>
            rw [stopped] at ran fails
            exact failing (fails h rfl) ran
          · next blocks _ returned =>
            rw [returned] at ran
            split
            · have requested :=
                request _ ⟨id, wantedTier setup.config (w.rest.tracker.record id.num).1 blocks⟩ ran
              split
              · next same =>
                rw [same] at requested
                exact ⟨requested, by rintro h ⟨⟩⟩
              · next same =>
                rw [same] at requested
                exact failing (own _ (by simp)) requested
            · exact ⟨ran, by rintro h ⟨⟩⟩

theorem execute_keeps {setup : Setup} {I : State → Prop}
    (aside : ∀ s tracker nativeCalls, I s → I { s with tracker, nativeCalls })
    (request : ∀ s job, I s → I (s.request setup job).2) (fuel depth : Nat) (id : FuncId)
    (args : List Value) {w : Eval.World State} (held : I w.rest) :
    I (execute setup fuel depth id args w).2.rest :=
  (execute_keeps_failing (F := fun _ => True) aside request (fun _ _ => trivial)
    (fun _ _ _ => trivial) fuel depth id args held).1

/-- Calls of a session, and the calls that these make. -/
theorem Reaches.execute {setup : Setup} {s : State} (fuel depth : Nat) (id : FuncId)
    (args : List Value) {w : Eval.World State} (reaches : s.Reaches setup w.rest) :
    s.Reaches setup (Session.execute setup fuel depth id args w).2.rest :=
  execute_keeps (fun _ tracker nativeCalls reaches => reaches.aside tracker nativeCalls)
    (fun _ job reaches => reaches.request job) fuel depth id args reaches

end TieredEngine.Session
