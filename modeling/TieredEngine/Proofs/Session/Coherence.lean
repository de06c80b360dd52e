import TieredEngine.Proofs.Native.Memory.Manager
import TieredEngine.Proofs.Session.Entries
import TieredEngine.Proofs.Session.Failures

/-!
What holds of a session between its operations. Every slot that has left the interpreter runs on
code that is installed under its name, and tiers only rise; the promotions are those of the slots
together; and a function is held exactly while a promotion of it waits, so that as many promotions
are under way as are queued. While a promotion is carried out its function is held without being
queued: it is in hand.
-/
namespace TieredEngine.Session
open TieredEngine TieredEngine.Ir TieredEngine.Native

/-- The code that a function runs on, as it is placed. -/
def Slot.placement (slot : Slot) (e : Entry) : Placement :=
  ⟨s!"{slot.function.name}@{e.tier.name}", e.addr, e.code⟩

/-- A function runs on code that the generator of a compiled tier has made of it, and that is
installed under the name of the function and the tier. -/
structure Slot.Runs (setup : Setup) (manager : Manager) (placed : List Placement) (slot : Slot)
    (e : Entry) : Prop where
  internal : slot.function.isExternal = false
  compiled : e.tier ≠ .interpreted
  placed : slot.placement e ∈ placed
  known : (slot.placement e).symbol ∈ manager.symbols
  made : ∃ backend code, setup.backendOf? e.tier = some backend ∧
    slot.Built e.tier backend code e.convention ∧ e.code = code.code

theorem Slot.Runs.mono {setup : Setup} {manager manager' : Manager}
    {placed placed' : List Placement} {slot : Slot} {e : Entry}
    (runs : slot.Runs setup manager placed e) (kept : placed ⊆ placed')
    (symbols : manager.symbols ⊆ manager'.symbols) : slot.Runs setup manager' placed' e :=
  { runs with placed := kept runs.placed, known := symbols runs.known }

namespace State

/-- Functions that are held for a promotion, in hand or queued. -/
def holding (hand : List FuncId) (s : State) : List FuncId := hand ++ s.queue.map (·.function)

/-- The state of a session since a first state. -/
structure Coherent (setup : Setup) (hand : List FuncId) (s first : State) : Prop where
  rises : ∀ id slot, first.slot? id = some slot → ∃ slot', s.slot? id = some slot' ∧
    slot.tier.rank ≤ slot'.tier.rank
  functions : ∀ p, s.program = some p → s.slots.map (·.function) = p.module.functions.toList
  code : ∃ placed, s.manager.Holds [] placed ∧
    ∀ slot ∈ s.slots, ∀ e, slot.entry = some e → slot.Runs setup s.manager placed e
  promotions : s.promotions = (s.slots.map (·.promotions)).sum
  distinct : (s.holding hand).Nodup
  held : ∀ id slot, s.slot? id = some slot → (slot.promoting = true ↔ id ∈ s.holding hand)
  present : ∀ id ∈ s.holding hand, ∃ slot, s.slot? id = some slot ∧ slot.function.isExternal = false
  inflight : s.inflight = (s.holding hand).length

/-- An attempt to install code leaves what is installed where it is. -/
theorem install_holds {s : State} {placed : List Placement} (holds : s.manager.Holds [] placed)
    (name : String) (code : List UInt8) : ∃ placed', placed ⊆ placed' ∧
      (s.install name code).2.manager.Holds [] placed' ∧
      s.manager.symbols ⊆ (s.install name code).2.manager.symbols ∧
      ∀ addr, (s.install name code).1 = .ok addr →
        ⟨name, addr, code⟩ ∈ placed' ∧
        (⟨name, addr, code.length⟩ : Symbol) ∈ (s.install name code).2.manager.symbols := by
  unfold install
  split
  · exact ⟨placed, fun _ => id, holds, fun _ => id, by simp⟩
  · next b begun =>
    have fresh : b = {} := by
      unfold Manager.begin at begun
      split at begun
      · cases begun
      · cases begun
        rfl
    subst fresh
    have installed := Manager.install_cases holds.paged {} name code
    have after : ({} : Batch).pending = [] := rfl
    rw [← after] at holds
    have holds := holds.install installed
    obtain ⟨ended, pending⟩ := installed.batch
    have symbols := congrArg Manager.symbols installed.manager
    generalize s.manager.install {} name code = out at holds ended symbols pending
    obtain ⟨result, manager, batch⟩ := out
    dsimp only at holds ended symbols pending
    obtain ⟨finished, members⟩ := holds.finish ended
    have kept : s.manager.symbols ⊆ (manager.finish batch).2.1.symbols := by
      intro t known
      rw [members]
      exact .inr (symbols ▸ known)
    refine ⟨placed ++ Manager.newlyPlaced name code result, List.subset_append_left _ _, ?_⟩
    cases result with
    | error e =>
      cases e with
      | crash c => exact ⟨holds.forget, symbols ▸ fun _ => id, by simp⟩
      | error e => exact ⟨finished, kept, by simp⟩
    | ok addr =>
      dsimp only
      split
      · next done =>
        rw [done] at finished kept members
        refine ⟨finished, kept, ?_⟩
        rintro _ ⟨⟩
        have waits : (⟨name, addr, code.length⟩ : Symbol) ∈ batch.pending := by
          rw [pending]
          exact List.mem_append_right _ (List.mem_singleton_self _)
        exact ⟨List.mem_append_right _ (List.mem_singleton_self _), (members _).mpr (.inl waits)⟩
      · next done =>
        rw [done] at finished kept
        exact ⟨finished, kept, by simp⟩

namespace Coherent
variable {setup : Setup} {first s t : State} {hand : List FuncId} {id : FuncId} {slot : Slot}

/-- Records of what has been done are no part of it. -/
theorem record (coherent : s.Coherent setup hand first) (tracker : Hotness.Tracker)
    (attempts : List Attempt) (failures nativeCalls : Nat) (failure : Option InstallFailure) :
    ({ s with tracker, attempts, failures, nativeCalls, failure } : State).Coherent setup hand first :=
  ⟨coherent.rises, coherent.functions, coherent.code, coherent.promotions, coherent.distinct,
    coherent.held, coherent.present, coherent.inflight⟩

/-- More code is installed. -/
theorem installed (coherent : s.Coherent setup hand first) (name : String) (code : List UInt8) :
    ({ s with manager := (s.install name code).2.manager } : State).Coherent setup hand first := by
  obtain ⟨placed, holds, runs⟩ := coherent.code
  obtain ⟨placed', kept, after, symbols, -⟩ := install_holds holds name code
  exact { coherent with
    code := ⟨placed', after, fun slot mem e entry => (runs slot mem e entry).mono kept symbols⟩ }

/-- A change of one slot that keeps what the other parts of a session know of it. -/
theorem modify {f : Slot → Slot} (coherent : s.Coherent setup hand first)
    (same : ∀ slot, (f slot).function = slot.function ∧ (f slot).entry = slot.entry ∧
      (f slot).promoting = slot.promoting ∧ (f slot).promotions = slot.promotions) :
    (s.modifySlot id f).Coherent setup hand first := by
  have lookup := slot?_modifySlot s id f
  constructor
  case rises =>
    intro x slot there
    obtain ⟨slot', there', higher⟩ := coherent.rises x slot there
    rw [lookup, there']
    split
    · refine ⟨f slot', rfl, ?_⟩
      rw [show (f slot').tier = slot'.tier by simp [Slot.tier, same]]
      exact higher
    · exact ⟨slot', rfl, higher⟩
  case functions =>
    intro p program
    rw [map_modifySlot s id fun slot => (same slot).1]
    unfold modifySlot at program
    obtain ⟨q, old, rfl⟩ := Option.map_eq_some_iff.mp program
    exact coherent.functions q old
  case code =>
    obtain ⟨placed, holds, runs⟩ := coherent.code
    refine ⟨placed, holds, fun slot mem e entry => ?_⟩
    rcases mem_modifySlot mem with old | ⟨old, there, rfl⟩
    · exact runs slot old e entry
    · obtain ⟨function, sameEntry, -, -⟩ := same old
      have before := runs old (List.mem_of_getElem? ((slot?_eq s id).symm.trans there)) e
        (sameEntry ▸ entry)
      have placement : (f old).placement e = old.placement e := by simp [Slot.placement, function]
      constructor
      case internal => exact function ▸ before.internal
      case compiled => exact before.compiled
      case placed => exact placement ▸ before.placed
      case known => exact placement ▸ before.known
      case made =>
        obtain ⟨backend, code, chosen, built, bytes⟩ := before.made
        exact ⟨backend, code, chosen, ⟨function ▸ built.made, function ▸ built.convention⟩, bytes⟩
  case promotions =>
    rw [map_modifySlot s id fun slot => (same slot).2.2.2]
    exact coherent.promotions
  case distinct => exact coherent.distinct
  case held =>
    intro x slot there
    rw [lookup] at there
    split at there
    · obtain ⟨old, before, rfl⟩ := Option.map_eq_some_iff.mp there
      rw [(same old).2.2.1]
      exact coherent.held x old before
    · exact coherent.held x slot there
  case present =>
    intro x mem
    obtain ⟨slot, there, internal⟩ := coherent.present x mem
    rw [lookup, there]
    split
    · exact ⟨f slot, rfl, (same slot).1 ▸ internal⟩
    · exact ⟨slot, rfl, internal⟩
  case inflight => exact coherent.inflight

/-- A change of who holds a function, and of the functions in hand with it. -/
theorem hold (coherent : s.Coherent setup hand first) (queue : List Job)
    {hand' : List FuncId} {held : Bool} {inflight : Nat}
    (distinct : (hand' ++ queue.map (·.function)).Nodup)
    (here : (id ∈ hand' ++ queue.map (·.function)) ↔ held = true)
    (others : ∀ x, x ≠ id → (x ∈ hand' ++ queue.map (·.function) ↔ x ∈ s.holding hand))
    (present : held = true →
      ∃ slot, s.slot? id = some slot ∧ slot.function.isExternal = false)
    (count : inflight = (hand' ++ queue.map (·.function)).length) :
    ({ s.modifySlot id ({ · with promoting := held }) with queue, inflight } : State).Coherent
      setup hand' first := by
  have lookup : ∀ x, (s.modifySlot id ({ · with promoting := held })).slot? x =
      if x = id then (s.slot? x).map ({ · with promoting := held }) else s.slot? x :=
    slot?_modifySlot s id _
  constructor
  case rises =>
    intro x slot there
    obtain ⟨slot', there', higher⟩ := coherent.rises x slot there
    show ∃ slot', (s.modifySlot id ({ · with promoting := held })).slot? x = some slot' ∧ _
    rw [lookup, there']
    split
    · exact ⟨{ slot' with promoting := held }, rfl, higher⟩
    · exact ⟨slot', rfl, higher⟩
  case functions =>
    intro p program
    have kept : (s.modifySlot id ({ · with promoting := held })).slots.map (·.function) =
        s.slots.map (·.function) := map_modifySlot s id fun _ => rfl
    show (s.modifySlot id ({ · with promoting := held })).slots.map _ = _
    rw [kept]
    obtain ⟨q, old, rfl⟩ := Option.map_eq_some_iff.mp program
    exact coherent.functions q old
  case code =>
    obtain ⟨placed, holds, runs⟩ := coherent.code
    refine ⟨placed, holds, fun slot mem e entry => ?_⟩
    rcases mem_modifySlot (s := s) mem with old | ⟨old, there, rfl⟩
    · exact runs slot old e entry
    · have before := runs old (List.mem_of_getElem? ((slot?_eq s id).symm.trans there)) e entry
      exact ⟨before.internal, before.compiled, before.placed, before.known, by
        obtain ⟨backend, code, chosen, built, bytes⟩ := before.made
        exact ⟨backend, code, chosen, ⟨built.made, built.convention⟩, bytes⟩⟩
  case promotions =>
    have kept : (s.modifySlot id ({ · with promoting := held })).slots.map (·.promotions) =
        s.slots.map (·.promotions) := map_modifySlot s id fun _ => rfl
    show s.promotions = ((s.modifySlot id ({ · with promoting := held })).slots.map _).sum
    rw [kept]
    exact coherent.promotions
  case distinct => exact distinct
  case held =>
    intro x slot there
    show slot.promoting = true ↔ x ∈ hand' ++ queue.map (·.function)
    have there : (s.modifySlot id ({ · with promoting := held })).slot? x = some slot := there
    rw [lookup] at there
    split at there
    · next same =>
      obtain ⟨old, -, rfl⟩ := Option.map_eq_some_iff.mp there
      rw [same]
      exact here.symm
    · next other =>
      rw [others x other]
      exact coherent.held x slot there
  case present =>
    intro x mem
    have mem : x ∈ hand' ++ queue.map (·.function) := mem
    show ∃ slot, (s.modifySlot id ({ · with promoting := held })).slot? x = some slot ∧ _
    rw [lookup]
    split
    · next same =>
      obtain ⟨slot, there, internal⟩ := present (here.mp (same ▸ mem))
      rw [same, there]
      exact ⟨_, rfl, internal⟩
    · next other => exact coherent.present x ((others x other).mp mem)
  case inflight => exact count

/-- A function is taken in hand. -/
theorem acquire (coherent : s.Coherent setup hand first) (there : s.slot? id = some slot)
    (internal : slot.function.isExternal = false) (free : slot.promoting = false) :
    (s.acquire id).Coherent setup (id :: hand) first := by
  have absent : id ∉ s.holding hand := by
    intro mem
    have held := (coherent.held id slot there).mpr mem
    rw [free] at held
    cases held
  apply coherent.hold s.queue
  · exact List.nodup_cons.mpr ⟨absent, coherent.distinct⟩
  · simp
  · intro x other
    simp [holding, other]
  · exact fun _ => ⟨slot, there, internal⟩
  · exact congrArg (· + 1) coherent.inflight

/-- The same functions are held, in another order or queued instead of in hand. -/
theorem exchange {hand' : List FuncId} {queue : List Job} (coherent : s.Coherent setup hand first)
    (same : (s.holding hand).Perm (hand' ++ queue.map (·.function))) :
    ({ s with queue } : State).Coherent setup hand' first where
  rises := coherent.rises
  functions := coherent.functions
  code := coherent.code
  promotions := coherent.promotions
  distinct := same.nodup_iff.mp coherent.distinct
  held x slot there := (coherent.held x slot there).trans same.mem_iff
  present x mem := coherent.present x (same.mem_iff.mpr mem)
  inflight := coherent.inflight.trans same.length_eq

/-- A function in hand is put into the queue. -/
theorem queue {job : Job} (coherent : s.Coherent setup [job.function] first) :
    ({ s with queue := s.queue ++ [job] } : State).Coherent setup [] first := by
  refine coherent.exchange ?_
  rw [List.map_append]
  exact List.perm_append_comm

/-- The first function of the queue is taken in hand. -/
theorem dequeue {job : Job} {rest : List Job} (coherent : s.Coherent setup [] first)
    (queued : s.queue = job :: rest) :
    ({ s with queue := rest } : State).Coherent setup [job.function] first := by
  refine coherent.exchange ?_
  rw [holding, queued]
  exact .refl _

/-- A function in hand is given back. -/
theorem release (coherent : s.Coherent setup (id :: hand) first) :
    (s.release id).Coherent setup hand first := by
  have distinct := List.nodup_cons.mp coherent.distinct
  apply coherent.hold s.queue
  · exact distinct.2
  · simpa using distinct.1
  · intro x other
    simp [holding, other]
  · simp
  · exact congrArg (· - 1) coherent.inflight

/-- A function runs on code that has been installed for it. -/
theorem publish {e : Entry} {placed : List Placement} (coherent : s.Coherent setup hand first)
    (there : s.slot? id = some slot) (higher : slot.tier.rank < e.tier.rank)
    (holds : s.manager.Holds [] placed)
    (runs : ∀ slot ∈ s.slots, ∀ e, slot.entry = some e → slot.Runs setup s.manager placed e)
    (new : slot.Runs setup s.manager placed e) : (s.publish id e).Coherent setup hand first := by
  have lookup : ∀ x, (s.publish id e).slot? x = if x = id then
      (s.slot? x).map fun slot => { slot with entry := some e, promotions := slot.promotions + 1 }
      else s.slot? x := slot?_modifySlot s id _
  constructor
  case rises =>
    intro x old before
    obtain ⟨slot', there', higher'⟩ := coherent.rises x old before
    rw [lookup, there']
    split
    · next same =>
      rw [same, there] at there'
      cases there'
      exact ⟨_, rfl, Nat.le_of_lt (Nat.lt_of_le_of_lt higher' higher)⟩
    · exact ⟨slot', rfl, higher'⟩
  case functions =>
    intro p program
    have kept : (s.publish id e).slots.map (·.function) = s.slots.map (·.function) :=
      map_modifySlot s id fun _ => rfl
    rw [kept]
    obtain ⟨q, old, rfl⟩ := Option.map_eq_some_iff.mp program
    exact coherent.functions q old
  case code =>
    refine ⟨placed, holds, fun slot' mem e' entry => ?_⟩
    rcases mem_modifySlot (s := s) mem with old | ⟨old, before, rfl⟩
    · exact runs slot' old e' entry
    · cases there.symm.trans before
      cases entry
      exact ⟨new.internal, new.compiled, new.placed, new.known, by
        obtain ⟨backend, code, chosen, built, bytes⟩ := new.made
        exact ⟨backend, code, chosen, ⟨built.made, built.convention⟩, bytes⟩⟩
  case promotions =>
    have total := sum_modify (·.promotions)
      (fun slot : Slot => { slot with entry := some e, promotions := slot.promotions + 1 })
      ((slot?_eq s id).symm.trans there)
    dsimp only at total
    have before := coherent.promotions
    show s.promotions + 1 = ((s.modifySlot id _).slots.map _).sum
    rw [slots_modifySlot]
    omega
  case distinct => exact coherent.distinct
  case held =>
    intro x slot' found
    rw [lookup] at found
    split at found
    · obtain ⟨old, before, rfl⟩ := Option.map_eq_some_iff.mp found
      exact coherent.held x old before
    · exact coherent.held x slot' found
  case present =>
    intro x mem
    obtain ⟨old, before, internal⟩ := coherent.present x mem
    rw [lookup, before]
    split
    · exact ⟨_, rfl, internal⟩
    · exact ⟨old, rfl, internal⟩
  case inflight => exact coherent.inflight

/-- Whatever comes of compiling a function that is in hand. -/
theorem compileAndInstall {job : Job} (coherent : s.Coherent setup hand first)
    (mem : job.function ∈ hand) (there : s.slot? job.function = some slot) :
    (s.compileAndInstall setup slot job).2.Coherent setup hand first := by
  obtain ⟨slot', there', internal⟩ := coherent.present _ (List.mem_append_left _ mem)
  cases there.symm.trans there'
  unfold State.compileAndInstall
  split
  · exact coherent.modify fun _ => ⟨rfl, rfl, rfl, rfl⟩
  · next tier backend chosen =>
    obtain ⟨higher, -, has, -⟩ := Setup.backendFor_some chosen
    have compiled := compile_cases s slot job.function tier backend
    revert compiled
    generalize s.compile slot job.function tier backend = out
    intro compiled
    cases compiled with
    | crashed c => exact coherent
    | refused a own level =>
      have noted := coherent.record s.tracker (a :: s.attempts) (s.failures + 1) s.nativeCalls s.failure
      exact noted.modify fun _ => ⟨rfl, rfl, rfl, rfl⟩
    | made a succeeded code convention built =>
      dsimp only
      generalize named : s!"{slot.function.name}@{tier.name}" = name
      have noted := coherent.record s.tracker (a :: s.attempts) s.failures s.nativeCalls s.failure
      have grown := noted.installed name code.code
      have kept := install_attempts s (a :: s.attempts) name code.code
      obtain ⟨placed, holds, runs⟩ := noted.code
      obtain ⟨placed', more, holds', symbols, success⟩ := install_holds holds name code.code
      generalize State.install { s with attempts := a :: s.attempts } name code.code = out
        at kept grown holds' symbols success ⊢
      obtain ⟨result, after⟩ := out
      dsimp only at kept grown holds' symbols success ⊢
      subst kept
      cases result with
      | error e =>
        cases e with
        | crash c => exact grown
        | error e => exact grown.record s.tracker (a :: s.attempts) (s.failures + 1) s.nativeCalls _
      | ok addr =>
        obtain ⟨new, known⟩ := success addr rfl
        have compiled : tier ≠ .interpreted := by
          rintro rfl
          exact Nat.not_lt_zero _ higher
        apply grown.publish there higher holds'
        · exact fun slot mem e entry => (runs slot mem e entry).mono more symbols
        · subst named
          exact ⟨internal, compiled, new, known, backend, code, has, built, rfl⟩

/-- A promotion of a function in hand is carried out. -/
theorem promote (job : Job) (coherent : s.Coherent setup (job.function :: hand) first) :
    (s.promote setup job).2.Coherent setup hand first := by
  obtain ⟨slot, there, -⟩ := coherent.present job.function List.mem_cons_self
  unfold State.promote
  rw [there]
  exact (coherent.compileAndInstall List.mem_cons_self there).release

theorem request (coherent : s.Coherent setup [] first) (job : Job) :
    (s.request setup job).2.Coherent setup [] first := by
  unfold State.request
  split
  · exact coherent
  · next slot there =>
    split
    · exact coherent
    · next granted =>
      have granted : s.grants setup slot job.target = true := by simpa using granted
      obtain ⟨due, free⟩ := Reaches.due_of_grants granted
      have taken := coherent.acquire there due.internal free
      dsimp only
      split
      · exact taken.queue
      · exact taken.promote job

/-- Jobs of the queue are carried out. -/
theorem workOff (coherent : s.Coherent setup [] first) (count : Nat) :
    (s.workOff setup count).2.Coherent setup [] first := by
  induction count generalizing s with
  | zero => exact coherent
  | succ count ih =>
    unfold State.workOff
    split
    · exact coherent
    · next job rest queued =>
      have done := (coherent.dequeue queued).promote job
      dsimp only
      split
      · exact ih done
      · exact done

theorem kept (setup : Setup) (first : State) :
    Kept setup fun hand s => s.Coherent setup hand first where
  perm same coherent := coherent.exchange (same.append_right _)
  acquire there granted coherent :=
    coherent.acquire there (Reaches.due_of_grants granted).1.internal (Reaches.due_of_grants granted).2
  promote coherent := coherent.promote _

theorem execute (fuel depth : Nat) (id : FuncId) (args : List Value) {w : Eval.World State}
    (coherent : w.rest.Coherent setup [] first) :
    (Session.execute setup fuel depth id args w).2.rest.Coherent setup [] first :=
  execute_keeps (I := fun s => s.Coherent setup [] first)
    (fun s tracker nativeCalls coherent =>
      coherent.record tracker s.attempts s.failures nativeCalls s.failure)
    (fun _ job coherent => coherent.request job) fuel depth id args coherent

/-- A module is given to a session that has none. -/
theorem register {m : Module} (coherent : s.Coherent setup [] first) (none : s.program = none)
    (tracker : Hotness.Tracker) :
    ({ s with
      program := some { module := m, slots := m.functions.map fun f => { function := f } }
      tracker } : State).Coherent setup [] first := by
  have noSlots : s.slots = [] := by simp [slots, none]
  have noSlot : ∀ id, s.slot? id = Option.none := by simp [slot?_eq, noSlots]
  have idle : s.holding [] = [] := by
    apply List.eq_nil_iff_forall_not_mem.mpr
    intro id mem
    obtain ⟨slot, there, -⟩ := coherent.present id mem
    rw [noSlot] at there
    cases there
  have fresh : ∀ slot ∈ (m.functions.map fun f => ({ function := f } : Slot)).toList,
      slot.entry = Option.none ∧ slot.promoting = false ∧ slot.promotions = 0 := by
    intro slot mem
    rw [Array.toList_map] at mem
    obtain ⟨f, -, rfl⟩ := List.mem_map.mp mem
    exact ⟨rfl, rfl, rfl⟩
  constructor
  case rises =>
    intro id slot there
    obtain ⟨slot', there', -⟩ := coherent.rises id slot there
    rw [noSlot] at there'
    cases there'
  case functions =>
    rintro _ ⟨⟩
    simp [slots, Function.comp_def]
  case code =>
    obtain ⟨placed, holds, -⟩ := coherent.code
    refine ⟨placed, holds, fun slot mem e entry => ?_⟩
    rw [(fresh slot mem).1] at entry
    cases entry
  case promotions =>
    have before := coherent.promotions
    rw [noSlots] at before
    show s.promotions = _
    rw [before]
    symm
    apply List.sum_eq_zero_iff_forall_eq_nat.mpr
    intro n counted
    obtain ⟨slot, mem, same⟩ := List.mem_map.mp counted
    exact same.symm.trans (fresh slot mem).2.2
  case distinct => exact coherent.distinct
  case held =>
    intro id slot there
    rw [slot?_eq] at there
    rw [(fresh slot (List.mem_of_getElem? there)).2.1]
    show _ ↔ id ∈ s.holding []
    simp [idle]
  case present =>
    intro id mem
    have mem : id ∈ s.holding [] := mem
    rw [idle] at mem
    cases mem
  case inflight => exact coherent.inflight

end Coherent

/-- A queue that is worked off without a crash is empty. -/
theorem queue_runJobs {setup : Setup} {jobs : List Job} {s : State}
    (done : (s.runJobs setup jobs).1 = .ok ()) : (s.runJobs setup jobs).2.queue = [] := by
  induction jobs generalizing s with
  | nil => rfl
  | cons job rest ih =>
    unfold State.runJobs at done ⊢
    dsimp only at done ⊢
    split
    · next worked =>
      rw [worked] at done
      exact ih done
    · next crashed =>
      rw [crashed] at done
      cases done

/-- A coherent state is one that nothing has happened to since. -/
theorem Coherent.since {setup : Setup} {s first : State} (coherent : s.Coherent setup [] first) :
    s.Coherent setup [] s :=
  { coherent with rises := fun _ slot there => ⟨slot, there, Nat.le_refl _⟩ }

end State

/-- What can be done with a session while it is open. To read its statistics changes nothing. -/
inductive Action where
  | register (m : Module) (turns : List Compiling.Turn := [])
  | call (id : FuncId) (args : List Value)
  | drain
  | tick (jobs : Nat)

def act (s : Session) : Action → Session
  | .register m turns => (s.register m turns).2
  | .call id args => (s.call id args).2
  | .drain => s.drain.2
  | .tick jobs => (s.tick jobs).2

def actAll (s : Session) (actions : List Action) : Session := actions.foldl act s

section Actions
variable {s : Session} {first : State}

/-- A session starts without a module and without code. -/
theorem coherent_start {setup : Setup} {page limit : Int}
    (started : start setup { Heap.ofPage page with limit } = .ok s) :
    s.state.Coherent s.setup [] s.state := by
  obtain ⟨_, _, same⟩ := bind_eq_ok.mp started
  cases same
  constructor
  case rises => exact fun _ slot there => ⟨slot, there, Nat.le_refl _⟩
  case functions => rintro p ⟨⟩
  case code => exact ⟨[], Manager.holds_ofHeap page limit _, fun slot mem => nomatch mem⟩
  case promotions => rfl
  case distinct => exact List.nodup_nil
  case held => rintro id slot ⟨⟩
  case present => rintro id ⟨⟩
  case inflight => rfl

theorem coherent_register (coherent : s.state.Coherent s.setup [] first) (m : Module)
    (turns : List Compiling.Turn) : (s.register m turns).2.setup = s.setup ∧
      (s.register m turns).2.state.Coherent s.setup [] first := by
  have outcome := register_cases s m turns
  revert outcome
  generalize s.register m turns = out
  intro outcome
  cases outcome with
  | refused reason => exact ⟨rfl, coherent⟩
  | crashed c => exact ⟨rfl, coherent⟩
  | interpreted takes lazily => exact ⟨rfl, coherent.register takes.absent _⟩
  | @compiled globals takes eagerly r state ran =>
    have given : (s.published m globals).state.Coherent s.setup [] first :=
      coherent.register takes.absent _
    have compiled : ((s.published m globals).state.compileAll s.setup turns (atOnce m)).2.Coherent
        s.setup [] first := State.compileAll_keeps (State.Coherent.kept s.setup first) given
    rw [ran] at compiled
    exact ⟨rfl, compiled⟩

/-- Draining leaves nothing queued unless it fails. -/
theorem coherent_drain (coherent : s.state.Coherent s.setup [] first) :
    (s.drain.2.setup = s.setup ∧ s.drain.2.state.Coherent s.setup [] first) ∧
      (s.drain.1 = .ok () → s.drain.2.state.queue = []) := by
  unfold Session.drain
  split
  · exact ⟨⟨rfl, coherent⟩, by simp⟩
  · have worked := coherent.workOff s.state.queue.length
    have empty := @State.queue_runJobs s.setup s.state.queue s.state
    rw [State.workOff_queue] at worked
    split
    · next same =>
      rw [same] at worked empty
      exact ⟨⟨rfl, worked⟩, fun _ => empty rfl⟩
    · next same =>
      rw [same] at worked
      exact ⟨⟨rfl, worked⟩, by simp⟩

theorem coherent_act (coherent : s.state.Coherent s.setup [] first) (action : Action) :
    (s.act action).setup = s.setup ∧ (s.act action).state.Coherent s.setup [] first := by
  cases action with
  | register m turns => exact coherent_register coherent m turns
  | call id args => exact ⟨rfl, State.Coherent.execute Eval.ampleFuel 0 id args coherent⟩
  | drain => exact (coherent_drain coherent).1
  | tick jobs =>
    simp only [act, tick]
    split
    · exact ⟨rfl, coherent.workOff jobs⟩
    · exact ⟨rfl, coherent⟩

theorem coherent_actAll (coherent : s.state.Coherent s.setup [] first) (actions : List Action) :
    (s.actAll actions).setup = s.setup ∧ (s.actAll actions).state.Coherent s.setup [] first := by
  induction actions generalizing s with
  | nil => exact ⟨rfl, coherent⟩
  | cons action rest ih =>
    obtain ⟨setup, step⟩ := coherent_act coherent action
    rw [← setup] at step
    obtain ⟨later, all⟩ := ih step
    exact ⟨later.trans setup, setup ▸ all⟩

end Actions

/-- Every function is on one tier. -/
theorem sum_perTier (slots : List Slot) :
    (Tier.all.map fun t => slots.countP (·.tier == t)).sum = slots.length := by
  induction slots with
  | nil => rfl
  | cons slot rest ih =>
    have five : ∀ f : Tier → Nat, (Tier.all.map f).sum =
        f .interpreted + f .baseline + f .standard + f .optimized + f .maximum := by
      intro f
      simp [Tier.all, Nat.add_assoc]
    rw [five] at ih ⊢
    simp only [List.countP_cons, List.length_cons]
    cases slot.tier <;> simp <;> omega

/-- Whatever a session is asked to do: no function falls to a lower tier, and functions without a
body stay interpreted. A function above the interpreter runs on bytes made for its tier, which are
installed at its address under its name and its tier. The promotions of the session are those of its
functions, the tiers together have every function with a body, each function waits in the queue at
most once and is held exactly while it does, and as many promotions are under way as are queued:
none once the queue has been worked off. -/
theorem session_coherent {setup : Setup} {page limit : Int} {s : Session}
    (started : start setup { Heap.ofPage page with limit } = .ok s) (actions : List Action) :
    let t := s.actAll actions
    (∀ later id, (t.tierOf id).rank ≤ ((t.actAll later).tierOf id).rank) ∧
    (∀ slot ∈ t.state.slots, slot.function.isExternal = true → slot.tier = .interpreted) ∧
    (∀ slot ∈ t.state.slots, slot.tier ≠ .interpreted → ∃ e backend code,
      slot.entry = some e ∧ setup.backendOf? slot.tier = some backend ∧
      slot.Built slot.tier backend code e.convention ∧
      t.state.manager.lookup e.addr =
        some ⟨s!"{slot.function.name}@{slot.tier.name}", e.addr, code.code.length⟩ ∧
      t.state.manager.heap.bytes e.addr code.code.length = .ok code.code) ∧
    t.statistics.promotions = (t.state.slots.map (·.promotions)).sum ∧
    t.statistics.perTier.sum = (t.module?.elim 0 fun m => m.functions.toList.countP (!·.isExternal)) ∧
    (t.state.queue.map (·.function)).Nodup ∧
    (∀ id slot, t.state.slot? id = some slot →
      (slot.promoting = true ↔ ∃ job ∈ t.state.queue, job.function = id)) ∧
    t.state.inflight = t.state.queue.length ∧
    (t.drain.1 = .ok () → t.drain.2.state.queue = [] ∧ t.drain.2.state.inflight = 0) := by
  intro t
  have backends := backendOf?_start started
  obtain ⟨sameSetup, coherent⟩ := coherent_actAll (coherent_start started) actions
  change t.setup = s.setup at sameSetup
  change t.state.Coherent s.setup [] s.state at coherent
  have names : t.state.holding [] = t.state.queue.map (·.function) := rfl
  refine ⟨?_, ?_, ?_, coherent.promotions, ?_, coherent.distinct, ?_, ?_, ?_⟩
  · intro later id
    have here := coherent.since
    rw [← sameSetup] at here
    have rises := (coherent_actAll here later).2.rises id
    unfold tierOf
    cases there : t.state.slot? id with
    | none => exact Nat.zero_le _
    | some slot =>
      obtain ⟨slot', there', higher⟩ := rises slot there
      rw [there']
      exact higher
  · intro slot mem external
    obtain ⟨placed, holds, runs⟩ := coherent.code
    cases entry : slot.entry with
    | none => simp [Slot.tier, entry]
    | some e =>
      have internal := (runs slot mem e entry).internal
      rw [external] at internal
      cases internal
  · intro slot mem above
    obtain ⟨placed, holds, runs⟩ := coherent.code
    cases entry : slot.entry with
    | none => exact absurd (by simp [Slot.tier, entry]) above
    | some e =>
      have here := runs slot mem e entry
      obtain ⟨backend, code, chosen, built, bytes⟩ := here.made
      have level : slot.tier = e.tier := by simp [Slot.tier, entry]
      have found := holds.lookup here.placed here.known
      have read := holds.bytes here.placed
      rw [backendOf?_start started] at chosen
      simp only [Slot.placement, Placement.symbol, bytes] at found read
      rw [level]
      exact ⟨e, backend, code, rfl, chosen, built, found, read⟩
  · show (Tier.all.map fun tier =>
      (t.state.slots.filter (!·.function.isExternal)).countP (·.tier == tier)).sum = _
    rw [sum_perTier, ← List.countP_eq_length_filter]
    unfold module?
    cases program : t.state.program with
    | none => simp [State.slots, program]
    | some p =>
      have functions := coherent.functions p program
      show _ = p.module.functions.toList.countP (!·.isExternal)
      rw [← functions, List.countP_map]
      rfl
  · intro id slot there
    rw [coherent.held id slot there, names, List.mem_map]
  · rw [coherent.inflight, names, List.length_map]
  · intro drained
    have here := coherent
    rw [← sameSetup] at here
    obtain ⟨⟨-, after⟩, empty⟩ := coherent_drain here
    have empty := empty drained
    have count := after.inflight
    simp only [State.holding, empty] at count
    exact ⟨empty, count⟩

/-- A function that has been called twice runs on code that is installed. -/
theorem session_coherent_onMachine :
    ∃ s, start onMachine { Heap.ofPage 4096 with limit := 0 } = .ok s ∧
      let t := s.actAll
        [.register { functions := #[constantOne] }, .call ⟨0⟩ [], .call ⟨0⟩ [], .drain]
      t.state.inflight = t.state.queue.length ∧
      ∃ slot ∈ t.state.slots, ∃ e, slot.entry = some e ∧
        (t.state.manager.lookup e.addr).isSome := by
  obtain ⟨s, started⟩ :
      ∃ s, start onMachine { Heap.ofPage 4096 with limit := 0 } = .ok s := ⟨_, rfl⟩
  refine ⟨s, started, ?_⟩
  intro t
  obtain ⟨-, -, installed, -, -, -, -, inflight, -⟩ := session_coherent started
    [.register { functions := #[constantOne] }, .call ⟨0⟩ [], .call ⟨0⟩ [], .drain]
  have above : (start onMachine { Heap.ofPage 4096 with limit := 0 }).toOption.map (fun s =>
      (s.actAll [.register { functions := #[constantOne] }, .call ⟨0⟩ [], .call ⟨0⟩ [],
        .drain]).state.slots.any (·.tier != .interpreted)) = some true := by
    decide +kernel
  rw [started] at above
  obtain ⟨slot, mem, above⟩ := List.any_eq_true.mp (Option.some.inj above)
  obtain ⟨e, _, _, entry, _, _, found, _⟩ := installed slot mem (bne_iff_ne.mp above)
  exact ⟨inflight, slot, mem, e, entry, Option.isSome_iff_exists.mpr ⟨_, found⟩⟩

end TieredEngine.Session
