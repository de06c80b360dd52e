import Mathlib.Order.Bounds.Basic
import TieredEngine.Proofs.Session.Compiling
import TieredEngine.Proofs.Session.History
import TieredEngine.Session.StandIn

/-!
The tier of a function, from its calls. In a session that promotes at once, a function that every
tier has code for is on the highest tier that one of its calls has asked for: the tier for the heat of
a sampled call, or baseline for an interpreted call that entered too many blocks. A call goes by what
its function ran on when it began and by its own count, whatever the calls that it made have changed
meanwhile.
-/
namespace TieredEngine.Session
open TieredEngine TieredEngine.Ir TieredEngine.Native

/-- A function with a body that the generators of all compiled tiers have code for. -/
structure Compilable (setup : Setup) (f : Function) : Prop where
  body : f.isExternal = false
  built : ∀ t : Tier, t ≠ .interpreted → ∃ backend code convention,
    setup.backendOf? t = some backend ∧ Slot.Built { function := f } t backend code convention

/-- An interpreted call has entered more blocks than the threshold allows, which is not zero. -/
def Ended.Bails (config : Config) (c : Ended) : Prop :=
  c.interpreted = true ∧ config.bailout.blocks ≠ 0 ∧ config.bailout.blocks < UInt64.ofNat c.blocks

/-- A tier that the ended calls of a function have asked for. -/
inductive Asked (config : Config) (id : FuncId) (calls : List Ended) : Tier → Prop where
  | start : Asked config id calls .interpreted
  | heat {c : Ended} (member : c ∈ calls) (own : c.function = id) (succeeded : c.succeeded = true)
      (sampled : config.thresholds.samples c.count = true) :
      Asked config id calls (.forLevel (config.thresholds.classify c.count))
  | bailout {c : Ended} (member : c ∈ calls) (own : c.function = id) (succeeded : c.succeeded = true)
      (bails : c.Bails config) : Asked config id calls .baseline

/-- The rank of the highest tier that the ended calls of a function have asked for. -/
def peak (config : Config) (id : FuncId) : List Ended → Nat
  | [] => 0
  | c :: calls =>
    if c.function = id ∧ c.succeeded = true then
      max (wantedTier config c.count c.blocks).rank (peak config id calls)
    else peak config id calls

theorem peak_le_of_suffix {config : Config} {id : FuncId} {calls calls' : List Ended}
    (earlier : calls <:+ calls') : peak config id calls ≤ peak config id calls' := by
  obtain ⟨later, rfl⟩ := earlier
  induction later with
  | nil => exact Nat.le_refl _
  | cons c later ih =>
    rw [List.cons_append, peak]
    split
    · exact Nat.le_trans ih (Nat.le_max_right _ _)
    · exact ih

theorem Bailout.exceeded_iff {b : Bailout} {blocks : UInt64} :
    b.exceeded blocks = true ↔ b.blocks ≠ 0 ∧ b.blocks < blocks := by
  simp [Bailout.exceeded]

/-- A call asks for the tier for its heat or for baseline, and for no less than either. -/
theorem wantedTier_cases (config : Config) (count : UInt64) (blocks : Nat) :
    let wanted := wantedTier config count blocks
    let heat := Tier.forLevel (config.thresholds.classify count)
    let sampled := config.thresholds.samples count = true
    let many := config.bailout.exceeded (UInt64.ofNat blocks) = true
    (wanted = .interpreted ∨ sampled ∧ wanted = heat ∨ many ∧ wanted = .baseline) ∧
      (sampled → heat.rank ≤ wanted.rank) ∧ (many → Tier.baseline.rank ≤ wanted.rank) := by
  unfold wantedTier
  dsimp only
  generalize Tier.forLevel (config.thresholds.classify count) = heat
  generalize config.thresholds.samples count = sampled
  generalize config.bailout.exceeded (UInt64.ofNat blocks) = many
  cases heat <;> cases sampled <;> cases many <;> decide

theorem wanted_le_peak {config : Config} {id : FuncId} {calls : List Ended} {c : Ended}
    (member : c ∈ calls) (own : c.function = id) (succeeded : c.succeeded = true) :
    (wantedTier config c.count c.blocks).rank ≤ peak config id calls := by
  obtain ⟨later, earlier, rfl⟩ := List.append_of_mem member
  refine Nat.le_trans ?_ (peak_le_of_suffix (List.suffix_append later (c :: earlier)))
  rw [peak, if_pos ⟨own, succeeded⟩]
  exact Nat.le_max_left _ _

theorem peak_attained (config : Config) (id : FuncId) (calls : List Ended) :
    peak config id calls = 0 ∨ ∃ c ∈ calls, c.function = id ∧ c.succeeded = true ∧
      peak config id calls = (wantedTier config c.count c.blocks).rank := by
  induction calls with
  | nil => exact .inl rfl
  | cons c calls ih =>
    have earlier : peak config id calls = 0 ∨ ∃ d ∈ c :: calls, d.function = id ∧
        d.succeeded = true ∧ peak config id calls = (wantedTier config d.count d.blocks).rank :=
      ih.imp_right fun ⟨d, member, rest⟩ => ⟨d, List.mem_cons_of_mem _ member, rest⟩
    rw [peak]
    split
    · next counts =>
      rcases Nat.le_total (peak config id calls) (wantedTier config c.count c.blocks).rank with
        lower | higher
      · rw [Nat.max_eq_left lower]
        exact .inr ⟨c, by simp, counts.1, counts.2, rfl⟩
      · rw [Nat.max_eq_right higher]
        exact earlier
    · exact earlier

/-- The peak is the highest of the tiers that were asked for. -/
theorem asked_peak {config : Config} {id : FuncId} {calls : List Ended}
    (native : ∀ c ∈ calls, c.interpreted = false → c.blocks = 0) :
    (∃ t, Asked config id calls t ∧ t.rank = peak config id calls) ∧
      ∀ t, Asked config id calls t → t.rank ≤ peak config id calls := by
  constructor
  · rcases peak_attained config id calls with none | ⟨c, member, own, succeeded, highest⟩
    · exact ⟨.interpreted, .start, none.symm⟩
    · refine ⟨_, ?_, highest.symm⟩
      rcases (wantedTier_cases config c.count c.blocks).1 with same | ⟨sampled, same⟩ | ⟨many, same⟩
      · rw [same]
        exact .start
      · rw [same]
        exact .heat member own succeeded sampled
      · rw [same]
        refine .bailout member own succeeded ⟨?_, Bailout.exceeded_iff.mp many⟩
        by_contra code
        rw [native c member (by simpa using code)] at many
        simp [Bailout.exceeded] at many
  · intro t asked
    cases asked with
    | start => exact Nat.zero_le _
    | heat member own succeeded sampled =>
      exact Nat.le_trans ((wantedTier_cases config _ _).2.1 sampled)
        (wanted_le_peak member own succeeded)
    | bailout member own succeeded bails =>
      exact Nat.le_trans ((wantedTier_cases config _ _).2.2 (Bailout.exceeded_iff.mpr bails.2))
        (wanted_le_peak member own succeeded)

/-- A tier that has a generator is chosen when it is the target. -/
theorem Setup.backendFor_target {setup : Setup} {current target : Tier} {b : Backend}
    (above : current.rank < target.rank) (has : setup.backendOf? target = some b) :
    setup.backendFor current target = some (target, b) := by
  have found : (setup.backendFor current target).isSome = true := by
    refine List.findSome?_isSome_iff.mpr ⟨target, ?_, by rw [has]; rfl⟩
    have all : target ∈ Tier.all := by cases target <;> decide
    simpa [all] using above
  obtain ⟨⟨t, b'⟩, chosen⟩ := Option.isSome_iff_exists.mp found
  obtain ⟨_, atMost, has', missing⟩ := Setup.backendFor_some chosen
  have same : t = target := by
    refine Tier.rank_inj (Nat.le_antisymm atMost (Nat.le_of_not_lt fun lower => ?_))
    rw [missing target lower (Nat.le_refl _)] at has
    cases has
  subst same
  rw [chosen, Option.some.inj (has'.symm.trans has)]

namespace State

/-- A generator that has code for the function gives it. -/
theorem compile_of_built {slot : Slot} {tier : Tier} {backend : Backend} {code : CompiledCode}
    {convention : Convention} (built : slot.Built tier backend code convention) (s : State)
    (id : FuncId) : ∃ a, s.compile slot id tier backend =
      (.ok (some (code, convention)), { s with attempts := a :: s.attempts }) := by
  obtain ⟨done, optimised, made⟩ := built.made
  unfold compile
  simp only [optimised, made]
  rcases built.convention with own | ⟨none, signature⟩
  · simp only [own]
    exact ⟨_, rfl⟩
  · simp only [none, signature]
    exact ⟨_, rfl⟩

/-- What becomes of a promotion to a tier that has code: a crash, a failure of the code memory, or
the function runs on the code. -/
inductive Delivered (s : State) (id : FuncId) (target : Tier) :
    Except (Fault InstallFailure) Unit × State → Prop where
  | crashed (c : Crash) (attempts : List Attempt) (manager : Manager) :
      Delivered s id target (.error (.crash c), { s with attempts, manager })
  | failed (e : InstallFailure) (attempts : List Attempt) (manager : Manager) (failures : Nat) :
      Delivered s id target (.error (.error e), { s with attempts, manager, failures }.disable e)
  | published (e : Entry) (level : e.tier = target) (attempts : List Attempt) (manager : Manager) :
      Delivered s id target (.ok (), { s with attempts, manager }.publish id e)

theorem compileAndInstall_delivered {setup : Setup} {slot : Slot}
    (compilable : Compilable setup slot.function) {job : Job}
    (above : slot.tier.rank < job.target.rank) (s : State) :
    Delivered s job.function job.target (s.compileAndInstall setup slot job) := by
  have compiled : job.target ≠ .interpreted := by
    intro same
    rw [same] at above
    exact Nat.not_lt_zero _ above
  obtain ⟨backend, code, convention, has, built⟩ := compilable.built job.target compiled
  have own : slot.Built job.target backend code convention := ⟨built.made, built.convention⟩
  obtain ⟨a, made⟩ := compile_of_built own s job.function
  unfold compileAndInstall
  simp only [Setup.backendFor_target above has, made]
  have kept := fun name => install_attempts s (a :: s.attempts) name code.code
  generalize s!"{slot.function.name}@{job.target.name}" = name
  have kept := kept name
  revert kept
  generalize install { s with attempts := a :: s.attempts } name code.code = out
  obtain ⟨r, t⟩ := out
  rintro rfl
  rcases r with (e | c) | addr
  · exact .failed e _ _ _
  · exact .crashed c _ _
  · exact .published { tier := job.target, addr, convention, backend := backend.name,
                       code := code.code, program := .ofBytes code.code } rfl (a :: s.attempts) _

end State

/-- A function that no promotion holds and for which none has failed. Each of its promotions has
taken it to a higher tier. -/
structure Slot.Climbing (slot : Slot) (f : Function) : Prop where
  function : slot.function = f
  free : slot.promoting = false
  untried : slot.failed = 0
  each : slot.promotions ≤ slot.tier.rank

/-- A function is on the tier of a rank unless the code memory has failed, and can be promoted
further. -/
def State.Settled (s : State) (id : FuncId) (f : Function) (rank : Nat) : Prop :=
  ∃ slot, s.slot? id = some slot ∧ slot.Climbing f ∧ (s.failure = none → slot.tier.rank = rank)

/-- What a session has to have for its functions to be promoted at once. -/
structure Setup.Promotes (setup : Setup) : Prop where
  sync : setup.config.background = false
  room : 4 ≤ setup.config.maxPromotions
  invoker : setup.invoker.isSome = true

namespace State

variable {setup : Setup} {s : State} {id : FuncId} {f : Function} {rank : Nat}

theorem Settled.congr {s' : State} (settled : s.Settled id f rank) (same : s'.slot? id = s.slot? id)
    (failure : s'.failure = none → s.failure = none) : s'.Settled id f rank := by
  obtain ⟨slot, there, climbing, level⟩ := settled
  exact ⟨slot, same.trans there, climbing, fun sound => level (failure sound)⟩

/-- A promotion to a higher tier is granted. -/
theorem grants_higher (promotes : setup.Promotes) (compilable : Compilable setup f)
    (active : s.closed = false) (sound : s.failure = none) {slot : Slot} (climbing : slot.Climbing f)
    {target : Tier} (above : slot.tier.rank < target.rank) :
    s.grants setup slot target = true := by
  have top : target.rank ≤ 4 := by cases target <;> decide
  have generators : setup.backends.isEmpty = false := by
    obtain ⟨b, _, _, has, _⟩ := compilable.built .baseline (by decide)
    obtain ⟨name, _, found⟩ := Option.bind_eq_some_iff.mp has
    refine List.isEmpty_eq_false_iff.mpr fun empty => ?_
    rw [Setup.backend?, empty] at found
    cases found
  have each := climbing.each
  have room := promotes.room
  simp only [grants, sound, active, climbing.function, compilable.body, promotes.invoker,
    climbing.untried, climbing.free, generators, Option.isNone_none, Bool.not_false, Bool.and_true,
    Bool.true_and, decide_eq_true_eq, Bool.and_eq_true]
  omega

theorem slot?_release (s : State) (id : FuncId) :
    (s.release id).slot? id = (s.slot? id).map ({ · with promoting := false }) := by
  show (s.modifySlot _ _).slot? id = _
  rw [slot?_modifySlot, if_pos rfl]

/-- A promotion that is carried out takes the function to its target, unless it crashes. -/
theorem Settled.promote (compilable : Compilable setup f) {slot : Slot}
    (there : s.slot? id = some { slot with promoting := true }) (climbing : slot.Climbing f)
    {target : Tier} (above : slot.tier.rank < target.rank) :
    let out := s.promote setup ⟨id, target⟩
    (ignoreFailure out.1 = .ok () → out.2.Settled id f target.rank) ∧
      (ignoreFailure out.1 ≠ .ok () → out.2.slot? id = some slot) := by
  have delivered : Delivered s id target
      (s.compileAndInstall setup { slot with promoting := true } ⟨id, target⟩) :=
    @compileAndInstall_delivered setup { slot with promoting := true }
      (climbing.function ▸ compilable) ⟨id, target⟩ above s
  unfold State.promote
  simp only [there]
  revert delivered
  generalize s.compileAndInstall setup _ _ = out
  intro delivered
  cases delivered with
  | crashed c attempts manager =>
    refine ⟨by rintro ⟨⟩, fun _ => ?_⟩
    rw [slot?_release, show State.slot? { s with attempts, manager } id = s.slot? id from rfl, there,
      Option.map_some, ← climbing.free]
  | failed e attempts manager failures =>
    refine ⟨fun _ => ⟨slot, ?_, climbing, by rintro ⟨⟩⟩, fun other => absurd rfl other⟩
    rw [slot?_release, show (State.disable { s with attempts, manager, failures } e).slot? id =
      s.slot? id from rfl, there, Option.map_some, ← climbing.free]
  | published e level attempts manager =>
    refine ⟨fun _ => ?_, fun other => absurd rfl other⟩
    refine ⟨{ slot with entry := some e, promotions := slot.promotions + 1, promoting := false },
      ?_, ⟨climbing.function, rfl, climbing.untried, ?_⟩, fun _ => congrArg Tier.rank level⟩
    · have named : (State.publish { s with attempts, manager } id e).slot? id =
          (s.slot? id).map fun slot =>
            { slot with entry := some e, promotions := slot.promotions + 1 } := by
        show (State.modifySlot { s with attempts, manager } _ _).slot? id = _
        rw [slot?_modifySlot, if_pos rfl]
        rfl
      rw [slot?_release, named, there]
      rfl
    · have each := climbing.each
      show slot.promotions + 1 ≤ e.tier.rank
      rw [level]
      exact Nat.lt_of_le_of_lt each above

/-- A request takes the function to the tier that it asks for, if it is higher. -/
theorem Settled.request (promotes : setup.Promotes) (compilable : Compilable setup f)
    (active : s.closed = false) (settled : s.Settled id f rank) (target : Tier) :
    let out := s.request setup ⟨id, target⟩
    (out.1 = .ok () → out.2.Settled id f (max target.rank rank)) ∧
      (out.1 ≠ .ok () → out.2.Settled id f rank) := by
  obtain ⟨slot, there, climbing, level⟩ := settled
  have aside := request_aside setup s ⟨id, target⟩
  unfold State.request at aside ⊢
  simp only [there] at aside ⊢
  by_cases granted : s.grants setup slot target = true
  · have held : (s.acquire id).slot? id = some { slot with promoting := true } := by
      show (s.modifySlot _ _).slot? id = _
      rw [slot?_modifySlot, if_pos rfl, there]
      rfl
    have above := (Reaches.due_of_grants granted).1.higher
    obtain ⟨done, crashed⟩ := Settled.promote compilable held climbing above
    simp only [granted, Bool.not_true, Bool.false_eq_true, if_false, promotes.sync] at aside ⊢
    refine ⟨fun ended => ?_, fun stopped =>
      ⟨slot, crashed stopped, climbing, fun sound => level (aside.failure sound)⟩⟩
    obtain ⟨slot', there', climbing', level'⟩ := done ended
    refine ⟨slot', there', climbing', fun sound => ?_⟩
    rw [level (aside.failure sound)] at above
    rw [level' sound, Nat.max_eq_left (Nat.le_of_lt above)]
  · simp only [Bool.eq_false_iff.mpr granted, Bool.not_false, if_true, ne_eq, not_true, false_implies,
      and_true]
    refine fun _ => ⟨slot, there, climbing, fun sound => ?_⟩
    rw [level sound]
    have lower : ¬ slot.tier.rank < target.rank := fun above =>
      granted (grants_higher promotes compilable active sound climbing above)
    rw [level sound] at lower
    omega

end State

section Run

variable {setup : Setup} {id : FuncId} {f : Function}

/-- The function is on the highest tier that its ended calls have asked for. -/
structure Noted.Follows (setup : Setup) (id : FuncId) (f : Function) (n : Noted) : Prop where
  settled : n.state.Settled id f (peak setup.config id n.calls)
  native : ∀ c ∈ n.calls, c.interpreted = false → c.blocks = 0

/-- What a run of calls adds to: calls are only noted, a failure stays, and the function goes on
being on the highest tier asked for. -/
structure Noted.Onward (setup : Setup) (id : FuncId) (f : Function) (n n' : Noted) : Prop where
  closed : n'.state.closed = n.state.closed
  failure : n'.state.failure = none → n.state.failure = none
  calls : n.calls <:+ n'.calls
  follows : n.state.closed = false → n.Follows setup id f → n'.Follows setup id f

namespace Noted

theorem Onward.refl (n : Noted) : n.Onward setup id f n :=
  ⟨rfl, fun sound => sound, List.suffix_refl _, fun _ follows => follows⟩

theorem Onward.trans {n u t : Noted} (first : n.Onward setup id f u)
    (second : u.Onward setup id f t) : n.Onward setup id f t :=
  ⟨second.closed.trans first.closed, fun sound => first.failure (second.failure sound),
    first.calls.trans second.calls, fun active follows =>
      second.follows (first.closed.trans active) (first.follows active follows)⟩

/-- Noting a call of another function, or one that gave no value. -/
theorem Follows.note {n : Noted} (follows : n.Follows setup id f) {state : State} {c : Ended}
    (other : c.function ≠ id ∨ c.succeeded = false)
    (settled : state.Settled id f (peak setup.config id n.calls))
    (native : c.interpreted = false → c.blocks = 0) :
    ((n.withState state).note c).Follows setup id f := by
  refine ⟨?_, fun d member => ?_⟩
  · have same : peak setup.config id (c :: n.calls) = peak setup.config id n.calls := by
      rw [peak, if_neg]
      rintro ⟨own, succeeded⟩
      rcases other with foreign | stopped
      · exact foreign own
      · rw [succeeded] at stopped
        cases stopped
    show state.Settled id f (peak setup.config id (c :: n.calls))
    rwa [same]
  · rcases List.mem_cons.mp member with rfl | earlier
    · exact native
    · exact follows.native d earlier

/-- Noting a call of the function that gave a value, the function being on the tier that the call
asked for or on a higher one. -/
theorem Follows.noteOwn {n : Noted} (follows : n.Follows setup id f) {state : State} {c : Ended}
    (own : c.function = id) (succeeded : c.succeeded = true)
    (settled : state.Settled id f
      (max (wantedTier setup.config c.count c.blocks).rank (peak setup.config id n.calls)))
    (native : c.interpreted = false → c.blocks = 0) :
    ((n.withState state).note c).Follows setup id f := by
  refine ⟨?_, fun d member => ?_⟩
  · show state.Settled id f (peak setup.config id (c :: n.calls))
    rwa [peak, if_pos ⟨own, succeeded⟩]
  · rcases List.mem_cons.mp member with rfl | earlier
    · exact native
    · exact follows.native d earlier

/-- A call, with the calls that are made meanwhile. -/
theorem Onward.call (promotes : setup.Promotes) (compilable : Compilable setup f) {n u t : Noted}
    {x : FuncId} {slot : Slot} {r : Except Halt (Value × Nat)}
    (there : n.state.slot? x = some slot)
    (native : (n.begun setup slot x).interpreted = false →
      ∀ v blocks, r = .ok (v, blocks) → blocks = 0)
    (meanwhile : (n.counted x).Onward setup id f u)
    (ended : Ending setup slot (n.begun setup slot x) u r t) : n.Onward setup id f t := by
  have before : n.Follows setup id f → (n.counted x).Follows setup id f := fun follows =>
    ⟨follows.settled, follows.native⟩
  cases ended with
  | stopped h =>
    refine ⟨meanwhile.closed, meanwhile.failure, meanwhile.calls.trans (List.suffix_cons _ _),
      fun active follows => ?_⟩
    have after := meanwhile.follows active (before follows)
    exact after.note (.inr rfl) after.settled fun _ => rfl
  | content v blocks low =>
    refine ⟨meanwhile.closed, meanwhile.failure, meanwhile.calls.trans (List.suffix_cons _ _),
      fun active follows => ?_⟩
    have after := meanwhile.follows active (before follows)
    have blank := fun code => native code v blocks rfl
    by_cases own : x = id
    · subst own
      refine after.noteOwn rfl rfl ?_ blank
      obtain ⟨slot', there', climbing, level⟩ := after.settled
      refine ⟨slot', there', climbing, fun sound => ?_⟩
      -- the tier that was asked for is at most the one that the call began on
      obtain ⟨_, there'', _, level''⟩ := follows.settled
      cases there.symm.trans there''
      rw [level'' (meanwhile.failure sound)] at low
      rw [level sound, Nat.max_eq_right (Nat.le_trans low (peak_le_of_suffix meanwhile.calls))]
    · exact after.note (.inl own) after.settled blank
  | asked v blocks done =>
    have aside := State.request_aside setup u.state
      ⟨x, wantedTier setup.config (n.begun setup slot x).count blocks⟩
    refine ⟨aside.closed.trans meanwhile.closed, fun sound => meanwhile.failure (aside.failure sound),
      meanwhile.calls.trans (List.suffix_cons _ _), fun active follows => ?_⟩
    have after := meanwhile.follows active (before follows)
    have blank := fun code => native code v blocks rfl
    by_cases own : x = id
    · subst own
      exact after.noteOwn rfl rfl ((after.settled.request promotes compilable
        (meanwhile.closed.trans active) _).1 done) blank
    · exact after.note (.inl own)
        (after.settled.congr (aside.slots id (Ne.symm own)) aside.failure) blank
  | crashed v blocks undone =>
    have aside := State.request_aside setup u.state
      ⟨x, wantedTier setup.config (n.begun setup slot x).count blocks⟩
    refine ⟨aside.closed.trans meanwhile.closed, fun sound => meanwhile.failure (aside.failure sound),
      meanwhile.calls.trans (List.suffix_cons _ _), fun active follows => ?_⟩
    have after := meanwhile.follows active (before follows)
    by_cases own : x = id
    · subst own
      exact after.note (.inr rfl) ((after.settled.request promotes compilable
        (meanwhile.closed.trans active) _).2 undone) fun _ => rfl
    · exact after.note (.inl own)
        (after.settled.congr (aside.slots id (Ne.symm own)) aside.failure) fun _ => rfl

end Noted

/-- Calls keep the function on the highest tier that was asked for. -/
theorem noteAll_onward (promotes : setup.Promotes) (compilable : Compilable setup f)
    (calls : List (FuncId × List Value)) (w : Eval.World Noted) :
    w.rest.Onward setup id f (noteAll setup calls w).rest :=
  noteAll_relates Noted.Onward.refl Noted.Onward.trans
    (fun x args w => executeNoting_relates Noted.Onward.refl Noted.Onward.trans
      (fun _ _ => ⟨rfl, fun sound => sound, List.suffix_refl _, fun _ follows =>
        ⟨follows.settled, follows.native⟩⟩)
      (fun _ _ _ _ _ _ _ there native meanwhile ended =>
        Noted.Onward.call promotes compilable there native meanwhile ended) _ 0 x args w) calls w

end Run

section Opening

/-- A session as it is opened: nothing has been counted. -/
theorem start_spec {setup : Setup} {heap : Heap} {s : Session} (started : start setup heap = .ok s) :
    s.state.closed = false ∧ s.state.tracker.counts = #[] := by
  obtain ⟨_, _, same⟩ := bind_eq_ok.mp started
  cases same
  exact ⟨rfl, rfl⟩

/-- A session that starts interpreted gets slots for the functions of its module. -/
theorem register_spec {s : Session} {m : Module}
    (interpreted : s.setup.config.startInterpreted = true)
    (registered : (s.register m).1 = .ok ()) : (s.register m).2.setup = s.setup ∧
      (s.register m).2.state = { s.state with
        program := some { module := m, slots := m.functions.map fun f => { function := f } }
        tracker := s.state.tracker.grow m.functions.size } := by
  have outcome := register_cases s m []
  revert registered outcome
  generalize s.register m = out
  intro registered outcome
  cases outcome with
  | refused reason => cases registered
  | crashed c => cases registered
  | interpreted takes lazily => exact ⟨rfl, rfl⟩
  | compiled takes eagerly ran => cases eagerly.symm.trans interpreted

end Opening

/-- A hotter count asks for no lower tier. -/
theorem heat_mono (t : Hotness.Thresholds) {a b : UInt64} (le : a ≤ b) :
    (Tier.forLevel (t.classify a)).rank ≤ (Tier.forLevel (t.classify b)).rank := by
  rw [UInt64.le_iff_toNat_le] at le
  unfold Hotness.Thresholds.classify
  simp only [UInt64.le_iff_toNat_le, ← UInt64.toNat_inj, UInt64.toNat_zero]
  split_ifs <;> simp only [Tier.forLevel, Tier.rank, Nat.le_refl, Nat.zero_le] <;> omega

/-- When all calls have given values without entering too many blocks, the highest tier asked for is
the one for the heat of the largest number that was sampled. -/
theorem highest_sampled {config : Config} {id : FuncId} {ended : List Ended} {tier : Tier}
    (asked : Asked config id ended tier)
    (highest : ∀ t, Asked config id ended t → t.rank ≤ tier.rank)
    (regular : ∀ c ∈ callsOf id ended, c.succeeded = true ∧ ¬ c.Bails config) {n : Nat}
    (few : n < 2 ^ 64)
    (numbers : ((callsOf id ended).map (·.count)).Perm
      ((List.range n).map fun k => UInt64.ofNat (k + 1))) :
    let sampled := { k : Nat | 1 ≤ k ∧ k ≤ n ∧ config.thresholds.samples (UInt64.ofNat k) = true }
    (∀ k, IsGreatest sampled k → tier = .forLevel (config.thresholds.classify (UInt64.ofNat k))) ∧
      (sampled = ∅ → tier = .interpreted) := by
  intro sampled
  -- a call that asked for its heat has one of the numbers
  have numbered : ∀ c ∈ ended, c.function = id → config.thresholds.samples c.count = true →
      ∃ k ∈ sampled, c.count = UInt64.ofNat k := by
    intro c member own hot
    have listed : c.count ∈ (callsOf id ended).map (·.count) :=
      List.mem_map_of_mem (List.mem_filter.mpr ⟨member, by simpa using own⟩)
    obtain ⟨j, inside, number⟩ := List.mem_map.mp (numbers.mem_iff.mp listed)
    have inside := List.mem_range.mp inside
    exact ⟨j + 1, ⟨by omega, by omega, by rw [number]; exact hot⟩, number.symm⟩
  constructor
  · rintro k ⟨⟨positive, inside, hot⟩, greatest⟩
    have listed : UInt64.ofNat k ∈ (callsOf id ended).map (·.count) :=
      numbers.mem_iff.mpr (List.mem_map.mpr ⟨k - 1, List.mem_range.mpr (by omega), by
        congr 1
        omega⟩)
    obtain ⟨c, called, number⟩ := List.mem_map.mp listed
    obtain ⟨member, own⟩ := List.mem_filter.mp called
    have least := highest _ (.heat member (by simpa using own) (regular c called).1
      (number ▸ hot))
    rw [number] at least
    refine Tier.rank_inj (Nat.le_antisymm ?_ least)
    cases asked with
    | start => exact Nat.zero_le _
    | heat member own _ sampledCall =>
      obtain ⟨j, among, number⟩ := numbered _ member own sampledCall
      have atMost : j ≤ k := greatest among
      rw [number]
      refine heat_mono _ ?_
      rw [UInt64.le_iff_toNat_le, UInt64.toNat_ofNat', UInt64.toNat_ofNat',
        Nat.mod_eq_of_lt (by omega), Nat.mod_eq_of_lt (by omega)]
      exact atMost
    | bailout member own _ bails =>
      exact absurd bails
        (regular _ (List.mem_filter.mpr ⟨member, by simpa using own⟩)).2
  · intro none
    cases asked with
    | start => rfl
    | heat member own _ sampledCall =>
      obtain ⟨j, among, _⟩ := numbered _ member own sampledCall
      rw [none] at among
      cases among
    | bailout member own _ bails =>
      exact absurd bails
        (regular _ (List.mem_filter.mpr ⟨member, by simpa using own⟩)).2

/-- A session that has its module and no calls yet, with room for notes. -/
theorem opened_spec {setup : Setup} {heap : Heap} {s : Session} (started : start setup heap = .ok s)
    (interpreted : s.setup.config.startInterpreted = true) {m : Module} {id : FuncId} {f : Function}
    (function : m.functions[id.num]? = some f) (registered : (s.register m).1 = .ok ()) :
    (s.register m).2.setup = s.setup ∧ (s.register m).2.state.closed = false ∧
      Noted.Follows s.setup id f ⟨(s.register m).2.state, []⟩ ∧
      Noted.Numbered id [] ⟨(s.register m).2.state, []⟩ := by
  obtain ⟨active, none⟩ := start_spec started
  obtain ⟨setup, state⟩ := register_spec interpreted registered
  rw [state]
  have there : State.slot? { s.state with
      program := some { module := m, slots := m.functions.map fun f => { function := f } }
      tracker := s.state.tracker.grow m.functions.size } id = some { function := f } := by
    show (m.functions.map fun f => ({ function := f } : Slot))[id.num]? = _
    rw [Array.getElem?_map, function]
    rfl
  refine ⟨setup, active, ⟨⟨_, there, ⟨rfl, rfl, rfl, Nat.zero_le _⟩, fun _ => rfl⟩, ?_⟩, ⟨?_, ?_⟩⟩
  · rintro c ⟨⟩
  · show (s.state.tracker.grow m.functions.size).count id.num = 0
    rw [count_grow, Hotness.Tracker.count, none]
    rfl
  · exact .refl _

/-- Every call of a function that was counted has ended and is in the history, and the tier of the
function is the highest one that these calls have asked for. As long as all of them have given values
without entering too many blocks, it is the tier for the heat of the largest number of a call that was
sampled. -/
theorem tier_follows_calls {setup : Setup} {heap : Heap} {s : Session}
    (started : start setup heap = .ok s) (interpreted : s.setup.config.startInterpreted = true)
    (promotes : s.setup.Promotes) {m : Module} {id : FuncId} {f : Function}
    (function : m.functions[id.num]? = some f) (compilable : Compilable s.setup f)
    (registered : (s.register m).1 = .ok ()) (calls : List (FuncId × List Value))
    (sound : ((s.register m).2.callAll calls).state.failure = none) :
    let t := (s.register m).2.callAll calls
    let ended := history (s.register m).2 calls
    let thresholds := s.setup.config.thresholds
    (t.state.tracker.count id.num = UInt64.ofNat (callsOf id ended).length ∧
      ((callsOf id ended).map (·.count)).Perm
        ((List.range (callsOf id ended).length).map fun k => UInt64.ofNat (k + 1))) ∧
    (Asked s.setup.config id ended (t.tierOf id) ∧
      ∀ tier, Asked s.setup.config id ended tier → tier.rank ≤ (t.tierOf id).rank) ∧
    ((callsOf id ended).length < 2 ^ 64 →
      (∀ c ∈ callsOf id ended, c.succeeded = true ∧ ¬ c.Bails s.setup.config) →
      let count := (t.state.tracker.count id.num).toNat
      let sampled := { k : Nat | 1 ≤ k ∧ k ≤ count ∧ thresholds.samples (UInt64.ofNat k) = true }
      (∀ k, IsGreatest sampled k → t.tierOf id = .forLevel (thresholds.classify (UInt64.ofNat k))) ∧
        (sampled = ∅ → t.tierOf id = .interpreted)) := by
  intro t ended thresholds
  obtain ⟨setup, active, follows, numbered⟩ := opened_spec started interpreted function registered
  let w : Eval.World Noted :=
    { (s.register m).2.world with rest := ⟨(s.register m).2.state, []⟩ }
  let last := noteAll s.setup calls w
  have noted : ended = last.rest.calls := by
    show (noteAll (s.register m).2.setup calls w).rest.calls = _
    rw [setup]
  have state : t.state = last.rest.state := by
    show t.world.rest = _
    rw [noteAll_forgets calls (s.register m).2 w rfl, setup]
    rfl
  have after : last.rest.Follows s.setup id f :=
    (noteAll_onward promotes compilable calls w).follows active follows
  have counted : last.rest.Numbered id [] := noteAll_numbered s.setup calls w numbered
  obtain ⟨slot, there, _, level⟩ := after.settled
  have tier : t.tierOf id = slot.tier := by
    unfold tierOf
    rw [state, there]
    rfl
  have level := level (state ▸ sound)
  obtain ⟨⟨highest, asked, rank⟩, above⟩ := asked_peak after.native
  rw [← noted] at asked rank above level
  obtain rfl : highest = t.tierOf id := Tier.rank_inj (by rw [rank, tier, level])
  rw [← rank] at above
  have same : last.rest.numbers id [] = (callsOf id ended).map (·.count) := by
    rw [Noted.numbers, List.append_nil, noted]
  have count := counted.total
  have numbers := counted.each
  rw [same, List.length_map, ← state] at count
  rw [same, List.length_map] at numbers
  refine ⟨⟨count, numbers⟩, ⟨asked, above⟩, fun few regular => ?_⟩
  have size : (t.state.tracker.count id.num).toNat = (callsOf id ended).length := by
    rw [count, UInt64.toNat_ofNat', Nat.mod_eq_of_lt few]
  rw [← size] at numbers few
  exact highest_sampled asked above regular few numbers

/-- A function that enters two blocks. -/
def winding : Function := {
  name := "winding"
  blocks := #[some { id := ⟨0⟩, term := .br ⟨1⟩ }, some { id := ⟨1⟩, term := .ret none }] }

/-- A session with room for code of all tiers. It looks at every second call of a function, and at
the blocks of every call. -/
def eager : Setup := {
  config := { thresholds := ⟨1, 2, 3, 4, 2⟩, startInterpreted := true, maxPromotions := 4,
              bailout := ⟨1⟩, regionSize := 4096
              backends := some (Tier.compiled.map (·, "made")) }
  backends := [.standIn [] true "made"]
  invoker := some .standIn }

theorem compilable_winding : Compilable eager winding := by
  have named : ∀ t : Tier, (((Pass.Pipeline.forLevel t.optLevel).runFunction winding {}).map
      fun done => (done.function.name, done.function.sig)).toOption =
        some (winding.name, winding.sig) := by
    intro t
    cases t <;> decide +kernel
  refine ⟨rfl, fun t compiled => ?_⟩
  obtain ⟨done, optimised, name, sig⟩ : ∃ done,
      (Pass.Pipeline.forLevel t.optLevel).runFunction winding {} = .ok done ∧
        done.function.name = winding.name ∧ done.function.sig = winding.sig := by
    have same := named t
    cases out : (Pass.Pipeline.forLevel t.optLevel).runFunction winding {} with
    | error c => simp [out, Except.map, Except.toOption] at same
    | ok done =>
      exact ⟨done, rfl, by simpa [out, Except.map, Except.toOption] using same⟩
  have generator : eager.backendOf? t = some (.standIn [] true "made") := by
    cases t <;> first | exact absurd rfl compiled | rfl
  obtain ⟨convention, placed⟩ : ∃ c, Convention.ofSignature winding.sig = .ok c := ⟨_, rfl⟩
  refine ⟨_, ⟨winding.name, "made", 0xCC :: winding.name.toUTF8.toList, some convention⟩, convention,
    generator, ⟨done, optimised, ?_⟩, .inl rfl⟩
  unfold Backend.standIn
  dsimp only
  rw [name, sig, placed]
  rfl

/-- The first call enters too many blocks and brings the function to the baseline tier; the second one
is sampled. -/
theorem tier_follows_calls_winding : ∃ s, start eager (Heap.ofPage 4096) = .ok s ∧
    let once := (s.register { functions := #[winding] }).2.callAll [(⟨0⟩, [])]
    let twice := (s.register { functions := #[winding] }).2.callAll [(⟨0⟩, []), (⟨0⟩, [])]
    (Asked s.setup.config ⟨0⟩ (history (s.register { functions := #[winding] }).2 [(⟨0⟩, [])])
      (once.tierOf ⟨0⟩) ∧ once.tierOf ⟨0⟩ = .baseline) ∧
    (Asked s.setup.config ⟨0⟩
      (history (s.register { functions := #[winding] }).2 [(⟨0⟩, []), (⟨0⟩, [])])
      (twice.tierOf ⟨0⟩) ∧ twice.tierOf ⟨0⟩ = .standard) := by
  obtain ⟨s, started⟩ : ∃ s, start eager (Heap.ofPage 4096) = .ok s := ⟨_, rfl⟩
  have run : ((start eager (Heap.ofPage 4096)).toOption.map fun s =>
      let r := s.register { functions := #[winding] }
      let once := r.2.callAll [(⟨0⟩, [])]
      let twice := r.2.callAll [(⟨0⟩, []), (⟨0⟩, [])]
      (r.1.toOption, (once.state.failure.isNone, once.tierOf ⟨0⟩),
        (twice.state.failure.isNone, twice.tierOf ⟨0⟩))) =
      some (some (), (true, .baseline), (true, .standard)) := by
    decide +kernel
  have setup : s.setup = eager := by
    cases started
    rfl
  rw [started] at run
  obtain ⟨registered, rest⟩ := Prod.mk.inj (Option.some.inj run)
  obtain ⟨once, twice⟩ := Prod.mk.inj rest
  obtain ⟨sound, level⟩ := Prod.mk.inj once
  obtain ⟨sound', level'⟩ := Prod.mk.inj twice
  have registered : (s.register { functions := #[winding] }).1 = .ok () := by
    cases out : (s.register { functions := #[winding] }).1 with
    | ok => rfl
    | error e => simp [out, Except.toOption] at registered
  have function : ({ functions := #[winding] } : Module).functions[(⟨0⟩ : FuncId).num]? = some winding :=
    rfl
  have follows := fun calls => tier_follows_calls started (by rw [setup]; rfl)
    (by rw [setup]; exact ⟨rfl, by decide, rfl⟩) function (setup ▸ compilable_winding) registered calls
  exact ⟨s, started, ⟨(follows _ (Option.isNone_iff_eq_none.mp sound)).2.1.1, level⟩,
    ⟨(follows _ (Option.isNone_iff_eq_none.mp sound')).2.1.1, level'⟩⟩

end TieredEngine.Session
