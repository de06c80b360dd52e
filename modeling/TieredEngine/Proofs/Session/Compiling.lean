import TieredEngine.Proofs.Session.Promotion

/-!
A session that does not start interpreted compiles all functions when it is given its module. Each
function has a task, and the tasks take their steps in any order. What granted promotions keep holds
whenever the tasks have come to their end, however their steps were mixed: a function is in hand from
the step that takes it to the step that carries its promotion out, and the tasks have no function in
common.

What comes out of the tasks is the first failure that one of them has handed over. A failure of the
code memory is one that the session has remembered, and a context that is over is one that the caller
has ended: a task that fails ends the context of the others only after its own failure counts.

The second part says what giving a session its module can do, and what holds of every state that the
operations of a session lead to.
-/
namespace TieredEngine.Session
open TieredEngine TieredEngine.Ir TieredEngine.Native

/-- The function that a task has in hand. -/
def Task.hand (id : FuncId) : Task → List FuncId
  | .granted => [id]
  | _ => []

/-- A bound for the steps that a task has left. -/
def Task.rank : Task → Nat
  | .begun => 4
  | .admitted => 3
  | .granted => 2
  | .ending _ => 1
  | .finished => 0

namespace Compiling

variable {setup : Setup} {c : Compiling} {id : FuncId} {task : Task}

/-- Everything that one step of a task can do. -/
inductive Advanced (setup : Setup) (c : Compiling) (id : FuncId) : Task → Compiling × Task → Prop where
  | stopped {e : Cancellation} (ended : c.cancelled = some e) :
      Advanced setup c id .begun (c, .ending (.error (.error (.context e))))
  | admitted : Advanced setup c id .begun (c, .admitted)
  | unwanted : Advanced setup c id .admitted (c, .ending (.ok ()))
  | granted {slot : Slot} (there : c.state.slot? id = some slot)
      (granted : c.state.grants setup slot .baseline = true) :
      Advanced setup c id .admitted ({ c with state := c.state.acquire id }, .granted)
  | carried {r : Except (Fault InstallFailure) Unit} {state : State}
      (ran : c.state.promote setup ⟨id, .baseline⟩ = (r, state)) :
      Advanced setup c id .granted ({ c with state }, .ending (r.mapError Abort.ofPromotion))
  | done : Advanced setup c id (.ending (.ok ())) (c, .finished)
  | failed (e : Fault Abort) : Advanced setup c id (.ending (.error e))
      ({ c with
        cancelled := some (c.cancelled.getD .canceled), failure := some (c.failure.getD e) }, .finished)
  | finished : Advanced setup c id .finished (c, .finished)

theorem advance_cases (setup : Setup) (c : Compiling) (id : FuncId) (task : Task) :
    Advanced setup c id task (c.advance setup id task) := by
  cases task with
  | begun =>
    simp only [advance]
    split
    · next ended => exact .stopped ended
    · exact .admitted
  | admitted =>
    simp only [advance]
    split
    · exact .unwanted
    · next there =>
      split
      · next granted => exact .granted there granted
      · exact .unwanted
  | granted => exact .carried rfl
  | ending r =>
    cases r with
    | ok => exact .done
    | error e => exact .failed e
  | finished => exact .finished

/-- Everything that can happen next. -/
inductive Turned (setup : Setup) (c : Compiling) : Turn → Compiling → Prop where
  | nothing (n : Nat) : Turned setup c (.task n) c
  | task {n : Nat} {before after : List (FuncId × Task)} {id : FuncId} {task : Task}
      {out : Compiling × Task} (position : before.length = n)
      (split : c.tasks = before ++ (id, task) :: after) (advanced : Advanced setup c id task out) :
      Turned setup c (.task n) { out.1 with tasks := before ++ (id, out.2) :: after }
  | cancel (e : Cancellation) :
      Turned setup c (.cancel e) { c with cancelled := some (c.cancelled.getD e) }

theorem turn_cases (setup : Setup) (c : Compiling) (t : Turn) : Turned setup c t (c.turn setup t) := by
  cases t with
  | cancel e => exact .cancel e
  | task n =>
    simp only [turn]
    split
    · exact .nothing n
    · next id task there =>
      obtain ⟨inside, found⟩ := List.getElem?_eq_some_iff.mp there
      obtain ⟨before, after, split, position, set⟩ : ∃ before after,
          c.tasks = before ++ c.tasks[n] :: after ∧ before.length = n ∧
            c.tasks.set n (id, (c.advance setup id task).2) =
              before ++ (id, (c.advance setup id task).2) :: after := List.exists_of_set inside
      rw [found] at split
      rw [set]
      exact .task position split (advance_cases setup c id task)

/-- Functions that a task has in hand. -/
def hand (c : Compiling) : List FuncId := c.tasks.flatMap fun t => t.2.hand t.1

theorem hand_split {before after : List (FuncId × Task)}
    (split : c.tasks = before ++ (id, task) :: after) :
    c.hand.Perm (task.hand id ++ (before ++ after).flatMap fun t => t.2.hand t.1) := by
  unfold hand
  rw [split, List.flatMap_append, List.flatMap_cons, List.flatMap_append]
  exact List.perm_append_comm_assoc _ _ _

end Compiling

/-- What granted promotions keep, with the functions that are in hand. -/
structure Kept (setup : Setup) (J : List FuncId → State → Prop) : Prop where
  perm : ∀ {hand hand' : List FuncId} {s : State}, hand.Perm hand' → J hand s → J hand' s
  acquire : ∀ {hand : List FuncId} {s : State} {id : FuncId} {slot : Slot},
    s.slot? id = some slot → s.grants setup slot .baseline = true → J hand s →
    J (id :: hand) (s.acquire id)
  promote : ∀ {hand : List FuncId} {s : State} {id : FuncId}, J (id :: hand) s →
    J hand (s.promote setup ⟨id, .baseline⟩).2

namespace Compiling

variable {setup : Setup} {c : Compiling}

theorem kept_turn {J : List FuncId → State → Prop} (kept : Kept setup J) (held : J c.hand c.state)
    (t : Turn) : J (c.turn setup t).hand (c.turn setup t).state := by
  have turned := turn_cases setup c t
  revert turned
  generalize c.turn setup t = c'
  intro turned
  cases turned with
  | nothing => exact held
  | cancel => exact held
  | @task _ before after id task out _ split advanced =>
    -- the function of this task apart, and what the other tasks have in hand
    have held := kept.perm (hand_split split) held
    refine kept.perm (hand_split (c := { out.1 with tasks := before ++ (id, out.2) :: after }) rfl).symm ?_
    cases advanced with
    | granted there granted => exact kept.acquire there granted held
    | carried ran =>
      have promoted := kept.promote held
      rw [ran] at promoted
      exact promoted
    | _ => exact held

theorem kept_run {J : List FuncId → State → Prop} (kept : Kept setup J) (turns : List Turn)
    (held : J c.hand c.state) : J (c.run setup turns).hand (c.run setup turns).state := by
  induction turns generalizing c with
  | nil => exact held
  | cons t turns ih => exact ih (kept_turn kept held t)

/-- A bound for the steps that the task at a position has left. -/
def left (c : Compiling) (n : Nat) : Nat := (c.tasks[n]?.map (·.2.rank)).getD 0

theorem Advanced.rank {id : FuncId} {task : Task} {out : Compiling × Task}
    (advanced : Advanced setup c id task out) : out.2.rank ≤ task.rank - 1 := by
  cases advanced <;> simp [Task.rank]

/-- A step of a task leaves one step less to it, and as many as before to the others. -/
theorem left_turn (setup : Setup) (c : Compiling) (n m : Nat) :
    (c.turn setup (.task n)).left m ≤ if m = n then c.left m - 1 else c.left m := by
  simp only [turn]
  split
  · next missing =>
    split
    · next same => simp [left, same, missing]
    · exact Nat.le_refl _
  · next id task there =>
    have fewer := (advance_cases setup c id task).rank
    have inside : n < c.tasks.length := (List.getElem?_eq_some_iff.mp there).1
    unfold left
    simp only [List.getElem?_set]
    split
    · next same =>
      subst same
      rw [if_pos rfl, there]
      exact fewer
    · next other =>
      rw [if_neg (Ne.symm other)]

theorem tasks_turn (setup : Setup) (c : Compiling) (t : Turn) :
    (c.turn setup t).tasks.map (·.1) = c.tasks.map (·.1) := by
  have turned := turn_cases setup c t
  revert turned
  generalize c.turn setup t = c'
  intro turned
  cases turned with
  | nothing => rfl
  | cancel => rfl
  | task position split advanced => simp [split]

theorem tasks_run (setup : Setup) (turns : List Turn) (c : Compiling) :
    (c.run setup turns).tasks.map (·.1) = c.tasks.map (·.1) := by
  induction turns generalizing c with
  | nil => rfl
  | cons t turns ih => exact (ih _).trans (tasks_turn setup c t)

theorem run_append (setup : Setup) (first second : List Turn) (c : Compiling) :
    c.run setup (first ++ second) = (c.run setup first).run setup second :=
  List.foldl_append

theorem left_run_le (setup : Setup) {turns : List Turn} (steps : ∀ t ∈ turns, ∃ n, t = .task n)
    (c : Compiling) (m : Nat) : (c.run setup turns).left m ≤ c.left m := by
  induction turns generalizing c with
  | nil => exact Nat.le_refl _
  | cons t turns ih =>
    obtain ⟨n, rfl⟩ := steps _ List.mem_cons_self
    have step : (c.turn setup (.task n)).left m ≤ c.left m :=
      Nat.le_trans (left_turn setup c n m) (by split <;> omega)
    exact Nat.le_trans (ih (fun t inside => steps t (List.mem_cons_of_mem _ inside)) _) step

theorem left_run_replicate (setup : Setup) (k n : Nat) (c : Compiling) :
    (c.run setup (List.replicate k (.task n))).left n ≤ c.left n - k := by
  induction k generalizing c with
  | zero => exact Nat.le_refl _
  | succ k ih =>
    have step := left_turn setup c n n
    rw [if_pos rfl] at step
    have rest := ih (c.turn setup (.task n))
    show ((c.turn setup (.task n)).run setup (List.replicate k (.task n))).left n ≤ _
    omega

theorem left_le (c : Compiling) (n : Nat) : c.left n ≤ 4 := by
  unfold left
  cases c.tasks[n]? with
  | none => exact Nat.zero_le _
  | some t => cases h : t.2 <;> simp [h, Task.rank]

theorem inOrder_steps (count : Nat) : ∀ t ∈ inOrder count, ∃ n, t = .task n := by
  intro t inside
  obtain ⟨n, _, here⟩ := List.mem_flatMap.mp inside
  exact ⟨n, (List.mem_replicate.mp here).2⟩

theorem left_inOrder (setup : Setup) (count : Nat) (c : Compiling) {n : Nat} (early : n < count) :
    (c.run setup (inOrder count)).left n = 0 := by
  induction count with
  | zero => cases early
  | succ count ih =>
    have split : inOrder (count + 1) = inOrder count ++ List.replicate 4 (.task count) := by
      simp [inOrder, List.range_succ]
    rw [split, run_append]
    by_cases last : n = count
    · subst last
      have few := left_le (c.run setup (inOrder n)) n
      have steps := left_run_replicate setup 4 n (c.run setup (inOrder n))
      omega
    · have before := ih (by omega)
      have steps : ((c.run setup (inOrder count)).run setup (List.replicate 4 (.task count))).left n ≤
          (c.run setup (inOrder count)).left n :=
        left_run_le setup (fun t inside => ⟨count, (List.mem_replicate.mp inside).2⟩) _ n
      omega

/-- When all tasks have come to their ends nothing is in hand. -/
theorem hand_finish (setup : Setup) (c : Compiling) : (c.finish setup).hand = [] := by
  have names := congrArg List.length (tasks_run setup (inOrder c.tasks.length) c)
  have length : (c.finish setup).tasks.length = c.tasks.length := by
    rwa [List.length_map, List.length_map] at names
  refine List.flatMap_eq_nil_iff.mpr fun t inside => ?_
  obtain ⟨n, here, there⟩ := List.mem_iff_getElem.mp inside
  have ended : (c.finish setup).left n = 0 :=
    left_inOrder setup c.tasks.length c (length ▸ here)
  rw [left, List.getElem?_eq_getElem here, there] at ended
  obtain ⟨id, task⟩ := t
  cases task <;> simp_all [Task.rank, Task.hand]

end Compiling

namespace State

/-- A failure of the code memory that is reported is also remembered. -/
theorem compileAndInstall_failed {setup : Setup} {s : State} {slot : Slot} {job : Job}
    {e : InstallFailure} (failed : (s.compileAndInstall setup slot job).1 = .error (.error e)) :
    (s.compileAndInstall setup slot job).2.failure ≠ none := by
  revert failed
  unfold compileAndInstall
  split
  · rintro ⟨⟩
  · split
    · rintro ⟨⟩
    · rintro ⟨⟩
    · split
      · rintro ⟨⟩
      · exact fun _ => Option.some_ne_none _
      · rintro ⟨⟩

theorem promote_failed {setup : Setup} {s : State} {job : Job} {e : InstallFailure}
    (failed : (s.promote setup job).1 = .error (.error e)) :
    (s.promote setup job).2.failure ≠ none := by
  revert failed
  unfold promote
  split
  · rintro ⟨⟩
  · exact compileAndInstall_failed

end State

namespace Compiling

variable {setup : Setup} {c : Compiling} {happened : List Turn}

/-- A task has failed, and has not handed its failure over yet. -/
def Failing (c : Compiling) (e : Fault Abort) : Prop := ∃ id, (id, Task.ending (.error e)) ∈ c.tasks

/-- Failures of the code memory, handed over or not, are remembered by the session. -/
def Remembers (c : Compiling) : Prop :=
  ∀ e, c.failure = some (.error (.install e)) ∨ c.Failing (.error (.install e)) →
    c.state.failure ≠ none

/-- As long as no failure has been handed over, a context that is over is one that the caller has
ended; so is one that was over for the first task that handed over its failure. -/
structure Ended (happened : List Turn) (c : Compiling) : Prop where
  failure : ∀ e, c.failure = some (.error (.context e)) → .cancel e ∈ happened
  cancelled : c.failure = none → ∀ e, c.cancelled = some e → .cancel e ∈ happened
  failing : c.failure = none → ∀ e, c.Failing (.error (.context e)) → .cancel e ∈ happened

/-- Of what is set once the first stays. -/
theorem first_stays {α : Type} {x : Option α} {a b : α} (known : some (x.getD a) = some b) :
    x = some b ∨ x = none ∧ a = b := by
  cases x with
  | none => exact .inr ⟨rfl, Option.some.inj known⟩
  | some => exact .inl known

/-- The tasks that fail after the step of one of them. -/
theorem failing_set {before after : List (FuncId × Task)} {id : FuncId} {task task' : Task}
    (split : c.tasks = before ++ (id, task) :: after) {c' : Compiling} {e : Fault Abort}
    (failing : Failing { c' with tasks := before ++ (id, task') :: after } e) :
    c.Failing e ∨ task' = .ending (.error e) := by
  obtain ⟨x, inside⟩ := failing
  rcases List.mem_append.mp inside with early | rest
  · exact .inl ⟨x, split ▸ List.mem_append_left _ early⟩
  · rcases List.mem_cons.mp rest with same | late
    · cases same
      exact .inr rfl
    · exact .inl ⟨x, split ▸ List.mem_append_right _ (List.mem_cons_of_mem _ late)⟩

theorem remembers_turn (remembers : c.Remembers) (t : Turn) : (c.turn setup t).Remembers := by
  have turned := turn_cases setup c t
  revert turned
  generalize c.turn setup t = c'
  intro turned
  cases turned with
  | nothing => exact remembers
  | cancel => exact remembers
  | @task _ before after id task out _ split advanced =>
    intro e failed
    have failed := failed.imp_right (failing_set split)
    cases advanced with
    | carried ran =>
      have kept := (State.promote_counts setup c.state ⟨id, .baseline⟩).1
      have own := @State.promote_failed setup c.state ⟨id, .baseline⟩ e
      rw [ran] at kept own
      have before : c.state.failure ≠ none → _ := fun known => (kept known).symm ▸ known
      rcases failed with known | known | failed
      · exact before (remembers e (.inl known))
      · exact before (remembers e (.inr known))
      · obtain ⟨fault, stopped, same⟩ := mapError_eq_error.mp (Task.ending.inj failed)
        cases fault with
        | crash => cases same
        | error =>
          cases same
          exact own stopped
    | failed e' =>
      rcases failed with known | known | own
      · rcases first_stays known with known | ⟨_, rfl⟩
        · exact remembers e (.inl known)
        · exact remembers e (.inr ⟨id, split ▸ List.mem_append_right _ List.mem_cons_self⟩)
      · exact remembers e (.inr known)
      · cases own
    | _ =>
      rcases failed with known | known | own
      · exact remembers e (.inl known)
      · exact remembers e (.inr known)
      · cases own

theorem ended_turn (ended : c.Ended happened) (t : Turn) :
    (c.turn setup t).Ended (happened ++ [t]) := by
  have ended : c.Ended (happened ++ [t]) :=
    ⟨fun e known => List.mem_append_left _ (ended.failure e known),
      fun quiet e known => List.mem_append_left _ (ended.cancelled quiet e known),
      fun quiet e known => List.mem_append_left _ (ended.failing quiet e known)⟩
  have turned := turn_cases setup c t
  revert turned
  generalize c.turn setup t = c'
  intro turned
  cases turned with
  | nothing => exact ended
  | cancel e' =>
    refine ⟨ended.failure, fun quiet e known => ?_, ended.failing⟩
    rcases first_stays known with known | ⟨_, rfl⟩
    · exact ended.cancelled quiet e known
    · exact List.mem_append_right _ (List.mem_singleton_self _)
  | @task _ before after id task out _ split advanced =>
    cases advanced with
    | @stopped e' told =>
      refine ⟨ended.failure, ended.cancelled, fun quiet e failing => ?_⟩
      rcases failing_set split failing with known | own
      · exact ended.failing quiet e known
      · cases own
        exact ended.cancelled quiet _ told
    | carried ran =>
      refine ⟨ended.failure, ended.cancelled, fun quiet e failing => ?_⟩
      rcases failing_set split failing with known | own
      · exact ended.failing quiet e known
      · obtain ⟨fault, _, same⟩ := mapError_eq_error.mp (Task.ending.inj own)
        cases fault <;> cases same
    | failed e' =>
      refine ⟨fun e known => ?_, by rintro ⟨⟩, by rintro ⟨⟩⟩
      rcases first_stays known with known | ⟨quiet, rfl⟩
      · exact ended.failure e known
      · exact ended.failing quiet _ ⟨id, split ▸ List.mem_append_right _ List.mem_cons_self⟩
    | _ =>
      refine ⟨ended.failure, ended.cancelled, fun quiet e failing => ?_⟩
      rcases failing_set split failing with known | own
      · exact ended.failing quiet e known
      · cases own

theorem remembers_run (turns : List Turn) (remembers : c.Remembers) :
    (c.run setup turns).Remembers := by
  induction turns generalizing c with
  | nil => exact remembers
  | cons t turns ih => exact ih (remembers_turn remembers t)

theorem ended_run (turns : List Turn) (ended : c.Ended happened) :
    (c.run setup turns).Ended (happened ++ turns) := by
  induction turns generalizing c happened with
  | nil => rwa [List.append_nil]
  | cons t turns ih =>
    rw [List.append_cons]
    exact ih (ended_turn ended t)

end Compiling

theorem Compiling.failure_of_result {c : Compiling} {e : Fault Abort}
    (failed : c.result = .error e) : c.failure = some e := by
  unfold result at failed
  split at failed
  · cases failed
  · next known =>
    cases failed
    exact known

namespace State

variable {setup : Setup} {turns : List Compiling.Turn} {ids : List FuncId} {s : State}

/-- What granted promotions keep is kept when functions are compiled, in whichever order the tasks
take their steps, and nothing is in hand in the end. -/
theorem compileAll_keeps {J : List FuncId → State → Prop} (kept : Kept setup J) (held : J [] s) :
    J [] (s.compileAll setup turns ids).2 := by
  have begun : (Compiling.start s ids).hand = [] := by
    simp [Compiling.start, Compiling.hand, List.flatMap_map, Task.hand]
  have ran := Compiling.kept_run kept turns (c := .start s ids) (begun.symm ▸ held)
  have finished : J (((Compiling.start s ids).run setup turns).finish setup).hand
      (s.compileAll setup turns ids).2 := Compiling.kept_run kept _ ran
  rwa [Compiling.hand_finish] at finished

/-- A failure of the code memory that ends it is remembered. -/
theorem compileAll_install {e : InstallFailure}
    (failed : (s.compileAll setup turns ids).1 = .error (.error (.install e))) :
    (s.compileAll setup turns ids).2.failure ≠ none := by
  have begun : (Compiling.start s ids).Remembers := by
    rintro e (known | ⟨id, inside⟩)
    · cases known
    · simp [Compiling.start] at inside
  have ran : (((Compiling.start s ids).run setup turns).finish setup).Remembers :=
    Compiling.remembers_run _ (Compiling.remembers_run turns begun)
  exact ran e (.inl (Compiling.failure_of_result failed))

/-- When the end of the context ends it, the caller has ended the context. -/
theorem compileAll_context {e : Cancellation}
    (failed : (s.compileAll setup turns ids).1 = .error (.error (.context e))) :
    .cancel e ∈ turns := by
  have begun : (Compiling.start s ids).Ended [] := by
    refine ⟨by rintro e ⟨⟩, by rintro _ e ⟨⟩, ?_⟩
    rintro _ e ⟨id, inside⟩
    simp [Compiling.start] at inside
  have ran : (((Compiling.start s ids).run setup turns).finish setup).Ended _ :=
    Compiling.ended_run _ (Compiling.ended_run turns begun)
  rcases List.mem_append.mp (ran.failure e (Compiling.failure_of_result failed)) with given | own
  · simpa using given
  · obtain ⟨n, same⟩ := Compiling.inOrder_steps _ _ own
    cases same

/-- The functions in hand are held by a promotion that is due, and are not queued. -/
structure InHand (setup : Setup) (first : State) (hand : List FuncId) (s : State) : Prop where
  reaches : Reaches setup first s
  distinct : hand.Nodup
  due : ∀ id ∈ hand, ∃ slot, s.slot? id = some slot ∧ slot.promoting = true ∧ slot.Due .baseline ∧
    id ∉ s.queue.map (·.function)

theorem kept_inHand (setup : Setup) (first : State) : Kept setup (InHand setup first) where
  perm same held :=
    ⟨held.reaches, same.nodup_iff.mp held.distinct, fun id inside => held.due id (same.mem_iff.mpr inside)⟩
  acquire := by
    intro hand s id slot there granted held
    obtain ⟨due, free⟩ := Reaches.due_of_grants granted
    have absent := held.reaches.orderly.absent there free
    have other : ∀ x ∈ hand, x ≠ id := by
      rintro x inside rfl
      obtain ⟨slot', there', taken, _⟩ := held.due x inside
      cases there.symm.trans there'
      rw [free] at taken
      cases taken
    refine ⟨held.reaches.still (alike_acquire _ _)
      (held.reaches.orderly.apart absent (apart_acquire _ _)),
      List.nodup_cons.mpr ⟨fun inside => other id inside rfl, held.distinct⟩, fun x inside => ?_⟩
    rcases List.mem_cons.mp inside with rfl | inside
    · refine ⟨{ slot with promoting := true }, ?_, rfl, ⟨due.internal, due.untried, due.higher⟩, absent⟩
      show (s.modifySlot _ _).slot? _ = _
      rw [slot?_modifySlot, if_pos rfl, there]
      rfl
    · rw [(apart_acquire s id).2 x (other x inside)]
      exact held.due x inside
  promote := by
    intro hand s id held
    obtain ⟨absent, distinct⟩ := List.nodup_cons.mp held.distinct
    obtain ⟨slot, there, _, due, idle⟩ := held.due id List.mem_cons_self
    obtain ⟨_, _, _, queue, others⟩ := promote_counts setup s ⟨id, .baseline⟩
    refine ⟨held.reaches.promote there due idle, distinct, fun x inside => ?_⟩
    have other : x ≠ id := by
      rintro rfl
      exact absent inside
    rw [others x other, queue]
    exact held.due x (List.mem_cons_of_mem _ inside)

theorem Reaches.compileAll {first : State} (reaches : Reaches setup first s)
    (turns : List Compiling.Turn) (ids : List FuncId) :
    Reaches setup first (s.compileAll setup turns ids).2 :=
  (compileAll_keeps (kept_inHand setup first) ⟨reaches, List.nodup_nil, by simp⟩).reaches

/-- Nothing is queued meanwhile. -/
theorem queue_compileAll (setup : Setup) (turns : List Compiling.Turn) (ids : List FuncId)
    (s : State) : (s.compileAll setup turns ids).2.queue = s.queue := by
  refine compileAll_keeps (J := fun _ t => t.queue = s.queue) ⟨fun _ same => same,
    fun _ _ same => same, fun {_ t id} same => ?_⟩ rfl
  exact (promote_counts setup t ⟨id, .baseline⟩).2.2.2.1.trans same

end State

/-- What can be done with a session that has its module. -/
inductive Operation where
  | call (id : FuncId) (args : List Value)
  | drain
  | tick (jobs : Nat)

def perform (s : Session) : Operation → Session
  | .call id args => (s.call id args).2
  | .drain => s.drain.2
  | .tick jobs => (s.tick jobs).2

def performAll (s : Session) (ops : List Operation) : Session := ops.foldl perform s

/-- The state of a session in which nothing has happened to the functions of the module yet. -/
structure State.Blank (s : State) (m : Module) : Prop where
  program : ∀ p, s.program = some p →
    p.module = m ∧ p.slots = m.functions.map fun f => { function := f }
  queue : s.queue = []
  attempts : s.attempts = []
  failures : s.failures = 0
  failure : s.failure = none

theorem State.Blank.reaches {s : State} {m : Module} (blank : s.Blank m) (setup : Setup) :
    s.Reaches setup s :=
  ⟨⟨by simp [blank.queue], by simp [blank.queue]⟩, .refl⟩

/-- The functions of the module keep their places. -/
theorem State.Reaches.functions {setup : Setup} {s t : State} {m : Module} (blank : s.Blank m)
    (reaches : s.Reaches setup t) :
    t.slots.map (·.function) = [] ∨ t.slots.map (·.function) = m.functions.toList := by
  have same : t.slots.map (·.function) = s.slots.map (·.function) :=
    reaches.keeps (I := fun t => t.slots.map (·.function) = s.slots.map (·.function))
      (fun _ _ moves before => moves.functions.trans before) rfl
  rw [same]
  unfold State.slots
  cases present : s.program with
  | none => exact .inl rfl
  | some p =>
    right
    simp [(blank.program p present).2, Function.comp_def]

theorem setup_perform (s : Session) (op : Operation) : (s.perform op).setup = s.setup := by
  cases op with
  | call id args => rfl
  | drain =>
    simp only [perform, drain]
    split
    · rfl
    · split <;> rfl
  | tick jobs =>
    simp only [perform, tick]
    split <;> rfl

theorem reaches_perform {s : Session} {first : State} (reaches : first.Reaches s.setup s.state)
    (op : Operation) : first.Reaches s.setup (s.perform op).state := by
  cases op with
  | call id args => exact Reaches.execute Eval.ampleFuel 0 id args reaches
  | drain =>
    simp only [perform, drain]
    split
    · exact reaches
    · have worked := reaches.runJobs
      split
      · next same =>
        rw [same] at worked
        exact worked
      · next same =>
        rw [same] at worked
        exact worked
  | tick jobs =>
    simp only [perform, tick]
    split
    · exact reaches.workOff jobs
    · exact reaches

theorem reaches_performAll {s : Session} {first : State} (reaches : first.Reaches s.setup s.state)
    (ops : List Operation) : first.Reaches s.setup (s.performAll ops).state := by
  induction ops generalizing s with
  | nil => exact reaches
  | cons op ops ih =>
    have next := reaches_perform reaches op
    rw [← setup_perform s op] at next ⊢
    exact ih next

/-- A session that has just been given a module: all functions are interpreted. -/
def published (s : Session) (m : Module) (globals : Array Value) : Session :=
  { s with world := { s.world with
      globals
      rest := { s.state with
        program := some { module := m, slots := m.functions.map fun f => { function := f } }
        tracker := s.state.tracker.grow m.functions.size } } }

theorem slots_published (s : Session) (m : Module) (globals : Array Value) :
    (s.published m globals).state.slots.map (·.function) = m.functions.toList := by
  show (m.functions.map fun f => ({ function := f } : Slot)).toList.map (·.function) = _
  simp [Function.comp_def]

/-- What a session that does not start interpreted compiles when it is given a module. -/
def atOnce (m : Module) : List FuncId := (m.functions.toList.filter (!·.isExternal)).map (·.id)

/-- Why a session does not take a module. -/
inductive Refuses (s : Session) (m : Module) : Error → Prop where
  | closed (shut : s.state.closed = true) : Refuses s m .closed
  | invalid {ds : List Defect} (opened : s.state.closed = false) (found : m.defects = .ok ds)
      (some : ds ≠ []) : Refuses s m (.invalidModule m.name ds)
  | registered (opened : s.state.closed = false) (accepted : m.defects = .ok [])
      (present : s.state.program.isSome = true) : Refuses s m .moduleRegistered

/-- A session takes a module, whose globals start with these values. -/
structure Takes (s : Session) (m : Module) (globals : Array Value) : Prop where
  opened : s.state.closed = false
  accepted : m.defects = .ok []
  absent : s.state.program = none
  initial : Eval.initialGlobals m = .ok globals

/-- Everything that giving a session a module can do. -/
inductive Registered (s : Session) (m : Module) (turns : List Compiling.Turn) :
    Except (Fault Error) Unit × Session → Prop where
  | refused {e : Error} (reason : s.Refuses m e) : Registered s m turns (.error (.error e), s)
  | crashed {c : Crash} (failed : m.defects = .error c ∨ Eval.initialGlobals m = .error c) :
      Registered s m turns (.error (.crash c), s)
  | interpreted {globals : Array Value} (takes : s.Takes m globals)
      (lazily : s.setup.config.startInterpreted = true) :
      Registered s m turns (.ok (), s.published m globals)
  | compiled {globals : Array Value} (takes : s.Takes m globals)
      (eagerly : s.setup.config.startInterpreted = false)
      {r : Except (Fault Abort) Unit} {state : State}
      (ran : (s.published m globals).state.compileAll s.setup turns (atOnce m) = (r, state)) :
      Registered s m turns (r.mapError Abort.error, (s.published m globals).withState state)

theorem register_cases (s : Session) (m : Module) (turns : List Compiling.Turn) :
    Registered s m turns (s.register m turns) := by
  unfold register
  split
  · next shut => exact .refused (.closed shut)
  · next opened =>
    have opened : s.state.closed = false := by simpa using opened
    split
    · next failed => exact .crashed (.inl failed)
    · next found => exact .refused (.invalid opened found (by simp))
    · next accepted =>
      split
      · next present => exact .refused (.registered opened accepted present)
      · next absent =>
        split
        · next failed => exact .crashed (.inr failed)
        · next globals initial =>
          have takes : s.Takes m globals := ⟨opened, accepted, by simpa using absent, initial⟩
          dsimp only
          split
          · next lazily => exact .interpreted takes lazily
          · next eagerly =>
            have eagerly : s.setup.config.startInterpreted = false := by simpa using eagerly
            exact .compiled takes eagerly rfl

theorem State.Blank.published {s : Session} {m : Module} (blank : s.state.Blank m)
    (globals : Array Value) : (s.published m globals).state.Blank m := by
  refine ⟨?_, blank.queue, blank.attempts, blank.failures, blank.failure⟩
  rintro p ⟨⟩
  exact ⟨rfl, rfl⟩

theorem reaches_register {s : Session} {m : Module} (blank : s.state.Blank m)
    (turns : List Compiling.Turn) : (s.register m turns).2.setup = s.setup ∧
      ∃ first, State.Blank first m ∧ first.Reaches s.setup (s.register m turns).2.state := by
  have outcome := register_cases s m turns
  revert outcome
  generalize s.register m turns = out
  intro outcome
  cases outcome with
  | refused reason => exact ⟨rfl, s.state, blank, blank.reaches _⟩
  | crashed c => exact ⟨rfl, s.state, blank, blank.reaches _⟩
  | @interpreted globals takes lazily =>
    exact ⟨rfl, _, blank.published globals, (blank.published globals).reaches _⟩
  | @compiled globals takes eagerly r state ran =>
    have reached := ((blank.published globals).reaches s.setup).compileAll turns (atOnce m)
    rw [ran] at reached
    exact ⟨rfl, _, blank.published globals, reached⟩

theorem backendOf?_start {setup : Setup} {heap : Heap} {s : Session}
    (started : start setup heap = .ok s) (t : Tier) : s.setup.backendOf? t = setup.backendOf? t := by
  obtain ⟨_, _, same⟩ := bind_eq_ok.mp started
  cases same
  rfl

/-- Every state of a session comes from the one in which it was given its module. -/
theorem reaches_of_start {setup : Setup} {heap : Heap} {s : Session}
    (started : start setup heap = .ok s) (m : Module) (turns : List Compiling.Turn)
    (ops : List Operation) : ∃ first, State.Blank first m ∧
      first.Reaches s.setup ((s.register m turns).2.performAll ops).state := by
  obtain ⟨_, _, same⟩ := bind_eq_ok.mp started
  have blank : s.state.Blank m := by
    cases same
    exact ⟨by rintro p ⟨⟩, rfl, rfl, rfl, rfl⟩
  obtain ⟨kept, first, blank, reaches⟩ := reaches_register blank turns
  rw [← kept] at reaches ⊢
  exact ⟨first, blank, reaches_performAll reaches ops⟩

end TieredEngine.Session
