import TieredEngine.Proofs.Eval.Normality
import TieredEngine.Proofs.Eval.Safety
import TieredEngine.Proofs.Eval.Stack

/-!
Types and normal forms along a run. Whatever happens, a register that has been written holds a value
in normal form of the type it is declared with, and so does a global; what a call returns has the
type that its function says. Writes and stores compare types as they happen, so nothing is asked of
the module but that the values it starts from are in normal form.
-/
namespace TieredEngine.Eval
open TieredEngine.Ir

variable {κ ε : Type}

/-- Each global holds a value in normal form of the type it is declared with. -/
structure TypedGlobals (m : Module) (globals : Array Value) : Prop where
  size : globals.size = m.globals.size
  typed : ∀ (k : Nat) v, globals[k]? = some v →
    v.Normal ∧ ∃ g, m.globals[k]? = some (some g) ∧ v.ty = g.ty

namespace TypedGlobals

variable {m : Module} {globals : Array Value}

theorem initial (inits : ∀ g, some g ∈ m.globals → g.init.Normal)
    (started : initialGlobals m = .ok globals) : TypedGlobals m globals := by
  refine ⟨size_initialGlobals started, fun k v at_k => ?_⟩
  unfold initialGlobals at started
  rw [Array.mapM_eq_mapM_toList] at started
  obtain ⟨vs, each, same⟩ := bind_eq_ok.mp started
  cases same
  have inside : vs[k]? = some v := by simpa using at_k
  obtain ⟨bound, held⟩ := List.getElem?_eq_some_iff.mp inside
  have both := mapM_eq_ok.mp each
  have bound' : k < m.globals.toList.length := by rw [both.length_eq]; exact bound
  have made := (List.forall₂_iff_get.mp both).2 k bound' bound
  obtain ⟨g, present, value⟩ := bind_eq_ok.mp made
  have there : m.globals[k]? = some (some g) := by
    rw [← Array.getElem?_toList, List.getElem?_eq_getElem bound']
    cases listed : m.globals.toList[k] with
    | none => simp [listed, Crash.deref] at present
    | some g' => simpa [listed, Crash.deref] using present
  have own : v = if g.init.ty = g.ty then g.init else .zero g.ty := by
    have same := Except.ok.inj value
    simpa [held] using same.symm
  rw [own]
  split
  · next fits => exact ⟨inits g (Array.mem_of_getElem? there), g, there, fits⟩
  · exact ⟨Value.normal_zero _, g, there, rfl⟩

theorem normal (typed : TypedGlobals m globals) : ∀ v ∈ globals, v.Normal := by
  intro v member
  obtain ⟨k, bound, rfl⟩ := Array.mem_iff_getElem.mp member
  exact (typed.typed k _ (Array.getElem?_eq_getElem bound)).1

theorem store (typed : TypedGlobals m globals) {id : GlobalId} {v : Value} (new : v.Normal)
    {globals' : Array Value} (stored : storeGlobal globals id v = .ok globals') :
    TypedGlobals m globals' := by
  unfold storeGlobal at stored
  split at stored
  · cases stored
  · next old there =>
    split at stored
    · cases stored
    · next same =>
      cases stored
      refine ⟨by rw [Array.size_setIfInBounds, typed.size], fun k x at_k => ?_⟩
      rw [Array.getElem?_setIfInBounds] at at_k
      split at at_k
      · next here =>
        split at at_k
        · cases at_k
          subst here
          obtain ⟨-, g, declared, type⟩ := typed.typed _ old there
          exact ⟨new, g, declared, (not_not.mp same).symm.trans type⟩
        · cases at_k
      · exact typed.typed k x at_k

end TypedGlobals

/-- A run beside itself, its globals typed throughout. -/
def typing (ε : Type) (m : Module) : Link κ κ (Halt ε) (Halt ε) where
  worlds w w' := w' = w ∧ TypedGlobals m w.globals
  left _ := False
  right _ := False
  failures _ _ := True

theorem typing_shares (m : Module) :
    (typing (κ := κ) ε m).Shares Value.Normal (TypedGlobals m) where
  globals := by
    rintro w _ ⟨rfl, typed⟩
    exact ⟨rfl, typed⟩
  reset := by
    rintro w _ globals ⟨rfl, _⟩ typed
    exact ⟨rfl, typed⟩
  store := fun _ _ _ _ typed new stored => typed.store new stored
  values := fun _ typed => typed.normal
  hostCalls := by
    rintro w _ ⟨rfl, _⟩
    rfl
  hosted := by
    rintro w _ h ⟨rfl, typed⟩
    exact ⟨rfl, typed⟩
  alike := fun _ _ _ => trivial
  host := fun _ _ => trivial
  crash := fun _ => trivial

/-- Calls on values in normal form that leave the globals typed and give a value in normal form. -/
def KeepsTyped (m : Module) (call : Call κ ε) : Prop :=
  ∀ id args w, TypedGlobals m w.globals → (∀ a ∈ args, a.Normal) →
    TypedGlobals m (call id args w).2.globals ∧ ∀ v, (call id args w).1 = .ok v → v.Normal

theorem KeepsTyped.matches {m : Module} {call : Call κ ε} (keeps : KeepsTyped m call) :
    CallsMatch (typing ε m) Value.Normal call call := by
  rintro id args _ w ⟨rfl, typed⟩ fine
  obtain ⟨kept, normal⟩ := keeps id args w typed fine
  revert kept normal
  generalize call id args w = out
  obtain ⟨r, w'⟩ := out
  intro kept normal
  cases r with
  | error h => exact Link.Matches.error ⟨rfl, kept⟩ trivial
  | ok v => exact Link.Matches.ok ⟨rfl, kept⟩ ⟨rfl, normal v rfl⟩

theorem keepsTyped_noCall (m : Module) : KeepsTyped m (Interpreter.noCall (κ := κ) (ε := ε)) := by
  intro id args w typed _
  refine ⟨typed, fun v made => ?_⟩
  cases made

/-- The constants among the instructions are in normal form. -/
def NormalConsts (is : List Inst) : Prop := ∀ i ∈ is, i.op = .const → i.const.Normal

/-- A frame of the function: every register that has been written holds a value in normal form, of
the type it is declared with. -/
structure Frame.Typed (f : Function) (fr : Frame) : Prop where
  holds : fr.Holds Value.Normal f
  typed : fr.WellTyped

namespace Frame.Typed

variable {f : Function} {fr g : Frame}

theorem set (typed : fr.Typed f) {r : Reg} {v : Value} (new : v.Normal)
    (written : fr.set r v = .ok g) : g.Typed f :=
  ⟨typed.holds.set new written, typed.typed.set written⟩

/-- Values, and not counters, are what types are about. -/
theorem of_regs (typed : fr.Typed f) (function : g.function = fr.function)
    (regs : g.regs = fr.regs) : g.Typed f := by
  obtain ⟨function', block, stats⟩ := g
  cases function
  cases regs
  exact ⟨⟨typed.holds.function, typed.holds.values⟩, typed.typed⟩

theorem started {args : List Value} {entry : BlockId} (fine : ∀ a ∈ args, a.Normal)
    (bound : bindParams entry (.fresh f) f.params args = .ok fr) : fr.Typed f := by
  have start := started_of_bindParams bound
  refine ⟨⟨start.function, fun r v held => fine v (start.values r v held)⟩, ?_⟩
  refine Frame.WellTyped.bindParams (fun r v held => ?_) bound
  rw [Frame.reg?_fresh] at held
  cases held

theorem phiInputs (typed : fr.Typed f) {b : Block} {prev : Option BlockId}
    {xs : List (Reg × Value)} (read : fr.phiInputs b prev = .ok xs) : ∀ x ∈ xs, x.2.Normal := by
  unfold Frame.phiInputs at read
  split at read
  · cases read
    simp
  · split at read
    · cases read
    · intro x member
      obtain ⟨p, _, input⟩ := forall₂_partner (mapM_eq_ok.mp read).flip member
      split at input
      · cases input
      · obtain ⟨v, got, same⟩ := bind_eq_ok.mp input
        cases same
        exact typed.holds.values _ v (Frame.get_eq_ok.mp got)

/-- One instruction. -/
theorem exec {m : Module} {call : Call κ ε} (keeps : KeepsTyped m call) (known : FuncId → Bool)
    (typed : fr.Typed f) {i : Inst} (const : i.op = .const → i.const.Normal) {w : World κ}
    (globals : TypedGlobals m w.globals) :
    TypedGlobals m (fr.exec call known w i).2.globals ∧
      ∀ g, (fr.exec call known w i).1 = .ok g → g.Typed f := by
  have ran := exec_congr (typing_shares m) closed_normal keeps.matches known typed.holds const
    (show (typing ε m).worlds w w from ⟨rfl, globals⟩)
  have types : ∀ g w', fr.exec call known w i = (.ok g, w') → g.WellTyped := by
    intro g w' done
    rcases Frame.exec_ok done with ⟨-, rfl⟩ | ⟨v, -, written⟩
    · exact typed.typed
    · exact typed.typed.set written
  revert ran types
  generalize fr.exec call known w i = out
  obtain ⟨r, w'⟩ := out
  intro ran types
  cases ran with
  | left free => exact free.elim
  | right free => exact free.elim
  | error worlds _ => exact ⟨worlds.2, fun g made => nomatch made⟩
  | ok worlds related =>
    refine ⟨worlds.2, fun g made => ?_⟩
    cases made
    exact ⟨related.2, types _ _ rfl⟩

theorem applyPhis {b : Block} {prev : Option BlockId}
    (typed : fr.Typed f) (applied : fr.applyPhis b prev = .ok g) : g.Typed f :=
  ⟨typed.holds.applyPhis applied, typed.typed.applyPhis applied⟩

/-- Running instructions keeps globals and registers typed. -/
theorem execAll {m : Module} {call : Call κ ε} (keeps : KeepsTyped m call)
    (known : FuncId → Bool) {is : List Inst} (consts : NormalConsts is) (typed : fr.Typed f)
    {w : World κ} (globals : TypedGlobals m w.globals) :
    TypedGlobals m (Frame.execAll call known is fr w).2.globals ∧
      ∀ g, (Frame.execAll call known is fr w).1 = .ok g → g.Typed f := by
  induction is generalizing fr w with
  | nil =>
    refine ⟨globals, fun g same => ?_⟩
    cases same
    exact typed
  | cons i is ih =>
    have ran := typed.exec keeps known (consts i List.mem_cons_self) globals
    unfold Frame.execAll
    revert ran
    cases fr.exec call known w i with
    | mk result w' =>
      rintro ⟨globals', typed'⟩
      cases result with
      | error h => exact ⟨globals', fun g made => by cases made⟩
      | ok g =>
        let g' : Frame := { g with stats := { fr.stats with insts := fr.stats.insts + 1 } }
        have frame : g'.Typed f := (typed' g rfl).of_regs rfl rfl
        exact ih (fun j member => consts j (List.mem_cons_of_mem i member)) frame globals'

end Frame.Typed

section Typed

variable {κ ε : Type} {m : Module} {setup : Setup}
  (hosts : ∀ name run past args v, setup.hosts name = some run → run past args = .ok v → v.Normal)
  (constants : ∀ v ∈ m.constants, v.Normal)
include hosts constants

/-- Entering a function keeps globals typed and gives a value in normal form, if calls, hosts and constants
do. -/
theorem enter_keepsTyped {call : Call κ ε} (keeps : KeepsTyped m call) (fuel depth : Nat) (id : FuncId)
    {args : List Value} (normal : ∀ a ∈ args, a.Normal) {w : World κ} (typed : TypedGlobals m w.globals) :
    TypedGlobals m (enter setup m call fuel depth id args w).world.globals ∧
      ∀ v, (enter setup m call fuel depth id args w).result = .ok v → v.Normal := by
  cases found : m.function? id with
  | none =>
    simp only [enter, found]
    exact ⟨typed, fun v made => by cases made⟩
  | some f =>
    have ended : (typing ε m).Ends Value.Normal (enter setup m call fuel depth id args w)
        (enter setup m call fuel depth id args w) :=
      enter_congr (typing_shares m) closed_normal hosts found found
        (fun _ _ _ block _ inside op => constants _ (Module.mem_constants_of_inst found block inside op))
        rfl rfl
        (fun _ => .initial fun _ member => constants _ (Module.mem_constants_of_global member)) keeps.matches
        (.inl ⟨rfl, trivial⟩) normal ⟨rfl, typed⟩
    replace ended := ended.result
    revert ended
    generalize enter setup m call fuel depth id args w = ended
    obtain ⟨result, stats, w'⟩ := ended
    intro matched
    cases matched with
    | left free => exact free.elim
    | right free => exact free.elim
    | error worlds _ => exact ⟨worlds.2, fun v made => by cases made⟩
    | ok worlds related => exact ⟨worlds.2, fun v same => Except.ok.inj same ▸ related.2⟩

theorem runAt_keepsTyped (fuel depth : Nat) (id : FuncId) {args : List Value} (normal : ∀ a ∈ args, a.Normal)
    {w : World κ} (typed : TypedGlobals m w.globals) :
    TypedGlobals m (runAt (ε := ε) setup m fuel depth id args w).world.globals ∧
      ∀ v, (runAt (ε := ε) setup m fuel depth id args w).result = .ok v → v.Normal := by
  induction fuel generalizing depth id args w with
  | zero => exact ⟨typed, fun v made => by cases made⟩
  | succ fuel ih =>
    exact enter_keepsTyped hosts constants (fun id args w typed normal => ih (depth + 1) id normal typed) fuel
      depth id normal typed

end Typed

/-- The globals that the frame which runs works on, and those that the frames which wait come back
to. -/
def Moment.globals : Moment κ ε → List (Array Value)
  | running _ _ below w => w.globals :: below.map (·.globals)
  | ended _ below => below.map (·.globals)

/-- The function that was called last, of those that have not given their result. -/
def callee (root : FuncId) : List Waiting → FuncId
  | [] => root
  | s :: _ => s.call.callee

/-- What is still to be written or run from a point on is in normal form. -/
def Point.Typed : Point → Prop
  | .entry .. => True
  | .phis pending b => (∀ x ∈ pending, x.2.Normal) ∧ NormalConsts b.insts
  | .insts rest _ => NormalConsts rest

namespace Interpreter

variable (it : Interpreter κ ε) (root : FuncId)

/-- The frames that wait are typed, and so are the globals they come back to. -/
def Stacked : List Waiting → Prop
  | [] => True
  | s :: below =>
    (∃ f, it.module.function? (callee root below) = some f ∧ s.frame.Typed f) ∧
      TypedGlobals it.module s.globals ∧ NormalConsts s.rest ∧ Stacked below

/-- What a call of the function may leave: a value in normal form of the type that the function
says, if it returns. Globals that are not shared are dropped. -/
structure Answered (id : FuncId) (out : Frame.Finished κ ε) : Prop where
  value : ∀ v, out.result = .ok v →
    v.Normal ∧ ∃ f, it.module.function? id = some f ∧ v.ty = f.sig.ret
  globals : it.setup.shared = true → TypedGlobals it.module out.world.globals

/-- Everything in a moment of a run is typed. -/
inductive TypedAt : Moment κ ε → Prop where
  | running {fr : Frame} {point : Point} {below : List Waiting} {w : World κ} {f : Function}
      (found : it.module.function? (callee root below) = some f) (frame : fr.Typed f)
      (left : point.Typed) (globals : TypedGlobals it.module w.globals)
      (stacked : it.Stacked root below) : TypedAt (.running fr point below w)
  | ended {out : Frame.Finished κ ε} {below : List Waiting}
      (answered : it.Answered (callee root below) out) (stacked : it.Stacked root below) :
      TypedAt (.ended out below)

variable {it root}

theorem Answered.of_failure {id : FuncId} {h : Halt ε} {stats : Stats} {w : World κ}
    (globals : it.setup.shared = true → TypedGlobals it.module w.globals) :
    it.Answered id ⟨.error h, stats, w⟩ where
  value := fun _ returned => nomatch returned
  globals := globals

/-- A host gives values in normal form, and a value of another type is refused. -/
theorem answered_callHost (hosts : ∀ name run past args v, it.setup.hosts name = some run →
      run past args = .ok v → v.Normal) {id : FuncId} {f : Function}
    (found : it.module.function? id = some f) (args : List Value) {w : World κ} (stats : Stats)
    (globals : it.setup.shared = true → TypedGlobals it.module w.globals) :
    it.Answered id ⟨(callHost (ε := ε) it.setup.hosts f args w).1, stats,
      (callHost (ε := ε) it.setup.hosts f args w).2⟩ := by
  refine ⟨fun v returned => ?_, fun shared => ?_⟩
  · have ran : (callHost (ε := ε) it.setup.hosts f args w).1 = .ok v := returned
    unfold callHost at ran
    split at ran
    · cases ran
    · next run implementation =>
      dsimp only at ran
      split at ran
      · cases ran
      · next v' answer =>
        split at ran
        · cases ran
        · next fits =>
          cases ran
          exact ⟨hosts _ _ _ _ _ implementation answer, f, found, not_not.mp fits⟩
  · show TypedGlobals _ (callHost (ε := ε) it.setup.hosts f args w).2.globals
    rw [globals_callHost]
    exact globals shared

/-- What is asked of a module, and of those outside that a run gets values from. -/
structure Normalised (it : Interpreter κ ε) : Prop where
  constants : ∀ v ∈ it.module.constants, v.Normal
  hosts : ∀ name run past args v, it.setup.hosts name = some run → run past args = .ok v → v.Normal
  dispatch : ∀ call, it.dispatch = some call → KeepsTyped it.module call

section Steps

variable (normalised : it.Normalised)
include normalised

theorem Normalised.initial {globals : Array Value}
    (started : initialGlobals it.module = .ok globals) : TypedGlobals it.module globals :=
  .initial (fun _ member => normalised.constants _ (Module.mem_constants_of_global member)) started

/-- Entering a function. -/
theorem Normalised.enter {id : FuncId} {args : List Value} {below : List Waiting} {w : World κ}
    (same : callee root below = id) (fine : ∀ a ∈ args, a.Normal)
    (globals : it.setup.shared = true → TypedGlobals it.module w.globals)
    (stacked : it.Stacked root below) : it.TypedAt root (it.enter id args below w) := by
  have came := it.admission id args below w
  revert came
  generalize it.enter id args below w = moment
  intro came
  cases came with
  | refused h => exact .ended (.of_failure globals) stacked
  | hosted f found _ =>
    exact .ended (answered_callHost normalised.hosts (same.symm ▸ found) args _ globals) stacked
  | admitted f found _ _ _ start origin fr bound =>
    refine .running (same.symm ▸ found) (.started fine bound) trivial ?_ stacked
    split at origin
    · next shared =>
      cases origin
      exact globals shared
    · exact normalised.initial origin

omit normalised in
/-- Going on behind an instruction. -/
theorem typedAt_proceed {before : Frame} {rest : List Inst} {term : Term} {below : List Waiting}
    {f : Function} (found : it.module.function? (callee root below) = some f)
    (consts : NormalConsts rest) (stacked : it.Stacked root below)
    {out : Except (Halt ε) Frame × World κ} (globals : TypedGlobals it.module out.2.globals)
    (typed : ∀ g, out.1 = .ok g → g.Typed f) :
    it.TypedAt root (proceed before rest term below out) := by
  obtain ⟨r, w⟩ := out
  cases r with
  | error h => exact .ended (.of_failure fun _ => globals) stacked
  | ok g => exact .running found ((typed g rfl).of_regs rfl rfl) consts globals stacked

/-- A step of the frame that runs. -/
theorem Normalised.advance {fr : Frame} {point : Point} {below : List Waiting} {w : World κ}
    {f : Function} (found : it.module.function? (callee root below) = some f)
    (frame : fr.Typed f) (left : point.Typed) (globals : TypedGlobals it.module w.globals)
    (stacked : it.Stacked root below) {t : Moment κ ε} (came : it.Advance fr below w point t) :
    it.TypedAt root t := by
  cases came with
  | fails => exact .ended (.of_failure fun _ => globals) stacked
  | @enters prev cur b pending block read =>
    have arrived : (fr.arrive cur).Typed f := frame.of_regs rfl rfl
    refine .running found arrived ⟨arrived.phiInputs read, fun i member op => ?_⟩ globals stacked
    rw [frame.holds.function] at block
    exact normalised.constants _ (Module.mem_constants_of_inst found block member op)
  | writes written =>
    exact .running found (frame.set (left.1 _ (List.mem_cons_self ..)) written)
      ⟨fun x member => left.1 x (List.mem_cons_of_mem _ member), left.2⟩ globals stacked
  | begins b => exact .running found frame left.2 globals stacked
  | @runs i rest term call means =>
    have keeps : KeepsTyped it.module call := by
      rcases means with dispatch | rfl
      · exact normalised.dispatch call dispatch
      · exact keepsTyped_noCall it.module
    have ran := frame.exec keeps it.known (left i (List.mem_cons_self ..)) globals
    exact typedAt_proceed found (fun j member => left j (List.mem_cons_of_mem _ member)) stacked
      ran.1 ran.2
  | @calls i rest term args read =>
    exact normalised.enter rfl (frame.holds.reads (Frame.mapM_get_eq_ok.mp read)) (fun _ => globals)
      ⟨⟨f, found, frame⟩, globals, fun j member => left j (List.mem_cons_of_mem _ member), stacked⟩
  | @returns term v ended =>
    refine .ended ⟨fun x same => ?_, fun _ => globals⟩ stacked
    cases same
    refine ⟨frame.holds.returned closed_normal ended, f, found, ?_⟩
    rw [← frame.holds.function]
    rcases Frame.done_cases ended with ⟨-, rfl, void⟩ | ⟨r, -, -, type⟩
    · exact void.symm
    · exact type
  | jumps => exact .running found frame trivial globals stacked

omit normalised in
/-- A frame takes the result of the call it made. -/
theorem typedAt_resume {s : Waiting} {out : Frame.Finished κ ε} {below : List Waiting}
    (answered : it.Answered (callee root (s :: below)) out)
    (stacked : it.Stacked root (s :: below)) : it.TypedAt root (it.resume s out below) := by
  obtain ⟨⟨f, found, frame⟩, globals, consts, rest⟩ := stacked
  refine typedAt_proceed found consts rest ?_ fun g taken => ?_
  · show TypedGlobals _ (if it.setup.shared then out.world
      else { out.world with globals := s.globals }).globals
    split
    · next shared => exact answered.globals shared
    · exact globals
  · dsimp only at taken
    split at taken
    · cases taken
    · next v returned =>
      split at taken
      · cases taken
        exact frame
      · exact frame.set (answered.value v returned).1 (mapError_eq_ok.mp taken)

/-- A step keeps everything typed. -/
theorem Normalised.step {s t : Moment κ ε} (typed : it.TypedAt root s) (stepped : it.step s = some t) :
    it.TypedAt root t := by
  cases typed with
  | running found frame left globals stacked =>
    cases stepped
    exact normalised.advance found frame left globals stacked (it.advance_cases ..)
  | @ended out below answered stacked =>
    cases below with
    | nil => cases stepped
    | cons s below =>
      cases stepped
      exact typedAt_resume answered stacked

/-- A run keeps everything typed. -/
theorem Normalised.reaches {s t : Moment κ ε} (typed : it.TypedAt root s)
    (reached : it.Reaches s t) : it.TypedAt root t := by
  induction reached with
  | refl => exact typed
  | tail _ last ih => exact normalised.step ih last

end Steps

theorem Stacked.frames {below : List Waiting} (stacked : it.Stacked root below) :
    ∀ s ∈ below, (∃ f, s.frame.Typed f) ∧ TypedGlobals it.module s.globals := by
  induction below with
  | nil => exact fun _ member => nomatch member
  | cons s below ih =>
    obtain ⟨⟨f, -, frame⟩, globals, -, rest⟩ := stacked
    intro t member
    rcases List.mem_cons.mp member with rfl | member
    · exact ⟨⟨f, frame⟩, globals⟩
    · exact ih rest t member

theorem TypedAt.frames {s : Moment κ ε} (typed : it.TypedAt root s) :
    ∀ fr ∈ s.frames, ∃ f, fr.Typed f := by
  intro fr member
  cases typed with
  | running found frame left globals stacked =>
    rcases List.mem_cons.mp member with rfl | member
    · exact ⟨_, frame⟩
    · obtain ⟨t, below, rfl⟩ := List.mem_map.mp member
      exact (stacked.frames t below).1
  | ended answered stacked =>
    obtain ⟨t, below, rfl⟩ := List.mem_map.mp member
    exact (stacked.frames t below).1

theorem TypedAt.globals {s : Moment κ ε} (typed : it.TypedAt root s) :
    ∀ globals ∈ s.globals, TypedGlobals it.module globals := by
  intro globals member
  cases typed with
  | running found frame left own stacked =>
    rcases List.mem_cons.mp member with rfl | member
    · exact own
    · obtain ⟨t, below, rfl⟩ := List.mem_map.mp member
      exact (stacked.frames t below).2
  | ended answered stacked =>
    obtain ⟨t, below, rfl⟩ := List.mem_map.mp member
    exact (stacked.frames t below).2

/-- What a call leaves is left to its caller as well. -/
theorem Answered.settle {id : FuncId} {out : Frame.Finished κ ε} (answered : it.Answered id out)
    (w : World κ) : it.Answered id (it.setup.settle w out) where
  value := by
    rw [Setup.result_settle]
    exact answered.value
  globals := fun shared => by
    rw [Setup.world_settle, if_pos shared]
    exact answered.globals shared

/-- Types and normal forms hold throughout a run. Each register that has been written, in the frame
that runs and in those that wait, holds a value in normal form of the type it is declared with, and
each global holds one of its own type, from the first values on; a value that is returned, in the
run or by it, is in normal form and has the type that the function says. -/
theorem typed_throughout (normalised : it.Normalised) (id : FuncId) (args : List Value)
    (fine : ∀ a ∈ args, a.Normal) (w : World κ)
    (start : it.setup.shared = true → TypedGlobals it.module w.globals) :
    (∀ globals, initialGlobals it.module = .ok globals → TypedGlobals it.module globals) ∧
    (∀ s, it.Reaches (it.enter id args [] w) s →
      (∀ fr ∈ s.frames, ∀ r v, fr.reg? r = some v →
        fr.function.regType? r = some v.ty ∧ v.Normal) ∧
      (∀ globals ∈ s.globals, TypedGlobals it.module globals) ∧
      (∀ out below, s = .ended out below → it.Answered (callee id below) out)) ∧
    (∀ fuel, (it.run fuel id args w).result ≠ .error .outOfFuel →
      it.Answered id (it.run fuel id args w)) := by
  have entered : it.TypedAt id (it.enter id args [] w) :=
    normalised.enter rfl fine start trivial
  refine ⟨fun _ started => normalised.initial started, fun s reached => ?_, fun fuel fueled => ?_⟩
  · have typed := normalised.reaches entered reached
    refine ⟨fun fr member r v held => ?_, typed.globals, ?_⟩
    · obtain ⟨f, frame⟩ := typed.frames fr member
      exact ⟨frame.typed r v held, frame.holds.values r v held⟩
    · rintro out below rfl
      cases typed with
      | ended answered stacked => exact answered
  · obtain ⟨out, reached, same⟩ := reaches_ended fuel id args w fueled
    rw [same]
    cases normalised.reaches entered reached with
    | ended answered stacked => exact answered.settle w

/-- A function that adds what it is given to a total, and a caller. -/
def adding : Module := {
  functions := #[
    { name := "add", sig := { params := [.i8], ret := .i8 }, params := [⟨0⟩]
      regTypes := #[.i8, .i8, .i8]
      blocks := #[some { insts := [{ op := .loadGlobal, ty := .i8, dest := ⟨1⟩, global := ⟨0⟩ },
                                   { op := .add, ty := .i8, dest := ⟨2⟩, args := [⟨1⟩, ⟨0⟩] },
                                   { op := .storeGlobal, args := [⟨2⟩], global := ⟨0⟩ }],
                         term := .ret (some ⟨2⟩) }] },
    { id := ⟨1⟩, name := "main", sig := { ret := .i8 }, regTypes := #[.i8, .i8]
      blocks := #[some { insts := [{ op := .const, ty := .i8, dest := ⟨0⟩, const := .ofInt .i8 100 },
                                   { op := .call, ty := .i8, dest := ⟨1⟩, callee := ⟨0⟩,
                                     args := [⟨0⟩] }],
                         term := .ret (some ⟨1⟩) }] }]
  globals := #[some { name := "total", ty := .i8, init := .ofInt .i8 100 }] }

/-- The total goes over the largest number of its type, and is in normal form as well. -/
theorem typed_throughout_adding :
    let it : Interpreter Unit Unit := { setup := {}, module := adding }
    let out := it.run 9 ⟨1⟩ [] ⟨#[.ofInt .i8 100], [], ()⟩
    it.Normalised ∧ out.result = .ok (.ofInt .i8 (-56)) ∧ (Value.ofInt .i8 (-56)).Normal ∧
      TypedGlobals adding out.world.globals := by
  intro it out
  have normalised : it.Normalised := by
    refine ⟨by decide, fun name run past args v implemented => ?_, fun call dispatch => ?_⟩
    · cases implemented
    · cases dispatch
  have started : initialGlobals adding = .ok #[.ofInt .i8 100] := by
    rw [initialGlobals, Array.mapM_eq_mapM_toList]
    rfl
  obtain ⟨-, -, last⟩ := typed_throughout normalised ⟨1⟩ [] (by simp)
    ⟨#[.ofInt .i8 100], [], ()⟩ fun _ => normalised.initial started
  have result : out.result = .ok (.ofInt .i8 (-56)) := rfl
  have answered : it.Answered ⟨1⟩ out := last 9 fun starved => nomatch result.symm.trans starved
  exact ⟨normalised, result, (answered.value _ result).1, answered.globals rfl⟩

end Interpreter

end TieredEngine.Eval
