import TieredEngine.Proofs.Eval.Definite
import TieredEngine.Proofs.Ir.WellFormed

/-!
What the structural check of a module is worth to the evaluator. Every number that a run follows
comes from a place that the check has looked at: the entry and the targets of terminators, callees
with the count of their arguments, globals, parameters. So no run of an accepted module fails
because a number leads to nothing, and nothing is read outside a list. A declared function without a
host implementation is the one thing that can still be missing.
-/
namespace TieredEngine.Eval
open TieredEngine.Ir

variable {κ ε : Type}

/-- The cause is that something which is named is not there: a block, a function or its
implementation, an argument, or a global. -/
def Cause.dangling : Cause → Bool
  | missingBlock _ | noFunction _ | unknownCallee _ | notImplemented _ | argumentCount ..
  | loadUnknownGlobal _ | storeUnknownGlobal _ => true
  | _ => false

/-- The kinds of failure that say so. -/
theorem Cause.dangling_of_kind {c : Cause}
    (kind : c.kind = .badBranch ∨ c.kind = .argumentCount ∨ c.kind = .unknownFunction) :
    c.dangling = true := by
  cases c <;> first | rfl | (rcases kind with kind | kind | kind <;> cases kind)

/-- What a run of an accepted module may stop with: nothing is missing but the implementation of a
declared function, and nothing was read outside a list. -/
def Halt.Linked (hosts : Hosts) (m : Module) : Halt ε → Prop
  | .fault e => e.cause.dangling = true → ∃ g ∈ m.functions, g.isExternal = true ∧
      hosts g.name = none ∧ e.cause = .notImplemented g.name
  | .crash _ => False
  | .host .. | .other _ | .outOfFuel => True

/-- Failures of the computation are not about something missing. -/
def Anchored {α : Type} (x : Except Error α) : Prop := ∀ e, x = .error e → e.cause.dangling = false

namespace Anchored

variable {α β : Type}

theorem ok (a : α) : Anchored (.ok a) := by rintro e ⟨⟩

theorem fail (fr : Frame) {c : Cause} (anchored : c.dangling = false) :
    Anchored (.error (fr.fail c) : Except Error α) := by
  rintro e ⟨⟩
  exact anchored

theorem bind {x : Except Error α} {k : α → Except Error β} (first : Anchored x)
    (rest : ∀ a, Anchored (k a)) : Anchored (x >>= k) := by
  intro e failed
  rcases bind_eq_error.mp failed with stopped | ⟨a, _, later⟩
  · exact first e stopped
  · exact rest a e later

theorem mapM {f : α → Except Error β} {xs : List α} (each : ∀ x, Anchored (f x)) :
    Anchored (xs.mapM f) := by
  intro e failed
  obtain ⟨x, _, stopped⟩ := mapM_eq_error failed
  exact each x e stopped

theorem ite {p : Prop} [Decidable p] {x y : Except Error α} (yes : Anchored x) (no : Anchored y) :
    Anchored (if p then x else y) := by
  split
  · exact yes
  · exact no

theorem halt {x : Except Error α} (anchored : Anchored x) {e : Error} (failed : x = .error e)
    (hosts : Hosts) (m : Module) : (Halt.fault e : Halt ε).Linked hosts m := by
  intro dangles
  rw [anchored e failed] at dangles
  cases dangles

end Anchored

section Operations

variable {c : Cause}

theorem dangling_of_binary {op : Op} {t : Ty} {x y : Value} (failed : binary op t x y = .error c) :
    c.dangling = false := by
  unfold binary at failed
  dsimp only at failed
  repeat' split at failed
  all_goals first | (cases failed; rfl) | cases failed

theorem dangling_of_unary {op : Op} {t : Ty} {x : Value} (failed : unary op t x = .error c) :
    c.dangling = false := by
  unfold unary at failed
  repeat' split at failed
  all_goals first | (cases failed; rfl) | cases failed

theorem dangling_of_compare {op : Op} {x y : Value} (failed : compare op x y = .error c) :
    c.dangling = false := by
  unfold compare at failed
  dsimp only at failed
  repeat' split at failed
  all_goals first | (cases failed; rfl) | cases failed

theorem dangling_of_cast {t : Ty} {x : Value} (failed : cast t x = .error c) :
    c.dangling = false := by
  unfold cast at failed
  dsimp only at failed
  repeat' split at failed
  all_goals first | (cases failed; rfl) | cases failed

theorem dangling_of_select {x y z : Value} (failed : select x y z = .error c) :
    c.dangling = false := by
  unfold select at failed
  split at failed <;> cases failed
  rfl

end Operations

namespace Frame

theorem get_anchored (fr : Frame) (r : Reg) : Anchored (fr.get r) := by
  unfold get
  split
  · exact .ok _
  · exact .fail fr rfl

theorem set_anchored (fr : Frame) (r : Reg) (v : Value) : Anchored (fr.set r v) := by
  unfold set
  split
  · exact .fail fr rfl
  · split
    · exact .fail fr rfl
    · exact .ok _

theorem operands_anchored (fr : Frame) (i : Inst) (n : Nat) : Anchored (fr.operands i n) := by
  unfold operands
  split
  · exact .fail fr rfl
  · exact .mapM fr.get_anchored

theorem located_anchored (fr : Frame) {x : Except Cause Value}
    (anchored : ∀ c, x = .error c → c.dangling = false) : Anchored (fr.located x) := by
  unfold located
  split
  · exact .ok _
  · exact .fail fr (anchored _ rfl)

/-- The value of an instruction misses nothing but, where it loads one, a global. -/
theorem value_anchored (fr : Frame) {globals : Array Value} {i : Inst}
    (loads : i.op = .loadGlobal → i.global.num < globals.size) : Anchored (fr.value globals i) := by
  unfold value
  split
  · exact .ok _
  · exact .ok _
  · refine .bind (fr.operands_anchored i 1) fun vs => ?_
    split
    · exact .ok _
    · exact .fail fr rfl
  · refine .bind (fr.operands_anchored i 1) fun vs => ?_
    split
    · exact fr.located_anchored fun _ => dangling_of_cast
    · exact .fail fr rfl
  · refine .bind (fr.operands_anchored i 3) fun vs => ?_
    split
    · exact fr.located_anchored fun _ => dangling_of_select
    · exact .fail fr rfl
  · next load =>
    rw [Array.getElem?_eq_getElem (loads load)]
    exact .ok _
  · exact .fail fr rfl
  · split
    · refine .bind (fr.operands_anchored i 1) fun vs => ?_
      split
      · exact fr.located_anchored fun _ => dangling_of_unary
      · exact .fail fr rfl
    · refine .bind (fr.operands_anchored i 2) fun vs => ?_
      split
      · refine fr.located_anchored fun _ failed => ?_
        split at failed
        · exact dangling_of_binary failed
        · exact dangling_of_compare failed
      · exact .fail fr rfl

theorem setAll_anchored (fr : Frame) (xs : List (Reg × Value)) : Anchored (fr.setAll xs) := by
  induction xs generalizing fr with
  | nil => exact .ok _
  | cons x xs ih => exact .bind (fr.set_anchored x.1 x.2) fun g => ih g

theorem applyPhis_anchored (fr : Frame) (b : Block) (prev : Option BlockId) :
    Anchored (fr.applyPhis b prev) := by
  unfold applyPhis
  split
  · exact .ok _
  · unfold resolvePhis
    split
    · exact .fail fr rfl
    · refine .bind (.mapM fun p => ?_) fr.setAll_anchored
      split
      · exact .fail fr rfl
      · exact .bind (fr.get_anchored _) fun _ => .ok _

theorem terminate_anchored (fr : Frame) (t : Term) : Anchored (fr.terminate t) := by
  cases t with
  | missing => exact .fail fr rfl
  | br t => exact .ok _
  | condBr c yes no => exact .bind (fr.get_anchored c) fun v => .ite (.fail fr rfl) (.ok _)
  | switch c cases d =>
    refine .bind (fr.get_anchored c) fun v => .ite (.fail fr rfl) ?_
    dsimp only
    split <;> exact .ok _
  | ret v? =>
    cases v? with
    | none => exact .ite (.fail fr rfl) (.ok _)
    | some r => exact .bind (fr.get_anchored r) fun v => .ite (.fail fr rfl) (.ok _)
  | unreachable => exact .fail fr rfl

end Frame

/-- What a body relies on when it makes calls: they keep the number of globals, and one that finds
its callee, with as many arguments as that has parameters, misses nothing else. -/
structure Trusted (hosts : Hosts) (m : Module) (call : Call κ ε) : Prop where
  keeps : KeepsCount m.globals.size call
  linked : ∀ id g args w, m.function? id = some g → args.length = g.sig.params.length →
    w.globals.size = m.globals.size → ∀ h, (call id args w).1 = .error h → h.Linked hosts m

/-- The functions that a module has. -/
abbrev Known (m : Module) (id : FuncId) : Bool := id.num < m.functions.size

section Run

variable {hosts : Hosts} {m : Module} {call : Call κ ε} (trusted : Trusted hosts m call)
  {f : Function} {fr : Frame} {w : World κ}
include trusted

/-- One instruction whose names the module has. -/
theorem exec_linked {i : Inst} (linked : i.Linked m) (size : w.globals.size = m.globals.size)
    {h : Halt ε} (failed : (fr.exec call (Known m) w i).1 = .error h) : h.Linked hosts m := by
  have unwritten : ∀ {v : Value}, (fr.set i.dest v).mapError Halt.fault = .error h →
      h.Linked hosts m := by
    intro v stopped
    cases written : fr.set i.dest v with
    | ok g => simp [written, Except.mapError] at stopped
    | error e =>
      rw [written] at stopped
      cases stopped
      exact (fr.set_anchored _ _).halt written hosts m
  unfold Frame.exec at failed
  split at failed
  · next isCall =>
    obtain ⟨g, found, count⟩ : ∃ g, m.function? i.callee = some g ∧
        g.sig.params.length = i.args.length := by
      simpa only [Inst.Linked, isCall] using linked
    have known : Known m i.callee = true := by
      simpa [Known] using (Array.getElem?_eq_some_iff.mp found).1
    simp only [Frame.callOut, known, Bool.not_true, Bool.false_eq_true, if_false] at failed
    cases read : i.args.mapM fr.get with
    | error e =>
      rw [read] at failed
      cases failed
      exact (Anchored.mapM fr.get_anchored).halt read hosts m
    | ok args =>
      rw [read] at failed
      have enough : args.length = g.sig.params.length := by
        rw [(Frame.mapM_get_eq_ok.mp read).length_eq, count]
      have callee := trusted.linked i.callee g args w found enough size
      dsimp only at failed
      split at failed
      · next called =>
        cases failed
        exact callee _ (by rw [called])
      · split at failed
        · cases failed
        · exact unwritten failed
  · next isStore =>
    split at failed
    · next unread =>
      cases failed
      exact (fr.operands_anchored i 1).halt unread hosts m
    · split at failed
      · next stored =>
        cases failed
        have inside : i.global.num < w.globals.size := size ▸ linked.global (.inr isStore)
        unfold storeGlobal at stored
        rw [Array.getElem?_eq_getElem inside] at stored
        dsimp only at stored
        split at stored <;> cases stored
        rintro ⟨⟩
      · cases failed
  · split at failed
    · next unvalued =>
      cases failed
      have loads : i.op = .loadGlobal → i.global.num < w.globals.size :=
        fun load => size ▸ linked.global (.inl load)
      exact (fr.value_anchored loads).halt unvalued hosts m
    · exact unwritten failed

/-- Of the instructions of a block, the one that fails. -/
theorem execAll_linked {is : List Inst} (linked : ∀ i ∈ is, i.Linked m)
    (size : w.globals.size = m.globals.size) {h : Halt ε} {stats : Stats} {w' : World κ}
    (failed : Frame.execAll call (Known m) is fr w = (.error (h, stats), w')) :
    h.Linked hosts m := by
  obtain ⟨before, i, after, g, w₁, rfl, early, stopped⟩ := Frame.execAll_error failed
  have sizes : (Frame.execAll call (Known m) before fr w).2.globals.size = m.globals.size :=
    Frame.execAll_globals trusted.keeps fr size
  rw [early] at sizes
  exact exec_linked trusted (linked i (by simp)) sizes (by rw [stopped])

/-- One block, and the number of the next one. -/
theorem turn_linked (formed : f.WellFormed m) {written : List Reg} (follows : fr.Follows f written)
    {cur : BlockId} (inside : cur.num < f.blocks.size) (prev : Option BlockId)
    (size : w.globals.size = m.globals.size) :
    match Frame.turn call (Known m) fr w prev cur with
    | .stop out => ∀ h, out.result = .error h → h.Linked hosts m
    | .go fr' _ next => (∃ written', fr'.Follows f written') ∧ next.num < f.blocks.size := by
  obtain ⟨b, found⟩ := formed.numbered.present cur inside
  unfold Frame.turn
  rw [follows.function, found]
  simp only [Frame.runBlock]
  cases applied : (fr.arrive cur).applyPhis b prev with
  | error e =>
    rintro _ ⟨⟩
    exact (Frame.applyPhis_anchored _ b prev).halt applied hosts m
  | ok fr₁ =>
    have arrived : (fr.arrive cur).Follows f written :=
      ⟨follows.function, follows.sized, follows.defined⟩
    have entered := arrived.applyPhis applied
    dsimp only
    rcases executed : Frame.execAll call (Known m) b.insts fr₁ w with ⟨⟨h, stats⟩ | fr₂, w₂⟩
    · rintro _ ⟨⟩
      exact execAll_linked trusted (formed.linked cur b found) size executed
    · dsimp only
      cases ended : fr₂.terminate b.term with
      | error e =>
        rintro _ ⟨⟩
        exact (fr₂.terminate_anchored b.term).halt ended hosts m
      | ok next =>
        cases next with
        | done v => rintro h ⟨⟩
        | goto next =>
          exact ⟨⟨_, entered.execAll executed⟩,
            formed.numbered.target cur b found next (Frame.goto_mem ended)⟩

/-- A run from any block of the function, by induction on the blocks still to be entered. -/
theorem run_linked (formed : f.WellFormed m) (fuel : Nat) {written : List Reg}
    (follows : fr.Follows f written) {cur : BlockId} (inside : cur.num < f.blocks.size)
    (prev : Option BlockId) (size : w.globals.size = m.globals.size) {h : Halt ε}
    (failed : (Frame.run call (Known m) fuel fr w prev cur).result = .error h) :
    h.Linked hosts m := by
  induction fuel generalizing fr w prev cur written with
  | zero =>
    cases failed
    trivial
  | succ fuel ih =>
    have turned := turn_linked trusted formed follows inside prev size
    have kept := turn_globals (Known m) trusted.keeps fr prev cur size
    unfold Frame.run at failed
    cases stepped : Frame.turn call (Known m) fr w prev cur with
    | stop out =>
      rw [stepped] at turned failed
      exact turned h failed
    | go fr' w' next =>
      rw [stepped] at turned kept failed
      obtain ⟨⟨_, follows'⟩, inside'⟩ := turned
      exact ih follows' inside' (some cur) kept failed

end Run

/-- Arguments run out only when there are fewer of them than parameters. -/
theorem bindParams_crash {entry : BlockId} {params : List Reg} {fr : Frame} {args : List Value}
    {c : Crash} (crashed : bindParams entry fr params args = .error (.crash c)) :
    args.length < params.length := by
  induction params generalizing fr args with
  | nil => cases crashed
  | cons p params ih =>
    cases args with
    | nil => simp
    | cons a args =>
      simp only [bindParams] at crashed
      split at crashed
      · simpa using ih crashed
      · cases crashed

theorem dangling_of_bindParams {entry : BlockId} {params : List Reg} {fr : Frame}
    {args : List Value} {e : Error} (failed : bindParams entry fr params args = .error (.error e)) :
    e.cause.dangling = false := by
  induction params generalizing fr args with
  | nil => cases failed
  | cons p params ih =>
    cases args with
    | nil => cases failed
    | cons a args =>
      simp only [bindParams] at failed
      split at failed
      · exact ih failed
      · next unwritten =>
        cases failed
        have own := fr.set_anchored p a _ unwritten
        exact own

theorem callHost_linked {hosts : Hosts} {m : Module} {f : Function} (listed : f ∈ m.functions)
    (external : f.isExternal = true) (args : List Value) (w : World κ) {h : Halt ε}
    (failed : (callHost hosts f args w).1 = .error h) : h.Linked hosts m := by
  unfold callHost at failed
  split at failed
  · next absent =>
    cases failed
    exact fun _ => ⟨f, listed, external, absent, rfl⟩
  · dsimp only at failed
    split at failed
    · cases failed
      trivial
    · split at failed <;> cases failed
      rintro ⟨⟩

section Module

variable {m : Module} (accepted : m.defects = .ok [])
include accepted

/-- A function of an accepted module, entered with as many arguments as it has parameters. -/
theorem enter_linked {setup : Setup} {call : Call κ ε} (trusted : Trusted setup.hosts m call)
    {id : FuncId} {f : Function} (found : m.function? id = some f) {args : List Value}
    (enough : args.length = f.sig.params.length) (fuel depth : Nat) {w : World κ}
    (built : setup.shared = true → w.globals.size = m.globals.size) {h : Halt ε}
    (failed : (enter setup m call fuel depth id args w).result = .error h) :
    h.Linked setup.hosts m := by
  obtain ⟨clean, _⟩ := Module.function_of_accepted accepted found
  obtain ⟨initial, start⟩ := initialGlobals_of_accepted accepted
  unfold enter at failed
  rw [found] at failed
  dsimp only at failed
  rw [if_neg (not_not.mpr enough)] at failed
  split at failed
  · cases failed
    rintro ⟨⟩
  · split at failed
    · next external =>
      exact callHost_linked (Array.mem_of_getElem? found) external args w failed
    · next body =>
      have body : f.isExternal = false := by simpa using body
      have formed := Function.wellFormed_of_defects clean body
      split at failed
      · cases failed
        rintro ⟨⟩
      · split at failed
        · next origin =>
          split at origin
          · cases origin
          · cases start.symm.trans origin
        · next globals origin =>
          have size : globals.size = m.globals.size := by
            split at origin
            · next shared =>
              cases origin
              exact built shared
            · exact size_initialGlobals origin
          split at failed
          · next bound =>
            cases failed
            intro dangles
            rw [dangling_of_bindParams bound] at dangles
            cases dangles
          · next bound =>
            have fewer := bindParams_crash bound
            rw [formed.params, enough] at fewer
            exact absurd fewer (Nat.lt_irrefl _)
          · next fr bound =>
            have ended : (Frame.run call (Known m) fuel fr { w with globals } none f.entry).result =
                .error h := by
              split at failed <;> exact failed
            exact run_linked trusted formed fuel (.of_started (started_of_bindParams bound))
              formed.numbered.entry none size ended

/-- The calls that the evaluator makes itself, by induction on how deep they may still go. -/
theorem runAt_linked (setup : Setup) (fuel depth : Nat) {id : FuncId} {f : Function}
    (found : m.function? id = some f) {args : List Value}
    (enough : args.length = f.sig.params.length) {w : World κ}
    (built : setup.shared = true → w.globals.size = m.globals.size) {h : Halt ε}
    (failed : (runAt setup m fuel depth id args w).result = .error h) : h.Linked setup.hosts m := by
  induction fuel generalizing depth id f args w h with
  | zero =>
    cases failed
    trivial
  | succ fuel ih =>
    refine enter_linked accepted ⟨fun id args w size => ?_, ?_⟩ found enough fuel depth built failed
    · exact (runAt_globals setup m fuel (depth + 1) id args fun _ => size).trans size
    · intro id g args w there counted size h stopped
      exact ih (depth + 1) there counted (fun _ => size) stopped

end Module

/-- What the structural check guarantees to the evaluator. In an accepted module every function, on
arguments of its signature and on a store of the module's globals or on none, runs for however long
and through whatever calls without a jump to a missing block, a wrong number of arguments, an
unknown global or a crash, and it leaves as many globals as it found. The only function that it can
miss is one that is declared, and that the host does not implement. -/
theorem accepted_never_dangles {m : Module} (accepted : m.defects = .ok []) {id : FuncId}
    {f : Function} (found : m.function? id = some f) (setup : Setup) (fuel depth : Nat)
    {args : List Value} (matching : args.map (·.ty) = f.sig.params) (w : World κ)
    (built : setup.shared = true → w.globals.size = m.globals.size) :
    (runAt (ε := ε) setup m fuel depth id args w).world.globals.size = w.globals.size ∧
    (∀ c, (runAt (ε := ε) setup m fuel depth id args w).result ≠ .error (.crash c)) ∧
    ∀ e, (runAt (ε := ε) setup m fuel depth id args w).result = .error (.fault e) →
      e.kind ≠ .badBranch ∧ e.kind ≠ .argumentCount ∧
      (∀ g, e.cause ≠ .loadUnknownGlobal g ∧ e.cause ≠ .storeUnknownGlobal g) ∧
      (e.kind = .unknownFunction → ∃ g ∈ m.functions, g.isExternal = true ∧
        setup.hosts g.name = none ∧ e.cause = .notImplemented g.name) := by
  have enough : args.length = f.sig.params.length := by rw [← matching, List.length_map]
  have linked : ∀ h, (runAt (ε := ε) setup m fuel depth id args w).result = .error h →
      h.Linked setup.hosts m :=
    fun _ => runAt_linked accepted setup fuel depth found enough built
  refine ⟨runAt_globals setup m fuel depth id args built, fun c crashed => linked _ crashed,
    fun e failed => ?_⟩
  have only : e.cause.dangling = true → ∃ g ∈ m.functions, g.isExternal = true ∧
      setup.hosts g.name = none ∧ e.cause = .notImplemented g.name := linked _ failed
  have function : e.cause.dangling = true → e.kind = .unknownFunction := by
    intro dangles
    obtain ⟨_, _, _, _, cause⟩ := only dangles
    rw [Error.kind, cause]
    rfl
  refine ⟨fun kind => ?_, fun kind => ?_, fun g => ⟨fun cause => ?_, fun cause => ?_⟩,
    fun kind => only (Cause.dangling_of_kind (.inr (.inr kind)))⟩
  · cases kind.symm.trans (function (Cause.dangling_of_kind (.inl kind)))
  · cases kind.symm.trans (function (Cause.dangling_of_kind (.inr (.inl kind))))
  · have kind := function (by rw [cause]; rfl)
    rw [Error.kind, cause] at kind
    cases kind
  · have kind := function (by rw [cause]; rfl)
    rw [Error.kind, cause] at kind
    cases kind

/-- Adds its argument to a global through a call, and of one argument tells the host the total. -/
def tallying : Module := {
  functions := #[
    { name := "tally", sig := { params := [.i64], ret := .i64 }, params := [⟨0⟩]
      regTypes := #[.i64, .i64, .i64]
      blocks := #[
        some { insts := [{ op := .call, dest := ⟨1⟩, ty := .i64, args := [⟨0⟩], callee := ⟨1⟩ }],
               term := .switch ⟨0⟩ [⟨3, ⟨1⟩⟩] ⟨2⟩ },
        some { id := ⟨1⟩, insts := [{ op := .call, args := [⟨1⟩], callee := ⟨2⟩ }]
               term := .br ⟨2⟩ },
        some { id := ⟨2⟩, phis := [{ dest := ⟨2⟩, ty := .i64,
                                     incoming := [⟨⟨0⟩, ⟨1⟩⟩, ⟨⟨1⟩, ⟨0⟩⟩] }],
               term := .ret (some ⟨2⟩) }] },
    { id := ⟨1⟩, name := "increase", sig := { params := [.i64], ret := .i64 }, params := [⟨0⟩]
      regTypes := #[.i64, .i64, .i64]
      blocks := #[some { insts := [{ op := .loadGlobal, dest := ⟨1⟩, ty := .i64, global := ⟨0⟩ },
                                   { op := .add, dest := ⟨2⟩, ty := .i64, args := [⟨0⟩, ⟨1⟩] },
                                   { op := .storeGlobal, args := [⟨2⟩], global := ⟨0⟩ }],
                         term := .ret (some ⟨2⟩) }] },
    { id := ⟨2⟩, name := "tell", sig := { params := [.i64] } }]
  globals := #[some { name := "total", ty := .i64, init := .ofInt .i64 10 }] }

/-- The run comes through the call, the switch and the block after it, to the one function that it
may miss. -/
theorem accepted_never_dangles_tallying :
    ∃ e, (runAt {} tallying 5 0 ⟨0⟩ [.ofInt .i64 3] (⟨#[.ofInt .i64 10], [], ()⟩ : World Unit) :
        Frame.Finished Unit Unit).result = .error (.fault e) ∧
      e.kind = .unknownFunction ∧ e.kind ≠ .badBranch ∧
      ∃ g ∈ tallying.functions, g.isExternal = true ∧ e.cause = .notImplemented g.name := by
  have failed : (runAt {} tallying 5 0 ⟨0⟩ [.ofInt .i64 3]
      (⟨#[.ofInt .i64 10], [], ()⟩ : World Unit) : Frame.Finished Unit Unit).result =
      .error (.fault ⟨"tell", ⟨0⟩, .notImplemented "tell"⟩) := by decide +kernel
  have accepted : tallying.defects = .ok [] := by decide +kernel
  have matching : [Value.ofInt .i64 3].map (·.ty) = [Ty.i64] := by decide +kernel
  have found : tallying.function? ⟨0⟩ = some _ := rfl
  obtain ⟨_, _, only⟩ := accepted_never_dangles accepted found {} 5 0 matching (ε := Unit)
    ⟨#[.ofInt .i64 10], [], ()⟩ fun _ => rfl
  obtain ⟨branch, _, _, function⟩ := only _ failed
  obtain ⟨g, listed, external, _, cause⟩ := function rfl
  exact ⟨_, failed, rfl, branch, g, listed, external, cause⟩

end TieredEngine.Eval
