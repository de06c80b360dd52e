import TieredEngine.Proofs.Eval.Entering
import TieredEngine.Proofs.Ir.Checked

/-!
Runs of a checked function never miss a register. Whatever a path through a function has written is
defined in a frame that came along it, so where every path writes before it reads, a frame finds
what it looks for. A failure about something missing that carries the function's name can then come
from nowhere: the frame itself does not raise it, and its callees speak for themselves.
-/
namespace TieredEngine.Eval
open TieredEngine.Ir

variable {κ ε : Type}

theorem kind_of_division {op : Op} {t : Ty} {x y : Value} {c : Cause}
    (divides : op = .div ∨ op = .rem) (failed : binary op t x y = .error c) :
    c.kind ≠ .missingRegister := by
  unfold binary at failed
  rcases divides with rfl | rfl
  all_goals
    dsimp only at failed
    repeat' split at failed
    all_goals first | (cases failed; done) | (cases failed; simp [Cause.kind])

theorem operate_finds {op : Op} {t : Ty} {vs : List Value} {c : Cause}
    (failed : operate op t vs = .error c) : c.kind ≠ .missingRegister := by
  by_cases divides : op = .div ∨ op = .rem
  · unfold operate at failed
    split at failed
    · next unary => rcases divides with rfl | rfl <;> simp [Op.isUnary] at unary
    · split at failed
      · split at failed
        · exact kind_of_division divides failed
        · rw [kind_of_compare failed]
          decide
      · cases failed
        simp [Cause.kind]
  · rw [kind_of_operate (not_or.mp divides) failed]
    decide

/-- Of all computations only the load of a global can miss something. -/
theorem load_of_missing {globals : Array Value} {i : Inst} {vs : List Value} {c : Cause}
    (failed : compute globals i vs = .error c) (missing : c.kind = .missingRegister) :
    i.op = .loadGlobal ∧ globals.size ≤ i.global.num := by
  have impossible : c.kind = .typeMismatch → i.op = .loadGlobal ∧ globals.size ≤ i.global.num := by
    intro mismatch
    rw [mismatch] at missing
    cases missing
  unfold compute at failed
  split at failed
  · cases failed
  · cases failed
  · next load =>
    split at failed
    · cases failed
    · next absent => exact ⟨load, Array.getElem?_eq_none_iff.mp absent⟩
  · cases failed
    cases missing
  · cases failed
  · cases failed
    cases missing
  · exact impossible (kind_of_cast failed)
  · cases failed
    cases missing
  · exact impossible (kind_of_select failed)
  · cases failed
    cases missing
  · exact absurd missing (operate_finds failed)

namespace Frame

theorem get_error {fr : Frame} {r : Reg} {e : Error} (failed : fr.get r = .error e) :
    e = fr.fail (.undefinedRegister r) ∧ fr.reg? r = none := by
  unfold get at failed
  unfold reg?
  split at failed
  · cases failed
  · next absent =>
    cases failed
    exact ⟨rfl, absent⟩

theorem set_error {fr : Frame} {r : Reg} {v : Value} {e : Error} (failed : fr.set r v = .error e) :
    ∃ c, e = fr.fail c ∧ (c.kind = .missingRegister → fr.function.declares r = false) := by
  unfold set at failed
  split at failed
  · next undeclared =>
    cases failed
    exact ⟨_, rfl, fun _ => by simp [Function.declares, undeclared]⟩
  · split at failed
    · cases failed
      exact ⟨_, rfl, by simp [Cause.kind]⟩
    · cases failed

theorem mapM_get_error {fr : Frame} {rs : List Reg} {e : Error}
    (failed : rs.mapM fr.get = .error e) : ∃ c, e = fr.fail c ∧ ∃ r ∈ rs, fr.reg? r = none := by
  obtain ⟨r, member, got⟩ := mapM_eq_error failed
  obtain ⟨rfl, absent⟩ := get_error got
  exact ⟨_, rfl, r, member, absent⟩

/-- What an instruction needs and does not have: an operand, a type for the register it writes, or
the global it loads. -/
def Lacks (fr : Frame) (globals : Array Value) (i : Inst) : Prop :=
  (∃ r ∈ i.args, fr.reg? r = none) ∨
  (∃ r, i.target? = some r ∧ fr.function.declares r = false) ∨
  (i.op = .loadGlobal ∧ globals.size ≤ i.global.num)

theorem operands_error {fr : Frame} {i : Inst} {n : Nat} {e : Error}
    (failed : fr.operands i n = .error e) : ∃ c, e = fr.fail c ∧
      (c.kind = .missingRegister → ∃ r ∈ i.args, fr.reg? r = none) := by
  unfold operands at failed
  split at failed
  · cases failed
    exact ⟨_, rfl, by simp [Cause.kind]⟩
  · obtain ⟨c, rfl, absent⟩ := mapM_get_error failed
    exact ⟨c, rfl, fun _ => absent⟩

theorem value_error {fr : Frame} {globals : Array Value} {i : Inst} {e : Error}
    (failed : fr.value globals i = .error e) :
    ∃ c, e = fr.fail c ∧ (c.kind = .missingRegister → fr.Lacks globals i) := by
  cases read : i.args.mapM fr.get with
  | ok vs =>
    rw [value_eq_compute (mapM_get_eq_ok.mp read)] at failed
    cases computed : compute globals i vs with
    | ok v => simp [computed, located] at failed
    | error c =>
      rw [computed] at failed
      cases failed
      exact ⟨c, rfl, fun missing => .inr (.inr (load_of_missing computed missing))⟩
  | error e' =>
    -- an operation that reads its operands fails on them, whatever it does next
    have stops : ∀ n (k : List Value → Except Error Value), (fr.operands i n >>= k) = .error e →
        ∃ c, e = fr.fail c ∧ (c.kind = .missingRegister → fr.Lacks globals i) := by
      intro n k stopped
      rcases bind_eq_error.mp stopped with early | ⟨vs, passed, _⟩
      · obtain ⟨c, rfl, absent⟩ := operands_error early
        exact ⟨c, rfl, fun missing => .inl (absent missing)⟩
      · unfold operands at passed
        split at passed <;> simp [read] at passed
    unfold value at failed
    split at failed
    · cases failed
    · cases failed
    · exact stops _ _ failed
    · exact stops _ _ failed
    · exact stops _ _ failed
    · next load =>
      split at failed
      · cases failed
      · next absent =>
        cases failed
        exact ⟨_, rfl, fun _ => .inr (.inr ⟨load, Array.getElem?_eq_none_iff.mp absent⟩)⟩
    · cases failed
      exact ⟨_, rfl, by simp [Cause.kind]⟩
    · split at failed
      · exact stops _ _ failed
      · exact stops _ _ failed

/-- An instruction that has a value writes it. -/
theorem target?_of_value {fr : Frame} {globals : Array Value} {i : Inst} {v : Value}
    (valued : fr.value globals i = .ok v) (calls : i.op ≠ .call) (stores : i.op ≠ .storeGlobal) :
    i.target? = some i.dest := by
  unfold Inst.target?
  split
  · contradiction
  · next panics => simp [value, panics] at valued
  · contradiction
  · rfl

/-- An instruction fails because its callee does, or by itself; by itself it misses only what it
lacks. -/
theorem exec_error {call : Call κ ε} {known : FuncId → Bool} {fr : Frame} {w : World κ}
    {i : Inst} {h : Halt ε} (failed : (fr.exec call known w i).1 = .error h) :
    (i.op = .call ∧ ∃ args, (call i.callee args w).1 = .error h) ∨
    ∃ c, h = .fault (fr.fail c) ∧ (c.kind = .missingRegister → fr.Lacks w.globals i) := by
  have unwritten : ∀ {v : Value}, i.target? = some i.dest →
      (fr.set i.dest v).mapError Halt.fault = .error h →
      ∃ c, h = .fault (fr.fail c) ∧ (c.kind = .missingRegister → fr.Lacks w.globals i) := by
    intro v target stopped
    cases written : fr.set i.dest v with
    | ok g => simp [written, Except.mapError] at stopped
    | error e =>
      rw [written] at stopped
      cases stopped
      obtain ⟨c, rfl, undeclared⟩ := set_error written
      exact ⟨c, rfl, fun missing => .inr (.inl ⟨_, target, undeclared missing⟩)⟩
  unfold exec at failed
  split at failed
  · next isCall =>
    unfold callOut at failed
    split at failed
    · cases failed
      exact .inr ⟨_, rfl, by simp [Cause.kind]⟩
    · cases read : i.args.mapM fr.get with
      | error e =>
        rw [read] at failed
        cases failed
        obtain ⟨c, rfl, absent⟩ := mapM_get_error read
        exact .inr ⟨c, rfl, fun _ => .inl absent⟩
      | ok args =>
        rw [read] at failed
        dsimp only at failed
        split at failed
        · next called =>
          cases failed
          exact .inl ⟨isCall, args, by rw [called]⟩
        · split at failed
          · cases failed
          · next wanted => exact .inr (unwritten (by simp [Inst.target?, isCall, wanted]) failed)
  · split at failed
    · next unread =>
      cases failed
      obtain ⟨c, rfl, absent⟩ := operands_error unread
      exact .inr ⟨c, rfl, fun missing => .inl (absent missing)⟩
    · split at failed
      · next stored =>
        cases failed
        refine .inr ⟨_, rfl, ?_⟩
        unfold storeGlobal at stored
        split at stored
        · cases stored
          simp [Cause.kind]
        · split at stored <;> cases stored
          simp [Cause.kind]
      · cases failed
  · next notCall notStore =>
    split at failed
    · next unvalued =>
      cases failed
      obtain ⟨c, rfl, lacks⟩ := value_error unvalued
      exact .inr ⟨c, rfl, lacks⟩
    · next valued => exact .inr (unwritten (target?_of_value valued notCall notStore) failed)

/-- An instruction that succeeds writes the register it targets, and nothing else. -/
theorem exec_ok {call : Call κ ε} {known : FuncId → Bool} {fr g : Frame} {w w' : World κ} {i : Inst}
    (done : fr.exec call known w i = (.ok g, w')) :
    i.target? = none ∧ g = fr ∨ ∃ v, i.target? = some i.dest ∧ fr.set i.dest v = .ok g := by
  have writes : ∀ {v : Value}, i.target? = some i.dest →
      (fr.set i.dest v).mapError (Halt.fault (ε := ε)) = .ok g →
      ∃ v, i.target? = some i.dest ∧ fr.set i.dest v = .ok g :=
    fun target finished => ⟨_, target, mapError_eq_ok.mp finished⟩
  unfold exec at done
  split at done
  · next isCall =>
    unfold callOut at done
    split at done
    · cases done
    · split at done
      · cases done
      · split at done
        · cases done
        · split at done
          · next unwanted =>
            cases done
            exact .inl ⟨by simp [Inst.target?, isCall, unwanted], rfl⟩
          · next wanted =>
            exact .inr (writes (by simp [Inst.target?, isCall, wanted]) (Prod.mk.inj done).1)
  · next isStore =>
    split at done
    · cases done
    · split at done
      · cases done
      · cases done
        exact .inl ⟨by simp [Inst.target?, isStore], rfl⟩
  · next notCall notStore =>
    split at done
    · cases done
    · next valued =>
      exact .inr (writes (target?_of_value valued notCall notStore) (Prod.mk.inj done).1)

/-- A frame of the function that came along a path: what the path has written is defined. -/
structure Follows (f : Function) (written : List Reg) (fr : Frame) : Prop where
  function : fr.function = f
  sized : fr.Sized
  defined : ∀ r ∈ written, (fr.reg? r).isSome = true

namespace Follows

variable {f : Function} {written : List Reg} {fr g : Frame}

theorem set (follows : fr.Follows f written) {r : Reg} {v : Value} (done : fr.set r v = .ok g) :
    g.Follows f (written ++ [r]) := by
  obtain ⟨typed, rfl⟩ := set_eq_ok.mp done
  have declared : fr.function.declares r = true := by simp [Function.declares, typed]
  refine ⟨follows.function, sized_put follows.sized r v, fun x member => ?_⟩
  rw [reg?_put follows.sized declared]
  split
  · rfl
  · next other => exact follows.defined x (by simpa [other] using member)

theorem setAll {xs : List (Reg × Value)} (follows : fr.Follows f written)
    (done : fr.setAll xs = .ok g) : g.Follows f (written ++ xs.map (·.1)) := by
  induction xs generalizing fr written with
  | nil =>
    cases done
    simpa using follows
  | cons x xs ih =>
    obtain ⟨fr₁, first, rest⟩ := bind_eq_ok.mp done
    simpa using ih (follows.set first) rest

theorem applyPhis {b : Block} {prev : Option BlockId} (follows : fr.Follows f written)
    (done : fr.applyPhis b prev = .ok g) : g.Follows f (written ++ b.phis.map (·.dest)) := by
  unfold Frame.applyPhis at done
  split at done
  · next none =>
    cases done
    simpa [List.isEmpty_iff.mp none] using follows
  · unfold resolvePhis at done
    split at done
    · cases done
    · obtain ⟨xs, read, written'⟩ := bind_eq_ok.mp done
      -- each value that is read belongs to the destination of its phi
      have dests : xs.map (·.1) = b.phis.map (·.dest) := by
        have pairs : List.Forall₂ (fun x p => x.1 = p.dest) xs b.phis := by
          refine ((mapM_eq_ok.mp read).imp fun p x input => ?_).flip
          split at input
          · cases input
          · obtain ⟨v, _, same⟩ := bind_eq_ok.mp input
            cases same
            rfl
        rw [← List.forall₂_eq_eq_eq]
        simpa using pairs
      rw [← dests]
      exact follows.setAll written'

theorem exec {call : Call κ ε} {known : FuncId → Bool} {w w' : World κ} {i : Inst}
    (follows : fr.Follows f written) (done : fr.exec call known w i = (.ok g, w')) :
    g.Follows f (written ++ i.target?.toList) := by
  rcases exec_ok done with ⟨target, rfl⟩ | ⟨v, target, set⟩
  · simpa [target] using follows
  · simpa [target] using follows.set set

theorem execAll {call : Call κ ε} {known : FuncId → Bool} {w w' : World κ} {is : List Inst}
    (follows : fr.Follows f written) (done : Frame.execAll call known is fr w = (.ok g, w')) :
    g.Follows f (written ++ is.filterMap Inst.target?) := by
  induction is generalizing fr w written with
  | nil =>
    cases done
    simpa using follows
  | cons i is ih =>
    unfold Frame.execAll at done
    split at done
    · cases done
    · next fr₁ w₁ ran =>
      have first := follows.exec ran
      have counted : ({ fr₁ with stats := { fr.stats with insts := fr.stats.insts + 1 } } : Frame).Follows
          f (written ++ i.target?.toList) := ⟨first.function, first.sized, first.defined⟩
      have rest := ih counted done
      cases target : i.target? with
      | none => simpa [target] using rest
      | some r => simpa [target] using rest

end Follows

/-- Instructions stop at one that fails, in the frame that those before it leave. -/
theorem execAll_error {call : Call κ ε} {known : FuncId → Bool} {is : List Inst} {fr : Frame}
    {w w' : World κ} {h : Halt ε} {stats : Stats}
    (failed : Frame.execAll call known is fr w = (.error (h, stats), w')) :
    ∃ before i after g w₁, is = before ++ i :: after ∧
      Frame.execAll call known before fr w = (.ok g, w₁) ∧ g.exec call known w₁ i = (.error h, w') := by
  induction is generalizing fr w with
  | nil => cases failed
  | cons i is ih =>
    unfold Frame.execAll at failed
    split at failed
    · next stopped =>
      cases failed
      exact ⟨[], i, is, fr, w, rfl, rfl, stopped⟩
    · next fr₁ w₁ ran =>
      obtain ⟨before, j, after, g, w₂, rfl, early, stopped⟩ := ih failed
      refine ⟨i :: before, j, after, g, w₂, rfl, ?_, stopped⟩
      unfold Frame.execAll
      rw [ran]
      exact early

end Frame

/-- The function makes no calls. -/
def Leaf (f : Function) : Prop :=
  ∀ id b, f.block? id = some b → ∀ i ∈ b.insts, i.op ≠ .call

/-- Failures of the evaluator in the result have the property. -/
def Fails (P : Error → Prop) (result : Except (Halt ε) Value) : Prop :=
  ∀ e, result = .error (.fault e) → P e

/-- The result is not a failure about something missing in the name of the function. -/
def Unblamed (name : String) (result : Except (Halt ε) Value) : Prop :=
  ∀ e, result = .error (.fault e) → e.function = name → e.kind ≠ .missingRegister

/-- Calls that keep the number of globals, and in which nothing is found missing in the name of the
function. -/
def Careful (count : Nat) (name : String) (call : Call κ ε) : Prop :=
  ∀ id args w, w.globals.size = count →
    (call id args w).2.globals.size = count ∧ Unblamed name (call id args w).1

theorem Careful.keepsCount {count : Nat} {name : String} {call : Call κ ε}
    (careful : Careful count name call) : KeepsCount count call :=
  fun id args w size => (careful id args w size).1

namespace Frame

theorem setAll_error {fr : Frame} {xs : List (Reg × Value)} {e : Error}
    (failed : fr.setAll xs = .error e) : e.function = fr.function.name ∧
      ((∀ x ∈ xs, fr.function.declares x.1 = true) → e.kind ≠ .missingRegister) := by
  induction xs generalizing fr with
  | nil => cases failed
  | cons x xs ih =>
    rcases bind_eq_error.mp failed with stopped | ⟨g, written, later⟩
    · obtain ⟨c, rfl, undeclared⟩ := set_error stopped
      refine ⟨rfl, fun declared missing => ?_⟩
      simp [declared x (by simp)] at undeclared
      exact undeclared missing
    · obtain ⟨_, rfl⟩ := set_eq_ok.mp written
      obtain ⟨named, found⟩ := ih later
      exact ⟨named, fun declared => found fun y member => declared y (by simp [member])⟩

theorem applyPhis_error {fr : Frame} {b : Block} {prev : Option BlockId} {e : Error}
    (failed : fr.applyPhis b prev = .error e) : e.function = fr.function.name ∧
      ∀ f written, fr.Follows f written → b.Grounded f prev written → e.kind ≠ .missingRegister := by
  unfold applyPhis at failed
  split at failed
  · cases failed
  · next some =>
    unfold resolvePhis at failed
    split at failed
    · cases failed
      refine ⟨rfl, fun f written _ grounded => ?_⟩
      obtain ⟨p, member⟩ := List.exists_mem_of_ne_nil b.phis (by simpa using some)
      obtain ⟨_, pred, r, came, _⟩ := grounded.phis p member
      cases came
    · next last =>
      rcases bind_eq_error.mp failed with stopped | ⟨xs, read, stopped⟩
      · obtain ⟨p, member, missing⟩ := mapM_eq_error stopped
        split at missing
        · next none =>
          cases missing
          refine ⟨rfl, fun f written _ grounded => ?_⟩
          obtain ⟨_, pred, r, came, value, _⟩ := grounded.phis p member
          cases came
          rw [none] at value
          cases value
        · next r value =>
          rcases bind_eq_error.mp missing with unread | ⟨_, _, ⟨⟩⟩
          obtain ⟨rfl, absent⟩ := get_error unread
          refine ⟨rfl, fun f written follows grounded => ?_⟩
          obtain ⟨_, pred, r', came, value', early⟩ := grounded.phis p member
          cases came
          cases value.symm.trans value'
          have defined := follows.defined r early
          simp [absent] at defined
      · obtain ⟨named, found⟩ := setAll_error stopped
        refine ⟨named, fun f written follows grounded => found fun x member => ?_⟩
        obtain ⟨p, inside, input⟩ := forall₂_partner (mapM_eq_ok.mp read).flip member
        split at input
        · cases input
        · obtain ⟨v, _, same⟩ := bind_eq_ok.mp input
          cases same
          rw [follows.function]
          exact (grounded.phis p inside).1

theorem terminate_error {fr : Frame} {t : Term} {e : Error} (failed : fr.terminate t = .error e) :
    ∃ c, e = fr.fail c ∧ (c.kind = .missingRegister → ∃ r ∈ t.uses, fr.reg? r = none) := by
  -- the register that the terminator depends on is read, or it is the one that is missing
  have reads : ∀ {r : Reg} {k : Value → Except Error Next}, r ∈ t.uses →
      (fr.get r >>= k) = .error e →
      (∀ v, fr.reg? r = some v → ∃ c, e = fr.fail c ∧ c.kind ≠ .missingRegister) →
      ∃ c, e = fr.fail c ∧ (c.kind = .missingRegister → ∃ r ∈ t.uses, fr.reg? r = none) := by
    intro r k used stopped tested
    rcases bind_eq_error.mp stopped with unread | ⟨v, got, _⟩
    · obtain ⟨rfl, absent⟩ := get_error unread
      exact ⟨_, rfl, fun _ => ⟨r, used, absent⟩⟩
    · obtain ⟨c, rfl, other⟩ := tested v (get_eq_ok.mp got)
      exact ⟨c, rfl, fun missing => absurd missing other⟩
  cases t with
  | missing =>
    cases failed
    exact ⟨_, rfl, by simp [Cause.kind]⟩
  | br t => cases failed
  | condBr c yes no =>
    refine reads (by simp [Term.uses]) failed fun v held => ?_
    rw [terminate_condBr held] at failed
    split at failed <;> cases failed
    exact ⟨_, rfl, by simp [Cause.kind]⟩
  | switch c cases d =>
    refine reads (by simp [Term.uses]) failed fun v held => ?_
    rw [terminate_switch held] at failed
    split at failed <;> cases failed
    exact ⟨_, rfl, by simp [Cause.kind]⟩
  | ret v? =>
    cases v? with
    | none =>
      simp only [terminate] at failed
      split at failed <;> cases failed
      exact ⟨_, rfl, by simp [Cause.kind]⟩
    | some r =>
      refine reads (by simp [Term.uses]) failed fun v held => ?_
      rw [terminate_ret held] at failed
      split at failed <;> cases failed
      exact ⟨_, rfl, by simp [Cause.kind]⟩
  | unreachable =>
    cases failed
    exact ⟨_, rfl, by simp [Cause.kind]⟩

end Frame

/-- What is asked of the function with the name: its registers are written before they are read,
and every load names one of the globals. Of other functions nothing is asked. -/
def Definite (count : Nat) (name : String) (f : Function) : Prop :=
  f.name = name → f.Grounded ∧
    ∀ id b, f.block? id = some b → ∀ i ∈ b.insts, i.op = .loadGlobal → i.global.num < count

section Run

variable {count : Nat} {name : String} {call : Call κ ε} {known : FuncId → Bool} {f : Function}
  {fr : Frame} {written : List Reg} {prev : Option BlockId} {cur : BlockId} {w : World κ}

theorem exec_unblamed (careful : Careful count name call) {extra : List Reg} {i : Inst}
    (follows : fr.Follows f (written ++ extra))
    (args : f.name = name → ∀ r ∈ i.args, r ∈ written ++ extra)
    (target : f.name = name → ∀ r, i.target? = some r → f.declares r = true)
    (loads : f.name = name → i.op = .loadGlobal → i.global.num < count)
    (size : w.globals.size = count) {h : Halt ε} (failed : (fr.exec call known w i).1 = .error h) :
    Unblamed name (.error h) := by
  rintro e ⟨⟩ own missing
  rcases Frame.exec_error failed with ⟨_, vs, called⟩ | ⟨c, same, lacks⟩
  · exact (careful i.callee vs w size).2 e called own missing
  · cases same
    have named : f.name = name := by simpa [Frame.fail, follows.function] using own
    rcases lacks missing with ⟨r, member, absent⟩ | ⟨r, writes, undeclared⟩ | ⟨load, outside⟩
    · have defined := follows.defined r (args named r member)
      simp [absent] at defined
    · rw [follows.function, target named r writes] at undeclared
      cases undeclared
    · have inside := loads named load
      omega

variable (known) in
/-- One block of a frame that came along a path. -/
theorem turn_unblamed (careful : Careful count name call) (definite : Definite count name f)
    (follows : fr.Follows f written) (path : f.Arrives prev cur written)
    (size : w.globals.size = count) :
    match Frame.turn call known fr w prev cur with
    | .stop out => Unblamed name out.result
    | .go fr' _ next => ∃ written', fr'.Follows f written' ∧ f.Arrives (some cur) next written' := by
  unfold Frame.turn
  rw [follows.function]
  cases found : f.block? cur with
  | none =>
    rintro e ⟨⟩ _
    simp [Frame.fail, Error.kind, Cause.kind]
  | some b =>
    have arrived : (fr.arrive cur).Follows f written :=
      ⟨follows.function, follows.sized, follows.defined⟩
    have grounded : f.name = name → b.Grounded f prev written := fun named =>
      (definite named).1 prev cur written b path found
    simp only [Frame.runBlock]
    cases applied : (fr.arrive cur).applyPhis b prev with
    | error e =>
      rintro _ ⟨⟩ own
      obtain ⟨named, finds⟩ := Frame.applyPhis_error applied
      rw [arrived.function] at named
      exact finds f written arrived (grounded (named.symm.trans own))
    | ok fr₁ =>
      have entered := arrived.applyPhis applied
      dsimp only
      rcases executed : Frame.execAll call known b.insts fr₁ w with ⟨_ | fr₂, w₂⟩
      · next stopped =>
        obtain ⟨h, stats⟩ := stopped
        obtain ⟨before, i, after, g, w₁, split, early, failed⟩ := Frame.execAll_error executed
        have sizes : (Frame.execAll call known before fr₁ w).2.globals.size = count :=
          Frame.execAll_globals careful.keepsCount fr₁ size
        rw [early] at sizes
        have member : i ∈ b.insts := by simp [split]
        have there : g.Follows f (written ++ b.writesUpTo before) := by
          simpa [Block.writesUpTo] using entered.execAll early
        exact exec_unblamed careful there
          (fun named => (grounded named).args before i after split)
          (fun named => (grounded named).targets i member)
          (fun named => (definite named).2 cur b found i member) sizes (by rw [failed])
      · have finished : fr₂.Follows f (written ++ b.writes) := by
          simpa [Block.writes, Block.writesUpTo] using entered.execAll executed
        dsimp only
        cases ended : fr₂.terminate b.term with
        | error e =>
          rintro _ ⟨⟩ own missing
          obtain ⟨c, rfl, unread⟩ := Frame.terminate_error ended
          obtain ⟨r, used, absent⟩ := unread missing
          have named : f.name = name := by simpa [Frame.fail, finished.function] using own
          have defined := finished.defined r ((grounded named).uses r used)
          simp [absent] at defined
        | ok next =>
          cases next with
          | done v => rintro e ⟨⟩
          | goto next => exact ⟨_, finished, path.step found (Frame.goto_mem ended)⟩

variable (known) in
/-- A run from a frame that came along a path. -/
theorem run_unblamed (careful : Careful count name call) (definite : Definite count name f)
    (fuel : Nat) (follows : fr.Follows f written) (path : f.Arrives prev cur written)
    (size : w.globals.size = count) :
    Unblamed name (Frame.run call known fuel fr w prev cur).result := by
  induction fuel generalizing fr w prev cur written with
  | zero => rintro e ⟨⟩
  | succ fuel ih =>
    have turned := turn_unblamed known careful definite follows path size
    have kept := turn_globals known careful.keepsCount fr prev cur size
    unfold Frame.run
    cases stepped : Frame.turn call known fr w prev cur with
    | stop out =>
      rw [stepped] at turned
      exact turned
    | go fr' w' next =>
      rw [stepped] at turned kept
      obtain ⟨written', follows', path'⟩ := turned
      exact ih follows' path' kept

end Run

section Failing

variable {f : Function} {fr : Frame} {written : List Reg} {prev : Option BlockId} {cur : BlockId}
  {w : World κ} {P : Error → Prop} (own : ∀ e, e.function = f.name → P e) {call : Call κ ε}
  (calls : Leaf f ∨ ∀ id args w, Fails P (call id args w).1)
include own calls

/-- One block of a function fails in the function's name, or as a call does that it makes. -/
theorem turn_fails (known : FuncId → Bool) (follows : fr.Follows f written) (prev : Option BlockId)
    (cur : BlockId) (w : World κ) :
    match Frame.turn call known fr w prev cur with
    | .stop out => Fails P out.result
    | .go fr' _ _ => ∃ written', fr'.Follows f written' := by
  have here : ∀ {g : Frame} {written : List Reg} {c : Cause}, g.Follows f written →
      P (g.fail c) := by
    intro g written c follows
    exact own _ (by rw [Frame.fail, follows.function])
  unfold Frame.turn
  cases found : fr.function.block? cur with
  | none =>
    rintro e ⟨⟩
    exact here follows
  | some b =>
    rw [follows.function] at found
    have arrived : (fr.arrive cur).Follows f written :=
      ⟨follows.function, follows.sized, follows.defined⟩
    simp only [Frame.runBlock]
    cases applied : (fr.arrive cur).applyPhis b prev with
    | error e =>
      rintro _ ⟨⟩
      exact own _
        ((Frame.applyPhis_error applied).1.trans (congrArg Function.name arrived.function))
    | ok fr₁ =>
      have entered := arrived.applyPhis applied
      dsimp only
      rcases executed : Frame.execAll call known b.insts fr₁ w with ⟨_ | fr₂, w₂⟩
      · next stopped =>
        obtain ⟨h, stats⟩ := stopped
        obtain ⟨before, i, after, g, w₁, split, early, failed⟩ := Frame.execAll_error executed
        rintro e ⟨⟩
        rcases Frame.exec_error (by rw [failed]) with ⟨isCall, args, called⟩ | ⟨c, same, _⟩
        · rcases calls with leaf | fails
          · exact absurd isCall (leaf cur b found i (by simp [split]))
          · exact fails _ _ _ e called
        · cases same
          exact here (entered.execAll early)
      · have finished := entered.execAll executed
        dsimp only
        cases ended : fr₂.terminate b.term with
        | error e =>
          rintro _ ⟨⟩
          obtain ⟨c, rfl, _⟩ := Frame.terminate_error ended
          exact here finished
        | ok next =>
          cases next with
          | done v => rintro e ⟨⟩
          | goto next => exact ⟨_, finished⟩

theorem run_fails (known : FuncId → Bool) (fuel : Nat) (follows : fr.Follows f written)
    (prev : Option BlockId) (cur : BlockId) (w : World κ) :
    Fails P (Frame.run call known fuel fr w prev cur).result := by
  induction fuel generalizing fr w prev cur written with
  | zero => rintro e ⟨⟩
  | succ fuel ih =>
    have turned := turn_fails own calls known follows prev cur w
    unfold Frame.run
    cases stepped : Frame.turn call known fr w prev cur with
    | stop out =>
      rw [stepped] at turned
      exact turned
    | go fr' w' next =>
      rw [stepped] at turned
      obtain ⟨written', follows'⟩ := turned
      exact ih follows' _ _ _

end Failing

theorem callHost_unblamed {name : String} (hosts : Hosts) (f : Function) (args : List Value)
    (w : World κ) : Unblamed name (callHost (ε := ε) hosts f args w).1 := by
  unfold callHost
  split
  · rintro e ⟨⟩ _
    simp [Error.kind, Cause.kind]
  · dsimp only
    split
    · rintro e ⟨⟩
    · split
      · rintro e ⟨⟩ _
        simp [Error.kind, Cause.kind]
      · rintro e ⟨⟩

theorem Frame.Follows.of_started {f : Function} {args : List Value} {fr : Frame}
    (started : Started f args fr) : fr.Follows f f.params :=
  ⟨started.function, started.sized, fun r member => (started.defined r).mpr member⟩

/-- A function with a body fails in its own name, or as a call does that it makes. -/
theorem Entered.fails {m : Module} {f : Function} (internal : f.isExternal = false)
    {P : Error → Prop} (own : ∀ e, e.function = f.name → P e) {call : Call κ ε}
    (calls : Leaf f ∨ ∀ id args w, Fails P (call id args w).1) {setup : Setup} {fuel : Nat}
    {args : List Value} {w : World κ} {out : Frame.Finished κ ε}
    (entered : Entered setup m call fuel f args w out) : Fails P out.result := by
  cases entered with
  | refused e named _ _ =>
    rintro _ ⟨⟩
    exact own e named
  | crashed c => rintro e ⟨⟩
  | hosted external => simp [internal] at external
  | ran _ _ fr globals bound origin =>
    rw [setup.result_settle]
    exact run_fails own calls _ fuel (.of_started (started_of_bindParams bound)) _ _ _

/-- Entering any function of the module with careful calls. -/
theorem Entered.careful {m : Module} (accepted : m.defects = .ok []) {f g : Function}
    (listed : f ∈ m.functions) (typed : f.typingErrors = .ok []) {setup : Setup} {call : Call κ ε}
    (careful : Careful m.globals.size f.name call) {id : FuncId} (found : m.function? id = some g)
    {fuel : Nat} {args : List Value} {w : World κ} (size : w.globals.size = m.globals.size)
    {out : Frame.Finished κ ε} (entered : Entered setup m call fuel g args w out) :
    Unblamed f.name out.result := by
  have member : g ∈ m.functions := Array.mem_of_getElem? found
  obtain ⟨clean, _⟩ := Module.function_of_accepted accepted found
  cases entered with
  | refused e _ _ kind =>
    rintro _ ⟨⟩ _
    exact kind fun internal => (Function.params_of_defects clean internal).2
  | crashed c => rintro e ⟨⟩
  | hosted external => exact callHost_unblamed setup.hosts g args w
  | ran internal _ fr globals bound origin =>
    have start : globals.size = m.globals.size := by
      split at origin
      · cases origin
        exact size
      · exact size_initialGlobals origin
    obtain ⟨numbered, loads⟩ := Function.wellNumbered_of_defects clean internal
    have definite : Definite m.globals.size f.name g := by
      intro named
      obtain rfl := Module.eq_of_name accepted member listed named
      exact ⟨Function.grounded_of_typed numbered internal typed, loads⟩
    rw [setup.result_settle]
    exact run_unblamed _ careful definite fuel (.of_started (started_of_bindParams bound)) .entry
      (show ({ w with globals } : World κ).globals.size = _ from start)

/-- Every run in a module, of whatever function, is careful about the function that is checked. -/
theorem runAt_careful {m : Module} (accepted : m.defects = .ok []) {f : Function}
    (listed : f ∈ m.functions) (typed : f.typingErrors = .ok []) (setup : Setup) (fuel depth : Nat)
    (id : FuncId) (args : List Value) {w : World κ} (size : w.globals.size = m.globals.size) :
    (runAt (ε := ε) setup m fuel depth id args w).world.globals.size = m.globals.size ∧
      Unblamed f.name (runAt (ε := ε) setup m fuel depth id args w).result := by
  refine ⟨(runAt_globals setup m fuel depth id args fun _ => size).trans size, ?_⟩
  induction fuel generalizing depth id args w with
  | zero => rintro e ⟨⟩
  | succ fuel ih =>
    unfold runAt
    cases found : m.function? id with
    | none =>
      simp only [enter, found]
      rintro e ⟨⟩ _
      simp [Error.kind, Cause.kind]
    | some g =>
      refine (enter_cases found args w).careful accepted listed typed (fun id args w size => ?_) found
        size
      exact ⟨(runAt_globals setup m fuel (depth + 1) id args fun _ => size).trans size,
        ih (depth + 1) id args size⟩

/-- A function that the typing check accepts never misses a register: whichever function of an
accepted module is run, from globals of that module and with whatever host functions, no failure
about a register without a value or a type, an input of a phi or a global is raised in its name. -/
theorem checked_never_misses {m : Module} (accepted : m.defects = .ok []) {f : Function}
    (listed : f ∈ m.functions) (typed : f.typingErrors = .ok []) (setup : Setup) (fuel depth : Nat)
    (id : FuncId) (args : List Value) (w : World κ) (size : w.globals.size = m.globals.size)
    (e : Error) (failed : (runAt (ε := ε) setup m fuel depth id args w).result = .error (.fault e))
    (own : e.function = f.name) : e.kind ≠ .missingRegister :=
  (runAt_careful accepted listed typed setup fuel depth id args size).2 e failed own

/-- Divides by its argument, by one less, and so on, until it divides by zero. -/
def quotients : Function := {
  name := "quotients"
  sig := { params := [.i64], ret := .i64 }
  params := [⟨0⟩]
  regTypes := #[.i64, .i64, .i64, .i64, .i64, .i64]
  blocks := #[
    some { id := ⟨0⟩, insts := [{ op := .const, dest := ⟨1⟩, ty := .i64, const := .ofInt .i64 1 },
                                { op := .const, dest := ⟨2⟩, ty := .i64, const := .ofInt .i64 60 }],
           term := .br ⟨1⟩ },
    some { id := ⟨1⟩, phis := [{ dest := ⟨3⟩, ty := .i64, incoming := [⟨⟨0⟩, ⟨0⟩⟩, ⟨⟨1⟩, ⟨5⟩⟩] }],
           insts := [{ op := .div, dest := ⟨4⟩, ty := .i64, args := [⟨2⟩, ⟨3⟩] },
                     { op := .sub, dest := ⟨5⟩, ty := .i64, args := [⟨3⟩, ⟨1⟩] }],
           term := .br ⟨1⟩ }] }

theorem checked_never_misses_quotients : ∃ e,
    (runAt {} { functions := #[quotients] } 6 0 ⟨0⟩ [.ofInt .i64 2]
      (⟨#[], [], ()⟩ : World Unit) : Frame.Finished Unit Unit).result = .error (.fault e) ∧
      e.kind ≠ .missingRegister := by
  have failed : (runAt {} { functions := #[quotients] } 6 0 ⟨0⟩ [.ofInt .i64 2]
      (⟨#[], [], ()⟩ : World Unit) : Frame.Finished Unit Unit).result =
      .error (.fault ⟨"quotients", ⟨1⟩, .divideByZero .div .i64⟩) := by decide +kernel
  exact ⟨_, failed, checked_never_misses (m := { functions := #[quotients] }) (f := quotients)
    (by decide +kernel) (by simp) (by decide +kernel) {} 6 0 ⟨0⟩ _ _ rfl _ failed rfl⟩

end TieredEngine.Eval
