import TieredEngine.Proofs.Ship.Lowering.Filling
import TieredEngine.Proofs.Ship.Lowering.Words

/-!
Running lowered instructions. What is written for an instruction takes the running call from where lowering
stood before it to where it stands after it. On the way only results are written whose numbers had not been
given out, and in the end the value that was made stands for what evaluation computes. Where evaluation
divides by zero or panics, the runtime's panic is called with what evaluation says.
-/
namespace TieredEngine.Llvm

section

variable {σ : Type} {l : Module} {out : Outside σ}

/-- Steps lead from one to the other. -/
def Leads (l : Module) (out : Outside σ) (x y : Next σ) : Prop := ∃ n, run l out n x = some y

theorem run_add (n m : Nat) (x : Next σ) :
    run l out (n + m) x = (run l out n x).bind (run l out m) := by
  induction n generalizing x with
  | zero => rw [Nat.zero_add]; rfl
  | succ n ih =>
    rw [Nat.succ_add]
    cases x with
    | returned => rfl
    | step s =>
      show (next l out s).bind (run l out (n + m)) = ((next l out s).bind (run l out n)).bind _
      rw [Option.bind_assoc]
      exact congrArg _ (funext ih)

theorem Leads.refl (x : Next σ) : Leads l out x x := ⟨0, rfl⟩

theorem Leads.trans {x y z : Next σ} (first : Leads l out x y) (second : Leads l out y z) :
    Leads l out x z := by
  obtain ⟨n, ran⟩ := first
  obtain ⟨m, ran'⟩ := second
  exact ⟨n + m, by rw [run_add, ran]; exact ran'⟩

theorem Leads.of_next {s : State σ} {x : Next σ} (stepped : next l out s = some x) :
    Leads l out (.step s) x :=
  ⟨1, by rw [run, stepped]; rfl⟩

end

namespace Activation

variable {a a' : Activation} {x y : Val} {m n : Word}

theorem at?_self (m : Word) : m.at? m.width = some m.bits := by
  rw [Word.at?, dif_pos rfl]
  rfl

/-- An operand that is there has the type of its word. -/
theorem operand?_eq_some : a.operand? x = some m ↔ x.ty = .int m.width ∧ a.read? m.width x = some m.bits := by
  unfold operand?
  constructor
  · intro there
    split at there
    · next w type =>
      obtain ⟨b, read, rfl⟩ := Option.map_eq_some_iff.mp there
      exact ⟨type, read⟩
    · cases there
  · rintro ⟨type, read⟩
    rw [type]
    dsimp only
    rw [read]
    rfl

/-- Operands stay as long as the results that they name do. -/
theorem operand?_congr (args : a'.args = a.args)
    (same : x.Born fun id => a'.results id = a.results id) : a'.operand? x = a.operand? x := by
  have read : ∀ w, a'.read? w x = a.read? w x := by
    intro w
    cases x with
    | const c => cases c <;> rfl
    | param k t => simp only [read?, args]
    | result id t =>
      have same : a'.results id = a.results id := same
      simp only [read?, same]
  unfold operand?
  split
  · rw [read]
  · rfl

/-- An operand that the text gives the type of another one. -/
theorem read?_of_operand? (there : a.operand? x = some m) {w : Nat} (same : m.width = w) :
    a.read? w x = some (m.bits.cast same) := by
  subst same
  exact (operand?_eq_some.mp there).2

theorem truth?_ofBool (b : Bool) : (Word.ofBool b).truth? = some b := by
  cases b <;> rfl

theorem operand?_of_args {k : Nat} (there : a.args[k]? = some (.word m)) :
    a.operand? (.param k (.int m.width)) = some m := by
  refine operand?_eq_some.mpr ⟨rfl, ?_⟩
  simp only [read?, there, if_pos]
  exact at?_self m

theorem operand?_of_results {id : Nat} (there : a.results id = some m) :
    a.operand? (.result id (.int m.width)) = some m := by
  refine operand?_eq_some.mpr ⟨rfl, ?_⟩
  rw [read?, if_pos rfl, there]
  exact at?_self m

theorem operand?_result (a : Activation) (id : Nat) (m : Word) :
    (a.record id (some m)).operand? (.result id (.int m.width)) = some m :=
  operand?_of_results (if_pos rfl)

section Record

variable (a : Activation) (id : Nat) (m? : Option Word)

@[simp] theorem record_function : (a.record id m?).function = a.function := by cases m? <;> rfl
@[simp] theorem record_args : (a.record id m?).args = a.args := by cases m? <;> rfl
@[simp] theorem record_block : (a.record id m?).block = a.block := by cases m? <;> rfl
@[simp] theorem record_rest : (a.record id m?).rest = a.rest := by cases m? <;> rfl

theorem results_record {k : Nat} (other : k ≠ id) : (a.record id m?).results k = a.results k := by
  cases m? with
  | none => rfl
  | some m => exact if_neg other

end Record

/-- What an operation computes has its type. -/
theorem ty_of_value? {op : Operation} (value : a.value? op = some m) : op.ty = .int m.width := by
  cases op with
  | binary op x y =>
    obtain ⟨n, there, value⟩ := Option.bind_eq_some_iff.mp value
    obtain ⟨b, _, value⟩ := Option.bind_eq_some_iff.mp value
    obtain ⟨c, _, same⟩ := Option.bind_eq_some_iff.mp value
    cases same
    exact (operand?_eq_some.mp there).1
  | icmp p x y =>
    obtain ⟨n, _, value⟩ := Option.bind_eq_some_iff.mp value
    obtain ⟨b, _, same⟩ := Option.bind_eq_some_iff.mp value
    cases same
    rfl
  | cast op x t =>
    cases t with
    | int w =>
      obtain ⟨n, _, value⟩ := Option.bind_eq_some_iff.mp value
      obtain ⟨b, _, same⟩ := Option.bind_eq_some_iff.mp value
      cases same
      rfl
    | _ => cases value
  | select c x y =>
    obtain ⟨_, _, value⟩ := Option.bind_eq_some_iff.mp value
    obtain ⟨b, _, value⟩ := Option.bind_eq_some_iff.mp value
    obtain ⟨m', one, value⟩ := Option.bind_eq_some_iff.mp value
    obtain ⟨n', two, value⟩ := Option.bind_eq_some_iff.mp value
    split at value
    · next same =>
      have type := (operand?_eq_some.mp one).1
      cases value
      split
      · exact type
      · rw [← same]
        exact type
    · cases value
  | _ => cases value

end Activation

end TieredEngine.Llvm

namespace TieredEngine.Ship.Lowering
open TieredEngine TieredEngine.Llvm

/-- What a state leads to: its blocks become those of a function, its functions and globals those of the
module. -/
structure State.Final (l : Llvm.Module) (blocks : List Llvm.Block) (s : State) : Prop where
  blocks : ∀ (j : Nat) b, s.blocks[j]? = some b → ∃ b', blocks[j]? = some b' ∧ b.Becomes b'
  functions : ∀ (k : Nat) g, s.functions[k]? = some g → ∃ g', l.functions[k]? = some g' ∧
    g'.ret = g.ret ∧ (g = panicFunction → g' = panicFunction)
  globals : ∀ (k : Nat) g, s.globals[k]? = some g → l.globals[k]? = some g

theorem State.Final.extends {l : Llvm.Module} {blocks : List Llvm.Block} {s t : State}
    (final : t.Final l blocks) (ext : s.Extends t) : s.Final l blocks where
  blocks j b there := by
    obtain ⟨b', there', becomes⟩ := ext.blocks j b there
    obtain ⟨b'', there'', becomes'⟩ := final.blocks j b' there'
    exact ⟨b'', there'', becomes.trans becomes'⟩
  functions k g there := by
    obtain ⟨g', there', _, ret, _, same⟩ := ext.functions k g there
    obtain ⟨g'', there'', ret', same'⟩ := final.functions k g' there'
    exact ⟨g'', there'', ret'.trans ret, fun panics =>
      same' ((same (congrArg Func.name panics)).trans panics)⟩
  globals k g there := final.globals k g (ext.globals k g there)

/-- A running call stands at the end of what is written to a block. -/
structure StandsAt (blocks : List Llvm.Block) (j : Nat) (s : State) (a : Activation) : Prop where
  function : a.function.blocks = blocks
  here : blocks[j]? = some a.block
  rest : a.rest = a.block.insts.drop (s.count j)
  opens : s.Open j
  stock : s.Stock

/-- A running call stands where lowering goes on. -/
abbrev Stands (blocks : List Llvm.Block) (s : State) (a : Activation) : Prop :=
  StandsAt blocks s.current s a

section

variable {σ : Type} {l : Llvm.Module} {out : Outside σ} {blocks : List Llvm.Block} {mem : Memory}
  {s t u : State} {a a' a'' : Activation}

/-- A running call has come from where lowering stood to where it stands; results that were numbered before
are kept. -/
structure Moves (blocks : List Llvm.Block) (s t : State) (a a' : Activation) : Prop where
  stands : Stands blocks t a'
  nextId : s.nextId ≤ t.nextId
  function : a'.function = a.function
  args : a'.args = a.args
  results : ∀ id < s.nextId, a'.results id = a.results id

/-- Operands from before stay. -/
theorem Moves.operand? (moves : Moves blocks s t a a') {x : Val} (born : x.Born (· < s.nextId)) :
    a'.operand? x = a.operand? x :=
  Activation.operand?_congr moves.args (born.mono moves.results)

theorem Moves.trans (first : Moves blocks s t a a') (second : Moves blocks t u a' a'') :
    Moves blocks s u a a'' where
  stands := second.stands
  nextId := Nat.le_trans first.nextId second.nextId
  function := second.function.trans first.function
  args := second.args.trans first.args
  results id old := (second.results id (Nat.lt_of_lt_of_le old first.nextId)).trans (first.results id old)

theorem Moves.define {r : Ir.Reg} {v : Val} (moves : Moves blocks s t a a')
    (defines : State.Defines r v t u) : Moves blocks s u a a' := by
  obtain ⟨values, rfl⟩ : ∃ values, u = { t with values } := ⟨_, defines.same⟩
  obtain ⟨stands, nextId, function, args, results⟩ := moves
  exact ⟨⟨stands.function, stands.here, stands.rest, stands.opens, ⟨stands.stock.panic, stands.stock.texts⟩⟩,
    nextId, function, args, results⟩

/-- A running call goes there on its own; neither memory nor the outside changes. -/
structure Advances (l : Llvm.Module) (out : Outside σ) (blocks : List Llvm.Block) (mem : Memory)
    (s t : State) (a a' : Activation) : Prop extends Moves blocks s t a a' where
  leads : ∀ callers o, Leads l out (.step ⟨mem, a, callers, o⟩) (.step ⟨mem, a', callers, o⟩)

theorem Advances.refl (stands : Stands blocks s a) : Advances l out blocks mem s s a a :=
  ⟨⟨stands, Nat.le_refl _, rfl, rfl, fun _ _ => rfl⟩, fun _ _ => .refl _⟩

theorem Advances.trans (first : Advances l out blocks mem s t a a')
    (second : Advances l out blocks mem t u a' a'') : Advances l out blocks mem s u a a'' where
  toMoves := first.toMoves.trans second.toMoves
  leads callers o := (first.leads callers o).trans (second.leads callers o)

/-- An instruction is written to the block that a call stands in: the call has come to it. -/
theorem StandsAt.emitTo {j : Nat} (stands : StandsAt blocks j s a) {op : Operation}
    (plain : ∀ t ins, op ≠ .phi t ins) {v : Val} (ran : emitTo j op s = .ok (v, t))
    (final : t.Final l blocks) : ∃ rest, a.rest = ⟨s.nextId, op⟩ :: rest ∧
      (∀ b, b.function = a.function → b.block = a.block → b.rest = rest → StandsAt blocks j t b) ∧
      v = .result s.nextId op.ty ∧ t.nextId = s.nextId + 1 := by
  obtain ⟨works, opens, rfl, next⟩ := State.Works.emitTo stands.opens plain ran
  obtain ⟨b, there, blank⟩ := stands.opens
  have written : t.blocks[j]? = some { b with insts := b.insts ++ [⟨s.nextId, op⟩] } := by
    cases ran
    show (s.blocks.modify j _)[j]? = _
    rw [Array.getElem?_modify, if_pos rfl, there]
    rfl
  have count : s.count j = b.insts.length ∧ t.count j = b.insts.length + 1 := by
    rw [State.count, State.count, there, written]
    simp
  obtain ⟨b', here, becomes⟩ := final.blocks j _ written
  obtain rfl := Option.some.inj (stands.here.symm.trans here)
  have last : (b.insts ++ [(⟨s.nextId, op⟩ : Llvm.Inst)])[b.insts.length]? = some ⟨s.nextId, op⟩ := by simp
  obtain ⟨i', at_i, id, same | ⟨ty, ins, _, phi, _⟩⟩ := becomes.insts _ _ last
  · obtain ⟨id', op'⟩ := i'
    cases id
    cases same
    obtain ⟨inside, same⟩ := List.getElem?_eq_some_iff.mp at_i
    refine ⟨a.block.insts.drop (t.count j), ?_, fun c function block rest => ?_, rfl, next⟩
    · rw [stands.rest, count.1, List.drop_eq_getElem_cons inside, same, count.2]
    · refine ⟨?_, ?_, ?_, (opens j).mpr stands.opens, works.stock stands.stock⟩
      · rw [function, stands.function]
      · rw [block, stands.here]
      · rw [rest, block]
  · exact absurd phi (plain ty ins)

/-- A running call goes to where lowering stands, and an operand that lowering has from there on is a word. -/
structure Computes (l : Llvm.Module) (out : Outside σ) (blocks : List Llvm.Block) (mem : Memory)
    (s t : State) (a : Activation) (v : Val) (m : Word) (a' : Activation) : Prop
    extends Advances l out blocks mem s t a a' where
  value : a'.operand? v = some m
  born : v.Born (· < t.nextId)

/-- An instruction that comes to a word is written, and run. -/
theorem Stands.emits (stands : Stands blocks s a) {op : Operation} {v : Val} (ran : emit op s = .ok (v, t))
    (plain : ∀ t ins, op ≠ .phi t ins) (final : t.Final l blocks) {m : Word} (type : op.ty = .int m.width)
    (stepped : ∀ rest callers o, a.rest = ⟨s.nextId, op⟩ :: rest → next l out ⟨mem, a, callers, o⟩ =
      some (.step ⟨mem, ({ a with rest }).record s.nextId (some m), callers, o⟩)) :
    ∃ a', Computes l out blocks mem s t a v m a' := by
  obtain ⟨_, _, got, ran⟩ := run_bind.mp ran
  cases got
  obtain ⟨rest, at_rest, after, rfl, next⟩ := StandsAt.emitTo stands plain ran final
  obtain ⟨works, _⟩ := State.Works.emitTo stands.opens plain ran
  refine ⟨({ a with rest }).record s.nextId (some m),
    ⟨⟨?_, ?_, rfl, rfl, ?_⟩, fun callers o => .of_next (stepped rest callers o at_rest)⟩, ?_, ?_⟩
  · rw [Stands, works.current]
    exact after _ rfl rfl rfl
  · rw [next]
    exact Nat.le_succ _
  · intro id old
    show (if id = s.nextId then some m else a.results id) = _
    rw [if_neg (Nat.ne_of_lt old)]
  · rw [type]
    exact Activation.operand?_result _ _ _
  · show s.nextId < t.nextId
    rw [next]
    exact Nat.lt_succ_self _

/-- A result is computed from operands that are there. -/
theorem Stands.emit (out : Outside σ) (mem : Memory) (stands : Stands blocks s a) {op : Operation} {v : Val}
    (ran : emit op s = .ok (v, t)) (final : t.Final l blocks) {m : Word} (value : a.value? op = some m) :
    ∃ a', Computes l out blocks mem s t a v m a' := by
  refine stands.emits ran ?_ final (Activation.ty_of_value? value) fun rest callers o at_rest => ?_
  · rintro t ins rfl
    cases value
  · unfold Llvm.next
    rw [at_rest]
    dsimp only
    split
    · cases value
    · cases value
    · cases value
    · rw [value]
      rfl

/-- What a global holds is loaded. -/
theorem Stands.load (out : Outside σ) (mem : Memory) (stands : Stands blocks s a) {ty : Llvm.Ty} {g : Nat}
    {v : Val} (ran : Lowering.emit (.load ty g) s = .ok (v, t)) (final : t.Final l blocks) {m : Word}
    (there : mem g = some m) (type : ty = .int m.width) :
    ∃ a', Computes l out blocks mem s t a v m a' := by
  refine stands.emits ran (by simp) final type fun rest callers o at_rest => ?_
  unfold Llvm.next
  rw [at_rest]
  simp only [there, Option.bind_eq_bind, Option.bind_some, if_pos type]
  rfl

/-- A block is closed: the call has come to its end. -/
theorem StandsAt.terminate {j : Nat} (stands : StandsAt blocks j s a) {T : Llvm.Term} {u : Unit}
    (ran : terminate j T s = .ok (u, t)) (final : t.Final l blocks) :
    a.rest = [] ∧ a.block.term = some T := by
  obtain ⟨b, there, blank⟩ := stands.opens
  have written : t.blocks[j]? = some { b with term := some T } := by
    cases ran
    show (s.blocks.modify j _)[j]? = _
    rw [Array.getElem?_modify, if_pos rfl, there]
    rfl
  obtain ⟨b', here, becomes⟩ := final.blocks j _ written
  obtain rfl := Option.some.inj (stands.here.symm.trans here)
  obtain ⟨ends, length⟩ := becomes.term T rfl
  refine ⟨?_, ends⟩
  rw [stands.rest, State.count, there]
  exact List.drop_eq_nil_of_le (Nat.le_of_eq length)

theorem find?_name {b : Llvm.Block} (names : (blocks.map (·.name)).Nodup) (member : b ∈ blocks) :
    blocks.find? (·.name == b.name) = some b := by
  induction blocks with
  | nil => cases member
  | cons c blocks ih =>
    rw [List.map_cons, List.nodup_cons] at names
    rcases List.mem_cons.mp member with rfl | member
    · simp
    · have other : c.name ≠ b.name := fun same => names.1 (same ▸ List.mem_map_of_mem member)
      rw [List.find?_cons_of_neg (by simpa using other)]
      exact ih names.2 member

/-- What satisfies a predicate comes first. -/
theorem takeWhile_eq_take {α : Type} {p : α → Bool} {l : List α} {n : Nat}
    (front : ∀ k < n, ∃ a, l[k]? = some a ∧ p a = true)
    (back : ∀ (k : Nat) a, n ≤ k → l[k]? = some a → p a = false) :
    l.takeWhile p = l.take n ∧ l.dropWhile p = l.drop n := by
  induction n generalizing l with
  | zero =>
    cases l with
    | nil => exact ⟨rfl, rfl⟩
    | cons a l => simp [back 0 a (Nat.le_refl _) rfl]
  | succ n ih =>
    cases l with
    | nil =>
      obtain ⟨a, there, _⟩ := front 0 (Nat.succ_pos n)
      cases there
    | cons a l =>
      obtain ⟨b, there, holds⟩ := front 0 (Nat.succ_pos n)
      cases there
      obtain ⟨take, drop⟩ := ih (l := l) (fun k below => front (k + 1) (Nat.succ_lt_succ below))
        fun k b beyond there => back (k + 1) b (Nat.succ_le_succ beyond) there
      simp [holds, take, drop]

section Goto

variable {first : Nat} {ws : List Word} {is : List Llvm.Inst}

theorem mapM_phi? (each : ∀ (k : Nat) x, ws[k]? = some x →
      ∃ i, is[k]? = some i ∧ a.phi? i = some (first + k, x)) :
    (is.take ws.length).mapM a.phi? = some ((ws.zipIdx first).map Prod.swap) := by
  induction ws generalizing is first with
  | nil => rfl
  | cons x ws ih =>
    obtain ⟨i, there, reads⟩ := each 0 x rfl
    cases is with
    | nil => cases there
    | cons j is =>
      cases there
      have others : ∀ (k : Nat) y, ws[k]? = some y →
          ∃ i, is[k]? = some i ∧ a.phi? i = some (first + 1 + k, y) := fun k y at_k => by
        obtain ⟨i, there, reads⟩ := each (k + 1) y at_k
        exact ⟨i, there, by rw [reads, Nat.add_right_comm, Nat.add_assoc]⟩
      rw [List.length_cons, List.take_succ_cons, List.mapM_cons, reads, ih others]
      rfl

theorem lookup_zipIdx (ws : List Word) (first id : Nat) : ((ws.zipIdx first).map Prod.swap).lookup id =
    if first ≤ id then ws[id - first]? else none := by
  induction ws generalizing first with
  | nil => simp
  | cons x ws ih =>
    rw [List.zipIdx_cons, List.map_cons, Prod.swap_prod_mk, List.lookup_cons, ih]
    rcases Nat.lt_trichotomy id first with less | rfl | more
    · rw [beq_false_of_ne (by omega), if_neg (by omega), if_neg (by omega)]
    · simp
    · rw [beq_false_of_ne (by omega), if_pos (by omega), if_pos (by omega),
        show id - first = id - (first + 1) + 1 by omega]
      rfl

/-- Control goes to a block: what its phis give are the results with their numbers. -/
theorem goto_phis (first : Nat) (ws : List Word) {blocks : List Llvm.Block} {b : Llvm.Block}
    (names : (blocks.map (·.name)).Nodup) (function : a.function.blocks = blocks) (member : b ∈ blocks)
    (phis : ∀ (k : Nat) x, ws[k]? = some x →
      ∃ i, b.insts[k]? = some i ∧ i.isPhi = true ∧ a.phi? i = some (first + k, x))
    (plain : ∀ (k : Nat) i, ws.length ≤ k → b.insts[k]? = some i → i.isPhi = false) :
    ∃ results, a.goto? b.name = some { a with block := b, rest := b.insts.drop ws.length, results } ∧
      (∀ (k : Nat) x, ws[k]? = some x → results (first + k) = some x) ∧
      ∀ id, id < first ∨ first + ws.length ≤ id → results id = a.results id := by
  obtain ⟨take, drop⟩ := takeWhile_eq_take (p := Inst.isPhi) (l := b.insts) (n := ws.length)
    (fun k below => by
      obtain ⟨i, there, phi, _⟩ := phis k ws[k] (List.getElem?_eq_getElem below)
      exact ⟨i, there, phi⟩) plain
  have read := mapM_phi? fun k x at_k => by
    obtain ⟨i, there, _, reads⟩ := phis k x at_k
    exact ⟨i, there, reads⟩
  refine ⟨fun id => (((ws.zipIdx first).map Prod.swap).lookup id).or (a.results id), ?_, ?_, ?_⟩
  · unfold Activation.goto?
    rw [function, find?_name names member]
    show (do
      let values ← (b.insts.takeWhile Inst.isPhi).mapM a.phi?
      return { a with
        block := b
        rest := b.insts.dropWhile Inst.isPhi
        results := fun k => (values.lookup k).or (a.results k) } : Option Activation) = _
    rw [take, drop, read]
    rfl
  · intro k x at_k
    dsimp only
    rw [lookup_zipIdx, if_pos (by omega), Nat.add_sub_cancel_left, at_k]
    rfl
  · intro id outside
    dsimp only
    rw [lookup_zipIdx]
    rcases outside with below | above
    · rw [if_neg (by omega)]
      rfl
    · rw [List.getElem?_eq_none (by omega), ite_self]
      rfl

end Goto

theorem next_br {n : BlockName} {callers : List (Nat × Activation)} {o : σ} (empty : a.rest = [])
    (br : a.block.term = some (.br n)) (went : a.goto? n = some a') :
    next l out ⟨mem, a, callers, o⟩ = some (.step ⟨mem, a', callers, o⟩) := by
  simp only [next, empty, br, Option.bind_some, Llvm.State.leave, went]
  rfl

/-- Control goes to a block that was made while lowering went on: it has no phis. -/
theorem goto_new {n : BlockName} (names : (blocks.map (·.name)).Nodup) (adds : State.Adds n s t)
    (final : t.Final l blocks) (function : a.function.blocks = blocks) (stock : t.Stock) :
    ∃ a', a.goto? n = some a' ∧ a'.function = a.function ∧ a'.args = a.args ∧ a'.results = a.results ∧
      StandsAt blocks s.blocks.size t a' := by
  obtain ⟨b, here, becomes⟩ := final.blocks _ _ adds.new
  obtain ⟨results, went, _, kept⟩ := goto_phis 0 [] names function
    (List.mem_of_getElem? here) nofun fun k i _ there => becomes.plain k i (Nat.zero_le k) there
  rw [becomes.name] at went
  refine ⟨_, went, rfl, rfl, funext fun id => kept id (.inr (Nat.zero_le id)), function, here, ?_,
    ⟨_, adds.new, rfl⟩, stock⟩
  rw [State.count, adds.new]
  rfl

/-- A block that ends in the runtime's panic calls it, with the message closed by a zero byte. -/
theorem StandsAt.trap {j : Nat} (stands : StandsAt blocks j s a) {message : String} {u : Unit}
    (ran : trap j message s = .ok (u, t)) (final : t.Final l blocks) (callers : List (Nat × Activation))
    (o : σ) : State.call? l ⟨mem, a, callers, o⟩ =
      some (panicSymbol, [.text (message.toUTF8.toList ++ [0])]) := by
  obtain ⟨callee, s₁, ran₁, ran⟩ := run_bind.mp ran
  obtain ⟨c, s₂, ran₂, ran⟩ := run_bind.mp ran
  obtain ⟨v, s₃, ran₃, ran⟩ := run_bind.mp ran
  obtain ⟨declares, blocks₁, found⟩ := State.Works.declare j (fun _ => ⟨rfl, rfl⟩) ran₁
  obtain ⟨writes, blocks₂, text⟩ := State.Works.textAddress j ran₂
  obtain ⟨f, there, emits⟩ := State.emitCall_ok ran₃
  have same : ∀ {x y : State}, y.blocks = x.blocks → x.Stock → y.Stock → StandsAt blocks j x a →
      StandsAt blocks j y a := by
    intro x y eq _ stock stands
    refine ⟨stands.function, stands.here, ?_, (State.open_of_blocks eq j).mpr stands.opens, stock⟩
    rw [stands.rest, State.count, State.count, eq]
  have stands₂ := same (blocks₂.trans blocks₁) stands.stock
    (writes.stock (declares.stock stands.stock)) stands
  obtain ⟨works, opens, _⟩ := State.Works.emitTo stands₂.opens (by simp) emits
  obtain ⟨closes, _⟩ := State.Works.terminate ((opens j).mpr stands₂.opens) ran
  have final₃ := final.extends closes.toExtends
  have final₂ := final₃.extends works.toExtends
  obtain ⟨rest, at_rest, _⟩ := stands₂.emitTo (by simp) emits final₃
  -- what is called is the runtime's function, and the argument is the text
  obtain ⟨f', there', _, _, _, unchanged⟩ := writes.functions callee _ (found rfl stands.stock)
  obtain rfl := Option.some.inj (there'.symm.trans there)
  obtain rfl := unchanged rfl
  obtain ⟨g, at_callee, _, panics⟩ := final₂.functions callee _ there
  obtain rfl := panics rfl
  obtain ⟨k, name, rfl, global⟩ := text (declares.stock stands.stock)
  have address := final₂.globals k _ global
  have passed : a.arg? l (.const (.textAddress k (message.toUTF8.toList ++ [0]).length)) =
      some (.text (message.toUTF8.toList ++ [0])) := by
    simp only [Activation.arg?, address, if_true]
  unfold State.call?
  simp only [at_rest, List.mapM_cons, List.mapM_nil, passed, at_callee]
  rfl

/-- A running call comes to call the runtime's panic with what evaluation says of a cause. -/
def Stops (l : Llvm.Module) (out : Outside σ) (mem : Memory) (a : Activation) (c : Eval.Cause) : Prop :=
  ∀ callers o, ∃ a', Leads l out (.step ⟨mem, a, callers, o⟩) (.step ⟨mem, a', callers, o⟩) ∧
    State.call? l ⟨mem, a', callers, o⟩ = some (panicSymbol, [.text (c.detail.toUTF8.toList ++ [0])])

theorem Advances.stops {c : Eval.Cause} (advances : Advances l out blocks mem s t a a')
    (stops : Stops l out mem a' c) : Stops l out mem a c := by
  intro callers o
  obtain ⟨b, leads, calls⟩ := stops callers o
  exact ⟨b, (advances.leads callers o).trans leads, calls⟩

/-- A check sends control to the panic, or to where lowering goes on. -/
theorem Stands.checks (out : Outside σ) (mem : Memory) (names : (blocks.map (·.name)).Nodup)
    (stands : Stands blocks s a) {isZero : Val}
    {c : Eval.Cause} (checks : Checks isZero c.detail s t) (final : t.Final l blocks) {zero : Bool}
    (there : a.operand? isZero = some (.ofBool zero)) :
    if zero then Stops l out mem a c else ∃ a', Advances l out blocks mem s t a a' := by
  obtain ⟨trapName, restName, s₁, s₂, s₃, s₄, adds, adds', closed, trapped, rfl⟩ := checks.parts
  have inside : s.current < s.blocks.size := by
    obtain ⟨b, at_current, _⟩ := stands.opens
    exact (Array.getElem?_eq_some_iff.mp at_current).1
  have size := adds.size
  have opens₂ : s₂.Open s.current := (adds'.opens _).mpr (.inl ((adds.opens _).mpr (.inl stands.opens)))
  obtain ⟨closes, opens⟩ := State.Works.terminate opens₂ closed
  have opens₃ : s₃.Open s.blocks.size :=
    (opens _).mpr ⟨(adds'.opens _).mpr (.inl ((adds.opens _).mpr (.inr rfl))), by omega⟩
  obtain ⟨traps, _⟩ := State.Works.trap opens₃ trapped
  have final₄ : s₄.Final l blocks := ⟨final.blocks, final.functions, final.globals⟩
  have final₃ := final₄.extends traps.toExtends
  have final₂ := final₃.extends closes.toExtends
  have final₁ := final₂.extends adds'.toExtends
  have stock₁ := adds.stock stands.stock
  have stock₂ := adds'.stock stock₁
  have stock₃ := closes.stock stock₂
  -- the call has come to the end of its block
  have stands₂ : StandsAt blocks s.current s₂ a := by
    refine ⟨stands.function, stands.here, ?_, opens₂, stock₂⟩
    rw [stands.rest, State.count, State.count, adds'.kept _ (by omega), adds.kept _ inside]
  obtain ⟨none, ends⟩ := stands₂.terminate closed final₃
  have goes : ∀ callers o, next l out ⟨mem, a, callers, o⟩ =
      ((a.goto? (if zero then trapName else restName)).map fun b => .step ⟨mem, b, callers, o⟩ :
        Option (Next σ)) := by
    intro callers o
    simp only [next, none, ends, Option.bind_some, State.leave, there, Option.bind_eq_bind,
      Option.pure_def, Activation.truth?_ofBool]
    cases a.goto? (if zero then trapName else restName) <;> rfl
  cases zero with
  | true =>
    obtain ⟨a', went, _, _, _, stands'⟩ := goto_new names adds final₁ stands.function stock₁
    intro callers o
    refine ⟨a', .of_next ?_, ?_⟩
    · rw [goes, if_pos rfl, went]
      rfl
    · have stands₃ : StandsAt blocks s.blocks.size s₃ a' := by
        refine ⟨stands'.function, stands'.here, ?_, opens₃, stock₃⟩
        rw [stands'.rest, State.count, State.count, closes.others _ (by omega), adds'.kept _ (by omega)]
      exact stands₃.trap trapped final₄ callers o
  | false =>
    obtain ⟨a', went, function, args, results, stands'⟩ :=
      goto_new names adds' final₂ stands.function stock₂
    have same : s₄.blocks[s₁.blocks.size]? = s₂.blocks[s₁.blocks.size]? := by
      rw [traps.others _ (by omega), closes.others _ (by omega)]
    refine ⟨a', ⟨?_, ?_, function, args, fun id _ => by rw [results]⟩, fun callers o => .of_next ?_⟩
    · refine ⟨stands'.function, stands'.here, ?_, ?_, ?_⟩
      · show a'.rest = a'.block.insts.drop (s₄.count s₁.blocks.size)
        rw [stands'.rest, State.count, State.count, same]
      · obtain ⟨b, there', blank⟩ := stands'.opens
        exact ⟨b, same.trans there', blank⟩
      · have stock₄ := traps.stock stock₃
        exact ⟨stock₄.panic, stock₄.texts⟩
    · exact Nat.le_trans adds.nextId (Nat.le_trans adds'.nextId (Nat.le_trans closes.nextId traps.nextId))
    · rw [goes, if_neg Bool.false_ne_true, went]
      rfl

end

end TieredEngine.Ship.Lowering
