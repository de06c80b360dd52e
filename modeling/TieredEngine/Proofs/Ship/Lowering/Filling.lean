import TieredEngine.Llvm.Machine
import TieredEngine.Proofs.Ship.Lowering.Tables

/-!
What stays while blocks are filled. Instructions are only added at the end of a block, and none once it has
its terminator; functions keep their places and headers, globals all they have; and lowering an instruction
changes the value of its destination alone. What it puts there is a constant, a parameter, the value of an
operand, or the result of an instruction that was written on the way.
-/
namespace TieredEngine.Llvm

/-- A phi may get other inputs; nothing else of an instruction changes. -/
def Inst.Becomes (i i' : Inst) : Prop :=
  i'.id = i.id ∧ (i'.op = i.op ∨ ∃ t ins ins', i.op = .phi t ins ∧ i'.op = .phi t ins')

/-- Instructions that are no phis may come at the end of a block, as long as it has no terminator. -/
structure Block.Becomes (b b' : Block) : Prop where
  name : b'.name = b.name
  insts : ∀ (k : Nat) i, b.insts[k]? = some i → ∃ i', b'.insts[k]? = some i' ∧ i.Becomes i'
  plain : ∀ (k : Nat) i', b.insts.length ≤ k → b'.insts[k]? = some i' → i'.isPhi = false
  term : ∀ T, b.term = some T → b'.term = some T ∧ b'.insts.length = b.insts.length

/-- The number of a result has a property. -/
def Val.Born (P : Nat → Prop) : Val → Prop
  | .result id _ => P id
  | _ => True

theorem Inst.Becomes.refl (i : Inst) : i.Becomes i := ⟨rfl, .inl rfl⟩

theorem Inst.Becomes.trans {i i' i'' : Inst} (first : i.Becomes i') (second : i'.Becomes i'') :
    i.Becomes i'' := by
  refine ⟨second.1.trans first.1, ?_⟩
  rcases first.2 with same | ⟨t, ins, ins', phi, phi'⟩
  · rw [← same]
    exact second.2
  · rcases second.2 with same | ⟨t', _, ins'', phi'', phi'''⟩
    · exact .inr ⟨t, ins, ins', phi, same.trans phi'⟩
    · obtain ⟨rfl, _⟩ := Operation.phi.inj (phi'.symm.trans phi'')
      exact .inr ⟨t, ins, ins'', phi, phi'''⟩

theorem Inst.Becomes.isPhi {i i' : Inst} (becomes : i.Becomes i') : i'.isPhi = i.isPhi := by
  unfold Inst.isPhi
  rcases becomes.2 with same | ⟨t, ins, ins', phi, phi'⟩
  · rw [same]
  · rw [phi, phi']

namespace Block.Becomes

variable {b b' b'' : Block}

theorem refl (b : Block) : b.Becomes b where
  name := rfl
  insts _ i there := ⟨i, there, .refl i⟩
  plain _ _ beyond there := by
    rw [List.getElem?_eq_none beyond] at there
    cases there
  term _ ends := ⟨ends, rfl⟩

theorem length_le (becomes : b.Becomes b') : b.insts.length ≤ b'.insts.length := by
  by_contra shorter
  have inside : b'.insts.length < b.insts.length := by omega
  obtain ⟨_, there, _⟩ := becomes.insts _ _ (List.getElem?_eq_getElem inside)
  rw [List.getElem?_eq_none (Nat.le_refl _)] at there
  cases there

theorem trans (first : b.Becomes b') (second : b'.Becomes b'') : b.Becomes b'' where
  name := second.name.trans first.name
  insts k i there := by
    obtain ⟨i', there', becomes⟩ := first.insts k i there
    obtain ⟨i'', there'', becomes'⟩ := second.insts k i' there'
    exact ⟨i'', there'', becomes.trans becomes'⟩
  plain k i'' beyond there := by
    by_cases inside : k < b'.insts.length
    · obtain ⟨i', there', becomes⟩ := second.insts k _ (List.getElem?_eq_getElem inside)
      cases there.symm.trans there'
      exact becomes.isPhi.trans (first.plain k _ beyond (List.getElem?_eq_getElem inside))
    · exact second.plain k i'' (by omega) there
  term T ends := by
    obtain ⟨ends', length⟩ := first.term T ends
    obtain ⟨ends'', length'⟩ := second.term T ends'
    exact ⟨ends'', length'.trans length⟩

/-- An instruction is added to a block that has no terminator. -/
theorem append (blank : b.term = none) {i : Inst} (plain : ∀ t ins, i.op ≠ .phi t ins) :
    b.Becomes { b with insts := b.insts ++ [i] } where
  name := rfl
  insts k j there := by
    refine ⟨j, ?_, .refl j⟩
    rw [List.getElem?_append_left (List.getElem?_eq_some_iff.mp there).1]
    exact there
  plain k j beyond there := by
    dsimp only at there
    rw [List.getElem?_append_right beyond] at there
    obtain rfl := List.mem_singleton.mp (List.mem_of_getElem? there)
    unfold Inst.isPhi
    split
    · next phi => exact absurd phi (plain _ _)
    · rfl
  term T ends := by
    cases blank.symm.trans ends

theorem close (blank : b.term = none) (T : Term) : b.Becomes { b with term := some T } where
  name := rfl
  insts _ i there := ⟨i, there, .refl i⟩
  plain _ _ beyond there := by
    dsimp only at there
    rw [List.getElem?_eq_none beyond] at there
    cases there
  term _ ends := by
    cases blank.symm.trans ends

end Block.Becomes

theorem Val.born_true (x : Val) : x.Born fun _ => True := by
  cases x <;> trivial

theorem Val.Born.mono {P Q : Nat → Prop} {x : Val} (born : x.Born P) (more : ∀ id, P id → Q id) :
    x.Born Q := by
  cases x with
  | result id t => exact more id born
  | const | param => trivial

end TieredEngine.Llvm

namespace TieredEngine.Ship.Lowering
open TieredEngine TieredEngine.Llvm

/-- The runtime's function that panics end in, as it is declared. -/
def panicFunction : Llvm.Func :=
  { name := panicSymbol, ret := .void, params := [.text], namedParams := false }

namespace State

/-- What is found for panics: the function of the runtime, and the texts of their messages. -/
structure Stock (s : State) : Prop where
  panic : ∀ n k, s.declared.find? (·.1 == panicSymbol) = some (n, k) →
    s.functions[k]? = some panicFunction
  texts : ∀ text n g, s.texts.find? (·.1 == text) = some (n, g) →
    ∃ name, s.globals[g]? = some ⟨name, .text (text.toUTF8.toList ++ [0])⟩

/-- Functions keep their places and headers, globals all they have, and only texts are added to these. Nothing
is added to the runtime's function. -/
structure Heads (s t : State) : Prop where
  functions : ∀ (k : Nat) g, s.functions[k]? = some g → ∃ g', t.functions[k]? = some g' ∧
    g'.name = g.name ∧ g'.ret = g.ret ∧ g'.params = g.params ∧ (g.name = panicSymbol → g' = g)
  globals : ∀ (k : Nat) g, s.globals[k]? = some g → t.globals[k]? = some g
  texts : ∀ (k : Nat) g, t.globals[k]? = some g → s.globals[k]? = some g ∨ ∃ bytes, g.init = .text bytes

/-- Blocks are written to only while they have no terminator. -/
structure Extends (s t : State) : Prop extends s.Heads t where
  blocks : ∀ (j : Nat) b, s.blocks[j]? = some b → ∃ b', t.blocks[j]? = some b' ∧ b.Becomes b'
  nextId : s.nextId ≤ t.nextId
  stock : s.Stock → t.Stock

/-- Only one block is written to. -/
structure Works (j : Nat) (s t : State) : Prop extends s.Extends t where
  others : ∀ k ≠ j, t.blocks[k]? = s.blocks[k]?
  size : t.blocks.size = s.blocks.size
  values : t.values = s.values
  current : t.current = s.current

/-- Lowering goes on in the block that was written to or in one that is made for it; the other blocks are
left alone. -/
structure Continues (s t : State) : Prop extends s.Extends t where
  opens : t.Open t.current
  current : t.current = s.current ∨ s.blocks.size ≤ t.current
  others : ∀ j < s.blocks.size, j ≠ s.current → t.blocks[j]? = s.blocks[j]?

variable {s t u : State}

theorem Heads.refl (s : State) : s.Heads s :=
  ⟨fun _ g there => ⟨g, there, rfl, rfl, rfl, fun _ => rfl⟩, fun _ _ there => there,
    fun _ _ there => .inl there⟩

theorem Heads.trans (first : s.Heads t) (second : t.Heads u) : s.Heads u where
  functions k g there := by
    obtain ⟨g', there', name, ret, params, same⟩ := first.functions k g there
    obtain ⟨g'', there'', name', ret', params', same'⟩ := second.functions k g' there'
    refine ⟨g'', there'', name'.trans name, ret'.trans ret, params'.trans params, fun panics => ?_⟩
    exact (same' (name.trans panics)).trans (same panics)
  globals k g there := second.globals k g (first.globals k g there)
  texts k g there := (second.texts k g there).elim (first.texts k g) .inr

theorem Heads.of_grows (grows : s.Grows t)
    (globals : ∀ (k : Nat) g, s.globals[k]? = some g → t.globals[k]? = some g)
    (texts : ∀ (k : Nat) g, t.globals[k]? = some g → s.globals[k]? = some g ∨ ∃ bytes, g.init = .text bytes) :
    s.Heads t := by
  refine ⟨fun k g there => ⟨g, ?_, rfl, rfl, rfl, fun _ => rfl⟩, globals, texts⟩
  exact (grows.kept k (Array.getElem?_eq_some_iff.mp there).1).trans there

theorem Heads.of_tables (functions : t.functions = s.functions) (globals : t.globals = s.globals) :
    s.Heads t :=
  .of_grows (.of_functions functions) (fun _ _ there => globals ▸ there)
    fun _ _ there => .inl (globals ▸ there)

theorem Extends.refl (s : State) : s.Extends s where
  toHeads := .refl s
  blocks _ b there := ⟨b, there, .refl b⟩
  nextId := Nat.le_refl _
  stock := id

theorem Extends.trans (first : s.Extends t) (second : t.Extends u) : s.Extends u where
  toHeads := first.toHeads.trans second.toHeads
  blocks j b there := by
    obtain ⟨b', there', becomes⟩ := first.blocks j b there
    obtain ⟨b'', there'', becomes'⟩ := second.blocks j b' there'
    exact ⟨b'', there'', becomes.trans becomes'⟩
  nextId := Nat.le_trans first.nextId second.nextId
  stock := second.stock ∘ first.stock

theorem Extends.size_le (ext : s.Extends t) : s.blocks.size ≤ t.blocks.size := by
  by_contra fewer
  have inside : t.blocks.size < s.blocks.size := by omega
  obtain ⟨_, there, _⟩ := ext.blocks _ _ (Array.getElem?_eq_getElem inside)
  exact absurd (Array.getElem?_eq_some_iff.mp there).1 (Nat.lt_irrefl _)

theorem Works.trans {j : Nat} (first : Works j s t) (second : Works j t u) : Works j s u where
  toExtends := first.toExtends.trans second.toExtends
  others k other := (second.others k other).trans (first.others k other)
  size := second.size.trans first.size
  values := second.values.trans first.values
  current := second.current.trans first.current

theorem Continues.refl (opens : s.Open s.current) : s.Continues s where
  toExtends := .refl s
  opens := opens
  current := .inl rfl
  others _ _ _ := rfl

theorem Continues.trans (first : s.Continues t) (second : t.Continues u) : s.Continues u where
  toExtends := first.toExtends.trans second.toExtends
  opens := second.opens
  current := by
    have grows := first.size_le
    rcases second.current with same | beyond
    · rw [same]
      exact first.current
    · exact .inr (by omega)
  others j inside other := by
    have grows := first.size_le
    rw [second.others j (by omega), first.others j inside other]
    rcases first.current with same | beyond
    · rw [same]
      exact other
    · omega

/-- Work on the current block that leaves it open. -/
theorem Works.continues (works : Works s.current s t) (opens : t.Open s.current) : s.Continues t where
  toExtends := works.toExtends
  opens := works.current.symm ▸ opens
  current := .inl works.current
  others _ _ other := works.others _ other

/-- An instruction is written to a block. -/
theorem Works.emitTo {j : Nat} (blank : s.Open j) {op : Operation} (plain : ∀ t ins, op ≠ .phi t ins)
    {v : Val} (ran : emitTo j op s = .ok (v, t)) :
    Works j s t ∧ (∀ k, t.Open k ↔ s.Open k) ∧ v = .result s.nextId op.ty ∧
      t.nextId = s.nextId + 1 := by
  have framed := State.Framed.of_modify (s := s) (j := j)
    (g := fun b => { b with insts := b.insts ++ [⟨s.nextId, op⟩] })
    (t := { s with
      nextId := s.nextId + 1
      blocks := s.blocks.modify j fun b => { b with insts := b.insts ++ [⟨s.nextId, op⟩] } })
    rfl (fun _ => rfl) (fun _ => rfl) (.of_functions rfl)
  cases ran
  obtain ⟨b, there, ends⟩ := blank
  have written : (s.blocks.modify j fun b => { b with insts := b.insts ++ [⟨s.nextId, op⟩] })[j]? =
      some { b with insts := b.insts ++ [⟨s.nextId, op⟩] } := by
    rw [Array.getElem?_modify, if_pos rfl, there]
    rfl
  refine ⟨⟨⟨.of_tables rfl rfl, fun k c at_k => ?_, Nat.le_succ _, fun stock => ⟨stock.panic, stock.texts⟩⟩,
    fun k other => ?_, Array.size_modify, rfl, rfl⟩, framed.opens, rfl, rfl⟩
  · by_cases same : k = j
    · subst same
      cases there.symm.trans at_k
      exact ⟨_, written, .append ends plain⟩
    · refine ⟨c, ?_, .refl c⟩
      rw [Array.getElem?_modify, if_neg (Ne.symm same)]
      exact at_k
  · rw [Array.getElem?_modify, if_neg (Ne.symm other)]

/-- A block gets its terminator. -/
theorem Works.terminate {j : Nat} (blank : s.Open j) {T : Llvm.Term} {u : Unit}
    (ran : terminate j T s = .ok (u, t)) : Works j s t ∧ ∀ k, t.Open k ↔ s.Open k ∧ k ≠ j := by
  have closes := State.Closes.of_modify blank (T := T)
    (t := { s with blocks := s.blocks.modify j fun b => { b with term := some T } }) rfl
    (.of_functions rfl)
  cases ran
  obtain ⟨b, there, ends⟩ := blank
  refine ⟨⟨⟨.of_tables rfl rfl, fun k c at_k => ?_, Nat.le_refl _, fun stock => ⟨stock.panic, stock.texts⟩⟩,
    fun k other => ?_, Array.size_modify, rfl, rfl⟩, closes.opens⟩
  · rw [Array.getElem?_modify]
    by_cases same : k = j
    · subst same
      cases there.symm.trans at_k
      rw [if_pos rfl, there]
      exact ⟨_, rfl, .close ends T⟩
    · rw [if_neg (Ne.symm same)]
      exact ⟨c, at_k, .refl c⟩
  · rw [Array.getElem?_modify, if_neg (Ne.symm other)]

/-- Work on the tables alone. -/
theorem Works.of_tables (j : Nat) (heads : s.Heads t) (stock : s.Stock → t.Stock)
    (blocks : t.blocks = s.blocks) (nextId : t.nextId = s.nextId) (values : t.values = s.values)
    (current : t.current = s.current) : Works j s t where
  toHeads := heads
  blocks j b there := ⟨b, blocks ▸ there, .refl b⟩
  nextId := Nat.le_of_eq nextId.symm
  stock := stock
  others k _ := by rw [blocks]
  size := by rw [blocks]
  values := values
  current := current

/-- A function of the runtime is found or declared. -/
theorem Works.declare (j : Nat) {name : String} {ret param : Llvm.Ty}
    (honest : name = panicSymbol → ret = .void ∧ param = .text) {i : Nat}
    (ran : declare name ret param s = .ok (i, t)) : Works j s t ∧ t.blocks = s.blocks ∧
      (name = panicSymbol → s.Stock → t.functions[i]? = some panicFunction) := by
  obtain ⟨_, _, got, ran⟩ := run_bind.mp ran
  cases got
  cases known : s.declared.find? (·.1 == name) with
  | some p =>
    rw [known] at ran
    obtain ⟨rfl, rfl⟩ := run_pure.mp ran
    refine ⟨.of_tables j (.refl _) id rfl rfl rfl rfl, rfl, ?_⟩
    rintro rfl stock
    exact stock.panic _ _ known
  | none =>
    rw [known] at ran
    cases ran
    have new : ∀ g : Llvm.Func, (s.functions.push g)[s.functions.size]? = some g := by simp
    refine ⟨.of_tables j (.of_grows (.of_push rfl) (fun _ _ there => there) fun _ _ there => .inl there)
      (fun stock => ⟨?_, stock.texts⟩)
      rfl rfl rfl rfl, rfl, ?_⟩
    · intro n k found
      dsimp only at found ⊢
      rw [List.find?_cons] at found
      split at found
      · next same =>
        obtain ⟨rfl, rfl⟩ := honest (by simpa using same)
        cases found
        rw [new, show name = panicSymbol by simpa using same]
        rfl
      · have there := stock.panic n k found
        rw [Array.getElem?_push, if_neg (Nat.ne_of_lt (Array.getElem?_eq_some_iff.mp there).1)]
        exact there
    · rintro rfl _
      obtain ⟨rfl, rfl⟩ := honest rfl
      exact new _

/-- A text is found or added. -/
theorem Works.textAddress (j : Nat) {text : String} {c : Llvm.Const}
    (ran : textAddress text s = .ok (c, t)) : Works j s t ∧ t.blocks = s.blocks ∧
      (s.Stock → ∃ g name, c = .textAddress g (text.toUTF8.toList ++ [0]).length ∧
        t.globals[g]? = some ⟨name, .text (text.toUTF8.toList ++ [0])⟩) := by
  obtain ⟨_, _, got, ran⟩ := run_bind.mp ran
  cases got
  cases known : s.texts.find? (·.1 == text) with
  | some p =>
    rw [known] at ran
    obtain ⟨rfl, rfl⟩ := run_pure.mp ran
    refine ⟨.of_tables j (.refl _) id rfl rfl rfl rfl, rfl, fun stock => ?_⟩
    obtain ⟨name, there⟩ := stock.texts _ _ _ known
    exact ⟨_, name, rfl, there⟩
  | none =>
    rw [known] at ran
    cases ran
    have new : ∀ g : Llvm.Global, (s.globals.push g)[s.globals.size]? = some g := by simp
    have kept : ∀ (g : Llvm.Global) (k : Nat) h, s.globals[k]? = some h →
        (s.globals.push g)[k]? = some h := by
      intro g k h there
      rw [Array.getElem?_push, if_neg (Nat.ne_of_lt (Array.getElem?_eq_some_iff.mp there).1)]
      exact there
    have texts : ∀ (name : String) (bytes : List UInt8) (k : Nat) h,
        (s.globals.push ⟨name, .text bytes⟩)[k]? = some h →
          s.globals[k]? = some h ∨ ∃ bytes, h.init = .text bytes := by
      intro name bytes k h there
      rw [Array.getElem?_push] at there
      split at there
      · exact .inr ⟨bytes, by rw [← Option.some.inj there]⟩
      · exact .inl there
    refine ⟨.of_tables j (.of_grows (.of_functions rfl) (kept _) (texts _ _)) (fun stock => ⟨stock.panic, ?_⟩)
      rfl rfl rfl rfl, rfl, fun _ => ⟨_, _, rfl, new _⟩⟩
    intro other n g found
    dsimp only at found
    rw [List.find?_cons] at found
    split at found
    · next same =>
      cases found
      obtain rfl : text = other := by simpa using same
      exact ⟨_, new _⟩
    · obtain ⟨name, there⟩ := stock.texts other n g found
      exact ⟨name, kept _ g _ there⟩

theorem open_of_blocks (blocks : t.blocks = s.blocks) (j : Nat) : t.Open j ↔ s.Open j := by
  unfold Open
  rw [blocks]

theorem emitCall_ok {j callee : Nat} {args : List Val} {v : Val}
    (ran : emitCall j callee args s = .ok (v, t)) : ∃ f, s.functions[callee]? = some f ∧
      Lowering.emitTo j (.call callee f.ret args) s = .ok (v, t) := by
  obtain ⟨_, _, got, ran⟩ := run_bind.mp ran
  cases got
  cases known : s.functions[callee]? with
  | none =>
    rw [known] at ran
    cases ran
  | some f =>
    rw [known] at ran
    exact ⟨f, rfl, ran⟩

/-- A block ends in the runtime's panic. -/
theorem Works.trap {j : Nat} (blank : s.Open j) {message : String} {u : Unit}
    (ran : trap j message s = .ok (u, t)) : Works j s t ∧ ∀ k, t.Open k ↔ s.Open k ∧ k ≠ j := by
  obtain ⟨callee, s₁, ran₁, ran⟩ := run_bind.mp ran
  obtain ⟨text, s₂, ran₂, ran⟩ := run_bind.mp ran
  obtain ⟨v, s₃, ran₃, ran⟩ := run_bind.mp ran
  obtain ⟨declares, blocks₁, _⟩ := Works.declare j (fun _ => ⟨rfl, rfl⟩) ran₁
  obtain ⟨writes, blocks₂, _⟩ := Works.textAddress j ran₂
  obtain ⟨f, _, emits⟩ := emitCall_ok ran₃
  have same := open_of_blocks (blocks₂.trans blocks₁)
  obtain ⟨calls, same', _⟩ := Works.emitTo ((same j).mpr blank) (by simp) emits
  obtain ⟨closes, opens⟩ := Works.terminate ((same' j).mpr ((same j).mpr blank)) ran
  refine ⟨((declares.trans writes).trans calls).trans closes, fun k => ?_⟩
  rw [opens, same', same]

/-- A block is made. -/
structure Adds (n : BlockName) (s t : State) : Prop extends s.Extends t where
  kept : ∀ j < s.blocks.size, t.blocks[j]? = s.blocks[j]?
  new : t.blocks[s.blocks.size]? = some { name := n }
  size : t.blocks.size = s.blocks.size + 1
  opens : ∀ j, t.Open j ↔ s.Open j ∨ j = s.blocks.size
  values : t.values = s.values
  current : t.current = s.current

theorem Adds.newBlock {name : BlockName} {n : Nat} (ran : newBlock name s = .ok (n, t)) :
    Adds name s t ∧ n = s.blocks.size := by
  have begins := Begins.of_push (s := s) (n := name)
    (t := { s with blocks := s.blocks.push { name } }) rfl (.of_functions rfl)
  cases ran
  have kept : ∀ j < s.blocks.size, (s.blocks.push { name })[j]? = s.blocks[j]? := by
    intro j inside
    rw [Array.getElem?_push, if_neg (Nat.ne_of_lt inside)]
  refine ⟨⟨⟨.of_tables rfl rfl, fun j b there => ⟨b, ?_, .refl b⟩, Nat.le_refl _,
    fun stock => ⟨stock.panic, stock.texts⟩⟩, kept, by simp, Array.size_push _, begins.opens, rfl, rfl⟩, rfl⟩
  rw [kept j (Array.getElem?_eq_some_iff.mp there).1]
  exact there

theorem Adds.newAux {kind : String} {n : Nat} {name : BlockName}
    (ran : newAux kind s = .ok ((n, name), t)) : Adds name s t ∧ n = s.blocks.size := by
  obtain ⟨_, s₁, counted, ran⟩ := run_bind.mp ran
  cases counted
  obtain ⟨_, _, got, ran⟩ := run_bind.mp ran
  cases got
  obtain ⟨_, _, made, last⟩ := run_bind.mp ran
  obtain ⟨same, rfl⟩ := run_pure.mp last
  cases same
  obtain ⟨added, at_n⟩ := Adds.newBlock made
  have counts : s.Extends { s with aux := s.aux + 1 } :=
    (Works.of_tables (s := s) (t := { s with aux := s.aux + 1 }) 0 (.of_tables rfl rfl)
      (fun stock => ⟨stock.panic, stock.texts⟩) rfl rfl rfl rfl).toExtends
  exact ⟨{ added with toExtends := counts.trans added.toExtends }, at_n⟩

/-- Lowering goes on, and no register has changed. -/
structure Carries (s t : State) : Prop extends s.Continues t where
  values : t.values = s.values

theorem Carries.refl (blank : s.Open s.current) : s.Carries s := ⟨.refl blank, rfl⟩

theorem Carries.works (carries : s.Carries t) (works : Works t.current t u)
    (blank : u.Open t.current) : s.Carries u :=
  ⟨carries.toContinues.trans (works.continues blank), works.values.trans carries.values⟩

/-- A register gets a value; the register that stands for none does not. -/
structure Defines (r : Ir.Reg) (v : Val) (s t : State) : Prop where
  same : t = { s with values := t.values }
  size : t.values.size = s.values.size
  dest : r ≠ .absent → r.num < s.values.size → t.values[r.num]? = some (some v)
  kept : ∀ q : Ir.Reg, q ≠ r ∨ r = .absent → t.values[q.num]? = s.values[q.num]?
  only : ∀ (k : Nat) x, t.values[k]? = some (some x) → s.values[k]? = some (some x) ∨ x = v

theorem Defines.of_define {r : Ir.Reg} {v : Val} {u : Unit} (ran : define r v s = .ok (u, t)) :
    Defines r v s t := by
  unfold define at ran
  split at ran
  · next none =>
    obtain ⟨_, rfl⟩ := run_pure.mp ran
    exact ⟨rfl, rfl, fun present => absurd none present, fun _ _ => rfl, fun _ _ there => .inl there⟩
  · next present =>
    cases ran
    refine ⟨rfl, Array.size_setIfInBounds, fun _ inside => ?_, fun q other => ?_, fun k x there => ?_⟩
    · exact Array.getElem?_setIfInBounds_self_of_lt inside
    · have apart := other.resolve_right present
      exact Array.getElem?_setIfInBounds_ne fun same => apart (Ir.Reg.num_inj.mp same.symm)
    · dsimp only at there
      rw [Array.getElem?_setIfInBounds] at there
      split at there
      · split at there
        · cases there
          exact .inr rfl
        · cases there
      · exact .inl there

/-- From a state a value was made: its number is one of some, or of an instruction written since. -/
structure Made (s : State) (P : Nat → Prop) (v : Val) (t : State) : Prop extends s.Carries t where
  born : v.Born fun id => P id ∨ s.nextId ≤ id ∧ id < t.nextId

end State

/-- A computation makes a value on the way. -/
def Makes (s : State) (P : Nat → Prop) (x : Lower Val) : Prop :=
  Ends (fun _ => True) s.Carries x (s.Made P)

/-- What a quotient or remainder is computed with once the divisor is known not to be zero. -/
def quotient (op : Ir.Op) (t : Ir.Ty) (x y : Val) : Lower Val := do
  let isDiv := op == .div
  if !t.isSigned then
    return ← emit (.binary (if isDiv then .udiv else .urem) x y)
  let isMinusOne ← icmp .eq y (onesOf t)
  let safe ← emit (.select isMinusOne (oneOf t) y)
  if isDiv then
    let q ← emit (.binary .sdiv x safe)
    let negated ← emit (.binary .sub (zeroOf t) x)
    emit (.select isMinusOne negated q)
  else
    let r ← emit (.binary .srem x safe)
    emit (.select isMinusOne (zeroOf t) r)

/-- A block ends in a check: to one that is made for a panic, or to one that is made for the rest. -/
structure Checks (isZero : Val) (message : String) (s t : State) : Prop where
  parts : ∃ trapName restName s₁ s₂ s₃ s₄, State.Adds trapName s s₁ ∧ State.Adds restName s₁ s₂ ∧
    terminate s.current (.condBr isZero trapName restName) s₂ = .ok ((), s₃) ∧
    trap s.blocks.size message s₃ = .ok ((), s₄) ∧ t = { s₄ with current := s₁.blocks.size }

theorem divide_ok {op : Ir.Op} {ty : Ir.Ty} {x y v : Val} {s u : State}
    (ran : divide op ty x y s = .ok (v, u)) : ∃ isZero s₁ s₂,
      icmp .eq y (zeroOf ty) s = .ok (isZero, s₁) ∧ Checks isZero s!"{op.name} {ty.name} by zero" s₁ s₂ ∧
      quotient op ty x y s₂ = .ok (v, u) := by
  obtain ⟨isZero, s₁, compared, ran⟩ := run_bind.mp ran
  obtain ⟨_, _, got, ran⟩ := run_bind.mp ran
  cases got
  obtain ⟨⟨trapBlock, trapName⟩, s₂, made, ran⟩ := run_bind.mp ran
  obtain ⟨⟨restBlock, restName⟩, s₃, made', ran⟩ := run_bind.mp ran
  obtain ⟨_, s₄, closed, ran⟩ := run_bind.mp ran
  obtain ⟨_, s₅, trapped, ran⟩ := run_bind.mp ran
  obtain ⟨_, _, moved, computed⟩ := run_bind.mp ran
  cases moved
  obtain ⟨adds, at_trap⟩ := State.Adds.newAux made
  obtain ⟨adds', at_rest⟩ := State.Adds.newAux made'
  subst at_trap at_rest
  exact ⟨isZero, s₁, _, compared, ⟨_, _, s₂, s₃, s₄, s₅, adds, adds', closed, trapped, rfl⟩, computed⟩

theorem Checks.continues {isZero : Val} {message : String} {s t : State}
    (checks : Checks isZero message s t) (blank : s.Open s.current) :
    s.Continues t ∧ t.values = s.values := by
  obtain ⟨trapName, restName, s₁, s₂, s₃, s₄, adds, adds', closed, trapped, rfl⟩ := checks.parts
  have inside : s.current < s.blocks.size := by
    obtain ⟨b, there, _⟩ := blank
    exact (Array.getElem?_eq_some_iff.mp there).1
  have size := adds.size
  obtain ⟨closes, opens⟩ := State.Works.terminate
    ((adds'.opens _).mpr (.inl ((adds.opens _).mpr (.inl blank)))) closed
  obtain ⟨traps, opens'⟩ := State.Works.trap ((opens _).mpr
    ⟨(adds'.opens _).mpr (.inl ((adds.opens _).mpr (.inr rfl))), by omega⟩) trapped
  have ext := ((adds.toExtends.trans adds'.toExtends).trans closes.toExtends).trans traps.toExtends
  refine ⟨⟨⟨⟨ext.functions, ext.globals, ext.texts⟩, ext.blocks, ext.nextId, fun stock => ?_⟩, ?_,
    .inr ?_, ?_⟩, traps.values.trans (closes.values.trans (adds'.values.trans adds.values))⟩
  · exact ⟨(ext.stock stock).panic, (ext.stock stock).texts⟩
  · have rest : s₁.blocks.size ≠ s.current ∧ s₁.blocks.size ≠ s.blocks.size := by omega
    exact (opens' _).mpr ⟨(opens _).mpr ⟨(adds'.opens _).mpr (.inr rfl), rest.1⟩, rest.2⟩
  · show s.blocks.size ≤ s₁.blocks.size
    omega
  · intro j below other
    show s₄.blocks[j]? = _
    rw [traps.others j (by omega), closes.others j other, adds'.kept j (by omega), adds.kept j below]

/-- No conversion is named like the runtime's panic. -/
theorem conversionName_ne (target source : Ir.Ty) : conversionName target source ≠ panicSymbol := by
  intro same
  have chars := congrArg String.toList same
  simp [conversionName, panicSymbol, toString] at chars

namespace Makes

variable {s : State} {P : Nat → Prop} {f : Ir.Function} {i : Ir.Inst}

/-- Values that were made before do not matter. -/
theorem bind {x : Lower Val} {g : Val → Lower Val} (first : Makes s P x) (rest : ∀ v, Makes s P (g v)) :
    Makes s P (x >>= g) :=
  Ends.bind first fun v => (rest v).mono (fun _ made => made.toCarries) fun _ _ => id

theorem bind_get {g : State → Lower Val} (rest : ∀ t, Makes s P (g t)) : Makes s P (get >>= g) :=
  Ends.bind_get fun t carries => (rest t).mono (fun _ same => same ▸ carries) fun _ _ => id

theorem crash (c : Crash) : Makes s P (Lowering.crash c) := Ends.crash trivial

theorem emit {op : Operation} (plain : ∀ t ins, op ≠ .phi t ins) : Makes s P (Lowering.emit op) := by
  refine fun t carries => ⟨fun v u ran => ?_, fun _ _ => trivial⟩
  obtain ⟨_, _, got, ran⟩ := run_bind.mp ran
  cases got
  obtain ⟨works, same, rfl, next⟩ := State.Works.emitTo carries.opens plain ran
  refine ⟨carries.works works ((same _).mpr carries.opens), .inr ⟨carries.nextId, ?_⟩⟩
  omega

theorem icmp (p : IntPred) (x y : Val) : Makes s P (Lowering.icmp p x y) :=
  Ends.ite (fun _ => emit (by simp)) fun _ => crash _

theorem fcmp (p : FloatPred) (x y : Val) : Makes s P (Lowering.fcmp p x y) :=
  Ends.ite (fun _ => emit (by simp)) fun _ => crash _

theorem resize (op : CastOp) (x : Val) (width : Nat) : Makes s P (Lowering.resize op x width) := by
  unfold Lowering.resize
  cases x.ty with
  | int w => exact Ends.ite (fun _ => emit (by simp)) fun _ => crash _
  | _ => exact crash _

theorem emitCall (callee : Nat) (args : List Val) :
    Makes s P (do Lowering.emitCall (← get).current callee args) := by
  refine fun t carries => ⟨fun v u ran => ?_, fun _ _ => trivial⟩
  obtain ⟨_, _, got, ran⟩ := run_bind.mp ran
  cases got
  obtain ⟨g, _, ran⟩ := State.emitCall_ok ran
  obtain ⟨works, same, rfl, next⟩ := State.Works.emitTo carries.opens (by simp) ran
  refine ⟨carries.works works ((same _).mpr carries.opens), .inr ⟨carries.nextId, ?_⟩⟩
  omega

/-- Finding or declaring a conversion. -/
theorem declare (target source : Ir.Ty) (ret param : Llvm.Ty) {g : Nat → Lower Val}
    (rest : ∀ k, Makes s P (g k)) :
    Makes s P (Lowering.declare (conversionName target source) ret param >>= g) := by
  refine Ends.bind (Q := fun _ => s.Carries) (fun t carries => ⟨fun k u ran => ?_, fun _ _ => trivial⟩) rest
  obtain ⟨works, blocks, _⟩ := State.Works.declare t.current
    (fun panics => absurd panics (conversionName_ne target source)) ran
  exact carries.works works ((State.open_of_blocks blocks _).mpr carries.opens)

theorem argReg (n : Nat) {g : Ir.Reg → Lower Val} (rest : ∀ r, Makes s P (g r)) :
    Makes s P (Lowering.argReg i n >>= g) := by
  unfold Lowering.argReg
  cases i.args[n]? with
  | none => exact fun _ _ => ⟨fun _ _ ran => (by cases ran), fun _ _ => trivial⟩
  | some r => exact rest r

variable (operands : ∀ r ∈ i.args, ∀ x, (s.values[r.num]?).join = some x → x.Born P)
include operands

/-- A register has its value, or none if it was not lowered. -/
theorem use {r : Ir.Reg} (member : r ∈ i.args) (t : Ir.Ty) : Makes s P (Lowering.use r t) := by
  refine fun u carries => ⟨fun v u' ran => ?_, fun _ _ => trivial⟩
  obtain ⟨_, _, got, ran⟩ := run_bind.mp ran
  cases got
  cases known : (u.values[r.num]?).join with
  | none =>
    rw [known] at ran
    obtain ⟨rfl, rfl⟩ := run_pure.mp ran
    exact ⟨carries, trivial⟩
  | some x =>
    rw [known] at ran
    obtain ⟨rfl, rfl⟩ := run_pure.mp ran
    rw [carries.values] at known
    exact ⟨carries, (operands r member _ known).mono fun _ => .inl⟩

theorem arg (n : Nat) : Makes s P (Lowering.arg f i n) := by
  unfold Lowering.arg Lowering.argReg
  cases operand : i.args[n]? with
  | none => exact fun _ _ => ⟨fun _ _ ran => (by cases ran), fun _ _ => trivial⟩
  | some r => exact use operands (List.mem_of_getElem? operand) _

theorem cast : Makes s P (Lowering.cast f i) := by
  refine argReg 0 fun r => Ends.bind (arg operands 0) fun x => ?_
  -- a conversion that changes nothing leaves the operand's value
  have keep : Ends (fun _ => True) (s.Made P x) (pure x : Lower Val) (s.Made P) := Ends.pure fun _ => id
  have make : ∀ {y : Lower Val}, Makes s P y → Ends (fun _ => True) (s.Made P x) y (s.Made P) :=
    fun makes => makes.mono (fun _ made => made.toCarries) fun _ _ => id
  refine Ends.ite (fun _ => Ends.error _) fun _ => Ends.ite (fun _ => ?toBool) fun _ =>
    Ends.ite (fun _ => Ends.ite (fun _ => ?toFloat) fun _ => ?fromFloat) fun _ =>
      Ends.ite (fun _ => make (emit (by simp))) fun _ =>
        Ends.ite (fun _ => make (resize _ _ _)) fun _ =>
          Ends.ite (fun _ => make (resize _ _ _)) fun _ => keep
  case toBool =>
    exact Ends.ite (fun _ => keep) fun _ =>
      Ends.ite (fun _ => make (fcmp _ _ _)) fun _ => make (icmp _ _ _)
  case toFloat =>
    exact Ends.ite (fun _ => make (emit (by simp))) fun _ =>
      Ends.ite (fun _ => make (emit (by simp))) fun _ => keep
  case fromFloat => exact make (declare _ _ _ _ fun k => emitCall k [x])

theorem unary : Makes s P (Lowering.unary f i) := by
  refine (arg operands 0).bind fun x => ?_
  cases i.op <;> exact emit (by simp)

theorem compare : Makes s P (Lowering.compare f i) :=
  argReg 0 fun _ => (arg operands 0).bind fun _ => (arg operands 1).bind fun _ =>
    Ends.ite (fun _ => fcmp _ _ _) fun _ => icmp _ _ _

omit operands in
theorem quotient (op : Ir.Op) (t : Ir.Ty) (x y : Val) : Makes s P (Lowering.quotient op t x y) := by
  refine Ends.ite (fun _ => emit (by simp)) fun _ => ?_
  refine (icmp _ _ _).bind fun _ => (emit (by simp)).bind fun _ => Ends.ite (fun _ => ?_) fun _ => ?_
  · exact (emit (by simp)).bind fun _ => (emit (by simp)).bind fun _ => emit (by simp)
  · exact (emit (by simp)).bind fun _ => emit (by simp)

omit operands in
/-- A quotient or remainder is computed in the block after the check of its divisor. -/
theorem divide (op : Ir.Op) (t : Ir.Ty) (x y : Val) : Makes s P (Lowering.divide op t x y) := by
  refine fun s₀ carries => ⟨fun v u ran => ?_, fun _ _ => trivial⟩
  obtain ⟨isZero, s₁, s₂, compared, checks, computed⟩ := divide_ok ran
  have carries := (((icmp (P := P) .eq y (zeroOf t)) s₀ carries).1 isZero s₁ compared).toCarries
  obtain ⟨moved, values⟩ := checks.continues carries.opens
  exact (quotient op t x y s₂ ⟨carries.toContinues.trans moved, values.trans carries.values⟩).1 v u computed

theorem binary : Makes s P (Lowering.binary f i) := by
  refine (arg operands 0).bind fun x => (arg operands 1).bind fun y => ?_
  dsimp only
  split <;> first
    | exact emit (by simp)
    | exact (emit (by simp)).bind fun _ => emit (by simp)
    | exact divide _ _ _ _

end Makes

/-- Lowering goes on, and at most one register has changed. -/
structure Sets (r? : Option Ir.Reg) (P : Nat → Prop) (s t : State) : Prop extends s.Continues t where
  size : t.values.size = s.values.size
  kept : ∀ r : Ir.Reg, r? ≠ some r → t.values[r.num]? = s.values[r.num]?
  dest : ∀ r, r? = some r → r ≠ .absent → r.num < s.values.size →
    ∃ x, t.values[r.num]? = some (some x) ∧ x.Born fun id => P id ∨ s.nextId ≤ id ∧ id < t.nextId

namespace Sets

variable {s t : State} {P : Nat → Prop} {r : Ir.Reg} {r? : Option Ir.Reg} {f : Ir.Function} {i : Ir.Inst}

theorem of_carries (carries : s.Carries t) : Sets none P s t :=
  ⟨carries.toContinues, by rw [carries.values], fun _ _ => by rw [carries.values], nofun⟩

theorem absent (sets : Sets none P s t) : Sets (some .absent) P s t :=
  ⟨sets.toContinues, sets.size, fun r _ => sets.kept r nofun,
    fun _ same other => absurd (Option.some.inj same).symm other⟩

/-- A value that was made is put into a register. -/
theorem define (v : Val) : Ends (fun _ => True) (s.Made P v) (Lowering.define r v) fun _ t =>
    Sets (if r = .absent then none else some r) P s t := by
  refine fun m made => ⟨fun u t ran => ?_, fun _ _ => trivial⟩
  have defines := State.Defines.of_define ran
  have size := congrArg Array.size made.values
  obtain ⟨continues, _⟩ := made.toCarries
  rw [defines.same]
  refine ⟨⟨⟨⟨continues.functions, continues.globals, continues.texts⟩, continues.blocks,
    continues.nextId, fun stock => ⟨(continues.stock stock).panic, (continues.stock stock).texts⟩⟩,
    continues.opens, continues.current, continues.others⟩, defines.size.trans size, fun q other => ?_, ?_⟩
  · refine (defines.kept q ?_).trans (by rw [made.values])
    split at other
    · next none => exact .inr none
    · exact .inl fun same => other (congrArg some same.symm)
  · intro q same present inside
    split at same
    · cases same
    · cases same
      exact ⟨v, defines.dest present (size ▸ inside), made.born⟩

theorem define_dest (v : Val) : Ends (fun _ => True) (s.Made P v) (Lowering.define r v) fun _ t =>
    Sets (some r) P s t := by
  refine (define v).mono (fun _ => id) fun _ t sets => ?_
  split at sets
  · next none => exact none ▸ sets.absent
  · exact sets

/-- After a panic lowering goes on in a block that nothing jumps to. -/
theorem panic (blank : s.Open s.current) {message : String} {u : Unit} {dead : Nat × BlockName}
    {m m' : State} (trapped : trap s.current message s = .ok (u, m))
    (made : newAux "dead" m = .ok (dead, m')) : s.Carries { m' with current := dead.1 } := by
  obtain ⟨n, name⟩ := dead
  obtain ⟨traps, opens⟩ := State.Works.trap blank trapped
  obtain ⟨adds, at_dead⟩ := State.Adds.newAux made
  have ext := traps.toExtends.trans adds.toExtends
  refine ⟨⟨⟨⟨ext.functions, ext.globals, ext.texts⟩, ext.blocks, ext.nextId, fun stock => ?_⟩, ?_,
    .inr ?_, ?_⟩, adds.values.trans traps.values⟩
  · exact ⟨(ext.stock stock).panic, (ext.stock stock).texts⟩
  · exact (adds.opens _).mpr (.inr at_dead)
  · show s.blocks.size ≤ n
    rw [at_dead, traps.size]
  · intro j below other
    exact (adds.kept j (by rw [traps.size]; exact below)).trans (traps.others j other)

end Sets

section

variable {functions globals : Nat} {f : Ir.Function} {i : Ir.Inst} {s t : State} {P : Nat → Prop}

/-- Lowering an instruction sets its destination. -/
theorem inst_sets (operands : ∀ r ∈ i.args, ∀ x, (s.values[r.num]?).join = some x → x.Born P)
    (blank : s.Open s.current) {u : Unit} (ran : inst functions globals f i s = .ok (u, t)) :
    Sets i.target? P s t := by
  have args : ∀ n, Ends (fun _ => True) s.Carries (arg f i n) fun _ => s.Carries := fun n =>
    (Makes.arg operands n).mono (fun _ => id) fun _ _ made => made.toCarries
  have uses : Ends (fun _ => True) s.Carries (i.args.mapM fun r => use r (regType f r))
      fun _ => s.Carries := by
    refine Ends.mono (Keeps.mapM (T := fun _ _ => True) fun r member => ?_) (fun _ => id)
      fun _ _ => And.left
    exact (Makes.use operands member _).mono (fun _ => id) fun _ _ made => ⟨made.toCarries, trivial⟩
  have orFail : ∀ {α : Type} (c : LowerCause) (a? : Option α),
      Ends (fun _ => True) s.Carries (orFail c a?) fun _ => s.Carries := by
    intro α c a?
    cases a? with
    | none => exact .error _
    | some a => exact .pure fun _ => id
  have defined : i.target? = some i.dest → ∀ {x : Lower Val}, Makes s P x →
      Ends (fun _ => True) s.Carries (x >>= define i.dest) fun _ t => Sets i.target? P s t :=
    fun target _ makes => target ▸ Ends.bind makes Sets.define_dest
  have target : i.op ∉ [.storeGlobal, .panic, .call] → i.target? = some i.dest := by
    intro other
    unfold Ir.Inst.target?
    split <;> simp_all
  suffices all : Ends (fun _ => True) s.Carries (inst functions globals f i) fun _ t =>
      Sets i.target? P s t from (all s (.refl blank)).1 u t ran
  unfold inst
  split
  case h_1 op =>
    rw [target (by simp [op])]
    exact (orFail _ _).bind fun c => (Sets.define_dest (.const c)).mono (fun _ carries => ⟨carries, trivial⟩)
      fun _ _ => id
  case h_2 op => exact defined (target (by simp [op])) (Makes.arg operands 0)
  case h_3 op => exact defined (target (by simp [op])) (Makes.cast operands)
  case h_4 op =>
    exact (args 0).bind fun _ => (args 1).bind fun _ => (args 2).bind fun _ =>
      defined (target (by simp [op])) (.emit (by simp))
  case h_5 op =>
    have target : i.target? = if i.dest = .absent then none else some i.dest := by
      simp only [Ir.Inst.target?, op]
    refine Ends.ite (fun _ => .error_bind _) fun _ => uses.bind fun vs => ?_
    rw [target]
    refine Ends.bind_get fun m carries => Ends.bind (Q := s.Made P) ?_ Sets.define
    rintro _ rfl
    exact Makes.emitCall _ vs _ carries
  case h_6 op =>
    exact Ends.ite (fun _ => .error_bind _) fun _ => (orFail _ _).bind fun _ =>
      defined (target (by simp [op])) (.emit (by simp))
  case h_7 op =>
    have target : i.target? = none := by simp only [Ir.Inst.target?, op]
    refine Ends.ite (fun _ => .error_bind _) fun _ => (args 0).bind fun x => ?_
    refine Ends.bind_get fun m carries => ?_
    rw [target]
    split
    · refine Ends.ite (fun _ => Ends.bind (Q := s.Made P) ?_ fun _ => ?_) fun _ => .crash trivial
      · rintro _ rfl
        exact Makes.emit (by simp) _ carries
      · exact .pure fun _ made => .of_carries made.toCarries
    · exact .crash trivial
  case h_8 op =>
    rw [target (by simp [op])]
    exact (orFail _ _).bind fun c => (Sets.define_dest _).mono (fun _ carries => ⟨carries, trivial⟩)
      fun _ _ => id
  case h_9 op =>
    have target : i.target? = none := by simp only [Ir.Inst.target?, op]
    rw [target]
    refine fun m carries => ⟨fun _ t ran => ?_, fun _ _ => trivial⟩
    obtain ⟨_, _, got, ran⟩ := run_bind.mp ran
    cases got
    obtain ⟨_, s₁, trapped, ran⟩ := run_bind.mp ran
    obtain ⟨dead, s₂, made, ran⟩ := run_bind.mp ran
    cases ran
    have moved := Sets.panic carries.opens trapped made
    exact .of_carries ⟨carries.toContinues.trans moved.toContinues, moved.values.trans carries.values⟩
  case h_10 =>
    have target := target (by simp_all)
    exact Ends.ite (fun _ => defined target (Makes.binary operands)) fun _ =>
      Ends.ite (fun _ => defined target (Makes.unary operands)) fun _ =>
        defined target (Makes.compare operands)

/-- A comparison may be written before the current block is closed. -/
theorem Ending.carries {t : Ir.Term} {m : State} {T : Llvm.Term} (ending : Ending f s t m T)
    (blank : s.Open s.current) : s.Carries m := by
  cases ending with
  | test ran => exact ((Makes.icmp (P := fun _ => True) .ne _ _ s (.refl blank)).1 _ _ ran).toCarries
  | _ => exact .refl blank

end

end TieredEngine.Ship.Lowering
