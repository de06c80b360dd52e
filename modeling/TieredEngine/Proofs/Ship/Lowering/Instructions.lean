import TieredEngine.Proofs.Ship.Lowering.Blocks

/-!
Lowering the instructions and the terminator of a block. Most instructions only write instructions; a
division checks for a zero divisor and goes on in a new block, and so does what follows a panic.
Whatever an instruction writes, one block stays open for what comes next, and the blocks it adds are
jumped to from blocks of its own. The terminator closes the block that is open at the end.
-/
namespace TieredEngine.Ship.Lowering
open TieredEngine TieredEngine.Llvm

/-- A computation that does nothing to the blocks but write instructions that are no phis. -/
def Quietly {ε α : Type} (x : Stateful ε α) : Prop :=
  ∀ s a s', x s = .ok (a, s') → s.Quiet s'

namespace Quietly

variable {ε α β : Type}

theorem pure (a : α) : Quietly (Pure.pure a : Stateful ε α) := by
  intro s b s' ran
  obtain ⟨_, rfl⟩ := run_pure.mp ran
  exact .refl _

theorem throw (e : ε) : Quietly (MonadExcept.throw e : Stateful ε α) := by
  intro s a s' ran
  cases ran

theorem bind {x : Stateful ε α} {g : α → Stateful ε β} (first : Quietly x)
    (rest : ∀ a, Quietly (g a)) : Quietly (x >>= g) := by
  intro s b s' ran
  obtain ⟨a, t, ran, ran'⟩ := run_bind.mp ran
  exact (first s a t ran).trans (rest a t b s' ran')

/-- Reading the state. -/
theorem bind_get {g : State → Stateful ε β} (rest : ∀ s, Quietly (g s)) : Quietly (get >>= g) := by
  refine .bind ?_ rest
  intro s a s' ran
  cases ran
  exact .refl _

/-- Changing the state apart from its blocks. -/
theorem of_modify {g : State → State} (quiet : ∀ s : State, s.Quiet (g s)) :
    Quietly (modify g : Stateful ε PUnit) := by
  intro s a s' ran
  cases ran
  exact quiet s

theorem ite {p : Prop} [Decidable p] {x y : Stateful ε α} (yes : Quietly x) (no : Quietly y) :
    Quietly (if p then x else y) := by
  split
  · exact yes
  · exact no

theorem mapM {g : α → Stateful ε β} (each : ∀ a, Quietly (g a)) (l : List α) :
    Quietly (l.mapM g) := by
  induction l with
  | nil => exact .pure []
  | cons a l ih =>
    rw [List.mapM_cons]
    exact (each a).bind fun b => ih.bind fun bs => .pure _

theorem crash (c : Crash) : Quietly (Lowering.crash c : Lower α) := .throw _

theorem fail (c : LowerCause) : Quietly (Lowering.fail c : Lower α) := .throw _

theorem orFail (c : LowerCause) (a? : Option α) : Quietly (Lowering.orFail c a?) := by
  cases a? with
  | none => exact .fail c
  | some a => exact .pure a

end Quietly

/-! The parts instructions are lowered with. -/

theorem emitTo_quietly {block : Nat} {op : Operation} (plain : ∀ t ins, op ≠ .phi t ins) :
    Quietly (emitTo block op) := by
  intro s v s' ran
  cases ran
  exact .of_emit plain rfl rfl rfl (.of_functions rfl)

theorem emit_quietly {op : Operation} (plain : ∀ t ins, op ≠ .phi t ins) : Quietly (emit op) :=
  .bind_get fun _ => emitTo_quietly plain

theorem define_quietly (r : Ir.Reg) (v : Val) : Quietly (define r v) :=
  .ite (.pure ()) (.of_modify fun _ => .of_blocks rfl rfl rfl (.of_functions rfl))

theorem use_quietly (r : Ir.Reg) (t : Ir.Ty) : Quietly (use r t) := by
  refine .bind_get fun s => ?_
  cases (s.values[r.num]?).join <;> exact .pure _

theorem argReg_quietly (i : Ir.Inst) (n : Nat) : Quietly (argReg i n) := by
  unfold argReg
  cases i.args[n]? with
  | none => exact .crash _
  | some r => exact .pure r

theorem arg_quietly (f : Ir.Function) (i : Ir.Inst) (n : Nat) : Quietly (arg f i n) :=
  (argReg_quietly i n).bind fun r => use_quietly r _

theorem declare_quietly (name : String) (ret param : Llvm.Ty) : Quietly (declare name ret param) := by
  intro s i s' ran
  unfold declare at ran
  obtain ⟨_, _, got, ran⟩ := run_bind.mp ran
  cases got
  cases known : s.declared.find? (·.1 == name) with
  | some p =>
    rw [known] at ran
    obtain ⟨_, rfl⟩ := run_pure.mp ran
    exact .refl _
  | none =>
    rw [known] at ran
    cases ran
    exact .of_blocks rfl rfl rfl (.of_push rfl)

theorem textAddress_quietly (text : String) : Quietly (textAddress text) := by
  intro s c s' ran
  unfold textAddress at ran
  obtain ⟨_, _, got, ran⟩ := run_bind.mp ran
  cases got
  cases known : s.texts.find? (·.1 == text) with
  | some p =>
    rw [known] at ran
    obtain ⟨_, rfl⟩ := run_pure.mp ran
    exact .refl _
  | none =>
    rw [known] at ran
    cases ran
    exact .of_blocks rfl rfl rfl (.of_functions rfl)

theorem emitCall_quietly (block callee : Nat) (args : List Val) :
    Quietly (emitCall block callee args) := by
  refine .bind_get fun s => ?_
  cases s.functions[callee]? with
  | none => exact .crash _
  | some f => exact emitTo_quietly (by simp)

theorem icmp_quietly (p : IntPred) (x y : Val) : Quietly (icmp p x y) :=
  .ite (emit_quietly (by simp)) (.crash _)

theorem fcmp_quietly (p : FloatPred) (x y : Val) : Quietly (fcmp p x y) :=
  .ite (emit_quietly (by simp)) (.crash _)

theorem resize_quietly (op : CastOp) (x : Val) (width : Nat) : Quietly (resize op x width) := by
  unfold resize
  cases x.ty with
  | int w => exact .ite (emit_quietly (by simp)) (.crash _)
  | _ => exact .crash _

theorem cast_quietly (f : Ir.Function) (i : Ir.Inst) : Quietly (cast f i) := by
  refine (argReg_quietly i 0).bind fun r => (arg_quietly f i 0).bind fun x => ?_
  refine .ite (.fail _) (.ite ?toBool (.ite ?fromFloat (.ite ?toFloat (.ite ?narrower ?wider))))
  case toBool => exact .ite (.pure x) (.ite (fcmp_quietly _ _ _) (icmp_quietly _ _ _))
  case fromFloat =>
    refine .ite (.ite (emit_quietly (by simp)) (.ite (emit_quietly (by simp)) (.pure x))) ?_
    exact (declare_quietly _ _ _).bind fun callee => .bind_get fun s => emitCall_quietly _ _ _
  case toFloat => exact emit_quietly (by simp)
  case narrower => exact resize_quietly _ _ _
  case wider => exact .ite (resize_quietly _ _ _) (.pure x)

theorem unary_quietly (f : Ir.Function) (i : Ir.Inst) : Quietly (unary f i) := by
  refine (arg_quietly f i 0).bind fun x => ?_
  cases i.op <;> exact emit_quietly (by simp)

theorem compare_quietly (f : Ir.Function) (i : Ir.Inst) : Quietly (compare f i) :=
  (argReg_quietly i 0).bind fun _ => (arg_quietly f i 0).bind fun _ =>
    (arg_quietly f i 1).bind fun _ => .ite (fcmp_quietly _ _ _) (icmp_quietly _ _ _)

/-- What the extra blocks are for. -/
def auxKinds : List String := ["divzero", "div", "dead"]

/-- Names of the extra blocks, in the order they are made. -/
def auxNames (kinds : List String) : List BlockName := kinds.mapIdx fun i k => .aux k (i + 1)

/-- What is known of a body that is being lowered: the names its blocks have from the source, the edges
between them, terminators that stay, places where phis may stand, and the state it began with. -/
structure Outline where
  names : List BlockName
  edges : List (BlockName × BlockName)
  terms : Nat → Llvm.Term → Prop
  phis : Nat → Nat → Prop
  origin : State

section

variable {outline : Outline} {pending : Nat → Prop} {R : List Nat} {s t : State}

/-- A body follows its outline, but for extra blocks and edges to them; some blocks are still open. -/
structure Progress (outline : Outline) (pending : Nat → Prop) (s : State) : Prop where
  names : ∃ kinds, s.names = outline.names ++ auxNames kinds ∧ s.aux = kinds.length ∧
    ∀ k ∈ kinds, k ∈ auxKinds
  edges : ∃ inner, s.edges.Perm (outline.edges ++ inner) ∧ ∀ e ∈ inner, e.2.IsAux
  opens : ∀ j, s.Open j ↔ pending j
  terms : ∀ j T, outline.terms j T → s.TermAt j T
  phis : ∀ j p, s.PhiAt j p → outline.phis j p
  grows : outline.origin.Grows s

namespace Progress

theorem framed (done : Progress outline pending s) (framed : s.Framed t) (aux : t.aux = s.aux)
    {phis : Nat → Nat → Prop} (stand : ∀ j p, t.PhiAt j p → phis j p) :
    Progress { outline with phis } pending t where
  names := by rw [framed.names, aux]; exact done.names
  edges := by rw [framed.edges]; exact done.edges
  opens j := (framed.opens j).trans (done.opens j)
  terms j T ends := framed.terms j T (done.terms j T ends)
  phis := stand
  grows := done.grows.trans framed.grows

theorem quiet (done : Progress outline pending s) (quiet : s.Quiet t) : Progress outline pending t :=
  done.framed quiet.toFramed quiet.aux fun j p stands => done.phis j p (quiet.phis j p stands)

theorem congr {pending' : Nat → Prop} (done : Progress outline pending s)
    (same : ∀ j, pending j ↔ pending' j) : Progress outline pending' s :=
  { done with opens := fun j => (done.opens j).trans (same j) }

/-- Open blocks are there. -/
theorem bound (done : Progress outline pending s) {j : Nat} (waits : pending j) :
    j < s.blocks.size := by
  obtain ⟨b, there, _⟩ := (done.opens j).mpr waits
  exact (Array.getElem?_eq_some_iff.mp there).1

/-- Going on in another block. -/
theorem move (done : Progress outline pending s) (j : Nat) :
    Progress outline pending { s with current := j } :=
  ⟨done.names, done.edges, done.opens, done.terms, done.phis, done.grows.trans (.of_functions rfl)⟩

theorem newAux (done : Progress outline pending s) {kind : String}
    (known : kind ∈ auxKinds) {n : Nat} {name : BlockName} (ran : newAux kind s = .ok ((n, name), t)) :
    Progress outline (fun j => pending j ∨ j = n) t ∧ n = s.blocks.size ∧
      t.blocks.size = n + 1 ∧ name.IsAux := by
  cases ran
  have begins := State.Begins.of_push (s := s) (n := .aux kind (s.aux + 1))
    (t := { s with aux := s.aux + 1, blocks := s.blocks.push { name := .aux kind (s.aux + 1) } })
    rfl (.of_functions rfl)
  refine ⟨⟨?_, ?_, fun j => ?_, fun j T ends => begins.terms j T (done.terms j T ends),
    fun j p stands => done.phis j p (begins.phis j p stands), done.grows.trans begins.grows⟩, rfl,
    Array.size_push _, trivial⟩
  · obtain ⟨kinds, names, count, all⟩ := done.names
    refine ⟨kinds ++ [kind], ?_, by simp [count], by simpa [or_imp, forall_and, known] using all⟩
    rw [begins.names, names, auxNames, auxNames, List.mapIdx_concat, count, List.append_assoc]
  · rw [begins.edges]
    exact done.edges
  · rw [begins.opens, done.opens]

/-- A block is closed. -/
theorem close (done : Progress outline pending s) {j : Nat} (waits : pending j) {n : BlockName}
    (named : s.names[j]? = some n) {T : Llvm.Term} {u : Unit} (ran : terminate j T s = .ok (u, t)) :
    Progress { outline with edges := outline.edges ++ T.targets.map (n, ·) }
      (fun k => pending k ∧ k ≠ j) t ∧ t.names = s.names ∧ t.current = s.current ∧ t.TermAt j T := by
  cases ran
  have closes := State.Closes.of_modify ((done.opens j).mpr waits) (T := T)
    (t := { s with blocks := s.blocks.modify j fun b => { b with term := some T } }) rfl
    (.of_functions rfl)
  refine ⟨⟨?_, ?_, fun k => ?_, fun k T ends => closes.terms k T (done.terms k T ends),
    fun k p stands => done.phis k p (closes.phis k p stands), done.grows.trans closes.grows⟩,
    closes.names, rfl, closes.closed⟩
  · rw [closes.names]
    exact done.names
  · obtain ⟨inner, seen, all⟩ := done.edges
    refine ⟨inner, (closes.edges n named).trans ((seen.append_right _).trans ?_), all⟩
    rw [List.append_assoc, List.append_assoc]
    exact List.perm_append_comm.append_left _
  · rw [closes.opens, done.opens]

/-- A block is closed, with edges to extra blocks. -/
theorem terminate (done : Progress outline pending s) {j : Nat} (waits : pending j)
    {T : Llvm.Term} (targets : ∀ n ∈ T.targets, n.IsAux) {u : Unit}
    (ran : terminate j T s = .ok (u, t)) :
    Progress outline (fun k => pending k ∧ k ≠ j) t ∧ t.current = s.current := by
  have inside : j < s.names.length := by simpa [State.names] using done.bound waits
  obtain ⟨closed, _, current, _⟩ := done.close waits (List.getElem?_eq_getElem inside) ran
  obtain ⟨inner, seen, all⟩ := closed.edges
  refine ⟨{ closed with edges := ⟨T.targets.map (s.names[j], ·) ++ inner, ?_, ?_⟩ }, current⟩
  · rw [← List.append_assoc]
    exact seen
  · intro e member
    rcases List.mem_append.mp member with new | old
    · obtain ⟨n, listed, rfl⟩ := List.mem_map.mp new
      exact targets n listed
    · exact all e old

theorem trap (done : Progress outline pending s) {j : Nat} (waits : pending j)
    {message : String} {u : Unit} (ran : trap j message s = .ok (u, t)) :
    Progress outline (fun k => pending k ∧ k ≠ j) t ∧ t.current = s.current := by
  obtain ⟨callee, s₁, ran₁, ran⟩ := run_bind.mp ran
  obtain ⟨text, s₂, ran₂, ran⟩ := run_bind.mp ran
  obtain ⟨v, s₃, ran₃, ran⟩ := run_bind.mp ran
  have written := ((declare_quietly _ _ _ _ _ _ ran₁).trans (textAddress_quietly _ _ _ _ ran₂)).trans
    (emitCall_quietly _ _ _ _ _ _ ran₃)
  obtain ⟨closed, current⟩ := (done.quiet written).terminate waits (by simp [Term.targets]) ran
  exact ⟨closed, current.trans written.current⟩

end Progress

/-- Instructions are written to a block; others wait for theirs. -/
structure Writing (outline : Outline) (R : List Nat) (s : State) : Prop where
  progress : Progress outline (fun j => j = s.current ∨ j ∈ R) s
  apart : s.current ∉ R

theorem Writing.quiet (writing : Writing outline R s) (quiet : s.Quiet t) :
    Writing outline R t := by
  refine ⟨?_, quiet.current ▸ writing.apart⟩
  rw [quiet.current]
  exact writing.progress.quiet quiet

/-- Lowering goes on in a block that is made for it. -/
theorem Writing.move {n : Nat} (done : Progress outline (fun j => j ∈ R ∨ j = n) s)
    (apart : n ∉ R) : Writing outline R { s with current := n } :=
  ⟨(done.congr fun _ => or_comm).move n, apart⟩

/-- A quotient or remainder ends the block with a check of the divisor and is computed in a new one;
the block for a zero divisor has no successors. -/
theorem divide_writing {op : Ir.Op} {ty : Ir.Ty} {x y v : Val}
    (writing : Writing outline R s) (ran : divide op ty x y s = .ok (v, t)) :
    Writing outline R t := by
  obtain ⟨isZero, s₁, ran₁, ran⟩ := run_bind.mp ran
  obtain ⟨_, _, got, ran⟩ := run_bind.mp ran
  cases got
  obtain ⟨⟨trapBlock, trapName⟩, s₂, ran₂, ran⟩ := run_bind.mp ran
  obtain ⟨⟨restBlock, restName⟩, s₃, ran₃, ran⟩ := run_bind.mp ran
  obtain ⟨_, s₄, ran₄, ran⟩ := run_bind.mp ran
  obtain ⟨_, s₅, ran₅, ran⟩ := run_bind.mp ran
  obtain ⟨_, _, moved, ran⟩ := run_bind.mp ran
  cases moved
  obtain ⟨progress, apart⟩ := writing.quiet (icmp_quietly _ _ _ _ _ _ ran₁)
  have below : ∀ j ∈ R, j < s₁.blocks.size := fun j waits => progress.bound (.inr waits)
  have inside : s₁.current < s₁.blocks.size := progress.bound (.inl rfl)
  obtain ⟨progress, trapAt, size₂, trapIsAux⟩ := progress.newAux (by simp [auxKinds]) ran₂
  obtain ⟨progress, restAt, _, restIsAux⟩ := progress.newAux (by simp [auxKinds]) ran₃
  obtain ⟨progress, _⟩ := progress.terminate (.inl (.inl (.inl rfl)))
    (by simp [Term.targets, trapIsAux, restIsAux]) ran₄
  obtain ⟨progress, _⟩ := progress.trap (by grind) ran₅
  have rest : Writing outline R { s₅ with current := restBlock } :=
    .move (progress.congr fun j => by grind) fun waits => by grind
  refine rest.quiet ?_
  have emits : ∀ {op : Operation}, (∀ t ins, op ≠ .phi t ins) → Quietly (emit op) := emit_quietly
  refine Quietly.ite (emits (by simp)) (.bind (icmp_quietly _ _ _) fun _ => .bind (emits (by simp))
    fun _ => .ite ?_ ?_) _ _ _ ran
  · exact .bind (emits (by simp)) fun _ => .bind (emits (by simp)) fun _ => emits (by simp)
  · exact .bind (emits (by simp)) fun _ => emits (by simp)

/-- After a panic the block is closed, and what follows goes to a block that nothing jumps to. -/
theorem panic_writing {message : String} {u : Unit} {dead : Nat × BlockName} {s₁ : State}
    (writing : Writing outline R s) (ran : trap s.current message s = .ok (u, s₁))
    (made : newAux "dead" s₁ = .ok (dead, t)) :
    Writing outline R { t with current := dead.1 } := by
  obtain ⟨progress, apart⟩ := writing
  obtain ⟨progress, _⟩ := progress.trap (.inl rfl) ran
  have below : ∀ j ∈ R, j < s₁.blocks.size := fun j waits =>
    progress.bound ⟨.inr waits, fun same => apart (same ▸ waits)⟩
  obtain ⟨progress, deadAt, _⟩ := progress.newAux (by simp [auxKinds]) made
  exact .move (progress.congr fun j => by grind) fun waits => by grind

/-- A computation after which instructions can be written as before. -/
def Writes {α : Type} (outline : Outline) (R : List Nat) (x : Lower α) : Prop :=
  ∀ s a t, Writing outline R s → x s = .ok (a, t) → Writing outline R t

namespace Writes

variable {α β : Type}

theorem of_quietly {x : Lower α} (quiet : Quietly x) : Writes outline R x :=
  fun s a t writing ran => writing.quiet (quiet s a t ran)

theorem bind {x : Lower α} {g : α → Lower β} (first : Writes outline R x)
    (rest : ∀ a, Writes outline R (g a)) :
    Writes outline R (x >>= g) := by
  intro s b t writing ran
  obtain ⟨a, s₁, ran₁, ran₂⟩ := run_bind.mp ran
  exact rest a s₁ b t (first s a s₁ writing ran₁) ran₂

theorem ite {p : Prop} [Decidable p] {x y : Lower α} (yes : Writes outline R x)
    (no : Writes outline R y) : Writes outline R (if p then x else y) := by
  split
  · exact yes
  · exact no

/-- A value that is put into a register. -/
theorem define {x : Lower Val} (first : Writes outline R x) (r : Ir.Reg) :
    Writes outline R (x >>= Lowering.define r) :=
  first.bind fun v => of_quietly (define_quietly r v)

theorem binary (f : Ir.Function) (i : Ir.Inst) :
    Writes outline R (Lowering.binary f i) := by
  refine (of_quietly (arg_quietly f i 0)).bind fun x => (of_quietly (arg_quietly f i 1)).bind fun y => ?_
  have plain : ∀ op, Writes outline R (emit (.binary op x y)) := fun op =>
    of_quietly (emit_quietly (by simp))
  have counted : ∀ op : BinOp, Writes outline R (do
      let count ← emit (.binary .and y (.const (intConst i.ty (UInt64.ofNat i.ty.width - 1))))
      emit (.binary op x count)) := fun op =>
    of_quietly ((emit_quietly (by simp)).bind fun _ => emit_quietly (by simp))
  have divided : ∀ op, Writes outline R (divide op i.ty x y) :=
    fun op s v t => divide_writing
  dsimp only
  split <;> first | exact plain _ | exact counted _ | exact divided _

/-- What lowering an instruction does: instructions are written, blocks closed and made, and one is
open at the end. -/
theorem inst (functions globals : Nat) (f : Ir.Function) (i : Ir.Inst) :
    Writes outline R (Lowering.inst functions globals f i) := by
  have args := arg_quietly f i
  have defined : ∀ {x : Lower Val}, Quietly x →
      Writes outline R (x >>= Lowering.define i.dest) := fun quiet =>
    of_quietly (quiet.bind fun _ => define_quietly _ _)
  unfold Lowering.inst
  split
  case h_1 => exact of_quietly ((Quietly.orFail _ _).bind fun _ => define_quietly _ _)
  case h_2 => exact defined (args 0)
  case h_3 => exact defined (cast_quietly f i)
  case h_4 =>
    exact of_quietly ((args 0).bind fun _ => (args 1).bind fun _ => (args 2).bind fun _ =>
      (emit_quietly (by simp)).bind fun _ => define_quietly _ _)
  case h_5 =>
    refine of_quietly (.ite (.bind (.fail _) fun _ => ?_) ?_)
    all_goals exact (Quietly.mapM (fun r => use_quietly r _) _).bind fun _ => .bind_get fun _ =>
      (emitCall_quietly _ _ _).bind fun _ => define_quietly _ _
  case h_6 =>
    refine of_quietly (.ite (.bind (.fail _) fun _ => ?_) ?_)
    all_goals exact (Quietly.orFail _ _).bind fun _ => (emit_quietly (by simp)).bind fun _ =>
      define_quietly _ _
  case h_7 =>
    refine of_quietly (.ite (.bind (.fail _) fun _ => ?_) ?_)
    all_goals
      refine (args 0).bind fun x => .bind_get fun s => ?_
      cases s.globals[i.global.num]? with
      | none => exact .crash _
      | some g => exact .ite ((emit_quietly (by simp)).bind fun _ => .pure ()) (.crash _)
  case h_8 => exact of_quietly ((Quietly.orFail _ _).bind fun _ => define_quietly _ _)
  case h_9 =>
    intro s u t writing ran
    obtain ⟨_, _, got, ran⟩ := run_bind.mp ran
    cases got
    obtain ⟨_, s₁, ran₁, ran⟩ := run_bind.mp ran
    obtain ⟨dead, s₂, ran₂, ran⟩ := run_bind.mp ran
    cases ran
    exact panic_writing writing ran₁ ran₂
  case h_10 =>
    exact .ite ((binary f i).define _) (.ite (defined (unary_quietly f i)) (defined (compare_quietly f i)))

/-- The instructions of a block, one after the other. -/
theorem insts (functions globals : Nat) (f : Ir.Function) (is : List Ir.Inst) :
    Writes outline R (is.forM (Lowering.inst functions globals f)) := by
  induction is with
  | nil => exact of_quietly (.pure ())
  | cons i is ih => exact (inst functions globals f i).bind fun _ => ih

end Writes

end

/-- Successors of a lowered block, once per edge: of the cases of a switch that agree as values of its
type only the first one counts. -/
def loweredSuccessors (f : Ir.Function) : Ir.Term → List Ir.BlockId
  | .switch c cases d => d :: (distinctCases (regType f c) cases []).map (·.target)
  | t => t.successors

theorem edgeCount_eq (f : Ir.Function) (t : Ir.Term) (n : Ir.BlockId) :
    edgeCount f t n = (loweredSuccessors f t).count n := by
  cases t with
  | switch c cases d =>
    show List.count n (_ ++ [d]) = List.count n (d :: _)
    exact (List.perm_append_singleton d _).count_eq n
  | _ => rfl

theorem distinctCases_subset (t : Ir.Ty) (cases : List Ir.SwitchCase) (seen : List UInt64) :
    distinctCases t cases seen ⊆ cases := by
  induction cases generalizing seen with
  | nil => exact List.Subset.refl _
  | cons c rest ih =>
    unfold distinctCases
    dsimp only
    split
    · exact List.subset_cons_of_subset c (ih seen)
    · exact List.cons_subset_cons c (ih _)

theorem successor_of_lowered {f : Ir.Function} {t : Ir.Term} {n : Ir.BlockId}
    (member : n ∈ loweredSuccessors f t) : n ∈ t.successors := by
  cases t with
  | switch c cases d =>
    rcases List.mem_cons.mp member with rfl | member
    · simp [Ir.Term.successors]
    · obtain ⟨k, listed, rfl⟩ := List.mem_map.mp member
      simp only [Ir.Term.successors, List.mem_append, List.mem_map]
      exact .inl ⟨k, distinctCases_subset _ _ _ listed, rfl⟩
  | _ => exact member

/-- Name of the block for one of the source. -/
def nameOf (id : Ir.BlockId) : BlockName := .block id.num

theorem target_ok {f : Ir.Function} {b : Ir.BlockId} {s s' : State} {n : BlockName}
    (ran : target f b s = .ok (n, s')) : n = nameOf b ∧ s' = s := by
  unfold target at ran
  split at ran
  · exact run_pure.mp ran
  · cases ran

/-- The value of a register; one that was not lowered is undefined. -/
def State.valueOf (s : State) (r : Ir.Reg) (t : Ir.Ty) : Val :=
  ((s.values[r.num]?).join).getD (.const (.undef ((valueType? t).getD (.int 64))))

theorem use_eq (s : State) (r : Ir.Reg) (t : Ir.Ty) : use r t s = .ok (s.valueOf r t, s) := by
  unfold use State.valueOf
  refine run_bind.mpr ⟨s, s, rfl, ?_⟩
  cases (s.values[r.num]?).join <;> rfl

/-- What a terminator is lowered to, and the state in which the current block gets it. -/
inductive Ending (f : Ir.Function) (s : State) : Ir.Term → State → Llvm.Term → Prop
  | br (b : Ir.BlockId) : Ending f s (.br b) s (.br (nameOf b))
  | truth {c : Ir.Reg} {yes no : Ir.BlockId} (boolean : regType f c = .bool) :
    Ending f s (.condBr c yes no) s (.condBr (s.valueOf c .bool) (nameOf yes) (nameOf no))
  | test {c : Ir.Reg} {yes no : Ir.BlockId} {x : Val} {m : State}
      (ran : icmp .ne (s.valueOf c (regType f c)) (zeroOf (regType f c)) s = .ok (x, m)) :
    Ending f s (.condBr c yes no) m (.condBr x (nameOf yes) (nameOf no))
  | switch {c : Ir.Reg} {cases : List Ir.SwitchCase} {default : Ir.BlockId} :
    Ending f s (.switch c cases default) s
      (.switch (s.valueOf c (regType f c)) (nameOf default)
        ((distinctCases (regType f c) cases []).map fun k =>
          (intConst (regType f c) (Ir.Value.ofInt (regType f c) k.value.toInt).bits, nameOf k.target)))
  | ret {r : Ir.Reg} (value : f.sig.ret ≠ .void) :
    Ending f s (.ret (some r)) s (.ret (some (s.valueOf r f.sig.ret)))
  | retVoid {r? : Option Ir.Reg} (nothing : r? = none ∨ f.sig.ret = .void) :
    Ending f s (.ret r?) s (.ret none)
  | unreachable {t : Ir.Term} (never : t = .missing ∨ t = .unreachable) : Ending f s t s .unreachable

theorem term_ending {f : Ir.Function} {s : State} {t : Ir.Term} {u : Unit} {e : State}
    (ran : term f t s = .ok (u, e)) : ∃ m T, Ending f s t m T ∧ terminate m.current T m = .ok ((), e) := by
  have finished : ∀ {T : Llvm.Term} {m : State}, (do terminate (← get).current T) m = .ok (u, e) →
      terminate m.current T m = .ok ((), e) := by
    intro T m ran
    obtain ⟨_, _, got, ran⟩ := run_bind.mp ran
    cases got
    exact ran
  cases t with
  | br b =>
    obtain ⟨_, _, ran₁, rest⟩ := run_bind.mp ran
    obtain ⟨rfl, rfl⟩ := target_ok ran₁
    exact ⟨_, _, .br b, finished rest⟩
  | condBr c yes no =>
    obtain ⟨x, s₁, ran₁, ran⟩ := run_bind.mp ran
    rw [use_eq] at ran₁
    cases ran₁
    have closing : ∀ {cond : Val} {m : State}, (do
        let yes ← target f yes
        let no ← target f no
        (do terminate (← get).current (.condBr cond yes no) : Lower Unit)) m = .ok (u, e) →
        terminate m.current (.condBr cond (nameOf yes) (nameOf no)) m = .ok ((), e) := by
      intro cond m ran
      obtain ⟨_, _, ran₁, rest⟩ := run_bind.mp ran
      obtain ⟨rfl, rfl⟩ := target_ok ran₁
      obtain ⟨_, _, ran₂, last⟩ := run_bind.mp rest
      obtain ⟨rfl, rfl⟩ := target_ok ran₂
      exact finished last
    dsimp only at ran
    split at ran
    · next boolean =>
      rw [boolean] at ran
      exact ⟨_, _, .truth boolean, closing ran⟩
    · obtain ⟨y, s₂, ran₂, ran⟩ := run_bind.mp ran
      exact ⟨_, _, .test ran₂, closing ran⟩
  | switch c cases d =>
    dsimp only [term] at ran
    split at ran
    · cases ran
    · obtain ⟨lowered, s₁, ran₁, rest⟩ := run_bind.mp ran
      obtain ⟨rfl, targets⟩ := run_mapM (fun done _ ys t => t = s ∧ ys = done.map fun k =>
          (intConst (regType f c) (Ir.Value.ofInt (regType f c) k.value.toInt).bits, nameOf k.target))
        ⟨rfl, rfl⟩ (by
          rintro done k _ ys t y t' ⟨rfl, known⟩ step
          obtain ⟨_, _, ran₂, done⟩ := run_bind.mp step
          obtain ⟨rfl, rfl⟩ := target_ok ran₂
          obtain ⟨rfl, rfl⟩ := run_pure.mp done
          exact ⟨rfl, by simp [known]⟩) ran₁
      obtain ⟨x, s₂, ran₂, rest⟩ := run_bind.mp rest
      rw [use_eq] at ran₂
      cases ran₂
      obtain ⟨_, _, ran₃, last⟩ := run_bind.mp rest
      obtain ⟨rfl, rfl⟩ := target_ok ran₃
      subst targets
      exact ⟨_, _, .switch, finished last⟩
  | ret r? =>
    cases r? with
    | none => exact ⟨_, _, .retVoid (.inl rfl), finished ran⟩
    | some r =>
      dsimp only [term] at ran
      split at ran
      · next void => exact ⟨_, _, .retVoid (.inr void), finished ran⟩
      · next value =>
        obtain ⟨x, s₁, ran₁, ran⟩ := run_bind.mp ran
        rw [use_eq] at ran₁
        cases ran₁
        exact ⟨_, _, .ret value, finished ran⟩
  | missing => exact ⟨_, _, .unreachable (.inl rfl), finished ran⟩
  | unreachable => exact ⟨_, _, .unreachable (.inr rfl), finished ran⟩

/-- Lowering a terminator closes the current block, with the edges of the terminator. -/
theorem term_ok {f : Ir.Function} {t : Ir.Term} {s s' : State} {u : Unit}
    (ran : term f t s = .ok (u, s')) : ∃ m T, s.Quiet m ∧
      T.targets = (loweredSuccessors f t).map nameOf ∧ terminate m.current T m = .ok ((), s') := by
  obtain ⟨m, T, ending, closed⟩ := term_ending ran
  refine ⟨m, T, ?_, ?_, closed⟩
  · cases ending with
    | test ran => exact icmp_quietly _ _ _ _ _ _ ran
    | _ => exact .refl _
  · cases ending with
    | switch => simp [Term.targets, loweredSuccessors, Function.comp_def]
    | unreachable never => rcases never with rfl | rfl <;> rfl
    | _ => rfl

end TieredEngine.Ship.Lowering
