import TieredEngine.Proofs.Ir.Checked
import TieredEngine.Proofs.Native.X64.StackSafety

/-!
The generator decides on every function: it makes code or refuses the function, and neither crashes
nor meets a label that is bound nowhere. The generator looks up operands, parameter registers and
blocks without asking whether they are there; what it looks up has been counted by the structural
check, by the typing check or by its own check of the signature. A jump leads to a block that is
reached, whose code is there, or to copies that are made with the block that is left, so an assembler
with labels for all of them comes to an end with the same bytes.
-/
namespace TieredEngine.Native.X64.Baseline
open TieredEngine TieredEngine.Ir

/-- There is a result, or the function is refused, and not for a label. -/
def Decided {α : Type} (x : Lower α) : Prop :=
  (∃ a, x = .ok a) ∨ ∃ r : Refusal, r ≠ .unboundLabel ∧ x = refuse r

namespace Decided

variable {α β : Type}

theorem ok (a : α) : Decided (.ok a : Lower α) := .inl ⟨a, rfl⟩

theorem refuse {r : Refusal} (other : r ≠ .unboundLabel) :
    Decided (Baseline.refuse r : Lower α) := .inr ⟨r, other, rfl⟩

theorem bind {x : Lower α} {k : α → Lower β} (first : Decided x)
    (rest : ∀ a, x = .ok a → Decided (k a)) : Decided (x >>= k) := by
  rcases first with ⟨a, rfl⟩ | ⟨r, other, rfl⟩
  · exact rest a rfl
  · exact .refuse other

theorem ite {p : Prop} [Decidable p] {x y : Lower α} (yes : p → Decided x) (no : ¬ p → Decided y) :
    Decided (if p then x else y) := by
  split
  · next h => exact yes h
  · next h => exact no h

/-- A test that refuses, and what is done when it does not. -/
theorem guarded {p : Prop} [Decidable p] {r : Refusal} {k : Unit → Lower α} (other : r ≠ .unboundLabel)
    (rest : ¬ p → Decided (k ())) : Decided (if p then Baseline.refuse r >>= k else k ()) :=
  .ite (fun _ => .refuse other) rest

theorem lift {x : Except Crash α} {a : α} (given : x = .ok a) : Decided (Crash.lift x : Lower α) :=
  .inl ⟨a, Crash.lift_eq_ok.mpr given⟩

theorem mapM {g : α → Lower β} {xs : List α} (each : ∀ x ∈ xs, Decided (g x)) :
    Decided (xs.mapM g) := by
  induction xs with
  | nil => exact .ok []
  | cons x xs ih =>
    rw [List.mapM_cons]
    refine (each x (by simp)).bind fun y _ => ?_
    exact (ih fun z member => each z (by simp [member])).bind fun ys _ => .ok (y :: ys)

theorem forM {g : α → Lower Unit} {xs : List α} (each : ∀ x ∈ xs, Decided (g x)) :
    Decided (xs.forM g) := by
  induction xs with
  | nil => exact .ok ()
  | cons x xs ih =>
    exact (each x (by simp)).bind fun _ _ => ih fun z member => each z (by simp [member])

end Decided

section Check

variable {f : Function}

theorem checkInst_decided (i : Inst) : Decided (checkInst i) := by
  unfold checkInst
  refine .ite (fun _ => .refuse (by simp)) fun _ => ?_
  split
  · exact .refuse (by simp)
  · exact .refuse (by simp)
  · exact .ite (fun _ => .refuse (by simp)) fun _ => .ok ()
  · exact .refuse (by simp)
  · exact .refuse (by simp)
  · exact .refuse (by simp)
  · exact .refuse (by simp)
  · exact .ok ()

theorem checkBlock_decided (b : Block) : Decided (checkBlock b) :=
  (Decided.forM fun i _ => checkInst_decided i).bind fun _ _ =>
    .ite (fun _ => .refuse (by simp)) fun _ => .ok ()

theorem check_decided (numbered : f.isExternal = false → f.WellNumbered) : Decided (check f) := by
  unfold check
  refine .guarded (by simp) fun body => .guarded (by simp) fun _ => ?_
  obtain ⟨blocks, all⟩ := (numbered (by simpa using body)).allBlocks
  obtain ⟨errors, checked⟩ := Function.typingErrors_ok numbered
  refine (Decided.lift all).bind fun _ _ => .guarded (by simp) fun _ => .guarded (by simp) fun _ => ?_
  dsimp only
  split
  · exact .refuse (by simp)
  · refine (Decided.forM fun b _ => checkBlock_decided b).bind fun _ _ => ?_
    exact (Decided.lift checked).bind fun _ _ => .ite (fun _ => .refuse (by simp)) fun _ => .ok ()

end Check

section Instructions

variable {f : Function} {i : Inst}

theorem argSlot_decided {n : Nat} (there : n < i.args.length) : Decided (argSlot i n) :=
  .inl ⟨_, argSlot_eq_ok.mpr ⟨_, List.getElem?_eq_getElem there, rfl⟩⟩

theorem binaryCode_decided (op : Op) (t : Ty) : Decided (binaryCode op t) := by
  unfold binaryCode
  split
  all_goals first
    | exact .ok _
    | exact .refuse (by simp)

/-- An instruction with as many operands as its operation takes. -/
theorem valueCode_decided (count : ∀ n, Typing.arity? i.op = some n → i.args.length = n) :
    Decided (valueCode i) := by
  have one : Typing.arity? i.op = some 1 → Decided (argSlot i 0) := fun arity =>
    argSlot_decided (by simp [count 1 arity])
  unfold valueCode
  split
  · exact .ok _
  · exact .ok _
  · next op => exact (one (by simp [op, Typing.arity?])).bind fun _ _ => .ok _
  · next op => exact (one (by simp [op, Typing.arity?, Op.isUnary])).bind fun _ _ => .ok _
  · next op => exact (one (by simp [op, Typing.arity?, Op.isUnary])).bind fun _ _ => .ok _
  · next op => exact (one (by simp [op, Typing.arity?])).bind fun _ _ => .ok _
  · have two : i.op.isBinary = true ∨ i.op.isCompare = true →
        Decided (argSlot i 0) ∧ Decided (argSlot i 1) := by
      intro kind
      have length : i.args.length = 2 :=
        count 2 (kind.elim Typing.arity?_binary Typing.arity?_compare)
      exact ⟨argSlot_decided (by omega), argSlot_decided (by omega)⟩
    refine .ite (fun binary => ?_) fun _ => ?_
    · obtain ⟨left, right⟩ := two (.inl binary)
      refine left.bind fun _ _ => right.bind fun _ _ => ?_
      exact (binaryCode_decided _ _).bind fun _ _ => .ok _
    · split
      · next c known =>
        have compares : i.op.isCompare = true := by
          revert known
          cases i.op <;> simp [condFor?, Op.isCompare]
        obtain ⟨left, right⟩ := two (.inr compares)
        exact left.bind fun _ _ => right.bind fun _ _ => .ok _
      · exact .refuse (by simp)

theorem instCode_decided (typed : i.WellTyped f) : Decided (instCode i) := by
  obtain ⟨types, has, takes⟩ := typed
  have count : ∀ n, Typing.arity? i.op = some n → i.args.length = n := fun n arity =>
    has.length_eq.trans (Typing.takes_length takes arity)
  unfold instCode
  refine .ite (fun op => ?_) fun _ => ?_
  · have length : i.args.length = 3 := count 3 (by simp [op, Typing.arity?])
    refine (argSlot_decided (by omega)).bind fun _ _ => ?_
    refine (argSlot_decided (by omega)).bind fun _ _ => ?_
    exact (argSlot_decided (by omega)).bind fun _ _ => .ok _
  · exact (valueCode_decided count).bind fun _ _ => .ok _

end Instructions

section Terminators

variable {f : Function} {here : BlockId} {b : Block} {α β γ : Type}

/-- Lowering part of a terminator is decided, whatever edges were collected before. -/
def Settled (x : Branching α) : Prop := ∀ edges, Decided (x edges)

theorem Settled.pure (a : α) : Settled (Pure.pure a : Branching α) := fun _ => .ok _

theorem Settled.bind {x : Branching α} {k : α → Branching β} (first : Settled x)
    (rest : ∀ a, Settled (k a)) : Settled (x >>= k) :=
  fun edges => (first edges).bind fun p _ => rest p.1 p.2

theorem Settled.mapM {g : γ → Branching α} (each : ∀ c, Settled (g c)) (cs : List γ) :
    Settled (cs.mapM g) := by
  induction cs with
  | nil => exact .pure []
  | cons c cs ih =>
    rw [List.mapM_cons]
    exact (each c).bind fun x => ih.bind fun xs => .pure (x :: xs)

theorem branchTo_settled (succ : BlockId) : Settled (branchTo f here b succ) := by
  intro edges
  unfold branchTo
  cases f.block? succ with
  | none => exact .refuse (r := .missingBlock succ) (by simp)
  | some target =>
    dsimp only
    split <;> exact .ok _

theorem caseCode_settled (t : Ty) (c : SwitchCase) : Settled (caseCode f here b t c) :=
  (branchTo_settled c.target).bind fun _ => .pure _

theorem termCode_settled : Settled (termCode f here b) := by
  unfold termCode
  cases b.term with
  | missing => exact fun _ => .refuse (r := .noTerminator b.id) (by simp)
  | br succ => exact (branchTo_settled succ).bind fun _ => .pure _
  | condBr cond yes no =>
    exact (branchTo_settled yes).bind fun _ => (branchTo_settled no).bind fun _ => .pure _
  | switch cond cases default =>
    exact (Settled.mapM (caseCode_settled _) cases).bind fun _ =>
      (branchTo_settled default).bind fun _ => .pure _
  | ret value => exact .pure _
  | unreachable => exact .pure _

theorem edgeCode_decided (e : Edge) : Decided (edgeCode f e) := by
  unfold edgeCode
  dsimp only
  refine Decided.bind (Decided.mapM fun q _ => ?_) fun _ _ => Decided.ok _
  cases q.2.valueFor? e.source with
  | none => exact .refuse (by simp)
  | some r => exact .ok _

end Terminators

section Whole

variable {f : Function}

theorem blockCode_decided {here : BlockId} {b : Block} (found : f.block? here = some b)
    (typed : ∀ i ∈ b.insts, i.WellTyped f) : Decided (blockCode f here) := by
  unfold blockCode
  refine (Decided.lift (Crash.deref_eq_ok.mpr found)).bind fun c same => ?_
  cases found.symm.trans (Crash.deref_eq_ok.mp (Crash.lift_eq_ok.mp same))
  refine (Decided.mapM fun i member => instCode_decided (typed i member)).bind fun _ _ => ?_
  refine (termCode_settled []).bind fun _ _ => ?_
  exact (Decided.mapM fun e _ => edgeCode_decided e).bind fun _ _ => .ok _

theorem entryCode_decided (frame : Nat) (count : f.params.length = f.sig.params.length)
    (few : f.sig.params.length ≤ X64.Reg.arguments.length) : Decided (entryCode f frame) := by
  unfold entryCode
  refine (Decided.mapM fun q member => ?_).bind fun _ _ => .ok _
  obtain ⟨n, bound, rfl⟩ := List.mem_mapIdx.mp member
  have argument : ∃ r, Crash.index X64.Reg.arguments n = .ok r :=
    ⟨_, Crash.index_eq_ok.mpr (List.getElem?_eq_getElem (by omega))⟩
  have type : ∃ t, Crash.index f.sig.params n = .ok t :=
    ⟨_, Crash.index_eq_ok.mpr (List.getElem?_eq_getElem (by omega))⟩
  obtain ⟨_, argument⟩ := argument
  obtain ⟨_, type⟩ := type
  show Decided (paramCode f n f.params[n])
  exact (Decided.lift argument).bind fun _ _ => (Decided.lift type).bind fun _ _ => .ok _

theorem lines_decided {m : Module} (formed : f.WellFormed m)
    (few : f.sig.params.length ≤ X64.Reg.arguments.length) (typed : f.WellTyped) :
    Decided (lines f) := by
  obtain ⟨blocks, all⟩ := formed.numbered.allBlocks
  obtain ⟨order, ordered, -, reached⟩ := Function.reversePostorder_ok formed.numbered
  unfold lines
  refine (Decided.lift all).bind fun _ _ => ?_
  refine (entryCode_decided _ formed.params few).bind fun _ _ => ?_
  refine (Decided.lift ordered).bind fun order' same => ?_
  cases ordered.symm.trans (Crash.lift_eq_ok.mp same)
  refine (Decided.mapM fun here member => ?_).bind fun _ _ => .ok _
  have live := (reached here).mp member
  obtain ⟨b, found⟩ := live.present formed.numbered
  obtain ⟨prev, written, path⟩ := live.arrives
  exact blockCode_decided found (typed.blocks prev here written b path found).insts

end Whole

section Labels

variable {f : Function}

/-- A terminator jumps where its branches lead. -/
theorem leads_of_target {edges : List Edge} {b : Block} {code : Code} {t : Term}
    (shape : TermShape f edges b code t) {i : Instr Mark} (member : i ∈ code) {l : Mark}
    (named : l ∈ i.target?) : ∃ succ ∈ t.successors, Leads f edges b l succ := by
  cases t with
  | missing => cases shape
  | br succ =>
    obtain ⟨m, leads, rfl⟩ := shape
    cases List.mem_singleton.mp member
    cases named
    exact ⟨succ, by simp [Term.successors], leads⟩
  | condBr cond yes no =>
    obtain ⟨m, m', leads, leads', rfl⟩ := shape
    simp only [List.mem_cons, List.not_mem_nil, or_false] at member
    rcases member with rfl | rfl | rfl | rfl
    · cases named
    · cases named
    · cases named
      exact ⟨yes, by simp [Term.successors], leads⟩
    · cases named
      exact ⟨no, by simp [Term.successors], leads'⟩
  | switch cond cases default =>
    obtain ⟨codes, m, tested, leads, rfl⟩ := shape
    rcases List.mem_cons.mp member with rfl | member
    · cases named
    rcases List.mem_append.mp member with member | member
    · obtain ⟨code, listed, inside⟩ := List.mem_flatten.mp member
      obtain ⟨c, own, m', leads', rfl⟩ := forall₂_partner tested.flip listed
      simp only [List.mem_cons, List.not_mem_nil, or_false] at inside
      rcases inside with rfl | rfl | rfl
      · cases named
      · cases named
      · cases named
        exact ⟨c.target, List.mem_append_left _ (List.mem_map_of_mem own), leads'⟩
    · cases List.mem_singleton.mp member
      cases named
      exact ⟨default, by simp [Term.successors], leads⟩
  | ret value =>
    cases value <;>
    · cases shape
      simp only [List.mem_cons, List.not_mem_nil, or_false] at member
      rcases member with rfl | rfl | rfl | rfl <;> cases named
  | unreachable =>
    cases shape
    cases List.mem_singleton.mp member
    cases named

/-- The code of a block jumps to blocks that it branches to, and to labels of its own. -/
theorem target_blockCode {here : BlockId} {ls : List (Line Mark)} (made : blockCode f here = .ok ls)
    {i : Instr Mark} (member : .instr i ∈ ls) {l : Mark} (named : l ∈ i.target?) :
    .bind l ∈ ls ∨ ∃ b succ, f.block? here = some b ∧ succ ∈ b.term.successors ∧
      l = .block succ := by
  obtain ⟨b, codes, term, edges, copies, found, coded, shape, _, leave, copied, rfl⟩ :=
    blockCode_eq_ok made
  rcases List.mem_cons.mp member with other | member
  · cases other
  rcases List.mem_append.mp member with member | member
  · obtain ⟨_, member, ⟨⟩⟩ := List.mem_map.mp member
    rcases List.mem_append.mp member with member | member
    · obtain ⟨code, listed, inside⟩ := List.mem_flatten.mp member
      obtain ⟨j, _, made⟩ := forall₂_partner coded.flip listed
      rw [(plain_instCode made i inside).1] at named
      cases named
    · obtain ⟨succ, branch, target, -, ⟨-, same⟩ | collected⟩ := leads_of_target shape member named
      · exact .inr ⟨b, succ, found, branch, same⟩
      · obtain ⟨copy, listed, made⟩ := forall₂_partner copied collected
        obtain ⟨_, _, rfl⟩ := edgeCode_eq_ok made
        refine .inl (List.mem_cons_of_mem _ (List.mem_append_right _ ?_))
        exact List.mem_flatten.mpr ⟨_, listed, by simp⟩
  · obtain ⟨copy, listed, inside⟩ := List.mem_flatten.mp member
    obtain ⟨e, collected, made⟩ := forall₂_partner copied.flip listed
    obtain ⟨code, copies, rfl⟩ := edgeCode_eq_ok made
    rcases List.mem_cons.mp inside with other | inside
    · cases other
    obtain ⟨_, inside, ⟨⟩⟩ := List.mem_map.mp inside
    rcases List.mem_append.mp inside with inside | inside
    · rw [(plain_copies copies i inside).1] at named
      cases named
    · cases List.mem_singleton.mp inside
      cases named
      exact .inr ⟨b, e.target, found, (leave e collected).2, rfl⟩

/-- Every label that is jumped to is bound. -/
theorem bound_lines (numbered : f.WellNumbered) {ls : List (Line Mark)} (made : lines f = .ok ls)
    {i : Instr Mark} (member : .instr i ∈ ls) {l : Mark} (named : l ∈ i.target?) : .bind l ∈ ls := by
  obtain ⟨_, entry, order, bodies, _, entered, ordered, coded, rfl⟩ := lines_eq_ok made
  obtain ⟨order', ordered', -, reached⟩ := Function.reversePostorder_ok numbered
  cases ordered.symm.trans ordered'
  rcases List.mem_append.mp member with member | member
  · obtain ⟨_, member, ⟨⟩⟩ := List.mem_map.mp member
    rw [(plain_entryCode entered i member).1] at named
    cases named
  · obtain ⟨body, listed, inside⟩ := List.mem_flatten.mp member
    obtain ⟨here, live, made⟩ := forall₂_partner coded.flip listed
    refine List.mem_append_right _ (List.mem_flatten.mpr ?_)
    rcases target_blockCode made inside named with own | ⟨b, succ, found, branch, rfl⟩
    · exact ⟨body, listed, own⟩
    · -- the block that is branched to is reached too, and its code begins with its label
      have further := (reached succ).mpr (((reached here).mp live).step found branch)
      obtain ⟨body', listed', made'⟩ := forall₂_partner coded further
      obtain ⟨_, _, _, _, _, _, _, _, _, _, _, rfl⟩ := blockCode_eq_ok made'
      exact ⟨_, listed', List.mem_cons_self⟩

end Labels

/-- Where a jump to a label goes, if the label is bound. -/
def destination (ls : List (Line Mark)) (l : Mark) : Lower Nat :=
  match Assembly.boundAt? l 0 ls with
  | some n => .ok n
  | none => refuse .unboundLabel

theorem machineCode_eq (f : Function) :
    machineCode f = lines f >>= fun ls => Assembly.encodeFrom (destination ls) 0 ls := rfl

section Closed

variable {ls : List (Line Mark)} (closed : ∀ i, .instr i ∈ ls → ∀ l ∈ i.target?, .bind l ∈ ls)
include closed

/-- Bytes are made of lines that bind every label they jump to. -/
theorem encodeFrom_closed : ∃ code, Assembly.encodeFrom (destination ls) 0 ls = .ok code := by
  cases encoded : Assembly.encodeFrom (destination ls) 0 ls with
  | ok code => exact ⟨code, rfl⟩
  | error e =>
    obtain ⟨i, member, l, named, absent⟩ := Assembly.encodeFrom_eq_error encoded
    have bind := closed i (Assembly.mem_instrs.mp member) l named
    unfold destination at absent
    cases placed : Assembly.boundAt? l 0 ls with
    | none => exact absurd (Assembly.mem_labels_iff.mpr bind) (Assembly.boundAt?_eq_none.mp placed)
    | some n =>
      rw [placed] at absent
      cases absent

/-- An assembler finishes the lines with the same bytes, whatever numbers below the number of its
labels are given to them, different ones to different labels. -/
theorem finish_numbered {code : List UInt8}
    (encoded : Assembly.encodeFrom (destination ls) 0 ls = .ok code) {number : Mark → Nat}
    {labels : Nat} (made : ∀ l, .bind l ∈ ls → number l < labels)
    (apart : ∀ l l', .bind l ∈ ls → .bind l' ∈ ls → number l = number l' → l = l') :
    ({ lines := ls.map (·.relabel number), labels } : Assembler).finish = .ok code := by
  refine Assembly.encodeFrom_relabel encoded fun i member l named n placed => ?_
  have bind := closed i member l named
  have stands : Assembly.boundAt? (number l) 0 (ls.map (·.relabel number)) =
      Assembly.boundAt? l 0 ls :=
    Assembly.boundAt?_relabel (fun l' bind' same => apart l' l bind' bind same) 0
  simp only [if_pos (made l bind), stands]
  unfold destination at placed
  cases there : Assembly.boundAt? l 0 ls with
  | none =>
    rw [there] at placed
    cases placed
  | some k =>
    rw [there] at placed
    cases placed
    rfl

end Closed

theorem machineCode_decided {m : Module} {f : Function} (formed : f.WellFormed m)
    (few : f.sig.params.length ≤ X64.Reg.arguments.length) (typed : f.WellTyped) :
    Decided (machineCode f) := by
  rw [machineCode_eq]
  refine (lines_decided formed few typed).bind fun ls made => .inl (encodeFrom_closed ?_)
  exact fun i member l named => bound_lines formed.numbered made member named

/-- Code is made of a function, or the function is refused for a reason other than a label. -/
theorem compileOrRefuse_decided {m : Module} {f : Function}
    (formed : f.isExternal = false → f.WellFormed m) : Decided (compileOrRefuse f) := by
  refine (check_decided fun body => (formed body).numbered).bind fun _ passed => ?_
  have checked := checked_of_check passed
  have formed := formed checked.internal
  have typed := Function.wellTyped_of_typed formed.numbered checked.internal checked.typed
  refine Decided.bind ?_ fun _ _ =>
    (machineCode_decided formed checked.few typed).bind fun _ _ => .ok _
  cases Convention.ofSignature f.sig with
  | ok c => exact .ok c
  | error e => exact .refuse (r := .convention e) (by simp)

/-- How the generator ends on a function: with code, or with a refusal for a reason other than a
label. Code binds the labels it jumps to, so that an assembler with labels for them finishes it, and
keeps to its frame. -/
inductive Answers (f : Function) : Except (Fault CodegenError) CompiledCode → Prop where
  | made {c : CompiledCode} {blocks : List Block} {ls : List (Line Mark)}
      (all : f.allBlocks = .ok blocks) (lined : lines f = .ok ls)
      (closed : ∀ i, .instr i ∈ ls → ∀ l ∈ i.target?, .bind l ∈ ls)
      (finished : ∀ (number : Mark → Nat) (labels : Nat), (∀ l, .bind l ∈ ls → number l < labels) →
        (∀ l l', .bind l ∈ ls → .bind l' ∈ ls → number l = number l' → l = l') →
        ({ lines := ls.map (·.relabel number), labels } : Assembler).finish = .ok c.code)
      (frame : SafeFrame f blocks ls) : Answers f (.ok c)
  | refused {r : Refusal} (refused : compileOrRefuse f = refuse r) (other : r ≠ .unboundLabel) :
      Answers f (.error (.error ⟨backendName, f.name, r.text⟩))

theorem compile_answers {m : Module} {f : Function}
    (formed : f.isExternal = false → f.WellFormed m) : Answers f (compile f) := by
  rcases compileOrRefuse_decided formed with ⟨c, made⟩ | ⟨r, other, refused⟩
  · have made : compile f = .ok c := mapError_eq_ok.mpr made
    have accepts := accepts_of_compile made
    have formed := formed accepts.internal
    obtain ⟨blocks, all, -⟩ := accepts.frame
    obtain ⟨ls, lined, encoded⟩ := bind_eq_ok.mp ((machineCode_eq f).symm.trans accepts.code)
    have closed : ∀ i, .instr i ∈ ls → ∀ l ∈ i.target?, .bind l ∈ ls := fun i member l named =>
      bound_lines formed.numbered lined member named
    have safe := (accepts.safeFrame formed.numbered formed.declared all lined).2
    rw [made]
    exact .made all lined closed (fun _ _ made apart => finish_numbered closed encoded made apart) safe
  · have named : compile f = .error (.error ⟨backendName, f.name, r.text⟩) := by
      simp [compile, refused, refuse, Except.mapError]
    rw [named]
    exact .refused refused other

end TieredEngine.Native.X64.Baseline
