import TieredEngine.Proofs.Ship.Lowering.Stepping

/-!
A call of a lowered function goes as evaluation of the source does, block by block. What is known in a
block is what has been written whenever control comes there, together with what the block itself has
written; where a block is left, that is in the registers of the frame and among the results of the running
call alike. Phis of the next block read it in both, so that both stand behind the phis with the same again.
-/
namespace TieredEngine.Ship.Lowering
open TieredEngine TieredEngine.Llvm

/-- A register that has been written whenever control comes to a block. -/
def Sure (f : Ir.Function) (id : Ir.BlockId) (r : Ir.Reg) : Prop :=
  ∀ prev written, f.Arrives prev id written → r ∈ written

/-- It has been written before, or is written in the block that control comes from. -/
theorem Sure.of_successor {f : Ir.Function} {id target : Ir.BlockId} {b : Ir.Block} {r : Ir.Reg}
    (sure : Sure f target r) (found : f.block? id = some b) (branch : target ∈ b.term.successors) :
    Sure f id r ∨ r ∈ b.writes := by
  by_cases own : r ∈ b.writes
  · exact .inr own
  · exact .inl fun prev written path =>
      (List.mem_append.mp (sure _ _ (path.step found branch))).resolve_right own

/-- Functions that are checked, assign each register once, and only have operations on words. -/
structure Source (f : Ir.Function) : Prop where
  numbered : f.WellNumbered
  grounded : f.Grounded
  single : f.SingleAssignment
  typed : f.WellTyped
  plain : ∀ id b, f.block? id = some b → ∀ i ∈ b.insts, Plain f i
  preds : ∀ id b, f.block? id = some b → ∀ phi ∈ b.phis, (phi.incoming.map (·.pred)).Nodup
  words : ∀ r u, f.regType? r = some u → u.isFloat = false

/-- A function whose body is lowered, and what became of its blocks. -/
structure Laid (m : Ir.Module) (l : Llvm.Module) (f : Ir.Function) (g : Llvm.Func) (hasStart : Bool)
    (exits : List (Nat × BlockName)) (ps : List Placement) (s t : State) : Prop where
  source : Source f
  ordered : f.reversePostorder = .ok (ps.map (·.id))
  found : ∀ p ∈ ps, f.block? p.id = some p.block
  assigns : Ordered f ps
  sites : ∀ before p after, ps = before ++ p :: after →
    Nonempty (Site m.functions.size m.globals.size f hasStart exits s t before p after)
  names : (g.blocks.map (·.name)).Nodup
  distinct : (exits.map (·.2)).Nodup
  blocks : g.blocks = t.blocks.toList
  final : t.Final l g.blocks
  stock : s.Stock
  ret : g.ret = returnType f.sig.ret
  once : f.params.Nodup
  params : ∀ (i : Nat) r, f.params[i]? = some r → ∃ u, f.sig.params[i]? = some u ∧
    s.values[r.num]? = some (some (.param i (returnType u)))
  front : ∃ b rest, g.blocks = b :: rest ∧
    (b.name = nameOf f.entry ∨ b.insts = [] ∧ b.term = some (.br (nameOf f.entry)))

section

variable {σ κ ε : Type} {m : Ir.Module} {l : Llvm.Module} {out : Outside σ}
  {R : List Eval.HostCall → σ → Prop} {f : Ir.Function} {g : Llvm.Func} {hasStart : Bool}
  {exits : List (Nat × BlockName)} {ps : List Placement} {s t : State} {a b : Activation}
  {fr fr' : Eval.Frame} {mem : Memory}

/-- The inputs of a phi from where a block is left are all the one that the phi has for the block. -/
theorem filter_inputsFor {exit : BlockName} {p : Placement} (distinct : (exits.map (·.2)).Nodup)
    (found : exits.find? (·.1 == p.id.num) = some (p.id.num, exit)) (there : f.block? p.id = some p.block)
    {w : WaitingPhi} {incoming : List Ir.Incoming} (once : (incoming.map (·.pred)).Nodup) {r : Ir.Reg}
    (value : (incoming.find? (·.pred == p.id)).map (·.value) = some r) :
    (incoming.flatMap (inputsFor f exits w t)).filter (·.2 == exit) =
      List.replicate (edgeCount f p.block.term w.block) (t.valueOf r w.phi.ty, exit) := by
  have others : ∀ i : Ir.Incoming, i.pred ≠ p.id → (inputsFor f exits w t i).filter (·.2 == exit) = [] := by
    refine fun i other => List.filter_eq_nil_iff.mpr fun input member same => other ?_
    unfold inputsFor at member
    split at member
    · next n exit' c left present =>
      obtain ⟨_, rfl⟩ := List.mem_replicate.mp member
      have one := List.mem_of_find?_eq_some left
      have two := List.mem_of_find?_eq_some found
      have key : n = i.pred.num := by simpa using List.find?_some left
      obtain rfl : exit' = exit := by simpa using same
      cases List.inj_on_of_nodup_map distinct one two rfl
      exact Ir.BlockId.num_inj.mp key.symm
    · cases member
  induction incoming with
  | nil => cases value
  | cons i incoming ih =>
    obtain ⟨apart, once⟩ := List.nodup_cons.mp once
    rw [List.flatMap_cons, List.filter_append]
    by_cases own : i.pred = p.id
    · rw [List.find?_cons_of_pos (by simpa using own)] at value
      cases value
      have none : (incoming.flatMap (inputsFor f exits w t)).filter (·.2 == exit) = [] := by
        rw [List.filter_flatMap, List.flatMap_eq_nil_iff]
        exact fun j member => others j fun same =>
          apart (List.mem_map.mpr ⟨j, member, same.trans own.symm⟩)
      rw [none, List.append_nil, inputsFor, own, found, there]
      exact List.filter_eq_self.mpr fun input member => by simp [List.eq_of_mem_replicate member]
    · rw [List.find?_cons_of_neg (by simpa using own)] at value
      rw [others i own, List.nil_append, ih once value]

theorem inputFrom?_of_replicate {inputs : List (Val × BlockName)} {n : BlockName} {x : Val} {many : Nat}
    (some : many ≠ 0) (all : inputs.filter (·.2 == n) = List.replicate many (x, n)) :
    inputFrom? inputs n = .some x := by
  obtain ⟨more, rfl⟩ := Nat.exists_eq_succ_of_ne_zero some
  rw [inputFrom?, all, List.replicate_succ]
  exact if_pos (by simp)

namespace Laid

variable {before after : List Placement} {p : Placement}
  (laid : Laid m l f g hasStart exits ps s t) (split : ps = before ++ p :: after)
  (site : Site m.functions.size m.globals.size f hasStart exits s t before p after)
include laid split

omit laid in
theorem member : p ∈ ps := by simp [split]

omit laid in
theorem order : ps.map (·.id) = before.map (·.id) ++ p.id :: after.map (·.id) := by simp [split]

theorem settled (first : List Ir.Inst) {last : List Ir.Inst} (place : p.block.insts = first ++ last)
    {r : Ir.Reg} (known : Sure f p.id r ∨ r ∈ p.block.writesUpTo first) :
    (∀ i ∈ last, i.target? ≠ some r) ∧ ∀ q ∈ after, ∀ i ∈ q.block.insts, i.target? ≠ some r := by
  obtain ⟨source, ordered, found, _⟩ := id laid
  obtain ⟨here, later⟩ := Ir.Function.not_written_later source.numbered source.grounded source.single ordered
    (order split) (found p (member split)) place fun prev written path =>
      List.mem_append.mpr (known.imp_left fun sure => sure prev written path)
  exact ⟨here, fun q listed =>
    later q.id (List.mem_map_of_mem listed) q.block (found q (by simp [split, listed]))⟩

omit split in
theorem arrives (listed : p ∈ ps) : ∃ prev written, f.Arrives prev p.id written := by
  obtain ⟨_, walked, _, reached⟩ := Ir.Function.reversePostorder_ok laid.source.numbered
  cases laid.ordered.symm.trans walked
  exact ((reached p.id).mp (List.mem_map_of_mem listed)).arrives

omit split in
theorem listed {prev : Option Ir.BlockId} {id : Ir.BlockId} {written : List Ir.Reg}
    (path : f.Arrives prev id written) : ∃ q ∈ ps, q.id = id := by
  obtain ⟨_, walked, _, reached⟩ := Ir.Function.reversePostorder_ok laid.source.numbered
  cases laid.ordered.symm.trans walked
  exact List.mem_map.mp ((reached id).mpr path.reachable)

/-- What is known when a block is entered has its last value. -/
theorem value_start {r : Ir.Reg} (known : Sure f p.id r ∨ r ∈ p.dests) :
    t.values[r.num]? = site.start.values[r.num]? := by
  obtain ⟨here, later⟩ := laid.settled split [] rfl (known.imp_right (List.mem_append_left _))
  have frame := site.fills.frame ⟨_, site.block, rfl⟩
  rw [site.settled r later, frame.kept r here]

end Laid

/-- From where the instructions of a block are written on, lowering only closes the block. -/
theorem Site.closes {before after : List Placement} {p : Placement} {n k : Nat}
    (site : Site n k f hasStart exits s t before p after) :
    site.filled.Carries site.tested ∧ State.Works site.tested.current site.tested site.closed := by
  obtain ⟨written, _⟩ := insts_frame (s := { site.start with current := p.lowered })
    ⟨_, site.block, rfl⟩ site.fills.insts
  have carries := site.fills.ending.carries written.opens
  exact ⟨carries, (State.Works.terminate carries.opens site.fills.closed).1⟩

/-- A running call stands behind the phis of a block. -/
structure Site.Ready {before after : List Placement} {p : Placement}
    (site : Site m.functions.size m.globals.size f hasStart exits s t before p after) (g : Llvm.Func)
    (a : Activation) (fr : Eval.Frame) : Prop where
  stands : Stands g.blocks { site.start with current := p.lowered } a
  function : a.function = g
  mirrored : Mirrored site.start a fr fun r => Sure f p.id r ∨ r ∈ p.dests

/-- A running call has come to the end of the lowered block that a block of the source is left in. -/
structure AtEnd (f : Ir.Function) (g : Llvm.Func) (t : State) (p : Placement) (exit : BlockName)
    (a : Activation) (fr : Eval.Frame) : Prop where
  function : a.function = g
  name : a.block.name = exit
  values : ∀ r v, Sure f p.id r ∨ r ∈ p.block.writes → fr.reg? r = some v →
    ∃ x, t.values[r.num]? = some (some x) ∧ Holds a x v

namespace Laid

variable {before after : List Placement} {p : Placement}
  (laid : Laid m l f g hasStart exits ps s t) (split : ps = before ++ p :: after)
  (site : Site m.functions.size m.globals.size f hasStart exits s t before p after)
include laid

theorem final_filled : site.filled.Final l g.blocks ∧ site.tested.Final l g.blocks ∧
    site.closed.Final l g.blocks := by
  obtain ⟨carries, closes⟩ := site.closes
  have last := laid.final.extends site.final
  have tested := last.extends closes.toExtends
  exact ⟨tested.extends carries.toExtends, tested, last⟩

include split

/-- What is known when a block is left has its last value. -/
theorem value_filled {r : Ir.Reg} (known : Sure f p.id r ∨ r ∈ p.block.writes) :
    t.values[r.num]? = site.filled.values[r.num]? := by
  obtain ⟨_, later⟩ := laid.settled split _ (List.append_nil _).symm known
  obtain ⟨carries, closes⟩ := site.closes
  rw [site.settled r later, closes.values, carries.values]

section Turn

variable {prev : Option Ir.BlockId} {written : List Ir.Reg} (path : f.Arrives prev p.id written)
include path

/-- The instructions of a block are ahead. -/
theorem ahead (ready : site.Ready g a fr) (follows : fr.Follows f (written ++ p.dests)) (frame : fr.Typed f)
    {globals : Array Ir.Value} (typed : Eval.TypedGlobals m globals) :
    Ahead m l g.blocks f (fun r => Sure f p.id r ∨ r ∈ p.dests) (written ++ p.dests) p.block.insts
      { site.start with current := p.lowered } site.filled a fr globals := by
  have found := laid.found p (member split)
  have grounded := laid.source.grounded prev p.id written p.block path found
  refine ⟨site.fills.insts, ready.stands, (laid.final_filled site).1, site.size,
    laid.source.plain p.id p.block found,
    (laid.source.typed.blocks prev p.id written p.block path found).insts,
    fun is i js place r read => ?_, ?_, follows, frame, typed, ready.mirrored⟩
  · by_cases own : r ∈ p.block.writesUpTo is
    · exact (List.mem_append.mp own).imp_left .inr
    · refine .inl (.inl fun prev' written' path' => ?_)
      have reads := laid.source.grounded prev' p.id written' p.block path' found
      exact (List.mem_append.mp (reads.args is i js place r read)).resolve_right own
  · rintro r (sure | dest)
    · exact List.mem_append_left _ (sure prev written path)
    · exact List.mem_append_right _ dest

omit path in
/-- What the terminator of a block reads is known at the end. -/
theorem used {r : Ir.Reg} (reads : r ∈ p.block.term.uses) : Sure f p.id r ∨ r ∈ p.block.writes := by
  by_cases own : r ∈ p.block.writes
  · exact .inr own
  · refine .inl fun prev written path => ?_
    have grounded := laid.source.grounded prev p.id written p.block path (laid.found p (member split))
    exact (List.mem_append.mp (grounded.uses r reads)).resolve_right own

end Turn

section End

variable (stands : Stands g.blocks site.filled a) (function : a.function = g)
  (mirrored : Mirrored site.filled a fr fun r => Sure f p.id r ∨ r ∈ p.block.writes) (frame : fr.Typed f)
include stands function mirrored frame

/-- Where evaluation goes on, the running call comes to the end of the block, and control is sent on. -/
theorem leaves (out : Outside σ) (mem : Memory) {target : Ir.BlockId}
    (ended : fr.terminate p.block.term = .ok (.goto target)) :
    ∃ a', (∀ callers o, Leads l out (.step ⟨mem, a, callers, o⟩) (.step ⟨mem, a', callers, o⟩)) ∧
      AtEnd f g t p site.exit a' fr ∧ target ∈ loweredSuccessors f p.block.term ∧
      ∀ mem callers (o : σ), next l out ⟨mem, a', callers, o⟩ =
        (a'.goto? (nameOf target)).map fun b => .step ⟨mem, b, callers, o⟩ := by
  obtain ⟨_, tested, closed⟩ := laid.final_filled site
  obtain ⟨a', advances, sends, branch⟩ := site.fills.ending.sends frame mirrored
    (fun r reads => laid.used split reads) out mem stands tested ended
  obtain ⟨none, ends⟩ := advances.stands.terminate site.fills.closed closed
  obtain ⟨b, there, named⟩ := site.left
  refine ⟨a', advances.leads, ⟨advances.function.trans function, ?_, fun r v known held => ?_⟩, branch,
    fun mem callers o => ?_⟩
  · have here := advances.stands.here
    rw [laid.blocks, Array.getElem?_toList] at here
    cases here.symm.trans there
    exact named
  · obtain ⟨x, value, born, holds⟩ := mirrored r v known held
    exact ⟨x, (laid.value_filled split site known).trans value,
      fun some => (advances.operand? born).trans (holds some)⟩
  · simp only [next, none, ends, Option.bind_some]
    exact sends mem callers o

/-- Where evaluation returns, the result is given. -/
theorem gives (out : Outside σ) {v : Ir.Value} (ended : fr.terminate p.block.term = .ok (.done v)) :
    v.ty = f.sig.ret ∧ ∀ mem callers (o : σ),
      next l out ⟨mem, a, callers, o⟩ = some (give v.word? mem o callers) := by
  obtain ⟨_, _, closed⟩ := laid.final_filled site
  obtain ⟨same, type, gives⟩ := site.fills.ending.gives (σ := σ) frame mirrored
    (fun r reads => laid.used split reads) laid.source.words ended (by rw [function, laid.ret])
  obtain ⟨none, ends⟩ := StandsAt.terminate (same ▸ stands) site.fills.closed closed
  refine ⟨type, fun mem callers o => ?_⟩
  simp only [next, none, ends, Option.bind_some]
  exact gives mem callers o

end End

end Laid

/-- Phis of a block write what they read where control comes from, and nothing else. -/
theorem phis_written {q : Placement} {pred : Ir.BlockId} (sized : fr.Sized) (distinct : q.dests.Nodup)
    (applied : (fr.arrive q.id).applyPhis q.block (some pred) = .ok fr') :
    ∃ xs : List (Ir.Reg × Ir.Value), xs.map (·.1) = q.dests ∧
      (∀ (k : Nat) x, xs[k]? = some x → ∃ phi, q.block.phis[k]? = some phi ∧ x.1 = phi.dest ∧
        ∃ r, phi.valueFor? pred = some r ∧ fr.reg? r = some x.2) ∧
      (∀ x ∈ xs, fr'.reg? x.1 = some x.2) ∧ ∀ r, r ∉ q.dests → fr'.reg? r = fr.reg? r := by
  rw [Eval.Frame.applyPhis_eq] at applied
  obtain ⟨xs, read, written⟩ := bind_eq_ok.mp applied
  have inputs := Eval.Frame.phiInputs_ok read
  have count := inputs.length_eq
  have dests : xs.map (·.1) = q.dests := by
    rw [Placement.dests, ← List.forall₂_eq_eq_eq, List.forall₂_map_left_iff, List.forall₂_map_right_iff]
    exact inputs.flip.imp fun _ _ step => step.1
  obtain ⟨assigned, others⟩ :=
    Eval.Frame.reg?_setAll written (show (fr.arrive q.id).Sized from sized) (dests ▸ distinct)
  refine ⟨xs, dests, fun k x at_k => ?_, assigned, fun r other => others r (dests ▸ other)⟩
  obtain ⟨inside, rfl⟩ := List.getElem?_eq_some_iff.mp at_k
  exact ⟨_, List.getElem?_eq_getElem (count ▸ inside), inputs.get (count ▸ inside) inside⟩

/-- What is read for a phi stands for its value. -/
theorem phi?_of_operand {i : Llvm.Inst} {inputs : List (Val × BlockName)} {x : Val} {v : Ir.Value}
    (op : i.op = .phi (.int v.ty.width) inputs)
    (found : inputFrom? inputs a.block.name = some x) (there : a.operand? x = some v.word) :
    a.phi? i = some (i.id, v.word) := by
  have read : a.read? v.ty.width x = some v.word.bits := (Activation.operand?_eq_some.mp there).2
  unfold Activation.phi?
  rw [op]
  simp only [found, Option.bind_eq_bind, Option.bind_some, read]
  rfl

namespace Laid

variable {before after : List Placement} {p q : Placement} {exit : BlockName}
  (laid : Laid m l f g hasStart exits ps s t) (member : p ∈ ps) (split : ps = before ++ q :: after)
  (site : Site m.functions.size m.globals.size f hasStart exits s t before q after)
  (left : exits.find? (·.1 == p.id.num) = some (p.id.num, exit)) (atEnd : AtEnd f g t p exit a fr)
  (frame : fr.Typed f) (branch : q.id ∈ loweredSuccessors f p.block.term)
include laid member split left atEnd frame branch

/-- Phis of a block that control goes to read what the phis of the source read. -/
theorem reads_phi {k : Nat} {phi : Ir.Phi} (at_k : q.block.phis[k]? = some phi) {r : Ir.Reg} {v : Ir.Value}
    (value : phi.valueFor? p.id = some r) (held : fr.reg? r = some v) :
    v.ty = phi.ty ∧ v.ty.isIntLike = true ∧ ∃ b i, t.blocks[q.lowered]? = some b ∧ b.insts[k]? = some i ∧
      i.isPhi = true ∧ a.phi? i = some (site.first + k, v.word) := by
  have listed := List.mem_of_getElem? at_k
  have succeeds := successor_of_lowered branch
  have there := laid.found q (Laid.member split)
  obtain ⟨prev, written, path⟩ := laid.arrives member
  have onward := path.step (laid.found p member) succeeds
  obtain ⟨typed, typed'⟩ := (laid.source.typed.blocks _ _ _ _ onward there).phis phi listed
  have type : v.ty = phi.ty := by
    have known := frame.typed r v held
    rw [frame.holds.function, typed' p.id r rfl value] at known
    exact (Option.some.inj known).symm
  have known : Sure f p.id r ∨ r ∈ p.block.writes := by
    by_cases own : r ∈ p.block.writes
    · exact .inr own
    · refine .inl fun prev written path => ?_
      have onward := path.step (laid.found p member) succeeds
      obtain ⟨_, pred, r', same, value', read⟩ := (laid.source.grounded _ _ _ _ onward there).phis phi listed
      cases same
      cases value.symm.trans value'
      exact (List.mem_append.mp read).resolve_right own
  obtain ⟨x, last, holds⟩ := atEnd.values r v known held
  have some : v.ty ≠ .void := by
    intro void
    have types := site.types phi listed
    rw [← type, void] at types
    cases types
  have word := Ir.Ty.isIntLike_of_plain (laid.source.words _ _ typed) (type ▸ some)
  have own : t.valueOf r phi.ty = x := by rw [State.valueOf, last]; rfl
  -- the block has the phi at its place, with its number
  obtain ⟨b, i, at_b, at_i, op⟩ := site.inputs k phi at_k
  have ext := (site.fills.frame ⟨_, site.block, rfl⟩).toExtends.trans site.final
  obtain ⟨b', at_b', becomes⟩ := ext.blocks _ _ site.block
  cases at_b.symm.trans at_b'
  obtain ⟨i', at_i', id, _⟩ := becomes.insts k ⟨site.first + k, .phi (returnType phi.ty) []⟩ (by
    show (phiInsts site.first q.block.phis)[k]? = _
    rw [getElem?_phiInsts, at_k]
    rfl)
  cases at_i.symm.trans at_i'
  -- its input from there is the value at the end of the block that control comes from
  have inner : (q.id == f.entry && hasStart) = false := by
    refine Bool.and_eq_false_imp.mpr fun same => ?_
    rw [beq_iff_eq] at same
    obtain ⟨_, _, _, none, _⟩ := (laid.source.grounded _ _ _ _ .entry (same ▸ there)).phis phi listed
    cases none
  have edges : edgeCount f p.block.term q.id ≠ 0 := by
    rw [edgeCount_eq]
    exact Nat.pos_iff_ne_zero.mp (List.count_pos_iff.mpr branch)
  have found := inputFrom?_of_replicate edges (filter_inputsFor (t := t)
    (w := ⟨q.id, q.lowered, k, phi, returnType phi.ty⟩) laid.distinct left (laid.found p member)
    (laid.source.preds q.id q.block there phi listed) value)
  rw [inputsOf, inner, if_neg Bool.false_ne_true, List.nil_append] at op
  rw [returnType, valueType?_eq word, Option.getD_some, ← type] at op
  refine ⟨type, type ▸ word, b, i, at_b, at_i, by rw [Inst.isPhi, op], ?_⟩
  rw [phi?_of_operand op (by rw [atEnd.name]; exact found) (own ▸ holds some), id]

omit member left atEnd frame branch in
/-- What has been written whenever control comes to a block was written by blocks that are filled before. -/
theorem written_before {r : Ir.Reg} (sure : Sure f q.id r) (declared : f.declares r = true) :
    WrittenIn f before r := by
  refine ⟨declared, ?_⟩
  rcases Ir.Function.written_ahead laid.ordered (order split) sure with param | ⟨id, early, b, there, wrote⟩
  · exact .inl param
  · obtain ⟨p, listed, rfl⟩ := List.mem_map.mp early
    cases there.symm.trans (laid.found p (by simp [split, listed]))
    exact .inr ⟨p, listed, wrote⟩

/-- Control goes to a block, and its phis are computed. -/
theorem enters (sized : fr.Sized)
    (applied : (fr.arrive q.id).applyPhis q.block (some p.id) = .ok fr') :
    ∃ b, a.goto? (nameOf q.id) = some b ∧ site.Ready g b fr' := by
  obtain ⟨xs, dests, phi_at, assigned, others⟩ := phis_written sized
    ((List.nodup_flatMap.mp laid.assigns.once).1 q (Laid.member split)) applied
  have count : q.block.phis.length = xs.length := by
    simpa [Placement.dests] using (congrArg List.length dests).symm
  obtain ⟨b, there, becomes⟩ :=
    ((site.fills.frame ⟨_, site.block, rfl⟩).toExtends.trans site.final).blocks _ _ site.block
  have here : g.blocks[q.lowered]? = some b := by rw [laid.blocks, Array.getElem?_toList, there]
  obtain ⟨results, went, computed, kept⟩ := goto_phis (a := a) site.first
    (xs.map fun x => x.2.word) laid.names (by rw [atEnd.function]) (List.mem_of_getElem? here)
    (fun k w at_k => by
      rw [List.getElem?_map] at at_k
      obtain ⟨x, at_x, rfl⟩ := Option.map_eq_some_iff.mp at_k
      obtain ⟨phi, at_phi, _, r, value, held⟩ := phi_at k x at_x
      obtain ⟨_, _, b', i, there', at_i, phi, reads⟩ :=
        laid.reads_phi member split site left atEnd frame branch at_phi value held
      cases there.symm.trans there'
      exact ⟨i, at_i, phi, reads⟩)
    (fun k i beyond at_i => becomes.plain k i (by simpa [count] using beyond) at_i)
  rw [becomes.name] at went
  refine ⟨_, went, ⟨by rw [← atEnd.function], here, ?_, ⟨_, site.block, rfl⟩,
    ⟨(site.stock laid.stock).panic, (site.stock laid.stock).texts⟩⟩, atEnd.function, ?_⟩
  · have empty : State.count { site.start with current := q.lowered } q.lowered = q.block.phis.length := by
      have moved : State.blocks { site.start with current := q.lowered } = site.start.blocks := rfl
      rw [State.count, moved, site.block]
      exact length_phiInsts _ _
    show b.insts.drop _ = b.insts.drop (State.count { site.start with current := q.lowered } q.lowered)
    rw [empty, List.length_map, count]
  · intro r v known held
    by_cases dest : r ∈ q.dests
    · -- a phi of the block was written
      rw [← dests] at dest
      obtain ⟨x, listed, rfl⟩ := List.mem_map.mp dest
      cases held.symm.trans (assigned x listed)
      obtain ⟨k, at_x⟩ := List.mem_iff_getElem?.mp listed
      obtain ⟨phi, at_phi, same, r, value, held⟩ := phi_at k x at_x
      obtain ⟨type, word, _⟩ := laid.reads_phi member split site left atEnd frame branch at_phi value held
      have own := site.results k phi at_phi
      rw [← same] at own
      refine ⟨_, own, site.fresh _ _ own, fun _ => ?_⟩
      rw [← type, returnType, valueType?_eq word]
      exact Activation.operand?_of_results (m := x.2.word)
        (computed k _ (by rw [List.getElem?_map, at_x]; rfl))
    · -- what was known before has the same value, and its operand stays
      have sure := known.resolve_right dest
      rw [others r dest] at held
      have declared : f.declares r = true := by
        rw [Ir.Function.declares, ← frame.holds.function, frame.typed r v held]
        rfl
      have either := sure.of_successor (laid.found p member) (successor_of_lowered branch)
      obtain ⟨x, last, holds⟩ := atEnd.values r v either held
      have value := (laid.value_start split site (.inl sure)).symm.trans last
      obtain ⟨y, value', born⟩ := site.known r (laid.written_before split sure declared)
      cases value.symm.trans value'
      refine ⟨x, value, site.fresh _ _ value, fun some => ?_⟩
      rw [← holds some]
      refine Activation.operand?_congr rfl (born.mono fun id either => kept id ?_)
      rw [List.length_map, ← count]
      have above := site.above
      omega

end Laid

/-- What running a call comes to, when evaluation comes to a result in a world: the call gives the result, or
panics. -/
def Comes (l : Llvm.Module) (out : Outside σ) (R : List Eval.HostCall → σ → Prop) (ret : Ir.Ty) (mem : Memory)
    (o : σ) (a : Activation) (w : Eval.World κ) : Except (Eval.Halt ε) Ir.Value → Prop
  | .ok v => v.ty = ret ∧ ∃ o', R w.hostCalls o' ∧ ∀ callers, Leads l out (.step ⟨mem, a, callers, o⟩)
    (give v.word? (memory w.globals) o' callers)
  | .error (.fault e) => e.cause.Reported → ∀ callers, Panics l out R (.step ⟨mem, a, callers, o⟩) w e.cause
  | .error _ => True

theorem Comes.after {ret : Ir.Ty} {mem mem' : Memory} {o o' : σ} {w : Eval.World κ}
    {result : Except (Eval.Halt ε) Ir.Value}
    (leads : ∀ callers, Leads l out (.step ⟨mem, a, callers, o⟩) (.step ⟨mem', b, callers, o'⟩))
    (comes : Comes l out R ret mem' o' b w result) : Comes l out R ret mem o a w result := by
  cases result with
  | ok v =>
    obtain ⟨type, o'', related, gives⟩ := comes
    exact ⟨type, o'', related, fun callers => (leads callers).trans (gives callers)⟩
  | error h =>
    cases h with
    | fault e => exact fun reported callers => (comes reported callers).after (leads callers)
    | _ => trivial

/-- A running call is on its way to a block, and evaluation is about to enter it. -/
structure Arriving (m : Ir.Module) (l : Llvm.Module) (out : Outside σ) (R : List Eval.HostCall → σ → Prop)
    (f : Ir.Function) (g : Llvm.Func) (hasStart : Bool) (exits : List (Nat × BlockName)) (ps : List Placement)
    (s t : State) (prev : Option Ir.BlockId) (id : Ir.BlockId) (fr : Eval.Frame) (w : Eval.World κ)
    (a : Activation) (o : σ) : Prop where
  path : ∃ written, f.Arrives prev id written ∧ fr.Follows f written
  frame : fr.Typed f
  globals : Eval.TypedGlobals m w.globals
  related : R w.hostCalls o
  enters : ∀ before q after, ps = before ++ q :: after → q.id = id →
    ∀ (site : Site m.functions.size m.globals.size f hasStart exits s t before q after) fr',
      (fr.arrive id).applyPhis q.block prev = .ok fr' → ∃ b, site.Ready g b fr' ∧
        ∀ callers, Leads l out (.step ⟨memory w.globals, a, callers, o⟩)
          (.step ⟨memory w.globals, b, callers, o⟩)

section Runs

variable {call : Eval.Call κ ε} {w : Eval.World κ} {o : σ} {prev : Option Ir.BlockId} {id : Ir.BlockId}
  (laid : Laid m l f g hasStart exits ps s t) (simulates : Simulates m l out R call)
  (keeps : Eval.KeepsTyped m call) (solid : ∀ g, some g ∈ m.globals → g.ty ≠ .void)
  (arriving : Arriving m l out R f g hasStart exits ps s t prev id fr w a o) (known : Ir.FuncId → Bool)
include laid simulates keeps solid arriving

/-- A block runs as in evaluation, up to the next one. -/
theorem Laid.turn : match Eval.Frame.turn call known fr w prev id with
    | .stop done => Comes l out R f.sig.ret (memory w.globals) o a done.world done.result
    | .go fr' w' next => ∃ a' o', Arriving m l out R f g hasStart exits ps s t (some id) next fr' w' a' o' ∧
        ∀ callers, Leads l out (.step ⟨memory w.globals, a, callers, o⟩)
          (.step ⟨memory w'.globals, a', callers, o'⟩) := by
  obtain ⟨⟨written, path, follows⟩, frame, globals, related, enters⟩ := arriving
  obtain ⟨q, member, rfl⟩ := laid.listed path
  obtain ⟨before, after, split⟩ := List.append_of_mem member
  obtain ⟨site⟩ := laid.sites before q after split
  have found := laid.found q member
  unfold Eval.Frame.turn
  rw [follows.function, found]
  unfold Eval.Frame.runBlock
  dsimp only
  cases applied : (fr.arrive q.id).applyPhis q.block prev with
  | error e => exact fun reported => absurd reported (Eval.Frame.applyPhis_not_reported applied)
  | ok fr₁ =>
    obtain ⟨b, ready, leads⟩ := enters before q after split rfl site fr₁ applied
    have arrived : (fr.arrive q.id).Follows f written := ⟨follows.function, follows.sized, follows.defined⟩
    have follows₁ := arrived.applyPhis applied
    have frame₁ : fr₁.Typed f := (frame.of_regs rfl rfl : (fr.arrive q.id).Typed f).applyPhis applied
    have goes := (laid.ahead split site path ready follows₁ frame₁ globals).goes laid.names solid simulates
      keeps known related
    have typed := frame₁.execAll keeps known
      (fun i inside => (laid.source.plain q.id q.block found i inside).constant) globals
    dsimp only
    revert goes typed
    cases ran : Eval.Frame.execAll call known q.block.insts fr₁ w with
    | mk result w₂ =>
      rintro goes ⟨globals₂, typed⟩
      cases result with
      | error e =>
        obtain ⟨h, stats⟩ := e
        cases h with
        | fault e => exact fun reported callers => (goes reported callers).after (leads callers)
        | _ => trivial
      | ok fr₂ =>
        obtain ⟨b', o', proceeds, related', mirrored⟩ := goes
        have frame₂ := typed fr₂ rfl
        have follows₂ : fr₂.Follows f (written ++ q.block.writes) := by
          rw [Ir.Block.writes, Ir.Block.writesUpTo, ← List.append_assoc]
          exact follows₁.execAll ran
        have mirrored' : Mirrored site.filled b' fr₂ fun r => Sure f q.id r ∨ r ∈ q.block.writes :=
          fun r v either held => mirrored r v (either.elim (.inl ∘ .inl) fun own =>
            (List.mem_append.mp own).imp_left .inr) held
        have function := proceeds.function.trans ready.function
        have through := fun callers => (leads callers).trans (proceeds.leads callers)
        dsimp only
        cases ended : fr₂.terminate q.block.term with
        | error e => exact fun reported => absurd reported (Eval.Frame.terminate_not_reported ended)
        | ok next =>
          cases next with
          | done v =>
            obtain ⟨type, gives⟩ := laid.gives split site proceeds.stands function mirrored' frame₂ out ended
            exact ⟨type, o', related', fun callers => (through callers).trans (.of_next (gives _ callers o'))⟩
          | goto target =>
            obtain ⟨c, leads', atEnd, branch, sends⟩ := laid.leaves split site proceeds.stands function
              mirrored' frame₂ out (memory w₂.globals) ended
            refine ⟨c, o', ⟨⟨_, path.step found (successor_of_lowered branch), follows₂⟩, frame₂, globals₂,
              related', ?_⟩, fun callers => (through callers).trans (leads' callers o')⟩
            rintro before' q' after' split' rfl site' fr' applied'
            obtain ⟨d, went, ready'⟩ := laid.enters member split' site' site.found atEnd frame₂ branch
              follows₂.sized applied'
            exact ⟨d, ready', fun callers => .of_next (by rw [sends, went]; rfl)⟩

/-- A run goes as in evaluation. -/
theorem Laid.run (fuel : Nat) : Comes l out R f.sig.ret (memory w.globals) o a
    (Eval.Frame.run call known fuel fr w prev id).world
    (Eval.Frame.run call known fuel fr w prev id).result := by
  induction fuel generalizing fr w prev id a o with
  | zero => trivial
  | succ fuel ih =>
    have turned := laid.turn simulates keeps solid arriving known
    unfold Eval.Frame.run
    cases stepped : Eval.Frame.turn call known fr w prev id with
    | stop done =>
      rw [stepped] at turned
      exact turned
    | go fr' w' next =>
      rw [stepped] at turned
      obtain ⟨a', o', arriving', leads⟩ := turned
      exact .after leads (ih arriving')

end Runs

section Entry

variable {w : Eval.World κ} {o : σ} {args : List Ir.Value} (laid : Laid m l f g hasStart exits ps s t)
  (matching : args.map (·.ty) = f.sig.params)
  (bound : Eval.bindParams f.entry (.fresh f) f.params args = .ok fr) (typed : fr.Typed f)
include laid matching bound typed

omit matching bound typed in
/-- The first block of the source has no phis, and is lowered before the others. -/
theorem Laid.entry {before after : List Placement} {q : Placement} (split : ps = before ++ q :: after)
    (entry : q.id = f.entry) : before = [] ∧ q.block.phis = [] := by
  obtain ⟨rest, head⟩ := Ir.Function.reversePostorder_head laid.source.numbered.entry laid.ordered
  constructor
  · cases before with
    | nil => rfl
    | cons p before =>
      obtain ⟨_, walked, once, _⟩ := Ir.Function.reversePostorder_ok laid.source.numbered
      cases laid.ordered.symm.trans walked
      rw [split, List.cons_append, List.map_cons, List.cons.injEq] at head
      rw [split, List.cons_append, List.map_cons, List.nodup_cons, head.1, ← entry] at once
      exact absurd (by simp) once.1
  · refine List.eq_nil_iff_forall_not_mem.mpr fun phi listed => ?_
    have there := laid.found q (Laid.member split)
    obtain ⟨_, _, _, none, _⟩ := (laid.source.grounded _ _ _ _ .entry (entry ▸ there)).phis phi listed
    cases none

/-- A call that stands at the first block of the source has its arguments in the registers of the
parameters. -/
theorem Laid.ready_entry {before after : List Placement} {q : Placement} (split : ps = before ++ q :: after)
    (entry : q.id = f.entry)
    (site : Site m.functions.size m.globals.size f hasStart exits s t before q after)
    (function : a.function = g) (passed : a.args = args.map fun x => .word x.word)
    (here : g.blocks[q.lowered]? = some a.block)
    (rest : a.rest = a.block.insts) (applied : (fr.arrive f.entry).applyPhis q.block none = .ok fr') :
    site.Ready g a fr' := by
  obtain ⟨rfl, phis⟩ := laid.entry split entry
  rw [Eval.Frame.applyPhis, phis] at applied
  cases applied
  refine ⟨⟨by rw [function], here, ?_, ⟨_, site.block, rfl⟩,
    ⟨(site.stock laid.stock).panic, (site.stock laid.stock).texts⟩⟩, function, fun r v known held => ?_⟩
  · have empty : State.count { site.start with current := q.lowered } q.lowered = 0 := by
      have moved : State.blocks { site.start with current := q.lowered } = site.start.blocks := rfl
      rw [State.count, moved, site.block, phis]
      rfl
    rw [rest, show State.current { site.start with current := q.lowered } = q.lowered from rfl, empty]
    rfl
  · have sure : Sure f f.entry r := entry ▸ known.resolve_right (by simp [Placement.dests, phis])
    have param : r ∈ f.params := sure none f.params .entry
    obtain ⟨i, at_i⟩ := List.mem_iff_getElem?.mp param
    obtain ⟨u, type, value⟩ := laid.params i r at_i
    obtain ⟨v', arg, held'⟩ := (Eval.bindParams_reads bound (by simp [Eval.Frame.fresh, Eval.Frame.Sized])
      laid.once).1 i r at_i
    cases held.symm.trans held'
    have same : v.ty = u := by
      rw [← matching, List.getElem?_map, arg] at type
      exact Option.some.inj type
    rw [← site.params r param (by simp)] at value
    refine ⟨_, value, site.fresh r _ value, fun some => ?_⟩
    have declared := typed.typed r v held
    rw [typed.holds.function] at declared
    have word := Ir.Ty.isIntLike_of_plain (laid.source.words r v.ty declared) some
    rw [← same, returnType, valueType?_eq word]
    have read : a.args[i]? = Option.some (.word v.word) := by rw [passed, List.getElem?_map, arg]; rfl
    exact Activation.operand?_of_args read

/-- A call begins on the way to the first block of the source. -/
theorem Laid.begins (out : Outside σ) (globals : Eval.TypedGlobals m w.globals) (related : R w.hostCalls o) :
    ∃ b rest, g.blocks = b :: rest ∧ Arriving m l out R f g hasStart exits ps s t none f.entry fr w
      { function := g, args := args.map fun x => .word x.word, block := b, rest := b.insts } o := by
  obtain ⟨b, others, blocks, front⟩ := laid.front
  refine ⟨b, others, blocks, ⟨⟨_, .entry, .of_started (Eval.started_of_bindParams bound)⟩, typed, globals,
    related, ?_⟩⟩
  rintro before q after split entry site fr' applied
  obtain ⟨b', there, becomes⟩ :=
    ((site.fills.frame ⟨_, site.block, rfl⟩).toExtends.trans site.final).blocks _ _ site.block
  have here : g.blocks[q.lowered]? = some b' := by rw [laid.blocks, Array.getElem?_toList, there]
  have named : b'.name = nameOf f.entry := by rw [becomes.name, ← entry]
  rcases front with name | ⟨empty, br⟩
  · have one : b' = b := List.inj_on_of_nodup_map laid.names (List.mem_of_getElem? here)
      (by rw [blocks]; exact List.mem_cons_self) (named.trans name.symm)
    subst one
    exact ⟨_, laid.ready_entry matching bound typed split entry site rfl rfl here rfl applied,
      fun callers => .refl _⟩
  · obtain ⟨_, phis⟩ := laid.entry split entry
    let a : Activation :=
      { function := g, args := args.map fun x => .word x.word, block := b, rest := b.insts }
    obtain ⟨results, went, _⟩ := goto_phis (a := a) 0 [] laid.names rfl
      (List.mem_of_getElem? here) nofun (fun k i _ at_i => becomes.plain k i (by simp [phis, phiInsts]) at_i)
    rw [named] at went
    refine ⟨{ a with block := b', rest := b'.insts, results },
      laid.ready_entry matching bound typed split entry site rfl rfl here rfl applied,
      fun callers => .of_next (next_br empty br went)⟩

end Entry

end

end TieredEngine.Ship.Lowering
