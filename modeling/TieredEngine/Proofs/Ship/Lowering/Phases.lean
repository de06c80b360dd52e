import TieredEngine.Proofs.Ir.Reachability
import TieredEngine.Proofs.Ship.Lowering.Instructions

/-!
The phases of lowering a body before phis get their inputs: a block is made for each block of the
source, phis are put into them, and each is filled and closed.
-/
namespace TieredEngine.Ship.Lowering
open TieredEngine TieredEngine.Llvm

theorem placed_ok {α : Type} {name : String} {b : Option Ir.BlockId} {x : Lower α} {s s' : State}
    {a : α} : placed name b x s = .ok (a, s') ↔ x s = .ok (a, s') :=
  mapError_eq_ok

theorem liftCrash_ok {α : Type} {x : Except Crash α} {s s' : State} {a : α} :
    liftCrash x s = .ok (a, s') ↔ x = .ok a ∧ s' = s := by
  cases x with
  | error c => simp [liftCrash]
  | ok b =>
    show Except.ok (b, s) = Except.ok (a, s') ↔ _
    simp only [Except.ok.injEq, Prod.mk.injEq, eq_comm (a := s)]

theorem bindParams_quietly (f : Ir.Function) : Quietly (bindParams f) := by
  intro s u t ran
  obtain ⟨_, _, ran₁, last⟩ := run_bind.mp ran
  obtain ⟨_, rfl⟩ := run_pure.mp last
  refine run_forIn (fun _ t => s.Quiet t) (.refl s) ?_ ran₁
  rintro ⟨r, i⟩ rest t y t' quiet step
  dsimp only at step
  split at step
  · cases known : f.sig.params[i]? with
    | none =>
      rw [known] at step
      cases step
    | some ty =>
      rw [known] at step
      obtain ⟨_, t₁, ran₂, last⟩ := run_bind.mp step
      obtain ⟨rfl, rfl⟩ := run_pure.mp last
      exact ⟨rfl, quiet.trans (define_quietly _ _ _ _ _ ran₂)⟩
  · obtain ⟨rfl, rfl⟩ := run_pure.mp step
    exact ⟨rfl, quiet⟩

section

variable {f : Ir.Function} {outline : Outline} {pending : Nat → Prop} {s t : State}

/-- Number of the instructions of a block. -/
def State.count (s : State) (j : Nat) : Nat := (s.blocks[j]?).elim 0 (·.insts.length)

/-- A block of the source is lowered to the block at its position. -/
structure Placement.Fits (p : Placement) (f : Ir.Function) (names : List BlockName) : Prop where
  block : f.block? p.id = some p.block
  name : names[p.lowered]? = some (nameOf p.id)

theorem Progress.newBlock (done : Progress outline pending s) (first : s.aux = 0) {name : BlockName}
    {n : Nat} (ran : newBlock name s = .ok (n, t)) :
    Progress { outline with names := outline.names ++ [name] } (fun j => pending j ∨ j = n) t ∧
      t.aux = 0 ∧ n = outline.names.length ∧ ∀ j, t.count j = s.count j := by
  cases ran
  have begins := State.Begins.of_push (s := s) (n := name)
    (t := { s with blocks := s.blocks.push { name } }) rfl (.of_functions rfl)
  obtain ⟨kinds, names, count, all⟩ := done.names
  obtain rfl : kinds = [] := List.length_eq_zero_iff.mp (count.symm.trans first)
  have names : s.names = outline.names := by simpa [auxNames] using names
  refine ⟨⟨⟨[], ?_, first, all⟩, ?_, fun j => ?_, fun j T ends => begins.terms j T (done.terms j T ends),
    fun j p stands => done.phis j p (begins.phis j p stands), done.grows.trans begins.grows⟩, first, ?_,
    fun j => ?_⟩
  · rw [begins.names, names]
    exact (List.append_nil _).symm
  · rw [begins.edges]
    exact done.edges
  · rw [begins.opens, done.opens]
  · rw [← names]
    simp [State.names]
  · unfold State.count
    rw [Array.getElem?_push]
    split
    · next last => simp [last]
    · rfl

theorem makeBlock_ok {id : Ir.BlockId} {p : Placement} (ran : makeBlock f id s = .ok (p, t)) :
    p.id = id ∧ f.block? id = some p.block ∧ newBlock (nameOf id) s = .ok (p.lowered, t) := by
  obtain ⟨b, _, ran₁, rest⟩ := run_bind.mp ran
  obtain ⟨found, rfl⟩ := liftCrash_ok.mp ran₁
  obtain ⟨n, _, ran₂, last⟩ := run_bind.mp rest
  obtain ⟨rfl, rfl⟩ := run_pure.mp last
  exact ⟨rfl, Crash.deref_eq_ok.mp found, placed_ok.mp ran₂⟩

/-- First a block is made for each block of the source. -/
theorem blocks_made {order : List Ir.BlockId} (done : Progress outline pending s) (first : s.aux = 0)
    (empty : ∀ j, s.count j = 0) {ps : List Placement} (ran : order.mapM (makeBlock f) s = .ok (ps, t)) :
    Progress { outline with names := outline.names ++ order.map nameOf }
      (fun j => pending j ∨ j ∈ ps.map (·.lowered)) t ∧ (∀ j, t.count j = 0) ∧ ps.map (·.id) = order ∧
      ∀ p ∈ ps, p.Fits f (outline.names ++ order.map nameOf) := by
  have := run_mapM (fun ids _ ps t =>
    Progress { outline with names := outline.names ++ ids.map nameOf }
      (fun j => pending j ∨ j ∈ ps.map (·.lowered)) t ∧ t.aux = 0 ∧ (∀ j, t.count j = 0) ∧
      ps.map (·.id) = ids ∧ ∀ p ∈ ps, p.Fits f (outline.names ++ ids.map nameOf))
    ⟨by simpa using done, first, empty, rfl, by simp⟩ (by
      rintro ids id rest ps t p t' ⟨progress, none, empty, listed, located⟩ ran
      obtain ⟨rfl, found, made⟩ := makeBlock_ok ran
      obtain ⟨progress, none, at_n, counts⟩ := progress.newBlock none made
      have longer : outline.names ++ (ids ++ [p.id]).map nameOf =
          outline.names ++ ids.map nameOf ++ [nameOf p.id] := by simp
      refine ⟨?_, none, fun j => (counts j).trans (empty j), by simp [listed], ?_⟩
      · rw [longer]
        exact progress.congr fun j => by simp [or_assoc]
      · rw [longer]
        intro q member
        rcases List.mem_append.mp member with old | new
        · refine ⟨(located q old).block, ?_⟩
          have inside := (List.getElem?_eq_some_iff.mp (located q old).name).1
          rw [List.getElem?_append_left inside]
          exact (located q old).name
        · obtain rfl := List.mem_singleton.mp new
          refine ⟨found, ?_⟩
          rw [List.getElem?_append_right (Nat.le_of_eq at_n.symm), at_n]
          simp) ran
  exact ⟨this.1, this.2.2⟩

/-- A phi is put at the end of a block, with no inputs yet. -/
theorem Progress.putPhi (done : Progress outline pending s) {j : Nat} (inside : j < s.blocks.size)
    {ty : Llvm.Ty} {v : Val} (ran : emitTo j (.phi ty []) s = .ok (v, t)) :
    Progress { outline with phis := fun k p => outline.phis k p ∨ k = j ∧ p = s.count j } pending t ∧
      t.blocks.size = s.blocks.size ∧ t.count j = s.count j + 1 ∧ ∀ k ≠ j, t.count k = s.count k := by
  cases ran
  refine ⟨done.framed ?framed ?aux ?phis, Array.size_modify, ?_, fun k other => ?_⟩
  case framed =>
    exact .of_modify (g := fun b => { b with insts := b.insts ++ [⟨s.nextId, .phi ty []⟩] }) rfl
      (fun _ => rfl) (fun _ => rfl) (.of_functions rfl)
  case aux => rfl
  case phis =>
    rintro k p ⟨b, i, ty', ins, at_k, at_p, phi⟩
    dsimp only at at_k
    rw [Array.getElem?_modify] at at_k
    split at at_k
    · next same =>
      subst same
      obtain ⟨b₀, before, rfl⟩ := Option.map_eq_some_iff.mp at_k
      dsimp only at at_p
      by_cases early : p < b₀.insts.length
      · rw [List.getElem?_append_left early] at at_p
        exact .inl (done.phis _ _ ⟨b₀, i, ty', ins, before, at_p, phi⟩)
      · have last := (List.getElem?_eq_some_iff.mp at_p).1
        rw [List.length_append, List.length_singleton] at last
        refine .inr ⟨rfl, ?_⟩
        rw [State.count, before, Option.elim_some]
        omega
    · exact .inl (done.phis _ _ ⟨b, i, ty', ins, at_k, at_p, phi⟩)
  · unfold State.count
    dsimp only
    rw [Array.getElem?_modify, if_pos rfl, Array.getElem?_eq_getElem inside]
    simp
  · unfold State.count
    dsimp only
    rw [Array.getElem?_modify, if_neg other.symm]

theorem define_blocks {r : Ir.Reg} {v : Val} {u : Unit} (ran : define r v s = .ok (u, t)) :
    t.blocks = s.blocks := by
  unfold define at ran
  split at ran
  · obtain ⟨_, rfl⟩ := run_pure.mp ran
    rfl
  · cases ran
    rfl

/-- A phi that waits stands at its place. -/
def WaitingPhi.At (w : WaitingPhi) (j p : Nat) : Prop := w.lowered = j ∧ w.position = p

theorem putPhi_ok {id : Ir.BlockId} {lowered i : Nat} {p : Ir.Phi} {w : WaitingPhi}
    (ran : putPhi id lowered p i s = .ok (w, t)) : ∃ ty v m, valueType? p.ty = some ty ∧
      emitTo lowered (.phi ty []) s = .ok (v, m) ∧ define p.dest v m = .ok ((), t) ∧
      w = ⟨id, lowered, i, p, ty⟩ := by
  obtain ⟨ty, s₁, ran₁, rest⟩ := run_bind.mp ran
  obtain ⟨v, m, ran₂, rest⟩ := run_bind.mp rest
  obtain ⟨_, _, ran₃, last⟩ := run_bind.mp rest
  obtain ⟨rfl, rfl⟩ := run_pure.mp last
  cases known : valueType? p.ty with
  | none =>
    rw [known] at ran₁
    cases ran₁
  | some ty' =>
    rw [known] at ran₁
    obtain ⟨rfl, rfl⟩ := run_pure.mp ran₁
    exact ⟨ty, v, m, rfl, ran₂, ran₃, rfl⟩

/-- The phis of a block come first in it, in their order. -/
theorem putPhis_ok {p : Placement} (done : Progress outline pending s)
    (inside : p.lowered < s.blocks.size) (empty : s.count p.lowered = 0) {ws : List WaitingPhi}
    (ran : putPhis p s = .ok (ws, t)) :
    Progress { outline with phis := fun k i => outline.phis k i ∨ ∃ w ∈ ws, w.At k i } pending t ∧
      t.blocks.size = s.blocks.size ∧ (∀ k ≠ p.lowered, t.count k = s.count k) ∧
      ∀ w ∈ ws, w.block = p.id ∧ w.lowered = p.lowered ∧ w.phi ∈ p.block.phis := by
  have := run_mapM (fun before rest ws t => before ++ rest = p.block.phis.zipIdx ∧
    Progress { outline with phis := fun k i => outline.phis k i ∨ ∃ w ∈ ws, w.At k i } pending t ∧
      t.blocks.size = s.blocks.size ∧ t.count p.lowered = before.length ∧
      (∀ k ≠ p.lowered, t.count k = s.count k) ∧
      ∀ w ∈ ws, w.block = p.id ∧ w.lowered = p.lowered ∧ w.phi ∈ p.block.phis)
    ⟨rfl, by simpa using done, rfl, empty, fun _ _ => rfl, by simp⟩ (by
      rintro before ⟨phi, i⟩ rest ws t w t' ⟨whole, progress, size, count, others, kept⟩ ran
      obtain ⟨ty, v, m, _, written, defined, rfl⟩ := putPhi_ok ran
      obtain ⟨progress, size', count', others'⟩ := progress.putPhi (size ▸ inside) written
      have same := define_blocks defined
      have counts : t'.count = m.count := by
        funext k
        rw [State.count, State.count, same]
      have here : p.block.phis.zipIdx[before.length]? = some (phi, i) := by
        rw [← whole, List.getElem?_append_right (Nat.le_refl _), Nat.sub_self]
        rfl
      rw [List.getElem?_zipIdx, Option.map_eq_some_iff] at here
      obtain ⟨_, at_i, same_i⟩ := here
      cases same_i
      refine ⟨by simpa using whole, ?_, by rw [same, size', size], ?_, ?_, ?_⟩
      · have quiet := progress.quiet (define_quietly _ _ _ _ _ defined)
        refine { quiet with phis := fun k i stands => ?_ }
        rcases quiet.phis k i stands with (old | ⟨w, member, at_w⟩) | ⟨rfl, rfl⟩
        · exact .inl old
        · exact .inr ⟨w, List.mem_append_left _ member, at_w⟩
        · exact .inr ⟨_, List.mem_append_right _ (List.mem_singleton.mpr rfl), rfl, by simp [count]⟩
      · rw [counts, count', count, List.length_append, List.length_singleton]
      · intro k other
        rw [counts, others' k other, others k other]
      · intro w member
        rcases List.mem_append.mp member with old | new
        · exact kept w old
        · obtain rfl := List.mem_singleton.mp new
          exact ⟨rfl, rfl, List.mem_of_getElem? at_i⟩) ran
  exact ⟨this.2.1, this.2.2.1, this.2.2.2.2⟩

theorem notMem_later {α β : Type} {g : α → β} {before rest : List α} {x : α}
    (apart : ((before ++ x :: rest).map g).Nodup) : g x ∉ rest.map g := by
  rw [List.map_append, List.map_cons, List.nodup_append] at apart
  exact (List.nodup_cons.mp apart.2.1).1

/-- Then the phis of all blocks are put, which wait for their inputs. -/
theorem phis_put {ps : List Placement} (done : Progress outline pending s)
    (inside : ∀ p ∈ ps, p.lowered < s.blocks.size) (apart : (ps.map (·.lowered)).Nodup)
    (empty : ∀ j, s.count j = 0) {wss : List (List WaitingPhi)}
    (ran : ps.mapM (fun p => placed f.name none (putPhis p)) s = .ok (wss, t)) :
    Progress { outline with phis := fun k i => outline.phis k i ∨ ∃ w ∈ wss.flatten, w.At k i }
      pending t ∧
      ∀ w ∈ wss.flatten, ∃ p ∈ ps, w.block = p.id ∧ w.lowered = p.lowered ∧ w.phi ∈ p.block.phis := by
  have := run_mapM (fun before rest wss t => before ++ rest = ps ∧
    Progress { outline with phis := fun k i => outline.phis k i ∨ ∃ w ∈ wss.flatten, w.At k i }
      pending t ∧ t.blocks.size = s.blocks.size ∧ (∀ p ∈ rest, t.count p.lowered = 0) ∧
      ∀ w ∈ wss.flatten, ∃ p ∈ ps, w.block = p.id ∧ w.lowered = p.lowered ∧ w.phi ∈ p.block.phis)
    ⟨rfl, by simpa using done, rfl, fun p _ => empty _, by simp⟩ (by
      rintro before p rest wss t ws t' ⟨whole, progress, size, counts, kept⟩ ran
      have member : p ∈ ps := by simp [← whole]
      obtain ⟨progress, size', others, placed⟩ := putPhis_ok progress (size ▸ inside _ member)
        (counts p List.mem_cons_self) (placed_ok.mp ran)
      refine ⟨by simpa using whole, ?_, size'.trans size, fun q later => ?_, ?_⟩
      · refine { progress with phis := fun k i stands => ?_ }
        rcases progress.phis k i stands with (old | ⟨w, member, at_w⟩) | ⟨w, member, at_w⟩
        · exact .inl old
        · exact .inr ⟨w, by simpa using .inl (by simpa using member), at_w⟩
        · exact .inr ⟨w, by simpa using .inr member, at_w⟩
      · have other : q.lowered ≠ p.lowered := fun same =>
          notMem_later (whole ▸ apart) (List.mem_map.mpr ⟨q, later, same⟩)
        exact (others _ other).trans (counts q (List.mem_cons_of_mem _ later))
      · intro w listed
        rw [List.flatten_append, List.mem_append] at listed
        rcases listed with old | new
        · exact kept w old
        · exact ⟨p, member, placed w (by simpa using new)⟩) ran
  exact ⟨this.2.1, this.2.2.2.2⟩

/-- Lowered successors of the block with a number. -/
def successorsAt (f : Ir.Function) (n : Nat) : List Ir.BlockId :=
  ((f.blocks[n]?).join.map fun b => loweredSuccessors f b.term).getD []

theorem successorsAt_eq {id : Ir.BlockId} {b : Ir.Block} (found : f.block? id = some b) :
    successorsAt f id.num = loweredSuccessors f b.term := by
  rw [successorsAt, show (f.blocks[id.num]?).join = some b from found]
  rfl

/-- Edges of blocks that are left in blocks with these names. -/
def exitEdges (f : Ir.Function) (exits : List (Nat × BlockName)) : List (BlockName × BlockName) :=
  exits.flatMap fun e => (successorsAt f e.1).map fun n => (e.2, nameOf n)

theorem exitEdges_concat (f : Ir.Function) (exits : List (Nat × BlockName)) (e : Nat × BlockName) :
    exitEdges f (exits ++ [e]) =
      exitEdges f exits ++ (successorsAt f e.1).map fun n => (e.2, nameOf n) := by
  simp [exitEdges]

theorem getElem?_names (s : State) (j : Nat) : s.names[j]? = (s.blocks[j]?).map (·.name) := by
  rw [State.names, List.getElem?_map, Array.getElem?_toList]

/-- A block is filled: it is left in the block that its terminator closes. -/
theorem fillBlock_ok {functions globals : Nat} {p : Placement} {R : List Nat} {e : Nat × BlockName}
    (found : f.block? p.id = some p.block) (done : Progress outline (fun j => j = p.lowered ∨ j ∈ R) s)
    (apart : p.lowered ∉ R) (ran : fillBlock functions globals f p s = .ok (e, t)) :
    Progress { outline with edges := outline.edges ++ (successorsAt f e.1).map fun n => (e.2, nameOf n) }
      (· ∈ R) t ∧ e.1 = p.id.num := by
  have writing : Writing outline R { s with current := p.lowered } := ⟨done.move p.lowered, apart⟩
  obtain ⟨_, _, moved, rest⟩ := run_bind.mp ran
  cases moved
  obtain ⟨u, s₁, ran₁, rest⟩ := run_bind.mp rest
  obtain ⟨_, _, ran₂, rest⟩ := run_bind.mp rest
  obtain ⟨_, _, got, last⟩ := run_bind.mp rest
  cases got
  obtain ⟨rfl, rfl⟩ := run_pure.mp last
  obtain ⟨m, T, quiet, targets, closing⟩ := term_ok ran₂
  obtain ⟨progress, apart⟩ :=
    (Writes.insts functions globals f p.block.insts _ u s₁ writing ran₁).quiet quiet
  have waits : m.current = m.current ∨ m.current ∈ R := .inl rfl
  have inside : m.current < m.names.length := by simpa [State.names] using progress.bound waits
  obtain ⟨closed, names, current, _⟩ :=
    progress.close waits (List.getElem?_eq_getElem inside) closing
  have exit : ((t.blocks[t.current]?).map (·.name)).getD .start = m.names[m.current] := by
    rw [← getElem?_names, names, current, List.getElem?_eq_getElem inside, Option.getD_some]
  rw [targets, List.map_map] at closed
  refine ⟨?_, rfl⟩
  rw [exit, successorsAt_eq found]
  exact closed.congr fun j => by grind

/-- Then the blocks are filled and closed. -/
theorem blocks_filled {functions globals : Nat} {ps : List Placement}
    (done : Progress outline (· ∈ ps.map (·.lowered)) s) (apart : (ps.map (·.lowered)).Nodup)
    (located : ∀ p ∈ ps, f.block? p.id = some p.block) {exits : List (Nat × BlockName)}
    (ran : ps.mapM (fun p => placed f.name (some p.id) (fillBlock functions globals f p)) s =
      .ok (exits, t)) :
    Progress { outline with edges := outline.edges ++ exitEdges f exits } (fun _ => False) t ∧
      exits.map (·.1) = ps.map (·.id.num) := by
  have := run_mapM (fun before rest exits t => before ++ rest = ps ∧
    Progress { outline with edges := outline.edges ++ exitEdges f exits } (· ∈ rest.map (·.lowered)) t ∧
      exits.map (·.1) = before.map (·.id.num))
    ⟨rfl, by simpa [exitEdges] using done, rfl⟩ (by
      rintro before p rest exits t e t' ⟨whole, progress, listed⟩ ran
      have member : p ∈ ps := by simp [← whole]
      obtain ⟨filled, number⟩ := fillBlock_ok (located p member) (progress.congr fun j => by simp)
        (notMem_later (whole ▸ apart)) (placed_ok.mp ran)
      refine ⟨by simpa using whole, ?_, by simp [listed, number]⟩
      rw [exitEdges_concat, ← List.append_assoc]
      exact filled) ran
  exact ⟨this.2.1.congr fun j => by simp, this.2.2⟩

end

end TieredEngine.Ship.Lowering

/-!
Inputs of lowered phis. A block is jumped to from where its predecessors are left, once per edge; a phi
that has one value for each reachable predecessor gets as many inputs from each of them.
-/
namespace TieredEngine.Ship.Lowering
open TieredEngine TieredEngine.Llvm

section Edges

variable {f : Ir.Function} {exits : List (Nat × BlockName)} {order : List Ir.BlockId}

theorem filter_map_nameOf (name : BlockName) (ids : List Ir.BlockId) (n : Ir.BlockId) :
    (((ids.map fun m => (name, nameOf m)).filter (·.2 == nameOf n)).map (·.1)) =
      List.replicate (ids.count n) name := by
  induction ids with
  | nil => rfl
  | cons m ids ih =>
    have same : (nameOf m == nameOf n) = (m == n) := by
      rw [Bool.eq_iff_iff, beq_iff_eq, beq_iff_eq, ← Ir.BlockId.num_inj]
      simp [nameOf]
    rw [List.map_cons, List.filter_cons, List.count_cons, same]
    cases m == n with
    | false => simpa using ih
    | true => simp [ih, List.replicate_succ]

/-- Edges into a block, by where they come from. -/
theorem exitEdges_into (f : Ir.Function) (exits : List (Nat × BlockName)) (n : Ir.BlockId) :
    (((exitEdges f exits).filter (·.2 == nameOf n)).map (·.1)) =
      exits.flatMap fun e => List.replicate ((successorsAt f e.1).count n) e.2 := by
  induction exits with
  | nil => rfl
  | cons e exits ih =>
    rw [exitEdges, List.flatMap_cons, List.filter_append, List.map_append, filter_map_nameOf,
      List.flatMap_cons]
    exact congrArg _ ih

/-- Where the edges from a block to another come from. -/
def inputsFrom (f : Ir.Function) (exits : List (Nat × BlockName)) (n : Ir.BlockId) (pred : Nat) :
    List BlockName :=
  ((exits.find? (·.1 == pred)).map fun e => List.replicate ((successorsAt f pred).count n) e.2).getD []

theorem inputsFrom_eq_nil {n : Ir.BlockId} {pred : Nat} (missing : n ∉ successorsAt f pred) :
    inputsFrom f exits n pred = [] := by
  rw [inputsFrom, List.count_eq_zero_of_not_mem missing]
  cases exits.find? (·.1 == pred) <;> rfl

theorem find?_of_nodup {e : Nat × BlockName} (single : (exits.map (·.1)).Nodup) (member : e ∈ exits) :
    exits.find? (·.1 == e.1) = some e := by
  induction exits with
  | nil => cases member
  | cons d exits ih =>
    rw [List.map_cons, List.nodup_cons] at single
    rcases List.mem_cons.mp member with rfl | member
    · simp
    · have other : d.1 ≠ e.1 := fun same => single.1 (same ▸ List.mem_map_of_mem member)
      rw [List.find?_cons_of_neg (by simpa using other)]
      exact ih single.2 member

theorem exits_inputs (single : (exits.map (·.1)).Nodup) (n : Ir.BlockId) :
    (exits.flatMap fun e => List.replicate ((successorsAt f e.1).count n) e.2) =
      (exits.map (·.1)).flatMap (inputsFrom f exits n) := by
  rw [List.flatMap_map]
  refine List.flatMap_congr fun e member => ?_
  rw [inputsFrom, find?_of_nodup single member]
  rfl

/-- Lists without repetitions that agree where a function gives something. -/
theorem flatMap_perm {α β : Type} [DecidableEq α] [DecidableEq β] {g : α → List β} {as bs : List α}
    (one : as.Nodup) (two : bs.Nodup) (forth : ∀ a ∈ as, g a ≠ [] → a ∈ bs)
    (back : ∀ b ∈ bs, g b ≠ [] → b ∈ as) : (as.flatMap g).Perm (bs.flatMap g) := by
  have only : ∀ l : List α, l.flatMap g = (l.filter (g · ≠ [])).flatMap g := by
    intro l
    induction l with
    | nil => rfl
    | cons a l ih =>
      by_cases empty : g a = []
      · simp [empty, ih]
      · simp [empty, ih]
  rw [only as, only bs]
  refine List.Perm.flatMap_right g ((List.perm_ext_iff_of_nodup (one.filter _) (two.filter _)).mpr ?_)
  intro a
  simp only [List.mem_filter, decide_eq_true_eq]
  exact ⟨fun ⟨member, gives⟩ => ⟨forth a member gives, gives⟩,
    fun ⟨member, gives⟩ => ⟨back a member gives, gives⟩⟩

end Edges

/-- Every phi of a reachable block has one value for each reachable predecessor. -/
def PhisCovered (f : Ir.Function) : Prop :=
  ∀ id b, f.Reachable id → f.block? id = some b → ∀ p ∈ b.phis,
    (p.incoming.map (·.pred)).Nodup ∧ ∀ pred c, f.Reachable pred → f.block? pred = some c →
      id ∈ c.term.successors → pred ∈ p.incoming.map (·.pred)

section

variable {f : Ir.Function} {hasStart : Bool} {exits : List (Nat × BlockName)} {s t : State}

/-- The edge of the extra block in front. -/
def startEdges (f : Ir.Function) (hasStart : Bool) : List (BlockName × BlockName) :=
  if hasStart then [(.start, nameOf f.entry)] else []

/-- A loop that only reads the state. -/
theorem mapM_reads {ε α β : Type} {g : α → Stateful ε β} {h : α → β} {l : List α}
    (reads : ∀ a ∈ l, g a s = .ok (h a, s)) : l.mapM g s = .ok (l.map h, s) := by
  induction l with
  | nil => rfl
  | cons a l ih =>
    rw [List.mapM_cons]
    refine run_bind.mpr ⟨_, _, reads a List.mem_cons_self, run_bind.mpr ⟨_, _, ih fun b member =>
      reads b (List.mem_cons_of_mem a member), rfl⟩⟩

/-- Inputs of a phi for one of its values: one for each edge from where its source is left. -/
def inputsFor (f : Ir.Function) (exits : List (Nat × BlockName)) (w : WaitingPhi) (s : State)
    (i : Ir.Incoming) : List (Val × BlockName) :=
  match exits.find? (·.1 == i.pred.num), f.block? i.pred with
  | some (_, exit), some b =>
    List.replicate (edgeCount f b.term w.block) (s.valueOf i.value w.phi.ty, exit)
  | _, _ => []

/-- Inputs of a phi: from the extra block in front, and for its values. -/
def inputsOf (f : Ir.Function) (hasStart : Bool) (exits : List (Nat × BlockName)) (w : WaitingPhi)
    (s : State) : List (Val × BlockName) :=
  (if w.block == f.entry && hasStart then [(Val.const (.undef w.ty), BlockName.start)] else []) ++
    w.phi.incoming.flatMap (inputsFor f exits w s)

theorem phiInputs_eq (f : Ir.Function) (hasStart : Bool) (exits : List (Nat × BlockName))
    (w : WaitingPhi) (s : State) :
    phiInputs f hasStart exits w s = .ok (inputsOf f hasStart exits w s, s) := by
  refine run_bind.mpr ⟨_, _, mapM_reads (h := inputsFor f exits w s) fun i _ => ?_,
    run_pure.mpr ⟨rfl, rfl⟩⟩
  unfold inputsFor
  cases exits.find? (·.1 == i.pred.num) with
  | none => rfl
  | some e =>
    cases f.block? i.pred with
    | none => rfl
    | some b => exact run_bind.mpr ⟨_, _, use_eq s _ _, rfl⟩

/-- The inputs of a phi come from the extra block in front, and from where its sources are left. -/
theorem phiInputs_ok {w : WaitingPhi} {inputs : List (Val × BlockName)}
    (ran : phiInputs f hasStart exits w s = .ok (inputs, t)) : t = s ∧
      inputs.map (·.2) = ((startEdges f hasStart).filter (·.2 == nameOf w.block)).map (·.1) ++
        (w.phi.incoming.map (·.pred)).flatMap fun pred => inputsFrom f exits w.block pred.num := by
  rw [phiInputs_eq] at ran
  cases ran
  refine ⟨rfl, ?_⟩
  rw [inputsOf, List.map_append, List.map_flatMap, List.flatMap_map]
  congr 1
  · have entry : (nameOf f.entry == nameOf w.block) = (w.block == f.entry) := by
      rw [Bool.eq_iff_iff, beq_iff_eq, beq_iff_eq, ← Ir.BlockId.num_inj]
      simp [nameOf, eq_comm]
    cases hasStart with
    | false => simp [startEdges]
    | true =>
      simp only [startEdges, if_true, List.filter_cons, entry, Bool.and_true]
      cases w.block == f.entry <;> rfl
  · refine List.flatMap_congr fun i _ => ?_
    have successors : successorsAt f i.pred.num =
      ((f.block? i.pred).map fun b => loweredSuccessors f b.term).getD [] := rfl
    unfold inputsFor inputsFrom
    rw [successors]
    cases exits.find? (·.1 == i.pred.num) with
    | none => rfl
    | some e => cases f.block? i.pred <;> simp [edgeCount_eq]

/-- Edges of the blocks of a body: from the block in front, from where blocks of the source are left,
and to blocks that operations add. -/
def EdgesOf (f : Ir.Function) (hasStart : Bool) (exits : List (Nat × BlockName))
    (edges : List (BlockName × BlockName)) : Prop :=
  ∃ inner, edges.Perm (startEdges f hasStart ++ exitEdges f exits ++ inner) ∧ ∀ e ∈ inner, e.2.IsAux

/-- Edges into a block of the source. -/
theorem EdgesOf.into {blocks : List Llvm.Block} (edges : EdgesOf f hasStart exits (edgesOf blocks))
    (single : (exits.map (·.1)).Nodup) (n : Ir.BlockId) :
    (predecessorsOf blocks (nameOf n)).Perm
      (((startEdges f hasStart).filter (·.2 == nameOf n)).map (·.1) ++
        (exits.map (·.1)).flatMap (inputsFrom f exits n)) := by
  obtain ⟨inner, perm, aux⟩ := edges
  have others : inner.filter (·.2 == nameOf n) = [] := by
    refine List.filter_eq_nil_iff.mpr fun e member same => ?_
    have := aux e member
    rw [beq_iff_eq.mp same] at this
    exact this
  refine ((perm.filter _).map _).trans (List.Perm.of_eq ?_)
  rw [List.filter_append, List.filter_append, others, List.append_nil, List.map_append, exitEdges_into,
    exits_inputs single]

/-- Nothing goes to the block in front. -/
theorem EdgesOf.start {blocks : List Llvm.Block} (edges : EdgesOf f hasStart exits (edgesOf blocks)) :
    predecessorsOf blocks .start = [] := by
  obtain ⟨inner, perm, aux⟩ := edges
  rw [predecessorsOf, List.filter_eq_nil_iff.mpr, List.map_nil]
  intro e member same
  rw [beq_iff_eq] at same
  rcases List.mem_append.mp (perm.mem_iff.mp member) with outer | extra
  · rcases List.mem_append.mp outer with front | left
    · cases hasStart with
      | false => cases front
      | true =>
        obtain rfl := List.mem_singleton.mp front
        cases same
    · obtain ⟨_, _, among⟩ := List.mem_flatMap.mp left
      obtain ⟨_, _, rfl⟩ := List.mem_map.mp among
      cases same
  · have := aux e extra
    rw [same] at this
    exact this

/-- A phi of a covered function gets an input for each edge into its block. -/
theorem inputs_perm {order : List Ir.BlockId} {blocks : List Llvm.Block} (covered : PhisCovered f)
    (once : order.Nodup) (reached : ∀ id, id ∈ order ↔ f.Reachable id)
    (present : ∀ id ∈ order, ∃ b, f.block? id = some b)
    (left : exits.map (·.1) = order.map (·.num))
    (edges : EdgesOf f hasStart exits (edgesOf blocks)) {w : WaitingPhi} {b : Ir.Block}
    (here : f.Reachable w.block) (found : f.block? w.block = some b) (phi : w.phi ∈ b.phis)
    {inputs : List (Val × BlockName)} (ran : phiInputs f hasStart exits w s = .ok (inputs, t)) :
    (inputs.map (·.2)).Perm (predecessorsOf blocks (nameOf w.block)) := by
  have single : (exits.map (·.1)).Nodup := by
    rw [left]
    exact List.Pairwise.map _ (fun a b other same => other (Ir.BlockId.num_inj.mp same)) once
  rw [(phiInputs_ok ran).2]
  refine List.Perm.trans (List.Perm.append_left _ ?_) (edges.into single w.block).symm
  rw [left, List.flatMap_map (·.num) (inputsFrom f exits w.block) order]
  obtain ⟨distinct, sources⟩ := covered _ _ here found _ phi
  refine flatMap_perm distinct once (fun pred _ gives => ?_) fun pred listed gives => ?_
  · -- what gives inputs was lowered
    cases known : exits.find? (·.1 == pred.num) with
    | none => simp [inputsFrom, known] at gives
    | some e =>
      have member := List.mem_map_of_mem (f := (·.1)) (List.mem_of_find?_eq_some known)
      rw [left] at member
      obtain ⟨id, listed, same⟩ := List.mem_map.mp member
      have key : e.1 = pred.num := by simpa using List.find?_some known
      exact Ir.BlockId.num_inj.mp (same.trans key) ▸ listed
  · -- what has edges to the block is a predecessor, for which there is a value
    obtain ⟨c, at_pred⟩ := present pred listed
    refine sources pred c ((reached pred).mp listed) at_pred ?_
    refine successor_of_lowered (f := f) (by_contra fun missing => gives ?_)
    exact inputsFrom_eq_nil (successorsAt_eq at_pred ▸ missing)

/-- A phi with these inputs stands at a place in a block. -/
def State.PhiOf (s : State) (j p : Nat) (ins : List (Val × BlockName)) : Prop :=
  ∃ b i t, s.blocks[j]? = some b ∧ b.insts[p]? = some i ∧ i.op = .phi t ins

/-- Giving a phi its inputs changes no other. -/
theorem setPhi_phiOf {w : WaitingPhi} {inputs ins : List (Val × BlockName)} {u : Unit}
    (ran : setPhi w inputs s = .ok (u, t)) {j p : Nat} (stands : t.PhiOf j p ins) :
    w.At j p ∧ ins = inputs ∨ ¬ w.At j p ∧ s.PhiOf j p ins := by
  cases ran
  obtain ⟨b, i, ty, at_j, at_p, phi⟩ := stands
  dsimp only at at_j
  rw [Array.getElem?_modify] at at_j
  by_cases block : w.lowered = j
  · rw [if_pos block] at at_j
    obtain ⟨b₀, before, rfl⟩ := Option.map_eq_some_iff.mp at_j
    dsimp only at at_p
    rw [List.getElem?_modify] at at_p
    obtain ⟨i₀, there, rfl⟩ := Option.map_eq_some_iff.mp at_p
    by_cases place : w.position = p
    · rw [if_pos place] at phi
      cases phi
      exact .inl ⟨⟨block, place⟩, rfl⟩
    · rw [if_neg place] at phi
      exact .inr ⟨fun here => place here.2, b₀, i₀, ty, before, there, phi⟩
  · rw [if_neg block] at at_j
    exact .inr ⟨fun here => block here.1, b, i, ty, at_j, at_p, phi⟩

/-- At last each phi gets its inputs. Nothing else changes, and if the inputs are what is wanted of the
block of the phi, all phis of the body are as they should be. -/
theorem phis_completed (wanted : Nat → List BlockName → Prop) {ws : List WaitingPhi}
    (wait : ∀ j p, s.PhiAt j p → ∃ w ∈ ws, w.At j p) {u : PUnit}
    (ran : ws.forM (fun w => placed f.name none (completePhi f hasStart exits w)) s = .ok (u, t)) :
    s.Framed t ∧ ((∀ w ∈ ws, ∀ s inputs t, phiInputs f hasStart exits w s = .ok (inputs, t) →
      wanted w.lowered (inputs.map (·.2))) → ∀ j p ins, t.PhiOf j p ins → wanted j (ins.map (·.2))) := by
  have kept := run_forM (fun rest t => rest ⊆ ws ∧ s.Framed t ∧
    ((∀ w ∈ ws, ∀ s inputs t, phiInputs f hasStart exits w s = .ok (inputs, t) →
      wanted w.lowered (inputs.map (·.2))) → ∀ j p ins, t.PhiOf j p ins →
        (∃ w ∈ rest, w.At j p) ∨ wanted j (ins.map (·.2))))
    ⟨List.Subset.refl ws, .of_blocks rfl (.refl s), fun _ j p ins ⟨b, i, ty, at_j, at_p, phi⟩ =>
      .inl (wait j p ⟨b, i, ty, ins, at_j, at_p, phi⟩)⟩ (by
      rintro w rest t r t' ⟨among, framed, good⟩ ran
      obtain ⟨inputs, m, read, set⟩ := run_bind.mp (placed_ok.mp ran)
      obtain ⟨rfl, _⟩ := phiInputs_ok read
      refine ⟨List.subset_of_cons_subset among, framed.trans ?_, fun fits j p ins stands => ?_⟩
      · cases set
        exact .of_modify (g := fun b => { b with insts := b.insts.modify w.position fun i =>
          { i with op := .phi w.ty inputs } }) rfl (fun _ => rfl) (fun _ => rfl) (.of_functions rfl)
      · rcases setPhi_phiOf set stands with ⟨⟨rfl, _⟩, rfl⟩ | ⟨other, before⟩
        · exact .inr (fits w (among List.mem_cons_self) _ _ _ read)
        · rcases good fits j p ins before with ⟨v, member, at_v⟩ | done
          · rcases List.mem_cons.mp member with rfl | later
            · exact absurd at_v other
            · exact .inl ⟨v, later, at_v⟩
          · exact .inr done) ran
  refine ⟨kept.2.1, fun fits j p ins stands => ?_⟩
  rcases kept.2.2 fits j p ins stands with ⟨_, none, _⟩ | done
  · cases none
  · exact done

end

end TieredEngine.Ship.Lowering
