import Mathlib.Data.List.Induction
import TieredEngine.Proofs.Ir.Postorder
import TieredEngine.Proofs.Ship.Lowering.Filling

/-!
What the phases of lowering a body leave behind. Parameters stand in their registers. Each block of the
source begins with its phis, whose results have numbers of their own, one after the other; what a register
has when a block is filled stays what it has.
-/
namespace TieredEngine.Ship.Lowering
open TieredEngine TieredEngine.Llvm

/-- A loop that gathers results, up to one of its members and from there on. -/
theorem mapM_split {ε α β : Type} {g : α → Stateful ε β} {before after : List α} {a : α}
    {s t : State} {bs : List β} (ran : (before ++ a :: after).mapM g s = .ok (bs, t)) :
    ∃ bs₁ b bs₂ s₁ s₂, before.mapM g s = .ok (bs₁, s₁) ∧ g a s₁ = .ok (b, s₂) ∧
      after.mapM g s₂ = .ok (bs₂, t) ∧ bs = bs₁ ++ b :: bs₂ := by
  rw [List.mapM_append] at ran
  obtain ⟨bs₁, s₁, ran₁, ran⟩ := run_bind.mp ran
  obtain ⟨rest, s₃, ran₂, last⟩ := run_bind.mp ran
  obtain ⟨rfl, rfl⟩ := run_pure.mp last
  rw [List.mapM_cons] at ran₂
  obtain ⟨b, s₂, here, ran⟩ := run_bind.mp ran₂
  obtain ⟨bs₂, _, ran₃, last⟩ := run_bind.mp ran
  obtain ⟨rfl, rfl⟩ := run_pure.mp last
  exact ⟨bs₁, b, bs₂, s₁, s₂, ran₁, here, ran₃, rfl⟩

section

variable {f : Ir.Function} {s t : State}

/-- The parameters stand in their registers; there are no other values. -/
structure Bound (f : Ir.Function) (s t : State) : Prop where
  same : t = { s with values := t.values }
  size : t.values.size = s.values.size
  params : ∀ (i : Nat) r, f.params[i]? = some r → r ≠ .absent → r.num < s.values.size →
    ∃ u, f.sig.params[i]? = some u ∧ t.values[r.num]? = some (some (.param i (returnType u)))
  born : ∀ (k : Nat) x, t.values[k]? = some (some x) → x.Born fun _ => False

theorem Bound.of_bindParams (once : f.params.Nodup) (size : s.values.size = f.regTypes.size)
    (blank : ∀ (k : Nat) x, s.values[k]? ≠ some (some x)) {u : Unit}
    (ran : bindParams f s = .ok (u, t)) : Bound f s t := by
  obtain ⟨_, _, ran, last⟩ := run_bind.mp ran
  obtain ⟨_, rfl⟩ := run_pure.mp last
  obtain ⟨done, whole, same, size', params, born⟩ := run_forIn (fun rest t =>
    ∃ done : List (Ir.Reg × Nat), done ++ rest = f.params.zipIdx ∧ t = { s with values := t.values } ∧
      t.values.size = s.values.size ∧ (∀ p ∈ done, p.1 ≠ .absent → p.1.num < s.values.size →
        ∃ u, f.sig.params[p.2]? = some u ∧
          t.values[p.1.num]? = some (some (.param p.2 (returnType u)))) ∧
      ∀ (k : Nat) x, t.values[k]? = some (some x) → x.Born fun _ => False)
    ⟨[], rfl, rfl, rfl, by simp, fun k x there => absurd there (blank k x)⟩ (by
      rintro ⟨r, i⟩ rest t y t' ⟨done, whole, same, size', params, born⟩ step
      have longer : done ++ [(r, i)] ++ rest = f.params.zipIdx := by simpa using whole
      have fresh : ∀ p ∈ done, p.1 ≠ r := by
        have apart : ((done ++ (r, i) :: rest).map (·.1)).Nodup := by
          rw [whole, List.zipIdx_map_fst]
          exact once
        rw [List.map_append, List.nodup_append] at apart
        exact fun p member same => apart.2.2 p.1 (List.mem_map_of_mem member) r (by simp) same
      dsimp only at step
      split at step
      · next inside =>
        cases known : f.sig.params[i]? with
        | none =>
          rw [known] at step
          cases step
        | some ty =>
          rw [known] at step
          obtain ⟨_, t₁, ran₂, last⟩ := run_bind.mp step
          obtain ⟨rfl, rfl⟩ := run_pure.mp last
          have defines := State.Defines.of_define ran₂
          refine ⟨rfl, done ++ [(r, i)], longer, ?_, defines.size.trans size', ?_, ?_⟩
          · rw [defines.same, same]
          · intro p member present below
            rcases List.mem_append.mp member with old | new
            · obtain ⟨u, at_p, value⟩ := params p old present below
              exact ⟨u, at_p, (defines.kept p.1 (.inl (fresh p old))).trans value⟩
            · obtain rfl := List.mem_singleton.mp new
              exact ⟨ty, known, defines.dest present (size' ▸ below)⟩
          · intro k x there
            rcases defines.only k x there with old | rfl
            · exact born k x old
            · trivial
      · next outside =>
        obtain ⟨rfl, rfl⟩ := run_pure.mp step
        refine ⟨rfl, done ++ [(r, i)], longer, same, size', ?_, born⟩
        intro p member present below
        rcases List.mem_append.mp member with old | new
        · exact params p old present below
        · obtain rfl := List.mem_singleton.mp new
          exact absurd (size ▸ below) outside) ran
  rw [List.append_nil] at whole
  refine ⟨same, size', fun i r at_i present inside => params (r, i) ?_ present inside, born⟩
  rw [whole, List.mem_zipIdx_iff_getElem?]
  exact at_i

/-- Blocks that are made for those of the source. -/
theorem extends_of_made {order : List Ir.BlockId} {ps : List Placement}
    (ran : order.mapM (makeBlock f) s = .ok (ps, t)) : s.Extends t ∧ t.values = s.values :=
  run_mapM (fun _ _ _ t => s.Extends t ∧ t.values = s.values) ⟨.refl s, rfl⟩ (by
    rintro done id rest ps t p t' ⟨ext, values⟩ ran
    obtain ⟨_, _, made⟩ := makeBlock_ok ran
    obtain ⟨adds, _⟩ := State.Adds.newBlock made
    exact ⟨ext.trans adds.toExtends, adds.values.trans values⟩) ran

theorem extends_of_startBlock {u : Unit} (ran : startBlock f s = .ok (u, t)) :
    s.Extends t ∧ t.values = s.values := by
  obtain ⟨n, s₁, ran₁, rest⟩ := run_bind.mp ran
  obtain ⟨m, s₂, ran₂, last⟩ := run_bind.mp rest
  obtain ⟨rfl, rfl⟩ := target_ok ran₂
  obtain ⟨adds, rfl⟩ := State.Adds.newBlock ran₁
  obtain ⟨works, _⟩ := State.Works.terminate ((adds.opens _).mpr (.inr rfl)) last
  exact ⟨adds.toExtends.trans works.toExtends, works.values.trans adds.values⟩

/-- Phis as they are put into a block: their results are numbered one after the other. -/
def phiInsts : Nat → List Ir.Phi → List Llvm.Inst
  | _, [] => []
  | n, p :: phis => ⟨n, .phi (returnType p.ty) []⟩ :: phiInsts (n + 1) phis

@[simp]
theorem length_phiInsts (n : Nat) (phis : List Ir.Phi) : (phiInsts n phis).length = phis.length := by
  induction phis generalizing n with
  | nil => rfl
  | cons p phis ih => simp [phiInsts, ih]

theorem getElem?_phiInsts (n : Nat) (phis : List Ir.Phi) (i : Nat) :
    (phiInsts n phis)[i]? = phis[i]?.map fun p => ⟨n + i, .phi (returnType p.ty) []⟩ := by
  induction phis generalizing n i with
  | nil => rfl
  | cons p phis ih =>
    cases i with
    | zero => rfl
    | succ i =>
      have shift : n + 1 + i = n + (i + 1) := by omega
      simp only [phiInsts, List.getElem?_cons_succ, ih, shift]

/-- Phis are put at the end of a block, and their results into the registers. -/
structure Puts (j : Nat) (phis : List Ir.Phi) (s t : State) : Prop where
  same : t = { s with nextId := t.nextId, blocks := t.blocks, values := t.values }
  nextId : t.nextId = s.nextId + phis.length
  here : ∀ b, s.blocks[j]? = some b →
    t.blocks[j]? = some { b with insts := b.insts ++ phiInsts s.nextId phis }
  others : ∀ k ≠ j, t.blocks[k]? = s.blocks[k]?
  size : t.values.size = s.values.size
  kept : ∀ r : Ir.Reg, r ∉ phis.map (·.dest) → t.values[r.num]? = s.values[r.num]?
  dests : (phis.map (·.dest)).Nodup → ∀ (i : Nat) p, phis[i]? = some p → p.dest ≠ .absent →
    p.dest.num < s.values.size →
      t.values[p.dest.num]? = some (some (.result (s.nextId + i) (returnType p.ty)))
  types : ∀ p ∈ phis, valueType? p.ty = some (returnType p.ty)

theorem Puts.of_mapM {id : Ir.BlockId} {j k : Nat} {phis : List Ir.Phi} {ws : List WaitingPhi}
    (ran : ((phis.zipIdx k).mapM fun (phi, i) => putPhi id j phi i : Lower _) s = .ok (ws, t)) :
    Puts j phis s t ∧ ws = (phis.zipIdx k).map fun (phi, i) => ⟨id, j, i, phi, returnType phi.ty⟩ := by
  induction phis generalizing s k ws with
  | nil =>
    obtain ⟨rfl, rfl⟩ := run_pure.mp ran
    exact ⟨⟨rfl, rfl, fun b there => by simpa [phiInsts] using there, fun _ _ => rfl, rfl, fun _ _ => rfl,
      by simp, by simp⟩, rfl⟩
  | cons phi phis ih =>
    rw [List.zipIdx_cons, List.mapM_cons] at ran
    obtain ⟨w, s₂, put, ran⟩ := run_bind.mp ran
    obtain ⟨ws, _, rest, last⟩ := run_bind.mp ran
    obtain ⟨rfl, rfl⟩ := run_pure.mp last
    obtain ⟨ty, v, s₁, known, written, defined, rfl⟩ := putPhi_ok put
    have type : returnType phi.ty = ty := by rw [returnType, known, Option.getD_some]
    subst type
    cases written
    have defines := State.Defines.of_define defined
    have size : s₂.values.size = s.values.size := defines.size
    have next : s₂.nextId = s.nextId + 1 := congrArg State.nextId defines.same
    have blocks := congrArg State.blocks defines.same
    obtain ⟨puts, rfl⟩ := ih rest
    refine ⟨⟨?_, ?_, fun b there => ?_, fun k other => ?_, puts.size.trans size, ?_, ?_, ?_⟩, rfl⟩
    · rw [puts.same, defines.same]
    · rw [puts.nextId, next, List.length_cons]
      omega
    · rw [puts.here { b with insts := b.insts ++ [⟨s.nextId, .phi (returnType phi.ty) []⟩] }, next]
      · simp [phiInsts]
      · rw [blocks, Array.getElem?_modify, if_pos rfl, there]
        rfl
    · rw [puts.others k other, blocks, Array.getElem?_modify, if_neg (Ne.symm other)]
    · intro r missing
      rw [List.map_cons, List.mem_cons, not_or] at missing
      rw [puts.kept r missing.2, defines.kept r (.inl missing.1)]
    · intro apart i p at_i present inside
      rw [List.map_cons, List.nodup_cons] at apart
      cases i with
      | zero =>
        cases at_i
        rw [puts.kept _ apart.1]
        exact defines.dest present inside
      | succ i =>
        have shift : s.nextId + 1 + i = s.nextId + (i + 1) := by omega
        rw [puts.dests apart.2 i p at_i present (size ▸ inside), next, shift]
    · intro p member
      rcases List.mem_cons.mp member with rfl | member
      · exact known
      · exact puts.types p member

/-- Phis of a block that wait for their inputs. -/
def waitingFor (p : Placement) : List WaitingPhi :=
  p.block.phis.zipIdx.map fun (phi, i) => ⟨p.id, p.lowered, i, phi, returnType phi.ty⟩

/-- Number of the phis of blocks. -/
def phiCount (ps : List Placement) : Nat := (ps.map (·.block.phis.length)).sum

/-- Registers that the phis of a block are put into. -/
def Placement.dests (p : Placement) : List Ir.Reg := p.block.phis.map (·.dest)

/-- A block has its phis, and its registers their results. -/
structure HasPhis (first : Nat) (p : Placement) (t : State) : Prop where
  block : t.blocks[p.lowered]? = some { name := nameOf p.id, insts := phiInsts first p.block.phis }
  values : ∀ (i : Nat) phi, p.block.phis[i]? = some phi → phi.dest ≠ .absent →
    phi.dest.num < t.values.size →
      t.values[phi.dest.num]? = some (some (.result (first + i) (returnType phi.ty)))
  types : ∀ phi ∈ p.block.phis, valueType? phi.ty = some (returnType phi.ty)

/-- The phis of all blocks are put. -/
structure PutAll (ps : List Placement) (s t : State) : Prop where
  same : t = { s with nextId := t.nextId, blocks := t.blocks, values := t.values }
  nextId : t.nextId = s.nextId + phiCount ps
  others : ∀ j ∉ ps.map (·.lowered), t.blocks[j]? = s.blocks[j]?
  size : t.values.size = s.values.size
  kept : ∀ r ∉ ps.flatMap Placement.dests, t.values[r.num]? = s.values[r.num]?
  has : ∀ before p after, ps = before ++ p :: after → HasPhis (s.nextId + phiCount before) p t

theorem PutAll.of_mapM {ps : List Placement} {wss : List (List WaitingPhi)}
    (blank : ∀ p ∈ ps, s.blocks[p.lowered]? = some { name := nameOf p.id })
    (apart : (ps.map (·.lowered)).Nodup) (once : (ps.flatMap Placement.dests).Nodup)
    (ran : ps.mapM (fun p => placed f.name none (putPhis p)) s = .ok (wss, t)) :
    PutAll ps s t ∧ wss = ps.map waitingFor := by
  obtain ⟨_, puts, waiting⟩ := run_mapM (fun before rest wss t => before ++ rest = ps ∧
    PutAll before s t ∧ wss = before.map waitingFor)
    ⟨rfl, ⟨rfl, rfl, fun _ _ => rfl, rfl, fun _ _ => rfl, by simp⟩, rfl⟩ (by
      rintro before p rest wss t ws t' ⟨whole, all, rfl⟩ ran
      obtain ⟨puts, rfl⟩ := Puts.of_mapM (placed_ok.mp ran)
      have member : p ∈ ps := by simp [← whole]
      have elsewhere : p.lowered ∉ before.map (·.lowered) := by
        rw [← whole, List.map_append, List.nodup_append] at apart
        exact fun listed => apart.2.2 _ listed _ (by simp) rfl
      rw [← whole, List.flatMap_append, List.nodup_append, List.flatMap_cons, List.nodup_append] at once
      obtain ⟨_, ⟨own, _⟩, differ⟩ := once
      have new : HasPhis t.nextId p t' := by
        refine ⟨?_, fun i phi at_i present inside => ?_, puts.types⟩
        · have there := (all.others _ elsewhere).trans (blank p member)
          exact (puts.here _ there).trans rfl
        · exact puts.dests own i phi at_i present (puts.size ▸ inside)
      refine ⟨by simpa using whole, ⟨?_, ?_, ?_, puts.size.trans all.size, ?_, ?_⟩, by simp [waitingFor]⟩
      · rw [puts.same, all.same]
      · rw [puts.nextId, all.nextId]
        simp [phiCount]
        omega
      · intro j missing
        rw [List.map_append, List.mem_append, not_or] at missing
        rw [puts.others j (by simpa using missing.2), all.others j missing.1]
      · intro r missing
        rw [List.flatMap_append, List.mem_append, not_or] at missing
        rw [puts.kept r (by simpa [Placement.dests] using missing.2), all.kept r missing.1]
      · intro one q two split
        rcases List.eq_nil_or_concat two with rfl | ⟨two, p', rfl⟩
        · obtain ⟨rfl, same⟩ := List.append_inj' split rfl
          obtain rfl := List.singleton_inj.mp same
          rw [← all.nextId]
          exact new
        · rw [List.concat_eq_append, ← List.cons_append, ← List.append_assoc] at split
          obtain ⟨rfl, same⟩ := List.append_inj' split rfl
          obtain rfl := List.singleton_inj.mp same
          have old := all.has one q two rfl
          have listed : q ∈ one ++ q :: two := by simp
          refine ⟨?_, fun i phi at_i present inside => ?_, old.types⟩
          · rw [puts.others _ fun same => elsewhere (same ▸ List.mem_map_of_mem listed)]
            exact old.block
          · rw [puts.kept]
            · exact old.values i phi at_i present (puts.size ▸ inside)
            · intro again
              have dest : phi.dest ∈ q.dests := List.mem_map_of_mem (List.mem_of_getElem? at_i)
              exact differ _ (List.mem_flatMap.mpr ⟨q, listed, dest⟩) _
                (List.mem_append_left _ again) rfl) ran
  exact ⟨puts, waiting⟩

/-- Numbers of results in registers have been given out. -/
def State.Fresh (s : State) : Prop :=
  ∀ (r : Ir.Reg) x, s.values[r.num]? = some (some x) → x.Born (· < s.nextId)

/-- Some registers have values, whose numbers have a property. -/
def Known (K : Ir.Reg → Prop) (P : Nat → Prop) (s : State) : Prop :=
  ∀ r, K r → ∃ x, s.values[r.num]? = some (some x) ∧ x.Born P

variable {functions globals : Nat} {K : Ir.Reg → Prop} {P : Nat → Prop}

/-- Instructions write to their targets alone. -/
theorem insts_frame {is : List Ir.Inst} (blank : s.Open s.current) {u : Unit}
    (ran : is.forM (inst functions globals f) s = .ok (u, t)) : s.Continues t ∧
      t.values.size = s.values.size ∧
        ∀ r, (∀ i ∈ is, i.target? ≠ some r) → t.values[r.num]? = s.values[r.num]? := by
  induction is generalizing s with
  | nil =>
    obtain ⟨_, rfl⟩ := run_pure.mp ran
    exact ⟨.refl blank, rfl, fun _ _ => rfl⟩
  | cons i is ih =>
    obtain ⟨_, m, ran, rest⟩ := run_bind.mp ran
    have sets := inst_sets (P := fun _ => True) (fun _ _ x _ => by cases x <;> trivial) blank ran
    obtain ⟨continues, size, kept⟩ := ih sets.opens rest
    refine ⟨sets.toContinues.trans continues, size.trans sets.size, fun r missing => ?_⟩
    rw [kept r fun j member => missing j (List.mem_cons_of_mem i member),
      sets.kept r (missing i List.mem_cons_self)]

theorem or_targets_cons {p : Prop} {r : Ir.Reg} {i : Ir.Inst} {is : List Ir.Inst} :
    p ∨ r ∈ (i :: is).filterMap Ir.Inst.target? ↔
      (p ∨ i.target? = some r) ∨ r ∈ is.filterMap Ir.Inst.target? := by
  cases target : i.target? <;> simp [target, or_assoc, eq_comm]

/-- Registers that are known stay so, and the targets of instructions become known. -/
theorem insts_known {is : List Ir.Inst}
    (args : ∀ before i after, is = before ++ i :: after → ∀ r ∈ i.args,
      K r ∨ r ∈ before.filterMap Ir.Inst.target?)
    (targets : ∀ i ∈ is, ∀ r, i.target? = some r → r ≠ .absent ∧ r.num < s.values.size)
    (later : ∀ id, s.nextId ≤ id → P id) (known : Known K P s) (fresh : s.Fresh)
    (blank : s.Open s.current) {u : Unit}
    (ran : is.forM (inst functions globals f) s = .ok (u, t)) :
    Known (fun r => K r ∨ r ∈ is.filterMap Ir.Inst.target?) P t ∧ t.Fresh := by
  induction is generalizing s K with
  | nil =>
    obtain ⟨_, rfl⟩ := run_pure.mp ran
    exact ⟨fun r or => known r (or.resolve_right (by simp)), fresh⟩
  | cons i is ih =>
    obtain ⟨_, m, ran, rest⟩ := run_bind.mp ran
    have here : ∀ r ∈ i.args, K r := fun r member =>
      (args [] i is rfl r member).resolve_right (by simp)
    have sets := inst_sets (P := P) (fun r member x value => by
      obtain ⟨y, there, born⟩ := known r (here r member)
      rw [there] at value
      cases value
      exact born) blank ran
    have young := inst_sets (P := (· < s.nextId))
      (fun r _ x value => fresh r x (Option.join_eq_some_iff.mp value)) blank ran
    have target := targets i List.mem_cons_self
    have known' : Known (fun r => K r ∨ i.target? = some r) P m := by
      intro r or
      by_cases same : i.target? = some r
      · obtain ⟨present, inside⟩ := target r same
        obtain ⟨x, there, born⟩ := sets.dest r same present inside
        exact ⟨x, there, born.mono fun id either => either.elim (fun old => old) fun new => later id new.1⟩
      · obtain ⟨x, there, born⟩ := known r (or.resolve_right same)
        exact ⟨x, (sets.kept r same).trans there, born⟩
    have fresh' : m.Fresh := by
      intro r x there
      by_cases same : i.target? = some r
      · obtain ⟨present, inside⟩ := target r same
        obtain ⟨y, there', born⟩ := young.dest r same present inside
        cases there'.symm.trans there
        exact born.mono fun id either =>
          either.elim (fun old => Nat.lt_of_lt_of_le old young.nextId) And.right
      · exact (fresh r x ((sets.kept r same).symm.trans there)).mono fun id old =>
          Nat.lt_of_lt_of_le old sets.nextId
    obtain ⟨known, fresh⟩ := ih
      (fun before j after split r member =>
        or_targets_cons.mp (args (i :: before) j after (by rw [split]; rfl) r member))
      (fun j member r target => sets.size ▸ targets j (List.mem_cons_of_mem i member) r target)
      (fun id above => later id (Nat.le_trans sets.nextId above)) known' fresh' sets.opens rest
    exact ⟨fun r or => known r (or_targets_cons.mp or), fresh⟩

/-- A block is filled: its instructions are lowered, and the block that lowering has come to then gets the
terminator. -/
structure Fills (functions globals : Nat) (f : Ir.Function) (p : Placement) (s m m' t : State)
    (T : Llvm.Term) (e : Nat × BlockName) : Prop where
  insts : p.block.insts.forM (inst functions globals f) { s with current := p.lowered } = .ok ((), m)
  ending : Ending f m p.block.term m' T
  closed : terminate m'.current T m' = .ok ((), t)
  exit : e = (p.id.num, ((t.blocks[t.current]?).map (·.name)).getD .start)

theorem fills_of_fillBlock {p : Placement} {e : Nat × BlockName}
    (ran : fillBlock functions globals f p s = .ok (e, t)) :
    ∃ m m' T, Fills functions globals f p s m m' t T e := by
  obtain ⟨_, _, moved, rest⟩ := run_bind.mp ran
  cases moved
  obtain ⟨u, m, ran₁, rest⟩ := run_bind.mp rest
  obtain ⟨_, _, ran₂, rest⟩ := run_bind.mp rest
  obtain ⟨_, _, got, last⟩ := run_bind.mp rest
  cases got
  obtain ⟨rfl, rfl⟩ := run_pure.mp last
  obtain ⟨m', T, ending, closed⟩ := term_ending ran₂
  exact ⟨m, m', T, ran₁, ending, closed, rfl⟩

theorem extends_move (s : State) (j : Nat) : s.Extends { s with current := j } :=
  ⟨.of_tables rfl rfl, fun _ b there => ⟨b, there, .refl b⟩, Nat.le_refl _,
    fun stock => ⟨stock.panic, stock.texts⟩⟩

/-- What filling a block leaves alone, and where the block is left. -/
structure Fills.Frame (p : Placement) (s m' t : State) (T : Llvm.Term) (e : Nat × BlockName) : Prop
    extends s.Extends t where
  size : t.values.size = s.values.size
  kept : ∀ r, (∀ i ∈ p.block.insts, i.target? ≠ some r) → t.values[r.num]? = s.values[r.num]?
  others : ∀ j < s.blocks.size, j ≠ p.lowered → t.blocks[j]? = s.blocks[j]?
  left : m'.current = p.lowered ∨ s.blocks.size ≤ m'.current
  exit : ∃ b, t.blocks[m'.current]? = some b ∧ e = (p.id.num, b.name) ∧ b.term = some T

theorem Fills.frame {p : Placement} {m m' : State} {T : Llvm.Term} {e : Nat × BlockName}
    (fills : Fills functions globals f p s m m' t T e) (blank : s.Open p.lowered) :
    Fills.Frame p s m' t T e := by
  obtain ⟨written, size, kept⟩ := insts_frame (s := { s with current := p.lowered }) blank fills.insts
  have carries := fills.ending.carries written.opens
  have continues := written.trans carries.toContinues
  obtain ⟨closes, _⟩ := State.Works.terminate continues.opens fills.closed
  refine ⟨((extends_move s p.lowered).trans continues.toExtends).trans closes.toExtends, ?_,
    fun r missing => ?_, fun j inside other => ?_, continues.current, ?_⟩
  · rw [closes.values, carries.values, size]
  · rw [closes.values, carries.values, kept r missing]
  · have apart : j ≠ m'.current := by
      rcases continues.current with same | beyond
      · rw [same]
        exact other
      · exact Nat.ne_of_lt (Nat.lt_of_lt_of_le inside beyond)
    rw [closes.others j apart]
    exact continues.others j inside other
  · obtain ⟨b, there, _⟩ := continues.opens
    have there' : t.blocks[m'.current]? = some { b with term := some T } := by
      have closed := fills.closed
      cases closed
      show (m'.blocks.modify m'.current _)[m'.current]? = _
      rw [Array.getElem?_modify, if_pos rfl, there]
      rfl
    refine ⟨_, there', ?_, rfl⟩
    rw [fills.exit, closes.current, there']
    rfl

/-- Blocks are filled one after the other; each is left in a block of its own. -/
structure FilledAll (ps : List Placement) (exits : List (Nat × BlockName)) (s t : State) : Prop
    extends s.Extends t where
  size : t.values.size = s.values.size
  kept : ∀ r, (∀ p ∈ ps, ∀ i ∈ p.block.insts, i.target? ≠ some r) → t.values[r.num]? = s.values[r.num]?
  others : ∀ j < s.blocks.size, j ∉ ps.map (·.lowered) → t.blocks[j]? = s.blocks[j]?
  numbers : exits.map (·.1) = ps.map (·.id.num)
  left : ∃ js : List Nat, js.Nodup ∧ (∀ j ∈ js, ∃ b, t.blocks[j]? = some b ∧ b.term ≠ none) ∧
    exits.map (fun e => some e.2) = js.map fun j => (t.blocks[j]?).map (·.name)

theorem FilledAll.of_mapM {ps : List Placement} {exits : List (Nat × BlockName)}
    (blank : ∀ p ∈ ps, s.Open p.lowered) (apart : (ps.map (·.lowered)).Nodup)
    (ran : ps.mapM (fun p => placed f.name (some p.id) (fillBlock functions globals f p)) s =
      .ok (exits, t)) : FilledAll ps exits s t := by
  refine (run_mapM (fun before rest exits t => before ++ rest = ps ∧ FilledAll before exits s t)
    ⟨rfl, ⟨.refl s, rfl, fun _ _ => rfl, fun _ _ _ => rfl, rfl, [], .nil, nofun, rfl⟩⟩ ?_ ran).2
  rintro before p rest exits t e t' ⟨whole, all⟩ ran
  have member : p ∈ ps := by simp [← whole]
  have elsewhere : p.lowered ∉ before.map (·.lowered) := by
    rw [← whole, List.map_append, List.nodup_append] at apart
    exact fun listed => apart.2.2 _ listed _ (by simp) rfl
  obtain ⟨m, m', T, fills⟩ := fills_of_fillBlock (placed_ok.mp ran)
  obtain ⟨b, there, blank⟩ := blank p member
  have inside := (Array.getElem?_eq_some_iff.mp there).1
  have opens : t.Open p.lowered := ⟨b, (all.others _ inside elsewhere).trans there, blank⟩
  have frame := fills.frame opens
  have grows := all.size_le
  obtain ⟨js, distinct, closed, named⟩ := all.left
  obtain ⟨c, at_exit, rfl, ends⟩ := frame.exit
  refine ⟨by simpa using whole, ⟨all.toExtends.trans frame.toExtends, frame.size.trans all.size,
    fun r missing => ?_, fun j below missing => ?_, by simp [all.numbers], js ++ [m'.current], ?_, ?_, ?_⟩⟩
  · rw [frame.kept r (missing p (by simp)), all.kept r fun q listed => missing q (by simp [listed])]
  · rw [List.map_append, List.mem_append, not_or] at missing
    rw [frame.others j (by omega) (by simpa using missing.2), all.others j below missing.1]
  · -- blocks that were left before are closed; this one was open, or is new
    refine List.nodup_append.mpr ⟨distinct, List.nodup_singleton _, fun j listed k same => ?_⟩
    obtain rfl := List.mem_singleton.mp same
    rintro rfl
    obtain ⟨b', there', closed⟩ := closed _ listed
    rcases frame.left with here | new
    · rw [here] at there'
      obtain ⟨b'', there'', open_⟩ := opens
      cases there'.symm.trans there''
      exact closed open_
    · exact absurd (Array.getElem?_eq_some_iff.mp there').1 (by omega)
  · intro j listed
    rcases List.mem_append.mp listed with old | new
    · obtain ⟨b', at_j, ends⟩ := closed j old
      obtain ⟨b'', at_j', becomes⟩ := frame.blocks j b' at_j
      obtain ⟨T', same⟩ := Option.ne_none_iff_exists'.mp ends
      exact ⟨b'', at_j', by rw [(becomes.term T' same).1]; simp⟩
    · obtain rfl := List.mem_singleton.mp new
      exact ⟨c, at_exit, by rw [ends]; simp⟩
  · rw [List.map_append, List.map_append, named]
    congr 1
    · refine List.map_congr_left fun j listed => ?_
      obtain ⟨b', at_j, _⟩ := closed j listed
      obtain ⟨b'', at_j', becomes⟩ := frame.blocks j b' at_j
      rw [at_j, at_j', Option.map_some, Option.map_some, becomes.name]
    · simp [at_exit]

theorem phiCount_append (ps qs : List Placement) : phiCount (ps ++ qs) = phiCount ps + phiCount qs := by
  simp [phiCount]

theorem phiCount_cons (p : Placement) (ps : List Placement) :
    phiCount (p :: ps) = p.block.phis.length + phiCount ps := rfl

/-- Declared registers that are parameters or are written in some blocks. -/
def WrittenIn (f : Ir.Function) (ps : List Placement) (r : Ir.Reg) : Prop :=
  f.declares r = true ∧ (r ∈ f.params ∨ ∃ p ∈ ps, r ∈ p.block.writes)

/-- In the order of the blocks, each instruction reads what is written before, and each phi writes a
register of its own. -/
structure Ordered (f : Ir.Function) (ps : List Placement) : Prop where
  args : ∀ before p after, ps = before ++ p :: after → ∀ is i js, p.block.insts = is ++ i :: js →
    ∀ r ∈ i.args, WrittenIn f before r ∨ r ∈ p.block.writesUpTo is
  targets : ∀ p ∈ ps, ∀ i ∈ p.block.insts, ∀ r, i.target? = some r → f.declares r = true
  dests : ∀ p ∈ ps, ∀ r ∈ p.dests, f.declares r = true
  once : (ps.flatMap Placement.dests).Nodup
  apart : ∀ p ∈ ps, ∀ r ∈ p.dests, ∀ q ∈ ps, ∀ i ∈ q.block.insts, i.target? ≠ some r
  params : ∀ r ∈ f.params, r ∉ ps.flatMap Placement.dests
  absent : f.declares .absent = false

theorem Ordered.inside {ps : List Placement} (ordered : Ordered f ps) {r : Ir.Reg}
    (size : s.values.size = f.regTypes.size) (declared : f.declares r = true) :
    r ≠ .absent ∧ r.num < s.values.size := by
  refine ⟨?_, ?_⟩
  · rintro rfl
    cases declared.symm.trans ordered.absent
  · rw [size]
    unfold Ir.Function.declares Ir.Function.regType? at declared
    obtain ⟨t, there⟩ := Option.isSome_iff_exists.mp declared
    exact (Array.getElem?_eq_some_iff.mp there).1

/-- What is known when some blocks have been filled: registers that are parameters or are written in these
blocks have values, and their numbers are those of phis of these blocks, or have come after all phis. -/
structure Filled (f : Ir.Function) (first base : Nat) (done : List Placement) (t : State) : Prop where
  known : Known (WrittenIn f done) (fun id => id < first + phiCount done ∨ base ≤ id) t
  fresh : t.Fresh

/-- Before a block is filled its phis are known as well. -/
theorem Filled.with_phis {ps before after : List Placement} {p : Placement} {s₁ s₂ : State}
    (ordered : Ordered f ps) (split : ps = before ++ p :: after) (put : PutAll ps s₁ s₂)
    (size : s₂.values.size = f.regTypes.size) {exits : List (Nat × BlockName)}
    (all : FilledAll before exits s₂ t) (filled : Filled f s₁.nextId s₂.nextId before t) :
    (∀ (i : Nat) phi, p.block.phis[i]? = some phi → t.values[phi.dest.num]? =
      some (some (.result (s₁.nextId + phiCount before + i) (returnType phi.ty)))) ∧
    Known (fun r => WrittenIn f before r ∨ r ∈ p.dests)
      (fun id => id < s₁.nextId + phiCount (before ++ [p]) ∨ s₂.nextId ≤ id) t := by
  have member : p ∈ ps := by simp [split]
  have own : ∀ (i : Nat) phi, p.block.phis[i]? = some phi → t.values[phi.dest.num]? =
      some (some (.result (s₁.nextId + phiCount before + i) (returnType phi.ty))) := by
    intro i phi at_i
    have dest : phi.dest ∈ p.dests := List.mem_map_of_mem (List.mem_of_getElem? at_i)
    obtain ⟨present, inside⟩ := ordered.inside size (ordered.dests p member _ dest)
    rw [all.kept phi.dest fun q listed => ordered.apart p member _ dest q (by simp [split, listed])]
    exact (put.has before p after split).values i phi at_i present inside
  have count : phiCount (before ++ [p]) = phiCount before + p.block.phis.length := phiCount_append _ _
  refine ⟨own, fun r either => ?_⟩
  rcases either with old | dest
  · obtain ⟨x, there, born⟩ := filled.known r old
    exact ⟨x, there, born.mono fun id early => early.imp_left fun _ => by omega⟩
  · obtain ⟨phi, listed, rfl⟩ := List.mem_map.mp dest
    obtain ⟨i, at_i⟩ := List.mem_iff_getElem?.mp listed
    have inside := (List.getElem?_eq_some_iff.mp at_i).1
    exact ⟨_, own i phi at_i, .inl (by omega)⟩

theorem Filled.of_mapM {ps before after : List Placement} {s₁ s₂ : State}
    (ordered : Ordered f ps) (split : ps = before ++ after) (put : PutAll ps s₁ s₂)
    (size : s₂.values.size = f.regTypes.size) (blank : ∀ p ∈ ps, s₂.Open p.lowered)
    (lowered : (ps.map (·.lowered)).Nodup)
    (start : Filled f s₁.nextId s₂.nextId [] s₂) {exits : List (Nat × BlockName)}
    (ran : before.mapM (fun p => placed f.name (some p.id) (fillBlock functions globals f p)) s₂ =
      .ok (exits, t)) : Filled f s₁.nextId s₂.nextId before t := by
  induction before using List.reverseRecOn generalizing after t exits with
  | nil =>
    obtain ⟨_, rfl⟩ := run_pure.mp ran
    exact start
  | append_singleton before p ih =>
    obtain ⟨exits, e, _, u, _, ran, here, last, _⟩ := mapM_split ran
    obtain ⟨_, rfl⟩ := run_pure.mp last
    rw [List.append_assoc] at split
    have filled := ih split ran
    have among : ∀ q ∈ before, q ∈ ps := fun q member => by simp [split, member]
    have member : p ∈ ps := by simp [split]
    have apart : (before.map (·.lowered)).Nodup ∧ p.lowered ∉ before.map (·.lowered) := by
      rw [split, List.map_append, List.nodup_append] at lowered
      exact ⟨lowered.1, fun listed => lowered.2.2 _ listed _ (by simp) rfl⟩
    have all := FilledAll.of_mapM (fun q member => blank q (among q member)) apart.1 ran
    obtain ⟨own, known⟩ := filled.with_phis ordered split put size all
    obtain ⟨b, there, waits⟩ := blank p member
    have opens : u.Open p.lowered :=
      ⟨b, (all.others _ (Array.getElem?_eq_some_iff.mp there).1 apart.2).trans there, waits⟩
    obtain ⟨m, m', T, fills⟩ := fills_of_fillBlock (placed_ok.mp here)
    have inside : u.values.size = f.regTypes.size := all.size.trans size
    -- what an instruction reads is written before it, in this block or in one before
    have args : ∀ is i js, p.block.insts = is ++ i :: js → ∀ r ∈ i.args,
        (WrittenIn f before r ∨ r ∈ p.dests) ∨ r ∈ is.filterMap Ir.Inst.target? := by
      intro is i js place r read
      rcases ordered.args before p _ split is i js place r read with early | own
      · exact .inl (.inl early)
      · exact (List.mem_append.mp own).imp_left .inr
    obtain ⟨known, fresh⟩ := insts_known (s := { u with current := p.lowered }) args
      (fun i listed r target => ordered.inside inside (ordered.targets p member i listed r target))
      (fun id above => .inr (Nat.le_trans all.nextId above)) known filled.fresh opens fills.insts
    obtain ⟨written, _⟩ := insts_frame (s := { u with current := p.lowered }) opens fills.insts
    have carries := fills.ending.carries written.opens
    obtain ⟨closes, _⟩ := State.Works.terminate carries.opens fills.closed
    have values : t.values = m.values := closes.values.trans carries.values
    refine ⟨?_, fun r x there => ?_⟩
    · rintro r ⟨declared, param | ⟨q, listed, wrote⟩⟩
      · rw [values]
        exact known r (.inl (.inl ⟨declared, .inl param⟩))
      · rw [values]
        refine known r ?_
        rcases List.mem_append.mp listed with old | new
        · exact .inl (.inl ⟨declared, .inr ⟨q, old, wrote⟩⟩)
        · obtain rfl := List.mem_singleton.mp new
          exact (List.mem_append.mp wrote).imp_left .inr
    · rw [values] at there
      exact (fresh r x there).mono fun id old =>
        Nat.lt_of_lt_of_le old (Nat.le_trans carries.nextId closes.nextId)

/-- A phi stands at the place where it waits for its inputs. -/
def WaitingPhi.Stands (w : WaitingPhi) (s : State) (inputs : List (Val × BlockName)) : Prop :=
  ∃ b i, s.blocks[w.lowered]? = some b ∧ b.insts[w.position]? = some i ∧ i.op = .phi w.ty inputs

/-- The phis that wait have their inputs. -/
structure Completed (f : Ir.Function) (hasStart : Bool) (exits : List (Nat × BlockName))
    (ws : List WaitingPhi) (s t : State) : Prop extends s.Extends t where
  same : t = { s with blocks := t.blocks }
  phis : ∀ w ∈ ws, w.Stands t (inputsOf f hasStart exits w t)

theorem WaitingPhi.Stands.extends {w : WaitingPhi} {inputs : List (Val × BlockName)}
    (stands : w.Stands s inputs) (ext : s.Extends t) : ∃ inputs, w.Stands t inputs := by
  obtain ⟨b, i, at_w, at_i, phi⟩ := stands
  obtain ⟨b', at_w', becomes⟩ := ext.blocks _ b at_w
  obtain ⟨i', at_i', _, same | ⟨ty, ins, ins', phi', phi''⟩⟩ := becomes.insts _ i at_i
  · exact ⟨inputs, b', i', at_w', at_i', same.trans phi⟩
  · obtain ⟨rfl, _⟩ := Operation.phi.inj (phi'.symm.trans phi)
    exact ⟨ins', b', i', at_w', at_i', phi''⟩

/-- One phi gets its inputs; those at other places keep theirs. -/
theorem stands_of_setPhi {w : WaitingPhi} {old inputs : List (Val × BlockName)} (stands : w.Stands s old)
    {u : Unit} (ran : setPhi w inputs s = .ok (u, t)) : s.Extends t ∧ t = { s with blocks := t.blocks } ∧
      w.Stands t inputs ∧ ∀ (v : WaitingPhi) ins, ¬ (v.lowered = w.lowered ∧ v.position = w.position) →
        v.Stands s ins → v.Stands t ins := by
  obtain ⟨b, i, at_w, at_i, phi⟩ := stands
  cases ran
  have here : (s.blocks.modify w.lowered fun b => { b with
      insts := b.insts.modify w.position fun i => { i with op := .phi w.ty inputs } })[w.lowered]? =
      some { b with insts := b.insts.modify w.position fun i => { i with op := .phi w.ty inputs } } := by
    rw [Array.getElem?_modify, if_pos rfl, at_w]
    rfl
  have becomes : b.Becomes
      { b with insts := b.insts.modify w.position fun i => { i with op := .phi w.ty inputs } } := by
    refine ⟨rfl, fun k j there => ?_, fun k j beyond there => ?_, fun T ends => ⟨ends, List.length_modify ..⟩⟩
    · dsimp only
      rw [List.getElem?_modify, there]
      by_cases place : w.position = k
      · subst place
        cases at_i.symm.trans there
        exact ⟨{ i with op := .phi w.ty inputs }, by simp, rfl, .inr ⟨w.ty, old, inputs, phi, rfl⟩⟩
      · exact ⟨j, by simp [place], .refl j⟩
    · dsimp only at there
      rw [List.getElem?_eq_none (by rw [List.length_modify]; exact beyond)] at there
      cases there
  refine ⟨⟨.of_tables rfl rfl, fun j c there => ?_, Nat.le_refl _, fun stock => ⟨stock.panic, stock.texts⟩⟩,
    rfl, ⟨_, { i with op := .phi w.ty inputs }, here, ?_, rfl⟩, ?_⟩
  · by_cases same : w.lowered = j
    · subst same
      cases at_w.symm.trans there
      exact ⟨_, here, becomes⟩
    · refine ⟨c, ?_, .refl c⟩
      rw [Array.getElem?_modify, if_neg same]
      exact there
  · simp [at_i]
  · rintro v ins apart ⟨c, j, at_v, at_j, phi'⟩
    by_cases same : w.lowered = v.lowered
    · have place : w.position ≠ v.position := fun place => apart ⟨same.symm, place.symm⟩
      rw [← same] at at_v
      cases at_w.symm.trans at_v
      refine ⟨_, j, (congrArg _ same.symm).trans here, ?_, phi'⟩
      simp [place, at_j]
    · refine ⟨c, j, ?_, at_j, phi'⟩
      rw [Array.getElem?_modify, if_neg same]
      exact at_v

theorem Completed.of_forM {hasStart : Bool} {exits : List (Nat × BlockName)} {ws : List WaitingPhi}
    (stand : ∀ w ∈ ws, ∃ inputs, w.Stands s inputs)
    (alone : ∀ v ∈ ws, ∀ w ∈ ws, v.lowered = w.lowered → v.position = w.position → v = w) {u : PUnit}
    (ran : ws.forM (fun w => placed f.name none (completePhi f hasStart exits w)) s = .ok (u, t)) :
    Completed f hasStart exits ws s t := by
  obtain ⟨done, whole, completed⟩ := run_forM (fun rest t => ∃ done, done ++ rest = ws ∧
    Completed f hasStart exits done s t) ⟨[], rfl, .refl s, rfl, nofun⟩ (by
      rintro w rest t u t' ⟨done, whole, completed⟩ ran
      have member : w ∈ ws := by simp [← whole]
      obtain ⟨inputs, m, read, set⟩ := run_bind.mp (placed_ok.mp ran)
      rw [phiInputs_eq] at read
      cases read
      obtain ⟨old, stands⟩ := stand w member
      obtain ⟨old, stands⟩ := stands.extends completed.toExtends
      obtain ⟨ext, same, here, others⟩ := stands_of_setPhi stands set
      refine ⟨done ++ [w], by simpa using whole, completed.toExtends.trans ext, ?_, fun v listed => ?_⟩
      · rw [same, completed.same]
      · have inputs : ∀ v, inputsOf f hasStart exits v t' = inputsOf f hasStart exits v t := by
          intro v
          rw [same]
          rfl
        rw [inputs]
        by_cases apart : v.lowered = w.lowered ∧ v.position = w.position
        · have at_v : v ∈ ws := by
            rw [← whole]
            rcases List.mem_append.mp listed with old | new
            · exact List.mem_append_left _ old
            · exact List.mem_append_right _ (by simpa using .inl (List.mem_singleton.mp new))
          rw [alone v at_v w member apart.1 apart.2]
          exact here
        · refine others v _ apart (completed.phis v ?_)
          rcases List.mem_append.mp listed with old | new
          · exact old
          · obtain rfl := List.mem_singleton.mp new
            exact absurd ⟨rfl, rfl⟩ apart) ran
  rw [List.append_nil] at whole
  exact whole ▸ completed

theorem PutAll.opens {ps : List Placement} {s₁ s₂ : State} (put : PutAll ps s₁ s₂) :
    ∀ p ∈ ps, s₂.Open p.lowered := by
  intro p member
  obtain ⟨before, after, split⟩ := List.append_of_mem member
  exact ⟨_, (put.has before p after split).block, rfl⟩

/-- Before any block is filled only parameters are known. -/
theorem Filled.start {ps : List Placement} {s₁ s₂ : State} (ordered : Ordered f ps)
    (put : PutAll ps s₁ s₂) (size : s₂.values.size = f.regTypes.size)
    (params : ∀ r ∈ f.params, f.declares r = true →
      ∃ x, s₁.values[r.num]? = some (some x) ∧ x.Born fun _ => False)
    (born : ∀ (k : Nat) x, s₁.values[k]? = some (some x) → x.Born fun _ => False) :
    Filled f s₁.nextId s₂.nextId [] s₂ := by
  refine ⟨?_, fun r x there => ?_⟩
  · rintro r ⟨declared, param | ⟨_, none, _⟩⟩
    · obtain ⟨x, there, free⟩ := params r param declared
      exact ⟨x, (put.kept r (ordered.params r param)).trans there, free.mono fun _ => False.elim⟩
    · cases none
  · by_cases dest : r ∈ ps.flatMap Placement.dests
    · obtain ⟨p, member, dest⟩ := List.mem_flatMap.mp dest
      obtain ⟨present, inside⟩ := ordered.inside size (ordered.dests p member r dest)
      obtain ⟨phi, listed, rfl⟩ := List.mem_map.mp dest
      obtain ⟨i, at_i⟩ := List.mem_iff_getElem?.mp listed
      obtain ⟨before, after, split⟩ := List.append_of_mem member
      have value := (put.has before p after split).values i phi at_i present inside
      cases value.symm.trans there
      have below := (List.getElem?_eq_some_iff.mp at_i).1
      show s₁.nextId + phiCount before + i < s₂.nextId
      rw [put.nextId, split, phiCount_append, phiCount_cons]
      omega
    · exact (born _ x ((put.kept r dest).symm.trans there)).mono fun _ => False.elim

theorem HasPhis.stands {p : Placement} {first i : Nat} {phi : Ir.Phi} (has : HasPhis first p s)
    (at_i : p.block.phis[i]? = some phi) :
    WaitingPhi.Stands ⟨p.id, p.lowered, i, phi, returnType phi.ty⟩ s [] :=
  ⟨_, ⟨first + i, .phi (returnType phi.ty) []⟩, has.block, by rw [getElem?_phiInsts, at_i]; rfl, rfl⟩

theorem mem_waitingFor {p : Placement} {w : WaitingPhi} (member : w ∈ waitingFor p) :
    ∃ (i : Nat) (phi : Ir.Phi), p.block.phis[i]? = some phi ∧
      w = ⟨p.id, p.lowered, i, phi, returnType phi.ty⟩ := by
  obtain ⟨⟨phi, i⟩, listed, rfl⟩ := List.mem_map.mp member
  exact ⟨i, phi, List.mem_zipIdx_iff_getElem?.mp listed, rfl⟩

/-- The phis that were put get their inputs. -/
theorem Completed.of_put {hasStart : Bool} {exits : List (Nat × BlockName)} {ps : List Placement}
    {s₁ s₂ : State} (put : PutAll ps s₁ s₂) (apart : (ps.map (·.lowered)).Nodup) (ext : s₂.Extends s)
    {u : PUnit} (ran : (ps.map waitingFor).flatten.forM
      (fun w => placed f.name none (completePhi f hasStart exits w)) s = .ok (u, t)) :
    Completed f hasStart exits (ps.map waitingFor).flatten s t := by
  have member : ∀ w ∈ (ps.map waitingFor).flatten, ∃ p ∈ ps, w ∈ waitingFor p := by
    intro w listed
    obtain ⟨_, among, inner⟩ := List.mem_flatten.mp listed
    obtain ⟨p, at_p, rfl⟩ := List.mem_map.mp among
    exact ⟨p, at_p, inner⟩
  refine .of_forM (fun w listed => ?_) (fun v one w two lowered position => ?_) ran
  · obtain ⟨p, at_p, inner⟩ := member w listed
    obtain ⟨i, phi, at_i, rfl⟩ := mem_waitingFor inner
    obtain ⟨before, after, split⟩ := List.append_of_mem at_p
    exact ((put.has before p after split).stands at_i).extends ext
  · obtain ⟨p, at_p, inner⟩ := member v one
    obtain ⟨q, at_q, inner'⟩ := member w two
    obtain ⟨i, phi, at_i, rfl⟩ := mem_waitingFor inner
    obtain ⟨j, phi', at_j, rfl⟩ := mem_waitingFor inner'
    obtain rfl := List.inj_on_of_nodup_map apart at_p at_q lowered
    obtain rfl : i = j := position
    cases at_i.symm.trans at_j
    rfl

/-- What becomes of a block of the source when the body of its function is lowered, from `s` on, to `t`. -/
structure Site (functions globals : Nat) (f : Ir.Function) (hasStart : Bool)
    (exits : List (Nat × BlockName)) (s t : State) (before : List Placement) (p : Placement)
    (after : List Placement) where
  /-- Number of the result of the first phi. -/
  first : Nat
  /-- Results of instructions that are no phis have numbers from here on. -/
  base : Nat
  start : State
  filled : State
  tested : State
  closed : State
  term : Llvm.Term
  /-- Name of the block that the last instructions come to stand in. -/
  exit : BlockName
  fills : Fills functions globals f p start filled tested closed term (p.id.num, exit)
  block : start.blocks[p.lowered]? = some { name := nameOf p.id, insts := phiInsts first p.block.phis }
  size : start.values.size = f.regTypes.size
  results : ∀ (i : Nat) phi, p.block.phis[i]? = some phi →
    start.values[phi.dest.num]? = some (some (.result (first + i) (returnType phi.ty)))
  types : ∀ phi ∈ p.block.phis, valueType? phi.ty = some (returnType phi.ty)
  above : first + p.block.phis.length ≤ base
  later : base ≤ start.nextId
  known : Known (WrittenIn f before) (fun id => id < first ∨ base ≤ id) start
  fresh : start.Fresh
  stock : s.Stock → start.Stock
  params : ∀ r ∈ f.params, (∀ q ∈ before, ∀ i ∈ q.block.insts, i.target? ≠ some r) →
    start.values[r.num]? = s.values[r.num]?
  final : closed.Extends t
  found : exits.find? (·.1 == p.id.num) = some (p.id.num, exit)
  left : ∃ b, t.blocks[tested.current]? = some b ∧ b.name = exit
  inputs : ∀ (i : Nat) phi, p.block.phis[i]? = some phi →
    WaitingPhi.Stands ⟨p.id, p.lowered, i, phi, returnType phi.ty⟩ t
      (inputsOf f hasStart exits ⟨p.id, p.lowered, i, phi, returnType phi.ty⟩ t)
  settled : ∀ r, (∀ q ∈ after, ∀ i ∈ q.block.insts, i.target? ≠ some r) →
    t.values[r.num]? = closed.values[r.num]?

end

namespace Phased

variable {functions globals : Nat} {f : Ir.Function} {order : List Ir.BlockId} {hasStart : Bool}
  {origin s s₀ s₁ s₂ s₃ t : State} {ps : List Placement} {wss : List (List WaitingPhi)}
  {exits : List (Nat × BlockName)}
  (phased : Phased functions globals f order hasStart s s₀ s₁ s₂ s₃ t ps wss exits)
  (done : Progress (outlineStart f false origin) (fun _ => False) s) (first : s.aux = 0)
  (empty : ∀ j, s.count j = 0) (once : order.Nodup) (ordered : Ordered f ps)
  (size : s.values.size = f.regTypes.size)
  (params : ∀ r ∈ f.params, f.declares r = true →
    ∃ x, s.values[r.num]? = some (some x) ∧ x.Born fun _ => False)
  (born : ∀ (k : Nat) x, s.values[k]? = some (some x) → x.Born fun _ => False)
include phased

/-- Until phis are put, functions, globals and registers stay. -/
theorem begun : s.Extends s₁ ∧ s₁.values = s.values := by
  obtain ⟨ext, values⟩ := extends_of_made phased.made
  rcases phased.started with ⟨_, rfl⟩ | ⟨_, ran⟩
  · exact ⟨ext, values⟩
  · obtain ⟨ext', values'⟩ := extends_of_startBlock ran
    exact ⟨ext'.trans ext, values.trans values'⟩

include done first empty

theorem blank : ∀ p ∈ ps, s₁.blocks[p.lowered]? = some { name := nameOf p.id } := by
  intro p member
  obtain ⟨progress, empty, _, fits⟩ := phased.blocks_begun done first empty
  obtain ⟨b, there, waits⟩ := (progress.opens p.lowered).mpr (List.mem_map_of_mem member)
  obtain ⟨kinds, names, _⟩ := progress.names
  have named := getElem?_names s₁ p.lowered
  have at_p := (fits p member).name
  rw [names, List.getElem?_append_left (List.getElem?_eq_some_iff.mp at_p).1, at_p, there] at named
  have none := empty p.lowered
  rw [State.count, there] at none
  rw [there]
  obtain ⟨name, insts, term⟩ := b
  cases waits
  cases List.length_eq_zero_iff.mp none
  cases named
  rfl

include once ordered size params born

/-- Before a block is filled it has its phis, and the registers that are known by then have their values;
when it is closed it stays as it is, but for the inputs of its phis. -/
theorem sites (before : List Placement) (p : Placement) (after : List Placement)
    (split : ps = before ++ p :: after) :
    Nonempty (Site functions globals f hasStart exits s t before p after) := by
  have apart := phased.apart done first empty once
  obtain ⟨put, waiting⟩ := PutAll.of_mapM (phased.blank done first empty) apart ordered.once phased.put
  obtain ⟨begun, values⟩ := phased.begun
  have size₂ : s₂.values.size = f.regTypes.size := put.size.trans ((congrArg _ values).trans size)
  have start := Filled.start ordered put size₂ (by rw [values]; exact params) (by rw [values]; exact born)
  have opens := put.opens
  have member : p ∈ ps := by simp [split]
  have whole := FilledAll.of_mapM opens apart phased.filled
  have filled := phased.filled
  rw [split] at filled
  obtain ⟨exits₁, e, exits₂, u, v, ran₁, ran, ran₂, listed⟩ := mapM_split filled
  have apart' := apart
  rw [split, List.map_append, List.nodup_append, List.map_cons, List.nodup_cons] at apart'
  obtain ⟨own, ⟨here, rest⟩, others⟩ := apart'
  have elsewhere : ∀ q ∈ p :: after, q.lowered ∉ before.map (·.lowered) := fun q late early =>
    others _ early _ (by rw [← List.map_cons]; exact List.mem_map_of_mem late) rfl
  have all := FilledAll.of_mapM (fun q early => opens q (by simp [split, early])) own ran₁
  have known := Filled.of_mapM ordered split put size₂ opens apart start ran₁
  have has := put.has before p after split
  -- blocks that are filled later are as they were
  have same : ∀ q ∈ p :: after, u.blocks[q.lowered]? = s₂.blocks[q.lowered]? := by
    intro q late
    obtain ⟨b, there, _⟩ := opens q (by rw [split]; exact List.mem_append_right _ late)
    exact all.others _ (Array.getElem?_eq_some_iff.mp there).1 (elsewhere q late)
  obtain ⟨m, m', T, fills⟩ := fills_of_fillBlock (placed_ok.mp ran)
  have frame := fills.frame (s := u)
    (by rw [State.Open, same p List.mem_cons_self]; exact opens p member)
  have opens' : ∀ q ∈ after, v.Open q.lowered := by
    intro q late
    obtain ⟨b, there, waits⟩ := opens q (by simp [split, late])
    rw [← same q (List.mem_cons_of_mem p late)] at there
    refine ⟨b, ?_, waits⟩
    rw [frame.others _ (Array.getElem?_eq_some_iff.mp there).1]
    · exact there
    · exact fun again => here (again ▸ List.mem_map_of_mem late)
  have suffix := FilledAll.of_mapM opens' rest ran₂
  rw [waiting] at phased
  have completed := Completed.of_put put apart whole.toExtends phased.completed
  obtain ⟨b, there, rfl, _⟩ := frame.exit
  have final := suffix.toExtends.trans completed.toExtends
  refine ⟨⟨_, s₂.nextId, u, m, m', v, T, _, fills, (same p List.mem_cons_self).trans has.block,
    all.size.trans size₂, (known.with_phis ordered split put size₂ all).1, has.types, ?_, all.nextId, ?_,
    known.fresh, fun stock => all.stock ?_, fun r param untouched => ?_, final, ?_, ?_,
    fun i phi at_i => ?_, fun r missing => ?_⟩⟩
  · rw [put.nextId, split, phiCount_append, phiCount_cons]
    omega
  · exact known.known
  · rw [put.same]
    exact ⟨(begun.stock stock).panic, (begun.stock stock).texts⟩
  · rw [all.kept r untouched, put.kept r (ordered.params r param), values]
  · refine find?_of_nodup ?_ (e := (p.id.num, b.name)) (by rw [listed]; simp)
    obtain ⟨_, _, ids, _⟩ := phased.blocks_begun done first empty
    have numbers : exits.map (·.1) = order.map (·.num) := by
      rw [whole.numbers, ← ids, List.map_map]
      rfl
    rw [numbers]
    exact List.Pairwise.map _ (fun a b other same => other (Ir.BlockId.num_inj.mp same)) once
  · obtain ⟨b', there', becomes⟩ := final.blocks _ b there
    exact ⟨b', there', becomes.name⟩
  · refine completed.phis _ (List.mem_flatten.mpr ⟨_, List.mem_map_of_mem member, ?_⟩)
    exact List.mem_map.mpr ⟨(phi, i), List.mem_zipIdx_iff_getElem?.mpr at_i, rfl⟩
  · rw [completed.same]
    exact suffix.kept r missing

omit ordered size params born in
/-- The phases after the blocks are made: phis are put, blocks are filled, phis are completed. -/
theorem stages (ordered : Ordered f ps) : PutAll ps s₁ s₂ ∧ FilledAll ps exits s₂ s₃ ∧
    Completed f hasStart exits wss.flatten s₃ t := by
  have apart := phased.apart done first empty once
  obtain ⟨put, waiting⟩ := PutAll.of_mapM (phased.blank done first empty) apart ordered.once phased.put
  have all := FilledAll.of_mapM put.opens apart phased.filled
  refine ⟨put, all, ?_⟩
  rw [waiting] at phased ⊢
  exact Completed.of_put put apart all.toExtends phased.completed

omit ordered size params born in
/-- Blocks are left in blocks with names of their own. -/
theorem distinct (ordered : Ordered f ps) (names : t.names.Nodup) : (exits.map (·.2)).Nodup := by
  obtain ⟨_, all, completed⟩ := phased.stages done first empty once ordered
  obtain ⟨js, distinct, closed, named⟩ := all.left
  have named' : exits.map (fun e => some e.2) = js.map fun j => t.names[j]? := by
    rw [named]
    refine List.map_congr_left fun j listed => ?_
    obtain ⟨b, there, _⟩ := closed j listed
    obtain ⟨b', there', becomes⟩ := completed.blocks j b there
    rw [getElem?_names, there, there', Option.map_some, Option.map_some, becomes.name]
  refine List.Nodup.of_map some ?_
  rw [List.map_map]
  show (exits.map fun e => some e.2).Nodup
  rw [named']
  have inside : ∀ j ∈ js, j < t.names.length := by
    intro j listed
    obtain ⟨b, there, _⟩ := closed j listed
    obtain ⟨b', there', _⟩ := completed.blocks j b there
    rw [State.names, List.length_map, Array.length_toList]
    exact (Array.getElem?_eq_some_iff.mp there').1
  refine List.Nodup.map_on (fun i one j two same => ?_) distinct
  rw [List.getElem?_eq_getElem (inside i one), List.getElem?_eq_getElem (inside j two)] at same
  exact names.getElem_inj_iff.mp (Option.some.inj same)

omit ordered size params born in
/-- What is declared while a body is lowered comes after what was there. -/
theorem heads (ordered : Ordered f ps) : s.Heads t ∧ (s.Stock → t.Stock) := by
  obtain ⟨begun, _⟩ := phased.begun
  obtain ⟨put, all, completed⟩ := phased.stages done first empty once ordered
  have tables : s₂.functions = s₁.functions ∧ s₂.globals = s₁.globals ∧ s₂.declared = s₁.declared ∧
      s₂.texts = s₁.texts := by
    rw [put.same]
    exact ⟨rfl, rfl, rfl, rfl⟩
  obtain ⟨functions, globals, declared, texts⟩ := tables
  refine ⟨begun.toHeads.trans ((State.Heads.of_tables functions globals).trans
    (all.toHeads.trans completed.toHeads)), fun stock => completed.stock (all.stock ?_)⟩
  have stock₁ := begun.stock stock
  refine ⟨?_, ?_⟩
  · rw [declared, functions]
    exact stock₁.panic
  · rw [texts, globals]
    exact stock₁.texts

omit ordered size params born in
/-- The block in front of an entry that is jumped to has nothing in it but the jump to the entry. -/
theorem front (ordered : Ordered f ps) (start : hasStart = true) :
    ∃ b, t.blocks[0]? = some b ∧ b.insts = [] ∧ b.term = some (.br (nameOf f.entry)) := by
  obtain ⟨put, all, completed⟩ := phased.stages done first empty once ordered
  obtain ⟨b, there, none, ends⟩ :
      ∃ b, s₀.blocks[0]? = some b ∧ b.insts = [] ∧ b.term = some (.br (nameOf f.entry)) := by
    rcases phased.started with ⟨none, _⟩ | ⟨_, ran⟩
    · cases start.symm.trans none
    · obtain ⟨begun, _, count⟩ := startBlock_ok done first empty ran
      obtain ⟨b, there, ends⟩ := begun.terms 0 _ ⟨rfl, rfl, rfl⟩
      have none := count 0
      rw [State.count, there] at none
      exact ⟨b, there, List.length_eq_zero_iff.mp none, ends⟩
  obtain ⟨b₁, there₁, becomes₁⟩ := (extends_of_made phased.made).1.blocks 0 b there
  have elsewhere : 0 ∉ ps.map (·.lowered) := by
    intro listed
    obtain ⟨p, member, own⟩ := List.mem_map.mp listed
    have blank := phased.blank done first empty p member
    rw [own, there₁] at blank
    have closed := (becomes₁.term _ ends).1
    rw [Option.some.inj blank] at closed
    cases closed
  rw [← put.others 0 elsewhere] at there₁
  obtain ⟨b', there', becomes⟩ := (all.toExtends.trans completed.toExtends).blocks 0 b₁ there₁
  obtain ⟨ends', length⟩ := (becomes₁.trans becomes).term _ ends
  rw [none] at length
  exact ⟨b', there', List.length_eq_zero_iff.mp length, ends'⟩

end Phased

/-- A function that is checked and assigns each register once is lowered in such an order. -/
theorem Ordered.of_grounded {f : Ir.Function} {order : List Ir.BlockId} {ps : List Placement}
    (numbered : f.WellNumbered) (grounded : f.Grounded) (single : f.SingleAssignment)
    (declared : ∀ p ∈ f.params, f.declares p = true) (absent : f.declares .absent = false)
    (ordered : f.reversePostorder = .ok order) (ids : ps.map (·.id) = order)
    (found : ∀ p ∈ ps, f.block? p.id = some p.block) : Ordered f ps := by
  obtain ⟨_, walked, once, reached⟩ := Ir.Function.reversePostorder_ok numbered
  cases ordered.symm.trans walked
  have path : ∀ p ∈ ps, ∃ prev written, f.Arrives prev p.id written := fun p member =>
    ((reached p.id).mp (ids ▸ List.mem_map_of_mem member)).arrives
  have sound : ∀ p ∈ ps, ∃ prev written, p.block.Grounded f prev written := by
    intro p member
    obtain ⟨prev, written, path⟩ := path p member
    exact ⟨prev, written, grounded prev p.id written _ path (found p member)⟩
  have targets : ∀ p ∈ ps, ∀ i ∈ p.block.insts, ∀ r, i.target? = some r → f.declares r = true := by
    intro p member
    obtain ⟨_, _, sound⟩ := sound p member
    exact sound.targets
  have dests : ∀ p ∈ ps, ∀ r ∈ p.dests, f.declares r = true := by
    intro p member r dest
    obtain ⟨_, _, sound⟩ := sound p member
    obtain ⟨phi, listed, rfl⟩ := List.mem_map.mp dest
    exact (sound.phis phi listed).1
  have same : ∀ p ∈ ps, ∀ q ∈ ps, ∀ r, f.declares r = true → r ∈ p.block.writes → r ∈ q.block.writes →
      p.id = q.id := fun p one q two r known here there =>
    single.block_eq numbered (found p one) (found q two) known here there
  have phi_writes : ∀ p : Placement, ∀ r ∈ p.dests, r ∈ p.block.writes := fun p r dest =>
    List.mem_append_left _ dest
  refine ⟨?args, targets, dests, ?once, ?apart, ?params, absent⟩
  case args =>
    intro before p after split is i js place r read
    by_cases own : r ∈ p.block.writesUpTo is
    · exact .inr own
    have member : p ∈ ps := by simp [split]
    have sure : ∀ prev written, f.Arrives prev p.id written → r ∈ written := fun prev written path =>
      (List.mem_append.mp ((grounded prev p.id written _ path (found p member)).args is i js place r
        read)).resolve_right own
    have place : order = before.map (·.id) ++ p.id :: after.map (·.id) := by simp [← ids, split]
    rcases Ir.Function.written_ahead ordered place sure with param | ⟨id, early, b, there, wrote⟩
    · exact .inl ⟨declared r param, .inl param⟩
    · obtain ⟨q, listed, rfl⟩ := List.mem_map.mp early
      have among : q ∈ ps := by simp [split, listed]
      cases (found q among).symm.trans there
      obtain ⟨_, _, sound⟩ := sound q among
      exact .inl ⟨sound.declares_of_writes wrote, .inr ⟨q, listed, wrote⟩⟩
  case once =>
    obtain ⟨bs, all⟩ := numbered.allBlocks
    refine List.nodup_flatMap.mpr ⟨fun p member => ?_, ?_⟩
    · have listed : p.block ∈ bs := by
        have there := found p member
        rw [Ir.Function.block?_of_allBlocks all] at there
        exact List.mem_of_getElem? there
      have nodup := (single.parts all).2.1 p.block listed
      rw [Ir.Block.writes, Ir.Block.writesUpTo, List.filter_append, List.nodup_append] at nodup
      rw [← List.filter_eq_self.mpr (dests p member)]
      exact nodup.1
    · rw [← ids, List.Nodup, List.pairwise_map] at once
      refine once.imp_of_mem fun {p q} one two other => fun r here there => other ?_
      exact same p one q two r (dests p one r here) (phi_writes p r here) (phi_writes q r there)
  case apart =>
    intro p one r dest q two i inside target
    have known := dests p one r dest
    have wrote : r ∈ q.block.writes :=
      List.mem_append_right _ (List.mem_filterMap.mpr ⟨i, inside, target⟩)
    have blocks := found q two
    rw [← same p one q two r known (phi_writes p r dest) wrote, found p one] at blocks
    rw [← Option.some.inj blocks] at inside
    exact single.not_phi numbered (found p one) known inside target dest
  case params =>
    intro r param dest
    obtain ⟨p, member, dest⟩ := List.mem_flatMap.mp dest
    exact single.not_param numbered (found p member) (dests p member r dest) (phi_writes p r dest) param

end TieredEngine.Ship.Lowering
