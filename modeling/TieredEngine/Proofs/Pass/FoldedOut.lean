import TieredEngine.Proofs.Ir.Postorder
import TieredEngine.Proofs.Pass.ConstFold

/-!
Constant folding leaves nothing to fold. A register that an instruction reads is written ahead of it
in the order of the visits, so at the visit the pass knows of the register all that it will ever
know; what it does not fold then it would not fold under all constants that it ends with either. A
function in which nothing can be folded under some constants, its own among them, is left as it is.
-/
namespace TieredEngine.Pass.ConstFold
open TieredEngine.Ir TieredEngine.Eval

/-- Under some constants, those of a block among them, nothing in the block can be folded. -/
structure Settled (all : Known) (b : Block) : Prop where
  consts : ∀ i ∈ b.insts, i.op = .const → lookup all i.dest = some i.const
  insts : ∀ i ∈ b.insts, i.op ≠ .const → foldInst? all i = none
  term : knownTarget? all b.term = none

/-- There are constants under which nothing in a function can be folded. -/
def FoldedOut (f : Function) : Prop :=
  ∃ all, ∀ id b, f.Reachable id → f.block? id = some b → Settled all b

theorem lookup_cons (known : Known) (d r : Reg) (v : Value) :
    lookup ((d, v) :: known) r = if d = r then some v else lookup known r := by
  unfold lookup
  by_cases same : d = r <;> simp [same]

theorem lookup_append {new known : Known} {r : Reg} (fresh : ∀ p ∈ new, p.1 ≠ r) :
    lookup (new ++ known) r = lookup known r := by
  induction new with
  | nil => rfl
  | cons p new ih =>
    rw [List.cons_append, lookup_cons, if_neg (fresh p (by simp))]
    exact ih fun q member => fresh q (by simp [member])

/-- What is known of some registers is known in a second list as well. -/
def Below (rs : List Reg) (known all : Known) : Prop :=
  ∀ r ∈ rs, ∀ v, lookup known r = some v → lookup all r = some v

section Below

variable {known all : Known}

theorem Below.lookups {rs : List Reg} (below : Below rs known all) {vs : List Value}
    (found : rs.mapM (lookup known) = some vs) : rs.mapM (lookup all) = some vs := by
  induction rs generalizing vs with
  | nil => exact found
  | cons r rs ih =>
    simp only [List.mapM_cons, Option.bind_eq_bind, Option.bind_eq_some_iff] at found ⊢
    obtain ⟨v, head, vs', tail, same⟩ := found
    exact ⟨v, below r (by simp) v head, vs', ih (fun x member => below x (by simp [member])) tail,
      same⟩

/-- What cannot be folded cannot be folded by knowing less of the operands. -/
theorem Below.foldInst? {i : Inst} (below : Below i.args known all)
    (none : foldInst? all i = none) : foldInst? known i = .none := by
  unfold ConstFold.foldInst? at none ⊢
  split
  · rfl
  · next plain =>
    rw [if_neg plain] at none
    rw [Option.bind_eq_none_iff] at none ⊢
    exact fun vs found => none vs (below.lookups found)

theorem Below.knownTarget? {t : Term} (below : Below t.uses known all)
    (none : knownTarget? all t = none) : knownTarget? known t = .none := by
  cases t with
  | condBr c yes no =>
    simp only [ConstFold.knownTarget?, Option.bind_eq_bind, Option.bind_eq_none_iff] at none ⊢
    exact fun v found => none v (below c (by simp [Term.uses]) v found)
  | switch c cases d =>
    simp only [ConstFold.knownTarget?, Option.bind_eq_bind, Option.bind_eq_none_iff] at none ⊢
    exact fun v found => none v (below c (by simp [Term.uses]) v found)
  | _ => rfl

end Below

/-- Whether a branch is decided does not depend on where it goes. -/
theorem knownTarget?_map {known : Known} {t : Term} (undecided : knownTarget? known t = none)
    (place : BlockId → BlockId) : knownTarget? known (t.map (fun r => r) place) = none := by
  cases t with
  | condBr c yes no =>
    simp only [Term.map, knownTarget?] at undecided ⊢
    cases value : lookup known c with
    | none => rfl
    | some v => cases word : v.ty.isIntLike <;> simp_all
  | switch c cases d =>
    simp only [Term.map, knownTarget?] at undecided ⊢
    cases value : lookup known c with
    | none => rfl
    | some v =>
      cases word : v.ty.isIntLike with
      | false => simp_all
      | true =>
        simp only [value, word, guard, if_true, Option.bind_eq_bind, Option.bind_some,
          Option.pure_def] at undecided
        split at undecided <;> cases undecided
  | _ => rfl

/-! ### Nothing left to fold -/

/-- Folding settled instructions changes none, and adds only what is known already. -/
theorem foldInsts_settled {all : Known} {is : List Inst}
    (consts : ∀ i ∈ is, i.op = .const → lookup all i.dest = some i.const)
    (insts : ∀ i ∈ is, i.op ≠ .const → foldInst? all i = none) {known : Known}
    (below : ∀ rs, Below rs known all) :
    ∃ known', foldInsts known is = (known', is, false) ∧ ∀ rs, Below rs known' all := by
  induction is generalizing known with
  | nil => exact ⟨known, rfl, below⟩
  | cons i is ih =>
    have rest {known : Known} := @ih (fun j member => consts j (by simp [member]))
      (fun j member => insts j (by simp [member])) known
    by_cases const : i.op = .const
    · have more : ∀ rs, Below rs ((i.dest, i.const) :: known) all := by
        intro rs r member v found
        rw [lookup_cons] at found
        split at found
        · next same =>
          cases found
          exact same ▸ consts i (by simp) const
        · exact below rs r member v found
      obtain ⟨known', folded, below'⟩ := rest more
      exact ⟨known', by simp only [foldInsts, if_pos const, folded], below'⟩
    · have kept := (below i.args).foldInst? (insts i (by simp) const)
      obtain ⟨known', folded, below'⟩ := rest below
      exact ⟨known', by simp only [foldInsts, if_neg const, kept, folded], below'⟩

theorem modifyBlock_same {f : Function} {id : BlockId} {b : Block} (found : f.block? id = some b)
    {g : Block → Block} (same : g b = b) : modifyBlock f id g = f := by
  have there := Function.block?_eq_some.mp found
  have blocks : f.blocks.modify id.num (·.map g) = f.blocks := by
    refine Array.ext_getElem? fun i => ?_
    rw [Array.getElem?_modify]
    split
    · next here =>
      subst here
      rw [there, Option.map_some, Option.map_some, same]
    · rfl
  unfold modifyBlock
  rw [blocks]

/-- Visiting a settled block changes nothing. -/
theorem visit_settled {all : Known} {s : State} {id : BlockId} {b : Block}
    (found : s.function.block? id = some b) (settled : Settled all b)
    (below : ∀ rs, Below rs s.known all) :
    ∃ known, visit s id = .ok { s with known } ∧ ∀ rs, Below rs known all := by
  obtain ⟨known, folded, below'⟩ := foldInsts_settled settled.consts settled.insts below
  refine ⟨known, ?_, below'⟩
  have kept : foldBranch known s.function id b = (s.function, false) := by
    unfold foldBranch
    rw [(below' _).knownTarget? settled.term]
  have same : modifyBlock s.function id (fun c => { c with insts := b.insts }) = s.function :=
    modifyBlock_same found rfl
  unfold visit
  rw [found]
  simp only [Crash.deref, bind, Except.bind, pure, Except.pure, folded, same, kept, Bool.or_false]

theorem visits_settled {all : Known} {ids : List BlockId} {s : State}
    (settled : ∀ id ∈ ids, ∃ b, s.function.block? id = some b ∧ Settled all b)
    (below : ∀ rs, Below rs s.known all) : ∃ known, ids.foldlM visit s = .ok { s with known } := by
  induction ids generalizing s with
  | nil => exact ⟨s.known, rfl⟩
  | cons id ids ih =>
    obtain ⟨b, found, fine⟩ := settled id (by simp)
    obtain ⟨known, visited, below'⟩ := visit_settled found fine below
    obtain ⟨last, rest⟩ := ih (s := { s with known })
      (fun x member => settled x (by simp [member])) below'
    exact ⟨last, foldlM_cons_eq_ok.mpr ⟨_, visited, rest⟩⟩

/-- Constant folding leaves a function in which nothing can be folded as it is. -/
theorem FoldedOut.run {f : Function} (numbered : f.WellNumbered) (folded : FoldedOut f) :
    run f = .ok (f, false) := by
  obtain ⟨all, settled⟩ := folded
  obtain ⟨order, walked, -, reached⟩ := Function.reversePostorder_ok numbered
  have listed : ∀ id ∈ order, ∃ b, f.block? id = some b ∧ Settled all b := fun id member => by
    have live := (reached id).mp member
    obtain ⟨b, found⟩ := live.present numbered
    exact ⟨b, found, settled id b live found⟩
  have nothing : ∀ rs, Below rs [] all := fun _ _ _ _ found => by cases found
  obtain ⟨known, visited⟩ := visits_settled (s := { function := f }) listed nothing
  exact bind_eq_ok.mpr ⟨order, walked, bind_eq_ok.mpr ⟨_, visited, rfl⟩⟩

/-! ### Folding that reports no change -/

theorem foldInsts_unchanged {known : Known} {is : List Inst}
    (same : (foldInsts known is).2.2 = false) : (foldInsts known is).2.1 = is := by
  induction is generalizing known with
  | nil => rfl
  | cons i is ih =>
    simp only [foldInsts] at same ⊢
    split at same
    · next const =>
      rw [if_pos const]
      exact congrArg (i :: ·) (ih same)
    · next other =>
      rw [if_neg other]
      split at same
      · exact congrArg (i :: ·) (ih same)
      · cases same

theorem visit_unchanged {s t : State} {id : BlockId} (visited : visit s id = .ok t)
    (same : t.changed = false) : t.function = s.function ∧ s.changed = false := by
  obtain ⟨b, present, done⟩ := bind_eq_ok.mp visited
  have found := Crash.deref_eq_ok.mp present
  generalize folded : foldInsts s.known b.insts = out at done
  obtain ⟨known, insts, flag⟩ := out
  cases done
  simp only [Bool.or_eq_false_iff] at same
  obtain ⟨⟨before, rfl⟩, jumped⟩ := same
  have kept : insts = b.insts := by
    have unchanged : (foldInsts s.known b.insts).2.1 = b.insts :=
      foldInsts_unchanged (by rw [folded])
    rwa [folded] at unchanged
  have unmodified : modifyBlock s.function id (fun c => { c with insts }) = s.function :=
    modifyBlock_same found (by rw [kept])
  refine ⟨?_, before⟩
  rw [unmodified] at jumped ⊢
  cases undecided : knownTarget? known b.term with
  | none => rfl
  | some target => simp [undecided] at jumped

theorem visits_unchanged {ids : List BlockId} {s t : State} (visits : ids.foldlM visit s = .ok t)
    (same : t.changed = false) : t.function = s.function ∧ s.changed = false := by
  induction ids generalizing s with
  | nil =>
    cases visits
    exact ⟨rfl, same⟩
  | cons id ids ih =>
    obtain ⟨u, visited, onward⟩ := foldlM_cons_eq_ok.mp visits
    obtain ⟨last, before⟩ := ih onward
    obtain ⟨first, start⟩ := visit_unchanged visited before
    exact ⟨last.trans first, start⟩

/-- When the folding reports no change there was nothing to fold. -/
theorem run_unchanged {f g : Function} (ran : run f = .ok (g, false)) : g = f := by
  obtain ⟨order, -, rest⟩ := bind_eq_ok.mp ran
  obtain ⟨s, visits, done⟩ := bind_eq_ok.mp rest
  obtain ⟨rfl, same⟩ := Prod.mk.inj (Except.ok.inj done)
  exact (visits_unchanged visits same).1

/-! ### What a folding leaves -/

/-- What is known after an instruction, and what becomes of the instruction. -/
def foldOne (known : Known) (i : Inst) : Known × Inst :=
  if i.op = .const then ((i.dest, i.const) :: known, i)
  else match foldInst? known i with
    | none => (known, i)
    | some v => ((i.dest, v) :: known, { op := .const, dest := i.dest, ty := i.ty, const := v })

theorem foldInsts_cons (known : Known) (i : Inst) (is : List Inst) :
    (foldInsts known (i :: is)).1 = (foldInsts (foldOne known i).1 is).1 ∧
      (foldInsts known (i :: is)).2.1 =
        (foldOne known i).2 :: (foldInsts (foldOne known i).1 is).2.1 := by
  unfold foldOne
  simp only [foldInsts]
  split
  · exact ⟨rfl, rfl⟩
  · cases foldInst? known i <;> exact ⟨rfl, rfl⟩

theorem foldInsts_append (known : Known) (before after : List Inst) :
    (foldInsts known (before ++ after)).1 = (foldInsts (foldInsts known before).1 after).1 := by
  induction before generalizing known with
  | nil => rfl
  | cons i before ih => rw [List.cons_append, (foldInsts_cons ..).1, ih, (foldInsts_cons ..).1]

/-- What folding an instruction adds is a constant for the register that the instruction writes. -/
theorem foldOne_known (known : Known) (i : Inst) :
    (foldOne known i).1 = known ∨
      i.target? = some i.dest ∧ ∃ v, (foldOne known i).1 = (i.dest, v) :: known := by
  unfold foldOne
  split
  · next const => exact .inr ⟨by simp [Inst.target?, const], i.const, rfl⟩
  · split
    · exact .inl rfl
    · next v folded =>
      exact .inr ⟨Inst.target?_of_hasDest (foldInst?_eq_some folded).1, v, rfl⟩

/-- Folding instructions adds constants for registers that they write. -/
theorem foldInsts_known (known : Known) (is : List Inst) :
    ∃ new, (foldInsts known is).1 = new ++ known ∧
      ∀ p ∈ new, ∃ i ∈ is, i.target? = some p.1 := by
  induction is generalizing known with
  | nil => exact ⟨[], rfl, by simp⟩
  | cons i is ih =>
    obtain ⟨new, added, written⟩ := ih (foldOne known i).1
    have later : ∀ p ∈ new, ∃ j ∈ i :: is, j.target? = some p.1 := fun p member =>
      (written p member).imp fun j there => ⟨List.mem_cons_of_mem _ there.1, there.2⟩
    rw [(foldInsts_cons known i is).1, added]
    rcases foldOne_known known i with same | ⟨target, v, learned⟩
    · exact ⟨new, by rw [same], later⟩
    · refine ⟨new ++ [(i.dest, v)], by rw [learned, List.append_assoc]; rfl, fun p member => ?_⟩
      rcases List.mem_append.mp member with more | own
      · exact later p more
      · obtain rfl := List.mem_singleton.mp own
        exact ⟨i, by simp, target⟩

/-- What a folded instruction has become cannot be folded under any constants that agree with those
known at its place on what it reads and writes. -/
theorem foldOne_settles {known all : Known} {i : Inst} (reads : Below i.args all known)
    (writes : i.target? = some i.dest → Below [i.dest] (foldOne known i).1 all) :
    ((foldOne known i).2.op = .const →
        lookup all (foldOne known i).2.dest = some (foldOne known i).2.const) ∧
      ((foldOne known i).2.op ≠ .const → foldInst? all (foldOne known i).2 = none) := by
  revert writes
  unfold foldOne
  split
  · next const =>
    refine fun writes => ⟨fun _ => ?_, fun other => absurd const other⟩
    exact writes (by simp [Inst.target?, const]) i.dest (by simp) i.const (by simp [lookup_cons])
  · next other =>
    split
    · next kept => exact fun _ => ⟨fun const => absurd const other, fun _ => reads.foldInst? kept⟩
    · next v folded =>
      refine fun writes => ⟨fun _ => ?_, fun impossible => absurd rfl impossible⟩
      exact writes (Inst.target?_of_hasDest (foldInst?_eq_some folded).1) i.dest (by simp) v
        (by simp [lookup_cons])

/-- The same of several instructions, the constants known at each place being those known so far. -/
theorem foldInsts_settles {known all : Known} {is : List Inst}
    (agree : ∀ before i after, is = before ++ i :: after →
      Below i.args all (foldInsts known before).1 ∧
      (i.target? = some i.dest → Below [i.dest] (foldInsts known (before ++ [i])).1 all)) :
    ∀ i' ∈ (foldInsts known is).2.1, (i'.op = .const → lookup all i'.dest = some i'.const) ∧
      (i'.op ≠ .const → foldInst? all i' = none) := by
  induction is generalizing known with
  | nil => simp [foldInsts]
  | cons i is ih =>
    rw [(foldInsts_cons known i is).2]
    refine List.forall_mem_cons.mpr ⟨?_, ih fun before j after split => ?_⟩
    · obtain ⟨reads, writes⟩ := agree [] i is rfl
      rw [List.nil_append, (foldInsts_cons known i []).1] at writes
      exact foldOne_settles reads writes
    · have here := agree (i :: before) j after (by rw [split, List.cons_append])
      rw [List.cons_append, (foldInsts_cons known i _).1, (foldInsts_cons known i _).1] at here
      exact here

section Visits

variable {f : Function} (numbered : f.WellNumbered) {visited : List BlockId} {s s' : State}
include numbered

/-- Visiting a block adds constants for registers that it writes, and leaves the instructions of the
other blocks as they are. -/
theorem Folding.frame_visit (folding : Folding f visited s) {id : BlockId} (fresh : id ∉ visited)
    (live : f.Reachable id) (ran : ConstFold.visit s id = .ok s') :
    (∃ new, s'.known = new ++ s.known ∧ ∀ p ∈ new, ∃ c, f.block? id = some c ∧
      ∃ i ∈ c.insts, i.target? = some p.1) ∧
    ∀ x ≠ id, ∀ c, s.function.block? x = some c → ∃ c', s'.function.block? x = some c' ∧
      c'.insts = c.insts ∧ c'.term = c.term := by
  obtain ⟨b, found⟩ := live.present numbered
  obtain ⟨c, found', number, _, waiting, _⟩ := folding.block id b found
  obtain ⟨insts, _⟩ := waiting fresh
  obtain ⟨_, ran', visits⟩ := visit_ok found' (number.trans (numbered.number id b found))
  cases ran.symm.trans ran'
  obtain ⟨first, learned, targets⟩ := foldInsts_known s.known c.insts
  refine ⟨⟨first, by rw [visits.known, learned], fun p member => ?_⟩, fun x other d present => ?_⟩
  · obtain ⟨i, inside, target⟩ := targets p member
    exact ⟨b, found, i, insts ▸ inside, target⟩
  · obtain ⟨d', present', -, -, kept, -⟩ := visits.block x d present
    exact ⟨d', present', kept other⟩

/-- Visiting blocks adds constants for registers that they write, and leaves the instructions of the
others as they are. -/
theorem Folding.frame (folding : Folding f visited s) {ids : List BlockId} (nodup : ids.Nodup)
    (fresh : ∀ id ∈ ids, id ∉ visited) (live : ∀ id ∈ ids, f.Reachable id)
    (ran : ids.foldlM ConstFold.visit s = .ok s') :
    (∃ new, s'.known = new ++ s.known ∧ ∀ p ∈ new, ∃ x ∈ ids, ∃ c, f.block? x = some c ∧
      ∃ i ∈ c.insts, i.target? = some p.1) ∧
    ∀ x ∉ ids, ∀ c, s.function.block? x = some c → ∃ c', s'.function.block? x = some c' ∧
      c'.insts = c.insts ∧ c'.term = c.term := by
  induction ids generalizing visited s with
  | nil =>
    cases ran
    exact ⟨⟨[], rfl, by simp⟩, fun x _ c found => ⟨c, found, rfl, rfl⟩⟩
  | cons id ids ih =>
    obtain ⟨notLater, nodup⟩ := List.nodup_cons.mp nodup
    obtain ⟨freshHere, fresh⟩ := List.forall_mem_cons.mp fresh
    obtain ⟨liveHere, live⟩ := List.forall_mem_cons.mp live
    obtain ⟨t, stepped, rest⟩ := foldlM_cons_eq_ok.mp ran
    obtain ⟨⟨first, learned, own⟩, kept⟩ := folding.frame_visit numbered freshHere liveHere stepped
    obtain ⟨_, stepped', next⟩ := folding.visit numbered freshHere liveHere
    cases stepped.symm.trans stepped'
    have later : ∀ x ∈ ids, x ∉ id :: visited := by
      intro x member
      simp only [List.mem_cons, not_or]
      exact ⟨fun same => notLater (same ▸ member), fresh x member⟩
    obtain ⟨⟨new, added, written⟩, others⟩ := ih next nodup later live rest
    refine ⟨⟨new ++ first, by rw [added, learned, List.append_assoc], fun p member => ?_⟩, ?_⟩
    · rcases List.mem_append.mp member with more | here
      · obtain ⟨x, listed, writer⟩ := written p more
        exact ⟨x, List.mem_cons_of_mem _ listed, writer⟩
      · exact ⟨id, List.mem_cons_self, own p here⟩
    · intro x absent d present
      obtain ⟨other, absent⟩ := not_or.mp (mt List.mem_cons.mpr absent)
      obtain ⟨d₁, present₁, insts₁, term₁⟩ := kept x other d present
      obtain ⟨d₂, present₂, insts₂, term₂⟩ := others x absent d₁ present₁
      exact ⟨d₂, present₂, insts₂.trans insts₁, term₂.trans term₁⟩

end Visits

section Final

variable {f g : Function} (numbered : f.WellNumbered) (grounded : f.Grounded)
  (single : f.SingleAssignment)
include numbered grounded single

/-- What is known at a place of a register that is sure to be written there is all that will be known
of it: what is added later is for other registers. -/
theorem lookup_final {order earlier later : List BlockId} {id : BlockId}
    (ordered : f.reversePostorder = .ok order) (split : order = earlier ++ id :: later) {b : Block}
    (found : f.block? id = some b) {known new : Known}
    (written : ∀ p ∈ new, ∃ x ∈ later, ∃ c, f.block? x = some c ∧
      ∃ i ∈ c.insts, i.target? = some p.1)
    {before after : List Inst} (place : b.insts = before ++ after) {r : Reg}
    (sure : ∀ prev written, f.Arrives prev id written → r ∈ written ++ b.writesUpTo before) :
    lookup (new ++ (foldInsts known b.insts).1) r = lookup (foldInsts known before).1 r := by
  obtain ⟨here, elsewhere⟩ :=
    Function.not_written_later numbered grounded single ordered split found place sure
  obtain ⟨own, learned, targets⟩ := foldInsts_known (foldInsts known before).1 after
  rw [place, foldInsts_append, learned, lookup_append, lookup_append]
  · rintro p member rfl
    obtain ⟨i, inside, target⟩ := targets p member
    exact here i inside target
  · rintro p member rfl
    obtain ⟨x, listed, c, present, i, inside, target⟩ := written p member
    exact elsewhere x listed c present i inside target

/-- A block that has been folded when its turn came is settled under all constants known at the end. -/
theorem settled_final {order earlier later : List BlockId} {id : BlockId}
    (ordered : f.reversePostorder = .ok order) (split : order = earlier ++ id :: later) {b b' : Block}
    (found : f.block? id = some b) {known new : Known}
    (written : ∀ p ∈ new, ∃ x ∈ later, ∃ c, f.block? x = some c ∧
      ∃ i ∈ c.insts, i.target? = some p.1)
    (insts : b'.insts = (foldInsts known b.insts).2.1)
    (term : b'.term = foldTerm (foldInsts known b.insts).1 b.term) :
    Settled (new ++ (foldInsts known b.insts).1) b' := by
  have final {before after : List Inst} (place : b.insts = before ++ after) {r : Reg}
      (sure : ∀ prev written, f.Arrives prev id written → r ∈ written ++ b.writesUpTo before) :
      lookup (new ++ (foldInsts known b.insts).1) r = lookup (foldInsts known before).1 r :=
    lookup_final numbered grounded single ordered split found written place sure
  have agree : ∀ before i after, b.insts = before ++ i :: after →
      Below i.args (new ++ (foldInsts known b.insts).1) (foldInsts known before).1 ∧
      (i.target? = some i.dest → Below [i.dest] (foldInsts known (before ++ [i])).1
        (new ++ (foldInsts known b.insts).1)) := by
    refine fun before i after place => ⟨fun r member v value => ?_, fun target r member v value => ?_⟩
    · rw [← value, final place fun prev written path =>
        (grounded prev id written b path found).args before i after place r member]
    · obtain rfl := List.mem_singleton.mp member
      have place' : b.insts = (before ++ [i]) ++ after := by rw [place, List.append_assoc]; rfl
      rw [← value, final place' fun prev written _ => ?_]
      simp [Block.writesUpTo, target]
  have settles := foldInsts_settles agree
  rw [← insts] at settles
  refine ⟨fun i member => (settles i member).1, fun i member => (settles i member).2, ?_⟩
  rw [term]
  unfold foldTerm
  split
  · next kept =>
    refine Below.knownTarget? (fun r member v value => ?_) kept
    rw [← value, final (List.append_nil _).symm fun prev written path =>
      (grounded prev id written b path found).uses r member]
  · rfl

/-- After constant folding nothing is left to fold. -/
theorem run_foldedOut {changed : Bool} (ran : run f = .ok (g, changed)) : FoldedOut g := by
  obtain ⟨order, s, ordered, nodup, reached, visits, ran', whole⟩ := run_folding numbered
  cases ran.symm.trans ran'
  have live : ∀ id ∈ order, f.Reachable id := fun id member => (reached id).mp member
  have every : ∀ id, f.Reachable id → id ∈ order.reverse := fun id live => by
    simpa using (reached id).mpr live
  refine ⟨s.known, fun id b' live' found' => ?_⟩
  have listed := (reached id).mpr ((whole.rewrites every).reachable_of_fixed numbered rfl live')
  obtain ⟨earlier, later, split⟩ := List.append_of_mem listed
  -- the visits before the block, the visit of the block, and the visits after it
  have apart := nodup
  rw [split, List.nodup_append, List.nodup_cons] at apart
  rw [split] at visits
  obtain ⟨s₁, ahead, onward⟩ := foldlM_append_eq_ok.mp visits
  obtain ⟨s₂, stepped, behind⟩ := foldlM_cons_eq_ok.mp onward
  obtain ⟨_, ahead', folding⟩ := (Folding.start f).visits numbered apart.1 (by simp)
    fun x member => live x (by simp [split, member])
  cases ahead.symm.trans ahead'
  have fresh : id ∉ earlier.reverse ++ [] := by
    simpa using fun member => apart.2.2 id member id (by simp) rfl
  obtain ⟨b, found⟩ := (live id listed).present numbered
  obtain ⟨c, at₁, number, -, waiting, -⟩ := folding.block id b found
  obtain ⟨insts, term⟩ := waiting fresh
  obtain ⟨_, stepped', visit⟩ := visit_ok at₁ (number.trans (numbered.number id b found))
  cases stepped.symm.trans stepped'
  obtain ⟨_, stepped', folding'⟩ := folding.visit numbered fresh (live id listed)
  cases stepped.symm.trans stepped'
  have unseen : ∀ x ∈ later, x ∉ id :: (earlier.reverse ++ []) := by
    intro x member
    simp only [List.mem_cons, List.append_nil, List.mem_reverse, not_or]
    refine ⟨fun same => apart.2.1.1 (same ▸ member), fun early => ?_⟩
    exact apart.2.2 x early x (by simp [member]) rfl
  obtain ⟨⟨new, added, written⟩, others⟩ := folding'.frame numbered apart.2.1.2 unseen
    (fun x member => live x (by simp [split, member])) behind
  obtain ⟨c₂, at₂, -, -, -, own⟩ := visit.block id c at₁
  obtain ⟨c₃, at₃, insts₃, term₃⟩ := others id apart.2.1.1 c₂ at₂
  cases found'.symm.trans at₃
  obtain ⟨insts₂, term₂⟩ := own rfl
  rw [added, visit.known, insts]
  apply settled_final numbered grounded single ordered split found written
  · rw [insts₃, insts₂, insts]
  · rw [term₃, term₂, term, visit.known, insts]

end Final

/-- Folding makes no instructions but constants. -/
theorem run_insts {f g : Function} (numbered : f.WellNumbered) {changed : Bool}
    (ran : run f = .ok (g, changed)) {id : BlockId} {b' : Block} (found' : g.block? id = some b') :
    ∃ b, f.block? id = some b ∧ ∀ i' ∈ b'.insts, i' ∈ b.insts ∨ i'.op = .const := by
  obtain ⟨order, s, -, -, -, -, ran', folding⟩ := run_folding numbered
  cases ran.symm.trans ran'
  obtain ⟨b, found⟩ := folding.back numbered found'
  obtain ⟨c, present, -, -, waiting, done⟩ := folding.block id b found
  cases found'.symm.trans present
  refine ⟨b, found, fun i' member => ?_⟩
  by_cases seen : id ∈ order.reverse
  · obtain ⟨before', after', split'⟩ := List.append_of_mem member
    obtain ⟨before, i, after, split, step, -⟩ :=
      ((done seen).insts s.known (List.Subset.refl _)).split split'
    cases step with
    | fold => exact .inr rfl
    | @keep args renamed =>
      -- there are no copies to rename along
      have equal : List.Forall₂ (· = ·) i.args args := renamed.imp fun r r' pair => by
        cases pair.1.cases_head with
        | inl equal => exact equal
        | inr copied =>
          obtain ⟨_, copy, -⟩ := copied
          exact copy.elim
      rw [List.forall₂_eq_eq_eq] at equal
      subst equal
      exact .inl (by simp [split])
  · exact .inl ((waiting seen).1 ▸ member)

end TieredEngine.Pass.ConstFold
