import TieredEngine.Proofs.Pass.FoldedOut
import TieredEngine.Proofs.Pass.Pipeline

/-!
The full pipeline ends at a fixed point. The first round leaves no copies to propagate: what copied
registers were read for is read from their sources, and the copies are then dead. The second round
leaves nothing for any pass: without copies to propagate, nothing of what comes after the folding
makes more to fold. So a third round, if there is one, changes nothing, and the number of rounds that
are allowed does not matter.
-/
namespace TieredEngine.Pass
open TieredEngine.Ir

/-- What the passes are given: a function with a body that the checks accept and that assigns each
register at most once. -/
structure Checked (m : Module) (f : Function) : Prop where
  formed : f.WellFormed m
  single : f.SingleAssignment
  typable : ∃ account, f.Typable account

namespace Checked
variable {m : Module} {f g : Function}

theorem numbered (checked : Checked m f) : f.WellNumbered := checked.formed.numbered

theorem grounded (checked : Checked m f) : f.Grounded := by
  obtain ⟨account, typable⟩ := checked.typable
  have body : f.isExternal = false := by
    have bound := checked.numbered.entry
    simpa [Function.isExternal, ← Array.size_eq_zero_iff] using Nat.ne_of_gt (Nat.zero_lt_of_lt bound)
  exact Function.grounded_of_typed checked.numbered body (typable.typed checked.numbered body)

theorem conserved (checked : Checked m f) (conserves : Conserves m f g) : Checked m g :=
  ⟨conserves.formed, conserves.single checked.single,
    conserves.typable checked.single checked.typable⟩

/-- A pass gives what can be given to the next. -/
theorem pass (checked : Checked m f) {p : Kind} {changed : Bool} (ran : p.run f = .ok (g, changed)) :
    Checked m g := by
  obtain ⟨_, _, ran', conserves⟩ := p.conserves checked.formed
  cases ran.symm.trans ran'
  exact checked.conserved conserves

end Checked

/-- A function in which no pass finds anything to do. -/
structure Settled (f : Function) : Prop where
  folded : ConstFold.FoldedOut f
  copies : CopyProp.CopyFree f
  reachable : Unreachable.AllReachable f
  live : ∃ bs, f.allBlocks = .ok bs ∧ DeadCode.Live bs

theorem Settled.run {f : Function} (settled : Settled f) (numbered : f.WellNumbered) (p : Kind) :
    p.run f = .ok (f, false) := by
  cases p with
  | constFold => exact settled.folded.run numbered
  | copyProp => exact settled.copies.run numbered
  | unreachable => exact settled.reachable.run numbered
  | deadCode =>
    obtain ⟨bs, all, live⟩ := settled.live
    exact live.run all

/-- A pass that reports no change has made none. -/
theorem Kind.unchanged {p : Kind} {f g : Function} (ran : p.run f = .ok (g, false)) : g = f := by
  cases p with
  | constFold => exact ConstFold.run_unchanged ran
  | copyProp => exact CopyProp.run_unchanged ran
  | unreachable => exact Unreachable.run_unchanged ran
  | deadCode => exact DeadCode.run_unchanged ran

/-! ### What the passes keep -/

theorem ConstFold.Settled.moved {all : Known} {f : Function} {b b' : Block} (settled : Settled all b)
    (moves : Unreachable.Moves f b b') : Settled all b' := by
  obtain ⟨place, term⟩ := moves.term
  refine ⟨moves.insts ▸ settled.consts, moves.insts ▸ settled.insts, ?_⟩
  rw [term, knownTarget?_map settled.term]

theorem ConstFold.Settled.shrunk {all : Known} {b b' : Block} (settled : Settled all b)
    (shrinks : DeadCode.Shrinks b b') : Settled all b' where
  consts i member := settled.consts i (shrinks.insts member)
  insts i member := settled.insts i (shrinks.insts member)
  term := shrinks.term ▸ settled.term

/-- Copies come from copies. -/
theorem CopyProp.CopyFree.of_insts {f g : Function} (free : CopyFree f)
    (regTypes : g.regTypes = f.regTypes)
    (origin : ∀ id' b', g.block? id' = some b' → ∃ id b, f.block? id = some b ∧
      ∀ i ∈ b'.insts, i.op = .copy → i ∈ b.insts) : CopyFree g := by
  intro id' b' found' i member defines d s copy
  obtain ⟨id, b, found, copies⟩ := origin id' b' found'
  exact free id b found i (copies i member copy.1) defines d s (copy.congr regTypes)

/-- A function whose blocks have shrunk. -/
theorem Unreachable.AllReachable.shrunk {f : Function} (every : AllReachable f)
    {shrink : Block → Block} (shrinks : ∀ b, DeadCode.Shrinks b (shrink b)) :
    AllReachable (f.mapBlocks shrink) := by
  intro id bound
  have live := every id (by simpa [Function.mapBlocks] using bound)
  refine live.of_branches (f := f.mapBlocks shrink) (g := f) rfl fun x b found => ?_
  refine ⟨shrink b, by rw [Function.block?_mapBlocks, found, Option.map_some], ?_⟩
  rw [(shrinks b).term]

/-! ### Two rounds -/

/-- Some passes, one after the other, make one function of another. -/
inductive Runs : List Kind → Function → Function → Prop where
  | nil {f : Function} : Runs [] f f
  | cons {p : Kind} {ps : List Kind} {f g h : Function} {changed : Bool}
      (first : p.run f = .ok (g, changed)) (rest : Runs ps g h) : Runs (p :: ps) f h

/-- A function in which each copied register is read from its source. -/
def CopyProp.renamed (f : Function) (bs : List Block) : Function :=
  f.mapBlocks (renameBlock (collect f bs))

section Copies

variable {m : Module} {f g : Function} (checked : Checked m f) {bs : List Block}
  (all : f.allBlocks = .ok bs)
include checked all

/-- Once copies are propagated and the blocks that cannot be reached are gone, no copied register is
read. -/
theorem unread_of_moves {account : BlockId → Reg → Prop} (typable : f.Typable account) {b' c : Block}
    {id : BlockId} (live : (CopyProp.renamed f bs).Reachable id)
    (found : (CopyProp.renamed f bs).block? id = some c)
    (moves : Unreachable.Moves (CopyProp.renamed f bs) c b') :
    ∀ r ∈ DeadCode.blockUses b', CopyProp.lookup (CopyProp.collect f bs) r = none := by
  have rewrites := CopyProp.rewrites_rename f (CopyProp.collect f bs)
  have back {x : BlockId} (live : (CopyProp.renamed f bs).Reachable x) : f.Reachable x :=
    rewrites.reachable_of_fixed checked.numbered rfl live
  obtain ⟨b, there, rfl⟩ := Function.block_of_mapBlocks found
  have resolved := CopyProp.unaliased_rename checked.numbered checked.grounded
    (CopyProp.facts_justified checked.numbered checked.single all) typable (back live) there
  intro r read
  simp only [DeadCode.blockUses, List.mem_append, List.mem_flatMap, List.mem_map] at read
  rcases read with (⟨p', member, i', input, rfl⟩ | ⟨i, member, read⟩) | uses
  · obtain ⟨p, inside, i, listed, before, value⟩ := moves.inputs p' member i' input
    rw [value]
    exact resolved.inputs p inside i listed (back before)
  · exact resolved.args i (moves.insts ▸ member) r read
  · obtain ⟨place, term⟩ := moves.term
    rw [term, Term.uses_map, List.map_id'] at uses
    exact resolved.uses r uses

/-- An instruction that is a copy after the renaming was one before it, so its register has been
collected. -/
theorem collected_of_renamed {id : BlockId} (live : f.Reachable id) {b : Block}
    (found : f.block? id = some b) {i : Inst}
    (member : i ∈ (CopyProp.renameBlock (CopyProp.collect f bs) b).insts)
    (defines : i.hasDest = true) {d s : Reg} (copy : CopyProp.CopyOf f i d s) :
    CopyProp.lookup (CopyProp.collect f bs) d ≠ none := by
  obtain ⟨j, inside, rfl⟩ := List.mem_map.mp member
  obtain ⟨op, args, rfl, declared, -, types⟩ := copy
  obtain ⟨s', args', rfl⟩ : ∃ s', j.args = [s'] ∧ CopyProp.resolve (CopyProp.collect f bs) s' = s := by
    simpa [List.map_eq_singleton_iff] using args
  have apart : j.dest ≠ s' := by
    rintro rfl
    have target := Inst.target?_of_hasDest (i := j) defines
    exact Function.not_read_by_writer checked.numbered checked.grounded checked.single live found
      inside target (by simp [args'])
  have same := (CopyProp.facts_typed f bs).same_type
    (CopyProp.same_resolve (CopyProp.collect f bs) s')
  have original : CopyProp.CopyOf f j j.dest s' :=
    ⟨op, args', rfl, declared, apart, types.trans same.symm⟩
  obtain ⟨s'', kept⟩ := CopyProp.collected (Function.mem_of_block? all found) inside defines original
  exact fun none => CopyProp.lookup_eq_none.mp none s'' kept

end Copies

/-- The passes after the folding leave no copies: those that were propagated are not read any more. -/
theorem Checked.copies_go {m : Module} {f : Function} (checked : Checked m f) :
    ∃ g, Runs [.copyProp, .unreachable, .deadCode] f g ∧ Checked m g ∧ CopyProp.CopyFree g := by
  obtain ⟨bs, all⟩ := checked.numbered.allBlocks
  obtain ⟨account, typable⟩ := checked.typable
  have renames : Kind.run .copyProp f =
      .ok (CopyProp.renamed f bs, CopyProp.renamed f bs ≠ f) := bind_eq_ok.mpr ⟨bs, all, rfl⟩
  have first := checked.pass renames
  obtain ⟨g, removed, removes, -, regTypes, moves⟩ := Unreachable.run_moves first.formed
  have second := first.pass (p := .unreachable) removes
  obtain ⟨cs, listed⟩ := second.numbered.allBlocks
  obtain ⟨shrink, swept, sweeps, shrinks, live⟩ := DeadCode.run_live listed
  refine ⟨g.mapBlocks shrink, .cons renames (.cons removes (.cons sweeps .nil)),
    second.pass (p := .deadCode) sweeps, fun id b' found' i member defines d s copy => ?_⟩
  obtain ⟨c, found, rfl⟩ := Function.block_of_mapBlocks found'
  -- the register of the copy is read, for else the copy would have been removed
  have among : shrink c ∈ cs.map shrink := List.mem_map_of_mem (Function.mem_of_block? listed found)
  have used : d ∈ DeadCode.usedBy (cs.map shrink) := by
    have kept := live.keeps among member
    rw [← copy.2.2.1]
    simpa [DeadCode.keepInst, defines, copy.1, Op.hasEffects] using kept
  obtain ⟨_, inside, read⟩ := List.mem_flatMap.mp (List.mem_eraseDups.mp used)
  obtain ⟨e, reader, rfl⟩ := List.mem_map.mp inside
  obtain ⟨x, b, live₁, found₁, move⟩ := moves e.id e (second.numbered.block?_of_mem listed reader)
  have unread := unread_of_moves checked all typable live₁ found₁ move d
    ((shrinks e).blockUses read)
  -- but it was collected, so it is not
  obtain ⟨y, b, live₂, found₂, move⟩ := moves id c found
  have reached : f.Reachable y :=
    (CopyProp.rewrites_rename f _).reachable_of_fixed checked.numbered rfl live₂
  obtain ⟨b₀, found₀, rfl⟩ := Function.block_of_mapBlocks found₂
  exact collected_of_renamed checked all reached found₀
    (move.insts ▸ (shrinks c).insts member) defines (copy.congr regTypes) unread

/-- A round on a function without copies leaves nothing to do. -/
theorem Checked.settles {m : Module} {f : Function} (checked : Checked m f)
    (free : CopyProp.CopyFree f) :
    ∃ g, Runs [.constFold, .copyProp, .unreachable, .deadCode] f g ∧ Checked m g ∧ Settled g := by
  obtain ⟨f₁, _, folds, conserves⟩ := ConstFold.conserves checked.formed
  have first := checked.conserved conserves
  have folded := ConstFold.run_foldedOut checked.numbered checked.grounded checked.single folds
  have free₁ : CopyProp.CopyFree f₁ := free.of_insts conserves.header.regTypes fun id b' found' => by
    obtain ⟨b, found, origin⟩ := ConstFold.run_insts checked.numbered folds found'
    refine ⟨id, b, found, fun i member copy => (origin i member).resolve_right ?_⟩
    simp [copy]
  obtain ⟨f₂, _, removes, every, regTypes, moves⟩ := Unreachable.run_moves first.formed
  have second := first.pass (p := .unreachable) removes
  have free₂ : CopyProp.CopyFree f₂ := free₁.of_insts regTypes fun id' b' found' => by
    obtain ⟨id, b, -, found, move⟩ := moves id' b' found'
    exact ⟨id, b, found, fun i member _ => move.insts ▸ member⟩
  obtain ⟨bs, all⟩ := second.numbered.allBlocks
  obtain ⟨shrink, _, sweeps, shrinks, live⟩ := DeadCode.run_live all
  refine ⟨f₂.mapBlocks shrink,
    .cons folds (.cons (free₁.run first.numbered) (.cons removes (.cons sweeps .nil))),
    second.pass (p := .deadCode) sweeps, ?_, ?_, every.shrunk shrinks,
    ⟨_, Function.allBlocks_mapBlocks all shrink, live⟩⟩
  · obtain ⟨known, settled⟩ := folded
    refine ⟨known, fun id b' _ found' => ?_⟩
    obtain ⟨b₂, found₂, rfl⟩ := Function.block_of_mapBlocks found'
    obtain ⟨x, b₁, live₁, found₁, move⟩ := moves id b₂ found₂
    exact ((settled x b₁ live₁ found₁).moved move).shrunk (shrinks b₂)
  · refine free₂.of_insts rfl fun id b' found' => ?_
    obtain ⟨b, found, rfl⟩ := Function.block_of_mapBlocks found'
    exact ⟨id, b, found, fun i member _ => (shrinks b).insts member⟩

/-! ### Any number of rounds -/

namespace Pipeline
variable {pl : Pipeline} {f g : Function}

/-- No pass of the pipeline changes a function. -/
def Stable (pl : Pipeline) (f : Function) : Prop := ∀ p ∈ pl.passes, p.run f = .ok (f, false)

theorem foldlM_runs {ps : List Kind} (runs : Runs ps f g) {s : Progress} (start : s.function = f) :
    ∃ t, ps.foldlM step s = .ok t ∧ t.function = g := by
  induction runs generalizing s with
  | nil => exact ⟨s, rfl, start⟩
  | @cons p ps f g h changed first _ ih =>
    subst start
    obtain ⟨u, stepped, made⟩ : ∃ u, step s p = .ok u ∧ u.function = g :=
      ⟨_, bind_eq_ok.mpr ⟨(g, changed), first, rfl⟩, rfl⟩
    obtain ⟨t, rest, done⟩ := ih made
    exact ⟨t, foldlM_cons_eq_ok.mpr ⟨u, stepped, rest⟩, done⟩

/-- A round over passes that change nothing. -/
theorem foldlM_stable {ps : List Kind} {s : Progress}
    (stable : ∀ p ∈ ps, p.run s.function = .ok (s.function, false)) :
    ∃ t, ps.foldlM step s = .ok t ∧ t.function = s.function ∧ t.changed = s.changed ∧
      t.report.changes = s.report.changes := by
  induction ps generalizing s with
  | nil => exact ⟨s, rfl, rfl, rfl, rfl⟩
  | cons p ps ih =>
    let u : Progress :=
      { s with report := { s.report with passesRun := s.report.passesRun + 1 } }
    have stepped : step s p = .ok u := by
      refine bind_eq_ok.mpr ⟨(s.function, false), stable p (by simp), ?_⟩
      simp [u, pure, Except.pure]
    obtain ⟨t, rest, same⟩ := ih (s := u) fun q member => stable q (by simp [member])
    exact ⟨t, foldlM_cons_eq_ok.mpr ⟨u, stepped, rest⟩, same⟩

/-- A round that reports no change is one over passes that change nothing. -/
theorem stable_of_foldlM {ps : List Kind} {s t : Progress} (ran : ps.foldlM step s = .ok t)
    (same : t.changed = false) : s.changed = false ∧ t.function = s.function ∧
      ∀ p ∈ ps, p.run s.function = .ok (s.function, false) := by
  induction ps generalizing s with
  | nil =>
    cases ran
    exact ⟨same, rfl, by simp⟩
  | cons p ps ih =>
    obtain ⟨u, stepped, rest⟩ := foldlM_cons_eq_ok.mp ran
    obtain ⟨⟨g, changed⟩, first, done⟩ := bind_eq_ok.mp stepped
    cases done
    obtain ⟨before, function, stable⟩ := ih rest
    obtain ⟨unchanged, rfl⟩ := Bool.or_eq_false_iff.mp before
    obtain rfl := Kind.unchanged first
    exact ⟨unchanged, function, List.forall_mem_cons.mpr ⟨first, stable⟩⟩

/-- A run on a function that no pass changes. -/
theorem runFunction_stable (stable : pl.Stable f) (report : Report) :
    ∃ done, pl.runFunction f report = .ok done ∧ done.function = f ∧ done.changed = false ∧
      done.report.changes = report.changes := by
  unfold runFunction
  split
  · exact ⟨_, rfl, rfl, rfl, rfl⟩
  · cases pl.rounds with
    | zero => exact ⟨_, rfl, rfl, rfl, rfl⟩
    | succ n =>
      obtain ⟨t, ran, function, changed, changes⟩ :=
        foldlM_stable (s := { function := f, report }) stable
      refine ⟨{ t with changed := false }, bind_eq_ok.mpr ⟨t, ran, ?_⟩, function, rfl, changes⟩
      rw [if_neg (by simp [changed])]
      rfl

/-- The limit on the rounds is not looked at by the rounds. -/
theorem repeatRounds_congr {pl' : Pipeline} (same : pl'.passes = pl.passes) (n : Nat) (s : Progress) :
    pl'.repeatRounds n s = pl.repeatRounds n s := by
  induction n generalizing s with
  | zero => rfl
  | succ n ih => simp only [repeatRounds, round, same, ih]

/-- A function that no pass changes after some rounds. -/
inductive Settles (pl : Pipeline) : Nat → Function → Prop where
  | now {f : Function} (stable : pl.Stable f) : Settles pl 0 f
  | later {n : Nat} {f g : Function} (runs : Runs pl.passes f g) (rest : Settles pl n g) :
      Settles pl (n + 1) f

/-- Once one more round is allowed than it takes to settle, further rounds make no difference, and no
pass changes what comes out. -/
theorem repeatRounds_settles {n : Nat} (settles : pl.Settles n f) {s : Progress}
    (start : s.function = f) :
    ∃ done, (∀ more, pl.repeatRounds (n + 1 + more) s = .ok done) ∧ pl.Stable done.function := by
  induction settles generalizing s with
  | @now f stable =>
    subst start
    obtain ⟨t, ran, function, changed, -⟩ :=
      foldlM_stable (s := { function := s.function, report := s.report }) stable
    refine ⟨{ t with changed := s.changed }, fun more => ?_, by rwa [function]⟩
    rw [Nat.zero_add, Nat.add_comm]
    exact bind_eq_ok.mpr ⟨t, ran, by rw [if_neg (by simp [changed])]; rfl⟩
  | @later n f g runs rest ih =>
    subst start
    obtain ⟨t, ran, function⟩ :=
      foldlM_runs runs (s := { function := s.function, report := s.report }) rfl
    by_cases changed : t.changed = true
    · obtain ⟨done, rounds, stable⟩ := ih (s := { t with changed := true }) function
      refine ⟨done, fun more => ?_, stable⟩
      rw [Nat.add_right_comm]
      exact bind_eq_ok.mpr ⟨t, ran, by rw [if_pos changed]; exact rounds more⟩
    · obtain ⟨-, same, stable⟩ := stable_of_foldlM ran (by simpa using changed)
      refine ⟨{ t with changed := s.changed }, fun more => ?_, by rwa [same]⟩
      rw [Nat.add_right_comm]
      exact bind_eq_ok.mpr ⟨t, ran, by rw [if_neg changed]; rfl⟩

/-- The full pipeline on a checked function settles in two rounds. -/
theorem settles_of_checked {m : Module} (checked : Checked m f) :
    Settles (Pipeline.forLevel .o3) 2 f := by
  obtain ⟨f₁, _, folds, conserves⟩ := ConstFold.conserves checked.formed
  obtain ⟨f₂, copies, second, free⟩ := (checked.conserved conserves).copies_go
  obtain ⟨f₃, runs, third, settled⟩ := second.settles free
  exact .later (.cons folds copies) (.later runs (.now fun p _ => settled.run third.numbered p))

/-- The full pipeline reaches a fixed point of its own accord. Run on what has come out, it reports no
change and leaves it as it is; and any number of rounds from three on would have given the same, so
it is not the limit on the rounds that stops it. -/
theorem runFunction_settles {m : Module} (accepted : m.defects = .ok []) (member : f ∈ m.functions)
    (typed : f.typingErrors = .ok []) (single : f.SingleAssignment) (report : Report) :
    ∃ done, (Pipeline.forLevel .o3).runFunction f report = .ok done ∧
      (∀ report', ∃ again, (Pipeline.forLevel .o3).runFunction done.function report' = .ok again ∧
        again.function = done.function ∧ again.changed = false ∧
        again.report.changes = report'.changes) ∧
      ∀ rounds, 3 ≤ rounds →
        ({ Pipeline.forLevel .o3 with rounds } : Pipeline).runFunction f report = .ok done := by
  cases body : f.isExternal with
  | true =>
    have left : ∀ (pl : Pipeline) report, pl.runFunction f report = .ok { function := f, report } :=
      fun pl report => if_pos body
    exact ⟨_, left _ report, fun report' => ⟨_, left _ report', rfl, rfl, rfl⟩,
      fun _ _ => left _ report⟩
  | false =>
    have formed := wellFormed_of_accepted accepted member body
    have checked : Checked m f :=
      ⟨formed, single, Function.typable_of_typed formed.numbered body typed⟩
    obtain ⟨done, ran, stable⟩ := repeatRounds_settles (settles_of_checked checked)
      (s := { function := f, report }) rfl
    have whole : ∀ rounds, 3 ≤ rounds →
        ({ Pipeline.forLevel .o3 with rounds } : Pipeline).runFunction f report = .ok done := by
      intro rounds enough
      have same : ∀ n s, ({ Pipeline.forLevel .o3 with rounds } : Pipeline).repeatRounds n s =
          (Pipeline.forLevel .o3).repeatRounds n s := repeatRounds_congr rfl
      have counted : rounds = 2 + 1 + (rounds - 3) := by omega
      rw [runFunction, if_neg (by simp [body]), same]
      exact (congrArg (fun n => (Pipeline.forLevel .o3).repeatRounds n _) counted).trans (ran _)
    exact ⟨done, whole 8 (by decide), runFunction_stable stable, whole⟩

/-- A function with a constant that is read through a copy. The copy gives no type of its own and is
not folded, so the sum is only when it reads the constant itself. -/
def copied : Function := {
  name := "copied"
  sig := { ret := .i64 }
  regTypes := #[.i64, .i64, .i64]
  blocks := #[
    some { id := ⟨0⟩,
           insts := [{ op := .const, dest := ⟨0⟩, ty := .i64, const := .ofInt .i64 21 },
                     { op := .copy, dest := ⟨1⟩, args := [⟨0⟩] },
                     { op := .add, dest := ⟨2⟩, ty := .i64, args := [⟨0⟩, ⟨1⟩] }],
           term := .ret (some ⟨2⟩) }] }

theorem runFunction_settles_copied :
    ∃ done, (Pipeline.forLevel .o3).runFunction copied {} = .ok done ∧
      done.function.instCount = .ok 1 ∧ done.report.passesRun = 12 ∧
      (∃ again, (Pipeline.forLevel .o3).runFunction done.function {} = .ok again ∧
        again.function = done.function ∧ again.changed = false) ∧
      ({ Pipeline.forLevel .o3 with rounds := 3 } : Pipeline).runFunction copied {} = .ok done := by
  obtain ⟨done, ran, again, rounds⟩ := runFunction_settles (m := { functions := #[copied] })
    (f := copied) (by decide +kernel) (by simp) (by decide +kernel) (by decide +kernel) {}
  have counts : ((Pipeline.forLevel .o3).runFunction copied {} >>= fun done => do
      return (← done.function.instCount, done.report.passesRun)) = .ok (1, 12) := by decide +kernel
  obtain ⟨_, ran', counts⟩ := bind_eq_ok.mp counts
  cases ran.symm.trans ran'
  obtain ⟨count, counted, pair⟩ := bind_eq_ok.mp counts
  obtain ⟨rfl, passes⟩ := Prod.mk.inj (Except.ok.inj pair)
  obtain ⟨out, ran', same, unchanged, -⟩ := again {}
  exact ⟨done, ran, counted, passes, ⟨out, ran', same, unchanged⟩, rounds 3 (by decide)⟩

end Pipeline

end TieredEngine.Pass
