import TieredEngine.Proofs.Pass.Simulation

/-!
Whole blocks of a rewritten function: the phis read their inputs at the end of the block control
came from and are written together, the instructions follow, and the terminator leads to the same
place. A run is a chain of such blocks.
-/
namespace TieredEngine.Pass
open TieredEngine.Ir TieredEngine.Eval

variable {κ ε : Type} {n : Nat} {k : Facts} {f f' : Function}

theorem of_guard {p : Prop} [Decidable p] {u : Unit} (passed : (guard p : Option Unit) = some u) :
    p := by
  unfold guard at passed
  split at passed
  · assumption
  · cases passed

/-- Values of phis: those nobody reads may be missing after the rewriting. -/
inductive Moves (k : Facts) : List (Reg × Value) → List (Reg × Value) → Prop where
  | nil : Moves k [] []
  | keep {r : Reg} {v : Value} {xs xs' : List (Reg × Value)} (tail : Moves k xs xs') :
      Moves k ((r, v) :: xs) ((r, v) :: xs')
  | drop {r : Reg} {v : Value} {xs xs' : List (Reg × Value)} (unused : ¬ k.used r)
      (tail : Moves k xs xs') : Moves k ((r, v) :: xs) xs'

/-- Input of a phi along an edge. -/
def phiInput (fr : Frame) (pred : BlockId) (p : Phi) : Except Error (Reg × Value) :=
  match p.valueFor? pred with
  | none => .error (fr.fail (.phiWithoutInput p.dest pred))
  | some r => do return (p.dest, ← fr.get r)

theorem phiInput_eq_ok {fr : Frame} {pred : BlockId} {p : Phi} {r : Reg} {v : Value}
    (value : p.valueFor? pred = some r) (held : fr.reg? r = some v) :
    phiInput fr pred p = .ok (p.dest, v) := by
  unfold phiInput
  rw [value]
  simp only [Frame.get_eq_ok.mpr held, bind, Except.bind, pure, Except.pure]

/-- The inputs of all phis of a block are there and hold the same values in both frames. -/
theorem phis_read {edge : BlockId → Prop} {ps ps' : List Phi} (rewritten : k.Phis edge ps ps')
    {pred : BlockId} (kept : edge pred) {fr fr' : Frame}
    (used : ∀ r, k.used r → fr'.reg? r = fr.reg? r)
    (each : ∀ p ∈ ps, ∃ r v, p.valueFor? pred = some r ∧ fr.reg? r = some v ∧
      ∀ r', k.Same r r' → fr.reg? r' = fr.reg? r) :
    ∃ xs xs', ps.mapM (phiInput fr pred) = .ok xs ∧
      ps'.mapM (phiInput fr' (k.place pred)) = .ok xs' ∧ Moves k xs xs' ∧
      xs.map (·.1) = ps.map (·.dest) := by
  induction rewritten with
  | nil => exact ⟨[], [], rfl, rfl, .nil, rfl⟩
  | @keep p p' ps ps' dest inputs tail ih =>
    obtain ⟨r, v, value, held, same⟩ := each p (by simp)
    obtain ⟨r', value', renamed, read⟩ := inputs pred r kept value
    have held' : fr'.reg? r' = some v := by rw [used r' read, same r' renamed, held]
    obtain ⟨xs, xs', left, right, moves, dests⟩ := ih fun q member => each q (by simp [member])
    refine ⟨(p.dest, v) :: xs, (p.dest, v) :: xs', ?_, ?_, .keep moves, by simp [dests]⟩
    · exact mapM_eq_ok.mpr (.cons (phiInput_eq_ok value held) (mapM_eq_ok.mp left))
    · exact mapM_eq_ok.mpr (.cons (dest ▸ phiInput_eq_ok value' held') (mapM_eq_ok.mp right))
  | @drop p ps ps' unused tail ih =>
    obtain ⟨r, v, value, held, _⟩ := each p (by simp)
    obtain ⟨xs, xs', left, right, moves, dests⟩ := ih fun q member => each q (by simp [member])
    refine ⟨(p.dest, v) :: xs, xs', ?_, right, .drop unused moves, by simp [dests]⟩
    exact mapM_eq_ok.mpr (.cons (phiInput_eq_ok value held) (mapM_eq_ok.mp left))

/-- The two runs are about to enter a block. The inputs of its phis are read at the end of the
block they come from, so the copies there still count. -/
structure Entering (k : Facts) (f f' : Function) (prev : Option BlockId) (id : BlockId)
    (written : List Reg) (fr fr' : Frame) : Prop where
  path : f.Arrives prev id written
  tracks : Tracks k f f' id written [] fr fr'
  edge : ∀ pred, prev = some pred → EdgeKept k f f' id pred
  inputs : ∀ pred, prev = some pred → ∃ c, f.block? pred = some c ∧ id ∈ c.term.successors ∧
    ∀ d s, k.copy d s → f.SureAt pred c.writes d → fr.reg? d = fr.reg? s

section Block

variable (rewrites : Rewrites k f f') (just : k.Justified f) (regular : Regular n f)
  {prev : Option BlockId} {id : BlockId} {written : List Reg}
  (path : f.Arrives prev id written) {b : Block} (found : f.block? id = some b)
include rewrites just regular path found

/-- Phis are written together; a value of the wrong type stops the original. -/
theorem setAll_tracks {xs xs' : List (Reg × Value)} (moves : Moves k xs xs') {extra : List Reg}
    {fr fr' : Frame} (tracks : Tracks k f f' id written extra fr fr')
    (phis : ∀ r ∈ extra ++ xs.map (·.1), r ∈ b.phis.map (·.dest)) :
    (∃ e, fr.setAll xs = .error e ∧ e.kind = .typeMismatch) ∨
      ∃ g g', fr.setAll xs = .ok g ∧ fr'.setAll xs' = .ok g' ∧
        Tracks k f f' id written (extra ++ xs.map (·.1)) g g' := by
  have reached := path.reachable
  have notPhi : ∀ d s, k.copy d s → d ∉ b.phis.map (·.dest) := fun d s copy =>
    ((just.copy d s copy).2.2 id b reached found).1
  -- a phi is no constant and no copy, and writing it leaves no copy stale
  have write : ∀ {r : Reg} {v : Value} {extra : List Reg} {fr fr' g' : Frame},
      Tracks k f f' id written extra fr fr' → r ∈ b.phis.map (·.dest) →
      (∀ x ∈ extra, x ∈ b.phis.map (·.dest)) → g'.function = f' → g'.Sized →
      g'.stats.blocks = fr'.stats.blocks →
      (∀ x, k.used x → g'.reg? x = if x = r then some v else fr'.reg? x) →
      Tracks k f f' id written (extra ++ [r]) (fr.put r v) g' := by
    intro r v extra fr fr' g' tracks phi inside function' sized' blocks' right
    obtain ⟨p, member, rfl⟩ := List.mem_map.mp phi
    have declared := ((regular.grounded _ _ _ _ path found).phis p member).1
    refine tracks.write just declared function' sized' blocks' right ?_ ?_ ?_
    · intro c known
      exact absurd phi ((just.constant _ c known).2 id b reached found).1
    · intro s copy
      exact absurd phi (notPhi _ s copy)
    · intro d copy sure
      refine ((just.fresh regular.numbered regular.grounded regular.single copy) id b reached
        found).1 phi ?_
      intro prev early any
      rcases List.mem_append.mp (sure prev early any) with before | among
      · exact List.mem_append_left _ before
      · exact absurd (inside d among) (notPhi d _ copy)
  induction moves generalizing extra fr fr' with
  | nil => exact .inr ⟨fr, fr', rfl, rfl, by simpa using tracks⟩
  | @keep r v xs xs' tail ih =>
    have phi : r ∈ b.phis.map (·.dest) := phis r (by simp)
    have inside : ∀ x ∈ extra, x ∈ b.phis.map (·.dest) := fun x member => phis x (by simp [member])
    obtain ⟨p, member, rfl⟩ := List.mem_map.mp phi
    have declared := ((regular.grounded _ _ _ _ path found).phis p member).1
    have name : fr'.function.name = fr.function.name := by
      rw [tracks.function', tracks.function, rewrites.name]
    have types : fr'.function.regTypes = fr.function.regTypes := by
      rw [tracks.function', tracks.function, rewrites.regTypes]
    rcases set_alike name types p.dest v with ⟨left, right⟩ | ⟨e, e', left, right, alike⟩
    · have next : Tracks k f f' id written (extra ++ [p.dest]) (fr.put p.dest v)
          (fr'.put p.dest v) :=
        write tracks phi inside tracks.function' (Frame.sized_put tracks.sized' p.dest v) rfl
          fun x _ => Frame.reg?_put tracks.sized'
            (by rw [tracks.function', rewrites.declares, declared]) v x
      have rest := ih next (by simpa using phis)
      simpa [Frame.setAll, left, right, bind, Except.bind] using rest
    · rcases Frame.set_of_declared (tracks.function ▸ declared) v with done | ⟨e₂, failed, kind⟩
      · rw [done] at left
        cases left
      · exact .inl ⟨e₂, by simp only [Frame.setAll, failed, bind, Except.bind], kind⟩
  | @drop r v xs xs' unused tail ih =>
    have phi : r ∈ b.phis.map (·.dest) := phis r (by simp)
    have inside : ∀ x ∈ extra, x ∈ b.phis.map (·.dest) := fun x member => phis x (by simp [member])
    obtain ⟨p, member, rfl⟩ := List.mem_map.mp phi
    have declared := ((regular.grounded _ _ _ _ path found).phis p member).1
    rcases Frame.set_of_declared (tracks.function ▸ declared) v with done | ⟨e, failed, kind⟩
    · have next : Tracks k f f' id written (extra ++ [p.dest]) (fr.put p.dest v) fr' :=
        write tracks phi inside tracks.function' tracks.sized' rfl fun x used => by
          rw [if_neg]
          rintro rfl
          exact unused used
      have rest := ih next (by simpa using phis)
      simpa [Frame.setAll, done, bind, Except.bind] using rest
    · exact .inl ⟨e, by simp only [Frame.setAll, failed, bind, Except.bind], kind⟩

omit path in
/-- The phis of a block, in both runs. -/
theorem applyPhis_tracks {b' : Block} (blocks : k.Blocks (EdgeKept k f f' id) b b') {fr fr' : Frame}
    (entering : Entering k f f' prev id written fr fr') :
    (∃ e, fr.applyPhis b prev = .error e ∧ e.kind = .typeMismatch) ∨
      ∃ g g', fr.applyPhis b prev = .ok g ∧ fr'.applyPhis b' (prev.map k.place) = .ok g' ∧
        Tracks k f f' id written (b.writesUpTo []) g g' := by
  have path := entering.path
  have grounded := regular.grounded _ _ _ _ path found
  have start : b.writesUpTo [] = b.phis.map (·.dest) := by simp [Block.writesUpTo]
  by_cases none : b.phis = []
  · have none' : b'.phis = [] := by
      have phis := blocks.phis
      rw [none] at phis
      generalize b'.phis = ps at phis
      cases phis
      rfl
    refine .inr ⟨fr, fr', by simp [Frame.applyPhis, none], by simp [Frame.applyPhis, none'], ?_⟩
    simpa [start, none] using entering.tracks
  · obtain ⟨p, member⟩ := List.exists_mem_of_ne_nil _ none
    obtain ⟨_, pred, _, rfl, _, _⟩ := grounded.phis p member
    obtain ⟨c, last, branch, copies⟩ := entering.inputs pred rfl
    obtain ⟨xs, xs', left, right, moves, dests⟩ := phis_read blocks.phis
      (entering.edge pred rfl) entering.tracks.used fun q inside => by
        obtain ⟨_, pred', r, same, value, early⟩ := grounded.phis q inside
        cases same
        obtain ⟨v, held⟩ := Option.isSome_iff_exists.mp
          ((entering.tracks.defined r).mpr (List.mem_append_left _ early))
        refine ⟨r, v, value, held, fun r' renamed => ?_⟩
        refine Tracks.same just regular.grounded last (List.append_nil _).symm copies renamed ?_
        intro before early any
        obtain ⟨_, pred', r₂, same, value₂, written₂⟩ :=
          (regular.grounded _ _ _ _ (any.step last branch) found).phis q inside
        cases same
        cases value.symm.trans value₂
        exact written₂
    have original : fr.applyPhis b (some pred) = fr.setAll xs := by
      have whole : fr.resolvePhis b (some pred) = b.phis.mapM (phiInput fr pred) >>= fr.setAll := rfl
      rw [Frame.applyPhis, if_neg (by simpa using none), whole, left]
      rfl
    have result : fr'.applyPhis b' (some (k.place pred)) = fr'.setAll xs' := by
      have whole : fr'.resolvePhis b' (some (k.place pred)) =
          b'.phis.mapM (phiInput fr' (k.place pred)) >>= fr'.setAll := rfl
      by_cases none' : b'.phis = []
      · rw [none'] at right
        cases right
        simp [Frame.applyPhis, none', Frame.setAll]
      · rw [Frame.applyPhis, if_neg (by simpa using none'), whole, right]
        rfl
    rw [original, Option.map_some, result, start, ← dests]
    exact setAll_tracks rewrites just regular path found moves entering.tracks
      (by simp [dests])

/-- Where the terminator leads is the same in both runs. -/
theorem terminate_match {b' : Block} (terms : k.Terms b.term b'.term) {fr fr' : Frame}
    (tracks : Tracks k f f' id written b.writes fr fr') :
    (∃ e e', fr.terminate b.term = .error e ∧ fr'.terminate b'.term = .error e' ∧ e.Alike e') ∨
    (∃ v, fr.terminate b.term = .ok (.done v) ∧ fr'.terminate b'.term = .ok (.done v)) ∨
    ∃ next ∈ b.term.successors, fr.terminate b.term = .ok (.goto next) ∧
      fr'.terminate b'.term = .ok (.goto (k.place next)) ∧
      k.place next ∈ b'.term.successors := by
  have name : fr'.function.name = fr.function.name := by
    rw [tracks.function', tracks.function, rewrites.name]
  have sig : fr'.function.sig = fr.function.sig := by
    rw [tracks.function', tracks.function, rewrites.sig]
  have sure : ∀ r ∈ b.term.uses, f.SureAt id b.writes r := fun r member _ _ any =>
    (regular.grounded _ _ _ _ any found).uses r member
  have held : ∀ r ∈ b.term.uses, ∃ v, fr.reg? r = some v ∧
      ∀ r', k.Same r r' → k.used r' → fr'.reg? r' = some v := by
    intro r member
    obtain ⟨v, held⟩ := Option.isSome_iff_exists.mp
      ((tracks.defined r).mpr (sure r member _ _ path))
    refine ⟨v, held, fun r' same used => ?_⟩
    rw [tracks.used r' used, ← held]
    exact Tracks.same just regular.grounded found (List.append_nil _).symm tracks.copy same
      (sure r member)
  revert terms
  generalize b'.term = t'
  intro terms
  cases terms with
  | keep σ same =>
    cases term : b.term with
    | missing => exact .inl ⟨_, _, rfl, rfl, name, rfl⟩
    | unreachable => exact .inl ⟨_, _, rfl, rfl, name, rfl⟩
    | br t =>
      exact .inr (.inr ⟨t, by simp [Term.successors], rfl, rfl, by simp [Term.map, Term.successors]⟩)
    | condBr c yes no =>
      have member : c ∈ b.term.uses := by simp [term, Term.uses]
      obtain ⟨v, at_c, others⟩ := held c member
      have at_c' := others (σ c) (same c member).1 (same c member).2
      simp only [Term.map, Frame.terminate_condBr at_c, Frame.terminate_condBr at_c']
      split
      · refine .inr (.inr ⟨if v.toBool then yes else no, ?_, rfl, ?_, ?_⟩) <;>
          split <;> simp [Term.successors]
      · exact .inl ⟨_, _, rfl, rfl, name, rfl⟩
    | switch c cases d =>
      have member : c ∈ b.term.uses := by simp [term, Term.uses]
      obtain ⟨v, at_c, others⟩ := held c member
      have at_c' := others (σ c) (same c member).1 (same c member).2
      simp only [Term.map, Frame.terminate_switch at_c, Frame.terminate_switch at_c',
        switchTarget_map]
      split
      · refine .inr (.inr ⟨_, switchTarget_mem v c cases d, rfl, rfl, ?_⟩)
        rw [← switchTarget_map v cases d k.place]
        exact switchTarget_mem v (σ c) _ _
      · exact .inl ⟨_, _, rfl, rfl, name, rfl⟩
    | ret v? =>
      cases v? with
      | none =>
        simp only [Term.map, Option.map_none, Frame.terminate, sig]
        split
        · exact .inl ⟨_, _, rfl, rfl, name, rfl⟩
        · exact .inr (.inl ⟨_, rfl, rfl⟩)
      | some r =>
        have member : r ∈ b.term.uses := by simp [term, Term.uses]
        obtain ⟨v, at_r, others⟩ := held r member
        have at_r' := others (σ r) (same r member).1 (same r member).2
        simp only [Term.map, Option.map_some, Frame.terminate_ret at_r, Frame.terminate_ret at_r',
          sig]
        split
        · exact .inr (.inl ⟨_, rfl, rfl⟩)
        · exact .inl ⟨_, _, rfl, rfl, name, rfl⟩
  | decide known facts chosen =>
    refine .inr (.inr ⟨_, ConstFold.knownTarget?_mem chosen, ?_, rfl, by simp [Term.successors]⟩)
    have constant : ∀ c v, ConstFold.lookup known c = some v → k.constant c v := by
      intro c v found
      obtain ⟨p, among, rfl⟩ := Option.map_eq_some_iff.mp found
      have same : p.1 = c := by simpa using List.find?_some among
      exact same ▸ facts p (List.mem_of_find?_eq_some among)
    cases term : b.term with
    | condBr c yes no =>
      rw [term] at chosen
      obtain ⟨v, found, chosen⟩ := Option.bind_eq_some_iff.mp chosen
      obtain ⟨_, word, chosen⟩ := Option.bind_eq_some_iff.mp chosen
      obtain ⟨x, at_c, _⟩ := held c (by simp [term, Term.uses])
      cases tracks.constant c v x (constant c v found) at_c
      rw [Frame.terminate_condBr at_c, if_pos (of_guard word)]
      cases chosen
      rfl
    | switch c cases d =>
      rw [term] at chosen
      obtain ⟨v, found, chosen⟩ := Option.bind_eq_some_iff.mp chosen
      obtain ⟨_, word, chosen⟩ := Option.bind_eq_some_iff.mp chosen
      obtain ⟨x, at_c, _⟩ := held c (by simp [term, Term.uses])
      cases tracks.constant c v x (constant c v found) at_c
      rw [Frame.terminate_switch at_c, if_pos (of_guard word), switchTarget]
      have flipped : (fun s : SwitchCase => v == Value.ofInt v.ty s.value.toInt) =
          fun s : SwitchCase => Value.ofInt v.ty s.value.toInt == v := by
        funext s
        exact BEq.comm
      rw [flipped]
      revert chosen
      cases cases.find? (fun s => Value.ofInt v.ty s.value.toInt == v) with
      | none =>
        intro chosen
        cases chosen
        rfl
      | some s =>
        intro chosen
        cases chosen
        rfl
    | missing =>
      rw [term] at chosen
      cases chosen
    | br t =>
      rw [term] at chosen
      cases chosen
    | ret v? =>
      rw [term] at chosen
      cases chosen
    | unreachable =>
      rw [term] at chosen
      cases chosen

omit path in
/-- One block in both runs. -/
theorem turn_match {call call' : Call κ ε}
    (calls : CallsMatch (preserving κ ε n) (fun _ => True) call call') {known : FuncId → Bool}
    {fr fr' : Frame} (entering : Entering k f f' prev id written fr fr') {w w' : World κ}
    (worlds : (preserving κ ε n).worlds w w') :
    (preserving κ ε n).Turns (fun _ => True)
      (fun g next g' next' => next' = k.place next ∧
        ∃ written, Entering k f f' (some id) next written g g')
      (Frame.turn call known fr w prev id)
      (Frame.turn call' known fr' w' (prev.map k.place) (k.place id)) := by
  obtain ⟨rfl, size⟩ := worlds
  have path := entering.path
  obtain ⟨b', found', blocks⟩ := rewrites.block id b path.reachable found
  unfold Frame.turn
  rw [entering.tracks.function, entering.tracks.function', found, found']
  have arrived : Entering k f f' prev id written (fr.arrive id) (fr'.arrive (k.place id)) :=
    ⟨path, entering.tracks.congr rfl rfl rfl rfl (by simp [Frame.arrive, entering.tracks.blocks]),
      entering.edge, entering.inputs⟩
  simp only [Frame.runBlock]
  rcases applyPhis_tracks rewrites just regular found blocks arrived with
    ⟨e, failed, kind⟩ | ⟨g, g', applied, applied', tracks⟩
  · simp only [failed]
    exact .left ⟨e, rfl, kind⟩
  · simp only [applied, applied']
    have ran := insts_match just regular path found calls known rewrites blocks.insts
      (List.nil_append _).symm tracks size
    revert ran
    generalize Frame.execAll call known b.insts g w' = out
    generalize Frame.execAll call' known b'.insts g' w' = out'
    intro ran
    cases ran with
    | left free => exact .left free
    | right free => exact free.elim
    | error worlds failures => exact .stop (.error worlds failures)
    | @ok h h' w₁ w₁' worlds tracks =>
      dsimp only
      rcases terminate_match rewrites just regular path found blocks.term tracks with
        ⟨e, e', ended, ended', alike⟩ | ⟨v, ended, ended'⟩ | ⟨next, branch, ended, ended', branch'⟩
      · simp only [ended, ended']
        exact .stop (.error worlds ⟨.fault alike, tracks.blocks⟩)
      · simp only [ended, ended']
        exact .stop (.ok worlds ⟨rfl, tracks.blocks, trivial⟩)
      · simp only [ended, ended']
        refine .go worlds ⟨rfl, written ++ b.writes, path.step found branch, ?_, ?_, ?_⟩
        · -- at the next block nothing of its own is written yet
          refine ⟨tracks.function, tracks.function', tracks.sized, tracks.sized', tracks.blocks,
            fun r => by rw [List.append_nil]; exact tracks.defined r, tracks.used,
            tracks.constant, fun d s copy sure => tracks.copy d s copy ?_⟩
          intro before early any
          simpa using sure _ _ (any.step found branch)
        · intro pred last
          cases last
          exact ⟨path.reachable, b', found', branch'⟩
        · intro pred last
          cases last
          exact ⟨b, found, branch, tracks.copy⟩

end Block

/-- A run of a rewritten function. -/
theorem run_match (rewrites : Rewrites k f f') (just : k.Justified f) (regular : Regular n f)
    {call call' : Call κ ε} (calls : CallsMatch (preserving κ ε n) (fun _ => True) call call')
    {known : FuncId → Bool} (fuel : Nat) {prev : Option BlockId} {id : BlockId}
    {written : List Reg} {fr fr' : Frame} (entering : Entering k f f' prev id written fr fr')
    {w w' : World κ} (worlds : (preserving κ ε n).worlds w w') :
    (preserving κ ε n).Ends (fun _ => True) (Frame.run call known fuel fr w prev id)
      (Frame.run call' known fuel fr' w' (prev.map k.place) (k.place id)) := by
  refine Link.run_ends
    (R := fun prev fr cur prev' fr' cur' => prev' = prev.map k.place ∧ cur' = k.place cur ∧
      ∃ written, Entering k f f' prev cur written fr fr')
    ?_ ?_ (.inl ⟨rfl, Halt.Alike.same _⟩) ⟨rfl, rfl, written, entering⟩ worlds
  · rintro prev fr cur _ fr' _ ⟨_, _, _, entering⟩
    exact entering.tracks.blocks
  · rintro prev fr cur _ fr' _ w w' ⟨rfl, rfl, written, entering⟩ worlds
    obtain ⟨b, found⟩ := entering.path.reachable.present regular.numbered
    refine (turn_match rewrites just regular found calls entering worlds).mono ?_
    rintro g next g' _ ⟨rfl, written, entering⟩
    exact ⟨rfl, rfl, written, entering⟩

end TieredEngine.Pass
