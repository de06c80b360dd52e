import TieredEngine.Proofs.Ir.Typable
import TieredEngine.Proofs.Ir.WellFormed

/-!
The definedness analysis is exact. What it finds on entry to a reachable block is what is defined by
some block on every route from the entry, together with the parameters: it claims no more, because
its result is a fixed point, and no less, because what is defined on every route is an account and
the analysis never falls below one. The result does not depend on how many rounds are allowed: the
last round changes nothing.
-/
namespace TieredEngine.Ir.Function

variable {f : Function} {edges : List (BlockId × BlockId)} {order : List BlockId}

/-- A register is defined on every route to a block: it is a parameter, or each route goes through a
block that defines it. -/
def DefinedOnEntry (f : Function) (id : BlockId) (r : Reg) : Prop :=
  r ∈ f.params ∨
    ∀ passed, f.Route passed id → ∃ p ∈ passed, ∃ b, f.block? p = some b ∧ r ∈ b.defs

/-- Nothing is defined on the way to the entry. -/
theorem definedOnEntry_entry {r : Reg} : f.DefinedOnEntry f.entry r ↔ r ∈ f.params := by
  refine ⟨fun defined => defined.resolve_right fun every => ?_, .inl⟩
  obtain ⟨p, member, -⟩ := every [] .entry
  cases member

/-- What is defined on every route is an account. -/
theorem definedOnEntry_accounts : f.Accounts f.DefinedOnEntry where
  start r := definedOnEntry_entry.mp
  flow id b s live found branch _ r defined := by
    by_cases own : r ∈ b.defs
    · exact .inr own
    refine .inl (defined.imp_right fun every passed route => ?_)
    obtain ⟨p, member, c, present, defines⟩ := every _ (route.step found branch)
    rcases List.mem_append.mp member with early | last
    · exact ⟨p, early, c, present, defines⟩
    · obtain rfl := List.mem_singleton.mp last
      cases found.symm.trans present
      exact absurd defines own

/-- A step at a settled block changes nothing. -/
theorem flowStep_settled {d : Definedness} {id : BlockId} {b : Block} (found : f.block? id = some b)
    (settled : SettledAt f edges d id b) (c : Bool) : f.flowStep edges (d, c) id = (d, c) := by
  obtain ⟨entered, left⟩ := settled
  have known : d.entry[id.num]? = some (some (f.entrySet edges d id)) :=
    Option.join_eq_some_iff.mp entered
  have kept : d.entry.setIfInBounds id.num (some (f.entrySet edges d id)) = d.entry := by
    obtain ⟨bound, same⟩ := Array.getElem?_eq_some_iff.mp known
    rw [Array.setIfInBounds_def, dif_pos bound, ← same, Array.set_getElem_self]
  unfold flowStep
  simp only [found]
  rw [kept, if_pos (show d.exit? id = some (b.defs.foldl RegSet.insert _) from left)]

/-- A round over settled blocks changes nothing. -/
theorem flowRound_settled {ids : List BlockId} {d : Definedness}
    (settled : ∀ id ∈ ids, ∃ b, f.block? id = some b ∧ SettledAt f edges d id b) (c : Bool) :
    ids.foldl (f.flowStep edges) (d, c) = (d, c) := by
  induction ids with
  | nil => rfl
  | cons id ids ih =>
    obtain ⟨b, found, fixed⟩ := settled id (by simp)
    rw [List.foldl_cons, flowStep_settled found fixed]
    exact ih fun x member => settled x (by simp [member])

/-- More rounds than there are registers in the exit sets are not needed. -/
theorem flow_stops {d : Definedness} (down : Descending f edges order d)
    (present : ∀ id ∈ order, ∃ b, f.block? id = some b) {fuel more : Nat}
    (enough : exitTotal order d < fuel) (least : fuel ≤ more) :
    f.flow edges order more d = f.flow edges order fuel d := by
  induction fuel generalizing d more with
  | zero => omega
  | succ fuel ih =>
    obtain ⟨more, rfl⟩ : ∃ n, more = n + 1 := ⟨more - 1, by omega⟩
    obtain ⟨d', c', round, down', -, effect⟩ :=
      flowRound_spec down (fun _ member => member) present false
    simp only [flow, round]
    split
    · next changed =>
      have fewer : exitTotal order d' < exitTotal order d := by simpa [changed] using effect
      exact ih down' (by omega) (by omega)
    · rfl

/-- The analysis ends by itself, and what it has found is exact: on entry to a reachable block the
declared registers that are defined on every route to it, and at the end of the block those and what
the block defines. -/
theorem definedness_exact {m : Module} (accepted : m.defects = .ok []) (member : f ∈ m.functions)
    (body : f.isExternal = false) :
    ∃ edges order, f.edges = .ok edges ∧ f.reversePostorder = .ok order ∧
      (∀ rounds, order.length * f.regTypes.size + 2 ≤ rounds →
        f.flow edges order rounds (f.definednessStart order) = f.definedness edges order) ∧
      order.foldl (f.flowStep edges) (f.definedness edges order, false) =
        (f.definedness edges order, false) ∧
      ∀ id b, f.Reachable id → f.block? id = some b → ∃ entered left,
        (f.definedness edges order).before? id = some entered ∧
        (f.definedness edges order).exit? id = some left ∧
        ∀ r, f.declares r = true →
          (entered.has r = true ↔ f.DefinedOnEntry id r) ∧
          (left.has r = true ↔ entered.has r = true ∨ r ∈ b.defs) := by
  have numbered := (wellFormed_of_accepted accepted member body).numbered
  obtain ⟨bs, all⟩ := numbered.allBlocks
  obtain ⟨edges, read⟩ : ∃ edges, f.edges = .ok edges := ⟨_, bind_eq_ok.mpr ⟨bs, all, rfl⟩⟩
  obtain ⟨order, walked, -, listed⟩ := reversePostorder_ok numbered
  have present : ∀ id ∈ order, ∃ b, f.block? id = some b := fun id inside =>
    ((listed id).mp inside).present numbered
  have settled : ∀ id ∈ order, ∀ b, f.block? id = some b →
      SettledAt f edges (f.definedness edges order) id b := definedness_settled present
  have start : Descending f edges order (f.definednessStart order) := descending_start
  obtain ⟨down, covers⟩ : Descending f edges order (f.definedness edges order) ∧
      f.Covers f.DefinedOnEntry order (f.definedness edges order) :=
    definedOnEntry_accounts.flow_covers numbered read listed _ start (covers_start f _ order)
  refine ⟨edges, order, read, walked, fun rounds least => ?_, ?_, fun id b live found => ?_⟩
  · have total : exitTotal order (f.definednessStart order) ≤ _ := exitTotal_le start.sizes
    exact flow_stops start present (by omega) least
  · apply flowRound_settled
    intro id inside
    obtain ⟨b, found⟩ := present id inside
    exact ⟨b, found, settled id inside b found⟩
  · have inside := (listed id).mpr live
    obtain ⟨entered, left⟩ := settled id inside b found
    refine ⟨_, _, entered, left, fun r declared => ⟨⟨fun has => ?_, fun defined => ?_⟩, ?_⟩⟩
    · by_cases param : r ∈ f.params
      · exact .inl param
      · refine .inr fun passed route => ?_
        exact (entry_defined numbered read listed route entered has).resolve_left param
    · exact definedOnEntry_accounts.entrySet numbered read listed down covers inside declared defined
    · rw [exitSet, RegSet.has_insertAll_iff, size_entrySet down.sizes]
      simp only [declares_iff.mp declared, and_true]

/-- A branch whose sides come together in a loop, which has a phi; only one register is defined on both
sides. -/
def joining : Function := {
  name := "joining"
  sig := { params := [.bool], ret := .i64 }
  params := [⟨0⟩]
  regTypes := #[.bool, .i64, .i64, .i64]
  blocks := #[
    some { id := ⟨0⟩, term := .condBr ⟨0⟩ ⟨1⟩ ⟨2⟩ },
    some { id := ⟨1⟩,
           insts := [{ op := .const, dest := ⟨1⟩, ty := .i64, const := .ofInt .i64 1 },
                     { op := .copy, dest := ⟨2⟩, ty := .i64, args := [⟨1⟩] }],
           term := .br ⟨3⟩ },
    some { id := ⟨2⟩, insts := [{ op := .const, dest := ⟨1⟩, ty := .i64, const := .ofInt .i64 2 }],
           term := .br ⟨3⟩ },
    some { id := ⟨3⟩,
           phis := [{ dest := ⟨3⟩, ty := .i64,
                      incoming := [⟨⟨1⟩, ⟨2⟩⟩, ⟨⟨2⟩, ⟨1⟩⟩, ⟨⟨3⟩, ⟨3⟩⟩] }],
           term := .condBr ⟨0⟩ ⟨3⟩ ⟨4⟩ },
    some { id := ⟨4⟩, term := .ret (some ⟨3⟩) }] }

/-- What the analysis finds for a register on entry to a block of `joining`. -/
def joiningHas (id : BlockId) (r : Reg) : Except Crash (Option Bool) := do
  let d := joining.definedness (← joining.edges) (← joining.reversePostorder)
  return (d.before? id).map (·.has r)

theorem definedness_exact_joining : joining.DefinedOnEntry ⟨3⟩ ⟨1⟩ ∧
    ¬ joining.DefinedOnEntry ⟨3⟩ ⟨2⟩ ∧ ¬ joining.DefinedOnEntry ⟨3⟩ ⟨3⟩ ∧
    joining.DefinedOnEntry ⟨4⟩ ⟨3⟩ := by
  obtain ⟨edges, order, read, walked, -, -, exact⟩ :=
    definedness_exact (m := { functions := #[joining] }) (f := joining) (by decide +kernel)
      (by simp) rfl
  have third : joining.Reachable ⟨3⟩ :=
    ((Reachable.entry (f := joining)).step (s := ⟨1⟩) rfl (by decide)).step rfl (by decide)
  have fourth : joining.Reachable ⟨4⟩ := third.step rfl (by decide)
  have answers : ∀ id b r known, joining.Reachable id → joining.block? id = some b →
      joining.declares r = true → joiningHas id r = .ok (some known) →
      (known = true ↔ joining.DefinedOnEntry id r) := by
    intro id b r known live found declared computed
    obtain ⟨entered, left, before, -, sets⟩ := exact id b live found
    have same : entered.has r = known := by
      simpa [joiningHas, read, walked, before, bind, Except.bind, pure, Except.pure] using computed
    exact same ▸ (sets r declared).1
  refine ⟨(answers ⟨3⟩ _ ⟨1⟩ true third rfl rfl (by decide +kernel)).mp rfl, fun defined => ?_,
    fun defined => ?_, (answers ⟨4⟩ _ ⟨3⟩ true fourth rfl rfl (by decide +kernel)).mp rfl⟩
  · cases (answers ⟨3⟩ _ ⟨2⟩ false third rfl rfl (by decide +kernel)).mpr defined
  · cases (answers ⟨3⟩ _ ⟨3⟩ false third rfl rfl (by decide +kernel)).mpr defined

end TieredEngine.Ir.Function
