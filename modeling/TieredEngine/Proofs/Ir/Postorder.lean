import TieredEngine.Proofs.Ir.Paths

/-!
The reverse postorder and the ways from the entry. The walk finishes a block before the blocks that
it came through, so the order has, ahead of each block, all of some route to it, and with it every
block that dominates it. Of the function this asks only that its blocks are there: it may branch in
circles, to one block twice, or to numbers that are no blocks of it.

What is written on every path to a block is likewise written by a block listed ahead of it: a pass
that visits the blocks in this order has met every writer before it meets a reader.
-/
namespace TieredEngine.Ir.Function

variable {f : Function}

/-- The path along a route writes the parameters and what the blocks of the route write. -/
theorem Route.arrives {passed : List BlockId} {id : BlockId} (route : f.Route passed id) :
    ∃ prev written, f.Arrives prev id written ∧ ∀ r ∈ written, r ∈ f.params ∨
      ∃ p ∈ passed, ∃ b, f.block? p = some b ∧ r ∈ b.writes := by
  induction route with
  | entry => exact ⟨none, f.params, .entry, fun r member => .inl member⟩
  | @step passed id s b _ found branch ih =>
    obtain ⟨prev, written, path, sources⟩ := ih
    refine ⟨some id, _, path.step found branch, fun r member => ?_⟩
    rcases List.mem_append.mp member with early | own
    · refine (sources r early).imp_right fun ⟨p, inside, writer⟩ => ⟨p, ?_, writer⟩
      exact List.mem_append_left _ inside
    · exact .inr ⟨id, by simp, b, found, own⟩

/-- What a stretch of the walk finishes, when it came through some blocks: each finished block has a
route through those blocks and the blocks finished after it. -/
def Walk.Routes (f : Function) (through : List BlockId) (w w' : Walk) : Prop :=
  ∃ new, w'.finished = new ++ w.finished ∧ ∀ before id after, new = before ++ id :: after →
    ∃ passed, f.Route passed id ∧ ∀ p ∈ passed, p ∈ through ∨ p ∈ before

namespace Walk
variable {through : List BlockId}

theorem Routes.refl (f : Function) (through : List BlockId) (w : Walk) : Routes f through w w :=
  ⟨[], rfl, by simp⟩

theorem Routes.trans {u v w : Walk} (first : Routes f through u v)
    (second : Routes f through v w) : Routes f through u w := by
  obtain ⟨new, finished, routed⟩ := first
  obtain ⟨new', finished', routed'⟩ := second
  refine ⟨new' ++ new, by rw [finished', finished, List.append_assoc], ?_⟩
  intro before id after split
  rcases List.append_eq_append_iff.mp split with ⟨gap, rfl, rest⟩ | ⟨gap, rfl, rest⟩
  · obtain ⟨passed, route, inside⟩ := routed gap id after rest
    exact ⟨passed, route, fun p member =>
      (inside p member).imp_right (List.mem_append_right _)⟩
  · cases gap with
    | nil =>
      obtain ⟨passed, route, inside⟩ := routed [] id after (by simpa using rest.symm)
      exact ⟨passed, route, fun p member => (inside p member).imp_right (by simp)⟩
    | cons x gap =>
      obtain ⟨rfl, _⟩ := List.cons.inj rest
      exact routed' before id gap rfl

/-- Finishing a block that was reached through some others, after the walk through it too. -/
theorem Routes.finish {id : BlockId} {w w' : Walk} (route : f.Route through id)
    (rest : Routes f (through ++ [id]) (w.mark id) w') :
    Routes f through w { w' with finished := id :: w'.finished } := by
  obtain ⟨new, finished, routed⟩ := rest
  refine ⟨id :: new, congrArg (id :: ·) finished, fun before x after split => ?_⟩
  cases before with
  | nil =>
    obtain ⟨rfl, _⟩ := List.cons.inj split
    exact ⟨through, route, fun p member => .inl member⟩
  | cons y before =>
    obtain ⟨rfl, inner⟩ := List.cons.inj split
    obtain ⟨passed, route, inside⟩ := routed before x after inner
    refine ⟨passed, route, fun p member => ?_⟩
    rcases inside p member with ahead | later
    · exact (List.mem_append.mp ahead).imp_right fun last => by simp_all
    · exact .inr (List.mem_cons_of_mem _ later)

/-- Walking on from several blocks, all of them reached through the same ones. -/
theorem Routes.all {step : Walk → BlockId → Except Crash Walk} {ids : List BlockId}
    (each : ∀ w w' id, id ∈ ids → step w id = .ok w' → Routes f through w w')
    {w w' : Walk} (walked : ids.foldlM step w = .ok w') : Routes f through w w' := by
  induction ids generalizing w with
  | nil =>
    cases walked
    exact .refl f through _
  | cons id ids ih =>
    obtain ⟨v, first, rest⟩ := foldlM_cons_eq_ok.mp walked
    exact (each w v id (by simp) first).trans
      (ih (fun u u' x member => each u u' x (by simp [member])) rest)

end Walk

theorem walk_routes {fuel : Nat} {through : List BlockId} {id : BlockId}
    (route : f.Route through id) {w w' : Walk} (walked : f.walk fuel w id = .ok w') :
    Walk.Routes f through w w' := by
  induction fuel generalizing through id w w' with
  | zero =>
    cases walked
    exact .refl f through w
  | succ fuel ih =>
    simp only [walk] at walked
    split at walked
    · cases walked
      exact .refl f through w
    · cases walked
      exact .refl f through w
    · obtain ⟨b, present, walked⟩ := bind_eq_ok.mp walked
      obtain ⟨v, inner, done⟩ := bind_eq_ok.mp walked
      cases done
      have found := Crash.deref_eq_ok.mp present
      exact .finish route (.all (fun _ _ s branch => ih (route.step found branch)) inner)

variable {order earlier later : List BlockId} {id : BlockId}

/-- In reverse postorder all of some route to a block comes ahead of the block. -/
theorem reversePostorder_routed (ordered : f.reversePostorder = .ok order)
    (split : order = earlier ++ id :: later) :
    ∃ passed, f.Route passed id ∧ ∀ p ∈ passed, p ∈ earlier := by
  obtain ⟨w, walked, same⟩ := bind_eq_ok.mp ordered
  cases same
  obtain ⟨new, finished, routed⟩ := walk_routes .entry walked
  obtain ⟨passed, route, inside⟩ :=
    routed earlier id later (by simpa using finished.symm.trans split)
  exact ⟨passed, route, fun p member => (inside p member).resolve_left (by simp)⟩

/-- What is written on every path to a block is a parameter or written by a block ahead of it. -/
theorem written_ahead (ordered : f.reversePostorder = .ok order)
    (split : order = earlier ++ id :: later) {r : Reg}
    (sure : ∀ prev written, f.Arrives prev id written → r ∈ written) :
    r ∈ f.params ∨ ∃ p ∈ earlier, ∃ b, f.block? p = some b ∧ r ∈ b.writes := by
  obtain ⟨passed, route, inside⟩ := reversePostorder_routed ordered split
  obtain ⟨prev, written, path, sources⟩ := route.arrives
  exact (sources r (sure prev written path)).imp_right
    fun ⟨p, member, writer⟩ => ⟨p, inside p member, writer⟩

/-- From a place where a register is sure to be written, no block writes it: not by the instructions
that are left, and not in a block that is listed later. -/
theorem not_written_later (numbered : f.WellNumbered) (grounded : f.Grounded)
    (single : f.SingleAssignment) (ordered : f.reversePostorder = .ok order)
    (split : order = earlier ++ id :: later) {b : Block} (found : f.block? id = some b)
    {before after : List Inst} (place : b.insts = before ++ after) {r : Reg}
    (sure : ∀ prev written, f.Arrives prev id written → r ∈ written ++ b.writesUpTo before) :
    (∀ i ∈ after, i.target? ≠ some r) ∧ ∀ x ∈ later, ∀ c, f.block? x = some c →
      ∀ i ∈ c.insts, i.target? ≠ some r := by
  obtain ⟨_, ordered', nodup, reached⟩ := reversePostorder_ok numbered
  cases ordered.symm.trans ordered'
  -- a block that writes the register from here on
  have clash : ∀ x c i, x ∈ id :: later → f.block? x = some c → i ∈ c.insts →
      i.target? = some r → x = id ∧ r ∈ b.writesUpTo before := by
    intro x c i listed present inside target
    have live := (reached x).mp (by simp [split, listed])
    obtain ⟨prev, written, path⟩ := live.arrives
    have declared := (grounded prev x written c path present).targets i inside r target
    have own : r ∈ c.writes := List.mem_append_right _ (List.mem_filterMap.mpr ⟨i, inside, target⟩)
    by_cases here : r ∈ b.writesUpTo before
    · refine ⟨single.block_eq numbered present found declared own ?_, here⟩
      refine (List.mem_append.mp here).elim (List.mem_append_left _) fun inst => ?_
      refine List.mem_append_right _ ?_
      rw [place, List.filterMap_append]
      exact List.mem_append_left _ inst
    · rcases written_ahead ordered split fun prev written path =>
        (List.mem_append.mp (sure prev written path)).resolve_right here with
        param | ⟨p, ahead, d, there, writes⟩
      · exact absurd param (single.not_param numbered present declared own)
      · obtain rfl := single.block_eq numbered there present declared writes own
        rw [split, List.nodup_append] at nodup
        exact absurd rfl (nodup.2.2 p ahead p listed)
  refine ⟨fun i inside target => ?_, fun x listed c present i inside target => ?_⟩
  · have member : i ∈ b.insts := by simp [place, inside]
    obtain ⟨-, here⟩ := clash id b i (by simp) found member target
    obtain ⟨prev, written, path⟩ := ((reached id).mp (by simp [split])).arrives
    have declared := (grounded prev id written b path found).targets i member r target
    rcases List.mem_append.mp here with phi | inst
    · exact single.not_phi numbered found declared member target phi
    · obtain ⟨front, back, rfl⟩ := List.append_of_mem inside
      have halves : b.insts = (before ++ front) ++ i :: back := by simp [place]
      refine (single.not_before numbered found declared halves target).1 ?_
      rw [List.filterMap_append]
      exact List.mem_append_left _ inst
  · obtain ⟨rfl, -⟩ := clash x c i (by simp [listed]) present inside target
    rw [split, List.nodup_append, List.nodup_cons] at nodup
    exact nodup.2.1.1 listed

/-- An instruction does not read the register that it writes. -/
theorem not_read_by_writer (numbered : f.WellNumbered) (grounded : f.Grounded)
    (single : f.SingleAssignment) (live : f.Reachable id) {b : Block}
    (found : f.block? id = some b) {i : Inst} (member : i ∈ b.insts) {r : Reg}
    (target : i.target? = some r) : r ∉ i.args := by
  intro read
  obtain ⟨order, ordered, -, reached⟩ := reversePostorder_ok numbered
  obtain ⟨earlier, later, split⟩ := List.append_of_mem ((reached id).mpr live)
  obtain ⟨before, after, place⟩ := List.append_of_mem member
  have here := (not_written_later numbered grounded single ordered split found place
    fun prev written path => (grounded prev id written b path found).args before i after place r read).1
  exact here i (by simp) target

section Dominance

/-- Every way from the entry to the second block goes through the first, the two ends counted. -/
def Dominates (f : Function) (u v : BlockId) : Prop :=
  ∀ passed, f.Route passed v → u ∈ passed ++ [v]

/-- The other dominators of a listed block are listed ahead of it. -/
theorem Dominates.ahead {u v : BlockId} (dominates : f.Dominates u v) (distinct : u ≠ v)
    (ordered : f.reversePostorder = .ok order) (split : order = earlier ++ v :: later) :
    u ∈ earlier := by
  obtain ⟨passed, route, inside⟩ := reversePostorder_routed ordered split
  rcases List.mem_append.mp (dominates passed route) with through | last
  · exact inside u through
  · exact absurd (List.mem_singleton.mp last) distinct

/-- The search can end in one way only. -/
theorem Searches.unique {w v v' : Walk} {ids : List BlockId} (search : f.Searches w ids v)
    (other : f.Searches w ids v') : v' = v := by
  induction search generalizing v' with
  | done =>
    cases other
    rfl
  | skip known _ ih =>
    cases other with
    | skip _ rest => exact ih rest
    | enter fresh => exact absurd fresh known
  | enter fresh found _ _ within onward =>
    cases other with
    | skip known => exact absurd fresh known
    | enter _ found' inner rest =>
      cases found.symm.trans found'
      cases within inner
      exact onward rest

theorem present_of_whole (whole : none ∉ f.blocks) (id : BlockId)
    (bound : id.num < f.blocks.size) : ∃ b, f.block? id = some b := by
  have listed := Array.getElem?_eq_getElem bound
  cases there : f.blocks[id.num] with
  | none => exact absurd (there ▸ Array.getElem_mem bound) whole
  | some b => exact ⟨b, block?_eq_some.mpr (there ▸ listed)⟩

/-- The search from the entry of a function whose blocks are all there ends, and what it finishes is
the reverse postorder: the blocks of the function that control can reach, each once, the entry first
and every block behind those that dominate it. -/
theorem reversePostorder_respects_dominance (whole : none ∉ f.blocks) :
    ∃ w, f.reversePostorder = .ok w.finished ∧
      (∀ v, f.Searches (.start f) [f.entry] v ↔ v = w) ∧ w.finished.Nodup ∧
      (∀ id, id ∈ w.finished ↔ f.Reachable id ∧ id.num < f.blocks.size) ∧
      (f.entry.num < f.blocks.size → w.finished.head? = some f.entry) ∧
      ∀ u v earlier later, w.finished = earlier ++ v :: later → f.Dominates u v → u ≠ v →
        u ∈ earlier := by
  obtain ⟨w, ordered, search, nodup, listed⟩ :=
    reversePostorder_searches (present_of_whole whole)
  refine ⟨w, ordered, fun v => ⟨search.unique, ?_⟩, nodup, listed, fun bound => ?_, ?_⟩
  · rintro rfl
    exact search
  · obtain ⟨rest, first⟩ := reversePostorder_head bound ordered
    simp [first]
  · intro u v earlier later split dominates distinct
    exact dominates.ahead distinct ordered split

/-- Blocks that branch to themselves, back, to one block twice, and to a block that is not there. -/
def tangled : Function := {
  name := "tangled"
  sig := { params := [.i64] }
  params := [⟨0⟩]
  regTypes := #[.i64]
  blocks := #[
    some { id := ⟨0⟩, term := .br ⟨1⟩ },
    some { id := ⟨1⟩, term := .condBr ⟨0⟩ ⟨1⟩ ⟨2⟩ },
    some { id := ⟨2⟩, term := .switch ⟨0⟩ [⟨1, ⟨3⟩⟩, ⟨2, ⟨3⟩⟩] ⟨1⟩ },
    some { id := ⟨3⟩, term := .condBr ⟨0⟩ ⟨4⟩ ⟨9⟩ },
    some { id := ⟨4⟩, term := .ret none },
    some { id := ⟨5⟩, term := .br ⟨4⟩ }] }

theorem reversePostorder_respects_dominance_tangled :
    tangled.reversePostorder = .ok [⟨0⟩, ⟨1⟩, ⟨2⟩, ⟨3⟩, ⟨4⟩] ∧ ¬ tangled.Reachable ⟨5⟩ ∧
      tangled.Dominates ⟨1⟩ ⟨4⟩ ∧
      ∀ earlier later, tangled.reversePostorder = .ok (earlier ++ ⟨4⟩ :: later) →
        ⟨1⟩ ∈ earlier := by
  obtain ⟨w, ordered, -, -, listed, -, ahead⟩ :=
    reversePostorder_respects_dominance (f := tangled) (by simp [tangled])
  have computed : tangled.reversePostorder = .ok [⟨0⟩, ⟨1⟩, ⟨2⟩, ⟨3⟩, ⟨4⟩] := by decide +kernel
  have through : ∀ passed id, tangled.Route passed id → id = ⟨0⟩ ∨ ⟨1⟩ ∈ passed ++ [id] := by
    intro passed id route
    induction route with
    | entry => exact .inl rfl
    | @step passed id s b _ found branch ih =>
      refine .inr ?_
      rcases ih with rfl | passes
      · cases found
        simp_all [Term.successors]
      · exact List.mem_append_left _ passes
  have dominates : tangled.Dominates ⟨1⟩ ⟨4⟩ := fun passed route =>
    (through passed ⟨4⟩ route).resolve_left (by decide)
  refine ⟨computed, fun reached => ?_, dominates, fun earlier later split => ?_⟩
  · have member := (listed ⟨5⟩).mpr ⟨reached, by decide⟩
    rw [Except.ok.inj (ordered.symm.trans computed)] at member
    simp at member
  · have finished := Except.ok.inj (ordered.symm.trans split)
    exact ahead ⟨1⟩ ⟨4⟩ earlier later finished dominates (by decide)

end Dominance

end TieredEngine.Ir.Function
