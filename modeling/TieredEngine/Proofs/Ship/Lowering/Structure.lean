import TieredEngine.Proofs.Ir.Checked
import TieredEngine.Proofs.Ship.Lowering.Phases

/-!
Lowered functions are well formed. Labels differ, since blocks of the source are named by their numbers
and extra ones by what they are for and how many there are; each block is closed when it is left; an
entry that is jumped to gets a block in front; and phis get an input for each edge.
-/
namespace TieredEngine.Llvm
open TieredEngine.Ship.Lowering

theorem repr_inj {m n : Nat} (same : m.repr.toList = n.repr.toList) : m = n := by
  rw [Nat.repr_eq_ofList_toDigits, Nat.repr_eq_ofList_toDigits, String.toList_ofList,
    String.toList_ofList] at same
  have read := congrArg (Nat.ofDigitChars 10 · 0) same
  rwa [Nat.ofDigitChars_toDigits (by decide) (by decide),
    Nat.ofDigitChars_toDigits (by decide) (by decide)] at read

namespace BlockName

/-- Names that lowered blocks have. -/
def IsLowered : BlockName → Prop
  | start | block _ => True
  | entry => False
  | aux kind _ => kind ∈ auxKinds

theorem text_block (n : Nat) : (block n).text.toList = 'b' :: 'b' :: n.repr.toList := by
  simp [text, toString]

theorem text_aux (kind : String) (n : Nat) :
    (aux kind n).text.toList = kind.toList ++ '.' :: n.repr.toList := by
  simp [text, toString]

theorem text_inj {a b : BlockName} (one : a.IsLowered) (two : b.IsLowered)
    (same : a.text = b.text) : a = b := by
  have chars := congrArg String.toList same
  have kinds : ∀ {k : String}, k ∈ auxKinds → k = "divzero" ∨ k = "div" ∨ k = "dead" := by
    simp [auxKinds]
  have started : start.text.toList = ['s', 't', 'a', 'r', 't'] := by decide
  cases a <;> cases b
  case entry.start | entry.entry | entry.block | entry.aux => exact one.elim
  case start.entry | block.entry | aux.entry => exact two.elim
  case start.start => rfl
  case start.block => simp [started, text_block] at chars
  case block.start => simp [started, text_block] at chars
  case block.block m n =>
    rw [text_block, text_block, List.cons.injEq, List.cons.injEq] at chars
    rw [repr_inj chars.2.2]
  case start.aux => rcases kinds two with rfl | rfl | rfl <;> simp [started, text_aux] at chars
  case aux.start => rcases kinds one with rfl | rfl | rfl <;> simp [started, text_aux] at chars
  case block.aux => rcases kinds two with rfl | rfl | rfl <;> simp [text_block, text_aux] at chars
  case aux.block => rcases kinds one with rfl | rfl | rfl <;> simp [text_block, text_aux] at chars
  case aux.aux k m l n =>
    -- no kind is the beginning of another one with a dot after it
    rw [text_aux, text_aux] at chars
    have both : k = l ∧ m.repr.toList = n.repr.toList := by
      rcases kinds one with rfl | rfl | rfl <;> rcases kinds two with rfl | rfl | rfl <;>
        first
        | exact ⟨rfl, by simpa using chars⟩
        | simp at chars
    rw [both.1, repr_inj both.2]

end BlockName

end TieredEngine.Llvm

namespace TieredEngine.Ship.Lowering
open TieredEngine TieredEngine.Llvm

/-- Names of the blocks of a body, extra ones apart. -/
def outlineNames (order : List Ir.BlockId) (hasStart : Bool) : List BlockName :=
  (if hasStart then [.start] else []) ++ order.map nameOf

theorem nodup_auxNames (kinds : List String) : (auxNames kinds).Nodup := by
  rw [List.Nodup, List.pairwise_iff_getElem]
  intro i j _ _ before
  simp only [auxNames, List.getElem_mapIdx, ne_eq, BlockName.aux.injEq, not_and]
  omega

theorem names_nodup {order : List Ir.BlockId} (once : order.Nodup) (hasStart : Bool)
    (kinds : List String) : (outlineNames order hasStart ++ auxNames kinds).Nodup := by
  have ordered : (order.map nameOf).Nodup := List.Pairwise.map _
    (fun a b other same => other (Ir.BlockId.num_inj.mp (by simpa [nameOf] using same))) once
  have outlined : (outlineNames order hasStart).Nodup := by
    cases hasStart
    · simpa [outlineNames] using ordered
    · simpa [outlineNames, nameOf] using ordered
  refine List.nodup_append.mpr ⟨outlined, nodup_auxNames kinds, fun a one b two same => ?_⟩
  obtain ⟨i, _, rfl⟩ := List.mem_mapIdx.mp two
  subst same
  cases hasStart <;> simp [outlineNames, nameOf] at one

theorem names_lowered {order : List Ir.BlockId} {hasStart : Bool} {kinds : List String}
    (known : ∀ k ∈ kinds, k ∈ auxKinds) {n : BlockName}
    (member : n ∈ outlineNames order hasStart ++ auxNames kinds) : n.IsLowered := by
  rcases List.mem_append.mp member with outlined | extra
  · rcases List.mem_append.mp outlined with front | listed
    · cases hasStart
      · cases front
      · obtain rfl := List.mem_singleton.mp front
        trivial
    · obtain ⟨id, _, rfl⟩ := List.mem_map.mp listed
      trivial
  · obtain ⟨i, inside, rfl⟩ := List.mem_mapIdx.mp extra
    exact known _ (List.getElem_mem inside)

/-- A body that is lowered, phis included. -/
structure Lowered (f : Ir.Function) (order : List Ir.BlockId) (hasStart : Bool) (s t : State) : Prop
    where
  grows : s.Grows t
  names : ∃ kinds, t.names = outlineNames order hasStart ++ auxNames kinds ∧ ∀ k ∈ kinds, k ∈ auxKinds
  edges : ∃ exits : List (Nat × BlockName), exits.map (·.1) = order.map (·.num) ∧
    EdgesOf f hasStart exits t.edges
  closed : ∀ j, ¬ t.Open j
  start : hasStart = true → t.TermAt 0 (.br (nameOf f.entry))
  phis : PhisCovered f → ∀ j p ins, t.PhiOf j p ins → ∃ n, t.names[j]? = some n ∧
    (ins.map (·.2)).Perm (predecessorsOf t.blocks.toList n)

section

variable {f : Ir.Function} {order : List Ir.BlockId} {hasStart : Bool} {s t : State}

theorem count_terminate {j : Nat} {T : Llvm.Term} {u : Unit} (ran : terminate j T s = .ok (u, t))
    (k : Nat) : t.count k = s.count k := by
  cases ran
  unfold State.count
  dsimp only
  rw [Array.getElem?_modify]
  split
  · cases s.blocks[k]? <;> rfl
  · rfl

/-- What is known of a body before its blocks are made. -/
def outlineStart (f : Ir.Function) (hasStart : Bool) (origin : State) : Outline where
  names := if hasStart then [.start] else []
  edges := startEdges f hasStart
  terms j T := hasStart = true ∧ j = 0 ∧ T = .br (nameOf f.entry)
  phis _ _ := False
  origin := origin

/-- The block in front only goes to the entry. -/
theorem startBlock_ok {origin : State} {u : Unit}
    (done : Progress (outlineStart f false origin) (fun _ => False) s) (first : s.aux = 0)
    (empty : ∀ j, s.count j = 0) (ran : startBlock f s = .ok (u, t)) :
    Progress (outlineStart f true origin) (fun _ => False) t ∧ t.aux = 0 ∧ ∀ j, t.count j = 0 := by
  obtain ⟨n, s₁, ran₁, rest⟩ := run_bind.mp ran
  obtain ⟨m, s₂, ran₂, last⟩ := run_bind.mp rest
  obtain ⟨rfl, rfl⟩ := target_ok ran₂
  obtain ⟨progress, first, rfl, counts⟩ := done.newBlock first ran₁
  have named : s₂.names[0]? = some .start := by
    obtain ⟨kinds, names, _⟩ := progress.names
    rw [names]
    rfl
  obtain ⟨closed, _, _, ends⟩ := progress.close (.inr rfl) named last
  refine ⟨?_, ?_, fun j => ?_⟩
  · refine { closed.congr (fun j => ?_) with terms := ?_ }
    · simp
    · rintro j T ⟨_, rfl, rfl⟩
      exact ends
  · cases last
    exact first
  · rw [count_terminate last, counts, empty]

/-- The phases that the blocks of a body are lowered in, with the states between them: a block in front may
be made, then one for each block of the source; phis are put into these; the blocks are filled; and the phis
get their inputs. -/
structure Phased (functions globals : Nat) (f : Ir.Function) (order : List Ir.BlockId) (hasStart : Bool)
    (s s₀ s₁ s₂ s₃ t : State) (ps : List Placement) (wss : List (List WaitingPhi))
    (exits : List (Nat × BlockName)) : Prop where
  started : hasStart = false ∧ s₀ = s ∨ hasStart = true ∧ startBlock f s = .ok ((), s₀)
  made : order.mapM (makeBlock f) s₀ = .ok (ps, s₁)
  put : ps.mapM (fun p => placed f.name none (putPhis p)) s₁ = .ok (wss, s₂)
  filled : ps.mapM (fun p => placed f.name (some p.id) (fillBlock functions globals f p)) s₂ =
    .ok (exits, s₃)
  completed : wss.flatten.forM (fun w => placed f.name none (completePhi f hasStart exits w)) s₃ =
    .ok (.unit, t)

theorem phased_of_fillBody {functions globals : Nat} {u : Unit}
    (ran : fillBody functions globals f order hasStart s = .ok (u, t)) :
    ∃ s₀ s₁ s₂ s₃ ps wss exits, Phased functions globals f order hasStart s s₀ s₁ s₂ s₃ t ps wss exits := by
  have begun : ∃ s₀, (hasStart = false ∧ s₀ = s ∨ hasStart = true ∧ startBlock f s = .ok ((), s₀)) ∧ (do
      let placements ← order.mapM (makeBlock f)
      let waiting ← placements.mapM fun p => placed f.name none (putPhis p)
      let exits ← placements.mapM fun p =>
        placed f.name (some p.id) (fillBlock functions globals f p)
      waiting.flatten.forM fun w => placed f.name none (completePhi f hasStart exits w) :
        Placed Unit) s₀ = .ok (u, t) := by
    cases hasStart with
    | false => exact ⟨s, .inl ⟨rfl, rfl⟩, ran⟩
    | true =>
      obtain ⟨_, s₀, ran₁, rest⟩ := run_bind.mp ran
      exact ⟨s₀, .inr ⟨rfl, placed_ok.mp ran₁⟩, rest⟩
  obtain ⟨s₀, started, ran⟩ := begun
  obtain ⟨ps, s₁, made, ran⟩ := run_bind.mp ran
  obtain ⟨wss, s₂, put, ran⟩ := run_bind.mp ran
  obtain ⟨exits, s₃, filled, completed⟩ := run_bind.mp ran
  exact ⟨s₀, s₁, s₂, s₃, ps, wss, exits, started, made, put, filled, completed⟩

namespace Phased

variable {functions globals : Nat} {origin s₀ s₁ s₂ s₃ : State} {ps : List Placement}
  {wss : List (List WaitingPhi)} {exits : List (Nat × BlockName)}
  (phased : Phased functions globals f order hasStart s s₀ s₁ s₂ s₃ t ps wss exits)
  (done : Progress (outlineStart f false origin) (fun _ => False) s) (first : s.aux = 0)
  (empty : ∀ j, s.count j = 0)
include phased done first empty

/-- The blocks are made, and nothing is in them. -/
theorem blocks_begun : Progress { outlineStart f hasStart origin with
      names := outlineNames order hasStart } (· ∈ ps.map (·.lowered)) s₁ ∧
    (∀ j, s₁.count j = 0) ∧ ps.map (·.id) = order ∧ ∀ p ∈ ps, p.Fits f (outlineNames order hasStart) := by
  have begun : Progress (outlineStart f hasStart origin) (fun _ => False) s₀ ∧ s₀.aux = 0 ∧
      ∀ j, s₀.count j = 0 := by
    rcases phased.started with ⟨rfl, rfl⟩ | ⟨rfl, ran⟩
    · exact ⟨done, first, empty⟩
    · exact startBlock_ok done first empty ran
  obtain ⟨progress, empty, ids, fits⟩ := blocks_made begun.1 begun.2.1 begun.2.2 phased.made
  exact ⟨progress.congr fun j => by simp, empty, ids, fits⟩

/-- Blocks for different blocks of the source have different names, so they are different. -/
theorem apart (once : order.Nodup) : (ps.map (·.lowered)).Nodup := by
  obtain ⟨_, _, ids, fits⟩ := phased.blocks_begun done first empty
  rw [← ids, List.Nodup, List.pairwise_map] at once
  refine List.pairwise_map.mpr (once.imp_of_mem fun one two other same => other ?_)
  have names := (fits _ one).name.symm.trans (same ▸ (fits _ two).name)
  exact Ir.BlockId.num_inj.mp (by simpa [nameOf] using names)

end Phased

/-- A body is lowered. -/
theorem fillBody_ok {functions globals : Nat} (numbered : f.WellNumbered)
    (ordered : f.reversePostorder = .ok order) {u : Unit} {origin : State}
    (done : Progress (outlineStart f false origin) (fun _ => False) s) (first : s.aux = 0)
    (empty : ∀ j, s.count j = 0) (ran : fillBody functions globals f order hasStart s = .ok (u, t)) :
    Lowered f order hasStart origin t := by
  obtain ⟨_, walked, once, listed⟩ := Ir.Function.reversePostorder_ok numbered
  cases ordered.symm.trans walked
  obtain ⟨s₀, s₁, s₂, s₃, ps, wss, exits, phased⟩ := phased_of_fillBody ran
  have apart := phased.apart done first empty once
  obtain ⟨progress, empty, ids, fits⟩ := phased.blocks_begun done first empty
  have present : ∀ id ∈ order, ∃ b, f.block? id = some b := fun id member =>
    ((listed id).mp member).present numbered
  have inside : ∀ p ∈ ps, p.lowered < s₁.blocks.size := fun p member =>
    progress.bound (List.mem_map_of_mem member)
  obtain ⟨progress, waiting⟩ := phis_put progress inside apart empty phased.put
  obtain ⟨progress, left⟩ := blocks_filled progress apart (fun p member => (fits p member).block)
    phased.filled
  have exited : exits.map (·.1) = order.map (·.num) := by
    rw [left, ← ids, List.map_map]
    rfl
  obtain ⟨framed, completed⟩ := phis_completed
    (fun j names => ∃ n, t.names[j]? = some n ∧ names.Perm (predecessorsOf t.blocks.toList n))
    (fun j i stands => (progress.phis j i stands).resolve_left id) phased.completed
  have edges : EdgesOf f hasStart exits t.edges := by
    rw [framed.edges]
    exact progress.edges
  obtain ⟨kinds, names, _, known⟩ := progress.names
  have names := framed.names.trans names
  refine ⟨progress.grows.trans framed.grows, ⟨kinds, names, known⟩, ⟨exits, exited, edges⟩,
    fun j waits => ?_, fun front => ?_, fun covered => completed fun w member s inputs t read => ?_⟩
  · exact (progress.opens j).mp ((framed.opens j).mp waits)
  · exact framed.terms _ _ (progress.terms 0 _ ⟨front, rfl, rfl⟩)
  · obtain ⟨p, among, block, lowered, phi⟩ := waiting w member
    have at_w := (fits p among).name
    refine ⟨nameOf w.block, ?_, ?_⟩
    · rw [names, lowered, block, List.getElem?_append_left]
      · exact at_w
      · exact (List.getElem?_eq_some_iff.mp at_w).1
    · have reached : f.Reachable w.block := by
        rw [block]
        exact (listed _).mp (ids ▸ List.mem_map_of_mem among)
      exact inputs_perm covered once listed present exited edges reached
        (block ▸ (fits p among).block) phi read

/-- The entry is first, behind a block in front if it is jumped to. -/
theorem Lowered.first (lowered : Lowered f order hasStart s t) (numbered : f.WellNumbered)
    (ordered : f.reversePostorder = .ok order) {edges : List (Ir.BlockId × Ir.BlockId)}
    (read : f.edges = .ok edges) (front : hasStart = edges.any (·.2 == f.entry)) :
    ∃ b rest, t.blocks.toList = b :: rest ∧ predecessorsOf t.blocks.toList b.name = [] ∧
      (b.name = nameOf f.entry ∨ b.name = .start ∧ b.term = some (.br (nameOf f.entry))) := by
  obtain ⟨_, walked, once, listed⟩ := Ir.Function.reversePostorder_ok numbered
  cases ordered.symm.trans walked
  obtain ⟨later, same⟩ := Ir.Function.reversePostorder_head numbered.entry ordered
  obtain ⟨kinds, names, _⟩ := lowered.names
  obtain ⟨exits, left, listedEdges⟩ := lowered.edges
  cases hasStart with
  | true =>
    obtain ⟨b, rest, blocks, named, _⟩ := List.map_eq_cons_iff.mp (names.trans rfl)
    refine ⟨b, rest, blocks, ?_, .inr ⟨named, ?_⟩⟩
    · rw [named]
      exact listedEdges.start
    · obtain ⟨b', there, ends⟩ := lowered.start rfl
      rw [← Array.getElem?_toList, blocks] at there
      cases there
      exact ends
  | false =>
    subst same
    obtain ⟨b, rest, blocks, named, _⟩ := List.map_eq_cons_iff.mp (names.trans rfl)
    refine ⟨b, rest, blocks, ?_, .inl named⟩
    have single : (exits.map (·.1)).Nodup := by
      rw [left]
      exact List.Pairwise.map _ (fun a b other same => other (Ir.BlockId.num_inj.mp same)) once
    have none : (exits.map (·.1)).flatMap (inputsFrom f exits f.entry) = [] := by
      rw [left, List.flatMap_map]
      refine List.flatMap_eq_nil_iff.mpr fun id member => inputsFrom_eq_nil fun branch => ?_
      obtain ⟨c, found⟩ := ((listed id).mp member).present numbered
      rw [successorsAt_eq found] at branch
      have jump := Ir.Function.mem_edges numbered read found (successor_of_lowered branch)
      exact List.any_eq_false.mp front.symm _ jump (by simp)
    have into := listedEdges.into single f.entry
    rw [none] at into
    rw [named]
    exact into.eq_nil

theorem Lowered.wellFormed (lowered : Lowered f order hasStart s t) (numbered : f.WellNumbered)
    (ordered : f.reversePostorder = .ok order) {edges : List (Ir.BlockId × Ir.BlockId)}
    (read : f.edges = .ok edges) (front : hasStart = edges.any (·.2 == f.entry))
    (covered : PhisCovered f) : WellFormed (nameOf f.entry) t.blocks.toList := by
  obtain ⟨_, walked, once, _⟩ := Ir.Function.reversePostorder_ok numbered
  cases ordered.symm.trans walked
  refine ⟨?_, fun b member => ?_, lowered.first numbered ordered read front,
    fun b member i inside ty ins phi => ?_⟩
  · obtain ⟨kinds, names, known⟩ := lowered.names
    have all : t.blocks.toList.map (·.name.text) = t.names.map (·.text) := by
      rw [State.names, List.map_map]
      rfl
    rw [all, names]
    refine List.pairwise_map.mpr ((names_nodup once hasStart kinds).imp_of_mem
      fun one two other same => other ?_)
    exact BlockName.text_inj (names_lowered known one) (names_lowered known two) same
  · obtain ⟨j, there⟩ := List.mem_iff_getElem?.mp member
    rw [Array.getElem?_toList] at there
    cases ends : b.term with
    | none => exact absurd ⟨b, there, ends⟩ (lowered.closed j)
    | some T => rfl
  · obtain ⟨j, there⟩ := List.mem_iff_getElem?.mp member
    obtain ⟨p, at_p⟩ := List.mem_iff_getElem?.mp inside
    rw [Array.getElem?_toList] at there
    obtain ⟨n, named, perm⟩ := lowered.phis covered j p ins ⟨b, i, ty, there, at_p, phi⟩
    rw [getElem?_names, there] at named
    cases named
    exact perm

/-- Before its blocks are made a body is empty. -/
theorem bindParams_ok {u : Unit} (blank : s.blocks = #[]) (first : s.aux = 0)
    (ran : bindParams f s = .ok (u, t)) :
    Progress (outlineStart f false s) (fun _ => False) t ∧ t.aux = 0 ∧ ∀ j, t.count j = 0 := by
  have quiet := bindParams_quietly f _ _ _ ran
  have nowhere : ∀ j : Nat, s.blocks[j]? = none := by simp [blank]
  have nothing : Progress (outlineStart f false s) (fun _ => False) s := by
    refine ⟨⟨[], ?_, first, by simp⟩, ⟨[], ?_, by simp⟩, fun j => ⟨?_, False.elim⟩, ?_, ?_, .refl s⟩
    · rw [State.names, blank]
      rfl
    · rw [State.edges, blank]
      exact .refl _
    · rintro ⟨b, there, _⟩
      cases (nowhere j).symm.trans there
    · rintro j T ⟨front, _⟩
      cases front
    · rintro j p ⟨b, _, _, _, there, _⟩
      cases (nowhere j).symm.trans there
  refine ⟨nothing.quiet quiet, quiet.aux.trans first, fun j => ?_⟩
  have size : t.blocks.size = 0 := by
    rw [← Array.length_toList, ← List.length_map (·.name), ← State.names, quiet.names, State.names, blank]
    rfl
  rw [State.count, Array.getElem?_eq_none (by omega)]
  rfl

/-- What a body is lowered in: nothing is known of its blocks and registers yet. -/
def State.cleared (s : State) (f : Ir.Function) : State :=
  { s with blocks := #[], current := 0, aux := 0, values := Array.replicate f.regTypes.size none }

/-- Parameters are put into registers, the blocks are lowered, and go to the function with its number. -/
theorem body_parts {functions globals : Nat} {u : Unit} (ran : body functions globals f s = .ok (u, t)) :
    ∃ order edges s₁ m, bindParams f (s.cleared f) = .ok ((), s₁) ∧ f.reversePostorder = .ok order ∧
      f.edges = .ok edges ∧
      fillBody functions globals f order (edges.any (·.2 == f.entry)) s₁ = .ok ((), m) ∧
      t = { m with functions :=
        m.functions.modify f.id.num fun g => { g with blocks := g.blocks ++ m.blocks.toList } } := by
  unfold body at ran
  split at ran
  · cases ran
  obtain ⟨_, _, cleared, rest⟩ := run_bind.mp ran
  cases cleared
  obtain ⟨_, _, bound, rest⟩ := run_bind.mp rest
  obtain ⟨order, _, walked, rest⟩ := run_bind.mp rest
  obtain ⟨edges, s₁, seen, rest⟩ := run_bind.mp rest
  obtain ⟨_, m, filled, last⟩ := run_bind.mp rest
  obtain ⟨ordered, rfl⟩ := liftCrash_ok.mp walked
  obtain ⟨read, rfl⟩ := liftCrash_ok.mp seen
  cases last
  exact ⟨order, edges, s₁, m, placed_ok.mp bound, ordered, read, filled, rfl⟩

/-- A body that is lowered is well formed; it goes to the function with its number, and other functions
are as before. -/
theorem body_ok {functions globals : Nat} (numbered : f.WellNumbered) {u : Unit}
    (ran : body functions globals f s = .ok (u, t)) : ∃ m : State, s.Grows m ∧
      t.functions = m.functions.modify f.id.num (fun g => { g with blocks := g.blocks ++ m.blocks.toList }) ∧
      (PhisCovered f → WellFormed (nameOf f.entry) m.blocks.toList) := by
  obtain ⟨order, edges, s₁, m, bound, ordered, read, filled, rfl⟩ := body_parts ran
  obtain ⟨progress, first, empty⟩ := bindParams_ok rfl rfl bound
  have lowered := fillBody_ok numbered ordered progress first empty filled
  exact ⟨m, ⟨lowered.grows.size, lowered.grows.kept⟩, rfl,
    lowered.wellFormed numbered ordered read rfl⟩

/-- A function that passes the typing check has a value in each phi for each reachable predecessor. -/
theorem phisCovered_of_typed (numbered : f.WellNumbered) (body : f.isExternal = false)
    (typed : f.typingErrors = .ok [])
    (single : ∀ id b, f.block? id = some b → ∀ p ∈ b.phis, (p.incoming.map (·.pred)).Nodup) :
    PhisCovered f := by
  obtain ⟨edges, order, read, walked, checked⟩ := Ir.Function.blockChecked_of_typed body typed
  obtain ⟨_, walked', _, listed⟩ := Ir.Function.reversePostorder_ok numbered
  cases walked.symm.trans walked'
  have settled : ∀ x ∈ order, ∀ c, f.block? x = some c →
      Ir.Function.SettledAt f edges (f.definedness edges order) x c :=
    Ir.Function.definedness_settled fun x member => ((listed x).mp member).present numbered
  refine fun id b reached found p member => ⟨single id b found p member,
    fun pred c before at_pred branch => ?_⟩
  have edge : pred ∈ Ir.Function.predecessorsIn edges b.id := by
    rw [numbered.number id b found]
    exact List.mem_map.mpr ⟨(pred, id), List.mem_filter.mpr
      ⟨Ir.Function.mem_edges numbered read at_pred branch, by simp⟩, rfl⟩
  have fine := checked id ((listed id).mpr reached) b found
  have exit := (settled pred ((listed pred).mpr before) c at_pred).2
  obtain ⟨r, value, _⟩ := (fine.phis p member).2 pred edge _ exit
  obtain ⟨i, at_i, rfl⟩ := Option.map_eq_some_iff.mp value
  refine List.mem_map.mpr ⟨i, List.mem_of_find?_eq_some at_i, ?_⟩
  simpa using List.find?_some at_i

/-- What is known of the blocks of a function, before and after its turn. -/
structure Emitted (f : Ir.Function) (done : Prop) (g : Llvm.Func) : Prop where
  blank : f.isExternal = true ∨ ¬ done → g.blocks = []
  formed : f.isExternal = false → done → PhisCovered f → WellFormed (nameOf f.entry) g.blocks

/-- The first functions of a module are lowered: each keeps its place and its name. -/
def Lowers (fs : List Ir.Function) (names : List String) (done : Nat) (s : State) : Prop :=
  ∀ (k : Nat) (f : Ir.Function), fs[k]? = some f → ∃ g, s.functions[k]? = some g ∧
    names[k]? = some g.name ∧ Emitted f (k < done) g

namespace Lowers

variable {fs : List Ir.Function} {names : List String} {done : Nat}

/-- A declaration gets no body. -/
theorem external (lowers : Lowers fs names done s) (next : fs[done]? = some f)
    (outside : f.isExternal = true) : Lowers fs names (done + 1) s := by
  intro k h at_k
  obtain ⟨g, there, named, emitted⟩ := lowers k h at_k
  refine ⟨g, there, named, fun out => emitted.blank ?_, fun body turn => emitted.formed body ?_⟩
  · exact out.imp_right fun late => by omega
  · have other : k ≠ done := by
      rintro rfl
      cases next.symm.trans at_k
      cases body.symm.trans outside
    omega

/-- The function that is next gets its body. -/
theorem body {functions globals : Nat} {u : Unit} (lowers : Lowers fs names done s)
    (next : fs[done]? = some f) (number : f.id.num = done) (numbered : f.WellNumbered)
    (internal : f.isExternal = false) (ran : body functions globals f s = .ok (u, t)) :
    Lowers fs names (done + 1) t := by
  obtain ⟨m, grows, more, formed⟩ := body_ok numbered ran
  have kept : ∀ k g, s.functions[k]? = some g → m.functions[k]? = some g := fun k g there =>
    (grows.kept k (Array.getElem?_eq_some_iff.mp there).1).trans there
  intro k h at_k
  obtain ⟨g, there, named, emitted⟩ := lowers k h at_k
  rw [more, number, Array.getElem?_modify, kept k g there]
  by_cases same : done = k
  · subst same
    cases next.symm.trans at_k
    have none := emitted.blank (.inr (Nat.lt_irrefl _))
    rw [if_pos rfl, Option.map_some]
    refine ⟨_, rfl, named, fun out => ?_, fun _ _ covered => ?_⟩
    · rcases out with outside | late
      · cases internal.symm.trans outside
      · exact absurd (Nat.lt_succ_self _) late
    · dsimp only
      rw [none, List.nil_append]
      exact formed covered
  · rw [if_neg same]
    exact ⟨g, rfl, named, fun out => emitted.blank (out.imp_right fun late => by omega),
      fun body turn => emitted.formed body (by omega)⟩

end Lowers

theorem signatureOf_ok {name : String} {g : Llvm.Func} (made : signatureOf name f = .ok g) :
    g.name = name ∧ g.blocks = [] := by
  obtain ⟨params, _, same⟩ := bind_eq_ok.mp made
  cases same
  exact ⟨rfl, rfl⟩

/-- The wrapper comes after the functions of the source. -/
theorem mainWrapper_grows {entry : Ir.Function} {u : Unit} (ran : mainWrapper entry s = .ok (u, t)) :
    s.Grows t ∧ t.globals = s.globals := by
  obtain ⟨_, _, got, rest⟩ := run_bind.mp ran
  cases got
  cases known : s.functions[entry.id.num]? with
  | none =>
    simp only [known] at rest
    cases rest
  | some callee =>
    simp only [known] at rest
    cases rest
    exact ⟨.of_push rfl, rfl⟩

end

end TieredEngine.Ship.Lowering

namespace TieredEngine.Ship
open TieredEngine TieredEngine.Llvm Lowering

/-- Name of a function in the lowered module. -/
def LowerOptions.nameOf (o : LowerOptions) (f : Ir.Function) : String :=
  if o.wrapped.any fun e => e.id == f.id && f.name == "main" then renamedMain else f.name

/-- Signatures give functions their names, and no blocks yet. -/
theorem lowers_signatures {o : LowerOptions} {fs : List Ir.Function} {functions : List Llvm.Func}
    (made : fs.mapM (fun f => (signatureOf (o.nameOf f) f).mapError Fault.error) =
      (.ok functions : Except (Fault LowerError) _))
    {s : State} (start : s.functions = functions.toArray) : Lowers fs (fs.map o.nameOf) 0 s := by
  intro k f at_k
  obtain ⟨same, each⟩ := List.forall₂_iff_get.mp (mapM_eq_ok.mp made)
  obtain ⟨inside, rfl⟩ := List.getElem?_eq_some_iff.mp at_k
  obtain ⟨named, none⟩ := signatureOf_ok (mapError_eq_ok.mp (each k inside (same ▸ inside)))
  refine ⟨functions[k], ?_, ?_, fun _ => none, fun _ late => by omega⟩
  · rw [start, List.getElem?_toArray, List.getElem?_eq_getElem]
  · rw [List.getElem?_map, List.getElem?_eq_getElem inside, Option.map_some]
    exact congrArg some named.symm

/-- Functions of an accepted module are well numbered. -/
theorem wellNumbered_at {m : Ir.Module} (accepted : m.defects = .ok []) {k : Nat} {f : Ir.Function}
    (at_k : m.functions[k]? = some f) (internal : f.isExternal = false) :
    f.id.num = k ∧ f.WellNumbered := by
  have found := Ir.Module.function?_of_mem accepted (Array.mem_of_getElem? at_k)
  exact ⟨Ir.Module.number_of_accepted accepted at_k, (Ir.Function.wellNumbered_of_defects
    (Ir.Module.function_of_accepted accepted found).1 internal).1⟩

/-- What holds with the signatures, and is kept when one function after the other gets its body, holds when
a module is lowered; then there may only be the wrapper to add. -/
theorem lower_run {m : Ir.Module} {o : LowerOptions}
    {l : Llvm.Module} (ran : lower m o = .ok l) {I : Nat → State → Prop}
    (start : ∀ globals functions,
      m.globals.toList.mapM (fun g? => do
        let g ← Crash.lift (Crash.deref g?)
        (globalOf g).mapError Fault.error) = (.ok globals : Except (Fault LowerError) _) →
      m.functions.toList.mapM (fun f => (signatureOf (o.nameOf f) f).mapError Fault.error) =
        (.ok functions : Except (Fault LowerError) _) →
      I 0 {
        globals := globals.toArray, functions := functions.toArray
        declared := (functions.zipIdx.map fun (f, i) => (f.name, i)).reverse })
    (external : ∀ k f s, m.functions[k]? = some f → f.isExternal = true → I k s → I (k + 1) s)
    (body : ∀ k f s t, m.functions[k]? = some f → f.isExternal = false →
      body m.functions.size m.globals.size f s = .ok ((), t) → I k s → I (k + 1) t) :
    ∃ s t : State, I m.functions.size s ∧ s.Grows t ∧ t.globals = s.globals ∧
      l.functions = t.functions ∧ l.globals = t.globals := by
  obtain ⟨globals, made, rest⟩ := bind_eq_ok.mp ran
  obtain ⟨functions, made', rest⟩ := bind_eq_ok.mp rest
  obtain ⟨⟨_, s⟩, lowered, last⟩ := bind_eq_ok.mp rest
  cases last
  obtain ⟨_, s₁, looped, wrapped⟩ := run_bind.mp lowered
  rw [← Array.forIn_toList] at looped
  obtain ⟨before, whole, holds⟩ := run_forIn (fun rest s => ∃ before : List Ir.Function,
    before ++ rest = m.functions.toList ∧ I before.length s) ⟨[], rfl, start _ _ made made'⟩ (by
      rintro f rest t r t' ⟨before, whole, holds⟩ step
      have next : m.functions[before.length]? = some f := by
        rw [← Array.getElem?_toList, ← whole, List.getElem?_append_right (Nat.le_refl _), Nat.sub_self]
        rfl
      have longer : before ++ [f] ++ rest = m.functions.toList := by simpa using whole
      cases internal : f.isExternal with
      | true =>
        rw [internal] at step
        obtain ⟨rfl, rfl⟩ := run_pure.mp step
        exact ⟨rfl, before ++ [f], longer, by simpa using external _ f _ next internal holds⟩
      | false =>
        rw [internal] at step
        obtain ⟨_, t₁, filled, last⟩ := run_bind.mp step
        obtain ⟨rfl, rfl⟩ := run_pure.mp last
        exact ⟨rfl, before ++ [f], longer, by simpa using body _ f _ _ next internal filled holds⟩) looped
  rw [List.append_nil] at whole
  rw [whole, Array.length_toList] at holds
  have grows : s₁.Grows s ∧ s.globals = s₁.globals := by
    cases wanted : o.wrapped with
    | none =>
      simp only [wanted] at wrapped
      obtain ⟨_, rfl⟩ := run_pure.mp wrapped
      exact ⟨.refl _, rfl⟩
    | some entry =>
      simp only [wanted] at wrapped
      obtain ⟨_, _, got, rest⟩ := run_bind.mp wrapped
      cases got
      split at rest
      · cases rest
      · exact mainWrapper_grows rest
  exact ⟨s₁, s, holds, grows.1, grows.2, rfl, rfl⟩

/-- Lowering an accepted module lowers all its functions. -/
theorem lowers_of_lower {m : Ir.Module} (accepted : m.defects = .ok []) {o : LowerOptions}
    {l : Llvm.Module} (ran : lower m o = .ok l) : ∃ s, l.functions = s.functions ∧
      Lowers m.functions.toList (m.functions.toList.map o.nameOf) m.functions.size s := by
  have listed : ∀ {k : Nat} {f : Ir.Function}, m.functions[k]? = some f →
      m.functions.toList[k]? = some f := fun at_k => by rw [Array.getElem?_toList, at_k]
  obtain ⟨s, t, lowers, grows, _, functions, _⟩ := lower_run ran
    (I := Lowers m.functions.toList (m.functions.toList.map o.nameOf))
    (fun _ _ _ made => lowers_signatures made rfl)
    (fun k f s at_k internal lowers => lowers.external (listed at_k) internal)
    (fun k f s t at_k internal ran lowers =>
      have ⟨number, numbered⟩ := wellNumbered_at accepted at_k internal
      lowers.body (listed at_k) number numbered internal ran)
  refine ⟨t, functions, fun k f at_k => ?_⟩
  obtain ⟨g, there, emitted⟩ := lowers k f at_k
  exact ⟨g, (grows.kept k (Array.getElem?_eq_some_iff.mp there).1).trans there, emitted⟩

/-- In a module that is lowered, each function of an accepted module has its own place and name, and
one with a body that passes the typing check, with phis that name no predecessor twice, is well formed. -/
theorem lowered_wellFormed {m : Ir.Module} (accepted : m.defects = .ok []) {o : LowerOptions}
    {l : Llvm.Module} (ran : lower m o = .ok l) {k : Nat} {f : Ir.Function}
    (at_k : m.functions[k]? = some f) (typed : f.typingErrors = .ok [])
    (single : ∀ id b, f.block? id = some b → ∀ p ∈ b.phis, (p.incoming.map (·.pred)).Nodup) :
    ∃ g, l.functions[k]? = some g ∧ g.name = o.nameOf f ∧
      (f.isExternal = true → g.blocks = []) ∧
      (f.isExternal = false → WellFormed (.block f.entry.num) g.blocks) := by
  obtain ⟨s, functions, lowers⟩ := lowers_of_lower accepted ran
  have at_k' : m.functions.toList[k]? = some f := by rw [Array.getElem?_toList, at_k]
  obtain ⟨g, there, named, emitted⟩ := lowers k f at_k'
  rw [List.getElem?_map, at_k', Option.map_some, Option.some.injEq] at named
  refine ⟨g, functions ▸ there, named.symm, fun out => emitted.blank (.inl out), fun internal => ?_⟩
  exact emitted.formed internal (Array.getElem?_eq_some_iff.mp at_k).1
    (phisCovered_of_typed (wellNumbered_at accepted at_k internal).2 internal typed single)

/-- A function whose entry is jumped to, and which goes to a block with a phi on either branch. -/
def looping : Ir.Function := {
  name := "looping"
  sig := { params := [.bool], ret := .i32 }
  params := [⟨0⟩]
  regTypes := #[.bool, .i32, .i32]
  blocks := #[
    some { id := ⟨0⟩, insts := [{ op := .const, dest := ⟨1⟩, ty := .i32, const := .ofInt .i32 7 }],
           term := .condBr ⟨0⟩ ⟨1⟩ ⟨1⟩ },
    some { id := ⟨1⟩, phis := [{ dest := ⟨2⟩, ty := .i32, incoming := [⟨⟨0⟩, ⟨1⟩⟩] }],
           term := .condBr ⟨0⟩ ⟨0⟩ ⟨2⟩ },
    some { id := ⟨2⟩, term := .ret (some ⟨2⟩) }] }

/-- There is a block in front of its entry, and the phi has an input for each of the two edges. -/
theorem lowered_wellFormed_looping : ∃ l g, lower { functions := #[looping] } {} = .ok l ∧
    l.functions[0]? = some g ∧ WellFormed (.block 0) g.blocks ∧
    g.blocks.map (fun b => (b.name.text, b.insts.map (·.op))) =
      [("start", []), ("bb0", []),
       ("bb1", [.phi (.int 32) [(.const (.int 32 7), .block 0), (.const (.int 32 7), .block 0)]]),
       ("bb2", [])] := by
  have written : (lower { functions := #[looping] } {}).toOption.map
      (fun l => l.functions[0]?.map fun g =>
        g.blocks.map (fun b => (b.name.text, b.insts.map (·.op)))) =
      some (some [("start", []), ("bb0", []),
        ("bb1", [.phi (.int 32) [(.const (.int 32 7), .block 0), (.const (.int 32 7), .block 0)]]),
        ("bb2", [])]) := by decide +kernel
  obtain ⟨l, lowered, written⟩ := Option.map_eq_some_iff.mp written
  have ran : lower { functions := #[looping] } {} = .ok l := by
    revert lowered
    cases lower { functions := #[looping] } {} with
    | error e => exact fun none => by cases none
    | ok l' => exact fun same => by rw [Option.some.inj same]
  have single : ∀ b ∈ looping.blocks, ∀ p ∈ (b.map (·.phis)).getD [],
      (p.incoming.map (·.pred)).Nodup := by decide
  obtain ⟨g, there, _, _, formed⟩ := lowered_wellFormed (m := { functions := #[looping] })
    (by decide +kernel) ran (k := 0) (f := looping) rfl (by decide +kernel) fun id b found p member =>
      single (some b) (Array.mem_of_getElem? (Option.join_eq_some_iff.mp found)) p member
  refine ⟨l, g, ran, there, formed rfl, ?_⟩
  rw [there] at written
  exact Option.some.inj written

end TieredEngine.Ship
