import TieredEngine.Proofs.Pass.Conserving

/-!
Constant folding refines a function, and conserves it. The blocks are visited in some order, each
once; what has been visited is a rewriting under the constants found so far, and what has not been
visited has only lost phi inputs along edges that are gone.
-/
namespace TieredEngine.Pass.ConstFold
open TieredEngine.Ir TieredEngine.Eval

/-- The facts behind a folding. -/
def facts (known : Known) : Facts := { constant := fun r v => (r, v) ∈ known }

theorem mem_of_lookup {known : Known} {r : Reg} {v : Value} (found : lookup known r = some v) :
    (r, v) ∈ known := by
  obtain ⟨p, among, rfl⟩ := Option.map_eq_some_iff.mp found
  have same : p.1 = r := by simpa using List.find?_some among
  exact same ▸ List.mem_of_find?_eq_some among

theorem mem_of_lookups {known : Known} {rs : List Reg} {vs : List Value}
    (found : rs.mapM (lookup known) = some vs) :
    List.Forall₂ (fun r v => (r, v) ∈ known) rs vs := by
  induction rs generalizing vs with
  | nil =>
    cases found
    exact .nil
  | cons r rs ih =>
    simp only [List.mapM_cons, Option.bind_eq_bind, Option.bind_eq_some_iff] at found
    obtain ⟨v, head, vs', tail, same⟩ := found
    cases same
    exact .cons (mem_of_lookup head) (ih tail)

/-- An instruction that is folded computes its constant from known ones. -/
theorem foldInst?_eq_some {known : Known} {i : Inst} {v : Value}
    (folded : foldInst? known i = some v) : i.hasDest = true ∧
      ∃ vs, List.Forall₂ (fun r x => (r, x) ∈ known) i.args vs ∧ fold? i vs = some v := by
  unfold foldInst? at folded
  split at folded
  · cases folded
  · next plain =>
    simp only [Bool.or_eq_true, decide_eq_true_eq, Bool.not_eq_true', not_or,
      Bool.not_eq_false] at plain
    obtain ⟨vs, found, value⟩ := Option.bind_eq_some_iff.mp folded
    exact ⟨plain.1.2, vs, mem_of_lookups found, value⟩

/-- Known constants have the types of their registers. -/
def Typed (f : Function) (known : Known) : Prop :=
  ∀ r v, (r, v) ∈ known → f.regType? r = some v.ty

/-- What folding the instructions of a block does, when the constants it ends with are among some
that hold throughout. -/
structure Folds (known : Known) (is : List Inst) (known' : Known) (is' : List Inst) : Prop where
  grows : known ⊆ known'
  targets : is'.filterMap Inst.target? = is.filterMap Inst.target?
  insts : ∀ all, known' ⊆ all → (facts all).Insts is is'
  source : ∀ r v, (r, v) ∈ known' → (r, v) ∈ known ∨
    ∃ i ∈ is, i.target? = some r ∧ (facts known').Yields i v
  values : ∀ P, Closed P → (∀ i ∈ is, i.op = .const → P i.const) → (∀ p ∈ known, P p.2) →
    ∀ p ∈ known', P p.2
  types : ∀ f : Function, (∀ i ∈ is, i.WellTyped f) → Typed f known → Typed f known'

theorem Folds.nil (known : Known) : Folds known [] known [] where
  grows _ member := member
  targets := rfl
  insts _ _ := .nil
  source _ _ member := .inl member
  values _ _ _ good := good
  types _ _ good := good

/-- An instruction that stays and adds nothing to the constants. -/
theorem Folds.keep {known known' : Known} {i : Inst} {is is' : List Inst}
    (rest : Folds known is known' is') : Folds known (i :: is) known' (i :: is') where
  grows := rest.grows
  targets := by simp only [List.filterMap_cons, rest.targets]
  insts all sub :=
    .step (.keep (i := i) (List.forall₂_same.mpr fun _ _ => ⟨.refl, trivial⟩)) (rest.insts all sub)
  source r v member := by
    rcases rest.source r v member with old | ⟨j, inside, writes⟩
    · exact .inl old
    · exact .inr ⟨j, by simp [inside], writes⟩
  values P closed consts := rest.values P closed fun j inside => consts j (by simp [inside])
  types f typed := rest.types f fun j inside => typed j (by simp [inside])

/-- An instruction that makes its register a constant. -/
theorem Folds.learn {known known' : Known} {i i' : Inst} {v : Value} {is is' : List Inst}
    (rest : Folds ((i.dest, v) :: known) is known' is') (target : i.target? = some i.dest)
    (same : i'.target? = i.target?)
    (yields : ∀ all, known ⊆ all → (facts all).Step i i' ∧ (facts all).Yields i v)
    (value : ∀ P, Closed P → (i.op = .const → P i.const) → (∀ p ∈ known, P p.2) → P v)
    (type : ∀ f : Function, i.WellTyped f → Typed f known → f.regType? i.dest = some v.ty) :
    Folds known (i :: is) known' (i' :: is') where
  grows := fun p member => rest.grows (List.mem_cons_of_mem _ member)
  targets := by simp only [List.filterMap_cons, rest.targets, same]
  insts all sub :=
    .step (yields all fun p member => sub (rest.grows (List.mem_cons_of_mem _ member))).1
      (rest.insts all sub)
  source r x member := by
    rcases rest.source r x member with new | ⟨j, inside, writes⟩
    · rcases List.mem_cons.mp new with own | old
      · cases own
        refine .inr ⟨i, by simp, target, (yields known' fun p member => ?_).2⟩
        exact rest.grows (List.mem_cons_of_mem _ member)
      · exact .inl old
    · exact .inr ⟨j, by simp [inside], writes⟩
  values P closed consts good := by
    refine rest.values P closed (fun j inside => consts j (by simp [inside])) fun p member => ?_
    rcases List.mem_cons.mp member with rfl | old
    · exact value P closed (consts i (by simp)) good
    · exact good p old
  types f typed good := by
    refine rest.types f (fun j inside => typed j (by simp [inside])) fun r x member => ?_
    rcases List.mem_cons.mp member with own | old
    · cases own
      exact type f (typed i (by simp)) good
    · exact good r x old

theorem foldInsts_folds (known : Known) (is : List Inst) :
    Folds known is (foldInsts known is).1 (foldInsts known is).2.1 := by
  induction is generalizing known with
  | nil => exact .nil known
  | cons i is ih =>
    simp only [foldInsts]
    split
    · next const =>
      refine (ih _).learn (by simp [Inst.target?, const]) rfl (fun all _ => ⟨?_, .inl ⟨const, rfl⟩⟩)
        (fun P _ good _ => good const) fun f typed _ => typed.const const
      exact .keep (i := i) (List.forall₂_same.mpr fun _ _ => ⟨.refl, trivial⟩)
    · cases folded : foldInst? known i with
      | none => exact (ih known).keep
      | some v =>
        obtain ⟨defines, vs, args, value⟩ := foldInst?_eq_some folded
        have target := Inst.target?_of_hasDest defines
        refine (ih _).learn target target.symm (fun all sub => ?_) (fun P closed const good => ?_)
          fun f typed good => folded_type good args typed value
        · have constants : List.Forall₂ (facts all).constant i.args vs :=
            args.imp fun r x member => sub member
          exact ⟨.fold defines constants value, .inr ⟨vs, constants, value⟩⟩
        · refine closed.compute #[] i vs v (by simp) (fun x inside => ?_) const
            (compute_of_fold? value #[]).1
          obtain ⟨r, _, member⟩ := forall₂_partner args.flip inside
          exact good (r, x) member

/-- A phi that has lost some of its inputs and gives the same values along some edges. -/
structure PhiAlong (edge : BlockId → Prop) (p p' : Phi) : Prop where
  dest : p'.dest = p.dest
  ty : p'.ty = p.ty
  fewer : p'.incoming ⊆ p.incoming
  value : ∀ pred, edge pred → p'.valueFor? pred = p.valueFor? pred

def PhisAlong (edge : BlockId → Prop) : List Phi → List Phi → Prop :=
  List.Forall₂ (PhiAlong edge)

theorem PhisAlong.refl {edge : BlockId → Prop} (ps : List Phi) : PhisAlong edge ps ps :=
  List.forall₂_same.mpr fun _ _ => ⟨rfl, rfl, List.Subset.refl _, fun _ _ => rfl⟩

theorem PhisAlong.trans {edge edge' edge'' : BlockId → Prop} {ps qs rs : List Phi}
    (first : PhisAlong edge ps qs) (second : PhisAlong edge' qs rs)
    (left : ∀ pred, edge'' pred → edge pred) (right : ∀ pred, edge'' pred → edge' pred) :
    PhisAlong edge'' ps rs := by
  unfold PhisAlong at first second ⊢
  induction first generalizing rs with
  | nil =>
    cases second
    exact .nil
  | cons head _ ih =>
    cases second with
    | cons head' tail' =>
      refine .cons ⟨head'.dest.trans head.dest, head'.ty.trans head.ty,
        List.Subset.trans head'.fewer head.fewer, fun pred along => ?_⟩ (ih tail')
      exact (head'.value pred (right pred along)).trans (head.value pred (left pred along))

theorem PhisAlong.phis {known : Known} {edge : BlockId → Prop} {ps ps' : List Phi}
    (along : PhisAlong edge ps ps') : (facts known).Phis edge ps ps' := by
  unfold PhisAlong at along
  induction along with
  | nil => exact .nil
  | cons head _ ih =>
    refine .keep head.dest (fun pred r inside value => ⟨r, ?_, .refl, trivial⟩) ih
    exact (head.value pred inside).trans value

/-- Dropping the inputs from a block leaves those from all others. -/
theorem dropInputs_along (pred : BlockId) (b : Block) :
    PhisAlong (· ≠ pred) b.phis (dropInputs pred b).phis := by
  unfold PhisAlong dropInputs
  rw [List.forall₂_map_right_iff]
  refine List.forall₂_same.mpr fun p _ => ⟨rfl, rfl, List.filter_sublist.subset, fun x apart => ?_⟩
  unfold Phi.valueFor?
  rw [List.find?_filter]
  congr 2
  funext i
  by_cases from_x : i.pred = x
  · simp [from_x, apart]
  · simp [from_x]

theorem dropInputs_dropInputs (pred : BlockId) (b : Block) :
    dropInputs pred (dropInputs pred b) = dropInputs pred b := by
  simp [dropInputs]

/-- A function with other blocks, as many as before. -/
def Reshaped (f f' : Function) : Prop :=
  ∃ blocks, f' = { f with blocks } ∧ blocks.size = f.blocks.size

theorem Reshaped.refl (f : Function) : Reshaped f f := ⟨f.blocks, rfl, rfl⟩

theorem Reshaped.trans {f g h : Function} (first : Reshaped f g) (second : Reshaped g h) :
    Reshaped f h := by
  obtain ⟨blocks, rfl, size⟩ := first
  obtain ⟨blocks', rfl, size'⟩ := second
  exact ⟨blocks', rfl, size'.trans size⟩

theorem reshaped_modifyBlock (f : Function) (id : BlockId) (g : Block → Block) :
    Reshaped f (modifyBlock f id g) :=
  ⟨f.blocks.modify id.num (·.map g), rfl, Array.size_modify ..⟩

theorem block?_modifyBlock (f : Function) (id x : BlockId) (g : Block → Block) :
    (modifyBlock f id g).block? x = if x = id then (f.block? x).map g else f.block? x := by
  unfold Function.block? modifyBlock
  rw [Array.getElem?_modify]
  by_cases same : x = id
  · subst same
    rw [if_pos rfl, if_pos rfl]
    cases f.blocks[x.num]? with
    | none => rfl
    | some b? => rfl
  · rw [if_neg same, if_neg fun equal => same (BlockId.num_inj.mp equal.symm)]

/-- A function whose blocks at some places have lost the inputs from a block. -/
def dropAll (pred : BlockId) (ss : List BlockId) (f : Function) : Function :=
  ss.foldl (fun f s => modifyBlock f s (dropInputs pred)) f

theorem reshaped_dropAll (pred : BlockId) (ss : List BlockId) (f : Function) :
    Reshaped f (dropAll pred ss f) := by
  induction ss generalizing f with
  | nil => exact .refl f
  | cons s ss ih => exact (reshaped_modifyBlock f s _).trans (ih _)

theorem block?_dropAll (pred x : BlockId) (ss : List BlockId) (f : Function) :
    (dropAll pred ss f).block? x =
      if x ∈ ss then (f.block? x).map (dropInputs pred) else f.block? x := by
  induction ss generalizing f with
  | nil => rfl
  | cons s ss ih =>
    show (dropAll pred ss (modifyBlock f s (dropInputs pred))).block? x = _
    rw [ih, block?_modifyBlock]
    by_cases here : x = s
    · by_cases later : x ∈ ss
      · have twice : dropInputs pred ∘ dropInputs pred = dropInputs pred :=
          funext (dropInputs_dropInputs pred)
        simp [here, here ▸ later, twice]
      · simp [here, here ▸ later]
    · simp [here]

/-- A terminator with its branch decided, if it can be. -/
def foldTerm (known : Known) (t : Term) : Term :=
  match knownTarget? known t with
  | none => t
  | some target => .br target

theorem foldTerm_terms {known all : Known} (sub : known ⊆ all) (t : Term) :
    (facts all).Terms t (foldTerm known t) := by
  unfold foldTerm
  split
  · exact .unchanged rfl fun _ _ => trivial
  · next target found => exact .decide known (fun p member => sub member) found

theorem foldTerm_successors {known : Known} {t : Term} {s : BlockId}
    (branch : s ∈ (foldTerm known t).successors) : s ∈ t.successors := by
  unfold foldTerm at branch
  split at branch
  · exact branch
  · next target found =>
    simp only [Term.successors, List.mem_singleton] at branch
    exact branch ▸ knownTarget?_mem found

/-- What a visit does to a function: it folds the block that is visited, and drops phi inputs along
the edges that disappear. -/
structure Visits (s : State) (id : BlockId) (b : Block) (s' : State) : Prop where
  shape : Reshaped s.function s'.function
  known : s'.known = (foldInsts s.known b.insts).1
  block : ∀ x c, s.function.block? x = some c → ∃ c', s'.function.block? x = some c' ∧
    c'.id = c.id ∧
    PhisAlong (fun pred => pred = id → x ∈ (foldTerm s'.known b.term).successors)
      c.phis c'.phis ∧
    (x ≠ id → c'.insts = c.insts ∧ c'.term = c.term) ∧
    (x = id → c'.insts = (foldInsts s.known b.insts).2.1 ∧ c'.term = foldTerm s'.known b.term)

theorem visit_ok {s : State} {id : BlockId} {b : Block} (found : s.function.block? id = some b)
    (same : b.id = id) : ∃ s', visit s id = .ok s' ∧ Visits s id b s' := by
  obtain ⟨known, insts, folded, result⟩ :
      ∃ known insts folded, foldInsts s.known b.insts = (known, insts, folded) := ⟨_, _, _, rfl⟩
  let g := modifyBlock s.function id fun b => { b with insts }
  have stepped : visit s id =
      .ok ⟨(foldBranch known g id b).1, known, s.changed || folded || (foldBranch known g id b).2⟩ := by
    unfold visit
    rw [found]
    simp only [Crash.deref, bind, Except.bind, pure, Except.pure, result]
    rfl
  refine ⟨_, stepped, ?_⟩
  have shaped : Reshaped s.function g := reshaped_modifyBlock ..
  have at_g : ∀ x, g.block? x = if x = id then
      (s.function.block? x).map (fun b => { b with insts }) else s.function.block? x :=
    fun x => block?_modifyBlock ..
  cases decided : knownTarget? known b.term with
  | none =>
    have plain : foldBranch known g id b = (g, false) := by simp only [foldBranch, decided]
    have term : foldTerm known b.term = b.term := by simp only [foldTerm, decided]
    rw [plain]
    refine ⟨shaped, by rw [result], fun x c at_x => ?_⟩
    simp only [result, term, at_g, at_x]
    by_cases here : x = id
    · subst here
      cases found.symm.trans at_x
      refine ⟨{ b with insts }, by rw [if_pos rfl, Option.map_some], rfl, ?_, by simp, by simp⟩
      exact .refl _
    · exact ⟨c, by rw [if_neg here], rfl, .refl _, by simp, fun equal => absurd equal here⟩
  | some target =>
    let lost := b.term.successors.filter (· != target)
    have jumped : foldBranch known g id b =
        (modifyBlock (dropAll b.id lost g) id fun b => { b with term := .br target }, true) := by
      simp only [foldBranch, decided]
      rfl
    have term : foldTerm known b.term = .br target := by simp only [foldTerm, decided]
    rw [jumped]
    refine ⟨(shaped.trans (reshaped_dropAll ..)).trans (reshaped_modifyBlock ..), by rw [result],
      fun x c at_x => ?_⟩
    simp only [result, term, block?_modifyBlock, block?_dropAll, at_g, at_x, Term.successors,
      List.mem_singleton, same]
    have along : ∀ d : Block, d.phis = c.phis → x ∈ lost →
        PhisAlong (fun pred => pred = id → x = target) c.phis (dropInputs id d).phis := by
      intro d phis gone
      have apart : x ≠ target := by simpa [lost] using (List.mem_filter.mp gone).2
      have dropped := dropInputs_along id d
      rw [phis] at dropped
      have start : PhisAlong (fun pred => pred = id → x = target) c.phis c.phis := .refl _
      exact start.trans dropped
        (fun _ edge => edge) fun pred edge from_id => apart (edge from_id)
    by_cases here : x = id <;> by_cases gone : x ∈ lost
    · subst here
      refine ⟨{ dropInputs x { c with insts } with term := .br target }, ?_, rfl,
        along { c with insts } rfl gone, by simp, fun _ => ⟨rfl, rfl⟩⟩
      rw [if_pos rfl, if_pos gone, if_pos rfl]
      rfl
    · subst here
      refine ⟨{ c with insts, term := .br target }, ?_, rfl, .refl _, by simp,
        fun _ => ⟨rfl, rfl⟩⟩
      rw [if_pos rfl, if_neg gone, if_pos rfl]
      rfl
    · refine ⟨dropInputs id c, ?_, rfl, along c rfl gone, fun _ => ⟨rfl, rfl⟩,
        fun equal => absurd equal here⟩
      rw [if_neg here, if_pos gone, if_neg here, Option.map_some]
    · refine ⟨c, ?_, rfl, .refl _, fun _ => ⟨rfl, rfl⟩, fun equal => absurd equal here⟩
      rw [if_neg here, if_neg gone, if_neg here]

/-- Whether a function has the edge between two blocks. -/
def Edge (f : Function) (pred id : BlockId) : Prop :=
  ∃ c, f.block? pred = some c ∧ id ∈ c.term.successors

/-- A block that has been visited, under the constants known by now. -/
structure Folded (known : Known) (b b' : Block) : Prop where
  targets : b'.insts.filterMap Inst.target? = b.insts.filterMap Inst.target?
  insts : ∀ all, known ⊆ all → (facts all).Insts b.insts b'.insts
  term : ∀ all, known ⊆ all → (facts all).Terms b.term b'.term
  successors : ∀ s ∈ b'.term.successors, s ∈ b.term.successors

/-- The state of a folding in which some blocks have been visited. -/
structure Folding (f : Function) (visited : List BlockId) (s : State) : Prop where
  shape : Reshaped f s.function
  block : ∀ id b, f.block? id = some b → ∃ b', s.function.block? id = some b' ∧ b'.id = b.id ∧
    PhisAlong (Edge s.function · id) b.phis b'.phis ∧
    (id ∉ visited → b'.insts = b.insts ∧ b'.term = b.term) ∧
    (id ∈ visited → Folded s.known b b')
  source : ∀ r v, (r, v) ∈ s.known → ∃ id b i, id ∈ visited ∧ f.block? id = some b ∧ i ∈ b.insts ∧
    i.target? = some r ∧ (facts s.known).Yields i v
  values : ∀ P, Closed P → Constants P f → ∀ p ∈ s.known, P p.2
  types : (∀ id b, f.Reachable id → f.block? id = some b → ∀ i ∈ b.insts, i.WellTyped f) →
    Typed f s.known

theorem Folding.start (f : Function) : Folding f [] { function := f } where
  shape := .refl f
  block id b found := ⟨b, found, rfl, .refl _, fun _ => ⟨rfl, rfl⟩, fun member => by cases member⟩
  source _ _ member := by cases member
  values _ _ _ _ member := by cases member
  types _ _ _ member := by cases member

theorem yields_mono {known all : Known} (sub : known ⊆ all) {i : Inst} {v : Value}
    (yields : (facts known).Yields i v) : (facts all).Yields i v :=
  yields.imp id fun ⟨vs, args, value⟩ => ⟨vs, args.imp fun _ _ member => sub member, value⟩

section Folding

variable {f : Function} (numbered : f.WellNumbered) {visited : List BlockId} {s : State}
  (folding : Folding f visited s)
include numbered folding

/-- A block of the state was a block of the function. -/
theorem Folding.back {id : BlockId} {b' : Block} (found' : s.function.block? id = some b') :
    ∃ b, f.block? id = some b := by
  obtain ⟨blocks, shape, size⟩ := folding.shape
  have bound := (Array.getElem?_eq_some_iff.mp (Function.block?_eq_some.mp found')).1
  rw [shape] at bound
  exact numbered.present id (size ▸ bound)

/-- Visiting one more block. -/
theorem Folding.visit {id : BlockId} (fresh : id ∉ visited) (reached : f.Reachable id) :
    ∃ s', visit s id = .ok s' ∧ Folding f (id :: visited) s' := by
  obtain ⟨b, found⟩ := reached.present numbered
  obtain ⟨c, found', number, _, waiting, _⟩ := folding.block id b found
  obtain ⟨insts, term⟩ := waiting fresh
  obtain ⟨s', stepped, visits⟩ := visit_ok found' (number.trans (numbered.number id b found))
  have folds := foldInsts_folds s.known b.insts
  rw [← insts, ← visits.known] at folds
  -- the edges that are left were there before the visit, and those of the visited block are its own
  have edges : ∀ pred x, Edge s'.function pred x → Edge s.function pred x ∧
      (pred = id → x ∈ (foldTerm s'.known c.term).successors) := by
    rintro pred x ⟨d', after, branch⟩
    obtain ⟨blocks, shape, size⟩ := visits.shape
    have bound := (Array.getElem?_eq_some_iff.mp (Function.block?_eq_some.mp after)).1
    obtain ⟨fBlocks, fShape, fSize⟩ := folding.shape
    rw [shape, size, fShape, fSize] at bound
    obtain ⟨e, present⟩ := numbered.present pred bound
    obtain ⟨d, before, _⟩ := folding.block pred e present
    obtain ⟨d₂, after₂, _, _, others, own⟩ := visits.block pred d before
    cases after.symm.trans after₂
    by_cases same : pred = id
    · subst same
      cases found'.symm.trans before
      rw [(own rfl).2] at branch
      exact ⟨⟨c, found', foldTerm_successors branch⟩, fun _ => branch⟩
    · rw [(others same).2] at branch
      exact ⟨⟨d, before, branch⟩, fun equal => absurd equal same⟩
  refine ⟨s', stepped, folding.shape.trans visits.shape, fun x d present => ?_, ?_, ?_, ?_⟩
  · obtain ⟨d', before, number', along, others, done⟩ := folding.block x d present
    obtain ⟨d₂, after, number₂, along₂, others₂, own₂⟩ := visits.block x d' before
    refine ⟨d₂, after, number₂.trans number', ?_, fun unseen => ?_, fun seen => ?_⟩
    · exact along.trans along₂ (fun pred edge => (edges pred x edge).1)
        fun pred edge => (edges pred x edge).2
    · simp only [List.mem_cons, not_or] at unseen
      obtain ⟨insts₂, term₂⟩ := others₂ unseen.1
      obtain ⟨insts', term'⟩ := others unseen.2
      exact ⟨insts₂.trans insts', term₂.trans term'⟩
    · by_cases same : x = id
      · subst same
        cases found'.symm.trans before
        cases found.symm.trans present
        obtain ⟨insts₂, term₂⟩ := own₂ rfl
        refine ⟨?_, fun all sub => ?_, fun all sub => ?_, fun t branch => ?_⟩
        · rw [insts₂, folds.targets, insts]
        · rw [insts₂, ← insts]
          exact folds.insts all sub
        · rw [term₂, ← term]
          exact foldTerm_terms sub c.term
        · rw [← term]
          exact foldTerm_successors (term₂ ▸ branch)
      · have folded := done ((List.mem_cons.mp seen).resolve_left same)
        obtain ⟨insts₂, term₂⟩ := others₂ same
        refine ⟨?_, fun all sub => ?_, fun all sub => ?_, fun t branch => ?_⟩
        · rw [insts₂, folded.targets]
        · rw [insts₂]
          exact folded.insts all (List.Subset.trans folds.grows sub)
        · rw [term₂]
          exact folded.term all (List.Subset.trans folds.grows sub)
        · exact folded.successors t (term₂ ▸ branch)
  · intro r v member
    rcases folds.source r v member with old | ⟨i, inside, target, yields⟩
    · obtain ⟨x, d, i, seen, present, inside, target, yields⟩ := folding.source r v old
      exact ⟨x, d, i, by simp [seen], present, inside, target, yields_mono folds.grows yields⟩
    · exact ⟨id, b, i, by simp, found, insts ▸ inside, target, yields⟩
  · intro P closed consts
    refine folds.values P closed (fun i inside => ?_) (folding.values P closed consts)
    exact consts id b reached found i (insts ▸ inside)
  · intro typed
    exact folds.types f (fun i inside => typed id b reached found i (insts ▸ inside))
      (folding.types typed)

theorem Folding.visits {ids : List BlockId} (nodup : ids.Nodup) (fresh : ∀ id ∈ ids, id ∉ visited)
    (reached : ∀ id ∈ ids, f.Reachable id) :
    ∃ s', ids.foldlM ConstFold.visit s = .ok s' ∧ Folding f (ids.reverse ++ visited) s' := by
  induction ids generalizing visited s with
  | nil => exact ⟨s, rfl, folding⟩
  | cons id ids ih =>
    obtain ⟨notLater, nodup⟩ := List.nodup_cons.mp nodup
    obtain ⟨t, stepped, next⟩ := folding.visit numbered (fresh id (by simp)) (reached id (by simp))
    have later : ∀ x ∈ ids, x ∉ id :: visited := by
      intro x member
      simp only [List.mem_cons, not_or]
      refine ⟨?_, fresh x (by simp [member])⟩
      rintro rfl
      exact notLater member
    obtain ⟨s', rest, final⟩ := ih next nodup later fun x member => reached x (by simp [member])
    exact ⟨s', foldlM_cons_eq_ok.mpr ⟨t, stepped, rest⟩, by simpa using final⟩

end Folding

section Whole

variable {f : Function} (numbered : f.WellNumbered) {visited : List BlockId} {s : State}
  (folding : Folding f visited s)

include numbered folding in
theorem Folding.wellNumbered : s.function.WellNumbered := by
  obtain ⟨blocks, shape, size⟩ := folding.shape
  have same : s.function.blocks.size = f.blocks.size := by rw [shape, size]
  refine ⟨?_, fun id bound => ?_, fun id b' found' => ?_, fun id b' found' t branch => ?_, ?_⟩
  · rw [same, shape]
    exact numbered.entry
  · obtain ⟨b, found⟩ := numbered.present id (same ▸ bound)
    obtain ⟨b', found', _⟩ := folding.block id b found
    exact ⟨b', found'⟩
  · obtain ⟨b, found⟩ := folding.back numbered found'
    obtain ⟨c, present, number, _⟩ := folding.block id b found
    cases found'.symm.trans present
    exact number.trans (numbered.number id b found)
  · obtain ⟨b, found⟩ := folding.back numbered found'
    obtain ⟨c, present, _, _, waiting, done⟩ := folding.block id b found
    cases found'.symm.trans present
    rw [same]
    by_cases seen : id ∈ visited
    · exact numbered.target id b found t ((done seen).successors t branch)
    · exact numbered.target id b found t ((waiting seen).2 ▸ branch)
  · exact same ▸ numbered.small

theorem PhisAlong.dests {edge : BlockId → Prop} {ps ps' : List Phi}
    (along : PhisAlong edge ps ps') : ps'.map (·.dest) = ps.map (·.dest) := by
  unfold PhisAlong at along
  induction along with
  | nil => rfl
  | cons head _ ih => rw [List.map_cons, List.map_cons, head.dest, ih]

include numbered folding in
/-- Folding changes no register that a block writes. -/
theorem Folding.writes : s.function.writes = f.writes := by
  obtain ⟨blocks, shape, size⟩ := folding.shape
  refine Function.writes_eq_of_blocks numbered (folding.wellNumbered numbered) (by rw [shape])
    (by rw [shape, size]) fun id b b' found found' => ?_
  obtain ⟨c, present, _, along, waiting, done⟩ := folding.block id b found
  cases found'.symm.trans present
  unfold Block.writes Block.writesUpTo
  rw [along.dests]
  by_cases seen : id ∈ visited
  · rw [(done seen).targets]
  · rw [(waiting seen).1]

include folding in
/-- A folding that has visited all reachable blocks is a rewriting. -/
theorem Folding.rewrites (all : ∀ id, f.Reachable id → id ∈ visited) :
    Rewrites (facts s.known) f s.function := by
  obtain ⟨blocks, shape, _⟩ := folding.shape
  refine ⟨by rw [shape], by rw [shape], by rw [shape], by rw [shape], by rw [shape],
    by rw [shape]; rfl, fun id b reached found => ?_⟩
  obtain ⟨b', found', _, along, _, done⟩ := folding.block id b found
  have folded := done (all id reached)
  refine ⟨b', found', ?_, folded.insts _ (List.Subset.refl _), folded.term _ (List.Subset.refl _)⟩
  exact PhisAlong.phis
    (along.imp fun _ _ same => { same with value := fun pred edge => same.value pred edge.2 })

include numbered folding in
/-- Folding makes up no phis. -/
theorem Folding.tidies (all : ∀ id, f.Reachable id → id ∈ visited) :
    Tidies (facts s.known) f s.function where
  toRewrites := folding.rewrites all
  apart _ _ _ _ same := same
  phis := by
    intro id b b' live found found' p' member
    obtain ⟨c, present, -, along, -⟩ := folding.block id b found
    cases found'.symm.trans present
    obtain ⟨p, inside, same⟩ := forall₂_partner along.flip member
    refine ⟨p, inside, same.dest, same.ty, fun i input live' => ?_⟩
    exact ⟨i, same.fewer input, (folding.rewrites all).reachable_of_fixed numbered rfl live', rfl,
      .refl, trivial⟩

omit numbered in
include folding in
theorem Folding.wellFormed {m : Module} (formed : f.WellFormed m) : s.function.WellFormed m := by
  have numbered := formed.numbered
  obtain ⟨blocks, shape, size⟩ := folding.shape
  have same : s.function.blocks.size = f.blocks.size := by rw [shape, size]
  refine ⟨by rw [shape]; exact formed.params, fun p member => ?_, folding.wellNumbered numbered,
    fun id b' found' p' member i input => ?_, fun id b' found' i' member => ?_⟩
  · have declared := formed.declared p (by rw [shape] at member; exact member)
    rw [Function.declares, Function.regType?, shape]
    exact declared
  · obtain ⟨b, found⟩ := folding.back numbered found'
    obtain ⟨c, present, -, along, -⟩ := folding.block id b found
    cases found'.symm.trans present
    obtain ⟨p, inside, fewer⟩ := forall₂_partner along.flip member
    rw [same]
    exact formed.preds id b found p inside i (fewer.fewer input)
  · obtain ⟨b, found⟩ := folding.back numbered found'
    obtain ⟨c, present, -, -, waiting, done⟩ := folding.block id b found
    cases found'.symm.trans present
    by_cases seen : id ∈ visited
    · obtain ⟨before', after', split'⟩ := List.append_of_mem member
      obtain ⟨before, i, after, split, step, -⟩ :=
        ((done seen).insts s.known (List.Subset.refl _)).split split'
      exact step.linked (formed.linked id b found i (by simp [split]))
    · rw [(waiting seen).1] at member
      exact formed.linked id b found i' member

include numbered folding in
/-- A known constant is what the one instruction that writes its register computes. -/
theorem Folding.justified (grounded : f.Grounded) (single : f.SingleAssignment)
    (reachable : ∀ id ∈ visited, f.Reachable id) : (facts s.known).Justified f := by
  refine ⟨fun r v known => ?_, fun _ _ copy => copy.elim⟩
  obtain ⟨id, b, i, seen, found, member, target, yields⟩ := folding.source r v known
  obtain ⟨_, _, path⟩ := (reachable id seen).arrives
  have declared := (grounded _ _ _ _ path found).targets i member r target
  exact single.writtenOnlyBy numbered found declared member target yields

end Whole

/-- The pass is a folding that visits the reachable blocks, each once. -/
theorem run_folding {f : Function} (numbered : f.WellNumbered) :
    ∃ order s, f.reversePostorder = .ok order ∧ order.Nodup ∧
      (∀ id, id ∈ order ↔ f.Reachable id) ∧ order.foldlM visit { function := f } = .ok s ∧
      run f = .ok (s.function, s.changed) ∧ Folding f order.reverse s := by
  obtain ⟨order, walked, nodup, reached⟩ := Function.reversePostorder_ok numbered
  obtain ⟨s, visited, folding⟩ := (Folding.start f).visits numbered nodup (by simp)
    fun id member => (reached id).mp member
  rw [List.append_nil] at folding
  exact ⟨order, s, walked, nodup, reached, visited,
    bind_eq_ok.mpr ⟨order, walked, bind_eq_ok.mpr ⟨s, visited, rfl⟩⟩, folding⟩

/-- Constant folding gives a refinement. -/
theorem sound : Sound run := by
  intro m f regular inside
  have numbered := regular.numbered
  obtain ⟨order, s, -, -, reached, -, ran, folding⟩ := run_folding numbered
  have every : ∀ id, id ∈ order.reverse ↔ f.Reachable id := fun id => by simpa using reached id
  refine ⟨s.function, s.changed, ran, ?_⟩
  refine (folding.rewrites fun id live => (every id).mpr live).refines
    (folding.justified numbered regular.grounded regular.single fun id seen => (every id).mp seen)
    regular inside (folding.wellNumbered numbered) ?_ fun P closed consts r v known =>
      folding.values P closed consts (r, v) known
  rw [folding.writes numbered]

/-- Constant folding conserves what it is given. -/
theorem conserves {m : Module} {f : Function} (formed : f.WellFormed m) :
    ∃ g changed, run f = .ok (g, changed) ∧ Conserves m f g := by
  have numbered := formed.numbered
  obtain ⟨order, s, -, -, reached, -, ran, folding⟩ := run_folding numbered
  have every : ∀ id, f.Reachable id → id ∈ order.reverse := fun id live => by
    simpa using (reached id).mpr live
  refine ⟨s.function, s.changed, ran, ?_⟩
  apply (folding.tidies numbered every).conserves formed (folding.wellFormed formed)
  · rw [folding.writes numbered]
  · exact fun typed => ⟨folding.types typed, fun _ _ copy => copy.elim⟩
  · exact fun _ _ _ copy => copy.elim

end TieredEngine.Pass.ConstFold
