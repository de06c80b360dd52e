import TieredEngine.Proofs.Ship.Lowering.Following
import TieredEngine.Proofs.Ship.Lowering.Whole

/-!
What a lowered module means. Bodies are lowered one after the other into tables that only grow, so each of
them is laid out for the module that comes about; from then on functions call each other by number, and a run
of the module goes as a run of the source, by induction on how deep calls may go. The claim is about modules
that compute with words, and about hosts and an outside that agree.
-/
namespace TieredEngine
namespace Ir

/-- A function that passes the typing check, assigns each register once, has phis that name no predecessor
twice, and computes with words only. If a cast says what type it is from, it is from that type. -/
structure Function.OnWords (f : Function) : Prop where
  typed : f.typingErrors = .ok []
  single : f.SingleAssignment
  preds : ∀ b? ∈ f.blocks, ∀ b ∈ b?, ∀ p ∈ b.phis, (p.incoming.map (·.pred)).Nodup
  regs : ∀ t ∈ f.regTypes, t.isFloat = false
  defined : ∀ b? ∈ f.blocks, ∀ b ∈ b?, ∀ i ∈ b.insts, i.op ≠ .undef
  casts : ∀ b? ∈ f.blocks, ∀ b ∈ b?, ∀ i ∈ b.insts, i.op = .cast →
    i.ty.isFloat = false ∧ (i.source = .void ∨ ∀ r ∈ i.args, f.regType? r = some i.source)

/-- A module of such functions, with globals that are words and constants in normal form. -/
structure Module.OnWords (m : Module) : Prop where
  bodies : ∀ f ∈ m.functions, f.isExternal = false → f.OnWords
  signatures : ∀ f ∈ m.functions, (∀ t ∈ f.sig.params, t.isFloat = false) ∧ f.sig.ret.isFloat = false
  globals : ∀ g, some g ∈ m.globals → g.ty.isFloat = false
  constants : ∀ v ∈ m.constants, v.Normal

end Ir

namespace Ship.Lowering
open TieredEngine.Llvm

/-- What lowering does not look at: that no select is between values of type void, that the name of the
runtime's panic is free, and that no register has the number that stands for none. -/
structure Unharmed (m : Ir.Module) (o : LowerOptions) : Prop where
  selects : ∀ f ∈ m.functions, ∀ b? ∈ f.blocks, ∀ b ∈ b?, ∀ i ∈ b.insts, i.op = .select →
    f.regType? i.dest ≠ some .void
  names : ∀ f ∈ m.functions, o.nameOf f ≠ panicSymbol
  regs : ∀ f ∈ m.functions, f.declares .absent = false

section Body

variable {m : Ir.Module} {f : Ir.Function} {s t : State}

theorem Source.of_words {o : LowerOptions} (accepted : m.defects = .ok []) (words : m.OnWords)
    (unharmed : Unharmed m o) (listed : f ∈ m.functions) (internal : f.isExternal = false) : Source f := by
  have formed := Ir.wellFormed_of_accepted accepted listed internal
  have own := words.bodies f listed internal
  have kinds : ∀ r u, f.regType? r = some u → u.isFloat = false :=
    fun r u known => own.regs u (Array.mem_of_getElem? known)
  refine ⟨formed.numbered, Ir.Function.grounded_of_typed formed.numbered internal own.typed, own.single,
    Ir.Function.wellTyped_of_typed formed.numbered internal own.typed, fun id b found i inside => ?_,
    fun id b found => own.preds _ (Array.mem_of_getElem? (Ir.Function.block?_eq_some.mp found)) b rfl, kinds⟩
  have among : some b ∈ f.blocks := Array.mem_of_getElem? (Ir.Function.block?_eq_some.mp found)
  exact ⟨kinds, unharmed.regs f listed, own.casts _ among b rfl i inside,
    unharmed.selects f listed _ among b rfl i inside, own.defined _ among b rfl i inside,
    fun op => words.constants _
      (Ir.Module.mem_constants_of_inst (Ir.Module.function?_of_mem accepted listed) found inside op)⟩

/-- Where the blocks of a function were lowered, if they are the blocks of a function of a module in the
end. -/
def Lays (m : Ir.Module) (f : Ir.Function) (t : State) : Prop :=
  ∀ l g, t.Final l g.blocks → g.blocks = t.blocks.toList → g.ret = returnType f.sig.ret →
    ∃ hasStart exits ps s, Laid m l f g hasStart exits ps s t

/-- A body is lowered into tables that only grow, and its blocks go to the function with its number. -/
theorem Source.laid (source : Source f) (formed : f.WellFormed m) (absent : f.declares .absent = false)
    (ran : body m.functions.size m.globals.size f s = .ok ((), t)) (stock : s.Stock) : ∃ u : State,
      s.Heads u ∧ s.Grows u ∧ u.Stock ∧ Lays m f u ∧
      t = { u with functions :=
        u.functions.modify f.id.num fun g => { g with blocks := g.blocks ++ u.blocks.toList } } := by
  obtain ⟨order, edges, s₁, u, bound, ordered, read, filled, rfl⟩ := body_parts ran
  obtain ⟨_, walked, once, _⟩ := Ir.Function.reversePostorder_ok source.numbered
  cases ordered.symm.trans walked
  obtain ⟨progress, first, empty⟩ := bindParams_ok rfl rfl bound
  have lowered := fillBody_ok source.numbered ordered progress first empty filled
  obtain ⟨kinds, names, _⟩ := lowered.names
  obtain ⟨s₀, s₂, s₃, s₄, ps, wss, exits, phased⟩ := phased_of_fillBody filled
  obtain ⟨_, _, ids, fits⟩ := phased.blocks_begun progress first empty
  have found : ∀ p ∈ ps, f.block? p.id = some p.block := fun p member => (fits p member).block
  have assigns := Ordered.of_grounded source.numbered source.grounded source.single formed.declared absent
    ordered ids found
  have params := source.single.nodup_params source.numbered formed.declared
  have size : (s.cleared f).values.size = f.regTypes.size := Array.size_replicate
  have binds := Bound.of_bindParams params size (fun k x => by
    rw [State.cleared, Array.getElem?_replicate]
    split <;> nofun) bound
  have values : ∀ (i : Nat) r, f.params[i]? = some r → ∃ u, f.sig.params[i]? = some u ∧
      s₁.values[r.num]? = some (some (.param i (returnType u))) := by
    intro i r at_i
    obtain ⟨present, inside⟩ := assigns.inside size (formed.declared r (List.mem_of_getElem? at_i))
    exact binds.params i r at_i present inside
  have tables : s.Heads s₁ ∧ s₁.Stock := by
    rw [binds.same]
    exact ⟨.of_tables rfl rfl, ⟨stock.panic, stock.texts⟩⟩
  obtain ⟨heads, more⟩ := phased.heads progress first empty once assigns
  refine ⟨u, tables.1.trans heads, ⟨lowered.grows.size, lowered.grows.kept⟩, more tables.2,
    fun l g final blocks ret => ⟨edges.any (·.2 == f.entry), exits, ps, s₁, ?_⟩, rfl⟩
  have apart : u.names.Nodup := names ▸ names_nodup once _ kinds
  refine ⟨source, ids ▸ ordered, found, assigns, ?sites, by rw [blocks]; exact apart,
    phased.distinct progress first empty once assigns apart, blocks, final, tables.2, ret, params, values,
    ?front⟩
  case sites =>
    refine phased.sites progress first empty once assigns (binds.size.trans size)
      (fun r param declared => ?_) binds.born
    obtain ⟨i, at_i⟩ := List.mem_iff_getElem?.mp param
    obtain ⟨_, _, value⟩ := values i r at_i
    exact ⟨_, value, trivial⟩
  case front =>
    rw [blocks]
    cases front : edges.any (·.2 == f.entry) with
    | true =>
      obtain ⟨b, there, none, ends⟩ := phased.front progress first empty once assigns front
      rw [← Array.getElem?_toList] at there
      obtain ⟨rest, all⟩ : ∃ rest, u.blocks.toList = b :: rest := by
        cases all : u.blocks.toList with
        | nil => simp [all] at there
        | cons c rest =>
          rw [all] at there
          cases there
          exact ⟨rest, rfl⟩
      exact ⟨b, rest, all, .inr ⟨none, ends⟩⟩
    | false =>
      obtain ⟨later, head⟩ := Ir.Function.reversePostorder_head source.numbered.entry ordered
      rw [front, head] at names
      obtain ⟨b, rest, all, named, _⟩ := List.map_eq_cons_iff.mp (names.trans rfl)
      exact ⟨b, rest, all, .inl named⟩

end Body

/-- What has become of a function while the first bodies of its module are lowered. -/
structure Built (m : Ir.Module) (o : LowerOptions) (f : Ir.Function) (done : Prop) (s : State)
    (g : Llvm.Func) : Prop where
  name : g.name = o.nameOf f
  ret : g.ret = returnType f.sig.ret
  params : List.Forall₂ (fun t p => valueType? t = some p) f.sig.params g.params
  blank : f.isExternal = true ∨ ¬ done → g.blocks = []
  laid : f.isExternal = false → done → ∃ u : State, u.Heads s ∧ g.blocks = u.blocks.toList ∧ Lays m f u

theorem Built.heads {m : Ir.Module} {o : LowerOptions} {f : Ir.Function} {done : Prop} {s t : State}
    {g : Llvm.Func} (built : Built m o f done s g) (heads : s.Heads t) : Built m o f done t g :=
  { built with
    laid := fun internal turn => by
      obtain ⟨u, before, blocks, lays⟩ := built.laid internal turn
      exact ⟨u, before.trans heads, blocks, lays⟩ }

/-- The tables while bodies are lowered: the first bodies are. -/
structure Bodies (m : Ir.Module) (o : LowerOptions) (done : Nat) (s : State) : Prop where
  stock : s.Stock
  begun : ∃ globals functions,
    List.Forall₂ (fun g? l => ∃ g, g? = some g ∧ globalOf g = .ok l) m.globals.toList globals ∧
      (startState globals functions).Heads s
  each : ∀ (k : Nat) f, m.functions[k]? = some f →
    ∃ g, s.functions[k]? = some g ∧ Built m o f (k < done) s g

theorem signatureOf_params {name : String} {f : Ir.Function} {g : Llvm.Func}
    (made : signatureOf name f = .ok g) :
    List.Forall₂ (fun t p => valueType? t = some p) f.sig.params g.params := by
  obtain ⟨params, each, same⟩ := bind_eq_ok.mp made
  cases same
  rw [← f.sig.params.zipIdx_map_fst 0, List.forall₂_map_left_iff]
  refine (mapM_eq_ok.mp each).imp fun x p step => ?_
  dsimp only at step
  split at step
  · next known =>
    cases step
    exact known
  · cases step

namespace Bodies

variable {m : Ir.Module} {o : LowerOptions} {done : Nat} {f : Ir.Function} {s t : State}

theorem start {globals : List Llvm.Global} {functions : List Llvm.Func} (unharmed : Unharmed m o)
    (made : List.Forall₂ (fun g? l => ∃ g, g? = some g ∧ globalOf g = .ok l) m.globals.toList globals)
    (made' : m.functions.toList.mapM (fun f => (signatureOf (o.nameOf f) f).mapError Fault.error) =
      (.ok functions : Except (Fault LowerError) _)) : Bodies m o 0 (startState globals functions) := by
  obtain ⟨same, each⟩ := List.forall₂_iff_get.mp (mapM_eq_ok.mp made')
  have signed : ∀ (k : Nat) f, m.functions[k]? = some f → ∃ g, functions[k]? = some g ∧
      signatureOf (o.nameOf f) f = .ok g := by
    intro k f at_k
    rw [← Array.getElem?_toList] at at_k
    obtain ⟨inside, rfl⟩ := List.getElem?_eq_some_iff.mp at_k
    exact ⟨_, List.getElem?_eq_getElem (same ▸ inside), mapError_eq_ok.mp (each k inside (same ▸ inside))⟩
  refine ⟨⟨fun n k found => ?_, nofun⟩, ⟨globals, functions, made, .refl _⟩, fun k f at_k => ?_⟩
  · have named := List.find?_some found
    obtain ⟨⟨g, i⟩, listed, pair⟩ := List.mem_map.mp (List.mem_reverse.mp (List.mem_of_find?_eq_some found))
    cases pair
    obtain ⟨inside, rfl⟩ := List.getElem?_eq_some_iff.mp (List.mk_mem_zipIdx_iff_getElem?.mp listed)
    have signed := (signatureOf_ok (mapError_eq_ok.mp (each k (same ▸ inside) inside))).1
    have listed := Array.mem_toList_iff.mp (List.get_mem m.functions.toList ⟨k, same ▸ inside⟩)
    refine absurd ?_ (unharmed.names _ listed)
    exact signed.symm.trans (by simpa using named)
  · obtain ⟨g, there, signed⟩ := signed k f at_k
    refine ⟨g, by rw [startState, List.getElem?_toArray, there], (signatureOf_ok signed).1,
      signatureOf_ret signed, signatureOf_params signed, fun _ => (signatureOf_ok signed).2,
      fun _ late => absurd late (Nat.not_lt_zero k)⟩

/-- A declaration gets no body. -/
theorem external (bodies : Bodies m o done s) (next : m.functions[done]? = some f)
    (outside : f.isExternal = true) : Bodies m o (done + 1) s := by
  refine ⟨bodies.stock, bodies.begun, fun k h at_k => ?_⟩
  obtain ⟨g, there, built⟩ := bodies.each k h at_k
  refine ⟨g, there, { built with
    blank := fun out => built.blank (out.imp_right fun late => by omega)
    laid := fun internal turn => built.laid internal ?_ }⟩
  have other : k ≠ done := by
    rintro rfl
    cases next.symm.trans at_k
    cases internal.symm.trans outside
  omega

/-- The function that is next gets its body. -/
theorem body (accepted : m.defects = .ok []) (words : m.OnWords) (unharmed : Unharmed m o)
    (bodies : Bodies m o done s) (next : m.functions[done]? = some f) (internal : f.isExternal = false)
    (ran : Lowering.body m.functions.size m.globals.size f s = .ok ((), t)) : Bodies m o (done + 1) t := by
  have listed := Array.mem_of_getElem? next
  have number := Ir.Module.number_of_accepted accepted next
  obtain ⟨u, heads, grows, stock, lays, rfl⟩ := (Source.of_words accepted words unharmed listed internal).laid
    (Ir.wellFormed_of_accepted accepted listed internal) (unharmed.regs f listed) ran bodies.stock
  have kept : ∀ k g, s.functions[k]? = some g → u.functions[k]? = some g := fun k g there =>
    (grows.kept k (Array.getElem?_eq_some_iff.mp there).1).trans there
  obtain ⟨own, here, builtOwn⟩ := bodies.each done f next
  have free : own.name ≠ panicSymbol := by
    rw [builtOwn.name]
    exact unharmed.names f listed
  have there : ∀ k,
      (u.functions.modify f.id.num fun g => { g with blocks := g.blocks ++ u.blocks.toList })[k]? =
        if k = done then some { own with blocks := u.blocks.toList } else u.functions[k]? := by
    intro k
    rw [Array.getElem?_modify, number]
    by_cases same : k = done
    · rw [if_pos same.symm, if_pos same, same, kept done own here, Option.map_some,
        builtOwn.blank (.inr (Nat.lt_irrefl _)), List.nil_append]
    · rw [if_neg (Ne.symm same), if_neg same]
  have after : u.Heads { u with
      functions :=
        u.functions.modify f.id.num fun g => { g with blocks := g.blocks ++ u.blocks.toList } } := by
    refine ⟨fun k g at_k => ?_, fun _ _ => id, fun _ _ => .inl⟩
    dsimp only
    rw [there]
    by_cases same : k = done
    · subst same
      cases at_k.symm.trans (kept k own here)
      rw [if_pos rfl]
      exact ⟨_, rfl, rfl, rfl, rfl, fun named => absurd named free⟩
    · rw [if_neg same]
      exact ⟨g, at_k, rfl, rfl, rfl, fun _ => rfl⟩
  obtain ⟨globals, functions, made, begun⟩ := bodies.begun
  refine ⟨⟨fun n k found => ?_, stock.texts⟩, ⟨globals, functions, made, begun.trans (heads.trans after)⟩,
    fun k h at_k => ?_⟩
  · obtain ⟨g', at_k, _, _, _, same⟩ := after.functions k _ (stock.panic n k found)
    rw [at_k, same rfl]
  · by_cases same : k = done
    · subst same
      cases next.symm.trans at_k
      refine ⟨_, (there k).trans (if_pos rfl), builtOwn.name, builtOwn.ret, builtOwn.params, fun out => ?_,
        fun _ _ => ⟨u, after, rfl, lays⟩⟩
      rcases out with outside | late
      · cases internal.symm.trans outside
      · exact absurd (Nat.lt_succ_self _) late
    · obtain ⟨g, at_k', built⟩ := bodies.each k h at_k
      refine ⟨g, (there k).trans ((if_neg same).trans (kept k g at_k')), ?_⟩
      have built := built.heads (heads.trans after)
      exact { built with
        blank := fun out => built.blank (out.imp_right fun late => by omega)
        laid := fun internal turn => built.laid internal (by omega) }

end Bodies

theorem State.Heads.final {l : Llvm.Module} {g : Llvm.Func} {s t : State} (heads : s.Heads t)
    (functions : l.functions = t.functions) (globals : l.globals = t.globals)
    (blocks : g.blocks = s.blocks.toList) : s.Final l g.blocks where
  blocks j b there := ⟨b, by rw [blocks, Array.getElem?_toList, there], .refl b⟩
  functions k h there := by
    obtain ⟨h', there', _, ret, _, same⟩ := heads.functions k h there
    exact ⟨h', functions ▸ there', ret, fun panics => (same (panics ▸ rfl)).trans panics⟩
  globals k h there := globals ▸ heads.globals k h there

/-- What has become of a function in a module that is lowered. -/
structure Becomes (m : Ir.Module) (o : LowerOptions) (l : Llvm.Module) (f : Ir.Function) (g : Llvm.Func) :
    Prop where
  name : g.name = o.nameOf f
  ret : g.ret = returnType f.sig.ret
  params : List.Forall₂ (fun t p => valueType? t = some p) f.sig.params g.params
  blank : f.isExternal = true → g.blocks = []
  laid : f.isExternal = false → ∃ hasStart exits ps s t, Laid m l f g hasStart exits ps s t

theorem globalOf_init {g : Ir.Global} {h : Llvm.Global} (made : globalOf g = .ok h) :
    ∃ c, constFor? (Eval.initialValue g) = some c ∧ h.init = .const c := by
  unfold globalOf at made
  show ∃ c, constFor? (if g.init.ty = g.ty then g.init else Ir.Value.zero g.ty) = some c ∧ _
  dsimp only at made
  split at made
  · next c known =>
    cases made
    exact ⟨c, known, rfl⟩
  · cases made

/-- A lowered global starts with the word that evaluation starts with. -/
theorem globalOf_word {g : Ir.Global} {h : Llvm.Global} (made : globalOf g = .ok h)
    (plain : g.ty.isFloat = false) :
    ∃ n, h.init = .const (.int g.ty.width n) ∧
      (Eval.initialValue g).word = ⟨g.ty.width, .ofInt g.ty.width n⟩ := by
  obtain ⟨c, const, init⟩ := globalOf_init made
  have typed : (Eval.initialValue g).ty = g.ty := by
    unfold Eval.initialValue
    split
    · next fits => exact fits
    · rfl
  have word := Ir.Ty.isIntLike_of_plain plain (globalOf_ok made).2.1
  rw [constFor?_eq (typed ▸ word), typed] at const
  obtain ⟨n, int, bits⟩ := intConst_eq word (Eval.initialValue g).bits
  rw [← Option.some.inj const, int] at init
  refine ⟨n, init, ?_⟩
  rw [Ir.Value.word, typed, bits]
  rfl

section Lowered

variable {m : Ir.Module} {o : LowerOptions} {l : Llvm.Module} (accepted : m.defects = .ok [])
  (words : m.OnWords) (unharmed : Unharmed m o) (ran : lower m o = .ok l)
include accepted words unharmed ran

/-- All bodies of a module that is lowered are; then there may only be the wrapper to add. -/
theorem bodies_of_lower : ∃ s t : State, Bodies m o m.functions.size s ∧ s.Grows t ∧ t.globals = s.globals ∧
    l.functions = t.functions ∧ l.globals = t.globals :=
  lower_run ran (fun _ _ made made' => .start unharmed (globals_made made) made')
    (fun _ _ _ next outside bodies => bodies.external next outside)
    (fun _ _ _ _ next internal ran bodies => bodies.body accepted words unharmed next internal ran)

/-- Each function becomes the function with its number. -/
theorem becomes_of_lower {k : Nat} {f : Ir.Function} (at_k : m.functions[k]? = some f) :
    ∃ g, l.functions[k]? = some g ∧ Becomes m o l f g := by
  obtain ⟨s, t, bodies, grows, same, functions, globals⟩ := bodies_of_lower accepted words unharmed ran
  obtain ⟨g, there, built⟩ := bodies.each k f at_k
  have heads : s.Heads t :=
    .of_grows grows (fun k g there => by rw [same, there]) fun k g there => .inl (same ▸ there)
  have there' : l.functions[k]? = some g := by
    rw [functions, ← there]
    exact grows.kept k (Array.getElem?_eq_some_iff.mp there).1
  refine ⟨g, there', built.name, built.ret, built.params, fun out => built.blank (.inl out),
    fun internal => ?_⟩
  obtain ⟨u, before, blocks, lays⟩ := built.laid internal (Array.getElem?_eq_some_iff.mp at_k).1
  obtain ⟨hasStart, exits, ps, s', laid⟩ :=
    lays l g ((before.trans heads).final functions globals blocks) blocks built.ret
  exact ⟨hasStart, exits, ps, s', u, laid⟩

/-- Memory of a lowered module starts with the words that evaluation starts with. -/
theorem memory_of_lower : (∀ g, some g ∈ m.globals → g.ty ≠ .void) ∧
    ∀ values, Eval.initialGlobals m = .ok values → l.memory = memory values := by
  obtain ⟨s, t, bodies, _, same, _, globals⟩ := bodies_of_lower accepted words unharmed ran
  obtain ⟨hs, functions, made, begun⟩ := bodies.begun
  rw [same] at globals
  refine ⟨fun g listed => ?solid, fun values initial => funext fun k => ?_⟩
  case solid =>
    obtain ⟨_, _, _, there, known⟩ := forall₂_partner made (Array.mem_toList_iff.mpr listed)
    cases there
    exact (globalOf_ok known).2.1
  rw [Eval.initialGlobals_of_present fun g? listed => by
    obtain ⟨_, _, g, there, _⟩ := forall₂_partner made (Array.mem_toList_iff.mpr listed)
    exact ⟨g, there⟩] at initial
  cases initial
  rw [memory, Array.getElem?_map]
  obtain ⟨count, pairs⟩ := List.forall₂_iff_get.mp made
  by_cases inside : k < m.globals.size
  · obtain ⟨g, there, known⟩ := pairs k inside (count ▸ inside)
    have declared : m.globals[k]? = some (some g) := by
      rw [← Array.getElem?_toList, List.getElem?_eq_getElem inside]
      exact congrArg some there
    have here : l.globals[k]? = some (hs.get ⟨k, count ▸ inside⟩) := by
      rw [globals]
      refine begun.globals k _ ?_
      rw [startState, List.getElem?_toArray]
      exact List.getElem?_eq_getElem (count ▸ inside)
    obtain ⟨n, init, word⟩ := globalOf_word known (words.globals g (Array.mem_of_getElem? declared))
    generalize hs.get ⟨k, count ▸ inside⟩ = h at init here
    obtain ⟨name, value⟩ := h
    cases init
    simp only [Llvm.Module.memory, here, declared, Option.map_some, Option.getD_some, word]
  · -- behind the globals of the source there are only texts, which memory does not hold
    have none : m.globals[k]? = none := Array.getElem?_eq_none (Nat.le_of_not_lt inside)
    rw [none]
    unfold Llvm.Module.memory
    split
    · next name w n there =>
      rw [globals] at there
      rcases begun.texts k _ there with before | ⟨bytes, text⟩
      · rw [startState, List.getElem?_toArray] at before
        have bound := (List.getElem?_eq_some_iff.mp before).1
        exact absurd (show k < m.globals.toList.length from count ▸ bound) inside
      · cases text
    · rfl

end Lowered

/-- Functions of the outside that do what hosts do: a host gives values in normal form, and if it gives one
for arguments of a function of the module, then what the function of the outside gives for their words is its
word. -/
structure Agrees {σ : Type} (m : Ir.Module) (o : LowerOptions) (hosts : Eval.Hosts) (out : Outside σ)
    (R : List Eval.HostCall → σ → Prop) : Prop where
  normal : ∀ name run past args v, hosts name = some run → run past args = .ok v → v.Normal
  same : ∀ f ∈ m.functions, f.isExternal = true → ∀ run, hosts f.name = some run → ∀ past args s v,
    R past s → (∀ a ∈ args, a.Normal) → args.map (·.ty) = f.sig.params → run past args = .ok v →
    v.ty = f.sig.ret → ∃ s', out (o.nameOf f) (args.map fun a => .word a.word) s = some (v.word?, s') ∧
      R (⟨f.name, args⟩ :: past) s'

theorem gives_word? {v : Ir.Value} (plain : v.ty.isFloat = false) :
    (returnType v.ty).gives v.word? = true := by
  by_cases nothing : v.ty = .void
  · rw [Ir.Value.word?, if_pos nothing, nothing]
    rfl
  · rw [Ir.Value.word?, if_neg nothing, returnType, valueType?_eq (Ir.Ty.isIntLike_of_plain plain nothing)]
    exact beq_self_eq_true v.ty.width

/-- Words of arguments that match a signature are of the types of the function. -/
theorem Becomes.args {m : Ir.Module} {o : LowerOptions} {l : Llvm.Module} {f : Ir.Function} {g : Llvm.Func}
    (becomes : Becomes m o l f g) (plain : ∀ t ∈ f.sig.params, t.isFloat = false) {args : List Ir.Value}
    (matching : args.map (·.ty) = f.sig.params) : (∀ x ∈ args, x.ty ≠ .void) ∧
      (args.map fun x => Arg.word x.word).map Arg.ty = g.params := by
  have params := becomes.params
  rw [← matching, List.forall₂_map_left_iff] at params
  have each : ∀ x ∈ args, ∀ p, valueType? x.ty = some p → x.ty ≠ .void ∧ Arg.ty (.word x.word) = p := by
    intro x member p type
    have some : x.ty ≠ .void := by
      intro nothing
      rw [nothing] at type
      cases type
    have word := Ir.Ty.isIntLike_of_plain (plain x.ty (matching ▸ List.mem_map_of_mem member)) some
    rw [valueType?_eq word] at type
    exact ⟨some, Option.some.inj type⟩
  constructor
  · intro x member
    obtain ⟨p, _, type⟩ := forall₂_partner params member
    exact (each x member p type).1
  · rw [List.map_map, ← List.forall₂_eq_eq_eq, List.forall₂_map_left_iff, List.forall₂_iff_zip]
    obtain ⟨count, types⟩ := List.forall₂_iff_zip.mp params
    exact ⟨count, fun pair => (each _ (List.of_mem_zip pair).1 _ (types pair)).2⟩

section Invoke

variable {σ : Type} {l : Llvm.Module} (out : Outside σ) {k : Nat} {g : Llvm.Func} {args : List Arg}
  (there : l.functions[k]? = some g) (typed : args.map Arg.ty = g.params)
include there typed

theorem invoke_block {b : Llvm.Block} {rest : List Llvm.Block} (blocks : g.blocks = b :: rest) (mem : Memory)
    (s : σ) (callers : List (Nat × Activation)) : invoke l out k args mem s callers =
      some (.step ⟨mem, { function := g, args, block := b, rest := b.insts }, callers, s⟩) := by
  unfold invoke
  rw [there, Option.bind_eq_bind, Option.bind_some, if_neg (not_not.mpr typed), blocks]
  rfl

theorem invoke_outside (blank : g.blocks = []) {s s' : σ} {result : Option Word}
    (answers : out g.name args s = some (result, s')) (gives : g.ret.gives result = true) (mem : Memory)
    (callers : List (Nat × Activation)) :
    invoke l out k args mem s callers = some (give result mem s' callers) := by
  unfold invoke
  rw [there, Option.bind_eq_bind, Option.bind_some, if_neg (not_not.mpr typed), blank]
  simp only [answers, Option.bind_eq_bind, Option.bind_some, gives, if_true]
  rfl

end Invoke

/-- What a call comes to that has begun is what calling the function comes to. -/
theorem Comes.meets {σ κ ε : Type} {l : Llvm.Module} {out : Outside σ} {R : List Eval.HostCall → σ → Prop}
    {ret : Ir.Ty} {mem : Memory} {s : σ} {k : Nat} {g : Llvm.Func} {args : List Ir.Value} {b : Llvm.Block}
    {rest : List Llvm.Block} {w : Eval.World κ} {result : Except (Eval.Halt ε) Ir.Value}
    (comes : Comes l out R ret mem s
      { function := g, args := args.map fun x => .word x.word, block := b, rest := b.insts } w result)
    (there : l.functions[k]? = some g) (typed : (args.map fun x => Arg.word x.word).map Arg.ty = g.params)
    (some : ∀ x ∈ args, x.ty ≠ .void) (type : g.ret = returnType ret) (blocks : g.blocks = b :: rest) :
    Meets l out R k args mem s w result := by
  have invoked := invoke_block out there typed blocks mem s
  cases result with
  | ok v =>
    obtain ⟨same, s', related, gives⟩ := comes
    exact ⟨some, ⟨g, there, by rw [type, same]⟩, s', related,
      fun callers => ⟨_, invoked callers, gives callers⟩⟩
  | error h =>
    cases h with
    | fault e => exact fun reported => ⟨some, fun callers => ⟨_, invoked callers, comes reported callers⟩⟩
    | _ => trivial

section Calls

variable {σ κ ε : Type} {m : Ir.Module} {o : LowerOptions} {l : Llvm.Module} {out : Outside σ}
  {R : List Eval.HostCall → σ → Prop} {setup : Eval.Setup}
  (accepted : m.defects = .ok []) (words : m.OnWords) (unharmed : Unharmed m o) (ran : lower m o = .ok l)
  (shared : setup.shared = true) (hosts : Agrees m o setup.hosts out R)
include accepted words unharmed ran shared hosts

omit accepted unharmed ran shared in
/-- A host that is called does what the function of the outside does. -/
theorem callHost_meets {f : Ir.Function} {g : Llvm.Func} {k : Nat} (there : l.functions[k]? = some g)
    (becomes : Becomes m o l f g) (listed : f ∈ m.functions) (external : f.isExternal = true)
    {args : List Ir.Value} (normal : ∀ a ∈ args, a.Normal) {w : Eval.World κ} {s : σ}
    (related : R w.hostCalls s)
    (matching : ∀ v, (Eval.callHost (ε := ε) setup.hosts f args w).1 = .ok v →
      args.map (·.ty) = f.sig.params) :
    Meets l out R k args (memory w.globals) s (Eval.callHost (ε := ε) setup.hosts f args w).2
      (Eval.callHost (ε := ε) setup.hosts f args w).1 := by
  obtain ⟨plain, ret⟩ := words.signatures f listed
  unfold Eval.callHost at matching ⊢
  cases given : setup.hosts f.name with
  | none =>
    rintro (no | no) <;> cases no
  | some run =>
    rw [given] at matching
    dsimp only at matching ⊢
    cases answer : run w.hostCalls args with
    | error reason => trivial
    | ok v =>
      rw [answer] at matching
      dsimp only at matching ⊢
      by_cases fits : v.ty = f.sig.ret
      · rw [if_neg (not_not.mpr fits)] at matching ⊢
        have matching := matching v rfl
        obtain ⟨some, typed⟩ := becomes.args plain matching
        obtain ⟨s', answers, related'⟩ := hosts.same f listed external run given w.hostCalls args s v related
          normal matching answer fits
        rw [← becomes.name] at answers
        have returns : g.ret = returnType v.ty := by rw [becomes.ret, fits]
        have gives := gives_word? (fits ▸ ret)
        rw [← returns] at gives
        exact ⟨some, ⟨g, there, returns⟩, s', related', fun callers =>
          ⟨_, invoke_outside out there typed (becomes.blank external) answers gives _ callers, .refl _⟩⟩
      · rw [if_pos fits]
        rintro (no | no) <;> cases no

/-- A call that is entered, if the calls it makes go as those of the source. -/
theorem enter_meets (solid : ∀ g, some g ∈ m.globals → g.ty ≠ .void) {call : Eval.Call κ ε}
    (simulates : Simulates m l out R call) (keeps : Eval.KeepsTyped m call) (fuel depth : Nat)
    (id : Ir.FuncId) {args : List Ir.Value} (normal : ∀ a ∈ args, a.Normal) {w : Eval.World κ}
    (globals : Eval.TypedGlobals m w.globals) {s : σ} (related : R w.hostCalls s) :
    Meets l out R id.num args (memory w.globals) s
      (Eval.enter setup m call fuel depth id args w).world
      (Eval.enter setup m call fuel depth id args w).result := by
  cases found : m.function? id with
  | none =>
    simp only [Eval.enter, found]
    rintro (no | no) <;> cases no
  | some f =>
    obtain ⟨g, there, becomes⟩ := becomes_of_lower accepted words unharmed ran found
    obtain ⟨plain, _⟩ := words.signatures f (Array.mem_of_getElem? found)
    have entered : Eval.Entered setup m call fuel f args w (Eval.enter setup m call fuel depth id args w) :=
      Eval.enter_cases found args w
    generalize ended : Eval.enter setup m call fuel depth id args w = finished at entered
    cases entered with
    | refused e named door kind =>
      intro reported
      have known : e.kind = .divideByZero ∨ e.kind = .panic := reported
      rcases door with ⟨door, _⟩ | door | door | door <;> rw [door] at known <;> simp at known
    | crashed c => trivial
    | hosted external =>
      refine callHost_meets words hosts there becomes (Array.mem_of_getElem? found) external normal related
        fun v answer => ?_
      by_contra mismatch
      obtain ⟨e, failed⟩ := Eval.enter_of_mismatch setup call fuel depth found mismatch w
      rw [failed] at ended
      injection ended with results
      cases results.trans answer
    | ran internal matching fr globals' bound origin =>
      obtain ⟨some, typed⟩ := becomes.args plain matching
      obtain ⟨hasStart, exits, ps, s₁, t, laid⟩ := becomes.laid internal
      rw [shared] at origin
      cases origin
      have frame : fr.Typed f := .started normal bound
      obtain ⟨b, rest, blocks, arriving⟩ := laid.begins matching bound frame out globals related
      have comes := laid.run simulates keeps solid arriving (fun x => x.num < m.functions.size) fuel
      rw [Eval.Setup.settle, if_pos shared]
      exact comes.meets there typed some becomes.ret blocks

/-- Runs of lowered functions go as runs of the source, by induction on how deep calls may still go. -/
theorem runAt_meets (solid : ∀ g, some g ∈ m.globals → g.ty ≠ .void) (fuel depth : Nat) (id : Ir.FuncId)
    {args : List Ir.Value} (normal : ∀ a ∈ args, a.Normal) {w : Eval.World κ}
    (globals : Eval.TypedGlobals m w.globals) {s : σ} (related : R w.hostCalls s) :
    Meets l out R id.num args (memory w.globals) s (Eval.runAt (ε := ε) setup m fuel depth id args w).world
      (Eval.runAt (ε := ε) setup m fuel depth id args w).result := by
  induction fuel generalizing depth id args w s with
  | zero => trivial
  | succ fuel ih =>
    exact enter_meets accepted words unharmed ran shared hosts solid
      (fun id args w s normal globals related => ih (depth + 1) id normal globals related)
      (fun id args w typed normal =>
        Eval.runAt_keepsTyped hosts.normal words.constants fuel (depth + 1) id normal typed)
      fuel depth id normal globals related

end Calls

end Ship.Lowering

namespace Ship
open TieredEngine.Llvm Lowering

/-- A lowered module means what its source means. Its memory starts with the words of the globals. A run of
one of its functions on words of arguments, with what the evaluator shares between calls as memory, goes
through as the run of the source does: where that gives a value it returns the value's word, and where that
ends in a division by zero or a panic it comes to a call of the runtime's panic with the message; memory and
the outside are then as the run of the source leaves globals and hosts. On the way each step is one whose
result the language lays down. -/
theorem lowered_simulates {σ κ ε : Type} {m : Ir.Module} {o : LowerOptions} {l : Llvm.Module}
    (accepted : m.defects = .ok []) (words : m.OnWords) (unharmed : Unharmed m o) (ran : lower m o = .ok l)
    {setup : Eval.Setup} (shared : setup.shared = true) {out : Outside σ} {R : List Eval.HostCall → σ → Prop}
    (hosts : Agrees m o setup.hosts out R) :
    (∀ values, Eval.initialGlobals m = .ok values → l.memory = memory values) ∧
    ∀ (fuel depth : Nat) (id : Ir.FuncId) (args : List Ir.Value) (w : Eval.World κ) (s : σ),
      (∀ a ∈ args, a.Normal) → Eval.TypedGlobals m w.globals → R w.hostCalls s →
      (∀ v, (Eval.runAt (ε := ε) setup m fuel depth id args w).result = .ok v → ∃ first s',
        invoke l out id.num (args.map fun a => .word a.word) (memory w.globals) s [] = some first ∧
        Leads l out first (.returned v.word?
          (memory (Eval.runAt (ε := ε) setup m fuel depth id args w).world.globals) s') ∧
        R (Eval.runAt (ε := ε) setup m fuel depth id args w).world.hostCalls s') ∧
      ∀ e, (Eval.runAt (ε := ε) setup m fuel depth id args w).result = .error (.fault e) →
        e.kind = .divideByZero ∨ e.kind = .panic → ∃ first,
          invoke l out id.num (args.map fun a => .word a.word) (memory w.globals) s [] = some first ∧
          Panics l out R first (Eval.runAt (ε := ε) setup m fuel depth id args w).world e.cause := by
  obtain ⟨solid, start⟩ := memory_of_lower accepted words unharmed ran
  refine ⟨start, fun fuel depth id args w s normal globals related => ?_⟩
  have meets := runAt_meets (ε := ε) accepted words unharmed ran shared hosts solid fuel depth id normal
    globals related
  refine ⟨fun v returned => ?_, fun e failed reported => ?_⟩
  · rw [returned] at meets
    obtain ⟨_, _, s', related', gives⟩ := meets
    obtain ⟨first, invoked, leads⟩ := gives []
    exact ⟨first, s', invoked, leads, related'⟩
  · rw [failed] at meets
    exact (meets reported).2 []

/-- Adds the numbers up to the first argument to a total, and shares it out; a host is told the share. -/
def sharing : Ir.Module := {
  functions := #[
    { name := "tell", sig := { params := [.i32], ret := .i32 } },
    { id := ⟨1⟩, name := "share", sig := { params := [.i32, .i32], ret := .i32 }, params := [⟨0⟩, ⟨1⟩]
      regTypes := #[.i32, .i32, .i32, .i32, .i32, .i32, .i32, .i32, .bool, .i32, .i32, .i32]
      blocks := #[
        some { insts := [{ op := .const, dest := ⟨2⟩, ty := .i32, const := .ofInt .i32 0 },
                         { op := .const, dest := ⟨3⟩, ty := .i32, const := .ofInt .i32 1 }],
               term := .br ⟨1⟩ },
        some { id := ⟨1⟩, phis := [{ dest := ⟨4⟩, ty := .i32, incoming := [⟨⟨0⟩, ⟨0⟩⟩, ⟨⟨1⟩, ⟨7⟩⟩] }]
               insts := [{ op := .loadGlobal, dest := ⟨5⟩, ty := .i32, global := ⟨0⟩ },
                         { op := .add, dest := ⟨6⟩, ty := .i32, args := [⟨5⟩, ⟨4⟩] },
                         { op := .storeGlobal, args := [⟨6⟩], global := ⟨0⟩ },
                         { op := .sub, dest := ⟨7⟩, ty := .i32, args := [⟨4⟩, ⟨3⟩] },
                         { op := .gt, dest := ⟨8⟩, ty := .bool, args := [⟨7⟩, ⟨2⟩] }],
               term := .condBr ⟨8⟩ ⟨1⟩ ⟨2⟩ },
        some { id := ⟨2⟩
               insts := [{ op := .loadGlobal, dest := ⟨9⟩, ty := .i32, global := ⟨0⟩ },
                         { op := .div, dest := ⟨10⟩, ty := .i32, args := [⟨9⟩, ⟨1⟩] },
                         { op := .call, dest := ⟨11⟩, ty := .i32, args := [⟨10⟩], callee := ⟨0⟩ }],
               term := .ret (some ⟨10⟩) }] }]
  globals := #[some { name := "total", ty := .i32, init := .ofInt .i32 6 }] }

/-- What is told so many times before. -/
def told (calls : Nat) : Ir.Value := .ofBits .i32 (.ofNat calls)

/-- A host that answers how often it was called before, and the outside that does the same. -/
def tellHost : Eval.Hosts := fun name =>
  if name = "tell" then some fun past _ => .ok (told past.length) else none

def tellOutside : Outside Nat := fun name _ calls =>
  if name = "tell" then some ((told calls).word?, calls + 1) else none

theorem onWords_sharing : sharing.OnWords := by
  refine ⟨fun f listed internal => ?_, by decide +kernel, ?_, by decide +kernel⟩
  · have typed : ∀ f ∈ sharing.functions, f.typingErrors = .ok [] := by decide +kernel
    have single : ∀ f ∈ sharing.functions, f.SingleAssignment := by decide +kernel
    have preds : ∀ f ∈ sharing.functions, ∀ b? ∈ f.blocks, ∀ b ∈ b?, ∀ p ∈ b.phis,
        (p.incoming.map (·.pred)).Nodup := by decide +kernel
    have regs : ∀ f ∈ sharing.functions, ∀ t ∈ f.regTypes, t.isFloat = false := by decide +kernel
    have defined : ∀ f ∈ sharing.functions, ∀ b? ∈ f.blocks, ∀ b ∈ b?, ∀ i ∈ b.insts, i.op ≠ .undef := by
      decide +kernel
    have casts : ∀ f ∈ sharing.functions, ∀ b? ∈ f.blocks, ∀ b ∈ b?, ∀ i ∈ b.insts, i.op ≠ .cast := by
      decide +kernel
    exact ⟨typed f listed, single f listed, preds f listed, regs f listed, defined f listed,
      fun b? among b one i inside op => absurd op (casts f listed b? among b one i inside)⟩
  · intro g listed
    have kinds : ∀ g? ∈ sharing.globals, ∀ g ∈ g?, g.ty.isFloat = false := by decide +kernel
    exact kinds _ listed g rfl

theorem unharmed_sharing : Unharmed sharing {} := ⟨by decide +kernel, by decide +kernel, by decide +kernel⟩

theorem agrees_tell : Agrees sharing {} tellHost tellOutside fun past calls => past.length = calls := by
  have named : ∀ {name run}, tellHost name = some run → name = "tell" ∧
      run = fun past _ => .ok (told past.length) := by
    intro name run given
    unfold tellHost at given
    split at given
    · next same => exact ⟨same, (Option.some.inj given).symm⟩
    · cases given
  constructor
  · intro name run past args v given answer
    obtain ⟨_, rfl⟩ := named given
    cases answer
    exact Ir.Value.normal_ofBits _ _
  · rintro f listed external run given past args s v rfl normal matching answer fits
    obtain ⟨name, rfl⟩ := named given
    cases answer
    exact ⟨past.length + 1, by simp [LowerOptions.nameOf, name, tellOutside], rfl⟩

/-- The total of six and the numbers up to three is shared by two, and by none. -/
theorem lowered_simulates_sharing : ∃ l first last, lower sharing {} = .ok l ∧
    l.memory = memory #[.ofInt .i32 6] ∧
    invoke l tellOutside 1 [.word ⟨32, 3⟩, .word ⟨32, 2⟩] l.memory 0 [] = some first ∧
    Leads l tellOutside first (.returned (some ⟨32, 6⟩) (memory #[.ofInt .i32 12]) 1) ∧
    invoke l tellOutside 1 [.word ⟨32, 3⟩, .word ⟨32, 0⟩] l.memory 0 [] = some last ∧
    ∃ t, Leads l tellOutside last (.step t) ∧ t.memory = memory #[.ofInt .i32 12] ∧ t.outside = 0 ∧
      t.call? l = some (panicSymbol, [.text ("div i32 by zero".toUTF8.toList ++ [0])]) := by
  have accepted : sharing.defects = .ok [] := by decide +kernel
  have lowered : (lower sharing {}).toOption.isSome = true := by decide +kernel
  obtain ⟨l, ran⟩ : ∃ l, lower sharing {} = .ok l := by
    cases ran : lower sharing {} with
    | error e => rw [ran] at lowered; cases lowered
    | ok l => exact ⟨l, rfl⟩
  let setup : Eval.Setup := { hosts := tellHost }
  let w : Eval.World Unit := ⟨#[.ofInt .i32 6], [], ()⟩
  have initial : Eval.initialGlobals sharing = .ok w.globals := by
    rw [Eval.initialGlobals, Array.mapM_eq_mapM_toList]
    rfl
  have typed : Eval.TypedGlobals sharing w.globals :=
    .initial (fun _ member => onWords_sharing.constants _ (Ir.Module.mem_constants_of_global member)) initial
  obtain ⟨start, means⟩ := lowered_simulates (ε := Unit) accepted onWords_sharing unharmed_sharing ran
    (show setup.shared = true from rfl) agrees_tell
  have shares : (Eval.runAt (ε := Unit) setup sharing 9 0 ⟨1⟩ [.ofInt .i32 3, .ofInt .i32 2] w).result =
      .ok (.ofInt .i32 6) := by decide +kernel
  have fails : (Eval.runAt (ε := Unit) setup sharing 9 0 ⟨1⟩ [.ofInt .i32 3, .ofInt .i32 0] w).result =
      .error (.fault ⟨"share", ⟨2⟩, .divideByZero .div .i32⟩) := by decide +kernel
  have left : (Eval.runAt (ε := Unit) setup sharing 9 0 ⟨1⟩ [.ofInt .i32 3, .ofInt .i32 2] w).world.globals =
      #[.ofInt .i32 12] := by decide +kernel
  have left' : (Eval.runAt (ε := Unit) setup sharing 9 0 ⟨1⟩ [.ofInt .i32 3, .ofInt .i32 0] w).world.globals =
      #[.ofInt .i32 12] := by decide +kernel
  have calls : (Eval.runAt (ε := Unit) setup sharing 9 0 ⟨1⟩
      [.ofInt .i32 3, .ofInt .i32 2] w).world.hostCalls.length = 1 := by decide +kernel
  have calls' : (Eval.runAt (ε := Unit) setup sharing 9 0 ⟨1⟩
      [.ofInt .i32 3, .ofInt .i32 0] w).world.hostCalls.length = 0 := by decide +kernel
  obtain ⟨returns, _⟩ := means 9 0 ⟨1⟩ [.ofInt .i32 3, .ofInt .i32 2] w 0 (by decide +kernel) typed rfl
  obtain ⟨first, s', invoked, leads, told⟩ := returns _ shares
  obtain ⟨_, panics⟩ := means 9 0 ⟨1⟩ [.ofInt .i32 3, .ofInt .i32 0] w 0 (by decide +kernel) typed rfl
  obtain ⟨last, invoked', t, leads', called, memory', told'⟩ := panics _ fails (.inl rfl)
  rw [calls] at told
  rw [calls'] at told'
  rw [left] at leads
  subst told
  refine ⟨l, first, last, ran, start _ initial, ?_, leads, ?_, t, leads', memory'.trans (by rw [left']),
    told'.symm, called⟩
  · rw [start _ initial]
    exact invoked
  · rw [start _ initial]
    exact invoked'

/-- A function that chooses between results of type void, and gives one all the same. -/
def choosing : Ir.Module := {
  functions := #[
    { name := "nop", blocks := #[some { term := .ret none }] },
    { id := ⟨1⟩, name := "choose", sig := { params := [.bool], ret := .i32 }, params := [⟨0⟩]
      regTypes := #[.bool, .void, .void, .i32]
      blocks := #[
        some { insts := [{ op := .call, dest := ⟨1⟩, callee := ⟨0⟩ },
                         { op := .select, dest := ⟨2⟩, args := [⟨0⟩, ⟨1⟩, ⟨1⟩] },
                         { op := .const, dest := ⟨3⟩, ty := .i32, const := .ofInt .i32 1 }],
               term := .ret (some ⟨3⟩) }] }] }

/-- What it is lowered to: the operands of the select have no type that values have. -/
def chosen : Llvm.Module := {
  functions := #[
    { name := "nop", ret := .void, blocks := [{ name := .block 0, term := some (.ret none) }] },
    { name := "choose", ret := .int 32, params := [.int 1]
      blocks := [{
        name := .block 0
        insts := [⟨0, .call 0 .void []⟩,
                  ⟨1, .select (.param 0 (.int 1)) (.result 0 .void) (.result 0 .void)⟩]
        term := some (.ret (some (.const (.int 32 1)))) }] }] }

theorem onWords_choosing : choosing.OnWords := by
  refine ⟨fun f listed internal => ?_, by decide +kernel, nofun, by decide +kernel⟩
  have typed : ∀ f ∈ choosing.functions, f.typingErrors = .ok [] := by decide +kernel
  have single : ∀ f ∈ choosing.functions, f.SingleAssignment := by decide +kernel
  have preds : ∀ f ∈ choosing.functions, ∀ b? ∈ f.blocks, ∀ b ∈ b?, ∀ p ∈ b.phis,
      (p.incoming.map (·.pred)).Nodup := by decide +kernel
  have regs : ∀ f ∈ choosing.functions, ∀ t ∈ f.regTypes, t.isFloat = false := by decide +kernel
  have ops : ∀ f ∈ choosing.functions, ∀ b? ∈ f.blocks, ∀ b ∈ b?, ∀ i ∈ b.insts,
      i.op ≠ .undef ∧ i.op ≠ .cast := by decide +kernel
  exact ⟨typed f listed, single f listed, preds f listed, regs f listed,
    fun b? among b one i inside => (ops f listed b? among b one i inside).1,
    fun b? among b one i inside op => absurd op (ops f listed b? among b one i inside).2⟩

/-- Lowering takes a select between values of type void, which evaluation passes over, and the program that
comes about never gets to its result. -/
theorem choosing_stuck : choosing.defects = .ok [] ∧ choosing.OnWords ∧ lower choosing {} = .ok chosen ∧
    (Eval.runAt (ε := Unit) {} choosing 9 0 ⟨1⟩ [.ofBool false] (⟨#[], [], ()⟩ : Eval.World Unit)).result =
      .ok (.ofInt .i32 1) ∧
    ∃ first, invoke chosen (fun _ _ _ => none) 1 [.word ⟨1, 0⟩] chosen.memory () [] = some first ∧
      ∀ x memory s, ¬ Leads chosen (fun _ _ _ => none) first (.returned x memory s) := by
  refine ⟨by decide +kernel, onWords_choosing, by decide +kernel, by decide +kernel, _, rfl, ?_⟩
  rintro x memory s ⟨n, ran⟩
  rcases n with _ | _ | _ | n
  · cases ran
  · cases ran
  · cases ran
  · cases ran

end Ship
end TieredEngine
