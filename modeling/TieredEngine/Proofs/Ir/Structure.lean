import Mathlib.Algebra.Ring.Nat
import Mathlib.Data.List.Nodup
import TieredEngine.Ir.Typing
import TieredEngine.Ir.WellFormed
import TieredEngine.Proofs.Except

/-!
What the structural check promises of the functions of a module: every block is there and carries
its position as its number, branches stay inside the function, and the globals that are named
exist. Later results take these facts from here and do not look at the check again.

Numbers and kinds of operations come first. An operation computes on one operand, computes on two,
compares two, or is one of the few that have rules of their own; which of these it is says how many
operands it takes.
-/
namespace TieredEngine.Ir

theorem BlockId.num_inj {a b : BlockId} : a.num = b.num ↔ a = b := by
  cases a
  cases b
  simp [BlockId.num, UInt32.toNat_inj]

theorem BlockId.num_lt (b : BlockId) : b.num < 2 ^ 32 := b.index.toNat_lt

theorem BlockId.num_ofNat {n : Nat} (small : n < 2 ^ 32) :
    (⟨UInt32.ofNat n⟩ : BlockId).num = n := by
  simpa [BlockId.num] using small

theorem Reg.num_inj {a b : Reg} : a.num = b.num ↔ a = b := by
  cases a
  cases b
  simp [Reg.num, UInt32.toNat_inj]

theorem Reg.num_ofNat {n : Nat} (small : n < 2 ^ 32) :
    (⟨UInt32.ofNat n⟩ : Reg).num = n := by
  simpa [Reg.num] using small

theorem FuncId.num_inj {a b : FuncId} : a.num = b.num ↔ a = b := by
  cases a
  cases b
  simp [FuncId.num, UInt32.toNat_inj]

theorem FuncId.num_ofNat {n : Nat} (small : n < 2 ^ 32) :
    (⟨UInt32.ofNat n⟩ : FuncId).num = n := by
  simpa [FuncId.num] using small

/-- The operations that do not compute on the values of one or two operands. -/
def Op.plain : List Op :=
  [.const, .undef, .loadGlobal, .copy, .cast, .select, .call, .storeGlobal, .panic]

theorem Op.kinds (op : Op) :
    op.isUnary = true ∨ op.isBinary = true ∨ op.isCompare = true ∨ op ∈ Op.plain := by
  cases op <;> first | exact .inl rfl | exact .inr (.inl rfl) | exact .inr (.inr (.inl rfl)) |
    exact .inr (.inr (.inr (by simp [Op.plain])))

theorem Op.not_plain {op : Op}
    (is : op.isUnary = true ∨ op.isBinary = true ∨ op.isCompare = true) : op ∉ Op.plain := by
  intro plain
  simp only [Op.plain, List.mem_cons, List.not_mem_nil, or_false] at plain
  rcases plain with rfl | rfl | rfl | rfl | rfl | rfl | rfl | rfl | rfl <;> revert is <;> decide

theorem Op.isUnary_of_binary {op : Op} (binary : op.isBinary = true) : op.isUnary = false := by
  cases op <;> first | rfl | cases binary

theorem Op.other_of_compare {op : Op} (compares : op.isCompare = true) :
    op.isUnary = false ∧ op.isBinary = false := by
  cases op <;> first | exact ⟨rfl, rfl⟩ | cases compares

namespace Typing

/-- Only calls take any number of operands. -/
theorem call_of_arity {op : Op} (free : arity? op = none) : op = .call := by
  revert free
  cases op <;> decide

theorem nullary_of_arity {op : Op} (none : arity? op = some 0) :
    op = .const ∨ op = .undef ∨ op = .loadGlobal ∨ op = .panic := by
  revert none
  cases op <;> decide

theorem unary_of_arity {op : Op} (one : arity? op = some 1) :
    op = .copy ∨ op = .cast ∨ op = .storeGlobal ∨ op.isUnary = true := by
  revert one
  cases op <;> decide

end Typing

theorem GlobalId.num_inj {a b : GlobalId} : a.num = b.num ↔ a = b := by
  cases a
  cases b
  simp [GlobalId.num, UInt32.toNat_inj]

theorem GlobalId.num_ofNat {n : Nat} (small : n < 2 ^ 32) :
    (⟨UInt32.ofNat n⟩ : GlobalId).num = n := by
  simpa [GlobalId.num] using small

theorem defectIf_eq_nil {α : Type} {p : Bool} {d : α} : defectIf p d = [] ↔ p = false := by
  cases p <;> simp [defectIf]

namespace Function

theorem block?_eq_some {f : Function} {id : BlockId} {b : Block} :
    f.block? id = some b ↔ f.blocks[id.num]? = some (some b) := by
  unfold block?
  exact Option.join_eq_some_iff

theorem allBlocks_eq_ok {f : Function} {bs : List Block} :
    f.allBlocks = .ok bs ↔ f.blocks.toList = bs.map some := by
  unfold allBlocks
  simp only [mapM_eq_ok, Crash.deref_eq_ok]
  rw [← List.forall₂_eq_eq_eq, List.forall₂_map_right_iff]

theorem block?_of_allBlocks {f : Function} {bs : List Block} (all : f.allBlocks = .ok bs)
    (id : BlockId) : f.block? id = bs[id.num]? := by
  have listed := allBlocks_eq_ok.mp all
  unfold block?
  rw [← Array.getElem?_toList, listed, List.getElem?_map]
  cases bs[id.num]? <;> rfl

theorem size_of_allBlocks {f : Function} {bs : List Block} (all : f.allBlocks = .ok bs) :
    f.blocks.size = bs.length := by
  rw [← Array.length_toList, allBlocks_eq_ok.mp all, List.length_map]

/-- Every block is present under the number it carries, and control stays inside the function. -/
structure WellNumbered (f : Function) : Prop where
  entry : f.entry.num < f.blocks.size
  present : ∀ id : BlockId, id.num < f.blocks.size → ∃ b, f.block? id = some b
  number : ∀ id b, f.block? id = some b → b.id = id
  target : ∀ id b, f.block? id = some b → ∀ s ∈ b.term.successors, s.num < f.blocks.size
  small : f.blocks.size ≤ 2 ^ 32

theorem WellNumbered.allBlocks {f : Function} (numbered : f.WellNumbered) :
    ∃ bs, f.allBlocks = .ok bs := by
  apply mapM_ok_of_forall
  intro b? member
  obtain ⟨i, bound, rfl⟩ := Array.mem_iff_getElem.mp (Array.mem_toList_iff.mp member)
  have small := numbered.small
  obtain ⟨b, present⟩ := numbered.present ⟨UInt32.ofNat i⟩ (by
    rw [BlockId.num_ofNat (by omega)]
    exact bound)
  rw [block?_eq_some, BlockId.num_ofNat (by omega), Array.getElem?_eq_getElem bound] at present
  exact ⟨b, by rw [Option.some.inj present, Crash.deref]⟩

/-- A block of the list of all blocks is found under its own number. -/
theorem WellNumbered.block?_of_mem {f : Function} (numbered : f.WellNumbered) {bs : List Block}
    (all : f.allBlocks = .ok bs) {b : Block} (member : b ∈ bs) : f.block? b.id = some b := by
  obtain ⟨i, bound, rfl⟩ := List.mem_iff_getElem.mp member
  have size := size_of_allBlocks all
  have small := numbered.small
  have found : f.block? ⟨UInt32.ofNat i⟩ = some bs[i] := by
    rw [block?_of_allBlocks all, BlockId.num_ofNat (by omega), List.getElem?_eq_getElem bound]
  rw [numbered.number _ _ found]
  exact found

theorem block?_mapBlocks (f : Function) (g : Block → Block) (id : BlockId) :
    (f.mapBlocks g).block? id = (f.block? id).map g := by
  unfold block? mapBlocks
  rw [Array.getElem?_map]
  cases f.blocks[id.num]? with
  | none => rfl
  | some b? => rfl

/-- A block of a function with changed blocks is what a block has been changed to. -/
theorem block_of_mapBlocks {f : Function} {g : Block → Block} {id : BlockId} {b' : Block}
    (found' : (f.mapBlocks g).block? id = some b') : ∃ b, f.block? id = some b ∧ g b = b' := by
  rw [block?_mapBlocks] at found'
  exact Option.map_eq_some_iff.mp found'

theorem allBlocks_mapBlocks {f : Function} {bs : List Block} (all : f.allBlocks = .ok bs)
    (g : Block → Block) : (f.mapBlocks g).allBlocks = .ok (bs.map g) := by
  rw [allBlocks_eq_ok] at all ⊢
  simp [mapBlocks, all, Function.comp_def]

theorem eq_of_allBlocks {f : Function} {bs : List Block} (all : f.allBlocks = .ok bs) :
    { f with blocks := (bs.map some).toArray } = f := by
  rw [← allBlocks_eq_ok.mp all]

/-- Changing blocks in a way that keeps their numbers and targets keeps a function well numbered. -/
theorem WellNumbered.mapBlocks {f : Function} (numbered : f.WellNumbered) {g : Block → Block}
    (number : ∀ b, (g b).id = b.id) (targets : ∀ b, (g b).term.successors = b.term.successors) :
    (f.mapBlocks g).WellNumbered := by
  have size : (f.mapBlocks g).blocks.size = f.blocks.size := by simp [Function.mapBlocks]
  refine ⟨size ▸ numbered.entry, ?_, ?_, ?_, size ▸ numbered.small⟩
  · intro id bound
    obtain ⟨b, found⟩ := numbered.present id (size ▸ bound)
    exact ⟨g b, by rw [block?_mapBlocks, found, Option.map_some]⟩
  · intro id b' found'
    obtain ⟨b, found, rfl⟩ := block_of_mapBlocks found'
    rw [number, numbered.number id b found]
  · intro id b' found' s branch
    obtain ⟨b, found, rfl⟩ := block_of_mapBlocks found'
    rw [size]
    exact numbered.target id b found s (targets b ▸ branch)

theorem mem_of_block? {f : Function} {bs : List Block} (all : f.allBlocks = .ok bs) {id : BlockId}
    {b : Block} (found : f.block? id = some b) : b ∈ bs := by
  rw [block?_of_allBlocks all] at found
  exact List.mem_of_getElem? found

end Function

/-- The parts of a clean report on one block. -/
theorem Block.defects_eq_nil {m : Module} {count index : Nat} {b : Block} :
    b.defects m count index = [] ↔
      b.id.num = index ∧ (∀ s ∈ b.term.successors, s.num < count) ∧
      (∀ p ∈ b.phis, ∀ i ∈ p.incoming, i.pred.num < count) ∧
      ∀ i ∈ b.insts, instDefects m b i = [] := by
  simp [Block.defects, defectIf_eq_nil, List.flatMap_eq_nil_iff]

theorem Block.global_of_instDefects {m : Module} {b : Block} {i : Inst}
    (clean : instDefects m b i = []) (load : i.op = .loadGlobal) :
    i.global.num < m.globals.size := by
  simp only [instDefects, load, defectIf_eq_nil, Module.global?] at clean
  by_contra outside
  rw [Array.getElem?_eq_none (by omega)] at clean
  simp at clean

/-- A clean report on a function says that its blocks are there, each with a clean report. -/
theorem Function.block_of_defects {m : Module} {f : Function} (clean : f.defects m = []) {i : Nat}
    {b? : Option Block} (at_i : f.blocks[i]? = some b?) :
    ∃ b : Block, b? = some b ∧ b.defects m f.blocks.size i = [] := by
  obtain ⟨bound, rfl⟩ := Array.getElem?_eq_some_iff.mp at_i
  have body : f.isExternal = false :=
    Array.isEmpty_eq_false_iff.mpr (Array.size_pos_iff.mp (Nat.zero_lt_of_lt bound))
  simp only [Function.defects, body, Bool.false_eq_true, if_false, List.append_eq_nil_iff,
    List.flatten_eq_nil_iff, List.mem_mapIdx] at clean
  have clean := clean.2 _ ⟨i, by simpa using bound, rfl⟩
  simp only [Array.getElem_toList] at clean
  cases found : f.blocks[i] with
  | none => simp [found] at clean
  | some b => exact ⟨b, rfl, by simpa [found] using clean⟩

/-- A clean report on a function with a body makes it well numbered, and its loads name globals of
the module. -/
theorem Function.wellNumbered_of_defects {m : Module} {f : Function}
    (clean : f.defects m = []) (body : f.isExternal = false) :
    f.WellNumbered ∧ ∀ id b, f.block? id = some b → ∀ i ∈ b.insts, i.op = .loadGlobal →
      i.global.num < m.globals.size := by
  have each : ∀ i b?, f.blocks[i]? = some b? →
      ∃ b : Block, b? = some b ∧ b.defects m f.blocks.size i = [] :=
    fun _ _ => Function.block_of_defects clean
  simp only [Function.defects, body, Bool.false_eq_true, if_false, List.append_eq_nil_iff,
    defectIf_eq_nil] at clean
  obtain ⟨⟨_, entry⟩, _⟩ := clean
  have parts : ∀ id (b : Block), f.block? id = some b → b.defects m f.blocks.size id.num = [] := by
    intro id b found
    obtain ⟨b', same, clean⟩ := each _ _ (Function.block?_eq_some.mp found)
    cases same
    exact clean
  refine ⟨⟨by simpa using entry, ?_, ?_, ?_, ?_⟩, ?_⟩
  · intro id bound
    obtain ⟨b, same, _⟩ := each _ _ (Array.getElem?_eq_getElem bound)
    exact ⟨b, by rw [Function.block?_eq_some, Array.getElem?_eq_getElem bound, same]⟩
  · intro id b found
    exact BlockId.num_inj.mp (Block.defects_eq_nil.mp (parts id b found)).1
  · intro id b found
    exact (Block.defects_eq_nil.mp (parts id b found)).2.1
  · -- the last block carries its position, which a block number can hold
    have positive : 0 < f.blocks.size := by
      simp only [Function.isExternal, Array.isEmpty_eq_false_iff] at body
      exact Array.size_pos_iff.mpr body
    have bound : f.blocks.size - 1 < f.blocks.size := by omega
    obtain ⟨b, _, clean⟩ := each _ _ (Array.getElem?_eq_getElem bound)
    have last := (Block.defects_eq_nil.mp clean).1
    have := b.id.num_lt
    omega
  · intro id b found i member load
    exact Block.global_of_instDefects
      ((Block.defects_eq_nil.mp (parts id b found)).2.2.2 i member) load

theorem functionDefects_eq_nil {m : Module} {i : Nat} {seen : List String} {f : Function} :
    functionDefects m i seen f = [] ↔ f.id.num = i ∧ f.name ∉ seen ∧ f.defects m = [] := by
  simp [functionDefects, defectIf_eq_nil]

/-- A list has no duplicates if no member is among those before it. -/
theorem nodup_iff_not_mem_take {α : Type} {xs : List α} :
    xs.Nodup ↔ ∀ (i : Nat) (bound : i < xs.length), xs[i] ∉ xs.take i := by
  rw [List.Nodup, List.pairwise_iff_getElem]
  constructor
  · intro apart j second seen
    obtain ⟨i, before, same⟩ := List.mem_take_iff_getElem.mp seen
    exact apart i j (by omega) second (by omega) same
  · intro fresh i j first second before same
    exact fresh j second (List.mem_take_iff_getElem.mpr ⟨i, by omega, same⟩)

namespace Module
variable {m : Module}

/-- The parts of a clean report on the functions of a module. -/
theorem functions_clean : (m.functions.toList.mapIdx fun i f =>
      functionDefects m i ((m.functions.toList.map (·.name)).take i) f).flatten = [] ↔
    (∀ (i : Nat) f, m.functions[i]? = some f → f.id.num = i ∧ f.defects m = []) ∧
    (m.functions.toList.map (·.name)).Nodup := by
  rw [List.flatten_eq_nil_iff, nodup_iff_not_mem_take]
  constructor
  · intro clean
    have each : ∀ (i : Nat) f, m.functions[i]? = some f →
        functionDefects m i ((m.functions.toList.map (·.name)).take i) f = [] := by
      intro i f at_i
      obtain ⟨bound, rfl⟩ := Array.getElem?_eq_some_iff.mp at_i
      exact clean _ (List.mem_mapIdx.mpr ⟨i, by simpa using bound, by simp⟩)
    refine ⟨fun i f at_i => ?_, fun i bound => ?_⟩
    · obtain ⟨number, -, fine⟩ := functionDefects_eq_nil.mp (each i f at_i)
      exact ⟨number, fine⟩
    · have inside : i < m.functions.size := by simpa using bound
      have fresh := (functionDefects_eq_nil.mp (each i _ (Array.getElem?_eq_getElem inside))).2.1
      simpa using fresh
  · rintro ⟨each, fresh⟩ ds member
    obtain ⟨i, bound, rfl⟩ := List.mem_mapIdx.mp member
    obtain ⟨number, fine⟩ := each i m.functions.toList[i] (by simp)
    have unseen := fresh i (by simpa using bound)
    rw [List.getElem_map] at unseen
    exact functionDefects_eq_nil.mpr ⟨number, unseen, fine⟩

/-- The parts of a clean report on the globals of a module. -/
theorem globals_clean : (∃ found, (m.globals.toList.mapIdx fun i g? => (i, g?)).mapM (fun (i, g?) => do
      let g ← Crash.deref g?
      return defectIf (g.id.num != i) (Defect.globalNumber g.name g.id i)) = .ok found ∧
      found.flatten = []) ↔
    ∀ (i : Nat) g?, m.globals[i]? = some g? → ∃ g, g? = some g ∧ g.id.num = i := by
  constructor
  · rintro ⟨found, read, clean⟩ i g? at_i
    obtain ⟨bound, rfl⟩ := Array.getElem?_eq_some_iff.mp at_i
    obtain ⟨ds, listed, checked⟩ := forall₂_partner (mapM_eq_ok.mp read)
      (List.mem_mapIdx.mpr ⟨i, by simpa using bound, rfl⟩)
    obtain ⟨g, there, numbered⟩ := bind_eq_ok.mp checked
    rw [List.flatten_eq_nil_iff.mp clean ds listed] at numbered
    refine ⟨g, Crash.deref_eq_ok.mp there, ?_⟩
    simpa [defectIf_eq_nil] using Except.ok.inj numbered
  · intro each
    refine ⟨_, mapM_eq_map (g := fun _ => []) fun entry member => ?_, by simp⟩
    obtain ⟨i, bound, rfl⟩ := List.mem_mapIdx.mp member
    obtain ⟨g, present, number⟩ := each i m.globals.toList[i] (by simp)
    simp only [present]
    exact congrArg Except.ok (defectIf_eq_nil.mpr (by simpa using number))

/-- What an accepted module is: functions and globals have their positions as numbers, functions have
different names and no defects, and no global is missing. -/
theorem accepted_iff : m.defects = .ok [] ↔
    (∀ (i : Nat) f, m.functions[i]? = some f → f.id.num = i ∧ f.defects m = []) ∧
    (m.functions.toList.map (·.name)).Nodup ∧
    ∀ (i : Nat) g?, m.globals[i]? = some g? → ∃ g, g? = some g ∧ g.id.num = i := by
  rw [← and_assoc, ← functions_clean, ← globals_clean]
  unfold defects
  constructor
  · intro accepted
    obtain ⟨found, read, whole⟩ := bind_eq_ok.mp accepted
    obtain ⟨functions, globals⟩ := List.append_eq_nil_iff.mp (Except.ok.inj whole)
    exact ⟨functions, found, read, globals⟩
  · rintro ⟨functions, found, read, globals⟩
    exact bind_eq_ok.mpr
      ⟨found, read, congrArg Except.ok (List.append_eq_nil_iff.mpr ⟨functions, globals⟩)⟩

end Module

/-- An accepted module has no defect in any of its functions, each of which is found under its own
number. -/
theorem Module.function_of_accepted {m : Module} (accepted : m.defects = .ok []) {id : FuncId}
    {f : Function} (found : m.function? id = some f) : f.defects m = [] ∧ f.id = id := by
  obtain ⟨number, clean⟩ := (accepted_iff.mp accepted).1 id.num f found
  exact ⟨clean, FuncId.num_inj.mp number⟩

/-- In an accepted module the functions and globals that instructions name are there. -/
theorem Module.names_of_accepted {m : Module} (accepted : m.defects = .ok []) {id : FuncId}
    {f : Function} (found : m.function? id = some f) {cur : BlockId} {b : Block}
    (at_cur : f.block? cur = some b) {i : Inst} (inside : i ∈ b.insts) :
    (i.op = .call → i.callee.num < m.functions.size) ∧
      (i.op = .loadGlobal ∨ i.op = .storeGlobal → i.global.num < m.globals.size) := by
  obtain ⟨_, same, clean⟩ := Function.block_of_defects (Module.function_of_accepted accepted found).1
    (Function.block?_eq_some.mp at_cur)
  cases same
  have fine := (Block.defects_eq_nil.mp clean).2.2.2 i inside
  unfold Block.instDefects at fine
  constructor
  · intro op
    simp only [op] at fine
    split at fine
    · cases fine
    · next callee there => exact (Array.getElem?_eq_some_iff.mp there).1
  · intro op
    have there : (m.global? i.global).isNone = false := by
      rcases op with op | op <;> simpa only [op, defectIf_eq_nil] using fine
    by_contra outside
    simp [Module.global?, Array.getElem?_eq_none (Nat.le_of_not_lt outside)] at there

/-- A function of an accepted module carries its position as its number. -/
theorem Module.number_of_accepted {m : Module} (accepted : m.defects = .ok []) {i : Nat}
    {f : Function} (at_i : m.functions[i]? = some f) : f.id.num = i :=
  ((accepted_iff.mp accepted).1 i f at_i).1

/-- An accepted module has no more functions than can be numbered. -/
theorem Module.small_of_accepted {m : Module} (accepted : m.defects = .ok []) :
    m.functions.size ≤ 2 ^ 32 := by
  by_contra large
  have number := number_of_accepted accepted (Array.getElem?_eq_getElem (by omega : 2 ^ 32 < _))
  exact absurd number (Nat.ne_of_lt (UInt32.toNat_lt _))

/-- A function of an accepted module is found under its number. -/
theorem Module.function?_of_mem {m : Module} (accepted : m.defects = .ok []) {f : Function}
    (member : f ∈ m.functions) : m.function? f.id = some f := by
  obtain ⟨i, at_i⟩ := Array.mem_iff_getElem?.mp member
  rw [function?, number_of_accepted accepted at_i, at_i]

/-- An accepted module has all its globals, and each carries its position as its number. -/
theorem Module.global_of_accepted {m : Module} (accepted : m.defects = .ok []) {i : Nat}
    {g? : Option Global} (at_i : m.globals[i]? = some g?) : ∃ g, g? = some g ∧ g.id.num = i :=
  (accepted_iff.mp accepted).2.2 i g? at_i

theorem Module.present_of_accepted {m : Module} (accepted : m.defects = .ok []) {g? : Option Global}
    (member : g? ∈ m.globals) : ∃ g, g? = some g := by
  obtain ⟨i, at_i⟩ := Array.mem_iff_getElem?.mp member
  obtain ⟨g, there, _⟩ := Module.global_of_accepted accepted at_i
  exact ⟨g, there⟩

/-- A clean report on a function with a body: as many parameters as the signature says, each with a
type. -/
theorem Function.params_of_defects {m : Module} {f : Function} (clean : f.defects m = [])
    (body : f.isExternal = false) : f.params.length = f.sig.params.length ∧
      ∀ p ∈ f.params, (f.regType? p).isSome = true := by
  simp only [Function.defects, body, Bool.false_eq_true, if_false, List.append_eq_nil_iff,
    defectIf_eq_nil, List.flatMap_eq_nil_iff] at clean
  obtain ⟨⟨⟨count, typed⟩, _⟩, _⟩ := clean
  refine ⟨by simpa using count, fun p member => ?_⟩
  simpa [Function.regType?] using typed p member

/-- Functions of an accepted module are told apart by their names. -/
theorem Module.eq_of_name {m : Module} (accepted : m.defects = .ok []) {f g : Function}
    (one : f ∈ m.functions) (two : g ∈ m.functions) (same : f.name = g.name) : f = g :=
  List.inj_on_of_nodup_map (accepted_iff.mp accepted).2.1 (Array.mem_toList_iff.mpr one)
    (Array.mem_toList_iff.mpr two) same

section Entry
variable {m : Module} (accepted : m.defects = .ok [])
include accepted

/-- In an accepted module a name stands for the last function that has it. -/
theorem Module.lookup_of_accepted (name : String) :
    m.lookup name = .ok (m.functions.toList.reverse.find? (·.name == name)) := by
  unfold lookup
  split
  · next none => rw [none]
  · next f found =>
    have member := Array.mem_toList_iff.mp (List.mem_reverse.mp (List.mem_of_find?_eq_some found))
    have read : Crash.index m.functions.toList f.id.num = .ok f :=
      Crash.index_eq_ok.mpr (Array.getElem?_toList.trans (function?_of_mem accepted member))
    rw [read, found]
    rfl

/-- Looking for the entry of an accepted module does not crash, and finds a function of the module. -/
theorem Module.entryFunction_of_accepted : CrashFree m.entryFunction (· ∈ m.functions) := by
  have listed : ∀ {p : Function → Bool} {f}, m.functions.toList.reverse.find? p = some f →
      f ∈ m.functions := fun found =>
    Array.mem_toList_iff.mp (List.mem_reverse.mp (List.mem_of_find?_eq_some found))
  unfold entryFunction
  simp only [lookup_of_accepted accepted, Crash.lift, bind, Except.bind, throw, throwThe,
    MonadExceptOf.throw, pure, Except.pure]
  -- each search gives a function of the module, or the next one is made
  repeat' split
  all_goals first
    | exact .error _
    | exact .ok (listed (by assumption))

/-- Among functions with different names a search by name finds the one that has it. -/
theorem Module.find?_name {name : String} {f : Function} :
    m.functions.toList.reverse.find? (·.name == name) = some f ↔ f ∈ m.functions ∧ f.name = name := by
  constructor
  · intro found
    have member := List.mem_of_find?_eq_some found
    exact ⟨by simpa using member, by simpa using List.find?_some found⟩
  · rintro ⟨member, named⟩
    cases found : m.functions.toList.reverse.find? (·.name == name) with
    | none =>
      have absent := List.find?_eq_none.mp found f (by simpa using member)
      simp [named] at absent
    | some g =>
      have member' := List.mem_of_find?_eq_some found
      have named' := List.find?_some found
      have named' : g.name = name := by simpa using named'
      rw [eq_of_name accepted (by simpa using member') member (named'.trans named.symm)]

omit accepted in
/-- What a program starts with: the function that the module names as its entry; else `main`; else the
last function whose name ends in `_main`. -/
inductive Module.StartsWith (m : Module) (f : Function) : Prop where
  | named (asks : m.entryName ≠ "") (member : f ∈ m.functions) (name : f.name = m.entryName)
      (internal : f.isExternal = false)
  | main (free : m.entryName = "") (member : f ∈ m.functions) (name : f.name = "main")
      (internal : f.isExternal = false)
  | trailing (free : m.entryName = "")
      (noMain : ∀ g ∈ m.functions, g.name = "main" → g.isExternal = true)
      (last : m.functions.toList.reverse.find? (fun g => !g.isExternal &&
        (Text.dropTrailing? "_main" g.name).isSome) = some f)

theorem Module.entryFunction_eq_ok {f : Function} : m.entryFunction = .ok f ↔ m.StartsWith f := by
  unfold entryFunction
  simp only [lookup_of_accepted accepted, Crash.lift, bind, Except.bind, throw, throwThe,
    MonadExceptOf.throw, pure, Except.pure]
  by_cases free : m.entryName = ""
  · simp only [free, bne_self_eq_false, Bool.false_eq_true, if_false]
    by_cases own : ∃ g ∈ m.functions, g.name = "main" ∧ g.isExternal = false
    · obtain ⟨g, member, name, internal⟩ := own
      rw [(find?_name accepted).mpr ⟨member, name⟩]
      simp only [internal, Bool.not_false, if_true, Except.ok.injEq]
      constructor
      · rintro rfl
        exact .main free member name internal
      · rintro (⟨asks⟩ | ⟨_, member', name', _⟩ | ⟨_, noMain, _⟩)
        · exact absurd free asks
        · exact eq_of_name accepted member member' (name.trans name'.symm)
        · rw [noMain g member name] at internal
          cases internal
    · have noMain : ∀ g ∈ m.functions, g.name = "main" → g.isExternal = true := by
        intro g member name
        by_contra internal
        exact own ⟨g, member, name, by simpa using internal⟩
      have iff : m.StartsWith f ↔ m.functions.toList.reverse.find? (fun g => !g.isExternal &&
          (Text.dropTrailing? "_main" g.name).isSome) = some f := by
        refine ⟨?_, .trailing free noMain⟩
        rintro (⟨asks⟩ | ⟨_, member, name, internal⟩ | ⟨_, _, last⟩)
        · exact absurd free asks
        · exact absurd ⟨f, member, name, internal⟩ own
        · exact last
      rw [iff]
      have external : ∀ g, m.functions.toList.reverse.find? (·.name == "main") = some g →
          g.isExternal = true := fun g found =>
        noMain g ((find?_name accepted).mp found).1 ((find?_name accepted).mp found).2
      split
      · next g found =>
        simp only [external g found, Bool.not_true, Bool.false_eq_true, if_false]
        split <;> simp [*]
      · split <;> simp [*]
  · have asks : (m.entryName != "") = true := by simpa using free
    simp only [asks, if_true]
    constructor
    · split
      · next g found =>
        obtain ⟨member, name⟩ := (find?_name accepted).mp found
        split
        · next internal =>
          rintro ⟨⟩
          exact .named free member name (by simpa using internal)
        · rintro ⟨⟩
      · rintro ⟨⟩
    · rintro (⟨_, member, name, internal⟩ | ⟨other⟩ | ⟨other⟩)
      · rw [(find?_name accepted).mpr ⟨member, name⟩]
        simp [internal]
      · exact absurd other free
      · exact absurd other free

end Entry

end TieredEngine.Ir
