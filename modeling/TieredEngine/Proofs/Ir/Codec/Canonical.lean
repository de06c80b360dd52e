import TieredEngine.Ir.Codec.Encode
import TieredEngine.Ir.Listing
import TieredEngine.Ir.Typing
import TieredEngine.Ir.WellFormed
import TieredEngine.Proofs.Ir.Structure

/-!
What a file says of a module. Some fields mean nothing: the destination of an instruction that
defines none, the constant of an operation that takes none, and the mark that a list was spelled out
empty when it is not empty. The canonical form of a module clears them. It has the text, the
defects, the typing errors and the listing of the module.
-/
namespace TieredEngine.Ir
open TieredEngine.Json (Doc Escaping)

/-- Clears the destination of a store and of a panic, and the constant of every other operation than
`const`. -/
def Inst.canonical (i : Inst) : Inst :=
  { i with
    dest := if i.hasDest then i.dest else .absent
    const := if i.op = .const then i.const else .void }

def Phi.canonical (p : Phi) : Phi :=
  { p with explicitEmpty := p.incoming.isEmpty && p.explicitEmpty }

def Block.canonical (b : Block) : Block :=
  { b with
    phis := b.phis.map Phi.canonical
    insts := b.insts.map Inst.canonical
    explicitEmpty := b.insts.isEmpty && b.explicitEmpty }

def Signature.canonical (s : Signature) : Signature :=
  { s with explicitEmpty := s.params.isEmpty && s.explicitEmpty }

def Function.canonical (f : Function) : Function :=
  { f.mapBlocks Block.canonical with sig := f.sig.canonical }

/-- The module as its file says it. -/
def Module.canonical (m : Module) : Module :=
  { m with
    functions := m.functions.map Function.canonical
    explicitEmpty := m.functions.isEmpty && m.explicitEmpty }

namespace Inst

@[simp] theorem hasDest_canonical (i : Inst) : i.canonical.hasDest = i.hasDest := by
  by_cases has : i.hasDest
  · have same : i.canonical.dest = i.dest := by simp [canonical, has]
    rw [hasDest, same]
    rfl
  · have none : i.canonical.dest = .absent := by simp [canonical, has]
    rw [hasDest, none]
    simpa using has

theorem dest_canonical_of_hasDest {i : Inst} (has : i.hasDest) : i.canonical.dest = i.dest := by
  simp [canonical, has]

theorem dest_canonical {i : Inst} (noStore : i.op ≠ .storeGlobal) (noPanic : i.op ≠ .panic) :
    i.canonical.dest = i.dest := by
  by_cases absent : i.dest = .absent
  · simp [canonical, absent]
  · exact dest_canonical_of_hasDest (by simp [hasDest, absent, noStore, noPanic])

theorem const_canonical {i : Inst} (const : i.op = .const) : i.canonical.const = i.const := by
  simp [canonical, const]

theorem doc_canonical (i : Inst) : i.canonical.doc = i.doc := by
  have dest : (if i.hasDest then [("dest", regDoc i.canonical.dest)] else []) =
      if i.hasDest then [("dest", regDoc i.dest)] else [] := by
    split
    case isTrue has => rw [dest_canonical_of_hasDest has]
    case isFalse => rfl
  have const : (if i.op = .const then [("const", i.canonical.const.doc)] else []) =
      if i.op = .const then [("const", i.const.doc)] else [] := by
    split
    case isTrue const => rw [const_canonical const]
    case isFalse => rfl
  unfold doc
  rw [hasDest_canonical, dest, ← const]
  rfl

theorem text_canonical (i : Inst) : i.canonical.text = i.text := by
  have op : i.canonical.op = i.op := rfl
  unfold text
  rw [op]
  split
  case h_1 const => rw [const_canonical const, dest_canonical (by simp [const]) (by simp [const])]
  case h_5 => rfl
  case h_6 => rfl
  all_goals
    rw [dest_canonical (by simp_all) (by simp_all)]
    rfl

end Inst

/-- A list that is not empty is written the same whatever its mark says. -/
theorem written_isEmpty_and (docs : List Doc) (flag : Bool) :
    written (docs.isEmpty && flag) docs = written flag docs := by
  cases docs <;> simp [written]

theorem Phi.doc_canonical (p : Phi) : p.canonical.doc = p.doc := by
  unfold doc canonical
  dsimp only
  rw [← List.isEmpty_map, written_isEmpty_and]

theorem Block.doc_canonical (b : Block) : b.canonical.doc = b.doc := by
  have phis : b.canonical.phis.map Phi.doc = b.phis.map Phi.doc := by
    simp [canonical, Function.comp_def, Phi.doc_canonical]
  have insts : written b.canonical.explicitEmpty (b.canonical.insts.map Inst.doc) =
      written b.explicitEmpty (b.insts.map Inst.doc) := by
    have docs : b.canonical.insts.map Inst.doc = b.insts.map Inst.doc := by
      simp [canonical, Function.comp_def, Inst.doc_canonical]
    rw [docs, canonical, ← List.isEmpty_map, written_isEmpty_and]
  unfold doc
  rw [phis, insts]
  rfl

theorem Signature.doc_canonical (s : Signature) : s.canonical.doc = s.doc := by
  unfold doc canonical
  dsimp only
  rw [← List.isEmpty_map, written_isEmpty_and]

theorem Function.doc_canonical (f : Function) : f.canonical.doc = f.doc := by
  have blocks : f.canonical.blocks.toList.map (orNull Block.doc) =
      f.blocks.toList.map (orNull Block.doc) := by
    have same : ∀ b? : Option Block, orNull Block.doc (b?.map Block.canonical) =
        orNull Block.doc b? := by
      intro b?
      cases b? with
      | none => rfl
      | some b => exact b.doc_canonical
    simp [canonical, mapBlocks, Function.comp_def, same]
  have sig : f.canonical.sig.doc = f.sig.doc := f.sig.doc_canonical
  unfold doc
  rw [blocks, sig]
  rfl

theorem Module.encode_canonical (m : Module) : m.canonical.encode = m.encode := by
  have functions : written m.canonical.explicitEmpty (m.canonical.functions.toList.map Function.doc) =
      written m.explicitEmpty (m.functions.toList.map Function.doc) := by
    have docs : m.canonical.functions.toList.map Function.doc =
        m.functions.toList.map Function.doc := by
      simp [canonical, Function.comp_def, Function.doc_canonical]
    have flag : m.canonical.explicitEmpty =
        ((m.functions.toList.map Function.doc).isEmpty && m.explicitEmpty) := by
      simp [canonical]
    rw [docs, flag, written_isEmpty_and]
  unfold encode doc
  rw [functions]
  rfl

section Listing

theorem Phi.text_canonical (p : Phi) : p.canonical.text = p.text := rfl

theorem Block.lines_canonical (b : Block) : b.canonical.lines = b.lines := by
  unfold lines
  simp [canonical, Function.comp_def, Phi.text_canonical, Inst.text_canonical]

theorem Function.size_canonical (f : Function) : f.canonical.blocks.size = f.blocks.size := by
  simp [canonical, mapBlocks]

theorem Function.isExternal_canonical (f : Function) : f.canonical.isExternal = f.isExternal := by
  simp [isExternal, canonical, mapBlocks, Array.isEmpty]

theorem Function.allBlocks_canonical (f : Function) :
    f.canonical.allBlocks = f.allBlocks.map (·.map Block.canonical) := by
  have mapped : ∀ bs : List (Option Block), (bs.map (·.map Block.canonical)).mapM Crash.deref =
      (bs.mapM Crash.deref).map (·.map Block.canonical) := by
    intro bs
    induction bs with
    | nil => rfl
    | cons b? bs ih =>
      rw [List.map_cons, List.mapM_cons, List.mapM_cons, ih]
      cases b? with
      | none => rfl
      | some b => cases bs.mapM Crash.deref <;> rfl
  unfold allBlocks canonical mapBlocks
  dsimp only
  rw [Array.toList_map, mapped]

theorem Function.listing_canonical (f : Function) : f.canonical.listing = f.listing := by
  unfold listing
  rw [isExternal_canonical, allBlocks_canonical]
  cases blocks : f.allBlocks with
  | error c => rfl
  | ok bs =>
    have lines : (bs.map Block.canonical).flatMap Block.lines = bs.flatMap Block.lines := by
      simp [List.flatMap_map, Block.lines_canonical]
    simp only [Except.map, bind, Except.bind, lines]
    rfl

theorem Module.listing_canonical (m : Module) : m.canonical.listing = m.listing := by
  have functions : (m.canonical.functions.toList.mapM fun f => return "\n" ++ (← f.listing)) =
      (m.functions.toList.mapM fun f => return "\n" ++ (← f.listing)) := by
    simp [canonical, List.mapM_map, Function.comp_def, Function.listing_canonical]
  unfold listing
  rw [functions]
  rfl

end Listing

section Defects
variable (m : Module)

theorem mapIdx_map_of {α β γ : Type} {g : Nat → β → γ} {h : Nat → α → γ} {k : α → β}
    (same : ∀ i x, g i (k x) = h i x) (xs : List α) : (xs.map k).mapIdx g = xs.mapIdx h := by
  apply List.ext_getElem?
  intro i
  simp [Function.comp_def, same]

theorem Module.function?_canonical (id : FuncId) :
    m.canonical.function? id = (m.function? id).map Function.canonical := by
  simp [function?, canonical]

theorem Block.instDefects_canonical (b : Block) (i : Inst) :
    b.canonical.instDefects m.canonical i.canonical = b.instDefects m i := by
  have op : i.canonical.op = i.op := rfl
  have callee : i.canonical.callee = i.callee := rfl
  unfold instDefects
  rw [op, callee, m.function?_canonical]
  split
  case h_1 => cases m.function? i.callee <;> rfl
  all_goals rfl

theorem Block.defects_canonical (count index : Nat) (b : Block) :
    b.canonical.defects m.canonical count index = b.defects m count index := by
  have insts : b.canonical.insts.flatMap (b.canonical.instDefects m.canonical) =
      b.insts.flatMap (b.instDefects m) := by
    simp [show b.canonical.insts = b.insts.map Inst.canonical from rfl, List.flatMap_map,
      instDefects_canonical]
  have phis : ∀ g : Phi → List FunctionDefect, (∀ p, g p.canonical = g p) →
      b.canonical.phis.flatMap g = b.phis.flatMap g := by
    intro g same
    simp [show b.canonical.phis = b.phis.map Phi.canonical from rfl, List.flatMap_map, same]
  unfold defects
  dsimp only
  rw [insts, phis _ fun _ => rfl]
  rfl

theorem Function.defects_canonical (f : Function) :
    f.canonical.defects m.canonical = f.defects m := by
  have blocks : f.canonical.blocks.toList = f.blocks.toList.map (·.map Block.canonical) := by
    simp [canonical, mapBlocks]
  unfold defects
  rw [isExternal_canonical, size_canonical, blocks, mapIdx_map_of]
  · rfl
  · intro i b?
    cases b? with
    | none => rfl
    | some b => exact b.defects_canonical m _ _

theorem Module.defects_canonical : m.canonical.defects = m.defects := by
  have functions : m.canonical.functions.toList = m.functions.toList.map Function.canonical := by
    simp [canonical]
  have names : m.canonical.functions.toList.map (·.name) = m.functions.toList.map (·.name) := by
    rw [functions, List.map_map]
    rfl
  unfold defects
  dsimp only
  rw [names, functions, mapIdx_map_of]
  · rfl
  · intro i f
    unfold functionDefects
    rw [f.defects_canonical m]
    rfl

end Defects

section Typing

theorem Function.block?_canonical (f : Function) (id : BlockId) :
    f.canonical.block? id = (f.block? id).map Block.canonical :=
  block?_mapBlocks f Block.canonical id

theorem Function.edges_canonical (f : Function) : f.canonical.edges = f.edges := by
  unfold edges
  rw [allBlocks_canonical]
  cases f.allBlocks with
  | error c => rfl
  | ok bs =>
    simp only [Except.map, bind, Except.bind, List.flatMap_map]
    rfl

theorem Function.walk_canonical (f : Function) (fuel : Nat) : f.canonical.walk fuel = f.walk fuel := by
  induction fuel with
  | zero => rfl
  | succ fuel ih =>
    funext w id
    rw [walk, walk, ih, block?_canonical]
    split
    · rfl
    · rfl
    · cases f.block? id <;> rfl

theorem Function.reversePostorder_canonical (f : Function) :
    f.canonical.reversePostorder = f.reversePostorder := by
  unfold reversePostorder
  rw [size_canonical]
  dsimp only
  rw [walk_canonical]
  rfl

theorem Block.defs_canonical (b : Block) : b.canonical.defs = b.defs := by
  have dests : ((b.insts.map Inst.canonical).filter Inst.hasDest).map (·.dest) =
      (b.insts.filter Inst.hasDest).map (·.dest) := by
    rw [List.filter_map, List.map_map]
    have same : Inst.hasDest ∘ Inst.canonical = Inst.hasDest := funext Inst.hasDest_canonical
    rw [same]
    apply List.map_congr_left
    intro i member
    exact Inst.dest_canonical_of_hasDest (List.of_mem_filter member)
  unfold defs canonical
  dsimp only
  rw [dests, List.map_map]
  rfl

theorem Function.flowStep_canonical (f : Function) (edges : List (BlockId × BlockId)) :
    f.canonical.flowStep edges = f.flowStep edges := by
  funext acc id
  unfold flowStep
  rw [block?_canonical]
  cases f.block? id with
  | none => rfl
  | some b =>
    simp only [Option.map_some, Block.defs_canonical]
    rfl

theorem Function.definedness_canonical (f : Function) (edges : List (BlockId × BlockId))
    (order : List BlockId) : f.canonical.definedness edges order = f.definedness edges order := by
  have start : f.canonical.definednessStart order = f.definednessStart order := by
    unfold definednessStart
    rw [size_canonical]
    rfl
  have flows : ∀ fuel d, f.canonical.flow edges order fuel d = f.flow edges order fuel d := by
    intro fuel
    induction fuel with
    | zero => exact fun _ => rfl
    | succ fuel ih =>
      intro d
      simp only [flow, flowStep_canonical, ih]
  unfold definedness
  rw [start, flows]
  rfl

namespace Typing
variable (f : Function)

theorem checkTypes_canonical (i : Inst) (types : List Ty) :
    checkTypes f.canonical i.canonical types = checkTypes f i types := by
  have op : i.canonical.op = i.op := rfl
  unfold checkTypes
  rw [op]
  split
  case h_1 const =>
    rw [Inst.const_canonical const, Inst.dest_canonical (by simp_all) (by simp_all)]
    rfl
  case h_8 => rfl
  case h_9 => rfl
  case h_10 => rfl
  case h_12 => rfl
  all_goals
    rw [Inst.dest_canonical (by simp_all) (by simp_all)]
    rfl

theorem checkInst_canonical (i : Inst) : checkInst f.canonical i.canonical = checkInst f i := by
  have mark : (if i.canonical.hasDest then markDefined i.canonical.dest else pure ()) =
      if i.hasDest then markDefined i.dest else pure () := by
    rw [Inst.hasDest_canonical]
    split
    case isTrue has => rw [Inst.dest_canonical_of_hasDest has]
    case isFalse => rfl
  unfold checkInst
  simp only [mark, checkTypes_canonical]
  rfl

theorem forM_map_of {α β : Type} {g : β → Check Unit} {h : α → Check Unit} {k : α → β}
    (same : ∀ x, g (k x) = h x) (xs : List α) : (xs.map k).forM g = xs.forM h := by
  induction xs with
  | nil => rfl
  | cons x xs ih => rw [List.map_cons, List.forM, List.forM, same, ih]

theorem checkBlock_canonical (edges : List (BlockId × BlockId)) (d : Definedness) (b : Block) :
    checkBlock f.canonical edges d b.canonical = checkBlock f edges d b := by
  have phis : b.canonical.phis = b.phis.map Phi.canonical := rfl
  have insts : b.canonical.insts = b.insts.map Inst.canonical := rfl
  have checked : (b.phis.map Phi.canonical).forM (checkPhi f.canonical edges d b.canonical) =
      b.phis.forM (checkPhi f edges d b) := forM_map_of (fun _ => rfl) _
  have marked : (b.phis.map Phi.canonical).forM (markDefined ·.dest) =
      b.phis.forM (markDefined ·.dest) := forM_map_of (fun _ => rfl) _
  unfold checkBlock
  rw [phis, insts, checked, marked, forM_map_of (checkInst_canonical f), List.isEmpty_map]
  rfl

end Typing

theorem deref_map_bind {α β γ : Type} (x? : Option α) (g : α → β) (k : β → Except Crash γ) :
    (Crash.deref (x?.map g) >>= k) = (Crash.deref x? >>= fun x => k (g x)) := by
  cases x? <;> rfl

theorem Function.typingErrors_canonical (f : Function) :
    f.canonical.typingErrors = f.typingErrors := by
  unfold typingErrors
  rw [isExternal_canonical, edges_canonical, reversePostorder_canonical]
  simp only [definedness_canonical, block?_canonical, deref_map_bind, Typing.checkBlock_canonical]
  rfl

end Typing

end TieredEngine.Ir
