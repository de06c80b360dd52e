import TieredEngine.Proofs.Ir.Codec.Canonical
import TieredEngine.Proofs.Ir.Codec.Values

/-!
Modules are read back from their files. Each part of a module, from its constants up, is read back
from its document in canonical form, by the steps its reader takes over the members that were
written: a member that is left out leaves a default in place, and that default is what the part
holds there.

A module is writable when its constants have a spelling. Writing a writable module always gives a
file that is read again, and what is read differs from the module only in fields that mean nothing.
-/
namespace TieredEngine.Ir
open TieredEngine.Json

namespace Codec

theorem doc_is_object (v : Value) : ∃ ms, v.doc = .obj ms := by
  unfold Value.doc
  split <;> exact ⟨_, rfl⟩

theorem Reads.constant {v : Value} (reads : Reads value v.doc v) : Reads constant v.doc v := by
  refine ⟨reads.legible, ?_⟩
  intro n shown
  have given := reads.read n shown
  obtain ⟨ms, object⟩ := doc_is_object v
  rw [object] at shown
  cases shown
  exact given

theorem reads_inst {i : Inst} (constant : i.op = .const → Reads value i.const.doc i.const) :
    Reads inst i.doc i.canonical := by
  have dest : i.hasDest → Reads (reg .absent) (regDoc i.dest) i.canonical.dest := by
    intro has
    rw [Inst.dest_canonical_of_hasDest has]
    exact reads_reg _ _
  have const : i.op = .const → Reads Codec.constant i.const.doc i.canonical.const := by
    intro const
    rw [Inst.const_canonical const]
    exact (constant const).constant
  refine Reads.unit (Steps.reads ?_ "mir.instJSON")
  simp only [List.append_assoc, List.cons_append, List.nil_append]
  refine .field (reads_op _ _) ?_ ⟨rfl, fun _ => rfl⟩
  refine .append (.when dest ?_ ⟨rfl, fun _ => rfl⟩) ?_
  · intro none
    simp [Inst.canonical, none]
  dsimp only
  refine .field (reads_ty _ _) ?_ ⟨rfl, fun _ => rfl⟩
  dsimp only
  refine .append (.omitEmpty (reads_regs _) ?_ ⟨rfl, fun _ => rfl⟩) ?_
  · intro none
    rw [List.map_eq_nil_iff.mp none]
  dsimp only
  refine .append (.when const ?_ ⟨rfl, fun _ => rfl⟩) ?_
  · intro other
    simp [Inst.canonical, other]
  dsimp only
  refine .append (.unless (reads_ty _ _) ?_ ⟨rfl, fun _ => rfl⟩) ?_
  · intro none
    rw [none]
  dsimp only
  refine .append (.unless (reads_word32 _ i.callee.index) ?_ ⟨rfl, fun _ => rfl⟩) ?_
  · intro none
    rw [show i.callee.index = 0 from UInt32.toNat_inj.mp none]
  dsimp only
  refine .append (.unless (reads_word32 _ i.global.index) ?_ ⟨rfl, fun _ => rfl⟩) ?_
  · intro none
    rw [show i.global.index = 0 from UInt32.toNat_inj.mp none]
  dsimp only
  refine .to (.unless (reads_string _ _) ?_ ⟨rfl, fun _ => rfl⟩) rfl
  intro none
  rw [String.isEmpty_iff.mp none]

theorem reads_switchCase (old c : SwitchCase) : Reads (switchCase old) c.doc c := by
  refine Steps.reads ?_ "mir.SwitchCase"
  refine .field (reads_int64 _ _) ?_ ⟨rfl, fun _ => rfl⟩
  exact .field (reads_blockId _ _) (.nil _) ⟨rfl, fun _ => rfl⟩

theorem reads_cases (cases : List SwitchCase) :
    Reads (fun n => items "[]mir.SwitchCase" [] n fun c => switchCase (c.getD ⟨0, ⟨0⟩⟩))
      (.arr (cases.map SwitchCase.doc)) (cases, cases.isEmpty) := by
  have read : Reads (fun n => items "[]mir.SwitchCase" [] n fun c => switchCase (c.getD ⟨0, ⟨0⟩⟩))
      (.arr (cases.map SwitchCase.doc)) (cases.map id, cases.isEmpty) :=
    Reads.items (fun c _ => reads_switchCase _ c) _
  rwa [List.map_id] at read

theorem reads_kind (t : Term) (old : String) :
    Reads (word "*mir.TermKind" kindName? .unknownTerm old) (.str t.kindName) t.kindName :=
  reads_word (by cases t <;> rfl) _ _ old

/-- The fields that a terminator writes; all others keep their defaults. -/
def fieldsOf : Term → TermFields
  | .missing => {}
  | .br target => { kind := "br", target }
  | .condBr cond yes no => { kind := "condbr", cond, yes, no }
  | .switch cond cases default => { kind := "switch", cond, cases, default }
  | .ret value => { kind := "ret", value := value.getD .absent }
  | .unreachable => { kind := "unreachable" }

theorem term_fieldsOf {t : Term} (proper : t ≠ .ret (some .absent)) : (fieldsOf t).term = t := by
  cases t with
  | ret value =>
    cases value with
    | none => rfl
    | some v =>
      have given : v ≠ .absent := by
        rintro rfl
        exact proper rfl
      exact congrArg Term.ret (if_neg given)
  | _ => rfl

theorem reads_termFields (t : Term) : Reads termFields t.doc (fieldsOf t) := by
  have kind := reads_kind t "none"
  refine Steps.reads ?_ "mir.termJSON"
  cases t with
  | missing | unreachable => exact .field kind (.nil _) ⟨rfl, fun _ => rfl⟩
  | br target =>
    refine .field kind ?_ ⟨rfl, fun _ => rfl⟩
    exact .field (reads_blockId _ _) (.nil _) ⟨rfl, fun _ => rfl⟩
  | condBr c y n =>
    refine .field kind ?_ ⟨rfl, fun _ => rfl⟩
    refine .field (reads_reg _ _) ?_ ⟨rfl, fun _ => rfl⟩
    refine .field (reads_blockId _ _) ?_ ⟨rfl, fun _ => rfl⟩
    exact .field (reads_blockId _ _) (.nil _) ⟨rfl, fun _ => rfl⟩
  | «switch» c cases d =>
    refine .field kind ?_ ⟨rfl, fun _ => rfl⟩
    refine .field (reads_reg _ _) ?_ ⟨rfl, fun _ => rfl⟩
    refine .append (.omitEmpty (reads_cases cases) ?_ ⟨rfl, fun _ => rfl⟩) ?_
    · intro none
      rw [List.map_eq_nil_iff.mp none]
    exact .field (reads_blockId _ _) (.nil _) ⟨rfl, fun _ => rfl⟩
  | ret value =>
    refine .field kind ?_ ⟨rfl, fun _ => rfl⟩
    cases value with
    | none => exact .nil _
    | some v => exact .field (reads_reg _ _) (.nil _) ⟨rfl, fun _ => rfl⟩

/-- A terminator is read back unless it returns the register that stands for none. -/
theorem reads_term {t : Term} (proper : t ≠ .ret (some .absent)) : Reads term t.doc t := by
  have read := ((reads_termFields t).map TermFields.term).unit
  rw [term_fieldsOf proper] at read
  exact read

theorem reads_incoming (old i : Incoming) :
    Reads (incoming old) (.obj [("pred", blockDoc i.pred), ("value", regDoc i.value)]) i := by
  refine Steps.reads ?_ "mir.PhiIncoming"
  refine .field (reads_blockId _ _) ?_ ⟨rfl, fun _ => rfl⟩
  exact .field (reads_reg _ _) (.nil _) ⟨rfl, fun _ => rfl⟩

theorem reads_phi (p : Phi) : Reads (phi {}) p.doc p.canonical := by
  have inputs : Reads (fun n => items "[]mir.PhiIncoming" [] n fun i => incoming (i.getD ⟨⟨0⟩, ⟨0⟩⟩))
      (written p.explicitEmpty (p.incoming.map fun i =>
        .obj [("pred", blockDoc i.pred), ("value", regDoc i.value)]))
      (p.incoming.map id, p.incoming.isEmpty && p.explicitEmpty) :=
    Reads.written (fun i _ => reads_incoming _ i) _ _
  rw [List.map_id] at inputs
  refine Steps.reads ?_ "mir.Phi"
  refine .field (reads_reg _ _) ?_ ⟨rfl, fun _ => rfl⟩
  refine .field (reads_ty _ _) ?_ ⟨rfl, fun _ => rfl⟩
  exact .field inputs (.nil _) ⟨rfl, fun _ => rfl⟩

theorem reads_callConv (old conv : CallConv) :
    Reads (word "*mir.CallConv" CallConv.ofName? .unknownCallConv old) (.str conv.name) conv :=
  reads_word (by cases conv <;> rfl) _ _ old

theorem reads_signature (s : Signature) : Reads (signature {}) s.doc s.canonical := by
  have throws : s.canThrow → Reads (bool false) (.bool true) s.canThrow := by
    intro throws
    rw [throws]
    exact reads_bool _ _
  refine Steps.reads ?_ "mir.Signature"
  simp only [List.cons_append, List.nil_append]
  refine .field (reads_types_written _ _) ?_ ⟨rfl, fun _ => rfl⟩
  refine .field (reads_ty _ _) ?_ ⟨rfl, fun _ => rfl⟩
  dsimp only
  refine .append (.unless (reads_callConv _ _) ?_ ⟨rfl, fun _ => rfl⟩) ?_
  · intro none
    rw [none]
  dsimp only
  refine .to (.when throws ?_ ⟨rfl, fun _ => rfl⟩) rfl
  intro none
  rw [Bool.not_eq_true _ |>.mp none]

theorem reads_block {b : Block} (insts : ∀ i ∈ b.insts, Reads inst i.doc i.canonical)
    (term : Reads term b.term.doc b.term) : Reads (block {}) b.doc b.canonical := by
  have phis : Reads (fun n => items "[]mir.Phi" [] n fun p => phi (p.getD {}))
      (.arr (b.phis.map Phi.doc)) (b.phis.map Phi.canonical, b.phis.isEmpty) :=
    Reads.items (fun p _ => reads_phi p) _
  have insts : Reads (fun n => items "[]mir.Inst" [] n fun _ => inst)
      (written b.explicitEmpty (b.insts.map Inst.doc))
      (b.insts.map Inst.canonical, b.insts.isEmpty && b.explicitEmpty) :=
    Reads.written insts _ _
  refine Steps.reads ?_ "mir.Block"
  simp only [List.cons_append, List.nil_append]
  refine .field (reads_blockId _ _) ?_ ⟨rfl, fun _ => rfl⟩
  refine .append (.omitEmpty phis ?_ ⟨rfl, fun _ => rfl⟩) ?_
  · intro none
    rw [List.map_eq_nil_iff.mp none]
    rfl
  dsimp only
  refine .field insts ?_ ⟨rfl, fun _ => rfl⟩
  exact .field term (.nil _) ⟨rfl, fun _ => rfl⟩

theorem reads_function {f : Function}
    (blocks : ∀ b? ∈ f.blocks.toList, ∀ b ∈ b?, Reads (block {}) b.doc b.canonical) :
    Reads (function {}) f.doc f.canonical := by
  have blocks : Reads (fun n => items "[]*mir.Block" [] n (optional {} block))
      (.arr (f.blocks.toList.map (orNull Block.doc)))
      (f.blocks.toList.map (·.map Block.canonical), f.blocks.toList.isEmpty) :=
    Reads.items (fun b? member => .optional (blocks b? member) fun _ => ⟨_, rfl⟩) _
  refine Steps.reads ?_ "mir.Function"
  simp only [List.append_assoc, List.cons_append, List.nil_append]
  refine .field (reads_word32 _ f.id.index) ?_ ⟨rfl, fun _ => rfl⟩
  refine .field (reads_string _ _) ?_ ⟨rfl, fun _ => rfl⟩
  refine .field (reads_signature _) ?_ ⟨rfl, fun _ => rfl⟩
  dsimp only
  refine .append (.omitEmpty (reads_regs _) ?_ ⟨rfl, fun _ => rfl⟩) ?_
  · intro none
    rw [List.map_eq_nil_iff.mp none]
  dsimp only
  refine .append (.omitEmpty blocks ?_ ⟨rfl, fun _ => rfl⟩) ?_
  · intro none
    rw [List.map_eq_nil_iff.mp none]
    rfl
  dsimp only
  refine .field (reads_blockId _ _) ?_ ⟨rfl, fun _ => rfl⟩
  dsimp only
  refine .to (.omitEmpty (reads_types _) ?_ ⟨rfl, fun _ => rfl⟩) ?_
  · intro none
    rw [List.map_eq_nil_iff.mp none]
  · simp only [Function.canonical, Function.mapBlocks, ← Array.toList_map, Array.toArray_toList]

theorem reads_global {g : Global} (init : Reads value g.init.doc g.init) :
    Reads (global {}) g.doc g := by
  refine Steps.reads ?_ "mir.Global"
  refine .field (reads_word32 _ g.id.index) ?_ ⟨rfl, fun _ => rfl⟩
  refine .field (reads_string _ _) ?_ ⟨rfl, fun _ => rfl⟩
  refine .field (reads_ty _ _) ?_ ⟨rfl, fun _ => rfl⟩
  exact .field init (.nil _) ⟨rfl, fun _ => rfl⟩

/-- The fields that the file of a module gives. -/
def moduleFieldsOf (m : Module) : ModuleFields where
  name := m.name
  functions := m.functions.toList.map fun f => some f.canonical
  globals := m.globals.toList
  entryName := m.entryName
  explicitEmpty := m.functions.isEmpty && m.explicitEmpty

theorem reads_moduleFields {m : Module}
    (functions : ∀ f ∈ m.functions.toList, Reads (function {}) f.doc f.canonical)
    (globals : ∀ g? ∈ m.globals.toList, ∀ g ∈ g?, Reads (global {}) g.doc g) :
    Reads moduleFields m.doc (moduleFieldsOf m) := by
  have functions : Reads (fun n => items "[]*mir.Function" [] n (optional {} function))
      (written m.explicitEmpty (m.functions.toList.map Function.doc))
      (m.functions.toList.map fun f => some f.canonical,
        m.functions.toList.isEmpty && m.explicitEmpty) := by
    refine Reads.written (fun f member => ?_) _ _
    have entry : ∀ g ∈ some f, Reads (function {}) g.doc g.canonical := by
      rintro g ⟨⟩
      exact functions f member
    exact Reads.optional entry fun _ => ⟨_, rfl⟩
  have globals : Reads (fun n => items "[]*mir.Global" [] n (optional {} global))
      (.arr (m.globals.toList.map (orNull Global.doc)))
      (m.globals.toList.map (·.map id), m.globals.toList.isEmpty) :=
    Reads.items (fun g? member => .optional (globals g? member) fun _ => ⟨_, rfl⟩) _
  refine Steps.reads ?_ "mir.Module"
  simp only [List.cons_append, List.nil_append]
  refine .field (reads_string _ _) ?_ ⟨rfl, fun _ => rfl⟩
  refine .field functions ?_ ⟨rfl, fun _ => rfl⟩
  dsimp only
  refine .append (.omitEmpty globals ?_ ⟨rfl, fun _ => rfl⟩) ?_
  · intro none
    rw [List.map_eq_nil_iff.mp none]
    rfl
  dsimp only
  refine .to (.unless (reads_string _ _) ?_ ⟨rfl, fun _ => rfl⟩) ?_
  · intro none
    rw [String.isEmpty_iff.mp none]
  · simp [moduleFieldsOf]

theorem ofNode_moduleFields {m : Module} {n : Node}
    (read : moduleFields n = .ok (moduleFieldsOf m)) : Module.ofNode n = .ok m.canonical := by
  have functions : (moduleFieldsOf m).functions.mapM Crash.deref =
      .ok (m.functions.toList.map Function.canonical) := by
    rw [moduleFieldsOf, List.mapM_map]
    exact mapM_eq_map fun _ _ => rfl
  unfold Module.ofNode
  rw [unit, read]
  simp only [Except.mapError, bind, Except.bind, functions, Crash.lift]
  simp only [moduleFieldsOf, Module.canonical, ← Array.toList_map, Array.toArray_toList]
  rfl

end Codec

/-- A module with a file: its constants have a spelling, and no block returns the register number
that stands for no register, which is how a return without a value is written. -/
structure Module.Writable (m : Module) : Prop where
  constants : ∀ v ∈ m.constants, v.Writable
  returns : ∀ f ∈ m.functions.toList, ∀ b ∈ f.presentBlocks, b.term ≠ .ret (some .absent)

instance (m : Module) : Decidable m.Writable :=
  decidable_of_iff ((∀ v ∈ m.constants, v.Writable) ∧
      ∀ f ∈ m.functions.toList, ∀ b ∈ f.presentBlocks, b.term ≠ .ret (some .absent))
    ⟨fun both => ⟨both.1, both.2⟩, fun both => ⟨both.constants, both.returns⟩⟩

theorem Module.Writable.reads {m : Module} (writable : m.Writable)
    (exact : ∀ v ∈ m.constants, v.ShortestExact) :
    Codec.Reads Codec.moduleFields m.doc (Codec.moduleFieldsOf m) := by
  have value : ∀ v ∈ m.constants, Codec.Reads Codec.value v.doc v :=
    fun v member => Codec.reads_value (writable.constants v member) (exact v member)
  refine Codec.reads_moduleFields ?_ ?_
  · intro f member
    refine Codec.reads_function ?_
    intro b? listed b present
    have inside : b ∈ f.presentBlocks := List.mem_filterMap.mpr ⟨b?, listed, present⟩
    refine Codec.reads_block ?_ (Codec.reads_term (writable.returns f member b inside))
    intro i instruction
    refine Codec.reads_inst ?_
    intro const
    refine value _ (List.mem_append_left _ (List.mem_flatMap.mpr ⟨f, member, ?_⟩))
    refine List.mem_flatMap.mpr ⟨b, inside, List.mem_map.mpr ⟨i, ?_, rfl⟩⟩
    exact List.mem_filter.mpr ⟨instruction, decide_eq_true const⟩
  · intro g? member g present
    have listed : g ∈ m.globals.toList.filterMap fun g? => g? :=
      List.mem_filterMap.mpr ⟨g?, member, present⟩
    exact Codec.reads_global (value _ (List.mem_append_right _ (List.mem_map_of_mem listed)))

/-- A writable module is read back from its file in canonical form, which has the same file, the
same defects, the same typing errors and the same listing. -/
theorem Module.decode_encode {m : Module} (writable : m.Writable)
    (exact : ∀ v ∈ m.constants, v.ShortestExact) :
    Module.decode m.encode = .ok m.canonical ∧
      m.canonical.encode = m.encode ∧
      m.canonical.defects = m.defects ∧
      m.canonical.functions.map Function.typingErrors = m.functions.map Function.typingErrors ∧
      m.canonical.listing = m.listing := by
  refine ⟨?_, m.encode_canonical, m.defects_canonical, ?_, m.listing_canonical⟩
  · have reads := writable.reads exact
    obtain ⟨n, shown, read⟩ := readFirst_indented reads.legible .file
    rw [decode, encode, read]
    exact Codec.ofNode_moduleFields (reads.read n shown)
  · rw [canonical, Array.map_map]
    congr 1
    exact funext Function.typingErrors_canonical

/-- A module with fields that mean nothing, words at the ends of their range, a missing block, and
names that are escaped. -/
def Module.ledger : Module := {
  name := "<a & b>\n\"é\u2028"
  entryName := "main"
  functions := #[
    { name := "log", sig := { params := [.f32, .ptr], callConv := .c, canThrow := true } },
    { id := ⟨1⟩, name := "main", sig := { ret := .i64, explicitEmpty := true }
      regTypes := #[.i64, .f64, .f32, .f64, .u64, .bool, .i64], entry := ⟨0⟩
      blocks := #[
        some {
          insts := [
            { dest := ⟨0⟩, ty := .i64, const := .ofInt .i64 (-9223372036854775808) },
            { dest := ⟨1⟩, ty := .f64, const := ⟨.f64, 0x3FB999999999999A⟩ },
            { dest := ⟨2⟩, ty := .f32, const := ⟨.f32, 0x80000001⟩ },
            { dest := ⟨3⟩, ty := .f64, const := ⟨.f64, 0xFFF0000000000000⟩ },
            { dest := ⟨4⟩, ty := .u64, const := .ofNat .u64 18446744073709551615 },
            { dest := ⟨5⟩, ty := .bool, const := .ofBool true },
            { op := .storeGlobal, dest := ⟨7⟩, args := [⟨4⟩], global := ⟨1⟩ },
            { op := .add, ty := .i64, dest := ⟨6⟩, args := [⟨0⟩, ⟨0⟩], const := ⟨.f64, 7⟩ }]
          term := .switch ⟨6⟩ [⟨-9223372036854775808, ⟨2⟩⟩, ⟨3, ⟨3⟩⟩] ⟨2⟩
          explicitEmpty := true },
        none,
        some { id := ⟨2⟩, insts := [{ op := .panic, message := "\\ \t </>" }], term := .unreachable },
        some { id := ⟨3⟩, phis := [{ dest := ⟨7⟩, ty := .i64, incoming := [⟨⟨0⟩, ⟨6⟩⟩] }]
               term := .ret (some ⟨7⟩) }] }]
  globals := #[some { name := "origin", ty := .ptr, init := .ofNat .ptr 4096 }, none,
               some { id := ⟨2⟩, name := "step", ty := .i8, init := .ofInt .i8 (-1) }] }

theorem Module.decode_encode_ledger :
    ledger.Writable ∧ (∀ v ∈ ledger.constants, v.ShortestExact) ∧
      decode ledger.encode = .ok ledger.canonical ∧ ledger.canonical ≠ ledger ∧
      ledger.canonical.encode = ledger.encode ∧ ledger.canonical.listing = ledger.listing := by
  have writable : ledger.Writable := by decide +kernel
  have exact : ∀ v ∈ ledger.constants, v.ShortestExact := by decide +kernel
  obtain ⟨read, file, _, _, listing⟩ := decode_encode writable exact
  exact ⟨writable, exact, read, by decide +kernel, file, listing⟩

end TieredEngine.Ir
