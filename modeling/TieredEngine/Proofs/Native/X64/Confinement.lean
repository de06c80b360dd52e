import TieredEngine.Proofs.Ir.Typable
import TieredEngine.Proofs.Native.X64.Acceptance
import TieredEngine.Proofs.Native.X64.Generated

/-!
Generated code keeps to its slots. Each register that the function declares has a cell of the frame,
and so has each phi of the block with the most; the registers that code names are the operands,
destinations and inputs that the typing check has looked at, so every distance from the base pointer
is that of a cell. Between the first two instructions and the last three of a call nothing moves the
base pointer, and nothing goes through the stack pointer.
-/
namespace TieredEngine.Native.X64
open TieredEngine TieredEngine.Ir

/-- The base pointer is left alone, and memory is reached at distances of cells only. -/
structure Instr.Confined {τ : Type} (cell : Int32 → Prop) (i : Instr τ) : Prop where
  base : i.result? ≠ some .rbp
  pointer : i.onStack = false
  distance : ∀ d ∈ i.distance?, cell d

/-- An instruction on registers is confined when it leaves the base pointer alone. -/
theorem Instr.Confined.of_registers {τ : Type} {cell : Int32 → Prop} {i : Instr τ}
    (base : i.result? ≠ some .rbp) (off : i.onStack = false) (none : i.distance? = none) :
    i.Confined cell :=
  ⟨base, off, fun d reaches => by simp [none] at reaches⟩

/-- Lines of confined instructions, and of returns that take the frame down. -/
inductive Framed {ℓ : Type} (cell : Int32 → Prop) : List (Line ℓ) → Prop where
  | nil : Framed cell []
  | bind {l : ℓ} {rest : List (Line ℓ)} (after : Framed cell rest) : Framed cell (.bind l :: rest)
  | instr {i : Instr ℓ} {rest : List (Line ℓ)} (confined : i.Confined cell)
      (after : Framed cell rest) : Framed cell (.instr i :: rest)
  | leave {rest : List (Line ℓ)} (after : Framed cell rest) :
      Framed cell (.instr (.alu .mov .rsp .rbp) :: .instr (.pop .rbp) :: .instr .ret :: rest)

namespace Framed

variable {ℓ : Type} {cell : Int32 → Prop}

theorem append {front rest : List (Line ℓ)} (first : Framed cell front)
    (second : Framed cell rest) : Framed cell (front ++ rest) := by
  induction first with
  | nil => exact second
  | bind _ ih => exact .bind ih
  | instr confined _ ih => exact .instr confined ih
  | leave _ ih => exact .leave ih

theorem flatten {parts : List (List (Line ℓ))} (each : ∀ ls ∈ parts, Framed cell ls) :
    Framed cell parts.flatten := by
  induction parts with
  | nil => exact .nil
  | cons ls parts ih =>
    exact (each ls (by simp)).append (ih fun ls' member => each ls' (by simp [member]))

theorem code {code : List (Instr ℓ)} (each : ∀ i ∈ code, i.Confined cell) :
    Framed cell (code.map Line.instr) := by
  induction code with
  | nil => exact .nil
  | cons i code ih =>
    exact .instr (each i (by simp)) (ih fun j member => each j (by simp [member]))

/-- What stands behind a label is framed too: no label stands inside a return. -/
theorem after_bind {before after : List (Line ℓ)} {l : ℓ}
    (framed : Framed cell (before ++ .bind l :: after)) : Framed cell after := by
  generalize whole : before ++ .bind l :: after = ls at framed
  induction framed generalizing before with
  | nil => simp at whole
  | @bind l' rest framed ih =>
    cases before with
    | nil =>
      cases whole
      exact framed
    | cons _ before =>
      obtain ⟨-, whole⟩ := List.cons.inj whole
      exact ih whole
  | @instr i rest _ _ ih =>
    cases before with
    | nil => cases whole
    | cons _ before =>
      obtain ⟨-, whole⟩ := List.cons.inj whole
      exact ih whole
  | leave _ ih =>
    match before, whole with
    | _ :: _ :: _ :: before, whole =>
      simp only [List.cons_append, List.cons.injEq] at whole
      exact ih whole.2.2.2

theorem distance {ls : List (Line ℓ)} (framed : Framed cell ls) {i : Instr ℓ}
    (member : .instr i ∈ ls) {d : Int32} (reaches : d ∈ i.distance?) : cell d := by
  induction framed with
  | nil => cases member
  | bind _ ih => exact ih (by simpa using member)
  | instr confined _ ih =>
    rcases List.mem_cons.mp member with same | later
    · cases same
      exact confined.distance d reaches
    · exact ih later
  | leave _ ih =>
    simp only [List.mem_cons, Line.instr.injEq] at member
    rcases member with rfl | rfl | rfl | later
    · cases reaches
    · cases reaches
    · cases reaches
    · exact ih later

end Framed

namespace Baseline

/-- What a slot of a frame is for: a register, or a phi on an edge. -/
inductive Cell where
  | reg (r : Ir.Reg)
  | spare (n : Nat)
  deriving DecidableEq

namespace Cell

variable {f : Function} {spares : Nat} {x y : Cell}

/-- The cells of a function: one for each declared register, and some spare ones. -/
def Of (f : Function) (spares : Nat) : Cell → Prop
  | reg r => f.declares r = true
  | spare n => n < spares

/-- Where a cell lies, as a distance from the base pointer. -/
def distance (f : Function) : Cell → Int32
  | reg r => slot r
  | spare n => Baseline.spare f.regTypes.size n

/-- Cells are numbered from the base pointer down. -/
def number (f : Function) : Cell → Nat
  | reg r => r.num
  | spare n => f.regTypes.size + n

theorem distance_eq (f : Function) (x : Cell) :
    x.distance f = Int32.ofInt (-8 * ((x.number f : Int) + 1)) := by
  have lies : ∀ n : Nat, n = x.number f → Int32.ofInt (-8 * ((n : Int) + 1)) =
      Int32.ofInt (-8 * ((x.number f : Int) + 1)) := by
    rintro _ rfl
    rfl
  cases x with
  | reg r => exact lies r.num rfl
  | spare n => exact lies (f.regTypes.size + n) rfl

theorem Of.number_lt (cell : x.Of f spares) : x.number f < f.regTypes.size + spares := by
  cases x with
  | reg r =>
    have inside := Function.declares_iff.mp cell
    simp only [number]
    omega
  | spare n => exact Nat.add_lt_add_left cell _

theorem Of.number_inj (first : x.Of f spares) (second : y.Of f spares)
    (same : x.number f = y.number f) : x = y := by
  cases x with
  | reg r =>
    have inside := Function.declares_iff.mp first
    cases y with
    | reg r' => rw [Reg.num_inj.mp same]
    | spare n =>
      simp only [number] at same
      omega
  | spare n =>
    cases y with
    | reg r =>
      have inside := Function.declares_iff.mp second
      simp only [number] at same
      omega
    | spare m =>
      simp only [number] at same
      rw [Nat.add_left_cancel same]

end Cell

/-- A distance at which a cell of the function lies. -/
def IsCell (f : Function) (spares : Nat) (d : Int32) : Prop :=
  ∃ x : Cell, x.Of f spares ∧ d = x.distance f

theorem isCell_slot {f : Function} {spares : Nat} {r : Ir.Reg} (declared : f.declares r = true) :
    IsCell f spares (slot r) :=
  ⟨.reg r, declared, rfl⟩

theorem isCell_spare {f : Function} {spares n : Nat} (less : n < spares) :
    IsCell f spares (spare f.regTypes.size n) :=
  ⟨.spare n, less, rfl⟩

/-- The registers that the code of a block names, that of the edges leaving it included, are
declared. -/
structure Names (f : Function) (spares : Nat) (b : Block) : Prop where
  args : ∀ i ∈ b.insts, ∀ r ∈ i.args, f.declares r = true
  dests : ∀ i ∈ b.insts, f.declares i.dest = true
  uses : ∀ r ∈ b.term.uses, f.declares r = true
  few : ∀ s ∈ b.term.successors, ∀ c, f.block? s = some c → c.phis.length ≤ spares
  phis : ∀ s ∈ b.term.successors, ∀ c, f.block? s = some c → ∀ p ∈ c.phis,
    f.declares p.dest = true ∧ ∀ r, p.valueFor? b.id = some r → f.declares r = true

section Code

variable {f : Function} {spares : Nat} {b : Block}

theorem confined_load {cell : Int32 → Prop} {d : Int32} (known : cell d) :
    (Instr.load .rax d : Instr Mark).Confined cell :=
  ⟨by simp [Instr.result?], rfl, fun _ same => Option.some.inj same ▸ known⟩

theorem confined_store {cell : Int32 → Prop} {d : Int32} (known : cell d) (r : X64.Reg) :
    (Instr.store d r : Instr Mark).Confined cell :=
  ⟨by simp [Instr.result?], rfl, fun _ same => Option.some.inj same ▸ known⟩

theorem Computes.confined {rs : List Ir.Reg} {code : Code} (computes : Computes rs code)
    (declared : ∀ r ∈ rs, f.declares r = true) : ∀ j ∈ code, j.Confined (IsCell f spares) := by
  intro j member
  obtain ⟨-, off, ⟨x, scratch, result⟩, reads⟩ := computes j member
  refine ⟨fun base => ?_, off, fun d reaches => ?_⟩
  · cases result.symm.trans base
    simp at scratch
  · obtain ⟨r, named, rfl⟩ := reads d reaches
    exact isCell_slot (declared r named)

theorem confined_instCode (names : Names f spares b) {i : Inst} (member : i ∈ b.insts) {code : Code}
    (made : instCode i = .ok code) : ∀ j ∈ code, j.Confined (IsCell f spares) := by
  obtain ⟨front, r, rfl, computes⟩ := instCode_eq_ok made
  intro j inside
  rcases List.mem_append.mp inside with inside | inside
  · exact computes.confined (names.args i member) j inside
  · cases List.mem_singleton.mp inside
    exact confined_store (isCell_slot (names.dests i member)) r

theorem confined_caseShape {cell : Int32 → Prop} {edges : List Edge} {t : Ty} {c : SwitchCase}
    {code : Code} (shape : CaseShape f edges b t c code) : ∀ j ∈ code, j.Confined cell := by
  obtain ⟨m, _, rfl⟩ := shape
  intro j inside
  simp only [List.mem_cons, List.not_mem_nil, or_false] at inside
  rcases inside with rfl | rfl | rfl <;>
    exact .of_registers (by simp [Instr.result?]) rfl rfl

/-- The code of a terminator, a return taking the frame down at its end. -/
theorem framed_termShape {t : Term} (uses : ∀ r ∈ t.uses, f.declares r = true)
    {edges : List Edge} {code : Code} (shape : TermShape f edges b code t) :
    Framed (IsCell f spares) (code.map Line.instr) := by
  have load : ∀ r ∈ t.uses, (Instr.load .rax (slot r) : Instr Mark).Confined (IsCell f spares) :=
    fun r member => confined_load (isCell_slot (uses r member))
  have jump : ∀ m, (Instr.jmp m : Instr Mark).Confined (IsCell f spares) := fun m =>
    .of_registers (by simp [Instr.result?]) rfl rfl
  cases t with
  | missing => cases shape
  | br succ =>
    obtain ⟨m, _, rfl⟩ := shape
    exact .instr (jump m) .nil
  | condBr cond yes no =>
    obtain ⟨m, m', _, _, rfl⟩ := shape
    refine .instr (load cond (by simp [Term.uses])) (.instr ?_ (.instr ?_ (.instr (jump m') .nil)))
    · exact .of_registers (by simp [Instr.result?]) rfl rfl
    · exact .of_registers (by simp [Instr.result?]) rfl rfl
  | switch cond cases default =>
    obtain ⟨codes, m, tested, _, rfl⟩ := shape
    refine .instr (load cond (by simp [Term.uses])) (.code fun j member => ?_)
    rcases List.mem_append.mp member with member | member
    · obtain ⟨code, listed, inside⟩ := List.mem_flatten.mp member
      obtain ⟨c, _, tests⟩ := forall₂_partner tested.flip listed
      exact confined_caseShape tests j inside
    · cases List.mem_singleton.mp member
      exact jump m
  | ret value =>
    cases value with
    | none =>
      cases shape
      refine .instr ?_ (.leave .nil)
      exact .of_registers (by simp [Instr.result?]) rfl rfl
    | some r =>
      cases shape
      exact .instr (load r (by simp [Term.uses])) (.leave .nil)
  | unreachable =>
    cases shape
    exact .instr (.of_registers (by simp [Instr.result?]) rfl rfl) .nil

/-- The copies on an edge go between the cells of registers and the spare ones. -/
theorem confined_copies {e : Edge} {phis : List Phi} (few : phis.length ≤ spares)
    (declared : ∀ p ∈ phis, f.declares p.dest = true ∧
      ∀ r, p.valueFor? e.source = some r → f.declares r = true) {code : Code}
    (shape : CopiesShape f e phis code) : ∀ j ∈ code, j.Confined (IsCell f spares) := by
  have numbered : ∀ q ∈ phis.mapIdx fun i p => (0 + i, p), q.1 < spares ∧ q.2 ∈ phis := by
    intro q member
    obtain ⟨n, bound, rfl⟩ := List.mem_mapIdx.mp member
    exact ⟨by omega, List.getElem_mem bound⟩
  obtain ⟨reads, read, rfl⟩ := shape
  intro j member
  rcases List.mem_append.mp member with member | member
  · obtain ⟨code, listed, inside⟩ := List.mem_flatten.mp member
    obtain ⟨q, counted, r, value, rfl⟩ := forall₂_partner read.flip listed
    obtain ⟨less, phi⟩ := numbered q counted
    simp only [List.mem_cons, List.not_mem_nil, or_false] at inside
    rcases inside with rfl | rfl
    · exact confined_load (isCell_slot ((declared _ phi).2 r value))
    · exact confined_store (isCell_spare less) _
  · obtain ⟨q, counted, inside⟩ := List.mem_flatMap.mp member
    obtain ⟨less, phi⟩ := numbered q counted
    simp only [List.mem_cons, List.not_mem_nil, or_false] at inside
    rcases inside with rfl | rfl
    · exact confined_load (isCell_spare less)
    · exact confined_store (isCell_slot (declared _ phi).1) _

theorem framed_edgeCode (names : Names f spares b) {e : Edge} (leaves : e.Leaves b b.term.successors)
    {ls : List (Line Mark)} (made : edgeCode f e = .ok ls) : Framed (IsCell f spares) ls := by
  obtain ⟨copies, shape, rfl⟩ := edgeCode_eq_ok made
  obtain ⟨source, target⟩ := leaves
  refine .bind (.code fun j member => ?_)
  rcases List.mem_append.mp member with member | member
  · refine confined_copies ?_ ?_ shape j member
    · cases found : f.block? e.target with
      | none => simp
      | some c => exact names.few e.target target c found
    · cases found : f.block? e.target with
      | none => simp
      | some c => exact source ▸ names.phis e.target target c found
  · cases List.mem_singleton.mp member
    exact .of_registers (by simp [Instr.result?]) rfl rfl

theorem framed_blockCode {here : BlockId} (names : ∀ b, f.block? here = some b → Names f spares b)
    {ls : List (Line Mark)} (made : blockCode f here = .ok ls) : Framed (IsCell f spares) ls := by
  obtain ⟨b, codes, term, edges, copies, found, coded, shape, _, leave, copied, rfl⟩ :=
    blockCode_eq_ok made
  have named := names b found
  rw [List.map_append, List.append_assoc]
  refine .bind (.append (.code fun j member => ?_)
    ((framed_termShape named.uses shape).append (.flatten fun ls listed => ?_)))
  · obtain ⟨code, listed, inside⟩ := List.mem_flatten.mp member
    obtain ⟨i, inBlock, made⟩ := forall₂_partner coded.flip listed
    exact confined_instCode named inBlock made j inside
  · obtain ⟨e, collected, made⟩ := forall₂_partner copied.flip listed
    exact framed_edgeCode named (leave e collected) made

theorem confined_paramCode {position : Nat} {p : Ir.Reg} (declared : f.declares p = true)
    {code : Code} (made : paramCode f position p = .ok code) :
    ∀ j ∈ code, j.Confined (IsCell f spares) := by
  obtain ⟨r, at_r, more⟩ := bind_eq_ok.mp made
  obtain ⟨t, _, ⟨⟩⟩ := bind_eq_ok.mp more
  have argument := List.mem_of_getElem? (Crash.index_eq_ok.mp (Crash.lift_eq_ok.mp at_r))
  have other : r ≠ .rbp := by
    rintro rfl
    revert argument
    decide
  intro j member
  rcases List.mem_append.mp member with member | member
  · cases t <;> simp only [normalizeCode, List.mem_singleton, List.not_mem_nil] at member <;>
    · subst member
      exact .of_registers (by simpa [Instr.result?] using other) rfl rfl
  · cases List.mem_singleton.mp member
    exact confined_store (isCell_slot declared) r

/-- The code of the entry sets the base pointer and keeps to its cells from there. -/
theorem entryCode_eq_ok (declared : ∀ p ∈ f.params, f.declares p = true) {frame : Nat} {code : Code}
    (made : entryCode f frame = .ok code) : ∃ rest, code = .push .rbp :: .alu .mov .rbp .rsp :: rest ∧
      ∀ j ∈ rest, j.Confined (IsCell f spares) := by
  obtain ⟨params, stored, ⟨⟩⟩ := bind_eq_ok.mp made
  refine ⟨(if 0 < frame then [.subRsp (Int32.ofNat frame)] else []) ++ params.flatten, by simp,
    fun j member => ?_⟩
  rcases List.mem_append.mp member with member | member
  · split at member
    · cases List.mem_singleton.mp member
      exact .of_registers (by simp [Instr.result?]) rfl rfl
    · cases member
  · obtain ⟨code, listed, inside⟩ := List.mem_flatten.mp member
    obtain ⟨q, counted, passed⟩ := forall₂_partner (mapM_eq_ok.mp stored).flip listed
    obtain ⟨n, bound, rfl⟩ := List.mem_mapIdx.mp counted
    exact confined_paramCode (declared _ (List.getElem_mem bound)) passed j inside

theorem framed_lines (declared : ∀ p ∈ f.params, f.declares p = true)
    (reached : ∀ order, f.reversePostorder = .ok order → ∀ id ∈ order, ∀ b, f.block? id = some b →
      Names f spares b) {ls : List (Line Mark)} (made : lines f = .ok ls) :
    ∃ rest, ls = .instr (.push .rbp) :: .instr (.alu .mov .rbp .rsp) :: rest ∧
      Framed (IsCell f spares) rest := by
  obtain ⟨_, entry, order, bodies, _, entered, ordered, coded, rfl⟩ := lines_eq_ok made
  obtain ⟨code, rfl, confined⟩ := entryCode_eq_ok declared entered
  refine ⟨_, rfl, .append (.code confined) (.flatten fun ls listed => ?_)⟩
  obtain ⟨here, member, made⟩ := forall₂_partner coded.flip listed
  exact framed_blockCode (reached order ordered here member) made

end Code

end Baseline

end TieredEngine.Native.X64
