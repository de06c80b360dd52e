import Mathlib.Data.List.Nodup
import TieredEngine.Native.X64.Baseline
import TieredEngine.Proofs.Ir.Reachability
import TieredEngine.Proofs.Native.X64.Execution

/-!
The shape of generated code. Each reachable block has its label, the code of its instructions, the
code of its terminator and the copies on the edges that leave it; no label is bound twice, so in the
finished program every jump goes to the code it was written for.
-/
namespace TieredEngine.Native.X64.Baseline
open TieredEngine TieredEngine.Ir

section Plain

/-- Instructions that do not jump and can be read back. -/
def Plain (code : Code) : Prop := ∀ i ∈ code, i.target? = none ∧ i.Legible

theorem Plain.append {front rest : Code} (first : Plain front) (second : Plain rest) :
    Plain (front ++ rest) := by
  intro i member
  rcases List.mem_append.mp member with before | after
  · exact first i before
  · exact second i after

theorem Plain.flatten {codes : List Code} (each : ∀ code ∈ codes, Plain code) :
    Plain codes.flatten := by
  intro i member
  obtain ⟨code, listed, inside⟩ := List.mem_flatten.mp member
  exact each code listed i inside

theorem plain_normalizeCode (t : Ty) (r : X64.Reg) : Plain (normalizeCode t r) := by
  cases t <;> simp [Plain, normalizeCode, Instr.target?, Instr.Legible]

/-- Code that computes in three registers and reads slots of the frame, no others than those of
`rs`. -/
def Computes (rs : List Ir.Reg) (code : Code) : Prop :=
  ∀ j ∈ code, (j.target? = none ∧ j.Legible) ∧ j.onStack = false ∧
    (∃ r ∈ [X64.Reg.rax, .rcx, .rdx], j.result? = some r) ∧ ∀ d ∈ j.distance?, ∃ r ∈ rs, d = slot r

theorem Computes.append {rs : List Ir.Reg} {front rest : Code} (first : Computes rs front)
    (second : Computes rs rest) : Computes rs (front ++ rest) := by
  intro j member
  exact (List.mem_append.mp member).elim (first j) (second j)

/-- Instructions that compute in the three registers and touch no memory. -/
def scratch (j : Instr Mark) : Bool :=
  j.target?.isNone && !j.onStack && j.distance?.isNone &&
    [X64.Reg.rax, .rcx, .rdx].any (j.result? = some ·)

theorem legible_of_result {j : Instr Mark} {r : X64.Reg} (written : j.result? = some r)
    (low : r.code < 4) : j.Legible := by
  cases j with
  | setcc c r' =>
    cases written
    exact low
  | _ => trivial

theorem Computes.of_scratch {rs : List Ir.Reg} {code : Code} (each : code.all scratch = true) :
    Computes rs code := by
  intro j member
  have inside := List.all_eq_true.mp each j member
  simp only [scratch, Bool.and_eq_true, Bool.not_eq_true', Option.isNone_iff_eq_none,
    List.any_eq_true, decide_eq_true_iff] at inside
  obtain ⟨⟨⟨straight, off⟩, apart⟩, r, low, written⟩ := inside
  have legible := legible_of_result written
    ((by decide : ∀ r ∈ [X64.Reg.rax, .rcx, .rdx], r.code < 4) r low)
  exact ⟨⟨straight, legible⟩, off, ⟨r, low, written⟩, by simp [apart]⟩

theorem computes_normalizeCode (rs : List Ir.Reg) (t : Ty) :
    Computes rs (normalizeCode t .rax) := .of_scratch (by cases t <;> rfl)

theorem computes_load {rs : List Ir.Reg} {r : Ir.Reg} (member : r ∈ rs) {x : X64.Reg}
    (scratch : x ∈ [X64.Reg.rax, .rcx, .rdx]) : Computes rs [.load x (slot r)] := by
  intro j only
  cases List.mem_singleton.mp only
  exact ⟨⟨rfl, trivial⟩, rfl, ⟨x, scratch, rfl⟩, fun d same => ⟨r, member, (Option.some.inj same).symm⟩⟩

theorem argSlot_eq_ok {i : Inst} {n : Nat} {d : Int32} :
    argSlot i n = .ok d ↔ ∃ r, i.args[n]? = some r ∧ d = slot r := by
  unfold argSlot
  rw [map_eq_ok]
  constructor
  · rintro ⟨r, found, rfl⟩
    exact ⟨r, Crash.index_eq_ok.mp (Crash.lift_eq_ok.mp found), rfl⟩
  · rintro ⟨r, found, rfl⟩
    exact ⟨r, Crash.lift_eq_ok.mpr (Crash.index_eq_ok.mpr found), rfl⟩

theorem computes_argLoad {i : Inst} {n : Nat} {d : Int32} (read : argSlot i n = .ok d) {x : X64.Reg}
    (scratch : x ∈ [X64.Reg.rax, .rcx, .rdx]) : Computes i.args [.load x d] := by
  obtain ⟨r, there, rfl⟩ := argSlot_eq_ok.mp read
  exact computes_load (List.mem_of_getElem? there) scratch

theorem computes_binaryCode (rs : List Ir.Reg) {op : Op} {t : Ty} {code : Code}
    (made : binaryCode op t = .ok code) : Computes rs code := by
  unfold binaryCode at made
  split at made
  all_goals cases made
  all_goals exact .of_scratch rfl

theorem computes_valueCode {i : Inst} {code : Code} (made : valueCode i = .ok code) :
    Computes i.args code := by
  have flag : ∀ c : Cond, Computes i.args [.setcc c .rax, .widen .zero8 .rax .rax] :=
    fun _ => .of_scratch rfl
  have inverted : Computes i.args (if i.ty = .bool then [.xorImm .rax 1]
      else .not .rax :: normalizeCode i.ty .rax) := by
    split
    · exact .of_scratch rfl
    · exact @Computes.append _ [.not .rax] _ (.of_scratch rfl) (computes_normalizeCode _ _)
  have converted : Computes i.args (if i.ty = .bool then
      [.alu .test .rax .rax, .setcc .ne .rax, .widen .zero8 .rax .rax]
      else normalizeCode i.ty .rax) := by
    split
    · exact .of_scratch rfl
    · exact computes_normalizeCode _ _
  unfold valueCode at made
  split at made
  · cases made
    exact .of_scratch rfl
  · cases made
    exact .of_scratch rfl
  · obtain ⟨d, read, ⟨⟩⟩ := bind_eq_ok.mp made
    exact computes_argLoad read (by simp)
  · obtain ⟨d, read, ⟨⟩⟩ := bind_eq_ok.mp made
    exact ((computes_argLoad read (by simp)).append (.of_scratch rfl)).append
      (computes_normalizeCode _ _)
  · obtain ⟨d, read, ⟨⟩⟩ := bind_eq_ok.mp made
    exact (computes_argLoad read (by simp)).append inverted
  · obtain ⟨d, read, ⟨⟩⟩ := bind_eq_ok.mp made
    exact (computes_argLoad read (by simp)).append converted
  · split at made
    · obtain ⟨d, left, more⟩ := bind_eq_ok.mp made
      obtain ⟨d', right, more⟩ := bind_eq_ok.mp more
      obtain ⟨middle, computed, ⟨⟩⟩ := bind_eq_ok.mp more
      have loads : Computes i.args [.load .rax d, .load .rcx d'] :=
        (computes_argLoad left (by simp)).append (computes_argLoad right (by simp))
      exact (loads.append (computes_binaryCode _ computed)).append (computes_normalizeCode _ _)
    · split at made
      · next c _ =>
        obtain ⟨d, left, more⟩ := bind_eq_ok.mp made
        obtain ⟨d', right, ⟨⟩⟩ := bind_eq_ok.mp more
        have loads : Computes i.args [.load .rax d, .load .rcx d'] :=
          (computes_argLoad left (by simp)).append (computes_argLoad right (by simp))
        exact loads.append (.of_scratch rfl)
      · cases made

/-- The code of an instruction computes from the slots of its operands and stores the result last. -/
theorem instCode_eq_ok {i : Inst} {code : Code} (made : instCode i = .ok code) :
    ∃ front r, code = front ++ [.store (slot i.dest) r] ∧ Computes i.args front := by
  unfold instCode at made
  split at made
  · obtain ⟨d, first, more⟩ := bind_eq_ok.mp made
    obtain ⟨d', second, more⟩ := bind_eq_ok.mp more
    obtain ⟨d'', third, ⟨⟩⟩ := bind_eq_ok.mp more
    refine ⟨[.load .rax d, .load .rcx d', .load .rdx d'', .alu .test .rax .rax,
      .cmov .ne .rdx .rcx], .rdx, rfl, ?_⟩
    exact (computes_argLoad first (by simp)).append ((computes_argLoad second (by simp)).append
      ((computes_argLoad third (by simp)).append (.of_scratch rfl)))
  · obtain ⟨front, valued, ⟨⟩⟩ := bind_eq_ok.mp made
    exact ⟨front, .rax, rfl, computes_valueCode valued⟩

/-- The code of an instruction does not jump. -/
theorem plain_instCode {i : Inst} {code : Code} (made : instCode i = .ok code) : Plain code := by
  obtain ⟨front, r, rfl, computes⟩ := instCode_eq_ok made
  refine Plain.append (fun j member => (computes j member).1) ?_
  simp [Plain, Instr.target?, Instr.Legible]

theorem plain_entryCode {f : Function} {frame : Nat} {code : Code}
    (made : entryCode f frame = .ok code) : Plain code := by
  obtain ⟨params, stored, ⟨⟩⟩ := bind_eq_ok.mp made
  refine Plain.append (Plain.append ?_ ?_) (Plain.flatten fun code listed => ?_)
  · simp [Plain, Instr.target?, Instr.Legible]
  · split
    · simp [Plain, Instr.target?, Instr.Legible]
    · simp [Plain]
  · obtain ⟨p, _, passed⟩ := forall₂_partner (mapM_eq_ok.mp stored).flip listed
    unfold paramCode at passed
    obtain ⟨r, _, more⟩ := bind_eq_ok.mp passed
    obtain ⟨t, _, ⟨⟩⟩ := bind_eq_ok.mp more
    refine (plain_normalizeCode _ _).append ?_
    simp [Plain, Instr.target?, Instr.Legible]

end Plain

section Branching

/-- A mark leads to a block: it is the block itself, or copies for its phis on an edge from `b`. -/
def Leads (f : Function) (edges : List Edge) (b : Block) (m : Mark) (succ : BlockId) : Prop :=
  ∃ target, f.block? succ = some target ∧
    (target.phis = [] ∧ m = .block succ ∨ ⟨m, b.id, succ⟩ ∈ edges)

/-- The edges out of a block are numbered in the order they were collected. -/
def Numbered (here : BlockId) (edges : List Edge) : Prop :=
  edges.map (·.mark) = (List.range edges.length).map (.edge here)

/-- An edge leaves a block for one of some others. -/
def Edge.Leaves (b : Block) (targets : List BlockId) (e : Edge) : Prop :=
  e.source = b.id ∧ e.target ∈ targets

/-- What lowering part of a terminator gives, whichever edges are collected afterwards. -/
def Collects {α : Type} (here : BlockId) (b : Block) (targets : List BlockId) (x : Branching α)
    (P : List Edge → α → Prop) : Prop :=
  ∀ edges a edges', x edges = .ok (a, edges') →
    edges ⊆ edges' ∧ (Numbered here edges → Numbered here edges') ∧
      (∀ e ∈ edges', e ∈ edges ∨ e.Leaves b targets) ∧ ∀ later, edges' ⊆ later → P later a

variable {f : Function} {here : BlockId} {b : Block} {targets : List BlockId} {α β : Type}

theorem Collects.pure (a : α) : Collects here b targets (pure a) fun _ a' => a' = a := by
  rintro edges a' edges' ⟨⟩
  exact ⟨List.Subset.refl _, id, fun _ => .inl, fun _ _ => rfl⟩

theorem Collects.bind {x : Branching α} {k : α → Branching β} {P : List Edge → α → Prop}
    {Q : α → List Edge → β → Prop} (first : Collects here b targets x P)
    (rest : ∀ a, Collects here b targets (k a) (Q a)) :
    Collects here b targets (x >>= k) fun edges b => ∃ a, P edges a ∧ Q a edges b := by
  intro edges b edges'' ran
  obtain ⟨⟨a, edges'⟩, ran₁, ran₂⟩ :=
    bind_eq_ok.mp (show (x edges >>= fun p => k p.1 p.2) = _ from ran)
  obtain ⟨grows, numbered, leave, given⟩ := first _ _ _ ran₁
  obtain ⟨grows', numbered', leave', given'⟩ := rest a _ _ _ ran₂
  refine ⟨List.Subset.trans grows grows', numbered' ∘ numbered, fun e member => ?_,
    fun later more => ⟨a, given later (List.Subset.trans grows' more), given' later more⟩⟩
  exact (leave' e member).elim (leave e) .inr

theorem Collects.mono {x : Branching α} {P Q : List Edge → α → Prop}
    (collects : Collects here b targets x P) (weaker : ∀ edges a, P edges a → Q edges a) :
    Collects here b targets x Q := by
  intro edges a edges' ran
  obtain ⟨grows, numbered, leave, given⟩ := collects _ _ _ ran
  exact ⟨grows, numbered, leave, fun later more => weaker _ _ (given later more)⟩

theorem Collects.mapM {γ : Type} {g : γ → Branching α} {P : γ → List Edge → α → Prop} {cs : List γ}
    (each : ∀ c ∈ cs, Collects here b targets (g c) (P c)) :
    Collects here b targets (cs.mapM g) fun edges xs =>
      List.Forall₂ (fun c x => P c edges x) cs xs := by
  induction cs with
  | nil =>
    rw [List.mapM_nil]
    refine (Collects.pure _).mono ?_
    rintro edges _ rfl
    exact .nil
  | cons c cs ih =>
    rw [List.mapM_cons]
    refine ((each c (by simp)).bind fun x => (ih fun d member => each d (by simp [member])).bind
      fun xs => Collects.pure (x :: xs)).mono ?_
    rintro edges _ ⟨x, one, xs, others, rfl⟩
    exact .cons one others

/-- A branch goes to its target, or to copies that are made later. -/
theorem branchTo_collects {succ : BlockId} (member : succ ∈ targets) :
    Collects here b targets (branchTo f here b succ) fun edges m => Leads f edges b m succ := by
  intro edges m edges' ran
  unfold branchTo at ran
  cases found : f.block? succ with
  | none =>
    rw [found] at ran
    cases ran
  | some target =>
    rw [found] at ran
    by_cases empty : target.phis.isEmpty = true
    · simp only [empty, if_true] at ran
      cases ran
      exact ⟨List.Subset.refl _, id, fun _ => .inl, fun _ _ =>
        ⟨target, found, .inl ⟨List.isEmpty_iff.mp empty, rfl⟩⟩⟩
    · simp only [empty, if_false, Bool.false_eq_true] at ran
      cases ran
      refine ⟨List.subset_append_left _ _, fun numbered => ?_, fun e inside => ?_, fun later more =>
        ⟨target, found, .inr (more (by simp))⟩⟩
      · unfold Numbered at numbered ⊢
        simp [numbered, List.range_succ]
      · rcases List.mem_append.mp inside with old | new
        · exact .inl old
        · cases List.mem_singleton.mp new
          exact .inr ⟨rfl, member⟩

/-- The code that tests one case of a switch. -/
def CaseShape (f : Function) (edges : List Edge) (b : Block) (t : Ty) (c : SwitchCase)
    (code : Code) : Prop :=
  ∃ m, Leads f edges b m c.target ∧
    code = [.movImm .rcx (Value.ofInt t c.value.toInt).bits, .alu .cmp .rax .rcx, .jcc .e m]

/-- The code of a block's terminator, with the edges that have copies. -/
def TermShape (f : Function) (edges : List Edge) (b : Block) (code : Code) : Term → Prop
  | .missing => False
  | .br succ => ∃ m, Leads f edges b m succ ∧ code = [.jmp m]
  | .condBr cond yes no => ∃ m m', Leads f edges b m yes ∧ Leads f edges b m' no ∧
    code = [.load .rax (slot cond), .alu .test .rax .rax, .jcc .ne m, .jmp m']
  | .switch cond cases default => ∃ codes m,
    List.Forall₂ (CaseShape f edges b ((f.regType? cond).getD .void)) cases codes ∧
    Leads f edges b m default ∧ code = .load .rax (slot cond) :: (codes.flatten ++ [.jmp m])
  | .ret (some r) => code = [.load .rax (slot r), .alu .mov .rsp .rbp, .pop .rbp, .ret]
  | .ret none => code = [.alu .xor .rax .rax, .alu .mov .rsp .rbp, .pop .rbp, .ret]
  | .unreachable => code = [.ud2]

theorem caseCode_collects (t : Ty) {c : SwitchCase} (member : c.target ∈ targets) :
    Collects here b targets (caseCode f here b t c) fun edges code =>
      CaseShape f edges b t c code :=
  (branchTo_collects member).bind fun _ => Collects.pure _

theorem termCode_collects :
    Collects here b b.term.successors (termCode f here b) fun edges code =>
      TermShape f edges b code b.term := by
  unfold termCode
  cases b.term with
  | missing => rintro edges a edges' ⟨⟩
  | br succ =>
    exact (branchTo_collects (by simp [Term.successors])).bind fun _ => Collects.pure _
  | condBr cond yes no =>
    refine ((branchTo_collects (by simp [Term.successors])).bind fun _ =>
      (branchTo_collects (by simp [Term.successors])).bind fun _ => Collects.pure _).mono ?_
    rintro edges _ ⟨m, led, m', led', rfl⟩
    exact ⟨m, m', led, led', rfl⟩
  | switch cond cases default =>
    have target : ∀ c ∈ cases, c.target ∈ (Term.switch cond cases default).successors :=
      fun c member => List.mem_append_left _ (List.mem_map_of_mem member)
    refine ((Collects.mapM fun c member => caseCode_collects _ (target c member)).bind fun _ =>
      (branchTo_collects (by simp [Term.successors])).bind fun _ => Collects.pure _).mono ?_
    rintro edges _ ⟨codes, tested, m, led, rfl⟩
    exact ⟨codes, m, tested, led, rfl⟩
  | ret value =>
    refine (Collects.pure _).mono ?_
    rintro edges _ rfl
    cases value <;> rfl
  | unreachable => exact Collects.pure _

end Branching

section Blocks

/-- The code that reads the inputs of phis, which are numbered from `n` on. -/
def ReadsCode (regs : Nat) (source : BlockId) (n : Nat) (phis : List Phi)
    (codes : List Code) : Prop :=
  List.Forall₂ (fun (p : Nat × Phi) code => ∃ r, p.2.valueFor? source = some r ∧
    code = [.load .rax (slot r), .store (spare regs p.1) .rax])
    (phis.mapIdx fun i p => (n + i, p)) codes

/-- The code that writes phis, which are numbered from `n` on. -/
def writesCode (regs n : Nat) (phis : List Phi) : Code :=
  (phis.mapIdx fun i p => (n + i, p)).flatMap fun p =>
    [.load .rax (spare regs p.1), .store (slot p.2.dest) .rax]

/-- The copies on an edge to a block with these phis. -/
def CopiesShape (f : Function) (e : Edge) (phis : List Phi) (code : Code) : Prop :=
  ∃ reads, ReadsCode f.regTypes.size e.source 0 phis reads ∧
    code = reads.flatten ++ writesCode f.regTypes.size 0 phis

theorem edgeCode_eq_ok {f : Function} {e : Edge} {ls : List (Line Mark)}
    (made : edgeCode f e = .ok ls) :
    ∃ copies, CopiesShape f e (((f.block? e.target).map (·.phis)).getD []) copies ∧
      ls = .bind e.mark :: (copies ++ [(.jmp (.block e.target) : Instr Mark)]).map .instr := by
  obtain ⟨reads, read, ⟨⟩⟩ := bind_eq_ok.mp made
  refine ⟨_, ⟨reads, ?_, rfl⟩, ?_⟩
  · unfold ReadsCode
    simp only [Nat.zero_add]
    refine (mapM_eq_ok.mp read).imp ?_
    rintro ⟨n, p⟩ code coded
    cases found : p.valueFor? e.source with
    | none =>
      simp only [found] at coded
      cases coded
    | some r =>
      simp only [found] at coded
      cases coded
      exact ⟨r, rfl, rfl⟩
  · unfold writesCode
    simp only [Nat.zero_add]

theorem blockCode_eq_ok {f : Function} {here : BlockId} {ls : List (Line Mark)}
    (made : blockCode f here = .ok ls) :
    ∃ b codes term edges copies, f.block? here = some b ∧
      List.Forall₂ (fun i code => instCode i = .ok code) b.insts codes ∧
      TermShape f edges b term b.term ∧ Numbered here edges ∧
      (∀ e ∈ edges, e.Leaves b b.term.successors) ∧
      List.Forall₂ (fun e lines => edgeCode f e = .ok lines) edges copies ∧
      ls = .bind (.block here) :: ((codes.flatten ++ term).map .instr ++ copies.flatten) := by
  obtain ⟨b, found, more⟩ := bind_eq_ok.mp made
  obtain ⟨codes, coded, more⟩ := bind_eq_ok.mp more
  obtain ⟨⟨term, edges⟩, ended, more⟩ := bind_eq_ok.mp more
  obtain ⟨copies, copied, ⟨⟩⟩ := bind_eq_ok.mp more
  obtain ⟨_, numbered, leave, shape⟩ := termCode_collects _ _ _ ended
  exact ⟨b, codes, term, edges, copies, Crash.deref_eq_ok.mp (Crash.lift_eq_ok.mp found),
    mapM_eq_ok.mp coded, shape edges (List.Subset.refl _), numbered rfl,
    fun e member => (leave e member).resolve_left (by simp), mapM_eq_ok.mp copied, rfl⟩

/-- The block whose code a mark belongs to. -/
def Mark.home : Mark → BlockId
  | .block b => b
  | .edge source _ => source

theorem labels_copies {f : Function} {edges : List Edge} {copies : List (List (Line Mark))}
    (copied : List.Forall₂ (fun e lines => edgeCode f e = .ok lines) edges copies) :
    Assembly.labels copies.flatten = edges.map (·.mark) := by
  induction copied with
  | nil => rfl
  | cons first _ ih =>
    obtain ⟨_, _, rfl⟩ := edgeCode_eq_ok first
    simp [Assembly.labels, Assembly.labels_append, ih]

/-- The labels of a block are its own and no two of them are equal. -/
theorem labels_blockCode {f : Function} {here : BlockId} {ls : List (Line Mark)}
    (made : blockCode f here = .ok ls) :
    (Assembly.labels ls).Nodup ∧ ∀ m ∈ Assembly.labels ls, m.home = here := by
  obtain ⟨b, codes, term, edges, copies, _, _, _, numbered, _, copied, rfl⟩ := blockCode_eq_ok made
  have listed : Assembly.labels (.bind (.block here) ::
      ((codes.flatten ++ term).map Line.instr ++ copies.flatten)) =
      .block here :: (List.range edges.length).map (.edge here) := by
    rw [Assembly.labels, Assembly.labels_append, Assembly.labels_instrs, List.nil_append,
      labels_copies copied, numbered]
  rw [listed]
  constructor
  · refine List.nodup_cons.mpr ⟨by simp, List.Nodup.map ?_ List.nodup_range⟩
    intro m n same
    cases same
    rfl
  · intro m member
    rcases List.mem_cons.mp member with rfl | member
    · rfl
    · obtain ⟨n, _, rfl⟩ := List.mem_map.mp member
      rfl

theorem legible_of_termShape {f : Function} {edges : List Edge} {b : Block} {code : Code}
    {t : Term} (shape : TermShape f edges b code t) : ∀ i ∈ code, i.Legible := by
  cases t with
  | missing => cases shape
  | br succ =>
    obtain ⟨m, _, rfl⟩ := shape
    simp [Instr.Legible]
  | condBr cond yes no =>
    obtain ⟨m, m', _, _, rfl⟩ := shape
    simp [Instr.Legible]
  | switch cond cases default =>
    obtain ⟨codes, m, tested, _, rfl⟩ := shape
    intro i member
    rcases List.mem_cons.mp member with rfl | member
    · trivial
    · rcases List.mem_append.mp member with member | member
      · obtain ⟨code, listed, inside⟩ := List.mem_flatten.mp member
        obtain ⟨c, _, m, _, rfl⟩ := forall₂_partner tested.flip listed
        simp only [List.mem_cons, List.not_mem_nil, or_false] at inside
        rcases inside with rfl | rfl | rfl <;> trivial
      · cases List.mem_singleton.mp member
        trivial
  | ret value =>
    cases value <;>
    · cases shape
      simp [Instr.Legible]
  | unreachable =>
    cases shape
    simp [Instr.Legible]

theorem plain_copies {f : Function} {e : Edge} {phis : List Phi} {code : Code}
    (shape : CopiesShape f e phis code) : Plain code := by
  obtain ⟨reads, read, rfl⟩ := shape
  refine Plain.append (Plain.flatten fun code listed => ?_) ?_
  · obtain ⟨p, _, r, _, rfl⟩ := forall₂_partner read.flip listed
    simp [Plain, Instr.target?, Instr.Legible]
  · intro i member
    obtain ⟨p, _, inside⟩ := List.mem_flatMap.mp member
    simp only [List.mem_cons, List.not_mem_nil, or_false] at inside
    rcases inside with rfl | rfl <;> exact ⟨rfl, trivial⟩

theorem legible_blockCode {f : Function} {here : BlockId} {ls : List (Line Mark)}
    (made : blockCode f here = .ok ls) : ∀ i, .instr i ∈ ls → i.Legible := by
  obtain ⟨b, codes, term, edges, copies, _, coded, shape, _, _, copied, rfl⟩ := blockCode_eq_ok made
  intro i member
  rcases List.mem_cons.mp member with other | member
  · cases other
  rcases List.mem_append.mp member with member | member
  · obtain ⟨_, member, ⟨⟩⟩ := List.mem_map.mp member
    rcases List.mem_append.mp member with member | member
    · refine (Plain.flatten (fun code listed => ?_) i member).2
      obtain ⟨j, _, made⟩ := forall₂_partner coded.flip listed
      exact plain_instCode made
    · exact legible_of_termShape shape i member
  · obtain ⟨lines, listed, inside⟩ := List.mem_flatten.mp member
    obtain ⟨e, _, made⟩ := forall₂_partner copied.flip listed
    obtain ⟨code, shape, rfl⟩ := edgeCode_eq_ok made
    rcases List.mem_cons.mp inside with other | inside
    · cases other
    obtain ⟨_, inside, ⟨⟩⟩ := List.mem_map.mp inside
    rcases List.mem_append.mp inside with inside | inside
    · exact (plain_copies shape i inside).2
    · cases List.mem_singleton.mp inside
      trivial

end Blocks

section Whole

variable {f : Function}

theorem lines_eq_ok {ls : List (Line Mark)} (made : lines f = .ok ls) :
    ∃ blocks entry order bodies, f.allBlocks = .ok blocks ∧
      entryCode f (frameSize f.regTypes.size blocks) = .ok entry ∧
      f.reversePostorder = .ok order ∧
      List.Forall₂ (fun here body => blockCode f here = .ok body) order bodies ∧
      ls = entry.map .instr ++ bodies.flatten := by
  obtain ⟨blocks, all, more⟩ := bind_eq_ok.mp made
  obtain ⟨entry, entered, more⟩ := bind_eq_ok.mp more
  obtain ⟨order, ordered, more⟩ := bind_eq_ok.mp more
  obtain ⟨bodies, coded, ⟨⟩⟩ := bind_eq_ok.mp more
  exact ⟨blocks, entry, order, bodies, Crash.lift_eq_ok.mp all, entered,
    Crash.lift_eq_ok.mp ordered, mapM_eq_ok.mp coded, rfl⟩

theorem nodup_bodies {order : List BlockId} {bodies : List (List (Line Mark))}
    (coded : List.Forall₂ (fun here body => blockCode f here = .ok body) order bodies)
    (distinct : order.Nodup) : (Assembly.labels bodies.flatten).Nodup ∧
      ∀ m ∈ Assembly.labels bodies.flatten, m.home ∈ order := by
  induction coded with
  | nil => simp [Assembly.labels]
  | @cons here body order bodies first rest ih =>
    obtain ⟨fresh, distinct⟩ := List.nodup_cons.mp distinct
    obtain ⟨own, home⟩ := labels_blockCode first
    obtain ⟨others, homes⟩ := ih distinct
    rw [List.flatten_cons, Assembly.labels_append]
    constructor
    · refine List.Nodup.append own others fun m member member' => ?_
      have there := homes m member'
      rw [home m member] at there
      exact fresh there
    · intro m member
      rcases List.mem_append.mp member with member | member
      · simp [home m member]
      · simp [homes m member]

/-- No label is bound twice, and every instruction can be read back. -/
theorem lines_sound (numbered : f.WellNumbered) {ls : List (Line Mark)}
    (made : lines f = .ok ls) :
    (Assembly.labels ls).Nodup ∧ ∀ i, .instr i ∈ ls → i.Legible := by
  obtain ⟨_, entry, order, bodies, _, entered, ordered, coded, rfl⟩ := lines_eq_ok made
  obtain ⟨order', ordered', distinct, _⟩ := Function.reversePostorder_ok numbered
  rw [ordered] at ordered'
  cases ordered'
  constructor
  · rw [Assembly.labels_append, Assembly.labels_instrs, List.nil_append]
    exact (nodup_bodies coded distinct).1
  · intro i member
    rcases List.mem_append.mp member with member | member
    · obtain ⟨_, member, ⟨⟩⟩ := List.mem_map.mp member
      exact (plain_entryCode entered i member).2
    · obtain ⟨body, listed, inside⟩ := List.mem_flatten.mp member
      obtain ⟨here, _, made⟩ := forall₂_partner coded.flip listed
      exact legible_blockCode made i inside

/-- The bytes of a function hold its lines. -/
theorem laid_of_machineCode (numbered : f.WellNumbered) {code : List UInt8}
    (made : machineCode f = .ok code) (short : code.length < reach) :
    ∃ ls place, lines f = .ok ls ∧ Assembly.Laid (Program.ofBytes code) place 0 ls := by
  obtain ⟨ls, lined, encoded⟩ := bind_eq_ok.mp made
  obtain ⟨distinct, legible⟩ := lines_sound numbered lined
  refine ⟨ls, fun m => (Assembly.boundAt? m 0 ls).getD 0, lined, ?_⟩
  refine @Assembly.laid_of_encodeFrom _ _ _ _ ?_ ls [] code code rfl short encoded legible ?_
  · intro m n placed
    cases bound : Assembly.boundAt? m 0 ls with
    | none =>
      simp only [bound] at placed
      cases placed
    | some k =>
      simp only [bound] at placed
      cases placed
      have within := Assembly.boundAt?_le bound
      have length := Assembly.length_encodeFrom encoded
      exact ⟨rfl, by omega⟩
  · rintro before m after rfl
    rw [Assembly.labels_append, Assembly.labels] at distinct
    have last : m ∉ Assembly.labels after :=
      (List.nodup_cons.mp (List.nodup_append.mp distinct).2.1).1
    simp [Assembly.boundAt?_split last]

/-- A program has the code for an edge, which takes at most `long` instructions. -/
def HasCopies (p : Program) (f : Function) (place : Mark → Nat) (long : Nat) (e : Edge) : Prop :=
  ∃ copies rest, CopiesShape f e (((f.block? e.target).map (·.phis)).getD []) copies ∧
    copies.length + 1 ≤ long ∧ Assembly.Laid p place (place e.mark)
      ((copies ++ [(.jmp (.block e.target) : Instr Mark)]).map .instr ++ rest)

/-- A program has the code of a block and of the edges that leave it, none of it more than `long`
instructions. -/
def HasBlock (p : Program) (f : Function) (place : Mark → Nat) (long : Nat) (here : BlockId) :
    Prop :=
  ∃ b codes term edges rest, f.block? here = some b ∧
    List.Forall₂ (fun i code => instCode i = .ok code) b.insts codes ∧
    TermShape f edges b term b.term ∧ (codes.flatten ++ term).length ≤ long ∧
    Assembly.Laid p place (place (.block here)) ((codes.flatten ++ term).map .instr ++ rest) ∧
    ∀ e ∈ edges, HasCopies p f place long e

/-- A label stands at its place, and what follows it stands there. -/
theorem laid_at {p : Program} {place : Mark → Nat} {ip : Nat} {front rest : List (Line Mark)}
    {m : Mark} (laid : Assembly.Laid p place ip (front ++ .bind m :: rest)) :
    Assembly.Laid p place (place m) rest := by
  obtain ⟨there, after⟩ := laid.append
  rwa [there]

theorem hasBlock_of_laid {p : Program} {place : Mark → Nat} {ip : Nat} {here : BlockId}
    {front body rest : List (Line Mark)} (made : blockCode f here = .ok body)
    (laid : Assembly.Laid p place ip (front ++ (body ++ rest))) :
    HasBlock p f place (front ++ (body ++ rest)).length here := by
  obtain ⟨b, codes, term, edges, copies, found, coded, shape, _, _, copied, rfl⟩ :=
    blockCode_eq_ok made
  rw [List.cons_append, List.append_assoc] at laid
  refine ⟨b, codes, term, edges, copies.flatten ++ rest, found, coded, shape, ?_, laid_at laid, ?_⟩
  · simp only [List.length_append, List.length_cons, List.length_map]
    omega
  · intro e member
    obtain ⟨lines, listed, copying⟩ := forall₂_partner copied member
    obtain ⟨before, after, split⟩ := List.append_of_mem listed
    obtain ⟨code, shaped, rfl⟩ := edgeCode_eq_ok copying
    refine ⟨code, after.flatten ++ rest, shaped, ?_, ?_⟩
    · rw [split]
      simp only [List.length_append, List.length_cons, List.flatten_append, List.flatten_cons,
        List.length_map, List.length_nil]
      omega
    · refine @laid_at p place ip (front ++ (.bind (.block here) ::
        ((codes.flatten ++ term).map .instr ++ before.flatten))) _ e.mark ?_
      rw [split] at laid
      simpa only [List.flatten_append, List.flatten_cons, List.append_assoc, List.cons_append]
        using laid

/-- A program has the code of a function: it starts with the code of the entry, and every block that
can be reached has its code. -/
structure Carries (p : Program) (f : Function) (place : Mark → Nat) (long : Nat) : Prop where
  entry : ∃ blocks code rest, f.allBlocks = .ok blocks ∧
    entryCode f (frameSize f.regTypes.size blocks) = .ok code ∧ code.length ≤ long ∧
    Assembly.Laid p place 0 (code.map .instr ++ .bind (.block f.entry) :: rest)
  block : ∀ here, f.Reachable here → HasBlock p f place long here

/-- The program that is made for a function has its code. -/
theorem carries_of_machineCode (numbered : f.WellNumbered) {code : List UInt8}
    (made : machineCode f = .ok code) (short : code.length < reach) :
    ∃ place long, Carries (Program.ofBytes code) f place long := by
  obtain ⟨ls, place, lined, laid⟩ := laid_of_machineCode numbered made short
  obtain ⟨blocks, entry, order, bodies, all, entered, ordered, coded, rfl⟩ := lines_eq_ok lined
  obtain ⟨order', ordered', _, reached⟩ := Function.reversePostorder_ok numbered
  rw [ordered] at ordered'
  cases ordered'
  refine ⟨place, (entry.map Line.instr ++ bodies.flatten).length, ?_, fun here reach => ?_⟩
  · obtain ⟨others, rfl⟩ := Function.reversePostorder_head numbered.entry ordered
    cases coded with
    | @cons _ body _ bodies first _ =>
      obtain ⟨_, codes, term, _, copies, _, _, _, _, _, _, rfl⟩ := blockCode_eq_ok first
      refine ⟨blocks, entry, ((codes.flatten ++ term).map Line.instr ++ copies.flatten) ++
        bodies.flatten, all, entered, ?_, laid⟩
      rw [List.length_append, List.length_map]
      omega
  · obtain ⟨body, listed, made⟩ := forall₂_partner coded ((reached here).mpr reach)
    obtain ⟨before, after, rfl⟩ := List.append_of_mem listed
    rw [List.flatten_append, List.flatten_cons, ← List.append_assoc] at laid ⊢
    exact hasBlock_of_laid made laid

end Whole

end TieredEngine.Native.X64.Baseline
