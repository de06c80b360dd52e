import TieredEngine.Proofs.Native.Convention
import TieredEngine.Proofs.Native.X64.Blocks

/-!
Entering code on the machine. The caller has put the arguments into their registers and a return
address on the stack; the code of the entry saves the base pointer, makes room for the slots and
stores the arguments, in the order in which the evaluator binds them. From there the blocks follow
the evaluator, so a call of the code returns what the evaluator returns.
-/
namespace TieredEngine.Native.X64
open TieredEngine TieredEngine.Ir TieredEngine.Eval

/-- A call has just been made: the stack pointer points to the word `top`, the return address. -/
structure State.Called (s : State) (top : Nat) : Prop where
  whole : s.Whole
  pointer : s.get .rsp = stackBase + UInt64.ofNat (8 * top)
  inside : top < s.stack.size
  small : s.stack.size ≤ 2048
  returns : s.stackWord top = returnAddress

/-- The code before the arguments are stored. -/
def prologue (frame : Nat) : Baseline.Code :=
  [.push .rbp, .alu .mov .rbp .rsp] ++ if 0 < frame then [.subRsp (Int32.ofNat frame)] else []

section Prologue

variable {s : State} {base : Nat}

/-- A frame is set up above which the caller's base pointer and the return address lie. The other
registers keep their words. -/
theorem State.Called.prologue (called : s.Called (base + 1)) (frame : Nat) (f : Function) :
    ∃ u, runStraight (prologue frame) s = .ok u ∧
      Activation.Mirrors ⟨f, base, s.get .rbp⟩ (Frame.fresh f) u ∧
      ∀ x, x ≠ .rsp → x ≠ .rbp → u.get x = s.get x := by
  have inside := called.inside
  have small := called.small
  -- the state after the base pointer is saved and set
  let t₁ := (s.set .rsp (stackBase + UInt64.ofNat (8 * base))).setStackWord base (s.get .rbp)
  let t₂ := t₁.set .rbp (t₁.get .rsp)
  have pushed : s.push (s.get .rbp) = .ok t₁ :=
    State.push_index (by omega) small called.pointer (s.get .rbp)
  have whole₁ : t₁.Whole := (State.whole_set (s := s) .rsp _).mpr called.whole
  have get₁ : ∀ x, t₁.get x =
      if x = .rsp then stackBase + UInt64.ofNat (8 * base) else s.get x := fun x =>
    State.get_set called.whole .rsp _ x
  have get₂ : ∀ x, t₂.get x = if x = .rbp then stackBase + UInt64.ofNat (8 * base) else t₁.get x := by
    intro x
    rw [State.get_set whole₁, get₁ .rsp, if_pos rfl]
  have words : ∀ j, t₂.stackWord j = if j = base then s.get .rbp else s.stackWord j := fun j =>
    State.stackWord_setStackWord (s := s.set .rsp _) (by simpa using (by omega : base < s.stack.size))
      (s.get .rbp) j
  have size : t₂.stack.size = s.stack.size := by
    simp [t₂, t₁, State.set, State.setStackWord]
  have mirrors : Activation.Mirrors ⟨f, base, s.get .rbp⟩ (Frame.fresh f) t₂ := by
    refine ⟨rfl, by simp [Frame.Sized, Frame.fresh], ⟨(State.whole_set _ _).mpr whole₁, ?_, ?_, ?_⟩,
      ?_, ?_, ?_, ?_⟩
    · rw [get₂, if_pos rfl]
    · rw [size]
      exact Nat.lt_of_succ_lt inside
    · rw [size]
      exact small
    · rw [size]
      exact inside
    · rw [words, if_pos rfl]
    · rw [words, if_neg (Nat.succ_ne_self base), called.returns]
    · intro r v held
      rw [Frame.reg?_fresh] at held
      cases held
  have others : ∀ x, x ≠ .rsp → x ≠ .rbp → t₂.get x = s.get x := by
    intro x notTop notBase
    rw [get₂, if_neg notBase, get₁, if_neg notTop]
  have started : runStraight ([.push .rbp, .alu .mov .rbp .rsp] : Baseline.Code) s = .ok t₂ := by
    have first : ((Instr.push .rbp : Instr Baseline.Mark).mapTarget fun _ => (0 : Int32)).step s =
        .ok t₁ := pushed
    rw [runStraight_cons first]
    rfl
  unfold X64.prologue
  rw [runStraight_append started]
  split
  · refine ⟨_, rfl, mirrors.keeps ((State.Keeps.set (.refl mirrors.frame.whole) (by decide) _).withFlags _), ?_⟩
    intro x notTop notBase
    have there := State.get_set mirrors.frame.whole .rsp
      (t₂.get .rsp - (Int32.ofNat frame).toInt64.toUInt64) x
    rw [if_neg notTop, others x notTop notBase] at there
    exact there
  · exact ⟨t₂, rfl, mirrors, others⟩

end Prologue

section Parameters

/-- The argument of a parameter is in its register, in normal form. -/
structure Passed (f : Function) (s : State) (position : Nat) (v : Value) : Prop where
  normal : v.Normal
  word : v.ty.isIntLike = true
  type : f.sig.params[position]? = some v.ty
  held : ∃ r, X64.Reg.arguments[position]? = some r ∧ s.get r = v.bits

variable {a : Activation} {spares : Nat} {fr g : Frame} {s : State}

theorem arguments_ne {i j : Nat} {x y : X64.Reg} (first : X64.Reg.arguments[i]? = some x)
    (second : X64.Reg.arguments[j]? = some y) (different : i ≠ j) : y ≠ x := by
  rintro rfl
  have inside : i < X64.Reg.arguments.length := (List.getElem?_eq_some_iff.mp first).1
  exact different ((List.getElem?_inj inside (by decide)).mp (first.trans second.symm))

/-- One argument is brought to normal form, which it is in already, and stored. -/
theorem Activation.Mirrors.param (mirrors : a.Mirrors fr s) (fits : a.Fits spares) {position : Nat}
    {p : Ir.Reg} {code : Baseline.Code}
    (made : Baseline.paramCode a.function position p = .ok code) {v : Value}
    (passed : Passed a.function s position v) (written : fr.set p v = .ok g) :
    ∃ u, runStraight code s = .ok u ∧ a.Mirrors g u ∧
      ∀ j w, j ≠ position → Passed a.function s j w → Passed a.function u j w := by
  obtain ⟨r, at_r, more⟩ := bind_eq_ok.mp made
  obtain ⟨t, at_t, ⟨⟩⟩ := bind_eq_ok.mp more
  have at_r := Crash.index_eq_ok.mp (Crash.lift_eq_ok.mp at_r)
  have at_t := Crash.index_eq_ok.mp (Crash.lift_eq_ok.mp at_t)
  cases at_t.symm.trans passed.type
  obtain ⟨r', same, held⟩ := passed.held
  cases at_r.symm.trans same
  have away : r ≠ .rbp := by
    have member := List.mem_of_getElem? at_r
    revert member
    cases r <;> decide
  obtain ⟨u, ran, keeps, normal, others⟩ := normalize_runs passed.word away mirrors.frame.whole
  have own : u.get r = v.bits := by rw [normal, held, passed.normal]
  have mirrored := mirrors.keeps keeps
  obtain ⟨known, _⟩ := Frame.set_eq_ok.mp written
  rw [mirrors.function] at known
  have below : p.num < a.base := by
    have room := fits.room
    have inside := Activation.regType?_lt known
    omega
  have stored : ((Instr.store (Baseline.slot p) r : Instr Baseline.Mark).mapTarget
      fun _ => (0 : Int32)).step u = .ok (u.setSlot a.base p.num (u.get r)) :=
    mirrored.frame.store below r
  refine ⟨u.setSlot a.base p.num (u.get r), ?_, own ▸ mirrored.set fits passed.normal written, ?_⟩
  · rw [runStraight_append ran, runStraight_cons stored]
    rfl
  · rintro j w different ⟨normal', word, type, x, at_x, held'⟩
    refine ⟨normal', word, type, x, at_x, ?_⟩
    show u.get x = w.bits
    rw [others x (arguments_ne at_r at_x (Ne.symm different)), held']

/-- All arguments are stored as the evaluator binds them. -/
theorem Activation.Mirrors.params (mirrors : a.Mirrors fr s) (fits : a.Fits spares)
    {ps : List (Nat × Ir.Reg)} {codes : List Baseline.Code}
    (coded : List.Forall₂ (fun p code => Baseline.paramCode a.function p.1 p.2 = .ok code) ps codes)
    (distinct : (ps.map (·.1)).Nodup) {args : List Value}
    (passed : List.Forall₂ (fun p v => Passed a.function s p.1 v) ps args) {entry : BlockId}
    (bound : bindParams entry fr (ps.map (·.2)) args = .ok g) :
    ∃ u, runStraight codes.flatten s = .ok u ∧ a.Mirrors g u := by
  induction coded generalizing fr s args with
  | nil =>
    cases bound
    exact ⟨s, rfl, mirrors⟩
  | @cons p code ps codes head _ ih =>
    cases passed with
    | @cons _ v _ args first rest =>
      obtain ⟨fresh, distinct⟩ := List.nodup_cons.mp distinct
      simp only [List.map_cons, bindParams] at bound
      cases written : fr.set p.2 v with
      | error e => simp [written] at bound
      | ok fr₁ =>
        rw [written] at bound
        obtain ⟨u, ran, mirrored, others⟩ := mirrors.param fits head first written
        have rest' : List.Forall₂ (fun p v => Passed a.function u p.1 v) ps args := by
          obtain ⟨length, each⟩ := List.forall₂_iff_zip.mp rest
          refine List.forall₂_iff_zip.mpr ⟨length, fun {q w} paired => others q.1 w ?_ (each paired)⟩
          intro same
          exact fresh (List.mem_map.mpr ⟨q, (List.of_mem_zip paired).1, same⟩)
        obtain ⟨t, more, mirrored'⟩ := ih mirrored distinct rest' bound
        refine ⟨t, ?_, mirrored'⟩
        rw [List.flatten_cons, runStraight_append ran]
        exact more

end Parameters

/-- The code of the entry on the machine, beside the evaluator's frame with the arguments bound. -/
theorem State.Called.entry {f : Function} {base spares frame : Nat} {s : State}
    (called : s.Called (base + 1)) (fits : Activation.Fits ⟨f, base, s.get .rbp⟩ spares)
    {code : Baseline.Code} (made : Baseline.entryCode f frame = .ok code) {args : List Value}
    (passed : List.Forall₂ (fun n v => Passed f s n v) (List.range f.params.length) args)
    {fr : Frame} {entry : BlockId} (bound : bindParams entry (.fresh f) f.params args = .ok fr) :
    ∃ u, runStraight code s = .ok u ∧ Activation.Mirrors ⟨f, base, s.get .rbp⟩ fr u := by
  obtain ⟨codes, coded, same⟩ := bind_eq_ok.mp made
  cases same
  obtain ⟨t, ran, mirrors, others⟩ := called.prologue frame f
  have kept : ∀ n v, Passed f s n v → Passed f t n v := by
    rintro n v ⟨normal, word, type, r, at_r, held⟩
    have member := List.mem_of_getElem? at_r
    refine ⟨normal, word, type, r, at_r, (others r ?_ ?_).trans held⟩
    · rintro rfl
      revert member
      decide
    · rintro rfl
      revert member
      decide
  have numbers : (f.params.mapIdx fun i p => (i, p)).map (·.1) = List.range f.params.length :=
    List.ext_getElem (by simp) (by simp)
  have registers : (f.params.mapIdx fun i p => (i, p)).map (·.2) = f.params :=
    List.ext_getElem (by simp) (by simp)
  have all : List.Forall₂ (fun p v => Passed f t p.1 v) (f.params.mapIdx fun i p => (i, p)) args := by
    rw [← numbers, List.forall₂_map_left_iff] at passed
    exact passed.imp fun p v held => kept p.1 v held
  obtain ⟨u, more, mirrored⟩ := mirrors.params fits (mapM_eq_ok.mp coded)
    (numbers ▸ List.nodup_range) all (registers.symm ▸ bound)
  refine ⟨u, ?_, mirrored⟩
  have whole := @runStraight_append _ _ codes.flatten _ _ ran
  rw [more] at whole
  exact whole

section Calls

variable {m : Module} {f : Function} {c : CompiledCode}

/-- A frame that the generator accepts has room for the slots and the phis of every block. -/
theorem Baseline.Accepts.room (accepts : Baseline.Accepts f c) :
    ∃ spares, f.regTypes.size + spares ≤ 2000 ∧
      ∀ id b, f.block? id = some b → b.phis.length ≤ spares := by
  obtain ⟨blocks, all, bound⟩ := accepts.frame
  refine ⟨mostPhis blocks, ?_, fun id b found => length_phis_le (Function.mem_of_block? all found)⟩
  rw [frameSize_eq, maxFrame] at bound
  omega

/-- The types of registers are those of words. -/
theorem Baseline.Accepts.isFloat (accepts : Baseline.Accepts f c) {r : Ir.Reg} {t : Ty}
    (known : f.regType? r = some t) : t.isFloat = false := by
  rcases accepts.words r t known with rfl | int
  · rfl
  · cases t <;> first | rfl | cases int

/-- Code that is called in a state with the arguments passed answers the evaluator's run of the
body, with at most so many instructions for each block. -/
theorem Baseline.Accepts.answers (accepts : Baseline.Accepts f c) (numbered : f.WellNumbered)
    (consts : Constants Value.Normal f) (short : c.code.length < reach) :
    ∃ pace, ∀ (κ ε : Type) (base : Nat) (s : State) (args : List Value) (fr : Frame)
      (call : Call κ ε) (known : FuncId → Bool) (fuel : Nat) (w : World κ), 2000 ≤ base →
      s.Called (base + 1) → s.ip = 0 →
      List.Forall₂ (fun n v => Passed f s n v) (List.range f.params.length) args →
      bindParams f.entry (.fresh f) f.params args = .ok fr →
      (Frame.run call known fuel fr w none f.entry).world = w ∧
      Activation.Answers ⟨f, base, s.get .rbp⟩ (Program.ofBytes c.code) s (pace * (fuel + 1))
        (Frame.run call known fuel fr w none f.entry).result := by
  obtain ⟨place, long, carries⟩ := Baseline.carries_of_machineCode numbered accepts.code short
  obtain ⟨blocks, code, rest, _, made, _, laid⟩ := carries.entry
  obtain ⟨spares, room, phis⟩ := accepts.room
  refine ⟨code.length + 2 * long, ?_⟩
  intro κ ε base s args fr call known fuel w deep called start passed bound
  have lowered : Activation.Lowered ⟨f, base, s.get .rbp⟩ (Program.ofBytes c.code) place long spares :=
    ⟨numbered, carries, ⟨by dsimp only; omega, fun r t known => accepts.isFloat known⟩, phis,
      accepts.insts, consts⟩
  obtain ⟨t, ran, mirrors⟩ := called.entry lowered.fits made passed bound
  rw [← start] at laid
  obtain ⟨ip, steps, after⟩ := laid.straight
    (fun i member => (Baseline.plain_entryCode made i member).1) ran
  obtain ⟨b, present⟩ := numbered.present f.entry numbered.entry
  have arriving : Arriving (Program.ofBytes c.code) f place long none f.entry ip :=
    ⟨b, present, .inl ⟨.inr rfl, after.1.symm⟩⟩
  obtain ⟨same, answers, _⟩ := lowered.run call known fuel (mirrors.moved ip) .entry arriving w
  refine ⟨same, answers.after steps ?_⟩
  rw [Nat.add_mul, Nat.mul_comm (2 * long)]
  have one : code.length ≤ code.length * (fuel + 1) := Nat.le_mul_of_pos_right _ (Nat.succ_pos _)
  have two : fuel * (2 * long) ≤ (fuel + 1) * (2 * long) := Nat.mul_le_mul_right _ (Nat.le_succ _)
  omega

end Calls

section Calling

/-- Registers that are set one after the other, each once. -/
theorem get_foldl_set {pairs : List (X64.Reg × UInt64)} (distinct : (pairs.map (·.1)).Nodup)
    {s : State} (whole : s.Whole) :
    let t := pairs.foldl (fun s (r, w) => s.set r w) s
    t.Whole ∧ t.stack = s.stack ∧ t.ip = s.ip ∧
      (∀ r, r ∉ pairs.map (·.1) → t.get r = s.get r) ∧ ∀ r w, (r, w) ∈ pairs → t.get r = w := by
  induction pairs generalizing s with
  | nil => exact ⟨whole, rfl, rfl, fun _ _ => rfl, by simp⟩
  | cons p pairs ih =>
    obtain ⟨fresh, distinct⟩ := List.nodup_cons.mp distinct
    obtain ⟨whole', stack, ip, others, own⟩ := ih distinct ((State.whole_set p.1 p.2).mpr whole)
    refine ⟨whole', stack, ip, fun r absent => ?_, fun r w member => ?_⟩
    · rw [List.map_cons, List.mem_cons, not_or] at absent
      rw [List.foldl_cons]
      exact (others r absent.2).trans (by rw [State.get_set whole, if_neg absent.1])
    · rw [List.foldl_cons]
      rcases List.mem_cons.mp member with rfl | later
      · exact (others r fresh).trans (by rw [State.get_set whole, if_pos rfl])
      · exact own r w later

/-- A caller lends its stack up to the word `top`, the one that its stack pointer points to. -/
structure State.Lends (caller : State) (top : Nat) : Prop where
  whole : caller.Whole
  pointer : caller.get .rsp = stackBase + UInt64.ofNat (8 * top)
  inside : top ≤ caller.stack.size
  small : caller.stack.size ≤ 2048

/-- So many of the argument words are in their registers. -/
def State.Given (s : State) (words : Convention.Words) (count : Nat) : Prop :=
  ∀ (n : Nat) (r : X64.Reg) (w : UInt64), n < count → X64.Reg.arguments[n]? = some r →
    words.ints[n]? = some w → s.get r = w

/-- The state in which a call starts: the words are in the argument registers, and the base pointer
is the caller's. -/
theorem State.Lends.calling {caller : State} {top : Nat} (lends : caller.Lends (top + 1))
    {words : Convention.Words} (size : words.ints.size = 8) :
    (caller.calling words).Called top ∧ (caller.calling words).ip = 0 ∧
      (∀ count, (caller.calling words).Given words count) ∧
      (caller.calling words).get .rbp = caller.get .rbp := by
  have small := lends.small
  have inside := lends.inside
  let pairs := X64.Reg.arguments.zip words.ints.toList
  let filled := pairs.foldl (fun s (r, w) => s.set r w) caller
  have first : pairs.map (·.1) = X64.Reg.arguments :=
    List.map_fst_zip (by simp [size, X64.Reg.arguments])
  have distinct : (pairs.map (·.1)).Nodup := by
    rw [first]
    decide
  obtain ⟨whole, stack, -, others, own⟩ := get_foldl_set distinct lends.whole
  have pointer : caller.get .rsp - 8 = stackBase + UInt64.ofNat (8 * top) := by
    rw [lends.pointer, ← State.stackBase_next, UInt64.add_sub_cancel]
  have index : (caller.get .rsp - 8 - stackBase).toNat / 8 = top := by
    rw [pointer, State.stackBase_offset (by omega)]
    omega
  have registers : ∀ x, (caller.calling words).get x =
      if x = .rsp then caller.get .rsp - 8 else filled.get x := fun x =>
    State.get_set whole .rsp _ x
  have length : (caller.calling words).stack.size = caller.stack.size := by
    show ((filled.set .rsp _).setStackWord _ _).stack.size = _
    simp [State.setStackWord, filled, stack]
  refine ⟨⟨(State.whole_set _ _).mpr whole, ?_, by omega, by omega, ?_⟩, rfl, ?_, ?_⟩
  · rw [registers, if_pos rfl, pointer]
  · show ((filled.set .rsp _).setStackWord _ _).stackWord top = _
    rw [index]
    refine (State.stackWord_setStackWord ?_ _ top).trans (if_pos rfl)
    rw [State.stack_set, show filled.stack = caller.stack from stack]
    omega
  · intro count n r w _ at_r at_w
    have away : r ≠ .rsp := by
      rintro rfl
      have member := List.mem_of_getElem? at_r
      revert member
      decide
    rw [registers, if_neg away]
    refine own r w (List.mem_of_getElem? (i := n) ?_)
    simp [pairs, List.getElem?_zip_eq_some, at_r, at_w]
  · rw [registers, if_neg (by decide)]
    exact others .rbp (by rw [first]; decide)

theorem lends_idle : State.idle.Lends 2040 where
  whole := by simp [State.Whole, State.idle]
  pointer := by decide
  inside := by simp [State.idle, stackBytes]
  small := by simp [State.idle, stackBytes]

end Calling

section Simulation

variable {m : Module} {f : Function} {c : CompiledCode}

/-- Arguments of the signature are passed in a state that has their words in the registers. -/
theorem Baseline.Accepts.passed (accepts : Baseline.Accepts f c) (numbered : f.WellNumbered)
    (params : f.params.length = f.sig.params.length ∧ ∀ p ∈ f.params, (f.regType? p).isSome = true)
    {args : List Value} (matching : args.map (·.ty) = f.sig.params)
    (normal : ∀ v ∈ args, NormalWord v) :
    ∃ convention words, c.convention = some convention ∧ convention.sig = f.sig ∧
      convention.marshal args = .ok words ∧ words.ints.size = 8 ∧ ∀ s : State,
        s.Given words args.length →
        List.Forall₂ (fun n v => Passed f s n v) (List.range f.params.length) args := by
  have typed := Function.wellTyped_of_typed numbered accepts.internal accepts.typed
  have declared := params_of_wellTyped typed params matching
  obtain ⟨convention, placed, chosen⟩ := accepts.convention
  have floatless : ∀ t ∈ f.sig.params, t.isFloat = false := by
    intro t member
    rw [← matching] at member
    obtain ⟨v, given, rfl⟩ := List.mem_map.mp member
    obtain ⟨p, _, known⟩ := forall₂_partner declared.flip given
    exact accepts.isFloat known
  obtain ⟨same, _, few, ints⟩ := Convention.ofSignature_words placed floatless
  obtain ⟨words, marshalled, size, held⟩ := Convention.marshal_words placed floatless matching
  refine ⟨convention, words, chosen, same, marshalled, size, fun s given =>
    List.forall₂_iff_get.mpr ⟨?_, ?_⟩⟩
  · rw [List.length_range, declared.length_eq]
  · intro n first second
    have at_n : args[n]? = some (args.get ⟨n, second⟩) := List.getElem?_eq_getElem second
    have type : f.sig.params[n]? = some (args.get ⟨n, second⟩).ty := by
      rw [← matching, List.getElem?_map, at_n]
      rfl
    obtain ⟨r, at_r⟩ : ∃ r, X64.Reg.arguments[n]? = some r := by
      have inside : n < f.sig.params.length := (List.getElem?_eq_some_iff.mp type).1
      have six : X64.Reg.arguments.length = 6 := rfl
      unfold maxIntArgs at few
      exact ⟨_, List.getElem?_eq_getElem (by omega)⟩
    rw [List.get_eq_getElem, List.getElem_range]
    exact ⟨normal _ (List.get_mem args ⟨n, second⟩) (floatless _ (List.mem_of_getElem? type)),
      ints _ (List.mem_of_getElem? type), type, r, at_r, given n r _ second at_r (held n _ at_n)⟩

/-- A result in normal form comes back from the register that holds its word. -/
theorem unmarshal_bits {convention : Convention} {v : Value} (type : convention.sig.ret = v.ty)
    (word : v.ty = .void ∨ v.ty.isIntLike = true) (normal : v.Normal) (x : UInt64) :
    convention.unmarshal v.bits x = v := by
  have back := Value.ofBits_bits normal
  unfold Convention.unmarshal
  rw [type]
  rcases word with void | int
  · rw [void] at back ⊢
    exact back
  · have float : v.ty.isFloat = false := by
      revert int
      cases v.ty <;> decide
    split
    · next void =>
      rw [void] at int
      cases int
    · rw [float]
      exact back

/-- What code that is called in a state does, with so much fuel, for the result of the evaluator's run
of the body: it comes back to the caller with the value, the stack and the base pointer being the
caller's again, or it stops where control was not meant to come. -/
def Simulates {ε : Type} (f : Function) (p : Program) (convention : Convention) (s : State)
    (fuel : Nat) : Except (Halt ε) Value → Prop
  | .ok v => ∃ t, p.run fuel s = some (.returned, t) ∧ t.get .rsp = s.get .rsp + 8 ∧
    t.get .rbp = s.get .rbp ∧ ∀ x, convention.unmarshal (t.get .rax) x = v
  | .error (.fault e) => e.function = f.name ∧ (Activation.Unchecked e ∨
    e.cause.kind = .unreachable ∧ ∃ t, p.run fuel s = some (.trapped, t))
  | .error .outOfFuel => True
  | .error _ => False

/-- Code that the generator has made simulates the evaluator's runs of the function, whatever else
its caller's registers and stack hold, at a pace that depends on the code only. -/
theorem Baseline.Accepts.simulates (accepts : Baseline.Accepts f c) (numbered : f.WellNumbered)
    (params : f.params.length = f.sig.params.length ∧ ∀ p ∈ f.params, (f.regType? p).isSome = true)
    (consts : Constants Value.Normal f) (short : c.code.length < reach) :
    ∃ pace, ∀ (κ ε : Type) (args : List Value) (fr : Frame) (call : Call κ ε)
      (known : FuncId → Bool) (fuel steps : Nat) (w : World κ), args.map (·.ty) = f.sig.params →
      (∀ v ∈ args, NormalWord v) → bindParams f.entry (.fresh f) f.params args = .ok fr →
      pace * (fuel + 1) ≤ steps →
      (Frame.run call known fuel fr w none f.entry).world = w ∧
      ∃ convention words, c.convention = some convention ∧ convention.marshal args = .ok words ∧
        words.ints.size = 8 ∧ ∀ (top : Nat) (s : State), 2000 < top → s.Called top → s.ip = 0 →
          s.Given words args.length → Simulates f (Program.ofBytes c.code) convention s steps
            (Frame.run call known fuel fr w none f.entry).result := by
  obtain ⟨pace, answered⟩ := accepts.answers numbered consts short
  refine ⟨pace, ?_⟩
  intro κ ε args fr call known fuel steps w matching normal bound enough
  obtain ⟨convention, words, chosen, same, marshalled, size, passed⟩ :=
    accepts.passed numbered params matching normal
  obtain ⟨called, start, given, -⟩ := lends_idle.calling size
  have world := (answered κ ε 2038 _ args fr call known fuel w (by omega) called start
    (passed _ (given _)) bound).1
  refine ⟨world, convention, words, chosen, marshalled, size, fun top s deep called start given => ?_⟩
  obtain ⟨base, rfl⟩ : ∃ base, top = base + 1 := ⟨top - 1, by omega⟩
  have answers := (answered κ ε base s args fr call known fuel w (by omega) called start
    (passed s given) bound).2
  generalize (Frame.run call known fuel fr w none f.entry).result = result at answers
  have ends : ∀ {n : Nat} {u : State} {stop : Stop × State}, n + 1 ≤ pace * (fuel + 1) →
      (Program.ofBytes c.code).Steps n s u → (Program.ofBytes c.code).step u = .error stop →
      (Program.ofBytes c.code).run steps s = some stop := by
    intro n u stop within walked stopped
    have ran : (Program.ofBytes c.code).run (n + 1) s = some stop := by
      rw [walked.run, Program.run, stopped]
    exact Program.run_mono ran (Nat.le_trans within enough)
  cases result with
  | ok v =>
    obtain ⟨normal, type, n, u, x, within, walked, stopped, result, base, top⟩ := answers
    refine ⟨x, ends within walked stopped, ?_, base, fun y => ?_⟩
    · rw [top, called.pointer, State.stackBase_next]
    · rw [result]
      exact unmarshal_bits (by rw [same, type]) (type ▸ accepts.result) normal y
  | error h =>
    cases h with
    | fault e =>
      obtain ⟨named, unchecked | ⟨kind, n, u, x, within, walked, stopped⟩⟩ := answers
      · exact ⟨named, .inl unchecked⟩
      · exact ⟨named, .inr ⟨kind, x, ends within walked stopped⟩⟩
    | outOfFuel => trivial
    | host g r => exact answers
    | crash k => exact answers
    | other e => exact answers

/-- The code of a function simulates the evaluator. Where a run of the function returns a value, the
code returns to every caller that has put the arguments into their registers and lends the stack that
a frame can take, whatever the caller's other registers, its flags and the words of its stack are:
with the caller's stack and base pointers, and with the value in the result register. Jumps reach
code of less than two gibibytes; the assembler writes longer ones without a check. -/
theorem compiled_simulates {κ ε : Type} (accepted : m.defects = .ok []) {id : FuncId}
    (found : m.function? id = some f) (made : Baseline.compile f = .ok c)
    (consts : Constants Value.Normal f) (short : c.code.length < reach) {args : List Value}
    (matching : args.map (·.ty) = f.sig.params) (normal : ∀ v ∈ args, v.Normal) (setup : Setup)
    (fuel depth : Nat) (w : World κ) {v : Value}
    (returned : (runAt (ε := ε) setup m fuel depth id args w).result = .ok v) :
    ∃ convention words steps, c.convention = some convention ∧ convention.marshal args = .ok words ∧
      words.ints.size = 8 ∧ ∀ (top : Nat) (s : State), 2000 < top → s.Called top → s.ip = 0 →
        s.Given words args.length →
        ∃ t, (Program.ofBytes c.code).run steps s = some (.returned, t) ∧
          t.get .rsp = s.get .rsp + 8 ∧ t.get .rbp = s.get .rbp ∧
          ∀ x, convention.unmarshal (t.get .rax) x = v := by
  have accepts := Baseline.accepts_of_compile made
  have clean := (Module.function_of_accepted accepted found).1
  have numbered := (Function.wellNumbered_of_defects clean accepts.internal).1
  obtain ⟨pace, simulated⟩ := accepts.simulates numbered
    (Function.params_of_defects clean accepts.internal) consts short
  cases fuel with
  | zero => cases returned
  | succ fuel =>
    obtain ⟨fr, globals, bound, ran⟩ := (enter_cases found args w).body accepts.internal returned
    obtain ⟨_, convention, words, chosen, marshalled, size, simulates⟩ := simulated κ ε args fr _ _
      fuel _ { w with globals } matching (fun v member _ => normal v member) bound (Nat.le_refl _)
    rw [ran] at simulates
    exact ⟨convention, words, _, chosen, marshalled, size, simulates⟩

/-- Fibonacci numbers modulo 256. The phis of the loop exchange their registers. -/
def fibonacci : Function := {
  name := "fibonacci"
  sig := { params := [.u8], ret := .u8 }
  params := [⟨0⟩]
  regTypes := Array.replicate 8 .u8
  blocks := #[
    some { id := ⟨0⟩, insts := [{ op := .const, dest := ⟨1⟩, ty := .u8, const := .ofInt .u8 0 },
                                { op := .const, dest := ⟨2⟩, ty := .u8, const := .ofInt .u8 1 }],
           term := .br ⟨1⟩ },
    some { id := ⟨1⟩,
           phis := [{ dest := ⟨3⟩, ty := .u8, incoming := [⟨⟨0⟩, ⟨0⟩⟩, ⟨⟨2⟩, ⟨7⟩⟩] },
                    { dest := ⟨4⟩, ty := .u8, incoming := [⟨⟨0⟩, ⟨1⟩⟩, ⟨⟨2⟩, ⟨5⟩⟩] },
                    { dest := ⟨5⟩, ty := .u8, incoming := [⟨⟨0⟩, ⟨2⟩⟩, ⟨⟨2⟩, ⟨6⟩⟩] }],
           term := .condBr ⟨3⟩ ⟨2⟩ ⟨3⟩ },
    some { id := ⟨2⟩, insts := [{ op := .add, dest := ⟨6⟩, ty := .u8, args := [⟨4⟩, ⟨5⟩] },
                                { op := .sub, dest := ⟨7⟩, ty := .u8, args := [⟨3⟩, ⟨2⟩] }],
           term := .br ⟨1⟩ },
    some { id := ⟨3⟩, term := .ret (some ⟨4⟩) }] }

/-- A caller in the middle of its own work. -/
def busy : State := {
  regs := (Array.replicate 16 7).setIfInBounds X64.Reg.rsp.code (stackBase + UInt64.ofNat (8 * 2030))
  flags := some ⟨true, false, true⟩
  stack := Array.replicate 2048 9
  ip := 11 }

theorem lends_busy : busy.Lends 2030 where
  whole := by simp [State.Whole, busy]
  pointer := by decide
  inside := by simp [busy]
  small := by simp [busy]

theorem compiled_simulates_fibonacci : ∃ c convention words steps t,
    Baseline.compile fibonacci = .ok c ∧ c.convention = some convention ∧
      convention.marshal [.ofInt .u8 14] = .ok words ∧
      (Program.ofBytes c.code).callFrom busy steps words = some (.returned, t) ∧
      t.get .rbp = 7 ∧ convention.unmarshal (t.get .rax) 0 = .ofInt .u8 121 := by
  obtain ⟨c, made, short⟩ : ∃ c, Baseline.compile fibonacci = .ok c ∧ c.code.length < reach := by
    have some : (Baseline.compile fibonacci).toOption.any (·.code.length < 2 ^ 31) = true := by
      decide +kernel
    cases made : Baseline.compile fibonacci with
    | ok c => exact ⟨c, rfl, by simpa [made, Except.toOption, reach] using some⟩
    | error e => simp [made, Except.toOption] at some
  have consts : Constants Value.Normal fibonacci := by
    intro id b _ found i member _
    have normal : ∀ b? ∈ fibonacci.blocks, ∀ b, b? = some b → ∀ i ∈ b.insts,
        normalize i.const.ty i.const.bits = i.const.bits := by decide +kernel
    exact normal _ (Array.mem_of_getElem? (Function.block?_eq_some.mp found)) b rfl i member
  have returned : (runAt {} { functions := #[fibonacci] } 40 0 ⟨0⟩ [.ofInt .u8 14]
      (⟨#[], [], ()⟩ : World Unit) : Frame.Finished Unit Unit).result = .ok (.ofInt .u8 121) := by
    decide +kernel
  obtain ⟨convention, words, steps, chosen, marshalled, size, answers⟩ :=
    compiled_simulates (m := { functions := #[fibonacci] }) (by decide +kernel) rfl made consts short
      (by decide) (List.forall_mem_singleton.mpr (Value.normal_ofBits _ _)) {} 40 0 _ returned
  obtain ⟨called, start, given, base⟩ := lends_busy.calling size
  obtain ⟨t, ran, -, restored, result⟩ := answers 2029 _ (by decide) called start (given _)
  exact ⟨c, convention, words, steps, t, made, chosen, marshalled, ran,
    restored.trans (base.trans (by decide)), result 0⟩

end Simulation

end TieredEngine.Native.X64
