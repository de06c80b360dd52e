import TieredEngine.Proofs.Native.X64.Acceptance
import TieredEngine.Proofs.Native.X64.Edges

/-!
Blocks on the machine. From the place where a block is entered, the machine runs the copies for its
phis, its instructions and its terminator, and stops or comes to the place where the next block is
entered, whenever the evaluator stops or goes there. A run of blocks follows by induction.
-/
namespace TieredEngine.Native.X64
open TieredEngine TieredEngine.Ir TieredEngine.Eval

/-- Where the machine is when a block is entered: at the block, or at the copies on the way. -/
def Arriving (p : Program) (f : Function) (place : Baseline.Mark → Nat) (long : Nat)
    (prev : Option BlockId) (cur : BlockId) (ip : Nat) : Prop :=
  ∃ b, f.block? cur = some b ∧
    ((b.phis = [] ∨ prev = none) ∧ ip = place (.block cur) ∨
      ∃ e : Baseline.Edge, prev = some e.source ∧ e.target = cur ∧ ip = place e.mark ∧
        Baseline.HasCopies p f place long e)

namespace Activation

/-- The machine has returned a word to the caller, whose base pointer it has restored. -/
structure Returned (a : Activation) (w : UInt64) (s : State) : Prop where
  result : s.get .rax = w
  base : s.get .rbp = a.caller
  top : s.get .rsp = stackBase + UInt64.ofNat (8 * (a.base + 2))

variable {a : Activation} {spares long : Nat} {fr g : Frame} {s t : State} {p : Program}
  {place : Baseline.Mark → Nat}

/-- Entering a block writes its phis and comes to its code. -/
theorem Mirrors.enter (mirrors : a.Mirrors fr s) (fits : a.Fits spares) {b : Block}
    (many : b.phis.length ≤ spares) {prev : Option BlockId} {cur : BlockId}
    (found : a.function.block? cur = some b)
    (arriving : Arriving p a.function place long prev cur s.ip)
    (applied : fr.applyPhis b prev = .ok g) :
    ∃ n u, n ≤ long ∧ p.Steps n s u ∧ a.Mirrors g u ∧ u.ip = place (.block cur) := by
  obtain ⟨b', found', arrived⟩ := arriving
  rw [found] at found'
  cases found'
  unfold Frame.applyPhis at applied
  rcases arrived with ⟨straight, there⟩ | ⟨e, rfl, rfl, there, copies, rest, shape, short, laid⟩
  · have empty : b.phis = [] := by
      rcases straight with empty | rfl
      · exact empty
      · split at applied
        · next empty => exact List.isEmpty_iff.mp empty
        · cases applied
    rw [empty, List.isEmpty_nil, if_pos rfl] at applied
    cases applied
    exact ⟨0, s, Nat.zero_le _, rfl, mirrors, there⟩
  · rw [← there, List.map_append, List.append_assoc] at laid
    have resolved : fr.resolvePhis b (some e.source) = .ok g := by
      split at applied
      · next empty =>
        cases applied
        unfold Frame.resolvePhis
        rw [List.isEmpty_iff.mp empty]
        rfl
      · exact applied
    rw [found] at shape
    obtain ⟨t, ran, mirrored⟩ := mirrors.copies fits many shape resolved
    obtain ⟨ip, steps, after⟩ := laid.straight
      (fun i member => (Baseline.plain_copies shape i member).1) ran
    have jumped := @Assembly.Laid.jmp _ _ _ _ _ { t with ip } after
    exact ⟨_, _, short, steps.trans (.one jumped), (mirrored.moved ip).moved _, rfl⟩

section Terminators

variable {cur : BlockId} {b : Block} {edges : List Baseline.Edge} {rest : List (Line Baseline.Mark)}

/-- A mark that leads to a block is where the block is entered. -/
theorem arriving_of_leads (number : b.id = cur)
    (has : ∀ e ∈ edges, Baseline.HasCopies p a.function place long e) {m : Baseline.Mark}
    {next : BlockId} (leads : Baseline.Leads a.function edges b m next) :
    Arriving p a.function place long (some cur) next (place m) := by
  obtain ⟨target, found, direct | copied⟩ := leads
  · obtain ⟨empty, rfl⟩ := direct
    exact ⟨target, found, .inl ⟨.inl empty, rfl⟩⟩
  · exact ⟨target, found, .inr ⟨_, by rw [number], rfl, rfl, has _ copied⟩⟩

/-- Testing a word and jumping if it is not zero. -/
theorem Mirrors.test (mirrors : a.Mirrors fr s) {r : Ir.Reg} {v : Value}
    (held : fr.reg? r = some v) {m : Baseline.Mark}
    (laid : Assembly.Laid p place s.ip (([.load .rax (Baseline.slot r), .alu .test .rax .rax,
      .jcc .ne m] : Baseline.Code).map .instr ++ rest)) :
    ∃ u, p.Steps 3 s u ∧ a.Mirrors fr u ∧
      if v.toBool then u.ip = place m else Assembly.Laid p place u.ip rest := by
  obtain ⟨holds, _⟩ := mirrors.held r v held
  have whole := mirrors.frame.whole
  have keeps := (State.Keeps.refl whole).set (by decide : X64.Reg.rax ≠ .rbp) v.bits
  let t : State := { s.set .rax v.bits with flags := some (.ofWord (v.bits &&& v.bits)) }
  have ran : runStraight ([.load .rax (Baseline.slot r), .alu .test .rax .rax] : Baseline.Code) s =
      .ok t := by
    rw [runStraight_load mirrors.frame holds]
    have rax : (s.set .rax v.bits).get .rax = v.bits := by rw [State.get_set whole, if_pos rfl]
    show Except.ok { s.set .rax v.bits with
      flags := some (Flags.ofWord ((s.set .rax v.bits).get .rax &&& (s.set .rax v.bits).get .rax)) } = _
    rw [rax]
  have laid' : Assembly.Laid p place s.ip (([.load .rax (Baseline.slot r),
      .alu .test .rax .rax] : Baseline.Code).map .instr ++ (.instr (.jcc .ne m) :: rest)) := laid
  obtain ⟨ip, steps, after⟩ := laid'.straight (by simp [Instr.target?]) ran
  obtain ⟨ip', jumped, there⟩ := @Assembly.Laid.jcc _ _ _ _ _ _ { t with ip } _ after rfl
  have nonzero : Cond.ne.holds (.ofWord (v.bits &&& v.bits)) = v.toBool := by
    rw [UInt64.and_self]
    rfl
  rw [nonzero] at there
  have kept : s.Keeps { t with ip := ip' } := ⟨keeps.whole, keeps.base, keeps.stack⟩
  exact ⟨_, steps.trans (.one jumped), mirrors.keeps kept, there⟩

/-- Comparing `rax` with the constant of a case and jumping if they are equal. -/
theorem Mirrors.case (mirrors : a.Mirrors fr s) {v : Value} (held : s.get .rax = v.bits)
    {w : UInt64} {m : Baseline.Mark} (laid : Assembly.Laid p place s.ip
      (([.movImm .rcx w, .alu .cmp .rax .rcx, .jcc .e m] : Baseline.Code).map .instr ++ rest)) :
    ∃ u, p.Steps 3 s u ∧ a.Mirrors fr u ∧ u.get .rax = v.bits ∧
      if v.bits = w then u.ip = place m else Assembly.Laid p place u.ip rest := by
  have whole := mirrors.frame.whole
  have keeps := (State.Keeps.refl whole).set (by decide : X64.Reg.rcx ≠ .rbp) w
  have rax : (s.set .rcx w).get .rax = v.bits := by
    rw [State.get_set whole, if_neg (by decide), held]
  have rcx : (s.set .rcx w).get .rcx = w := by rw [State.get_set whole, if_pos rfl]
  let t : State := { s.set .rcx w with flags := some (.ofCompare v.bits w) }
  have ran : runStraight ([.movImm .rcx w, .alu .cmp .rax .rcx] : Baseline.Code) s = .ok t := by
    show Except.ok { s.set .rcx w with
      flags := some (Flags.ofCompare ((s.set .rcx w).get .rax) ((s.set .rcx w).get .rcx)) } = _
    rw [rax, rcx]
  have laid' : Assembly.Laid p place s.ip (([.movImm .rcx w, .alu .cmp .rax .rcx] :
      Baseline.Code).map .instr ++ (.instr (.jcc .e m) :: rest)) := laid
  obtain ⟨ip, steps, after⟩ := laid'.straight (by simp [Instr.target?]) ran
  obtain ⟨ip', jumped, there⟩ := @Assembly.Laid.jcc _ _ _ _ _ _ { t with ip } _ after rfl
  have kept : s.Keeps { t with ip := ip' } := ⟨keeps.whole, keeps.base, keeps.stack⟩
  refine ⟨_, steps.trans (.one jumped), mirrors.keeps kept, rax, ?_⟩
  simpa [Cond.holds, Flags.ofCompare] using there

/-- The cases of a switch are tested one after the other. -/
theorem Mirrors.cases (mirrors : a.Mirrors fr s) (number : b.id = cur)
    (has : ∀ e ∈ edges, Baseline.HasCopies p a.function place long e) {v : Value}
    (held : s.get .rax = v.bits) {cases : List SwitchCase} {codes : List Baseline.Code}
    (tested : List.Forall₂ (Baseline.CaseShape a.function edges b v.ty) cases codes)
    {m : Baseline.Mark} {default : BlockId}
    (otherwise : Baseline.Leads a.function edges b m default)
    (laid : Assembly.Laid p place s.ip ((codes.flatten ++ [(.jmp m : Instr Baseline.Mark)]).map .instr ++ rest)) :
    ∃ n u, 1 ≤ n ∧ n ≤ codes.flatten.length + 1 ∧ p.Steps n s u ∧ a.Mirrors fr u ∧
      Arriving p a.function place long (some cur) (switchTarget v cases default) u.ip := by
  induction tested generalizing s with
  | nil =>
    have jumped := laid.jmp
    exact ⟨1, _, Nat.le_refl _, Nat.le_refl _, .one jumped, mirrors.moved _,
      arriving_of_leads number has otherwise⟩
  | @cons c code cases codes first others ih =>
    obtain ⟨m', leads, rfl⟩ := first
    obtain ⟨u, steps, mirrored, kept, there⟩ := mirrors.case held laid
    have matching : (v == Value.ofInt v.ty c.value.toInt) =
        decide (v.bits = (Value.ofInt v.ty c.value.toInt).bits) := by
      obtain ⟨ty, bits⟩ := v
      rw [beq_eq_decide]
      congr 1
      simp [Value.ofInt, Value.ofBits]
    unfold switchTarget
    rw [List.find?_cons, matching]
    split at there
    · next same =>
      rw [decide_eq_true same]
      refine ⟨3, u, by omega, ?_, steps, mirrored, ?_⟩
      · rw [List.flatten_cons, List.length_append]
        simp only [List.length_cons, List.length_nil]
        omega
      · rw [there]
        exact arriving_of_leads number has leads
    · next different =>
      rw [decide_eq_false different]
      obtain ⟨n, t, some, short, more, mirrored', arriving⟩ := ih mirrored kept there
      refine ⟨3 + n, t, by omega, ?_, steps.trans more, mirrored', arriving⟩
      rw [List.flatten_cons, List.length_append]
      simp only [List.length_cons, List.length_nil]
      omega

/-- Leaving the frame gives the caller its base pointer back and returns. -/
theorem Mirrors.leave (mirrors : a.Mirrors fr s) {w : UInt64} (held : s.get .rax = w)
    (laid : Assembly.Laid p place s.ip
      (([.alu .mov .rsp .rbp, .pop .rbp, .ret] : Baseline.Code).map .instr ++ rest)) :
    ∃ t u, p.Steps 2 s t ∧ p.step t = .error (.returned, u) ∧ a.Returned w u := by
  have whole := mirrors.frame.whole
  have small := mirrors.frame.small
  have top := mirrors.top
  let s₁ := s.set .rsp (stackBase + UInt64.ofNat (8 * a.base))
  let s₂ := s₁.set .rsp (stackBase + UInt64.ofNat (8 * (a.base + 1)))
  let s₃ := s₂.set .rbp a.caller
  have whole₁ : s₁.Whole := (State.whole_set _ _).mpr whole
  have whole₂ : s₂.Whole := (State.whole_set _ _).mpr whole₁
  have whole₃ : s₃.Whole := (State.whole_set _ _).mpr whole₂
  have moved : ((Instr.alu .mov .rsp .rbp : Instr Baseline.Mark).mapTarget
      fun _ => (0 : Int32)).step s = .ok s₁ := by
    show Except.ok (s.set .rsp (s.get .rbp)) = _
    rw [mirrors.frame.base]
  have popped : ((Instr.pop .rbp : Instr Baseline.Mark).mapTarget
      fun _ => (0 : Int32)).step s₁ = .ok s₃ := by
    have word : s₁.stackWord a.base = a.caller := mirrors.saved
    have taken : s₁.pop = .ok (s₁.stackWord a.base, s₂) :=
      State.pop_index (show a.base < s.stack.size by omega) small
        (by rw [State.get_set whole, if_pos rfl])
    rw [word] at taken
    exact bind_eq_ok.mpr ⟨_, taken, rfl⟩
  have ran : runStraight ([.alu .mov .rsp .rbp, .pop .rbp] : Baseline.Code) s = .ok s₃ :=
    (runStraight_cons moved).trans (runStraight_cons popped)
  have laid' : Assembly.Laid p place s.ip (([.alu .mov .rsp .rbp, .pop .rbp] :
      Baseline.Code).map .instr ++ (.instr .ret :: rest)) := laid
  obtain ⟨ip, steps, after⟩ := laid'.straight (by simp [Instr.target?]) ran
  let s₄ : State := { s₃ with ip := ip + (Instr.ret : Instr Baseline.Mark).size }
  have whole₄ : s₄.Whole := whole₃
  have taken : s₄.pop = .ok (s₄.stackWord (a.base + 1),
      s₄.set .rsp (stackBase + UInt64.ofNat (8 * (a.base + 2)))) := by
    refine State.pop_index (show a.base + 1 < s.stack.size by omega) small ?_
    show s₃.get .rsp = _
    rw [State.get_set whole₂, if_neg (by decide), State.get_set whole₁, if_pos rfl]
  have word : s₄.stackWord (a.base + 1) = returnAddress := mirrors.returns
  refine ⟨_, s₄.set .rsp (stackBase + UInt64.ofNat (8 * (a.base + 2))), steps, ?_, ?_, ?_, ?_⟩
  · refine (@Assembly.Laid.step _ _ _ _ _ { s₃ with ip } after).trans ?_
    show (s₄.pop >>= fun x => throw (if x.1 = returnAddress then Stop.returned else .faulted, x.2)) = _
    rw [taken, word]
    rfl
  · rw [State.get_set whole₄, if_neg (by decide)]
    show s₃.get .rax = w
    rw [State.get_set whole₂, if_neg (by decide), State.get_set whole₁, if_neg (by decide),
      State.get_set whole, if_neg (by decide), held]
  · rw [State.get_set whole₄, if_neg (by decide)]
    show s₃.get .rbp = a.caller
    rw [State.get_set whole₂, if_pos rfl]
  · rw [State.get_set whole₄, if_pos rfl]

/-- Where a terminator goes, the machine goes. -/
theorem Mirrors.goto (mirrors : a.Mirrors fr s) (number : b.id = cur)
    (has : ∀ e ∈ edges, Baseline.HasCopies p a.function place long e) {code : Baseline.Code}
    {t : Term} (shape : Baseline.TermShape a.function edges b code t)
    (laid : Assembly.Laid p place s.ip (code.map .instr ++ rest)) {next : BlockId}
    (ended : fr.terminate t = .ok (.goto next)) :
    ∃ n u, 1 ≤ n ∧ n ≤ code.length ∧ p.Steps n s u ∧ a.Mirrors fr u ∧
      Arriving p a.function place long (some cur) next u.ip := by
  rcases Frame.goto_cases ended with rfl | ⟨c, yes, no, v, rfl, held, rfl⟩ |
    ⟨c, cases, d, v, rfl, held, rfl⟩
  · obtain ⟨m, leads, rfl⟩ := shape
    exact ⟨1, _, Nat.le_refl _, Nat.le_refl _, .one laid.jmp, mirrors.moved _,
      arriving_of_leads number has leads⟩
  · obtain ⟨m, m', leads, leads', rfl⟩ := shape
    obtain ⟨u, steps, mirrored, there⟩ := mirrors.test held laid
    split at there
    · next yes =>
      refine ⟨3, u, by omega, by simp, steps, mirrored, ?_⟩
      rw [there, if_pos yes]
      exact arriving_of_leads number has leads
    · next no =>
      refine ⟨3 + 1, _, by omega, by simp, steps.trans (.one there.jmp), mirrored.moved _, ?_⟩
      rw [if_neg no]
      exact arriving_of_leads number has leads'
  · obtain ⟨codes, m, tested, leads, rfl⟩ := shape
    obtain ⟨holds, known⟩ := mirrors.held c v held
    rw [known, Option.getD_some] at tested
    have keeps := (State.Keeps.refl mirrors.frame.whole).set (by decide : X64.Reg.rax ≠ .rbp) v.bits
    have ran : runStraight ([.load .rax (Baseline.slot c)] : Baseline.Code) s =
        .ok (s.set .rax v.bits) := runStraight_load mirrors.frame holds .rax []
    obtain ⟨ip, steps, after⟩ := @Assembly.Laid.straight _ _ _ [.load .rax (Baseline.slot c)] _ _ _
      laid (by simp [Instr.target?]) ran
    have rax : State.get { s.set .rax v.bits with ip } .rax = v.bits := by
      show (s.set .rax v.bits).get .rax = v.bits
      rw [State.get_set mirrors.frame.whole, if_pos rfl]
    obtain ⟨n, u, some, short, more, mirrored, arriving⟩ :=
      ((mirrors.keeps keeps).moved ip).cases number has rax tested leads after
    refine ⟨1 + n, u, by omega, ?_, steps.trans more, mirrored, arriving⟩
    simp only [List.length_cons, List.length_append, List.length_nil]
    omega

/-- Where a terminator ends the call, the machine returns the value. -/
theorem Mirrors.done (mirrors : a.Mirrors fr s) {code : Baseline.Code} {t : Term}
    (shape : Baseline.TermShape a.function edges b code t)
    (laid : Assembly.Laid p place s.ip (code.map .instr ++ rest)) {v : Value}
    (ended : fr.terminate t = .ok (.done v)) :
    v.Normal ∧ v.ty = a.function.sig.ret ∧ ∃ n u w, n + 1 ≤ code.length ∧ p.Steps n s u ∧
      p.step u = .error (.returned, w) ∧ a.Returned v.bits w := by
  have whole := mirrors.frame.whole
  rcases Frame.done_cases ended with ⟨rfl, rfl, void⟩ | ⟨r, rfl, held, typed⟩
  · refine ⟨by decide, by rw [← mirrors.function, void]; rfl, ?_⟩
    cases shape
    let u : State := { s.set .rax (s.get .rax ^^^ s.get .rax) with
      flags := some (.ofWord (s.get .rax ^^^ s.get .rax)) }
    have keeps := (State.Keeps.refl whole).set (by decide : X64.Reg.rax ≠ .rbp)
      (s.get .rax ^^^ s.get .rax)
    have kept : s.Keeps u := ⟨keeps.whole, keeps.base, keeps.stack⟩
    obtain ⟨ip, steps, after⟩ := @Assembly.Laid.straight _ _ _ [.alu .xor .rax .rax] _ _ u laid
      (by simp [Instr.target?]) rfl
    have rax : State.get { u with ip } .rax = Value.void.bits := by
      show (s.set .rax _).get .rax = 0
      rw [State.get_set whole, if_pos rfl, UInt64.xor_self]
    obtain ⟨t, w, more, stopped, returned⟩ := ((mirrors.keeps kept).moved ip).leave rax after
    exact ⟨1 + 2, t, w, by simp, steps.trans more, stopped, returned⟩
  · obtain ⟨holds, _⟩ := mirrors.held r v held
    refine ⟨holds.normal, by rw [typed, mirrors.function], ?_⟩
    cases shape
    have keeps := (State.Keeps.refl whole).set (by decide : X64.Reg.rax ≠ .rbp) v.bits
    have ran : runStraight ([.load .rax (Baseline.slot r)] : Baseline.Code) s =
        .ok (s.set .rax v.bits) := runStraight_load mirrors.frame holds .rax []
    obtain ⟨ip, steps, after⟩ := @Assembly.Laid.straight _ _ _ [.load .rax (Baseline.slot r)] _ _ _
      laid (by simp [Instr.target?]) ran
    have rax : State.get { s.set .rax v.bits with ip } .rax = v.bits := by
      show (s.set .rax v.bits).get .rax = v.bits
      rw [State.get_set whole, if_pos rfl]
    obtain ⟨t, w, more, stopped, returned⟩ := ((mirrors.keeps keeps).moved ip).leave rax after
    exact ⟨1 + 2, t, w, by simp, steps.trans more, stopped, returned⟩

end Terminators

section Runs

variable {κ ε : Type}

/-- A failure that a check of the function was to rule out. -/
def Unchecked (e : Eval.Error) : Prop :=
  e.cause.kind = .typeMismatch ∨ e.cause.kind = .missingRegister

/-- What the machine does from a state for the result of a run: it returns the value, or stops at
the instruction for code that is not reached, within so many instructions. For failures that the
code does not test for, nothing is said. -/
def Answers (a : Activation) (p : Program) (s : State) (most : Nat) :
    Except (Halt ε) Value → Prop
  | .ok v => v.Normal ∧ v.ty = a.function.sig.ret ∧ ∃ n u x, n + 1 ≤ most ∧ p.Steps n s u ∧
    p.step u = .error (.returned, x) ∧ a.Returned v.bits x
  | .error (.fault e) => e.function = a.function.name ∧ (Unchecked e ∨
    e.cause.kind = .unreachable ∧ ∃ n u x, n + 1 ≤ most ∧ p.Steps n s u ∧
      p.step u = .error (.trapped, x))
  | .error .outOfFuel => True
  | .error _ => False

theorem Answers.after {n most total : Nat} {u : State} {r : Except (Halt ε) Value}
    (answers : a.Answers p u most r) (steps : p.Steps n s u) (within : n + most ≤ total) :
    a.Answers p s total r := by
  cases r with
  | ok v =>
    obtain ⟨normal, typed, k, t, x, short, more, stopped, returned⟩ := answers
    exact ⟨normal, typed, n + k, t, x, by omega, steps.trans more, stopped, returned⟩
  | error h =>
    cases h with
    | fault e =>
      obtain ⟨named, unchecked | ⟨kind, k, t, x, short, more, stopped⟩⟩ := answers
      · exact ⟨named, .inl unchecked⟩
      · exact ⟨named, .inr ⟨kind, n + k, t, x, by omega, steps.trans more, stopped⟩⟩
    | outOfFuel => trivial
    | host f r => exact answers
    | crash c => exact answers
    | other e => exact answers

/-- What a function needs for its code to follow the evaluator. -/
structure Lowered (a : Activation) (p : Program) (place : Baseline.Mark → Nat)
    (long spares : Nat) : Prop where
  numbered : a.function.WellNumbered
  carries : Baseline.Carries p a.function place long
  fits : a.Fits spares
  phis : ∀ id b, a.function.block? id = some b → b.phis.length ≤ spares
  allowed : ∀ id b, a.function.block? id = some b → ∀ i ∈ b.insts, Baseline.checkInst i = .ok ()
  consts : Constants Value.Normal a.function

section Failures

theorem get_error {r : Ir.Reg} {e : Eval.Error} (failed : fr.get r = .error e) :
    e.function = fr.function.name ∧ Unchecked e := by
  obtain ⟨rfl, _⟩ := Frame.get_error failed
  exact ⟨rfl, .inr rfl⟩

/-- A terminator with code fails by its operands, or by being the one for code that is not
reached. -/
theorem terminate_error {t : Term} {e : Eval.Error} (failed : fr.terminate t = .error e)
    (present : t ≠ .missing) : e.function = fr.function.name ∧
      (Unchecked e ∨ e.cause.kind = .unreachable ∧ t = .unreachable) := by
  have unread : ∀ {r : Ir.Reg}, fr.get r = .error e → e.function = fr.function.name ∧
      (Unchecked e ∨ e.cause.kind = .unreachable ∧ t = .unreachable) := fun missing =>
    ⟨(get_error missing).1, .inl (get_error missing).2⟩
  cases t with
  | missing => exact absurd rfl present
  | br t => cases failed
  | condBr c yes no =>
    rcases bind_eq_error.mp failed with missing | ⟨v, got, _⟩
    · exact unread missing
    · rw [Frame.terminate_condBr (Frame.get_eq_ok.mp got)] at failed
      split at failed <;> cases failed
      exact ⟨rfl, .inl (.inl rfl)⟩
  | switch c cases d =>
    rcases bind_eq_error.mp failed with missing | ⟨v, got, _⟩
    · exact unread missing
    · rw [Frame.terminate_switch (Frame.get_eq_ok.mp got)] at failed
      split at failed <;> cases failed
      exact ⟨rfl, .inl (.inl rfl)⟩
  | ret v? =>
    cases v? with
    | none =>
      simp only [Frame.terminate] at failed
      split at failed <;> cases failed
      exact ⟨rfl, .inl (.inl rfl)⟩
    | some r =>
      rcases bind_eq_error.mp failed with missing | ⟨v, got, _⟩
      · exact unread missing
      · rw [Frame.terminate_ret (Frame.get_eq_ok.mp got)] at failed
        split at failed <;> cases failed
        exact ⟨rfl, .inl (.inl rfl)⟩
  | unreachable =>
    cases failed
    exact ⟨rfl, .inr ⟨rfl, rfl⟩⟩

theorem value_error {i : Inst} (allowed : Baseline.checkInst i = .ok ()) {globals : Array Value}
    {e : Eval.Error} (failed : fr.value globals i = .error e) :
    e.function = fr.function.name ∧ Unchecked e := by
  obtain ⟨effects, loads⟩ := Baseline.pure_of_checkInst allowed
  cases read : i.args.mapM fr.get with
  | ok vs =>
    rw [Frame.value_eq_compute (Frame.mapM_get_eq_ok.mp read)] at failed
    cases computed : compute globals i vs with
    | ok v => simp [computed, Frame.located] at failed
    | error c =>
      rw [computed] at failed
      cases failed
      exact ⟨rfl, .inl (kind_of_compute effects (fun load => absurd load loads) computed)⟩
  | error e' =>
    obtain ⟨r, _, got⟩ := mapM_eq_error read
    have operands : ∀ n (k : List Value → Except Eval.Error Value),
        (fr.operands i n >>= k) = .error e → e.function = fr.function.name ∧ Unchecked e := by
      intro n k stopped
      unfold Frame.operands at stopped
      split at stopped
      · cases stopped
        exact ⟨rfl, .inl rfl⟩
      · rw [read] at stopped
        cases stopped
        exact get_error got
    unfold Frame.value at failed
    split at failed
    · cases failed
    · cases failed
    · exact operands _ _ failed
    · exact operands _ _ failed
    · exact operands _ _ failed
    · next op => exact absurd op loads
    · next op => simp [op, Op.hasEffects] at effects
    · split at failed
      · exact operands _ _ failed
      · exact operands _ _ failed

theorem set_error {r : Ir.Reg} {v : Value} {e : Eval.Error} (failed : fr.set r v = .error e) :
    e.function = fr.function.name ∧ Unchecked e := by
  unfold Frame.set at failed
  split at failed
  · cases failed
    exact ⟨rfl, .inr rfl⟩
  · split at failed
    · cases failed
      exact ⟨rfl, .inl rfl⟩
    · cases failed

/-- An instruction that code is made for fails by itself, in a way that the code does not test for. -/
theorem exec_error {call : Call κ ε} {known : FuncId → Bool} {w w' : World κ} {i : Inst}
    {h : Halt ε} (allowed : Baseline.checkInst i = .ok ())
    (ran : fr.exec call known w i = (.error h, w')) :
    w' = w ∧ ∃ e, h = .fault e ∧ e.function = fr.function.name ∧ Unchecked e := by
  obtain ⟨effects, _⟩ := Baseline.pure_of_checkInst allowed
  unfold Frame.exec at ran
  split at ran
  · next op => simp [op, Op.hasEffects] at effects
  · next op => simp [op, Op.hasEffects] at effects
  · split at ran
    · next e failed =>
      cases ran
      exact ⟨rfl, e, rfl, value_error allowed failed⟩
    · next v _ =>
      cases written : fr.set i.dest v with
      | ok g => simp [written, Except.mapError] at ran
      | error e =>
        rw [written] at ran
        cases ran
        exact ⟨rfl, e, rfl, set_error written⟩

theorem execAll_error {call : Call κ ε} {known : FuncId → Bool} {is : List Inst} {w w' : World κ}
    {h : Halt ε} {stats : Stats} (allowed : ∀ i ∈ is, Baseline.checkInst i = .ok ())
    (ran : Frame.execAll call known is fr w = (.error (h, stats), w')) :
    w' = w ∧ ∃ e, h = .fault e ∧ e.function = fr.function.name ∧ Unchecked e := by
  induction is generalizing fr w with
  | nil => cases ran
  | cons i is ih =>
    unfold Frame.execAll at ran
    split at ran
    · next failed =>
      cases ran
      exact exec_error (allowed i (by simp)) failed
    · next fr₁ w₁ executed =>
      obtain ⟨rfl, v, _, written⟩ := value_of_exec (allowed i (by simp)) executed
      obtain ⟨_, rfl⟩ := Frame.set_eq_ok.mp written
      have later := ih (fun j member => allowed j (by simp [member])) ran
      exact later

theorem setAll_error {values : List (Ir.Reg × Value)} {e : Eval.Error}
    (failed : fr.setAll values = .error e) : e.function = fr.function.name ∧ Unchecked e := by
  induction values generalizing fr with
  | nil => cases failed
  | cons x values ih =>
    obtain ⟨r, v⟩ := x
    unfold Frame.setAll at failed
    cases written : fr.set r v with
    | ok g =>
      rw [written] at failed
      obtain ⟨_, rfl⟩ := Frame.set_eq_ok.mp written
      have later := ih failed
      exact later
    | error e' =>
      rw [written] at failed
      cases failed
      exact set_error written

theorem applyPhis_error {b : Block} {prev : Option BlockId} {e : Eval.Error}
    (failed : fr.applyPhis b prev = .error e) : e.function = fr.function.name ∧ Unchecked e := by
  unfold Frame.applyPhis at failed
  split at failed
  · cases failed
  · unfold Frame.resolvePhis at failed
    split at failed
    · cases failed
      exact ⟨rfl, .inr rfl⟩
    · next prev =>
      rcases bind_eq_error.mp failed with stopped | ⟨values, _, stopped⟩
      · obtain ⟨phi, _, missing⟩ := mapM_eq_error stopped
        split at missing
        · cases missing
          exact ⟨rfl, .inr rfl⟩
        · next r _ =>
          rcases bind_eq_error.mp missing with absent | ⟨_, _, ⟨⟩⟩
          exact get_error absent
      · exact setAll_error stopped

end Failures

/-- The result of a run that has ended. -/
def Ended (a : Activation) (p : Program) (s : State) (most : Nat) (w : World κ)
    (out : Frame.Finished κ ε) : Prop :=
  out.world = w ∧ out.result ≠ .error .outOfFuel ∧ a.Answers p s most out.result

/-- The machine has come to where the next block is entered. -/
def GoesOn (a : Activation) (p : Program) (place : Baseline.Mark → Nat) (long : Nat) (s : State)
    (w : World κ) (cur : BlockId) (fr : Frame) (w' : World κ) (next : BlockId) : Prop :=
  w' = w ∧ a.function.Reachable next ∧ ∃ n u, 1 ≤ n ∧ n ≤ 2 * long ∧ p.Steps n s u ∧
    a.Mirrors fr u ∧ Arriving p a.function place long (some cur) next u.ip

/-- One block of the evaluator on the machine. -/
theorem Lowered.turn (lowered : a.Lowered p place long spares) (mirrors : a.Mirrors fr s)
    {prev : Option BlockId} {cur : BlockId} (reached : a.function.Reachable cur)
    (arriving : Arriving p a.function place long prev cur s.ip) (call : Call κ ε)
    (known : FuncId → Bool) (w : World κ) :
    match Frame.turn call known fr w prev cur with
    | .stop out => a.Ended p s (2 * long) w out
    | .go fr' w' next => a.GoesOn p place long s w cur fr' w' next := by
  obtain ⟨b, codes, term, edges, rest, found, coded, shape, short, laid, has⟩ :=
    lowered.carries.block cur reached
  have fails : ∀ (e : Eval.Error) stats, e.function = a.function.name ∧ Unchecked e →
      a.Ended p s (2 * long) w (⟨.error (.fault e), stats, w⟩ : Frame.Finished κ ε) :=
    fun e stats unchecked => ⟨rfl, by simp, unchecked.1, .inl unchecked.2⟩
  unfold Frame.turn
  rw [mirrors.function, found]
  simp only [Frame.runBlock]
  cases applied : (fr.arrive cur).applyPhis b prev with
  | error e =>
    have unchecked := applyPhis_error applied
    exact fails e _ ⟨unchecked.1.trans (congrArg _ mirrors.function), unchecked.2⟩
  | ok fr₁ =>
    dsimp only
    obtain ⟨n, s₁, few, steps, mirrors₁, there⟩ := (mirrors.counted cur _).enter lowered.fits
      (lowered.phis cur b found) found arriving applied
    rcases executed : Frame.execAll call known b.insts fr₁ w with ⟨_ | fr₂, w₂⟩
    · next stopped =>
      obtain ⟨h, stats⟩ := stopped
      dsimp only
      obtain ⟨rfl, e, rfl, unchecked⟩ := execAll_error (lowered.allowed cur b found) executed
      exact fails e stats (mirrors₁.function ▸ unchecked)
    · obtain ⟨rfl, s₂, ran, mirrors₂⟩ := mirrors₁.insts lowered.fits (lowered.allowed cur b found)
        (lowered.consts cur b reached found) coded executed
      rw [← there, List.map_append, List.append_assoc] at laid
      have plain : Baseline.Plain codes.flatten := Baseline.Plain.flatten fun code listed => by
        obtain ⟨i, _, made⟩ := forall₂_partner coded.flip listed
        exact Baseline.plain_instCode made
      obtain ⟨ip, steps', after⟩ := laid.straight (fun i member => (plain i member).1) ran
      have mirrors₃ := mirrors₂.moved ip
      have walked := steps.trans steps'
      rw [List.length_append] at short
      dsimp only
      cases ended : fr₂.terminate b.term with
      | error e =>
        have present : b.term ≠ .missing := by
          intro missing
          rw [missing] at shape
          cases shape
        obtain ⟨named, unchecked | ⟨kind, trap⟩⟩ := terminate_error ended present
        · exact fails e _ ⟨named.trans (congrArg _ mirrors₂.function), unchecked⟩
        · rw [trap] at shape
          cases shape
          refine ⟨rfl, by simp, named.trans (congrArg _ mirrors₂.function), .inr ⟨kind, _, _, _, ?_,
            walked, @Assembly.Laid.step _ _ _ _ _ { s₂ with ip } after⟩⟩
          rw [List.length_singleton] at short
          omega
      | ok next =>
        cases next with
        | done v =>
          obtain ⟨normal, typed, k, u, x, less, more, stopped, returned⟩ :=
            mirrors₃.done shape after ended
          exact ⟨rfl, by simp, normal, typed, _, u, x, by omega, walked.trans more, stopped, returned⟩
        | goto next =>
          obtain ⟨k, u, some, less, more, mirrors₄, arriving'⟩ :=
            mirrors₃.goto (lowered.numbered.number cur b found) has shape after ended
          exact ⟨rfl, .step reached found (Frame.goto_mem ended), _, u, by omega, by omega,
            walked.trans more, mirrors₄, arriving'⟩

/-- A run of the evaluator on the machine: what it ends in, the machine answers; as long as it goes
on, the machine goes on. -/
theorem Lowered.run (lowered : a.Lowered p place long spares) (call : Call κ ε)
    (known : FuncId → Bool) (fuel : Nat) (mirrors : a.Mirrors fr s) {prev : Option BlockId}
    {cur : BlockId} (reached : a.function.Reachable cur)
    (arriving : Arriving p a.function place long prev cur s.ip) (w : World κ) :
    (Frame.run call known fuel fr w prev cur).world = w ∧
    a.Answers p s (fuel * (2 * long)) (Frame.run call known fuel fr w prev cur).result ∧
    ((Frame.run call known fuel fr w prev cur).result = .error .outOfFuel →
      ∃ n u, fuel ≤ n ∧ p.Steps n s u) := by
  induction fuel generalizing fr s prev cur with
  | zero => exact ⟨rfl, trivial, fun _ => ⟨0, s, Nat.le_refl _, rfl⟩⟩
  | succ fuel ih =>
    have turned := lowered.turn mirrors reached arriving call known w
    have sum : (fuel + 1) * (2 * long) = 2 * long + fuel * (2 * long) := by
      rw [Nat.add_mul, Nat.one_mul, Nat.add_comm]
    unfold Frame.run
    cases stepped : Frame.turn call known fr w prev cur with
    | stop out =>
      rw [stepped] at turned
      obtain ⟨same, finished, answers⟩ := turned
      have here : p.Steps 0 s s := rfl
      exact ⟨same, answers.after here (by omega), fun out => absurd out finished⟩
    | go fr' w' next =>
      rw [stepped] at turned
      obtain ⟨rfl, reached', n, u, some, few, steps, mirrors', arriving'⟩ := turned
      obtain ⟨same, answers, goes⟩ := ih mirrors' reached' arriving'
      refine ⟨same, answers.after steps (by omega), fun out => ?_⟩
      obtain ⟨k, v, enough, more⟩ := goes out
      exact ⟨n + k, v, by omega, steps.trans more⟩

end Runs

end Activation

end TieredEngine.Native.X64
