import TieredEngine.Proofs.Ir.WellFormed
import TieredEngine.Proofs.Native.X64.Assembling
import TieredEngine.Proofs.Native.X64.Confinement
import TieredEngine.Proofs.Native.X64.Entry

/-!
Where a call touches the stack. Control is always in front of some line of the assembly. Coming from
the caller it saves the base pointer and sets it; from there it stays among framed lines, where the
base pointer is never moved, until a return puts back the stack pointer and the caller's base
pointer. In each of these phases the word that the next instruction accesses is known to lie among
the slots or to be one of the two words above them, and the phases are all that a call can be in,
whatever is in the registers.

A caller lends code a stretch of its own frame and keeps a word for itself at the bottom of it. The
cells of a function lie below the base pointer, apart from each other and within the frame, and the
largest frame that the generator makes leaves the caller's word out of reach wherever the caller's
stack pointer stands.
-/
namespace TieredEngine.Native.X64
open TieredEngine TieredEngine.Ir

/-- Control at an offset is in front of the last lines of the assembly. -/
def InFront {ℓ : Type} (ls : List (Line ℓ)) (ip : Nat) (rest : List (Line ℓ)) : Prop :=
  ∃ before, ls = before ++ rest ∧ ip = Assembly.size before

/-- A program is assembled from lines: they stand in it from its start to its end, no jump is to a
label that they do not bind, and once the base pointer is set the lines are framed. -/
structure Assembled (p : Program) (place : Baseline.Mark → Nat) (cell : Int32 → Prop)
    (ls : List (Line Baseline.Mark)) : Prop where
  laid : Assembly.Laid p place 0 ls
  ends : p[Assembly.size ls]? = none
  bound : ∀ i, .instr i ∈ ls → ∀ l ∈ i.target?, .bind l ∈ ls
  framed : ∃ body, ls = .instr (.push .rbp) :: .instr (.alu .mov .rbp .rsp) :: body ∧
    Framed cell body

/-- The stack pointer points to the word `k`, on a stack that has the words of a frame at `base` and
the two above it. -/
structure State.Points (s : State) (base k : Nat) : Prop where
  whole : s.Whole
  top : s.get .rsp = stackBase + UInt64.ofNat (8 * k)
  inside : base + 1 < s.stack.size
  small : s.stack.size ≤ 2048

/-- How far a call with its frame at the word `base` has come. -/
inductive Phase (cell : Int32 → Prop) (ls : List (Line Baseline.Mark)) (base : Nat) (s : State) :
    Prop where
  | called {rest : List (Line Baseline.Mark)}
      (here : InFront ls s.ip (.instr (.push .rbp) :: .instr (.alu .mov .rbp .rsp) :: rest))
      (framed : Framed cell rest) (points : s.Points base (base + 1))
  | saved {rest : List (Line Baseline.Mark)}
      (here : InFront ls s.ip (.instr (.alu .mov .rbp .rsp) :: rest)) (framed : Framed cell rest)
      (points : s.Points base base)
  | body {rest : List (Line Baseline.Mark)} (here : InFront ls s.ip rest)
      (framed : Framed cell rest) (frame : s.OnFrame base) (above : base + 1 < s.stack.size)
  | leaving {rest : List (Line Baseline.Mark)}
      (here : InFront ls s.ip (.instr (.pop .rbp) :: .instr .ret :: rest))
      (points : s.Points base base)
  | left {rest : List (Line Baseline.Mark)} (here : InFront ls s.ip (.instr .ret :: rest))
      (points : s.Points base (base + 1))

section

variable {p : Program} {place : Baseline.Mark → Nat} {ls rest : List (Line Baseline.Mark)}
  {cell : Int32 → Prop} {base : Nat} {s t : State} {i : Instr Baseline.Mark}

theorem InFront.next {ip : Nat} (here : InFront ls ip (.instr i :: rest)) :
    InFront ls (ip + i.size) rest := by
  obtain ⟨before, rfl, rfl⟩ := here
  exact ⟨before ++ [.instr i], by simp, by simp [Assembly.size, Assembly.lineSize]⟩

theorem InFront.skip {ip : Nat} {l : Baseline.Mark} (here : InFront ls ip (.bind l :: rest)) :
    InFront ls ip rest := by
  obtain ⟨before, rfl, rfl⟩ := here
  exact ⟨before ++ [.bind l], by simp, by simp [Assembly.size, Assembly.lineSize]⟩

theorem InFront.member {ip : Nat} (here : InFront ls ip (.instr i :: rest)) : .instr i ∈ ls := by
  obtain ⟨before, rfl, -⟩ := here
  simp

namespace Assembled

variable (assembled : Assembled p place cell ls)
include assembled

theorem laid_at {ip : Nat} (here : InFront ls ip rest) : Assembly.Laid p place ip rest := by
  obtain ⟨before, rfl, rfl⟩ := here
  simpa using assembled.laid.append

/-- The instruction that control is in front of. -/
theorem fetch (here : InFront ls s.ip (.instr i :: rest)) :
    ∃ distance, p[s.ip]? = some (some (i.mapTarget distance, i.size)) ∧
      p.step s = (i.mapTarget distance).step { s with ip := s.ip + i.size } :=
  ⟨_, (assembled.laid_at here).1, (assembled.laid_at here).step⟩

/-- No instruction stands behind the last line. -/
theorem stops (here : InFront ls s.ip []) : p[s.ip]? = none := by
  obtain ⟨before, rfl, at_ip⟩ := here
  have ends := assembled.ends
  rwa [List.append_nil, ← at_ip] at ends

/-- A jump leads to framed lines. -/
theorem target (member : .instr i ∈ ls) {l : Baseline.Mark} (named : l ∈ i.target?) :
    ∃ after, InFront ls (place l) after ∧ Framed cell after := by
  obtain ⟨before, after, split⟩ := List.append_of_mem (assembled.bound i member l named)
  refine ⟨after, ⟨before ++ [.bind l], by simp [split], ?_⟩, ?_⟩
  · have laid := assembled.laid
    rw [split] at laid
    simpa [Assembly.size, Assembly.lineSize] using laid.append.1
  · obtain ⟨body, whole, framed⟩ := assembled.framed
    rw [whole] at split
    -- the first two lines bind nothing
    rcases before with _ | ⟨_, _ | ⟨_, before⟩⟩
    · cases split
    · cases split
    · simp only [List.cons_append, List.cons.injEq] at split
      exact (split.2.2 ▸ framed).after_bind

end Assembled

theorem State.OnFrame.of_spares {s t : State} {x : Option Reg} (frame : s.OnFrame base)
    (spares : s.Spares t x) (other : x ≠ some .rbp) : t.OnFrame base where
  whole := spares.whole
  base := (spares.others .rbp (by decide) other).trans frame.base
  inside := spares.size ▸ frame.inside
  small := spares.size ▸ frame.small

/-- Where control goes from an instruction: on, or to the label that it jumps to. -/
theorem Assembled.goes (assembled : Assembled p place cell ls)
    (here : InFront ls s.ip (.instr i :: rest)) (framed : Framed cell rest)
    (stepped : p.step s = .ok t) : ∃ after, InFront ls t.ip after ∧ Framed cell after := by
  obtain ⟨distance, -, step⟩ := assembled.fetch here
  have laid := assembled.laid_at here
  cases named : i.target? with
  | none =>
    rw [step] at stepped
    have stays := Instr.step_stays (stays_mapTarget named distance) stepped
    exact ⟨rest, stays ▸ here.next, framed⟩
  | some l =>
    obtain ⟨after, there, framed'⟩ := assembled.target here.member named
    cases i with
    | jmp m =>
      cases named
      cases laid.jmp.symm.trans stepped
      exact ⟨after, there, framed'⟩
    | jcc c m =>
      cases named
      cases flags : s.flags with
      | none =>
        rw [step] at stepped
        simp only [Instr.mapTarget, Instr.step, flags] at stepped
        cases stepped
      | some known =>
        by_cases taken : c.holds known = true
        · obtain ⟨ip, jumped, goes⟩ := laid.jcc flags
          rw [if_pos taken] at goes
          cases jumped.symm.trans stepped
          exact ⟨after, goes ▸ there, framed'⟩
        · rw [step] at stepped
          simp only [Instr.mapTarget, Instr.step, flags, taken] at stepped
          cases stepped
          exact ⟨rest, here.next, framed⟩
    | _ => cases named

theorem Assembled.spares (assembled : Assembled p place cell ls)
    (here : InFront ls s.ip (.instr i :: rest)) (off : i.onStack = false) (whole : s.Whole)
    (stepped : p.step s = .ok t) : s.Spares t i.result? := by
  obtain ⟨distance, -, step⟩ := assembled.fetch here
  rw [step] at stepped
  have spared := Instr.step_spares (s := { s with ip := s.ip + i.size }) whole
    ((i.onStack_mapTarget distance).trans off) stepped
  rw [Instr.result?_mapTarget] at spared
  exact ⟨spared.whole, spared.size, spared.others⟩

/-- From framed lines a step stays among them, or begins a return. -/
theorem Phase.step_body (assembled : Assembled p place cell ls) (framed : Framed cell rest)
    (here : InFront ls s.ip rest) (frame : s.OnFrame base) (above : base + 1 < s.stack.size)
    (stepped : p.step s = .ok t) : Phase cell ls base t := by
  induction framed with
  | nil =>
    have nothing := assembled.stops here
    simp [Program.step, nothing] at stepped
  | bind _ ih => exact ih here.skip
  | instr confined framed _ =>
    have spares := assembled.spares here confined.pointer frame.whole stepped
    obtain ⟨after, there, framed'⟩ := assembled.goes here framed stepped
    exact .body there framed' (frame.of_spares spares confined.base) (spares.size ▸ above)
  | leave _ _ =>
    obtain ⟨distance, -, step⟩ := assembled.fetch here
    have next := here.next
    rw [step] at stepped
    cases stepped
    refine .leaving next ⟨(State.whole_set .rsp _).mpr frame.whole, ?_, above, frame.small⟩
    exact (State.get_set frame.whole .rsp _ .rsp).trans ((if_pos rfl).trans frame.base)

/-- Each step of a call leads from a phase to a phase. -/
theorem Phase.step (assembled : Assembled p place cell ls) (phase : Phase cell ls base s)
    (stepped : p.step s = .ok t) : Phase cell ls base t := by
  cases phase with
  | called here framed points =>
    obtain ⟨distance, -, step⟩ := assembled.fetch here
    have next := here.next
    obtain ⟨whole, top, inside, small⟩ := points
    let u : State := { s with ip := s.ip + (Instr.push .rbp : Instr Baseline.Mark).size }
    have pushed := State.push_index (s := u) (Nat.lt_of_succ_lt inside) small top (s.get .rbp)
    cases (step.symm.trans stepped).symm.trans pushed
    refine .saved next framed ⟨(State.whole_set .rsp _).mpr whole, ?_, ?_, ?_⟩
    · exact (State.get_set whole .rsp _ .rsp).trans (if_pos rfl)
    · simpa [State.setStackWord] using inside
    · simpa [State.setStackWord] using small
  | saved here framed points =>
    obtain ⟨distance, -, step⟩ := assembled.fetch here
    have next := here.next
    obtain ⟨whole, top, inside, small⟩ := points
    rw [step] at stepped
    cases stepped
    refine .body next framed ⟨(State.whole_set .rbp _).mpr whole, ?_, ?_, small⟩ inside
    · exact (State.get_set whole .rbp _ .rbp).trans ((if_pos rfl).trans top)
    · exact Nat.lt_of_succ_lt inside
  | body here framed frame above => exact step_body assembled framed here frame above stepped
  | leaving here points =>
    obtain ⟨distance, -, step⟩ := assembled.fetch here
    have next := here.next
    obtain ⟨whole, top, inside, small⟩ := points
    let u : State := { s with ip := s.ip + (Instr.pop .rbp : Instr Baseline.Mark).size }
    have popped := State.pop_index (s := u) (Nat.lt_of_succ_lt inside) small top
    have whole' : (u.set .rsp (stackBase + UInt64.ofNat (8 * (base + 1)))).Whole :=
      (State.whole_set _ _).mpr whole
    rw [step] at stepped
    obtain ⟨⟨w, v⟩, got, ⟨⟩⟩ := bind_eq_ok.mp stepped
    cases got.symm.trans popped
    refine .left next ⟨(State.whole_set .rbp _).mpr whole', ?_, inside, small⟩
    rw [State.get_set whole', if_neg (by decide)]
    exact (State.get_set whole .rsp _ .rsp).trans (if_pos rfl)
  | left here points =>
    obtain ⟨distance, -, step⟩ := assembled.fetch here
    rw [step] at stepped
    obtain ⟨_, _, failed⟩ := bind_eq_ok.mp stepped
    cases failed

theorem Phase.bounds (phase : Phase cell ls base s) :
    base + 1 < s.stack.size ∧ s.stack.size ≤ 2048 := by
  cases phase with
  | called _ _ points => exact ⟨points.inside, points.small⟩
  | saved _ _ points => exact ⟨points.inside, points.small⟩
  | body _ _ frame above => exact ⟨above, frame.small⟩
  | leaving _ points => exact ⟨points.inside, points.small⟩
  | left _ points => exact ⟨points.inside, points.small⟩

/-- The cells are the first `n` words below a frame. -/
def Nearest (n : Nat) (cell : Int32 → Prop) : Prop :=
  ∀ d, cell d → ∃ k < n, d = Int32.ofInt (-8 * ((k : Int) + 1))

/-- The address of one of the `n` words below the frame, of its own word or of that above it. -/
def Lies (base n : Nat) (a : UInt64) : Prop :=
  ∃ k, base ≤ k + n ∧ k ≤ base + 1 ∧ a = stackBase + UInt64.ofNat (8 * k)

theorem frameAddress_of_cell {n k : Nat} (room : n ≤ base) (near : k < n) (frame : s.OnFrame base) :
    frameAddress s (Int32.ofInt (-8 * ((k : Int) + 1))) =
      stackBase + UInt64.ofNat (8 * (base - 1 - k)) := by
  have small := frame.small
  have inside := frame.inside
  rw [frameAddress, frame.base, UInt64.add_assoc,
    ofNat_add_distance (by omega) (by omega) (by omega : _ = ((8 * (base - 1 - k) : Nat) : Int))]

variable {n : Nat}

/-- What framed lines access lies among the cells. -/
theorem Phase.lies_body (assembled : Assembled p place cell ls) (nearest : Nearest n cell)
    (room : n ≤ base) (framed : Framed cell rest) (here : InFront ls s.ip rest)
    (frame : s.OnFrame base) {j : Instr Int32} {size : Nat} (at_ip : p[s.ip]? = some (some (j, size)))
    {a : UInt64} (accessed : a ∈ j.access? s) : Lies base n a := by
  induction framed with
  | nil => simp [assembled.stops here] at at_ip
  | bind _ ih => exact ih here.skip
  | @instr i rest confined _ _ =>
    obtain ⟨distance, there, -⟩ := assembled.fetch here
    cases there.symm.trans at_ip
    have pointer := confined.pointer
    have cells := confined.distance
    have reads : ∀ d, i.distance? = some d → Lies base n (frameAddress s d) := by
      intro d reaches
      obtain ⟨k, near, rfl⟩ := nearest d (cells d reaches)
      exact ⟨base - 1 - k, by omega, by omega, frameAddress_of_cell room near frame⟩
    cases i with
    | push r => cases pointer
    | pop r => cases pointer
    | ret => cases pointer
    | load r d =>
      cases accessed
      exact reads d rfl
    | store d r =>
      cases accessed
      exact reads d rfl
    | _ => cases accessed
  | leave _ _ =>
    obtain ⟨distance, there, -⟩ := assembled.fetch here
    cases there.symm.trans at_ip
    cases accessed

/-- What a call accesses lies among its cells or in the two words above them. -/
theorem Phase.lies (assembled : Assembled p place cell ls) (nearest : Nearest n cell)
    (room : n ≤ base) (phase : Phase cell ls base s) {j : Instr Int32} {size : Nat}
    (at_ip : p[s.ip]? = some (some (j, size))) {a : UInt64} (accessed : a ∈ j.access? s) :
    Lies base n a := by
  cases phase with
  | called here framed points =>
    obtain ⟨distance, there, -⟩ := assembled.fetch here
    cases there.symm.trans at_ip
    cases accessed
    refine ⟨base, by omega, by omega, ?_⟩
    rw [points.top, ← State.stackBase_next, UInt64.add_sub_cancel]
  | saved here framed points =>
    obtain ⟨distance, there, -⟩ := assembled.fetch here
    cases there.symm.trans at_ip
    cases accessed
  | body here framed frame above =>
    exact lies_body assembled nearest room framed here frame at_ip accessed
  | leaving here points =>
    obtain ⟨distance, there, -⟩ := assembled.fetch here
    cases there.symm.trans at_ip
    cases accessed
    exact ⟨base, by omega, by omega, points.top⟩
  | left here points =>
    obtain ⟨distance, there, -⟩ := assembled.fetch here
    cases there.symm.trans at_ip
    cases accessed
    exact ⟨base + 1, by omega, by omega, points.top⟩

/-- A step changes no word below the cells. -/
theorem Phase.keeps (assembled : Assembled p place cell ls) (nearest : Nearest n cell)
    (room : n ≤ base) (phase : Phase cell ls base s) (stepped : p.step s = .ok t) {k : Nat}
    (below : k + n < base) : t.stackWord k = s.stackWord k := by
  obtain ⟨inside, small⟩ := phase.bounds
  unfold Program.step at stepped
  split at stepped
  · next j size at_ip =>
    refine Instr.step_stackWord (s := { s with ip := s.ip + size }) stepped ?_
    intro a accessed there
    have accessed' : a ∈ j.access? s := by
      cases j <;> exact accessed
    obtain ⟨w, far, near, rfl⟩ := phase.lies assembled nearest room at_ip accessed'
    have same := State.wordAt?_index (s := s) (show w < s.stack.size by omega) small
    have equal := Option.some.inj (there.symm.trans same)
    omega
  · cases stepped

/-- All that a call comes to is a phase of it, in which no word below the cells is other than at its
start. -/
theorem Phase.steps (assembled : Assembled p place cell ls) (nearest : Nearest n cell)
    (room : n ≤ base) {count : Nat} (phase : Phase cell ls base s) (steps : p.Steps count s t) :
    Phase cell ls base t ∧ ∀ k, k + n < base → t.stackWord k = s.stackWord k := by
  induction count generalizing s with
  | zero =>
    cases steps
    exact ⟨phase, fun _ _ => rfl⟩
  | succ count ih =>
    obtain ⟨u, stepped, more⟩ := steps
    obtain ⟨last, kept⟩ := ih (phase.step assembled stepped) more
    exact ⟨last, fun k below =>
      (kept k below).trans (phase.keeps assembled nearest room stepped below)⟩

end

namespace Baseline

variable {f : Function} {c : CompiledCode}

/-- The registers that the code of a reachable block names have been looked at by the typing check. -/
theorem Accepts.names (accepts : Accepts f c) (numbered : f.WellNumbered) {id : BlockId}
    (reached : f.Reachable id) {b : Block} (found : f.block? id = some b) {blocks : List Block}
    (all : f.allBlocks = .ok blocks) : Names f (mostPhis blocks) b := by
  have grounded := Function.grounded_of_typed numbered accepts.internal accepts.typed
  have typed := Function.wellTyped_of_typed numbered accepts.internal accepts.typed
  obtain ⟨prev, written, path⟩ := reached.arrives
  have sorted := typed.blocks prev id written b path found
  obtain rfl := numbered.number id b found
  refine ⟨fun i member r named => ?_, fun i member => ?_, fun r named => sorted.term.declares named,
    fun s _ c there => length_phis_le (Function.mem_of_block? all there), ?_⟩
  · obtain ⟨types, has, _⟩ := sorted.insts i member
    obtain ⟨t, _, known⟩ := forall₂_partner has named
    exact Function.declares_of_type known
  · -- what would write no register is refused
    obtain ⟨pure, _⟩ := pure_of_checkInst (accepts.insts b.id b found i member)
    refine (grounded prev b.id written b path found).targets i member i.dest ?_
    unfold Inst.target?
    revert pure
    cases i.op <;> simp [Op.hasEffects]
  · intro s branch c there p phi
    obtain ⟨declared, inputs⟩ :=
      (typed.blocks (some b.id) s _ c (path.step found branch) there).phis p phi
    exact ⟨Function.declares_of_type declared, fun r value =>
      Function.declares_of_type (inputs b.id r rfl value)⟩

/-- Once the base pointer is set, the lines of a function keep to its cells. -/
theorem Accepts.framed (accepts : Accepts f c) (numbered : f.WellNumbered)
    (params : ∀ p ∈ f.params, f.declares p = true) {blocks : List Block}
    (all : f.allBlocks = .ok blocks) {ls : List (Line Mark)} (made : lines f = .ok ls) :
    ∃ body, ls = .instr (.push .rbp) :: .instr (.alu .mov .rbp .rsp) :: body ∧
      Framed (IsCell f (mostPhis blocks)) body := by
  refine framed_lines params (fun order ordered id member b found => ?_) made
  obtain ⟨order', ordered', -, listed⟩ := Function.reversePostorder_ok numbered
  cases ordered.symm.trans ordered'
  exact accepts.names numbered ((listed id).mp member) found all

/-- The finished program is assembled from the lines of the function. -/
theorem assembled_of_machineCode (numbered : f.WellNumbered) {code : List UInt8}
    (made : machineCode f = .ok code) (short : code.length < reach) {cell : Int32 → Prop}
    {ls : List (Line Mark)} (lined : lines f = .ok ls)
    (framed : ∃ body, ls = .instr (.push .rbp) :: .instr (.alu .mov .rbp .rsp) :: body ∧
      Framed cell body) : ∃ place, Assembled (Program.ofBytes code) place cell ls := by
  obtain ⟨ls', place, lined', laid⟩ := laid_of_machineCode numbered made short
  cases lined.symm.trans lined'
  obtain ⟨ls', lined', encoded⟩ := bind_eq_ok.mp made
  cases lined.symm.trans lined'
  refine ⟨place, laid, ?_, fun i member l named => ?_, framed⟩
  · rw [Program.ofBytes, getElem?_from', ← Assembly.length_encodeFrom encoded]
    simp
  · obtain ⟨n, placed⟩ := Assembly.placed_of_encodeFrom encoded i (Assembly.mem_instrs.mpr member) l
      named
    rw [← Assembly.mem_labels_iff]
    by_contra unbound
    have nowhere : Assembly.boundAt? l 0 ls = none := Assembly.boundAt?_eq_none.mpr unbound
    simp only [nowhere] at placed
    cases placed

end Baseline

section Caller

/-- Where the stack pointer is put before a call is made from a frame that begins at `sp`: high up
in the frame, at a multiple of sixteen. -/
def callTop (sp : UInt64) : UInt64 := (sp + UInt64.ofNat stackTop) &&& ~~~15

/-- Where the called code has its base pointer: the return address and the caller's base pointer are
above it. -/
def calledBase (sp : UInt64) : UInt64 := callTop sp - 16

/-- The machine calls code as a caller does whose frame begins where the stack does. -/
theorem pointer_ofCall (words : Convention.Words) (size : words.ints.size = 8) :
    (State.ofCall words).get .rsp = callTop stackBase - 8 := by
  unfold State.ofCall
  rw [(lends_idle.calling size).1.pointer]
  decide +kernel

/-- Clearing the last four bits rounds down to a multiple of sixteen. -/
theorem toNat_and_not_fifteen (w : UInt64) : (w &&& ~~~15).toNat = w.toNat / 16 * 16 := by
  have mask : (~~~15 : UInt64).toNat = (2 ^ 60 - 1) <<< 4 := by decide
  have shifted : w.toNat / 16 * 16 = (w.toNat >>> 4) <<< 4 := by
    rw [Nat.shiftLeft_eq, Nat.shiftRight_eq_div_pow]
  rw [UInt64.toNat_and, mask, shifted]
  refine Nat.eq_of_testBit_eq fun i => ?_
  simp only [Nat.testBit_and, Nat.testBit_shiftLeft, Nat.testBit_shiftRight,
    Nat.testBit_two_pow_sub_one]
  by_cases low : 4 ≤ i
  · by_cases high : i < 64
    · have near : i - 4 < 60 := by omega
      simp [low, near, Nat.add_sub_cancel' low]
    · have top : w.toNat.testBit i = false := Nat.testBit_lt_two_pow
        (Nat.lt_of_lt_of_le w.toNat_lt (Nat.pow_le_pow_right (by decide) (by omega)))
      simp [low, top, Nat.add_sub_cancel' low]
  · simp [low]

theorem toNat_calledBase {sp : UInt64} (room : sp.toNat + stackBytes ≤ 2 ^ 64) :
    (calledBase sp).toNat = (sp.toNat + stackTop) / 16 * 16 - 16 := by
  have sum : (sp + UInt64.ofNat stackTop).toNat = sp.toNat + stackTop := by
    unfold stackBytes at room
    rw [UInt64.toNat_add, UInt64.toNat_ofNat']
    unfold stackTop
    omega
  have top : (callTop sp).toNat = (sp.toNat + stackTop) / 16 * 16 := by
    rw [callTop, toNat_and_not_fifteen, sum]
  have above : 16 ≤ callTop sp := by
    rw [UInt64.le_iff_toNat_le, top]
    unfold stackTop
    show 16 ≤ _
    omega
  rw [calledBase, UInt64.toNat_sub_of_le _ _ above, top]
  rfl

end Caller

namespace Baseline

/-- The frame of a function's code: how large it is, what is accessed in it, how its cells lie, and
where they are when a caller's frame begins at `sp`. -/
structure SafeFrame (f : Function) (blocks : List Block) (ls : List (Line Mark)) : Prop where
  aligned : frameSize f.regTypes.size blocks % 16 = 0
  bounded : frameSize f.regTypes.size blocks ≤ 16000
  accesses : ∀ r d, .instr (.load r d) ∈ ls ∨ .instr (.store d r) ∈ ls → IsCell f (mostPhis blocks) d
  inside : ∀ x : Cell, x.Of f (mostPhis blocks) →
    -(frameSize f.regTypes.size blocks : Int) ≤ (x.distance f).toInt ∧ (x.distance f).toInt ≤ -8
  apart : ∀ x y : Cell, x.Of f (mostPhis blocks) → y.Of f (mostPhis blocks) → x ≠ y →
    (x.distance f).toInt + 8 ≤ (y.distance f).toInt ∨ (y.distance f).toInt + 8 ≤ (x.distance f).toInt
  lent : ∀ sp : UInt64, sp.toNat + stackBytes ≤ 2 ^ 64 →
    (calledBase sp).toNat + 16 ≤ sp.toNat + stackBytes ∧ ∀ x : Cell, x.Of f (mostPhis blocks) →
      sp.toNat + 8 ≤ (calledBase sp + (x.distance f).toInt64.toUInt64).toNat ∧
      (calledBase sp + (x.distance f).toInt64.toUInt64).toNat + 8 ≤ (calledBase sp).toNat

section Cells

variable {f : Function} {spares : Nat} {x y : Cell}

theorem Cell.Of.toInt_distance (cell : x.Of f spares) (few : f.regTypes.size + spares ≤ 2000) :
    (x.distance f).toInt = -8 * ((x.number f : Int) + 1) := by
  have near := cell.number_lt
  rw [x.distance_eq f]
  exact Int32.toInt_ofInt_of_le (by omega) (by omega)

theorem Cell.Of.apart (first : x.Of f spares) (second : y.Of f spares)
    (few : f.regTypes.size + spares ≤ 2000) (other : x ≠ y) :
    (x.distance f).toInt + 8 ≤ (y.distance f).toInt ∨
      (y.distance f).toInt + 8 ≤ (x.distance f).toInt := by
  rw [first.toInt_distance few, second.toInt_distance few]
  have different : x.number f ≠ y.number f := fun same => other (first.number_inj second same)
  omega

/-- A cell is below the base pointer and above the word at the bottom of the caller's frame. -/
theorem Cell.Of.lent (cell : x.Of f spares) (few : f.regTypes.size + spares ≤ 2000) {sp : UInt64}
    (room : sp.toNat + stackBytes ≤ 2 ^ 64) :
    sp.toNat + 8 ≤ (calledBase sp + (x.distance f).toInt64.toUInt64).toNat ∧
      (calledBase sp + (x.distance f).toInt64.toUInt64).toNat + 8 ≤ (calledBase sp).toNat := by
  have near := cell.number_lt
  have base := toNat_calledBase room
  unfold stackBytes at room
  unfold stackTop at base
  have address : calledBase sp + (x.distance f).toInt64.toUInt64 =
      UInt64.ofNat ((calledBase sp).toNat - 8 * (x.number f + 1)) := by
    have sum := ofNat_add_distance (a := (calledBase sp).toNat)
      (m := (calledBase sp).toNat - 8 * (x.number f + 1)) (n := -8 * ((x.number f : Int) + 1))
      (by omega) (by omega) (by omega)
    rwa [UInt64.ofNat_toNat, ← x.distance_eq f] at sum
  have inside : (calledBase sp).toNat - 8 * (x.number f + 1) < 2 ^ 64 := by omega
  rw [address, UInt64.toNat_ofNat', Nat.mod_eq_of_lt inside]
  omega

theorem nearest_isCell : Nearest (f.regTypes.size + spares) (IsCell f spares) := by
  rintro _ ⟨x, cell, rfl⟩
  exact ⟨x.number f, cell.number_lt, x.distance_eq f⟩

end Cells

variable {f : Function} {c : CompiledCode}

theorem Accepts.safeFrame (accepts : Accepts f c) (numbered : f.WellNumbered)
    (params : ∀ p ∈ f.params, f.declares p = true) {blocks : List Block}
    (all : f.allBlocks = .ok blocks) {ls : List (Line Mark)} (made : lines f = .ok ls) :
    f.regTypes.size + mostPhis blocks ≤ 2000 ∧ SafeFrame f blocks ls := by
  obtain ⟨blocks', all', bound⟩ := accepts.frame
  cases all.symm.trans all'
  have few : f.regTypes.size + mostPhis blocks ≤ 2000 := by
    rw [frameSize_eq, maxFrame] at bound
    omega
  refine ⟨few, ?_, bound, fun r d accessed => ?_, fun x cell => ?_, fun x y first second =>
    first.apart second few, fun sp room => ⟨?_, fun x cell => cell.lent few room⟩⟩
  · rw [frameSize_eq]
    omega
  · obtain ⟨body, rfl, framed⟩ := accepts.framed numbered params all made
    simp only [List.mem_cons, Line.instr.injEq, reduceCtorEq, false_or] at accessed
    rcases accessed with load | store
    · exact framed.distance load rfl
    · exact framed.distance store rfl
  · have near := cell.number_lt
    rw [cell.toInt_distance few, frameSize_eq]
    omega
  · rw [toNat_calledBase room]
    unfold stackTop stackBytes
    omega

/-- The code of a function keeps to its frame. The frame is a multiple of sixteen and has at most
16000 bytes, every access of the code is at the distance of a cell, the cells are apart and within
the frame, and the caller's word at the bottom is below them all. On the machine a call reads and
writes no word but those above the bottom one, and leaves that as it was. -/
theorem compiled_stack_safe {m : Module} (accepted : m.defects = .ok []) (member : f ∈ m.functions)
    (made : compile f = .ok c) : ∃ blocks ls, f.allBlocks = .ok blocks ∧ lines f = .ok ls ∧
      machineCode f = .ok c.code ∧ SafeFrame f blocks ls ∧
      (c.code.length < reach → ∀ (base : Nat) (s : State), 2000 < base → s.Called (base + 1) →
        s.ip = 0 → ∀ (count : Nat) (t : State), (Program.ofBytes c.code).Steps count s t →
          t.stackWord 0 = s.stackWord 0 ∧ ∀ i size,
            (Program.ofBytes c.code)[t.ip]? = some (some (i, size)) → ∀ a ∈ i.access? t,
              ∃ k, 0 < k ∧ k ≤ base + 1 ∧ a = stackBase + UInt64.ofNat (8 * k)) := by
  have accepts := accepts_of_compile made
  have formed := wellFormed_of_accepted accepted member accepts.internal
  obtain ⟨blocks, all, _⟩ := accepts.frame
  obtain ⟨ls, lined, _⟩ := bind_eq_ok.mp accepts.code
  obtain ⟨few, safe⟩ := accepts.safeFrame formed.numbered formed.declared all lined
  refine ⟨blocks, ls, all, lined, accepts.code, safe, ?_⟩
  intro short base s deep called start count t steps
  have framed := accepts.framed formed.numbered formed.declared all lined
  obtain ⟨place, assembled⟩ :=
    assembled_of_machineCode formed.numbered accepts.code short lined framed
  have began : Phase (IsCell f (mostPhis blocks)) ls base s := by
    obtain ⟨body, whole, framed⟩ := framed
    exact .called ⟨[], whole, start⟩ framed
      ⟨called.whole, called.pointer, called.inside, called.small⟩
  obtain ⟨phase, kept⟩ := began.steps assembled nearest_isCell (by omega) steps
  refine ⟨kept 0 (by omega), fun i size at_ip a accessed => ?_⟩
  obtain ⟨k, low, high, rfl⟩ := phase.lies assembled nearest_isCell (by omega) at_ip accessed
  exact ⟨k, by omega, high, rfl⟩

theorem compiled_stack_safe_fibonacci : ∃ c blocks ls, compile fibonacci = .ok c ∧
    lines fibonacci = .ok ls ∧ SafeFrame fibonacci blocks ls ∧
    frameSize fibonacci.regTypes.size blocks = 96 ∧
    ∀ (words : Convention.Words) (count : Nat) (t : State), words.ints.size = 8 →
      (Program.ofBytes c.code).Steps count (State.ofCall words) t →
        t.stackWord 0 = (State.ofCall words).stackWord 0 := by
  obtain ⟨c, made, short⟩ : ∃ c, compile fibonacci = .ok c ∧ c.code.length < reach := by
    have some : (compile fibonacci).toOption.any (·.code.length < 2 ^ 31) = true := by decide +kernel
    cases made : compile fibonacci with
    | ok c => exact ⟨c, rfl, by simpa [made, Except.toOption, reach] using some⟩
    | error e => simp [made, Except.toOption] at some
  obtain ⟨blocks, ls, all, lined, -, safe, run⟩ :=
    compiled_stack_safe (m := { functions := #[fibonacci] }) (by decide +kernel) (by simp) made
  refine ⟨c, blocks, ls, made, lined, safe, ?_, fun words count t size steps => ?_⟩
  · have counted : fibonacci.allBlocks.map (frameSize fibonacci.regTypes.size) = .ok 96 := by
      decide +kernel
    obtain ⟨blocks', all', same⟩ := map_eq_ok.mp counted
    cases all.symm.trans all'
    exact same
  · obtain ⟨called, start, -⟩ := lends_idle.calling size
    exact (run short 2038 _ (by decide) called start count t steps).1

end Baseline

end TieredEngine.Native.X64
