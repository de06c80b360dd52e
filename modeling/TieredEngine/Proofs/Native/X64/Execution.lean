import TieredEngine.Proofs.Native.X64.Layout

/-!
Running machine code. Instructions that do not jump do the same work wherever they stand, so a
stretch of them is run as a list first and found in the program afterwards; jumps go to the places
of their labels.

What an instruction can touch is little. Memory is reached in two ways, through the stack pointer and
at a distance from the base pointer, and an instruction puts its result into one register at most;
the rest of the machine, the length of the stack included, is as before.
-/
namespace TieredEngine.Native.X64
open TieredEngine

namespace State

/-- All sixteen registers are there. -/
def Whole (s : State) : Prop := s.regs.size = 16

variable {s : State}

theorem get_set (whole : s.Whole) (r : Reg) (w : UInt64) (x : Reg) :
    (s.set r w).get x = if x = r then w else s.get x := by
  have bound : r.code < s.regs.size := by
    rw [whole]
    exact r.code_lt
  unfold get set
  rw [Array.getElem?_setIfInBounds]
  by_cases same : x = r
  · simp [same, bound]
  · have different : ¬ r.code = x.code := by
      intro equal
      apply same
      rw [← x.ofCode_code, ← r.ofCode_code, equal]
    simp [same, different]

@[simp] theorem whole_set (r : Reg) (w : UInt64) : (s.set r w).Whole ↔ s.Whole := by
  simp [Whole, set]

@[simp] theorem stack_set (r : Reg) (w : UInt64) : (s.set r w).stack = s.stack := rfl
@[simp] theorem flags_set (r : Reg) (w : UInt64) : (s.set r w).flags = s.flags := rfl
@[simp] theorem ip_set (r : Reg) (w : UInt64) : (s.set r w).ip = s.ip := rfl

end State

section Moving

/-- Moving an instruction that does not jump changes nothing else. -/
theorem step_ip {i : Instr Int32} (stays : i.target? = none) {s t : State}
    (stepped : i.step s = .ok t) (ip : Nat) :
    i.step { s with ip } = .ok { t with ip } := by
  cases i with
  | push r =>
    simp only [Instr.step, State.push, State.store] at stepped ⊢
    split at stepped
    · next n found =>
      cases stepped
      have same : State.wordAt? (State.set { s with ip } .rsp (State.get { s with ip } .rsp - 8))
        (State.get { s with ip } .rsp - 8) = some n := found
      simp only [same]
      rfl
    · cases stepped
  | pop r =>
    simp only [Instr.step, State.pop] at stepped ⊢
    split at stepped
    · next n there =>
      cases stepped
      have same : State.wordAt? { s with ip } (State.get { s with ip } .rsp) = some n := there
      simp only [same]
      rfl
    · cases stepped
  | ret =>
    simp only [Instr.step] at stepped
    obtain ⟨p, _, failed⟩ := bind_eq_ok.mp stepped
    cases failed
  | ud2 => cases stepped
  | alu op dst src =>
    cases stepped
    cases op <;> rfl
  | load r disp =>
    simp only [Instr.step, State.load] at stepped ⊢
    split at stepped
    · next n found =>
      cases stepped
      have same : State.wordAt? { s with ip } (frameAddress { s with ip } disp) = some n := found
      simp only [same]
      rfl
    · cases stepped
  | store disp r =>
    simp only [Instr.step, State.store] at stepped ⊢
    split at stepped
    · next n found =>
      cases stepped
      have same : State.wordAt? { s with ip } (frameAddress { s with ip } disp) = some n := found
      simp only [same]
      rfl
    · cases stepped
  | setcc c r =>
    obtain ⟨regs, flags, stack, _⟩ := s
    cases flags with
    | none => cases stepped
    | some f =>
      cases stepped
      rfl
  | cmov c dst src =>
    obtain ⟨regs, flags, stack, _⟩ := s
    cases flags with
    | none => cases stepped
    | some f =>
      cases stepped
      simp only [Instr.step]
      split <;> rfl
  | jmp d => cases stays
  | jcc c d => cases stays
  | _ =>
    cases stepped
    rfl

end Moving

section Straight

variable {τ : Type}

/-- Runs instructions that do not jump, wherever they stand. -/
def runStraight : List (Instr τ) → State → Step
  | [], s => .ok s
  | i :: rest, s => do
    let s ← (i.mapTarget fun _ => (0 : Int32)).step s
    runStraight rest s

theorem runStraight_cons {i : Instr τ} {rest : List (Instr τ)} {s t : State}
    (stepped : (i.mapTarget fun _ => (0 : Int32)).step s = .ok t) :
    runStraight (i :: rest) s = runStraight rest t := by
  rw [runStraight, stepped]
  rfl

theorem runStraight_append {front rest : List (Instr τ)} {s t : State}
    (first : runStraight front s = .ok t) : runStraight (front ++ rest) s = runStraight rest t := by
  induction front generalizing s with
  | nil =>
    cases first
    rfl
  | cons i front ih =>
    obtain ⟨u, stepped, more⟩ := bind_eq_ok.mp first
    rw [List.cons_append, runStraight_cons stepped]
    exact ih more

theorem stays_mapTarget {i : Instr τ} (stays : i.target? = none) (f : τ → Int32) :
    (i.mapTarget f).target? = none := by
  rw [i.target?_mapTarget, stays, Option.map_none]

theorem runStraight_ip {code : List (Instr τ)} (stays : ∀ i ∈ code, i.target? = none) {s t : State}
    (ran : runStraight code s = .ok t) (ip : Nat) :
    runStraight code { s with ip } = .ok { t with ip } := by
  induction code generalizing s with
  | nil =>
    cases ran
    rfl
  | cons i code ih =>
    obtain ⟨u, stepped, more⟩ := bind_eq_ok.mp ran
    have own := stays_mapTarget (stays i (List.mem_cons_self ..)) fun _ => 0
    rw [runStraight_cons (step_ip own stepped ip)]
    exact ih (fun j member => stays j (List.mem_cons_of_mem i member)) more

end Straight

namespace Program

/-- So many instructions lead from one state to another. -/
def Steps (p : Program) : Nat → State → State → Prop
  | 0, s, t => t = s
  | n + 1, s, t => ∃ u, p.step s = .ok u ∧ Steps p n u t

variable {p : Program}

theorem Steps.trans {m n : Nat} {s t u : State} (first : p.Steps m s t) (second : p.Steps n t u) :
    p.Steps (m + n) s u := by
  induction m generalizing s with
  | zero =>
    cases first
    rwa [Nat.zero_add]
  | succ m ih =>
    obtain ⟨v, stepped, more⟩ := first
    rw [Nat.succ_add]
    exact ⟨v, stepped, ih more⟩

theorem Steps.one {s t : State} (stepped : p.step s = .ok t) : p.Steps 1 s t := ⟨t, stepped, rfl⟩

/-- A run goes on from where steps lead. -/
theorem Steps.run {n : Nat} {s t : State} (steps : p.Steps n s t) (fuel : Nat) :
    p.run (n + fuel) s = p.run fuel t := by
  induction n generalizing s with
  | zero =>
    cases steps
    rw [Nat.zero_add]
  | succ n ih =>
    obtain ⟨u, stepped, more⟩ := steps
    rw [Nat.succ_add, Program.run, stepped]
    exact ih more

/-- Fuel beyond what a run needs changes nothing. -/
theorem run_mono {fuel more : Nat} {s : State} {out : Stop × State}
    (ran : p.run fuel s = some out) (enough : fuel ≤ more) : p.run more s = some out := by
  induction fuel generalizing s more with
  | zero => cases ran
  | succ fuel ih =>
    obtain ⟨more, rfl⟩ : ∃ k, more = k + 1 := ⟨more - 1, by omega⟩
    rw [run] at ran ⊢
    split at ran
    · exact ih ran (by omega)
    · exact ran

end Program

namespace Assembly

variable {ℓ : Type} {p : Program} {place : ℓ → Nat}

/-- One instruction of the assembly is one step of the program. -/
theorem Laid.step {i : Instr ℓ} {rest : List (Line ℓ)} {s : State}
    (laid : Laid p place s.ip (.instr i :: rest)) :
    p.step s = (i.mapTarget fun l =>
      Int32.ofInt ((place l : Int) - (s.ip + i.size : Nat))).step { s with ip := s.ip + i.size } := by
  simp only [Program.step, laid.1]

/-- Instructions that do not jump are run one after the other. -/
theorem Laid.straight {code : List (Instr ℓ)} {rest : List (Line ℓ)} {s t : State}
    (laid : Laid p place s.ip (code.map .instr ++ rest))
    (stays : ∀ i ∈ code, i.target? = none) (ran : runStraight code s = .ok t) :
    ∃ ip, p.Steps code.length s { t with ip } ∧ Laid p place ip rest := by
  induction code generalizing s t with
  | nil =>
    cases ran
    exact ⟨_, rfl, laid⟩
  | cons i code ih =>
    obtain ⟨u, stepped, more⟩ := bind_eq_ok.mp ran
    have own := stays i (List.mem_cons_self ..)
    have later := fun j member => stays j (List.mem_cons_of_mem i member)
    have there := laid.step
    rw [Instr.mapTarget_of_target? own _ fun _ => (0 : Int32),
      step_ip (stays_mapTarget own _) stepped] at there
    -- the rest runs from a state that differs in the offset alone
    obtain ⟨ip, steps, after⟩ := ih laid.2.2.2 later (runStraight_ip later more (s.ip + i.size))
    exact ⟨ip, ⟨_, there, steps⟩, after⟩

/-- A jump within reach goes where it was written to go. -/
theorem jump_place {s : State} {target : Nat} (near : target < reach) (here : s.ip < reach) :
    s.jump (Int32.ofInt ((target : Int) - s.ip)) = .ok { s with ip := target } := by
  have sum : (s.ip : Int) + (Int32.ofInt ((target : Int) - s.ip)).toInt = Int.ofNat target := by
    rw [toInt_distance here near, Int.ofNat_eq_natCast]
    omega
  unfold State.jump
  rw [sum]

theorem Laid.jmp {l : ℓ} {rest : List (Line ℓ)} {s : State}
    (laid : Laid p place s.ip (.instr (.jmp l) :: rest)) :
    p.step s = .ok { s with ip := place l } := by
  rw [laid.step]
  exact jump_place (s := { s with ip := s.ip + (Instr.jmp l).size }) (laid.2.2.1 l rfl) laid.2.1

/-- A conditional jump is taken if the flags say so, and control goes on behind it otherwise. -/
theorem Laid.jcc {c : Cond} {l : ℓ} {rest : List (Line ℓ)} {s : State} {flags : Flags}
    (laid : Laid p place s.ip (.instr (.jcc c l) :: rest)) (known : s.flags = some flags) :
    ∃ ip, p.step s = .ok { s with ip } ∧
      if c.holds flags then ip = place l else Laid p place ip rest := by
  rw [laid.step]
  obtain ⟨regs, _, stack, _⟩ := s
  cases known
  simp only [Instr.mapTarget, Instr.step]
  split
  · refine ⟨place l, ?_, rfl⟩
    exact jump_place (laid.2.2.1 l rfl) laid.2.1
  · exact ⟨_, rfl, laid.2.2.2⟩

end Assembly

section Effects

namespace Instr

variable {τ : Type}

/-- The register that gets the result. -/
def result? : Instr τ → Option Reg
  | pop r | alu _ r _ | movImm r _ | load r _ | widen _ r _ | mov32 r _ | imul r _ | andImm r _
  | xorImm r _ | neg r | not r | shift _ r | setcc _ r | cmov _ r _ => some r
  | _ => none

/-- The distance from the base pointer at which memory is read or written. -/
def distance? : Instr τ → Option Int32
  | load _ d | store d _ => some d
  | _ => none

/-- Whether memory is read or written through the stack pointer. -/
def onStack : Instr τ → Bool
  | push _ | pop _ | ret => true
  | _ => false

/-- The address of the word in memory that is read or written. -/
def access? (s : State) : Instr Int32 → Option UInt64
  | push _ => some (s.get .rsp - 8)
  | pop _ | ret => some (s.get .rsp)
  | load _ d | store d _ => some (frameAddress s d)
  | _ => none

variable {σ : Type} (f : σ → τ) (i : Instr σ)

@[simp] theorem result?_mapTarget : (i.mapTarget f).result? = i.result? := by cases i <;> rfl

@[simp] theorem distance?_mapTarget : (i.mapTarget f).distance? = i.distance? := by cases i <;> rfl

@[simp] theorem onStack_mapTarget : (i.mapTarget f).onStack = i.onStack := by cases i <;> rfl

end Instr

/-- All registers but the stack pointer and `x` keep their words, and no part of the machine goes. -/
structure State.Spares (s t : State) (x : Option Reg) : Prop where
  whole : t.Whole
  size : t.stack.size = s.stack.size
  others : ∀ r, r ≠ .rsp → x ≠ some r → t.get r = s.get r

variable {s t : State}

theorem State.Spares.refl (whole : s.Whole) (x : Option Reg) : s.Spares s x :=
  ⟨whole, rfl, fun _ _ _ => rfl⟩

theorem State.spares_set (whole : s.Whole) (r : Reg) (w : UInt64) : s.Spares (s.set r w) (some r) where
  whole := (State.whole_set r w).mpr whole
  size := rfl
  others x _ other := by
    rw [State.get_set whole, if_neg]
    rintro rfl
    exact other rfl

theorem State.spares_jump (whole : s.Whole) {d : Int32} (jumped : s.jump d = .ok t)
    (x : Option Reg) : s.Spares t x := by
  unfold State.jump at jumped
  split at jumped
  · cases jumped
    exact ⟨whole, rfl, fun _ _ _ => rfl⟩
  · cases jumped

/-- An instruction that does not go through the stack pointer changes the register of its result,
and the stack pointer at most. -/
theorem Instr.step_spares {i : Instr Int32} (whole : s.Whole) (off : i.onStack = false)
    (stepped : i.step s = .ok t) : s.Spares t i.result? := by
  have written := fun r w => State.spares_set whole r w
  cases i with
  | push r => cases off
  | pop r => cases off
  | ret => cases off
  | ud2 => cases stepped
  | subRsp n =>
    cases stepped
    refine ⟨(State.whole_set .rsp _).mpr whole, rfl, fun r other _ => ?_⟩
    exact (State.get_set whole .rsp _ r).trans (if_neg other)
  | alu op dst src =>
    cases stepped
    split
    · exact ⟨(written dst _).whole, rfl, (written dst _).others⟩
    · exact ⟨whole, rfl, fun _ _ _ => rfl⟩
  | load r d =>
    simp only [Instr.step, State.load] at stepped
    split at stepped <;> cases stepped
    exact written r _
  | store d r =>
    simp only [Instr.step, State.store] at stepped
    split at stepped <;> cases stepped
    exact ⟨whole, by simp [State.setStackWord], fun _ _ _ => rfl⟩
  | setcc c r =>
    simp only [Instr.step] at stepped
    split at stepped <;> cases stepped
    exact written r _
  | cmov c dst src =>
    simp only [Instr.step] at stepped
    split at stepped
    · cases stepped
    · cases stepped
      split
      · exact written dst _
      · exact .refl whole _
  | jmp d => exact State.spares_jump whole stepped _
  | jcc c d =>
    simp only [Instr.step] at stepped
    split at stepped
    · cases stepped
    · split at stepped
      · exact State.spares_jump whole stepped _
      · cases stepped
        exact .refl whole _
  | imul dst src =>
    cases stepped
    exact ⟨(written dst _).whole, rfl, (written dst _).others⟩
  | andImm r imm =>
    cases stepped
    exact ⟨(written r _).whole, rfl, (written r _).others⟩
  | xorImm r imm =>
    cases stepped
    exact ⟨(written r _).whole, rfl, (written r _).others⟩
  | neg r =>
    cases stepped
    exact ⟨(written r _).whole, rfl, (written r _).others⟩
  | shift k r =>
    cases stepped
    exact ⟨(written r _).whole, rfl, (written r _).others⟩
  | _ =>
    cases stepped
    exact written _ _

theorem State.stackWord_other {j k : Nat} (other : j ≠ k) (w : UInt64) :
    (s.setStackWord j w).stackWord k = s.stackWord k := by
  unfold State.setStackWord State.stackWord
  rw [Array.getElem?_setIfInBounds_ne other]

theorem State.stackWord_jump {d : Int32} (jumped : s.jump d = .ok t) (k : Nat) :
    t.stackWord k = s.stackWord k := by
  unfold State.jump at jumped
  split at jumped <;> cases jumped
  rfl

/-- Only the word that an instruction accesses changes in memory. -/
theorem Instr.step_stackWord {i : Instr Int32} (stepped : i.step s = .ok t) {k : Nat}
    (other : ∀ a ∈ i.access? s, s.wordAt? a ≠ some k) : t.stackWord k = s.stackWord k := by
  cases i with
  | push r =>
    simp only [Instr.step, State.push, State.store] at stepped
    split at stepped
    · next j found =>
      cases stepped
      refine State.stackWord_other (s := s.set .rsp _) (fun same => ?_) _
      exact other _ rfl (same ▸ found)
    · cases stepped
  | store d r =>
    simp only [Instr.step, State.store] at stepped
    split at stepped
    · next j found =>
      cases stepped
      refine State.stackWord_other (fun same => ?_) _
      exact other _ rfl (same ▸ found)
    · cases stepped
  | pop r =>
    obtain ⟨⟨w, u⟩, popped, ⟨⟩⟩ := bind_eq_ok.mp stepped
    unfold State.pop at popped
    dsimp only at popped
    split at popped <;> cases popped
    rfl
  | ret =>
    obtain ⟨_, _, failed⟩ := bind_eq_ok.mp stepped
    cases failed
  | ud2 => cases stepped
  | alu op dst src =>
    cases stepped
    split <;> rfl
  | load r d =>
    simp only [Instr.step, State.load] at stepped
    split at stepped <;> cases stepped
    rfl
  | setcc c r =>
    simp only [Instr.step] at stepped
    split at stepped <;> cases stepped
    rfl
  | cmov c dst src =>
    simp only [Instr.step] at stepped
    split at stepped <;> cases stepped
    split <;> rfl
  | jmp d => exact State.stackWord_jump stepped k
  | jcc c d =>
    simp only [Instr.step] at stepped
    split at stepped
    · cases stepped
    · split at stepped
      · exact State.stackWord_jump stepped k
      · cases stepped
        rfl
  | _ =>
    cases stepped
    rfl

/-- An instruction that does not jump leaves the offset of the next one alone. -/
theorem Instr.step_stays {i : Instr Int32} (stays : i.target? = none)
    (stepped : i.step s = .ok t) : t.ip = s.ip := by
  have moved : i.step s = .ok { t with ip := s.ip } := step_ip stays stepped s.ip
  have same : t = { t with ip := s.ip } := Except.ok.inj (stepped.symm.trans moved)
  rw [same]

end Effects

end TieredEngine.Native.X64
