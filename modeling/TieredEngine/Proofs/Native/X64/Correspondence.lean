import TieredEngine.Proofs.Eval.Normality
import TieredEngine.Proofs.Native.X64.Operations

/-!
A machine's frame beside an evaluator's frame. Each register that the evaluator has written has its
value in its slot, in normal form and of its declared type; above the slots lie the caller's base
pointer and the return address. Instructions and phis keep the two frames together.
-/
namespace TieredEngine.Native.X64
open TieredEngine TieredEngine.Ir TieredEngine.Eval

/-- A running call: its function, where its base pointer points, and its caller's. -/
structure Activation where
  function : Function
  base : Nat
  caller : UInt64

namespace Activation

/-- The function's registers are integer words and have slots, besides `spares` further ones. -/
structure Fits (a : Activation) (spares : Nat) : Prop where
  room : a.function.regTypes.size + spares ≤ a.base
  words : ∀ r t, a.function.regType? r = some t → t.isFloat = false

/-- The machine's frame holds what the evaluator's frame holds. -/
structure Mirrors (a : Activation) (fr : Frame) (s : State) : Prop where
  function : fr.function = a.function
  sized : fr.Sized
  frame : s.OnFrame a.base
  top : a.base + 1 < s.stack.size
  saved : s.stackWord a.base = a.caller
  returns : s.stackWord (a.base + 1) = returnAddress
  held : ∀ r v, fr.reg? r = some v → s.Holds a.base r v ∧ a.function.regType? r = some v.ty

variable {a : Activation} {spares : Nat} {fr g : Frame} {s t : State}

theorem regType?_lt {f : Function} {r : Ir.Reg} {ty : Ty} (known : f.regType? r = some ty) :
    r.num < f.regTypes.size := by
  unfold Function.regType? at known
  exact (Array.getElem?_eq_some_iff.mp known).1

theorem Mirrors.keeps (mirrors : a.Mirrors fr s) (keeps : s.Keeps t) : a.Mirrors fr t where
  function := mirrors.function
  sized := mirrors.sized
  frame := keeps.onFrame mirrors.frame
  top := keeps.stack ▸ mirrors.top
  saved := (keeps.stackWord _).trans mirrors.saved
  returns := (keeps.stackWord _).trans mirrors.returns
  held := fun r v held =>
    ⟨keeps.holds (mirrors.held r v held).1, (mirrors.held r v held).2⟩

/-- The offset of the next instruction and the counters do not matter. -/
theorem Mirrors.moved (mirrors : a.Mirrors fr s) (ip : Nat) : a.Mirrors fr { s with ip } :=
  ⟨mirrors.function, mirrors.sized, ⟨mirrors.frame.whole, mirrors.frame.base, mirrors.frame.inside,
    mirrors.frame.small⟩, mirrors.top, mirrors.saved, mirrors.returns, fun r v held =>
    ⟨⟨(mirrors.held r v held).1.below, (mirrors.held r v held).1.held,
      (mirrors.held r v held).1.normal, (mirrors.held r v held).1.word⟩, (mirrors.held r v held).2⟩⟩

theorem Mirrors.counted (mirrors : a.Mirrors fr s) (block : BlockId) (stats : Stats) :
    a.Mirrors { fr with block, stats } s :=
  ⟨mirrors.function, mirrors.sized, mirrors.frame, mirrors.top, mirrors.saved, mirrors.returns,
    mirrors.held⟩

/-- A word in a slot beyond the registers is of no account. -/
theorem Mirrors.setSpare (mirrors : a.Mirrors fr s) {k : Nat} (below : k < a.base)
    (beyond : a.function.regTypes.size ≤ k) (w : UInt64) : a.Mirrors fr (s.setSlot a.base k w) where
  function := mirrors.function
  sized := mirrors.sized
  frame := mirrors.frame.setSlot k w
  top := by simpa [State.setSlot, State.setStackWord] using mirrors.top
  saved := (mirrors.frame.above_setSlot below w (Nat.le_refl _)).trans mirrors.saved
  returns := (mirrors.frame.above_setSlot below w (Nat.le_succ _)).trans mirrors.returns
  held := by
    intro r v held
    obtain ⟨holds, known⟩ := mirrors.held r v held
    have inside := regType?_lt known
    refine ⟨⟨holds.below, ?_, holds.normal, holds.word⟩, known⟩
    rw [mirrors.frame.slot_setSlot below w holds.below, if_neg (by omega), holds.held]

/-- Writing a register and writing its slot. -/
theorem Mirrors.set (mirrors : a.Mirrors fr s) (fits : a.Fits spares) {r : Ir.Reg} {v : Value}
    (normal : v.Normal) (written : fr.set r v = .ok g) :
    a.Mirrors g (s.setSlot a.base r.num v.bits) := by
  obtain ⟨known, rfl⟩ := Frame.set_eq_ok.mp written
  rw [mirrors.function] at known
  have below : r.num < a.base := by
    have room := fits.room
    have inside := regType?_lt known
    omega
  have declared : fr.function.declares r = true := by
    rw [mirrors.function]
    exact Option.isSome_iff_exists.mpr ⟨_, known⟩
  refine ⟨mirrors.function, Frame.sized_put mirrors.sized r v, mirrors.frame.setSlot _ _,
    by simpa [State.setSlot, State.setStackWord] using mirrors.top,
    (mirrors.frame.above_setSlot below _ (Nat.le_refl _)).trans mirrors.saved,
    (mirrors.frame.above_setSlot below _ (Nat.le_succ _)).trans mirrors.returns, ?_⟩
  intro x y held
  rw [Frame.reg?_put mirrors.sized declared] at held
  split at held
  · next same =>
    cases held
    subst same
    refine ⟨⟨below, ?_, normal, fits.words x _ known⟩, known⟩
    rw [mirrors.frame.slot_setSlot below _ below, if_pos rfl]
  · next other =>
    obtain ⟨holds, typed⟩ := mirrors.held x y held
    refine ⟨⟨holds.below, ?_, holds.normal, holds.word⟩, typed⟩
    rw [mirrors.frame.slot_setSlot below _ holds.below,
      if_neg fun same => other (Reg.num_inj.mp same), holds.held]

theorem Mirrors.reads (mirrors : a.Mirrors fr s) {rs : List Ir.Reg} {vs : List Value}
    (reads : fr.Reads rs vs) : List.Forall₂ (s.Holds a.base) rs vs :=
  reads.imp fun r v held => (mirrors.held r v held).1

/-- The end of an instruction's code: the word in a register is stored. -/
theorem Mirrors.store (mirrors : a.Mirrors fr s) (fits : a.Fits spares) {r : Ir.Reg} {v : Value}
    (normal : v.Normal) (written : fr.set r v = .ok g) {x : X64.Reg} (held : s.get x = v.bits) :
    ∃ u, runStraight [(.store (Baseline.slot r) x : Instr Baseline.Mark)] s = .ok u ∧
      a.Mirrors g u := by
  obtain ⟨known, _⟩ := Frame.set_eq_ok.mp written
  rw [mirrors.function] at known
  have below : r.num < a.base := by
    have room := fits.room
    have inside := regType?_lt known
    omega
  have stored : ((Instr.store (Baseline.slot r) x : Instr Baseline.Mark).mapTarget
      fun _ => (0 : Int32)).step s = .ok (s.setSlot a.base r.num (s.get x)) :=
    mirrors.frame.store below x
  refine ⟨_, ?_, mirrors.set fits normal written⟩
  rw [runStraight_cons stored, held]
  rfl

section Instructions

/-- An instruction that evaluation finishes computes a value and writes it. -/
theorem value_of_exec {κ ε : Type} {call : Call κ ε} {known : FuncId → Bool} {w w' : World κ}
    {i : Inst} (allowed : Baseline.checkInst i = .ok ()) (ran : fr.exec call known w i = (.ok g, w')) :
    w' = w ∧ ∃ v, fr.value w.globals i = .ok v ∧ fr.set i.dest v = .ok g := by
  unfold Frame.exec at ran
  split at ran
  · next op => simp [Baseline.checkInst, op, Op.isFloat, Baseline.refuse] at allowed
  · next op => simp [Baseline.checkInst, op, Op.isFloat, Baseline.refuse] at allowed
  · split at ran
    · cases ran
    · next v valued =>
      rw [Prod.mk.injEq] at ran
      exact ⟨ran.2.symm, v, valued, (mapError_eq_ok.mp ran.1)⟩

/-- An operation that reads nothing has a value whatever its operands are. -/
theorem reads_or_fixed {i : Inst} (allowed : Baseline.checkInst i = .ok ()) {globals : Array Value}
    {v : Value} (valued : fr.value globals i = .ok v) :
    (∃ vs, fr.Reads i.args vs ∧ compute globals i vs = .ok v) ∨
      (i.op = .const ∧ v = i.const) ∨ (i.op = .undef ∧ v = .zero i.ty) := by
  cases read : i.args.mapM fr.get with
  | ok vs =>
    have reads := Frame.mapM_get_eq_ok.mp read
    rw [Frame.value_eq_compute reads] at valued
    refine .inl ⟨vs, reads, ?_⟩
    cases computed : compute globals i vs <;> simp_all [Frame.located]
  | error e =>
    have fails : ∀ n (k : List Value → Except Error Value), (fr.operands i n >>= k) ≠ .ok v := by
      intro n k
      unfold Frame.operands
      split <;> simp [read, bind, Except.bind]
    unfold Frame.value at valued
    split at valued
    · next op =>
      cases valued
      exact .inr (.inl ⟨op, rfl⟩)
    · next op =>
      cases valued
      exact .inr (.inr ⟨op, rfl⟩)
    · exact absurd valued (fails _ _)
    · exact absurd valued (fails _ _)
    · exact absurd valued (fails _ _)
    · next op => simp [Baseline.checkInst, op, Op.isFloat, Baseline.refuse] at allowed
    · cases valued
    · split at valued
      · exact absurd valued (fails _ _)
      · exact absurd valued (fails _ _)

/-- Choosing between two loaded words. -/
theorem Mirrors.select (mirrors : a.Mirrors fr s) {i : Inst} {first second third : Int32}
    (made : Baseline.argSlot i 0 = .ok first) (made' : Baseline.argSlot i 1 = .ok second)
    (made'' : Baseline.argSlot i 2 = .ok third) {c x y v : Value}
    (args : List.Forall₂ (s.Holds a.base) i.args [c, x, y])
    (chosen : Eval.select c x y = .ok v) :
    ∃ u, runStraight [(.load .rax first : Instr Baseline.Mark), .load .rcx second,
      .load .rdx third, .alu .test .rax .rax, .cmov .ne .rdx .rcx] s = .ok u ∧
      s.Keeps u ∧ u.get .rdx = v.bits := by
  obtain ⟨r, found, rfl⟩ := Baseline.argSlot_eq_ok.mp made
  obtain ⟨r', found', rfl⟩ := Baseline.argSlot_eq_ok.mp made'
  obtain ⟨r'', found'', rfl⟩ := Baseline.argSlot_eq_ok.mp made''
  have held : s.Holds a.base r c ∧ s.Holds a.base r' x ∧ s.Holds a.base r'' y := by
    generalize i.args = rs at args found found' found''
    cases args with
    | cons one others =>
      cases others with
      | cons two others =>
        cases others with
        | cons three none =>
          cases found
          cases found'
          cases found''
          exact ⟨one, two, three⟩
  have frame := mirrors.frame
  have keeps := (State.Keeps.refl frame.whole).set (by decide : X64.Reg.rax ≠ .rbp) c.bits
  have keeps' := keeps.set (by decide : X64.Reg.rcx ≠ .rbp) x.bits
  have keeps'' := keeps'.set (by decide : X64.Reg.rdx ≠ .rbp) y.bits
  rw [runStraight_load frame held.1, runStraight_load (keeps.onFrame frame) (keeps.holds held.2.1),
    runStraight_load (keeps'.onFrame frame) (keeps'.holds held.2.2)]
  let u := ((s.set .rax c.bits).set .rcx x.bits).set .rdx y.bits
  have rax : u.get .rax = c.bits := by
    rw [State.get_set keeps'.whole, if_neg (by decide), State.get_set keeps.whole,
      if_neg (by decide), State.get_set frame.whole, if_pos rfl]
  have rcx : u.get .rcx = x.bits := by
    rw [State.get_set keeps'.whole, if_neg (by decide), State.get_set keeps.whole, if_pos rfl]
  have rdx : u.get .rdx = y.bits := by
    rw [State.get_set keeps'.whole, if_pos rfl]
  let t : State := { u with flags := some (.ofWord (u.get .rax &&& u.get .rax)) }
  have kept : s.Keeps t := ⟨keeps''.whole, keeps''.base, keeps''.stack⟩
  have nonzero : Cond.ne.holds (.ofWord (u.get .rax &&& u.get .rax)) = c.toBool := by
    rw [rax, UInt64.and_self]
    rfl
  refine ⟨if c.toBool then t.set .rdx (t.get .rcx) else t, ?_, ?_, ?_⟩
  · show Except.ok (if Cond.ne.holds (.ofWord (u.get .rax &&& u.get .rax)) then
      t.set .rdx (t.get .rcx) else t) = _
    rw [nonzero]
  · split
    · exact kept.set (by decide) _
    · exact kept
  · unfold Eval.select at chosen
    split at chosen
    · cases chosen
    · cases chosen
      split
      · rw [State.get_set kept.whole, if_pos rfl]
        exact rcx
      · exact rdx

/-- What an instruction writes into a register is in normal form. -/
theorem Mirrors.normal (mirrors : a.Mirrors fr s) (fits : a.Fits spares) {i : Inst}
    (const : i.op = .const → i.const.Normal) {vs : List Value} (reads : fr.Reads i.args vs)
    (allowed : Baseline.checkInst i = .ok ()) {globals : Array Value} {v : Value}
    (computed : compute globals i vs = .ok v) (written : fr.set i.dest v = .ok g) : v.Normal := by
  obtain ⟨known, _⟩ := Frame.set_eq_ok.mp written
  rw [mirrors.function] at known
  -- no global is read, so the globals may be taken to be none
  have alone : compute #[] i vs = .ok v := by
    rw [← computed]
    unfold compute
    split <;> try rfl
    next op => simp [Baseline.checkInst, op, Op.isFloat, Baseline.refuse] at allowed
  refine closed_normalWord.compute #[] i vs v (by simp) (fun x member => ?_)
    (fun op _ => const op) alone (fits.words _ _ known)
  obtain ⟨r, _, held⟩ := forall₂_partner reads.flip member
  exact fun _ => (mirrors.held r x held).1.normal

/-- The code of one instruction does what evaluating it does. -/
theorem Mirrors.inst {κ ε : Type} {call : Call κ ε} {known : FuncId → Bool} {w w' : World κ}
    {i : Inst} {code : Baseline.Code} (mirrors : a.Mirrors fr s) (fits : a.Fits spares)
    (allowed : Baseline.checkInst i = .ok ()) (const : i.op = .const → i.const.Normal)
    (made : Baseline.instCode i = .ok code) (ran : fr.exec call known w i = (.ok g, w')) :
    w' = w ∧ ∃ u, runStraight code s = .ok u ∧ a.Mirrors g u := by
  obtain ⟨rfl, v, valued, written⟩ := value_of_exec allowed ran
  refine ⟨rfl, ?_⟩
  have ends : ∀ front : Baseline.Code, Yields front s v.bits → v.Normal →
      ∃ u, runStraight (front ++ [.store (Baseline.slot i.dest) .rax]) s = .ok u ∧
        a.Mirrors g u := by
    rintro front ⟨t, ran, keeps, held⟩ normal
    rw [runStraight_append ran]
    exact (mirrors.keeps keeps).store fits normal written held
  unfold Baseline.instCode at made
  split at made
  · next op =>
    obtain ⟨d, found, more⟩ := bind_eq_ok.mp made
    obtain ⟨d', found', more⟩ := bind_eq_ok.mp more
    obtain ⟨d'', found'', same⟩ := bind_eq_ok.mp more
    cases same
    rcases reads_or_fixed allowed valued with ⟨vs, reads, computed⟩ | ⟨other, _⟩ | ⟨other, _⟩
    · have normal := mirrors.normal fits const reads allowed computed written
      have args := mirrors.reads reads
      rcases vs with _ | ⟨c, _ | ⟨x, _ | ⟨y, _ | ⟨z, vs⟩⟩⟩⟩ <;>
        simp only [compute, op, reduceCtorEq] at computed
      obtain ⟨u, ran, keeps, held⟩ := mirrors.select found found' found'' args computed
      obtain ⟨t, stored, mirrored⟩ := (mirrors.keeps keeps).store fits normal written held
      refine ⟨t, ?_, mirrored⟩
      exact (@runStraight_append _ _ [.store (Baseline.slot i.dest) .rdx] _ _ ran).trans stored
    · rw [op] at other
      cases other
    · rw [op] at other
      cases other
  · next notSelect =>
    obtain ⟨front, fronted, same⟩ := bind_eq_ok.mp made
    cases same
    rcases reads_or_fixed allowed valued with ⟨vs, reads, computed⟩ | ⟨op, rfl⟩ | ⟨op, rfl⟩
    · exact ends front (yields_value fronted allowed (mirrors.reads reads) computed mirrors.frame)
        (mirrors.normal fits const reads allowed computed written)
    · refine ends front ?_ (const op)
      refine @yields_value s a.base { i with args := [] } front ?_ ?_ [] .nil #[] i.const ?_
        mirrors.frame
      · simpa [Baseline.valueCode, op] using fronted
      · simp [Baseline.checkInst, op, Op.isFloat]
      · simp [compute, op]
    · refine ends front ?_ (Value.normal_zero _)
      refine @yields_value s a.base { i with args := [] } front ?_ ?_ [] .nil #[] (.zero i.ty) ?_
        mirrors.frame
      · simpa [Baseline.valueCode, op] using fronted
      · simp [Baseline.checkInst, op, Op.isFloat]
      · simp [compute, op]

/-- The code of a block's instructions does what evaluating them does. -/
theorem Mirrors.insts {κ ε : Type} {call : Call κ ε} {known : FuncId → Bool} {is : List Inst}
    {codes : List Baseline.Code} {w w' : World κ} (mirrors : a.Mirrors fr s) (fits : a.Fits spares)
    (allowed : ∀ i ∈ is, Baseline.checkInst i = .ok ())
    (const : ∀ i ∈ is, i.op = .const → i.const.Normal)
    (made : List.Forall₂ (fun i code => Baseline.instCode i = .ok code) is codes)
    (ran : Frame.execAll call known is fr w = (.ok g, w')) :
    w' = w ∧ ∃ u, runStraight codes.flatten s = .ok u ∧ a.Mirrors g u := by
  induction made generalizing fr s w with
  | nil =>
    cases ran
    exact ⟨rfl, s, rfl, mirrors⟩
  | @cons i code is codes first rest ih =>
    unfold Frame.execAll at ran
    split at ran
    · cases ran
    · next fr₁ w₁ executed =>
      obtain ⟨rfl, u, ran₁, mirrors₁⟩ := mirrors.inst fits (allowed i (by simp))
        (const i (by simp)) first executed
      obtain ⟨same, v, ran₂, mirrors₂⟩ := ih (mirrors₁.counted fr₁.block _)
        (fun j member => allowed j (by simp [member])) (fun j member => const j (by simp [member]))
        ran
      refine ⟨same, v, ?_, mirrors₂⟩
      rw [List.flatten_cons, runStraight_append ran₁]
      exact ran₂

end Instructions

end Activation

end TieredEngine.Native.X64
