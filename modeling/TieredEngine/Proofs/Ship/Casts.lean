import TieredEngine.Ir.Typing
import TieredEngine.Proofs.Eval.Normality
import TieredEngine.Proofs.Eval.Safety
import TieredEngine.Proofs.Native.X64.Operations
import TieredEngine.Proofs.Ship.Lowering.Operations

/-!
Conversions between booleans, integers and addresses in the three places that carry them out: the
evaluator goes by the type of the operand's value, compiled code by the result's type alone, lowered
code by the type that the instruction names for its operand. What lowered code computes is compared at
the width of the result. The three agree where the named type widens as the operand's own does; nothing
checks that it does.
-/
namespace TieredEngine

namespace Native.X64
open Ir

/-- The code of a conversion between words loads the operand's slot and stores the converted value
in the destination's. -/
theorem cast_stores {i : Inst} {r : Ir.Reg} (op : i.op = .cast) (operand : i.args[0]? = some r)
    {v w : Value} (normal : v.Normal) (source : v.ty.isFloat = false)
    (target : i.ty.isFloat = false) (computed : Eval.cast i.ty v = .ok w) :
    ∃ code, Baseline.instCode i = .ok code ∧ ∀ (s : State) (b : Nat), s.OnFrame b → r.num < b →
      i.dest.num < b → s.slot b r.num = v.bits →
        ∃ t, runStraight code s = .ok t ∧ t.slot b i.dest.num = w.bits := by
  have slot : Baseline.argSlot i 0 = .ok (Baseline.slot r) :=
    Baseline.argSlot_eq_ok.mpr ⟨r, operand, rfl⟩
  have coded : Baseline.instCode i = .ok ((.load .rax (Baseline.slot r) ::
      if i.ty = .bool then [.alu .test .rax .rax, .setcc .ne .rax, .widen .zero8 .rax .rax]
      else Baseline.normalizeCode i.ty .rax) ++ [.store (Baseline.slot i.dest) .rax]) := by
    simp only [Baseline.instCode, op, reduceCtorEq, if_false, Baseline.valueCode, slot]
    rfl
  refine ⟨_, coded, fun s b frame below dest held => ?_⟩
  have holds : s.Holds b r v := ⟨below, held, normal, source⟩
  have loaded := (State.Keeps.refl frame.whole).set (by decide : X64.Reg.rax ≠ .rbp) v.bits
  obtain ⟨t, ran, keeps, word⟩ := Yields.load .rax (by decide) frame holds
    (yields_cast source target computed loaded.whole
      (by rw [State.get_set frame.whole, if_pos rfl]))
  have onFrame := keeps.onFrame frame
  refine ⟨t.setSlot b i.dest.num (t.get .rax), ?_, ?_⟩
  · rw [runStraight_append ran]
    exact runStraight_cons (onFrame.store dest .rax)
  · rw [onFrame.slot_setSlot dest _ dest, if_pos rfl, word]

end Native.X64

namespace Ship
open Ir

/-- Evaluation converts a value to another; the instruction's code, on a frame with the operand's bits
in its slot, stores the bits of the other value; the lowered instruction, in a running call in which an
operand stands for the word of the value, leaves that of the other one. -/
structure Converts (f : Function) (i : Inst) (r : Reg) (v w : Value) : Prop where
  evaluated : Eval.cast i.ty v = .ok w
  compiled : ∃ code, Native.X64.Baseline.instCode i = .ok code ∧
    ∀ (s : Native.X64.State) (b : Nat), s.OnFrame b → r.num < b → i.dest.num < b →
      s.slot b r.num = v.bits →
        ∃ t, Native.X64.runStraight code s = .ok t ∧ t.slot b i.dest.num = w.bits
  lowered : ∀ (a : Llvm.Activation) (s : Lowering.State) (x : Llvm.Val),
    (s.values[r.num]?).join = some x → a.operand? x = some v.word →
      ∃ y u, Lowering.cast f i s = .ok (y, u) ∧ Lowering.Leaves a s w.word y u

/-- Conversions between words mean the same everywhere, if the type that is named for the operand
changes the width as the operand's own does. Nothing is asked of the function. -/
theorem casts_agree {f : Function} {i : Inst} {r : Reg} {t : Ty} (op : i.op = .cast)
    (operand : i.args[0]? = some r) (type : f.regType? r = some t) (word : t.isIntLike = true)
    (target : i.ty.isIntLike = true) (named : i.NamesLike t) {v : Value} (own : v.ty = t)
    (normal : v.Normal) : ∃ w, w.ty = i.ty ∧ w.Normal ∧ Converts f i r v w := by
  have word' : v.ty.isIntLike = true := by rw [own, word]
  obtain ⟨w, computed, result⟩ := Eval.cast_total word' target
  refine ⟨w, result, Eval.normal_cast computed, computed, ?_, ?_⟩
  · exact Native.X64.cast_stores op operand normal (Ty.isFloat_of_isIntLike word')
      (Ty.isFloat_of_isIntLike target) computed
  · intro a s x value there
    exact Lowering.cast_leaves operand type word target named own normal computed value there

/-- Widens a byte; `source` is what the instruction says the byte's type is. -/
def widening (source : Ty) : Inst :=
  { op := .cast, source, dest := ⟨1⟩, ty := .i32, args := [⟨0⟩] }

/-- Widens its argument. -/
def widens (source : Ty) : Function := {
  name := "widen"
  sig := { params := [.i8], ret := .i32 }
  params := [⟨0⟩]
  regTypes := #[.i8, .i32]
  blocks := #[some { id := ⟨0⟩, insts := [widening source], term := .ret (some ⟨1⟩) }] }

/-- A source type of the operand's signedness will do. -/
theorem casts_agree_widening : ∃ w : Value, w.ty = .i32 ∧ w.Normal ∧
    Converts (widens .i16) (widening .i16) ⟨0⟩ (.ofInt .i8 (-1)) w :=
  casts_agree (f := widens .i16) (i := widening .i16) (v := .ofInt .i8 (-1)) rfl rfl rfl rfl rfl
    (by decide) rfl (by decide)

/-- A named type of the other signedness passes the check, and lowered code extends the operand by
it: from minus one evaluation gives minus one, lowered code 255. -/
theorem widening_differs : (widens .u8).typingErrors = .ok [] ∧
    Eval.cast .i32 (.ofInt .i8 (-1)) = .ok (.ofInt .i32 (-1)) ∧
    (Value.ofInt .i32 (-1)).word = ⟨32, .allOnes 32⟩ ∧
    ∃ (s u : Lowering.State) (a : Llvm.Activation) (y : Llvm.Val),
      (s.values[0]?).join = some (.param 0 (.int 8)) ∧
      a.operand? (.param 0 (.int 8)) = some (Value.ofInt .i8 (-1)).word ∧
      Lowering.cast (widens .u8) (widening .u8) s = .ok (y, u) ∧
      Lowering.emit (.cast .zext (.param 0 (.int 8)) (.int 32)) s = .ok (y, u) ∧
      a.value? (.cast .zext (.param 0 (.int 8)) (.int 32)) = some ⟨32, 255⟩ :=
  ⟨by decide, by decide, by decide, { values := #[some (.param 0 (.int 8)), none] }, _,
    { function := ⟨"widen", .int 32, [.int 8], true, []⟩, args := [.word ⟨8, 255⟩],
      block := ⟨.entry, [], none⟩, rest := [] }, _, rfl, by decide, rfl, rfl, by decide⟩

end Ship

end TieredEngine
