import Mathlib.Algebra.Ring.Int.Defs
import Mathlib.Algebra.Ring.Nat
import TieredEngine.Native.X64.Baseline
import TieredEngine.Proofs.Native.X64.Execution

/-!
The frame of a call on the stack. The base pointer points to a word of the stack; the slots of a
function are the words below it, from the nearest on, and loads and stores at their distances read
and write exactly these words.
-/
namespace TieredEngine.Native.X64
open TieredEngine

/-- An address and a distance from it. -/
theorem ofNat_add_distance {a m : Nat} {n : Int} (low : -2 ^ 31 ≤ n) (high : n < 2 ^ 31)
    (sum : (a : Int) + n = m) :
    UInt64.ofNat a + (Int32.ofInt n).toInt64.toUInt64 = UInt64.ofNat m := by
  have least : Int32.minValue.toInt ≤ n := low
  have most : n ≤ Int32.maxValue.toInt := Int.le_of_lt_add_one high
  rw [Int32.toInt64_ofInt least most]
  apply UInt64.toBitVec_inj.mp
  simp only [UInt64.toBitVec_add, Int64.toBitVec_toUInt64, Int64.toBitVec_ofInt,
    UInt64.toBitVec_ofNat']
  rw [← BitVec.ofInt_natCast, ← BitVec.ofInt_add, sum, BitVec.ofInt_natCast]

namespace State

/-- The base pointer points to the word `b` of the stack. -/
structure OnFrame (b : Nat) (s : State) : Prop where
  whole : s.Whole
  base : s.get .rbp = stackBase + UInt64.ofNat (8 * b)
  inside : b < s.stack.size
  small : s.stack.size ≤ 2048

/-- The word of a slot; the slots lie below the word that the base pointer points to. -/
def slot (s : State) (b k : Nat) : UInt64 := s.stackWord (b - 1 - k)

def setSlot (s : State) (b k : Nat) (w : UInt64) : State := s.setStackWord (b - 1 - k) w

/-- Only registers other than the base pointer, and the flags, have changed. -/
structure Keeps (s t : State) : Prop where
  whole : t.Whole
  base : t.get .rbp = s.get .rbp
  stack : t.stack = s.stack

variable {b k : Nat} {s t u : State}

/-- How far the word at a position lies from the bottom of the stack. -/
theorem stackBase_offset {i : Nat} (small : i ≤ 2048) :
    (stackBase + UInt64.ofNat (8 * i) - stackBase).toNat = 8 * i := by
  rw [UInt64.add_comm, UInt64.add_sub_cancel, UInt64.toNat_ofNat']
  exact Nat.mod_eq_of_lt (by omega)

theorem wordAt?_index {i : Nat} (inside : i < s.stack.size) (small : s.stack.size ≤ 2048) :
    s.wordAt? (stackBase + UInt64.ofNat (8 * i)) = some i := by
  have offset := stackBase_offset (Nat.le_trans (Nat.le_of_lt inside) small)
  simp only [wordAt?, offset]
  rw [if_pos]
  · congr 1
    omega
  · simp
    omega

/-- The address of the next word. -/
theorem stackBase_next (i : Nat) :
    stackBase + UInt64.ofNat (8 * i) + 8 = stackBase + UInt64.ofNat (8 * (i + 1)) := by
  rw [UInt64.add_assoc, Nat.mul_add, UInt64.ofNat_add]
  rfl

/-- Taking the word that the stack pointer points to. -/
theorem pop_index {i : Nat} (inside : i < s.stack.size) (small : s.stack.size ≤ 2048)
    (top : s.get .rsp = stackBase + UInt64.ofNat (8 * i)) :
    s.pop = .ok (s.stackWord i, s.set .rsp (stackBase + UInt64.ofNat (8 * (i + 1)))) := by
  unfold pop
  simp only [top, wordAt?_index inside small, stackBase_next]

/-- Putting a word below the one that the stack pointer points to. -/
theorem push_index {i : Nat} (inside : i < s.stack.size) (small : s.stack.size ≤ 2048)
    (top : s.get .rsp = stackBase + UInt64.ofNat (8 * (i + 1))) (w : UInt64) :
    s.push w = .ok ((s.set .rsp (stackBase + UInt64.ofNat (8 * i))).setStackWord i w) := by
  have below : s.get .rsp - 8 = stackBase + UInt64.ofNat (8 * i) := by
    rw [top, ← stackBase_next, UInt64.add_sub_cancel]
  unfold push
  simp only [below]
  rw [store, wordAt?_index (show i < (s.set .rsp _).stack.size from inside) small]

theorem OnFrame.wordAt?_slot (frame : s.OnFrame b) (below : k < b) :
    s.wordAt? (frameAddress s (Int32.ofInt (-8 * ((k : Int) + 1)))) = some (b - 1 - k) := by
  have small := frame.small
  have inside := frame.inside
  have address : frameAddress s (Int32.ofInt (-8 * ((k : Int) + 1))) =
      stackBase + UInt64.ofNat (8 * (b - 1 - k)) := by
    rw [frameAddress, frame.base, UInt64.add_assoc,
      ofNat_add_distance (by omega) (by omega) (by omega : _ = ((8 * (b - 1 - k) : Nat) : Int))]
  rw [address]
  exact wordAt?_index (by omega) small

theorem step_load (s : State) (r : Reg) (disp : Int32) :
    (Instr.load r disp).step s = s.load r (frameAddress s disp) := rfl

theorem step_store (s : State) (r : Reg) (disp : Int32) :
    (Instr.store disp r).step s = s.store (frameAddress s disp) (s.get r) := rfl

/-- Loading a slot. -/
theorem OnFrame.load (frame : s.OnFrame b) (below : k < b) (r : Reg) :
    (Instr.load r (Int32.ofInt (-8 * ((k : Int) + 1)))).step s = .ok (s.set r (s.slot b k)) := by
  rw [step_load, State.load, frame.wordAt?_slot below]
  rfl

/-- Storing into a slot. -/
theorem OnFrame.store (frame : s.OnFrame b) (below : k < b) (r : Reg) :
    (Instr.store (Int32.ofInt (-8 * ((k : Int) + 1))) r).step s =
      .ok (s.setSlot b k (s.get r)) := by
  rw [step_store, State.store, frame.wordAt?_slot below]
  rfl

theorem OnFrame.setSlot (frame : s.OnFrame b) (k : Nat) (w : UInt64) : (s.setSlot b k w).OnFrame b where
  whole := frame.whole
  base := frame.base
  inside := by simpa [State.setSlot, setStackWord] using frame.inside
  small := by simpa [State.setSlot, setStackWord] using frame.small

theorem stackWord_setStackWord {i : Nat} (inside : i < s.stack.size) (w : UInt64) (j : Nat) :
    (s.setStackWord i w).stackWord j = if j = i then w else s.stackWord j := by
  unfold stackWord setStackWord
  rw [Array.getElem?_setIfInBounds]
  by_cases same : i = j
  · simp [← same, inside]
  · simp [same, Ne.symm same]

theorem OnFrame.slot_setSlot (frame : s.OnFrame b) (below : k < b) (w : UInt64) {j : Nat}
    (other : j < b) : (s.setSlot b k w).slot b j = if j = k then w else s.slot b j := by
  have inside := frame.inside
  unfold State.slot State.setSlot
  rw [stackWord_setStackWord (by omega)]
  by_cases same : j = k
  · simp [same]
  · rw [if_neg (by omega), if_neg same]

/-- Words above the slots stay. -/
theorem OnFrame.above_setSlot (frame : s.OnFrame b) (below : k < b) (w : UInt64) {j : Nat}
    (above : b ≤ j) : (s.setSlot b k w).stackWord j = s.stackWord j := by
  have inside := frame.inside
  unfold State.setSlot
  rw [stackWord_setStackWord (by omega), if_neg (by omega)]

theorem Keeps.refl (whole : s.Whole) : s.Keeps s := ⟨whole, rfl, rfl⟩

theorem Keeps.trans (first : s.Keeps t) (second : t.Keeps u) : s.Keeps u :=
  ⟨second.whole, second.base.trans first.base, second.stack.trans first.stack⟩

theorem Keeps.set (keeps : s.Keeps t) {r : Reg} (other : r ≠ .rbp) (w : UInt64) :
    s.Keeps (t.set r w) := by
  refine ⟨(whole_set r w).mpr keeps.whole, ?_, keeps.stack⟩
  rw [get_set keeps.whole, if_neg other.symm, keeps.base]

theorem Keeps.withFlags (keeps : s.Keeps t) (f : Flags) : s.Keeps (t.withFlags f) :=
  ⟨keeps.whole, keeps.base, keeps.stack⟩

theorem Keeps.dropFlags (keeps : s.Keeps t) : s.Keeps t.dropFlags :=
  ⟨keeps.whole, keeps.base, keeps.stack⟩

theorem Keeps.onFrame (keeps : s.Keeps t) (frame : s.OnFrame b) : t.OnFrame b where
  whole := keeps.whole
  base := keeps.base.trans frame.base
  inside := keeps.stack ▸ frame.inside
  small := keeps.stack ▸ frame.small

theorem Keeps.stackWord (keeps : s.Keeps t) (i : Nat) : t.stackWord i = s.stackWord i := by
  simp only [State.stackWord, keeps.stack]

theorem Keeps.slot (keeps : s.Keeps t) (b k : Nat) : t.slot b k = s.slot b k :=
  keeps.stackWord _

end State

end TieredEngine.Native.X64
