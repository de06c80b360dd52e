import TieredEngine.Proofs.Native.X64.Correspondence

/-!
Copies on the edges of the graph. All inputs of a block's phis go to spare slots first and from
there to the slots of the phis, so that the copies happen together although they are made one after
the other.
-/
namespace TieredEngine.Native.X64
open TieredEngine TieredEngine.Ir TieredEngine.Eval

namespace Activation

variable {a : Activation} {spares : Nat} {fr g : Frame} {s t : State}

/-- The spare slots are numbered on from the registers. -/
theorem spare_eq (regs n : Nat) :
    Baseline.spare regs n = Int32.ofInt (-8 * (((regs + n : Nat) : Int) + 1)) := by
  unfold Baseline.spare
  congr 1

/-- Moving a word from one slot to another through `rax`. -/
theorem move_runs (frame : s.OnFrame a.base) {k j : Nat} (read : k < a.base) (written : j < a.base)
    (code : Baseline.Code) :
    runStraight (.load .rax (Int32.ofInt (-8 * ((k : Int) + 1))) ::
      .store (Int32.ofInt (-8 * ((j : Int) + 1))) .rax :: code) s =
      runStraight code ((s.set .rax (s.slot a.base k)).setSlot a.base j (s.slot a.base k)) := by
  have kept := (State.Keeps.refl frame.whole).set (by decide : X64.Reg.rax ≠ .rbp)
    (s.slot a.base k)
  have loaded : ((Instr.load .rax (Int32.ofInt (-8 * ((k : Int) + 1))) :
      Instr Baseline.Mark).mapTarget fun _ => (0 : Int32)).step s =
      .ok (s.set .rax (s.slot a.base k)) := frame.load read .rax
  have stored : ((Instr.store (Int32.ofInt (-8 * ((j : Int) + 1))) .rax :
      Instr Baseline.Mark).mapTarget fun _ => (0 : Int32)).step (s.set .rax (s.slot a.base k)) =
      .ok ((s.set .rax (s.slot a.base k)).setSlot a.base j
        ((s.set .rax (s.slot a.base k)).get .rax)) := (kept.onFrame frame).store written .rax
  rw [State.get_set frame.whole, if_pos rfl] at stored
  exact (runStraight_cons loaded).trans (runStraight_cons stored)

/-- What reading the inputs of phis gives for an edge from `source`. -/
def Inputs (fr : Frame) (source : BlockId) (phis : List Phi) (values : List (Ir.Reg × Value)) :
    Prop :=
  List.Forall₂ (fun p x => x.1 = p.dest ∧ ∃ r, p.valueFor? source = some r ∧
    fr.reg? r = some x.2) phis values

/-- All inputs go to the spare slots. -/
theorem Mirrors.readInputs (mirrors : a.Mirrors fr s) {source : BlockId} {phis : List Phi}
    {values : List (Ir.Reg × Value)} {codes : List Baseline.Code} {n : Nat}
    (inputs : Inputs fr source phis values)
    (made : Baseline.ReadsCode a.function.regTypes.size source n phis codes)
    (room : a.function.regTypes.size + n + phis.length ≤ a.base) :
    ∃ u, runStraight codes.flatten s = .ok u ∧ a.Mirrors fr u ∧
      (∀ j x, values[j]? = some x →
        u.slot a.base (a.function.regTypes.size + n + j) = x.2.bits) ∧
      ∀ j < n, u.slot a.base (a.function.regTypes.size + j) =
        s.slot a.base (a.function.regTypes.size + j) := by
  induction inputs generalizing s codes n with
  | nil =>
    cases made
    exact ⟨s, rfl, mirrors, by simp, fun _ _ => rfl⟩
  | @cons p x phis values first rest ih =>
    obtain ⟨_, r, input, held⟩ := first
    rw [Baseline.ReadsCode, List.mapIdx_cons] at made
    cases made with
    | @cons _ code _ codes coded others =>
      obtain ⟨r', input', rfl⟩ := coded
      rw [input] at input'
      cases input'
      rw [List.length_cons] at room
      obtain ⟨holds, known⟩ := mirrors.held r x.2 held
      have inside := regType?_lt known
      have spare : a.function.regTypes.size + n < a.base := by omega
      let t := (s.set .rax (s.slot a.base r.num)).setSlot a.base
        (a.function.regTypes.size + n) (s.slot a.base r.num)
      have kept := (State.Keeps.refl mirrors.frame.whole).set (by decide : X64.Reg.rax ≠ .rbp)
        (s.slot a.base r.num)
      have mirrors' : a.Mirrors fr t := (mirrors.keeps kept).setSpare spare (by omega) _
      have slots : ∀ k < a.base, t.slot a.base k =
          if k = a.function.regTypes.size + n then x.2.bits else s.slot a.base k := by
        intro k below
        rw [(kept.onFrame mirrors.frame).slot_setSlot spare _ below, kept.slot, holds.held]
      have others' : Baseline.ReadsCode a.function.regTypes.size source (n + 1) phis codes := by
        unfold Baseline.ReadsCode
        simpa only [Nat.add_assoc, Nat.add_comm 1] using others
      obtain ⟨u, ran, mirrored, stored, before⟩ := ih mirrors' others' (by omega)
      refine ⟨u, ?_, mirrored, ?_, ?_⟩
      · rw [List.flatten_cons]
        have moved := move_runs mirrors.frame holds.below spare codes.flatten
        rw [← spare_eq] at moved
        exact moved.trans ran
      · intro j y there
        cases j with
        | zero =>
          cases there
          rw [Nat.add_zero, before n (by omega), slots _ spare, if_pos rfl]
        | succ j =>
          rw [List.getElem?_cons_succ] at there
          rw [← stored j y there]
          congr 1
          omega
      · intro j less
        rw [before j (by omega), slots _ (by omega), if_neg (by omega)]

/-- The words in the spare slots go to the phis. -/
theorem Mirrors.writePhis (mirrors : a.Mirrors fr s) (fits : a.Fits spares) {phis : List Phi}
    {values : List (Ir.Reg × Value)} {n : Nat}
    (dests : List.Forall₂ (fun (p : Phi) (x : Ir.Reg × Value) => x.1 = p.dest) phis values)
    (room : a.function.regTypes.size + n + phis.length ≤ a.base)
    (held : ∀ j x, values[j]? = some x →
      s.slot a.base (a.function.regTypes.size + n + j) = x.2.bits)
    (normal : ∀ x ∈ values, x.2.Normal) (written : fr.setAll values = .ok g) :
    ∃ u, runStraight (Baseline.writesCode a.function.regTypes.size n phis) s = .ok u ∧
      a.Mirrors g u := by
  induction dests generalizing fr s n with
  | nil =>
    cases written
    exact ⟨s, rfl, mirrors⟩
  | @cons p x phis values first rest ih =>
    obtain ⟨r, v⟩ := x
    cases first
    obtain ⟨fr₁, set, more⟩ := bind_eq_ok.mp written
    rw [List.length_cons] at room
    obtain ⟨known, _⟩ := Frame.set_eq_ok.mp set
    rw [mirrors.function] at known
    have inside : p.dest.num < a.function.regTypes.size := regType?_lt known
    have spare : a.function.regTypes.size + n < a.base := by omega
    have value : s.slot a.base (a.function.regTypes.size + n) = v.bits := held 0 _ rfl
    have kept := (State.Keeps.refl mirrors.frame.whole).set (by decide : X64.Reg.rax ≠ .rbp) v.bits
    have mirrors' := (mirrors.keeps kept).set fits (normal (p.dest, v) (by simp)) set
    have held' : ∀ j y, values[j]? = some y →
        ((s.set .rax v.bits).setSlot a.base p.dest.num v.bits).slot a.base
          (a.function.regTypes.size + (n + 1) + j) = y.2.bits := by
      intro j y there
      have same := held (j + 1) y (by simpa using there)
      have short := (List.getElem?_eq_some_iff.mp there).1
      have lengths := rest.length_eq
      rw [(kept.onFrame mirrors.frame).slot_setSlot (by omega) _ (by omega), if_neg (by omega),
        kept.slot, ← same]
      congr 1
      omega
    obtain ⟨u, ran, mirrored⟩ := ih (n := n + 1) mirrors' (by omega) held'
      (fun y member => normal y (by simp [member])) more
    refine ⟨u, ?_, mirrored⟩
    have unfolded : Baseline.writesCode a.function.regTypes.size n (p :: phis) =
        .load .rax (Baseline.spare a.function.regTypes.size n) ::
          .store (Baseline.slot p.dest) .rax ::
          Baseline.writesCode a.function.regTypes.size (n + 1) phis := by
      simp only [Baseline.writesCode, List.mapIdx_cons, List.flatMap_cons, Nat.add_assoc,
        Nat.add_comm 1, Nat.add_zero, List.cons_append, List.nil_append]
    have moved := move_runs mirrors.frame spare (show p.dest.num < a.base by omega)
      (Baseline.writesCode a.function.regTypes.size (n + 1) phis)
    rw [← spare_eq, value] at moved
    rw [unfolded]
    exact moved.trans ran

/-- The copies on an edge do what the phis of the block do when it is entered over that edge. -/
theorem Mirrors.copies (mirrors : a.Mirrors fr s) (fits : a.Fits spares) {b : Block}
    (many : b.phis.length ≤ spares) {e : Baseline.Edge} {code : Baseline.Code}
    (shape : Baseline.CopiesShape a.function e b.phis code)
    (resolved : fr.resolvePhis b (some e.source) = .ok g) :
    ∃ u, runStraight code s = .ok u ∧ a.Mirrors g u := by
  obtain ⟨reads, made, rfl⟩ := shape
  obtain ⟨values, read, written⟩ := bind_eq_ok.mp resolved
  have inputs : Inputs fr e.source b.phis values := by
    refine (mapM_eq_ok.mp read).imp fun phi x found => ?_
    cases input : phi.valueFor? e.source with
    | none =>
      simp only [input] at found
      cases found
    | some r =>
      simp only [input] at found
      obtain ⟨v, got, same⟩ := bind_eq_ok.mp found
      cases same
      exact ⟨rfl, r, rfl, Frame.get_eq_ok.mp got⟩
  have normal : ∀ x ∈ values, x.2.Normal := by
    intro x member
    obtain ⟨_, _, _, r, _, held⟩ := forall₂_partner inputs.flip member
    exact (mirrors.held r x.2 held).1.normal
  have room := fits.room
  obtain ⟨t, ran, mirrored, stored, _⟩ := mirrors.readInputs inputs made (by omega)
  obtain ⟨u, ran', mirrored'⟩ := mirrored.writePhis fits (inputs.imp fun _ _ related => related.1)
    (by omega) stored normal written
  exact ⟨u, by rw [runStraight_append ran, ran'], mirrored'⟩

end Activation

end TieredEngine.Native.X64
