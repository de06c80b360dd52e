import TieredEngine.Proofs.Native.Memory.Sealing

/-!
Whole runs of a manager of generated code: batches are begun, functions placed, batches ended and
the manager closed, in any order and with any batch that has ever been begun. A manager allows one
open batch: to begin another or to close waits for its end, so it is no step while a batch is open.
-/
namespace TieredEngine.Native
open TieredEngine

/-- A manager, the batches it has begun, in their order, and the functions it has placed and not
released. -/
structure Writer where
  manager : Manager
  batches : Array Batch := #[]
  placed : List Placement := []

namespace Writer

inductive Op where
  | begin
  | allocate (batch : Nat) (name : String) (code : List UInt8)
  | finish (batch : Nat)
  | close
  deriving DecidableEq, Repr

/-- Whether a batch is open. -/
def writing (w : Writer) : Bool := w.batches.any (!·.ended)

def step (w : Writer) : Op → Writer
  | .begin =>
    if w.writing then w
    else
      match w.manager.begin with
      | none => w
      | some b => { w with batches := w.batches.push b }
  | .allocate i name code =>
    match w.batches[i]? with
    | none => w
    | some b =>
      let (result, manager, b) := w.manager.install b name code
      { manager
        batches := w.batches.setIfInBounds i b
        placed := w.placed ++ Manager.newlyPlaced name code result }
  | .finish i =>
    match w.batches[i]? with
    | none => w
    | some b =>
      let (_, manager, b) := w.manager.finish b
      { w with manager, batches := w.batches.setIfInBounds i b }
  | .close =>
    if w.writing || w.manager.closed then w
    else { w with manager := w.manager.close.2, placed := [] }

def run (w : Writer) (ops : List Op) : Writer := ops.foldl step w

/-- A manager over an empty heap. -/
def start (page : Nat) (regionSize limit : Int) : Writer where
  manager := .ofHeap { Heap.ofPage page with limit } regionSize

/-- At most one batch is open, and it knows which regions and functions wait for its end; while none
is open, none do. -/
structure Coherent (w : Writer) : Prop where
  only : ∀ (i j : Nat) (b c : Batch), w.batches[i]? = some b → w.batches[j]? = some c →
    b.ended = false → c.ended = false → i = j
  idle : w.writing = false →
    w.manager.Holds [] w.placed ∧ w.manager.Sealing [] [] w.placed
  busy : ∀ (i : Nat) (b : Batch), w.batches[i]? = some b → b.ended = false →
    w.manager.Holds b.pending w.placed ∧ w.manager.Sealing b.touched b.pending w.placed

variable {w : Writer} {i : Nat} {b b' : Batch}

theorem writing_eq_false :
    w.writing = false ↔ ∀ (i : Nat) (b : Batch), w.batches[i]? = some b → b.ended = true := by
  simp only [writing, Array.any_eq_false, Bool.not_eq_true, Bool.not_eq_false']
  constructor
  · intro all i b at_
    obtain ⟨bound, rfl⟩ := Array.getElem?_eq_some_iff.mp at_
    exact all i bound
  · intro all i bound
    exact all i _ (Array.getElem?_eq_getElem bound)

/-- Some pending and touched parts describe the manager at any time. -/
theorem Coherent.state (coherent : w.Coherent) :
    ∃ pending touched, w.manager.Holds pending w.placed ∧
      w.manager.Sealing touched pending w.placed := by
  cases writing : w.writing with
  | false => exact ⟨[], [], coherent.idle writing⟩
  | true =>
    obtain ⟨i, bound, live⟩ := Array.any_eq_true.mp writing
    exact ⟨_, _, coherent.busy i _ (Array.getElem?_eq_getElem bound) (by simpa using live)⟩

theorem coherent_start {page : Nat} (power : ∃ k, page = 2 ^ k) (wide : 16 ≤ page)
    (regionSize limit : Int) : (start page regionSize limit).Coherent := by
  obtain ⟨k, rfl⟩ := power
  have large : 4 ≤ k := by
    by_contra small
    have : 2 ^ k ≤ 2 ^ 3 := Nat.pow_le_pow_right (by decide) (by omega)
    omega
  have page : (Heap.ofPage (2 ^ k : Nat)).page = 2 ^ k := by
    unfold Heap.ofPage
    rw [if_neg (by omega)]
    rfl
  have next : (Heap.ofPage (2 ^ k : Nat)).next = roundUp Heap.firstAddress (2 ^ k) := by
    unfold Heap.ofPage
    rw [if_neg (by omega)]
    rfl
  constructor
  case only => simp [start]
  case busy => simp [start]
  case idle =>
    intro _
    constructor
    · exact Manager.holds_ofHeap _ _ _
    · constructor
      case power => exact ⟨k, large, page⟩
      case next =>
        show (Heap.ofPage (2 ^ k : Nat)).page ∣ (Heap.ofPage (2 ^ k : Nat)).next
        rw [page, next]
        exact dvd_roundUp k
      all_goals simp [start, Manager.ofHeap]

/-! ### Steps -/

/-- An ended batch takes no more functions, and ending it again changes nothing. -/
theorem step_ended (op : Op) (at_ : w.batches[i]? = some b) (ended : b.ended = true)
    (on : (∃ name code, op = .allocate i name code) ∨ op = .finish i) : w.step op = w := by
  have same : w.batches.setIfInBounds i b = w.batches := by
    apply Array.ext_getElem?
    intro j
    rw [Array.getElem?_setIfInBounds]
    split
    · case _ here =>
      subst here
      rw [if_pos (Array.getElem?_eq_some_iff.mp at_).1, at_]
    · rfl
  rcases on with ⟨name, code, rfl⟩ | rfl
  · simp [step, at_, Manager.install, ended, same, Manager.newlyPlaced]
  · simp [step, at_, Manager.finish, ended, same]

/-- A batch that is open after a step on the open batch is that batch. -/
theorem Coherent.open_of_set (coherent : w.Coherent) (at_ : w.batches[i]? = some b)
    (live : b.ended = false) {j : Nat} {c : Batch}
    (found : (w.batches.setIfInBounds i b')[j]? = some c) (open_ : c.ended = false) :
    j = i ∧ c = b' := by
  rw [Array.getElem?_setIfInBounds] at found
  split at found
  · case _ equal =>
    subst equal
    split at found
    · cases found
      exact ⟨rfl, rfl⟩
    · cases found
  · case _ other => exact absurd (coherent.only i j b c at_ found live open_) other

/-- A batch that is open after a new one has begun is the new one. -/
theorem open_of_push (quiet : w.writing = false) {j : Nat} {c : Batch}
    (found : (w.batches.push {})[j]? = some c) (open_ : c.ended = false) :
    j = w.batches.size ∧ c = {} := by
  rw [Array.getElem?_push] at found
  split at found
  · case _ equal =>
    cases found
    exact ⟨equal, rfl⟩
  · rw [writing_eq_false.mp quiet j c found] at open_
    cases open_

/-- A step on the open batch leaves it open, or leaves no batch open. -/
theorem Coherent.advance {manager : Manager} {placed : List Placement} (coherent : w.Coherent)
    (at_ : w.batches[i]? = some b) (live : b.ended = false)
    (goes : b'.ended = false → manager.Holds b'.pending placed ∧
      manager.Sealing b'.touched b'.pending placed)
    (ends : b'.ended = true → manager.Holds [] placed ∧ manager.Sealing [] [] placed) :
    ({ manager, placed, batches := w.batches.setIfInBounds i b' } : Writer).Coherent := by
  have bound := (Array.getElem?_eq_some_iff.mp at_).1
  constructor
  case only =>
    intro j k c d left right cOpen dOpen
    rw [(coherent.open_of_set at_ live left cOpen).1, (coherent.open_of_set at_ live right dOpen).1]
  case busy =>
    intro j c found open_
    obtain ⟨rfl, rfl⟩ := coherent.open_of_set at_ live found open_
    exact goes open_
  case idle =>
    intro closed
    apply ends
    apply writing_eq_false.mp closed i
    show (w.batches.setIfInBounds i b')[i]? = some b'
    rw [Array.getElem?_setIfInBounds, if_pos rfl, if_pos bound]

theorem Coherent.step (coherent : w.Coherent) (op : Op) : (w.step op).Coherent := by
  cases op with
  | begin =>
    unfold Writer.step
    dsimp only
    split
    · exact coherent
    · case _ closed =>
      have closed : w.writing = false := by simpa using closed
      unfold Manager.begin
      split
      · exact coherent
      · case _ b begun =>
        split at begun
        · cases begun
        · cases begun
          constructor
          case only =>
            intro j k c d left right cOpen dOpen
            rw [(open_of_push closed left cOpen).1, (open_of_push closed right dOpen).1]
          case idle => exact fun _ => coherent.idle closed
          case busy =>
            intro j c found open_
            obtain ⟨-, rfl⟩ := open_of_push closed found open_
            exact coherent.idle closed
  | allocate i name code =>
    cases at_ : w.batches[i]? with
    | none => simpa [Writer.step, at_] using coherent
    | some b =>
      cases live : b.ended with
      | true => rwa [step_ended _ at_ live (.inl ⟨name, code, rfl⟩)]
      | false =>
        obtain ⟨holds, sealing⟩ := coherent.busy i b at_ live
        have installed := Manager.install_cases holds.paged b name code
        unfold Writer.step
        dsimp only
        rw [at_]
        apply coherent.advance at_ live
        · exact fun _ => ⟨holds.install installed, sealing.install holds installed⟩
        · intro ended
          rw [installed.batch.1, live] at ended
          cases ended
  | finish i =>
    cases at_ : w.batches[i]? with
    | none => simpa [Writer.step, at_] using coherent
    | some b =>
      cases live : b.ended with
      | true => rwa [step_ended _ at_ live (.inr rfl)]
      | false =>
        obtain ⟨holds, sealing⟩ := coherent.busy i b at_ live
        unfold Writer.step
        dsimp only
        rw [at_]
        apply coherent.advance at_ live
        · intro open_
          have ended : (w.manager.finish b).2.2.ended = true := by rw [Manager.finish_eq live]
          rw [ended] at open_
          cases open_
        · exact fun _ => ⟨(holds.finish live).1, sealing.finish holds live⟩
  | close =>
    unfold Writer.step
    dsimp only
    split
    · exact coherent
    · case _ quiet =>
      have quiet : w.writing = false ∧ w.manager.closed = false := by simpa using quiet
      have ended := writing_eq_false.mp quiet.1
      obtain ⟨holds, sealing⟩ := coherent.idle quiet.1
      constructor
      case only => exact coherent.only
      case idle => exact fun _ => ⟨(holds.close quiet.2).1, sealing.close holds quiet.2⟩
      case busy =>
        intro j c found open_
        rw [ended j c found] at open_
        cases open_

theorem Coherent.run (coherent : w.Coherent) (ops : List Op) : (w.run ops).Coherent := by
  induction ops generalizing w with
  | nil => exact coherent
  | cons op rest ih => exact ih (coherent.step op)

/-- Short of closing, what is placed stays placed and what is known stays known. -/
theorem Coherent.step_keeps (coherent : w.Coherent) {op : Op} (other : op ≠ .close) :
    w.placed ⊆ (w.step op).placed ∧ w.manager.symbols ⊆ (w.step op).manager.symbols := by
  cases op with
  | begin =>
    unfold Writer.step
    dsimp only
    split
    · exact ⟨fun _ => id, fun _ => id⟩
    · split
      · exact ⟨fun _ => id, fun _ => id⟩
      · exact ⟨fun _ => id, fun _ => id⟩
  | allocate i name code =>
    cases at_ : w.batches[i]? with
    | none => simp [Writer.step, at_]
    | some b =>
      obtain ⟨_, _, holds, -⟩ := coherent.state
      have installed := Manager.install_cases holds.paged b name code
      unfold Writer.step
      dsimp only
      rw [at_]
      refine ⟨List.subset_append_left _ _, ?_⟩
      show w.manager.symbols ⊆ (w.manager.install b name code).2.1.symbols
      rw [installed.manager]
      exact fun _ => id
  | finish i =>
    cases at_ : w.batches[i]? with
    | none => simp [Writer.step, at_]
    | some b =>
      cases live : b.ended with
      | true =>
        rw [step_ended _ at_ live (.inr rfl)]
        exact ⟨fun _ => id, fun _ => id⟩
      | false =>
        obtain ⟨holds, -⟩ := coherent.busy i b at_ live
        unfold Writer.step
        dsimp only
        rw [at_]
        refine ⟨fun _ => id, fun s known => ?_⟩
        exact ((holds.finish live).2 s).mpr (.inr known)
  | close => exact absurd rfl other

theorem Coherent.run_keeps (coherent : w.Coherent) {ops : List Op} (other : .close ∉ ops) :
    w.placed ⊆ (w.run ops).placed ∧ w.manager.symbols ⊆ (w.run ops).manager.symbols := by
  induction ops generalizing w with
  | nil => exact ⟨fun _ => id, fun _ => id⟩
  | cons op rest ih =>
    have short : op ≠ .close := fun equal => other (equal ▸ List.mem_cons_self)
    have first := coherent.step_keeps short
    have later := ih (coherent.step op) fun mem => other (List.mem_cons_of_mem op mem)
    exact ⟨fun _ mem => later.1 (first.1 mem), fun _ mem => later.2 (first.2 mem)⟩

/-- Functions that are placed and not released share no byte; each lies in one region at a multiple
of sixteen and holds the bytes it was given. While no batch is open, all of them are published. Once
a function is published, whatever follows short of closing, it stays so with its bytes, and every
page it touches is executable. -/
theorem code_stays {page : Nat} (power : ∃ k, page = 2 ^ k) (wide : 16 ≤ page)
    (regionSize limit : Int) (ops : List Op) :
    let w := (start page regionSize limit).run ops
    (w.placed.Pairwise fun p q => p.stop ≤ q.addr ∨ q.stop ≤ p.addr) ∧
    (∀ p ∈ w.placed, 16 ∣ p.addr ∧
      (∃ r ∈ w.manager.regions, r.base ≤ p.addr ∧ p.stop ≤ r.base + r.size) ∧
      w.manager.heap.bytes p.addr p.code.length = .ok p.code) ∧
    (w.writing = false → ∀ p ∈ w.placed, p.symbol ∈ w.manager.symbols) ∧
    ∀ p ∈ w.placed, p.symbol ∈ w.manager.symbols → ∀ later : List Op, .close ∉ later →
      let after := w.run later
      p ∈ after.placed ∧ p.symbol ∈ after.manager.symbols ∧
      (∀ a, p.addr ≤ a → a < p.stop →
        after.manager.heap.protectionAt? a = some .executable) ∧
      after.manager.heap.bytes p.addr p.code.length = .ok p.code := by
  intro w
  have coherent : w.Coherent := (coherent_start power wide regionSize limit).run ops
  obtain ⟨_, _, holds, sealing⟩ := coherent.state
  refine ⟨holds.ascending.imp .inl, ?_, ?_, ?_⟩
  · intro p mem
    obtain ⟨i, r, at_, low, high⟩ := holds.laid.inside p mem
    have room := holds.laid.room i r at_
    exact ⟨sealing.aligned p mem, ⟨r, Array.mem_of_getElem? at_, low, by omega⟩, holds.bytes mem⟩
  · intro closed p mem
    exact ((coherent.idle closed).2.awaited p mem).resolve_right (List.not_mem_nil)
  · intro p mem known later short
    obtain ⟨placed, symbols⟩ := coherent.run_keeps short
    obtain ⟨_, _, holds, sealing⟩ := (coherent.run later).state
    exact ⟨placed mem, symbols known,
      fun a low high => sealing.executable (placed mem) (symbols known) low high,
      holds.bytes (placed mem)⟩

/-- Two functions in two batches; the second batch is still open. -/
def twoBatches : List Op :=
  [.begin, .allocate 0 "one" [0xB8, 1, 0xC3], .finish 0, .begin, .allocate 1 "two" [0xC3]]

theorem code_stays_twoBatches : (∃ k, 16 = 2 ^ k) ∧ 16 ≤ 16 ∧
    ∀ later : List Op, .close ∉ later →
      let after := ((start 16 64 0).run twoBatches).run later
      after.manager.heap.protectionAt? 0x100002 = some .executable ∧
      after.manager.heap.bytes 0x100000 3 = .ok [0xB8, 1, 0xC3] := by
  refine ⟨⟨4, rfl⟩, Nat.le_refl _, fun later short => ?_⟩
  have stays := (code_stays ⟨4, rfl⟩ (Nat.le_refl 16) 64 0 twoBatches).2.2.2
    ⟨"one", 0x100000, [0xB8, 1, 0xC3]⟩ (by decide +kernel) (by decide +kernel) later short
  obtain ⟨-, -, executable, bytes⟩ := stays
  exact ⟨executable 0x100002 (by decide) (by decide), bytes⟩

end Writer

end TieredEngine.Native
