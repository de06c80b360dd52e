import TieredEngine.Proofs.Native.Memory.Writing

/-!
Finding functions by address and by name, over whole runs of a manager. What is found is compared with
a record of what callers were told: the addresses that each batch was given, and the functions whose
batch has ended, in that order. A new function lies past all earlier ones, so the functions a manager
knows are the published ones in the order they were published, and looking for the last one that
starts at or below an address finds the only one that can reach it.
-/
namespace TieredEngine.Native
open TieredEngine

/-- Functions at ascending addresses that do not overlap. -/
def Spaced (symbols : List Symbol) : Prop :=
  symbols.Pairwise fun s t => s.addr + s.size ≤ t.addr

/-- A function covers an address. -/
def Symbol.Covers (s : Symbol) (a : Nat) : Prop := s.addr ≤ a ∧ a < s.addr + s.size

theorem Spaced.eq_of_covers {symbols : List Symbol} (spaced : Spaced symbols) {s t : Symbol}
    (left : s ∈ symbols) (right : t ∈ symbols) {a : Nat} (here : s.Covers a) (there : t.Covers a) :
    s = t := by
  obtain ⟨i, iBound, rfl⟩ := List.mem_iff_getElem.mp left
  obtain ⟨j, jBound, rfl⟩ := List.mem_iff_getElem.mp right
  have apart := List.pairwise_iff_getElem.mp spaced
  unfold Symbol.Covers at here there
  rcases Nat.lt_trichotomy i j with before | rfl | after
  · have := apart i j iBound jBound before
    omega
  · rfl
  · have := apart j i jBound iBound after
    omega

namespace Manager
variable {m : Manager} {b : Batch} {placed : List Placement} {pending published : List Symbol}
  {name : String} {code : List UInt8}

/-! ### What a manager knows -/

/-- The last function that starts at or below an address is the only one that can cover it. -/
theorem lookup_eq_some_iff (spaced : Spaced m.symbols) {a : Nat} {s : Symbol} :
    m.lookup a = some s ↔ s ∈ m.symbols ∧ s.Covers a := by
  constructor
  · intro found
    unfold lookup at found
    split at found
    · case h_1 t last =>
      split at found
      · case isTrue reaches =>
        cases found
        obtain ⟨mem, low⟩ := List.mem_filter.mp (List.mem_of_getLast? last)
        exact ⟨mem, by simpa using low, reaches⟩
      · cases found
    · cases found
  · rintro ⟨mem, low, high⟩
    obtain ⟨before, after, symbols⟩ := List.append_of_mem mem
    unfold Spaced at spaced
    rw [symbols, List.pairwise_append, List.pairwise_cons] at spaced
    have upTo : m.symbols.filter (·.addr ≤ a) = before.filter (·.addr ≤ a) ++ [s] := by
      rw [symbols, List.filter_append, List.filter_cons_of_pos (by simpa using low)]
      congr 2
      rw [List.filter_eq_nil_iff]
      intro t later
      have := spaced.2.1.1 t later
      simp only [decide_eq_true_eq]
      omega
    unfold lookup
    rw [upTo, List.getLast?_concat]
    exact if_pos high

theorem insertSymbol_last {s : Symbol} {symbols : List Symbol}
    (past : ∀ t ∈ symbols, t.addr < s.addr) : insertSymbol s symbols = symbols ++ [s] := by
  induction symbols with
  | nil => rfl
  | cons t rest ih =>
    have before := past t List.mem_cons_self
    unfold insertSymbol
    rw [if_neg (by omega), if_neg (by omega), ih fun u mem => past u (List.mem_cons_of_mem t mem)]
    rfl

/-- How a name is entered for a function. -/
def entered (s : Symbol) : String × Nat := (s.name, s.addr)

theorem publishAll_eq {symbols : List Symbol}
    (ascending : (m.symbols ++ symbols).Pairwise fun s t => s.addr < t.addr) :
    symbols.foldl publish m = { m with
      symbols := m.symbols ++ symbols
      byName := symbols.reverse.map entered ++ m.byName } := by
  induction symbols generalizing m with
  | nil => simp
  | cons s rest ih =>
    have past : ∀ t ∈ m.symbols, t.addr < s.addr := fun t mem =>
      (List.pairwise_append.mp ascending).2.2 t mem s List.mem_cons_self
    have inserted : (m.publish s).symbols = m.symbols ++ [s] := insertSymbol_last past
    have split : m.symbols ++ s :: rest = m.symbols ++ [s] ++ rest := List.append_cons _ _ _
    rw [List.foldl_cons, ih (by rw [inserted, ← split]; exact ascending), inserted, split]
    simp [publish, entered]

/-- What a manager knows, against the functions that have been published, in that order, and those
that wait for the end of a batch. -/
structure Lists (m : Manager) (pending published : List Symbol) (placed : List Placement) :
    Prop where
  symbols : m.symbols = published
  byName : m.byName = published.reverse.map entered
  placed : placed.map Placement.symbol = published ++ pending

namespace Lists

theorem spaced (lists : m.Lists pending published placed) {waiting : List Symbol}
    (holds : m.Holds waiting placed) : Spaced (published ++ pending) := by
  unfold Spaced
  rw [← lists.placed, List.pairwise_map]
  exact holds.ascending

/-- No function that waits is known. -/
theorem unknown (lists : m.Lists pending published placed) {waiting : List Symbol}
    (holds : m.Holds waiting placed) {s t : Symbol} (waits : s ∈ pending) (known : t ∈ published) :
    t.addr ≠ s.addr := by
  have apart := (List.pairwise_append.mp (lists.spaced holds)).2.2 t known s waits
  have member : t ∈ placed.map Placement.symbol := by
    rw [lists.placed]
    exact List.mem_append_left _ known
  obtain ⟨p, old, rfl⟩ := List.mem_map.mp member
  have nonempty : 0 < p.symbol.size := holds.nonempty p old
  omega

/-- The function last published under a name. -/
theorem getFunction? (lists : m.Lists pending published placed) (name : String) :
    m.getFunction? name = ((published.filter (·.name == name)).getLast?).map (·.addr) := by
  unfold Manager.getFunction?
  rw [lists.byName, List.find?_map, Option.map_map, List.getLast?_eq_head?_reverse,
    ← List.filter_reverse, List.head?_filter]
  rfl

theorem install {out : Except (Fault InstallError) Nat × Manager × Batch}
    (lists : m.Lists b.pending published placed) (installed : Installed m b name code out) :
    out.2.1.Lists out.2.2.pending published (placed ++ newlyPlaced name code out.1) := by
  have same := installed.manager
  constructor
  case symbols =>
    rw [same]
    exact lists.symbols
  case byName =>
    rw [same]
    exact lists.byName
  case placed =>
    rw [List.map_append, lists.placed, List.append_assoc, ← installed.batch.2]

theorem finish (lists : m.Lists b.pending published placed) (holds : m.Holds b.pending placed)
    (live : b.ended = false) : (m.finish b).2.1.Lists [] (published ++ b.pending) placed ∧
      (m.finish b).2.1.closed = m.closed := by
  have same := sealAll_eq m b
  have symbols : (m.sealAll b).symbols = published := by rw [same]; exact lists.symbols
  have byName : (m.sealAll b).byName = published.reverse.map entered := by rw [same]; exact lists.byName
  have ascending : ((m.sealAll b).symbols ++ b.pending).Pairwise fun s t => s.addr < t.addr := by
    rw [symbols, ← lists.placed, List.pairwise_map]
    refine holds.ascending.imp_of_mem fun {p q} left _ apart => ?_
    have nonempty := holds.nonempty p left
    show p.addr < q.addr
    unfold Placement.stop at apart
    omega
  rw [finish_eq live, publishAll_eq ascending]
  refine ⟨?_, by rw [same]⟩
  constructor
  case symbols => exact congrArg (· ++ b.pending) symbols
  case byName => simp [byName]
  case placed => rw [List.append_nil, lists.placed]

theorem close (live : m.closed = false) : m.close.2.Lists [] [] [] := by
  unfold Manager.close
  rw [live]
  exact ⟨rfl, rfl, rfl⟩

end Lists

end Manager

namespace Writer

/-! ### What callers were told -/

structure Record where
  /-- The functions that were given an address, with the batch each was placed in. -/
  granted : List (Nat × Symbol) := []
  /-- The functions whose batch has ended, the last one last. -/
  published : List Symbol := []

namespace Record

/-- The functions that were placed in a batch. -/
def of (r : Record) (i : Nat) : List Symbol := (r.granted.filter (·.1 == i)).map (·.2)

/-- The record after an operation on a manager. -/
def note (w : Writer) (r : Record) : Op → Record
  | .begin => r
  | .allocate i name code =>
    match w.batches[i]? with
    | none => r
    | some b =>
      match (w.manager.install b name code).1 with
      | .error _ => r
      | .ok addr => { r with granted := r.granted ++ [(i, ⟨name, addr, code.length⟩)] }
  | .finish i =>
    match w.batches[i]? with
    | none => r
    | some b => if b.ended then r else { r with published := r.published ++ r.of i }
  | .close => if w.writing || w.manager.closed then r else {}

def noteAll (w : Writer) (r : Record) : List Op → Record
  | [] => r
  | op :: rest => noteAll (w.step op) (r.note w op) rest

end Record

/-- The record of a manager that begins with nothing. -/
def record (w : Writer) (ops : List Op) : Record := .noteAll w {} ops

/-- A record agrees with what the manager knows; a closed manager knows nothing. -/
structure Recorded (w : Writer) (r : Record) : Prop where
  idle : w.writing = false → w.manager.Lists [] r.published w.placed
  busy : ∀ (i : Nat) (b : Batch), w.batches[i]? = some b → b.ended = false →
    w.manager.Lists b.pending r.published w.placed ∧ r.of i = b.pending
  begun : ∀ g ∈ r.granted, g.1 < w.batches.size
  closed : w.manager.closed = true → w.writing = false ∧ r.published = []

variable {w : Writer} {r : Record} {i : Nat} {b : Batch}

theorem recorded_start (page : Nat) (regionSize limit : Int) :
    (start page regionSize limit).Recorded {} := by
  constructor
  case idle => exact fun _ => ⟨rfl, rfl, rfl⟩
  case busy => simp [start]
  case begun => simp
  case closed => exact fun closed => by cases closed

namespace Recorded

/-- A manager with an open batch is not closed. -/
theorem open_ (recorded : w.Recorded r) (at_ : w.batches[i]? = some b) (live : b.ended = false) :
    w.manager.closed = false := by
  by_contra closed
  have quiet := (recorded.closed (by simpa using closed)).1
  rw [writing_eq_false.mp quiet i b at_] at live
  cases live

theorem begin (recorded : w.Recorded r) : (w.step .begin).Recorded r := by
  unfold Writer.step
  dsimp only
  split
  · exact recorded
  · case isFalse quiet =>
    have quiet : w.writing = false := by simpa using quiet
    unfold Manager.begin
    split
    · exact recorded
    · case h_2 b begun =>
      split at begun
      · cases begun
      · case isFalse live =>
        cases begun
        have lists := recorded.idle quiet
        constructor
        case idle => exact fun _ => lists
        case busy =>
          intro j c found open_
          obtain ⟨rfl, rfl⟩ := open_of_push quiet found open_
          refine ⟨lists, ?_⟩
          unfold Record.of
          rw [List.filter_eq_nil_iff.mpr, List.map_nil]
          intro g mem
          have := recorded.begun g mem
          simp only [beq_iff_eq]
          omega
        case begun =>
          intro g mem
          have := recorded.begun g mem
          simp only [Array.size_push]
          omega
        case closed => exact fun closed => absurd closed live

theorem allocate (recorded : w.Recorded r) (coherent : w.Coherent) (i : Nat) (name : String)
    (code : List UInt8) :
    (w.step (.allocate i name code)).Recorded (r.note w (.allocate i name code)) := by
  cases at_ : w.batches[i]? with
  | none => simpa [Writer.step, Record.note, at_] using recorded
  | some b =>
    cases live : b.ended with
    | true =>
      rw [step_ended _ at_ live (.inl ⟨name, code, rfl⟩)]
      simpa [Record.note, at_, Manager.install, live] using recorded
    | false =>
      obtain ⟨holds, -⟩ := coherent.busy i b at_ live
      have bound := (Array.getElem?_eq_some_iff.mp at_).1
      obtain ⟨lists, granted⟩ := recorded.busy i b at_ live
      have installed := Manager.install_cases holds.paged b name code
      have manager := installed.manager
      have ended : (w.manager.install b name code).2.2.ended = false := installed.batch.1.trans live
      -- what is granted now is what waits beyond what waited
      have note : (r.note w (.allocate i name code)).published = r.published ∧
          (r.note w (.allocate i name code)).granted = r.granted ++
            (Manager.newlyPlaced name code (w.manager.install b name code).1).map fun p =>
              (i, p.symbol) := by
        unfold Record.note
        dsimp only
        rw [at_]
        dsimp only
        split
        · case h_1 failed => simp [failed, Manager.newlyPlaced]
        · case h_2 given => simp [given, Manager.newlyPlaced, Placement.symbol]
      unfold Writer.step
      dsimp only
      rw [at_]
      dsimp only
      constructor
      case idle =>
        intro quiet
        have all := writing_eq_false.mp quiet i (w.manager.install b name code).2.2
          (by simp [bound])
        rw [ended] at all
        cases all
      case busy =>
        intro j c found open_
        obtain ⟨rfl, rfl⟩ := coherent.open_of_set at_ live found open_
        refine ⟨note.1.symm ▸ lists.install installed, ?_⟩
        rw [installed.batch.2, ← granted]
        unfold Record.of
        rw [note.2, List.filter_append, List.map_append, List.filter_map, List.map_map]
        simp [Function.comp_def]
      case begun =>
        intro g mem
        rw [note.2] at mem
        simp only [Array.size_setIfInBounds]
        rcases List.mem_append.mp mem with mem | mem
        · exact recorded.begun g mem
        · obtain ⟨p, -, rfl⟩ := List.mem_map.mp mem
          exact bound
      case closed =>
        intro closed
        rw [manager] at closed
        exact absurd (recorded.open_ at_ live) (by simp [show w.manager.closed = true from closed])

theorem finish (recorded : w.Recorded r) (coherent : w.Coherent) (i : Nat) :
    (w.step (.finish i)).Recorded (r.note w (.finish i)) := by
  cases at_ : w.batches[i]? with
  | none => simpa [Writer.step, Record.note, at_] using recorded
  | some b =>
    cases live : b.ended with
    | true =>
      rw [step_ended _ at_ live (.inr rfl)]
      simpa [Record.note, at_, live] using recorded
    | false =>
      obtain ⟨holds, -⟩ := coherent.busy i b at_ live
      obtain ⟨lists, granted⟩ := recorded.busy i b at_ live
      obtain ⟨after, closed⟩ := lists.finish holds live
      have ended : (w.manager.finish b).2.2.ended = true := by rw [Manager.finish_eq live]
      have note : r.note w (.finish i) = { r with published := r.published ++ b.pending } := by
        simp [Record.note, at_, live, granted]
      rw [note]
      unfold Writer.step
      dsimp only
      rw [at_]
      dsimp only
      have quiet : ∀ (j : Nat) (c : Batch),
          (w.batches.setIfInBounds i (w.manager.finish b).2.2)[j]? = some c → c.ended = false → False := by
        intro j c found open_
        obtain ⟨rfl, rfl⟩ := coherent.open_of_set at_ live found open_
        rw [ended] at open_
        cases open_
      constructor
      case idle => exact fun _ => after
      case busy => exact fun j c found open_ => (quiet j c found open_).elim
      case begun =>
        intro g mem
        simp only [Array.size_setIfInBounds]
        exact recorded.begun g mem
      case closed =>
        intro shut
        have live := recorded.open_ at_ live
        rw [← closed] at live
        exact absurd live (by simp [show (w.manager.finish b).2.1.closed = true from shut])

theorem close (recorded : w.Recorded r) : (w.step .close).Recorded (r.note w .close) := by
  unfold Writer.step Record.note
  dsimp only
  split
  · exact recorded
  · case isFalse quiet =>
    have quiet : w.writing = false ∧ w.manager.closed = false := by simpa using quiet
    constructor
    case idle => exact fun _ => Manager.Lists.close quiet.2
    case busy =>
      intro j c found open_
      rw [writing_eq_false.mp quiet.1 j c found] at open_
      cases open_
    case begun => simp
    case closed => exact fun _ => ⟨quiet.1, rfl⟩

theorem step (recorded : w.Recorded r) (coherent : w.Coherent) (op : Op) :
    (w.step op).Recorded (r.note w op) := by
  cases op with
  | begin => exact recorded.begin
  | allocate i name code => exact recorded.allocate coherent i name code
  | finish i => exact recorded.finish coherent i
  | close => exact recorded.close

theorem run (recorded : w.Recorded r) (coherent : w.Coherent) (ops : List Op) :
    (w.run ops).Recorded (.noteAll w r ops) := by
  induction ops generalizing w r with
  | nil => exact recorded
  | cons op rest ih => exact ih (recorded.step coherent op) (coherent.step op)

/-- Some functions wait; they are those of the open batch, if there is one. -/
theorem lists (recorded : w.Recorded r) (coherent : w.Coherent) :
    ∃ pending, w.manager.Lists pending r.published w.placed ∧
      ∀ (i : Nat) (b : Batch), w.batches[i]? = some b → b.ended = false → r.of i = pending := by
  cases writing : w.writing with
  | false =>
    refine ⟨[], recorded.idle writing, fun i b at_ live => ?_⟩
    rw [writing_eq_false.mp writing i b at_] at live
    cases live
  | true =>
    obtain ⟨i, bound, live⟩ := Array.any_eq_true.mp writing
    have at_ := Array.getElem?_eq_getElem bound
    have live : w.batches[i].ended = false := by simpa using live
    obtain ⟨lists, granted⟩ := recorded.busy i _ at_ live
    refine ⟨_, lists, fun j c found open_ => ?_⟩
    rw [coherent.only j i c _ found at_ open_ live]
    exact granted

end Recorded

/-- Whatever batches have been written, failed placements included: an address is looked up to the
function that covers it, among those published by a batch that has ended, and at most one does; the
functions known are the published ones in the order of their addresses; a name stands for the function
last published under it. Nothing placed in an open batch is found, and nothing at all once the manager
is closed. -/
theorem lookup_exact {page : Nat} (power : ∃ k, page = 2 ^ k) (wide : 16 ≤ page)
    (regionSize limit : Int) (ops : List Op) :
    let w := (start page regionSize limit).run ops
    let r := (start page regionSize limit).record ops
    (∀ a s, w.manager.lookup a = some s ↔ s ∈ r.published ∧ s.addr ≤ a ∧ a < s.addr + s.size) ∧
    (∀ a, ∀ s ∈ r.published, ∀ t ∈ r.published, s.addr ≤ a → a < s.addr + s.size →
      t.addr ≤ a → a < t.addr + t.size → s = t) ∧
    (w.manager.symbols = r.published ∧
      w.manager.symbols.Pairwise fun s t => s.addr < t.addr) ∧
    (∀ name, w.manager.getFunction? name =
      ((r.published.filter (·.name == name)).getLast?).map (·.addr)) ∧
    (∀ (i : Nat) (b : Batch), w.batches[i]? = some b → b.ended = false → ∀ s ∈ r.of i,
      s ∉ w.manager.symbols ∧ (∀ a, w.manager.lookup a ≠ some s) ∧
      ∀ name, w.manager.getFunction? name ≠ some s.addr) ∧
    (w.manager.closed = true → w.manager.symbols = [] ∧ (∀ a, w.manager.lookup a = none) ∧
      ∀ name, w.manager.getFunction? name = none) := by
  intro w r
  have start := coherent_start power wide regionSize limit
  have coherent : w.Coherent := start.run ops
  have recorded : w.Recorded r := (recorded_start page regionSize limit).run start ops
  obtain ⟨pending, lists, open_⟩ := recorded.lists coherent
  obtain ⟨_, _, holds, -⟩ := coherent.state
  have spaced : Spaced r.published := (List.pairwise_append.mp (lists.spaced holds)).1
  have known : w.manager.symbols = r.published := lists.symbols
  have lookup : ∀ a s, w.manager.lookup a = some s ↔ s ∈ r.published ∧ s.Covers a := by
    intro a s
    rw [← known]
    exact Manager.lookup_eq_some_iff (known ▸ spaced)
  refine ⟨lookup, ?_, ⟨known, holds.sorted⟩, lists.getFunction?, ?_, ?_⟩
  · intro a s left t right low high low' high'
    exact spaced.eq_of_covers left right ⟨low, high⟩ ⟨low', high'⟩
  · intro i b at_ live s granted
    have waits : s ∈ pending := open_ i b at_ live ▸ granted
    have unknown : s ∉ r.published := fun mem => lists.unknown holds waits mem rfl
    refine ⟨known ▸ unknown, fun a found => unknown ((lookup a s).mp found).1, fun name found => ?_⟩
    rw [lists.getFunction?, Option.map_eq_some_iff] at found
    obtain ⟨t, last, same⟩ := found
    exact lists.unknown holds waits (List.mem_filter.mp (List.mem_of_getLast? last)).1 same
  · intro closed
    have none : r.published = [] := (recorded.closed closed).2
    refine ⟨known.trans none, fun a => ?_, fun name => ?_⟩
    · rw [Option.eq_none_iff_forall_ne_some]
      intro s found
      have mem := ((lookup a s).mp found).1
      rw [none] at mem
      cases mem
    · rw [lists.getFunction?, none]
      rfl

/-- Two functions of one name in two batches, with a placement that fails for want of memory and a
batch that is still open. -/
def sameName : List Op :=
  [.begin, .allocate 0 "f" [0xB8, 1, 0xC3], .allocate 0 "large" (List.replicate 64 0x90), .finish 0,
    .begin, .allocate 1 "f" [0xC3], .finish 1, .begin, .allocate 2 "f" [0x90, 0xC3]]

theorem lookup_exact_sameName : (∃ k, 16 = 2 ^ k) ∧ 16 ≤ 16 ∧
    let m := ((start 16 64 100).run sameName).manager
    m.lookup 0x100002 = some ⟨"f", 0x100000, 3⟩ ∧ m.lookup 0x100020 = none ∧
      m.getFunction? "f" = some 0x100010 := by
  obtain ⟨covered, -, -, named, -⟩ := @lookup_exact 16 ⟨4, rfl⟩ (Nat.le_refl 16) 64 100 sameName
  have published : ((start 16 64 100).record sameName).published =
      [⟨"f", 0x100000, 3⟩, ⟨"f", 0x100010, 1⟩] := by decide +kernel
  refine ⟨⟨4, rfl⟩, Nat.le_refl _, ?_, ?_, ?_⟩
  · exact (covered _ _).mpr (by rw [published]; decide)
  · rw [Option.eq_none_iff_forall_ne_some]
    intro s found
    obtain ⟨mem, low, high⟩ := (covered _ _).mp found
    rw [published] at mem
    rcases List.mem_pair.mp mem with rfl | rfl
    · exact absurd high (by decide)
    · exact absurd high (by decide)
  · rw [named, published]
    rfl

end Writer

end TieredEngine.Native
