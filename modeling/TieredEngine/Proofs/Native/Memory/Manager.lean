import TieredEngine.Native.Memory.Manager
import TieredEngine.Proofs.Modified
import TieredEngine.Proofs.Native.Memory.Heap

/-!
What the manager of generated code keeps to. Functions are placed at ascending addresses, each in
one region below the place of the next function, so no two of them share a byte and a placed
function keeps its bytes whatever is placed later. This needs nothing of the page size. For page
sizes that are powers of two, a function that has been published lies below the sealed boundary of
its region, and every page below that boundary is executable.
-/
namespace TieredEngine.Native
open TieredEngine

/-- A function where it was placed. -/
structure Placement where
  name : String
  addr : Nat
  code : List UInt8
  deriving DecidableEq, Repr

namespace Placement

def stop (p : Placement) : Nat := p.addr + p.code.length

def symbol (p : Placement) : Symbol := ⟨p.name, p.addr, p.code.length⟩

end Placement

namespace Manager
variable {m m' : Manager} {b b' : Batch} {placed : List Placement} {pending : List Symbol}
  {touched : List Nat} {r : Region} {name : String} {code : List UInt8} {start addr : Nat}

/-! ### Symbols by address -/

section Symbols
variable {s t : Symbol} {l : List Symbol}

theorem mem_insertSymbol (same : ∀ u ∈ l, u.addr = s.addr → u = s) :
    t ∈ insertSymbol s l ↔ t = s ∨ t ∈ l := by
  induction l with
  | nil => simp [insertSymbol]
  | cons u rest ih =>
    have later := ih fun v mem => same v (List.mem_cons_of_mem u mem)
    unfold insertSymbol
    split
    · simp
    · split
      · case _ here =>
        have twin : u = s := same u List.mem_cons_self here.symm
        simp [twin]
      · simp only [List.mem_cons, later]
        tauto

theorem insertSymbol_sorted (sorted : l.Pairwise fun s t => s.addr < t.addr) :
    (insertSymbol s l).Pairwise fun s t => s.addr < t.addr := by
  induction l with
  | nil => simp [insertSymbol]
  | cons u rest ih =>
    obtain ⟨first, sortedRest⟩ := List.pairwise_cons.mp sorted
    unfold insertSymbol
    split
    · case _ before =>
      refine .cons (fun v mem => ?_) sorted
      rcases List.mem_cons.mp mem with rfl | mem
      · exact before
      · exact Nat.lt_trans before (first v mem)
    · split
      · case _ here =>
        refine .cons (fun v mem => ?_) sortedRest
        rw [here]
        exact first v mem
      · case _ notBefore notHere =>
        refine .cons (fun v mem => ?_) (ih sortedRest)
        rcases mem_or_eq_of_mem_insertSymbol mem with rfl | mem
        · omega
        · exact first v mem
where
  mem_or_eq_of_mem_insertSymbol {s t : Symbol} {l : List Symbol} (mem : t ∈ insertSymbol s l) :
      t = s ∨ t ∈ l := by
    induction l with
    | nil => simpa [insertSymbol] using mem
    | cons u rest ih =>
      unfold insertSymbol at mem
      split at mem
      · simpa using mem
      · split at mem
        · rcases List.mem_cons.mp mem with rfl | mem
          · exact .inl rfl
          · exact .inr (List.mem_cons_of_mem u mem)
        · rcases List.mem_cons.mp mem with rfl | mem
          · exact .inr List.mem_cons_self
          · exact (ih mem).imp_right (List.mem_cons_of_mem u)

/-- A function is found at its own address. -/
theorem lookup_addr (sorted : m.symbols.Pairwise fun s t => s.addr < t.addr) (mem : s ∈ m.symbols)
    (nonempty : 0 < s.size) : m.lookup s.addr = some s := by
  obtain ⟨before, after, symbols⟩ := List.append_of_mem mem
  rw [symbols, List.pairwise_append, List.pairwise_cons] at sorted
  have upTo : m.symbols.filter (·.addr ≤ s.addr) = before ++ [s] := by
    rw [symbols, List.filter_append, List.filter_cons_of_pos (by simp)]
    congr 2
    · rw [List.filter_eq_self]
      intro t earlier
      have := sorted.2.2 t earlier s List.mem_cons_self
      simp only [decide_eq_true_eq]
      omega
    · rw [List.filter_eq_nil_iff]
      intro t later
      have := sorted.2.1.1 t later
      simp only [decide_eq_true_eq]
      omega
  unfold lookup
  rw [upTo, List.getLast?_concat]
  exact if_pos (by omega)

end Symbols

/-! ### Regions -/

/-- Regions lie apart and in their blocks, and every placed function lies in one region, below the
place of its next function. -/
structure Laid (blocks : List CodeBlock) (regions : Array Region) (placed : List Placement) :
    Prop where
  apart : ∀ (i j : Nat) (r s : Region), i < j → regions[i]? = some r → regions[j]? = some s →
    r.base + r.size ≤ s.base
  backed : ∀ (i : Nat) (r : Region), regions[i]? = some r →
    ∃ b ∈ blocks, b.base = r.base ∧ r.size ≤ b.size
  room : ∀ (i : Nat) (r : Region), regions[i]? = some r → r.offset ≤ r.size
  inside : ∀ p ∈ placed, ∃ (i : Nat) (r : Region), regions[i]? = some r ∧ r.base ≤ p.addr ∧
    p.stop ≤ r.base + r.offset

/-- A change of one region that moves it nowhere and frees nothing in it. -/
def Advances (f : Region → Region) (r : Region) : Prop :=
  (f r).base = r.base ∧ (f r).size = r.size ∧ r.offset ≤ (f r).offset ∧ (f r).offset ≤ r.size

theorem Laid.modify {blocks : List CodeBlock} {regions : Array Region} {i : Nat}
    {f : Region → Region} (laid : Laid blocks regions placed)
    (advances : ∀ r, regions[i]? = some r → Advances f r) :
    Laid blocks (regions.modify i f) placed := by
  -- each region keeps its place, and its offset moves up at most to its end
  have moved : ∀ (j : Nat) (r : Region), (regions.modify i f)[j]? = some r → ∃ old, regions[j]? = some old ∧
      r.base = old.base ∧ r.size = old.size ∧ r.offset ≤ r.size := by
    intro j r found
    obtain ⟨old, at_, rfl⟩ := getElem?_modify_eq_some.mp found
    have room := laid.room j old at_
    refine ⟨old, at_, ?_⟩
    split
    · case _ here =>
      subst here
      obtain ⟨base, size, -, bound⟩ := advances old at_
      exact ⟨base, size, by omega⟩
    · exact ⟨rfl, rfl, room⟩
  constructor
  · intro j k r s before left right
    obtain ⟨r, left, rBase, rSize, -⟩ := moved j r left
    obtain ⟨s, right, sBase, -, -⟩ := moved k s right
    have := laid.apart j k r s before left right
    omega
  · intro j r found
    obtain ⟨old, at_, base, size, -⟩ := moved j r found
    rw [base, size]
    exact laid.backed j old at_
  · intro j r found
    obtain ⟨_, _, _, _, bound⟩ := moved j r found
    exact bound
  · intro p mem
    obtain ⟨j, r, at_, low, high⟩ := laid.inside p mem
    refine ⟨j, _, getElem?_modify_eq_some.mpr ⟨r, at_, rfl⟩, ?_⟩
    split
    · case _ here =>
      subst here
      obtain ⟨base, -, offset, -⟩ := advances r at_
      omega
    · exact ⟨low, high⟩

/-- A region past all others. -/
theorem Laid.push {blocks : List CodeBlock} {regions : Array Region} {next size : Nat}
    (laid : Laid blocks regions placed) (below : ∀ b ∈ blocks, b.base + b.size ≤ next)
    {length : Nat} (enough : length ≤ size) :
    Laid (⟨next, size⟩ :: blocks) (regions.push { base := next, size := length }) placed := by
  have old : ∀ (i : Nat) (r : Region), regions[i]? = some r → r.base + r.size ≤ next := by
    intro i r at_
    obtain ⟨b, mem, base, room⟩ := laid.backed i r at_
    have := below b mem
    omega
  have split : ∀ (i : Nat) (r : Region), (regions.push { base := next, size := length })[i]? = some r →
      i = regions.size ∧ r = { base := next, size := length } ∨ regions[i]? = some r := by
    intro i r at_
    rw [Array.getElem?_push] at at_
    split at at_
    · case _ here =>
      cases at_
      exact .inl ⟨here, rfl⟩
    · exact .inr at_
  constructor
  · intro i j r s before left right
    rcases split i r left with ⟨rfl, rfl⟩ | left
    · have bound := (Array.getElem?_eq_some_iff.mp right).1
      rw [Array.size_push] at bound
      omega
    · rcases split j s right with ⟨-, rfl⟩ | right
      · exact old i r left
      · exact laid.apart i j r s before left right
  · intro i r at_
    rcases split i r at_ with ⟨-, rfl⟩ | at_
    · exact ⟨_, List.mem_cons_self, rfl, enough⟩
    · obtain ⟨b, mem, backs⟩ := laid.backed i r at_
      exact ⟨b, List.mem_cons_of_mem _ mem, backs⟩
  · intro i r at_
    rcases split i r at_ with ⟨-, rfl⟩ | at_
    · exact Nat.zero_le _
    · exact laid.room i r at_
  · intro p mem
    obtain ⟨i, r, at_, inside⟩ := laid.inside p mem
    refine ⟨i, r, ?_, inside⟩
    have bound := (Array.getElem?_eq_some_iff.mp at_).1
    rw [Array.getElem?_push, if_neg (by omega), at_]

/-- All that was placed lies below the next function. -/
theorem Laid.stop_le {blocks : List CodeBlock} {regions : Array Region}
    (laid : Laid blocks regions placed) (last : regions.back? = some r) :
    ∀ p ∈ placed, p.stop ≤ r.base + r.offset := by
  intro p mem
  obtain ⟨i, s, at_, -, high⟩ := laid.inside p mem
  rw [Array.back?_eq_getElem?] at last
  have bound : i < regions.size := (Array.getElem?_eq_some_iff.mp at_).1
  rcases Nat.lt_or_ge i (regions.size - 1) with before | same
  · have apart := laid.apart i _ s r before at_ last
    have room := laid.room i s at_
    omega
  · have here : i = regions.size - 1 := by omega
    rw [here, last] at at_
    cases at_
    exact high

/-! ### What holds of a manager -/

/-- The functions a manager has placed, by ascending address, hold the bytes they were given; the
functions it knows, and those that wait for the end of a batch, are among them. -/
structure Holds (m : Manager) (pending : List Symbol) (placed : List Placement) : Prop where
  paged : 0 < m.heap.page
  ordered : m.heap.Ordered
  laid : Laid m.heap.blocks m.regions placed
  nonempty : ∀ p ∈ placed, 0 < p.code.length
  ascending : placed.Pairwise fun p q => p.stop ≤ q.addr
  written : ∀ p ∈ placed, m.heap.Written p.addr p.code
  sorted : m.symbols.Pairwise fun s t => s.addr < t.addr
  known : ∀ s ∈ m.symbols, ∃ p ∈ placed, p.symbol = s
  waiting : ∀ s ∈ pending, ∃ p ∈ placed, p.symbol = s

/-- A manager over an empty heap has placed nothing. -/
theorem holds_ofHeap (page limit regionSize : Int) :
    (ofHeap { Heap.ofPage page with limit } regionSize).Holds [] [] := by
  constructor
  case paged =>
    show 0 < (Heap.ofPage page).page
    unfold Heap.ofPage
    dsimp only
    split
    · decide
    · omega
  case ordered => constructor <;> simp [ofHeap, Heap.ofPage]
  case laid => constructor <;> simp [ofHeap]
  all_goals simp [ofHeap]

namespace Holds

/-- Two placed functions are one, or they share no byte. -/
theorem apart (holds : m.Holds pending placed) {p q : Placement} (left : p ∈ placed)
    (right : q ∈ placed) : p = q ∨ p.stop ≤ q.addr ∨ q.stop ≤ p.addr := by
  obtain ⟨i, iBound, rfl⟩ := List.mem_iff_getElem.mp left
  obtain ⟨j, jBound, rfl⟩ := List.mem_iff_getElem.mp right
  have ascending := List.pairwise_iff_getElem.mp holds.ascending
  rcases Nat.lt_trichotomy i j with before | rfl | after
  · exact .inr (.inl (ascending i j iBound jBound before))
  · exact .inl rfl
  · exact .inr (.inr (ascending j i jBound iBound after))

theorem eq_of_addr (holds : m.Holds pending placed) {p q : Placement} (left : p ∈ placed)
    (right : q ∈ placed) (same : p.addr = q.addr) : p = q := by
  have pSome := holds.nonempty p left
  have qSome := holds.nonempty q right
  rcases holds.apart left right with equal | before | after
  · exact equal
  · unfold Placement.stop at before
    omega
  · unfold Placement.stop at after
    omega

theorem bytes (holds : m.Holds pending placed) {p : Placement} (mem : p ∈ placed) :
    m.heap.bytes p.addr p.code.length = .ok p.code := by
  obtain ⟨i, r, at_, low, high⟩ := holds.laid.inside p mem
  obtain ⟨b, block, base, size⟩ := holds.laid.backed i r at_
  have room := holds.laid.room i r at_
  unfold Placement.stop at high
  apply (holds.written p mem).bytes
  apply holds.ordered.checkRange block
  · omega
  · omega
  · exact holds.nonempty p mem

/-- Regions end before the addresses do. -/
theorem within (holds : m.Holds pending placed) {i : Nat} {r : Region}
    (at_ : m.regions[i]? = some r) : r.base + r.size < Heap.addresses := by
  obtain ⟨b, block, base, size⟩ := holds.laid.backed i r at_
  have within := holds.ordered.within b block
  omega

theorem lookup (holds : m.Holds pending placed) {p : Placement} (mem : p ∈ placed)
    (known : p.symbol ∈ m.symbols) : m.lookup p.addr = some p.symbol :=
  lookup_addr holds.sorted known (holds.nonempty p mem)

/-- A batch that is given up leaves its functions placed, but unknown. -/
theorem forget (holds : m.Holds pending placed) : m.Holds [] placed :=
  { holds with waiting := by simp }

/-- Nothing is said of protection, so a change of it is no matter. -/
theorem repaint {heap : Heap} {regions : Array Region} (holds : m.Holds pending placed)
    (same : heap.SameBytes m.heap) (laid : Laid m.heap.blocks regions placed) :
    ({ m with heap, regions } : Manager).Holds pending placed where
  paged := by rw [same.page]; exact holds.paged
  ordered := same.ordered holds.ordered
  laid := by rw [same.blocks]; exact laid
  nonempty := holds.nonempty
  ascending := holds.ascending
  written p mem := by
    intro i bound
    rw [same.contents]
    exact holds.written p mem i bound
  sorted := holds.sorted
  known := holds.known
  waiting := holds.waiting

end Holds

/-! ### The parts of an installation -/

/-- The size of a new region. -/
def regionFor (m : Manager) (need : Nat) : Nat :=
  roundUp (max (2 * need) m.regionSize) m.heap.page

/-- The last region has room at an offset. -/
structure Room (m : Manager) (r : Region) (start length : Nat) : Prop where
  last : m.regions.back? = some r
  past : r.offset ≤ start
  fits : start + length ≤ r.size
  aligned : functionAlign ∣ start

theorem newRegion_eq_ok {need : Nat} (made : m.newRegion need = .ok m') :
    ∃ base heap, m.heap.allocate (m.regionFor need) = .ok (base, heap) ∧
      m' = { m with heap, regions := m.regions.push { base, size := m.regionFor need } } := by
  unfold newRegion at made
  dsimp only at made
  split at made
  · case _ base heap allocated =>
    cases made
    exact ⟨base, heap, allocated, rfl⟩
  · cases made

theorem roomFor?_eq_some {length : Nat} (found : m.roomFor? length = some start) :
    ∃ r, m.Room r start length := by
  simp only [roomFor?, Option.bind_eq_bind, Option.bind_eq_some_iff, ite_eq_iff] at found
  obtain ⟨r, last, ⟨fits, start_⟩ | ⟨-, none⟩⟩ := found
  · cases start_
    exact ⟨r, last, le_roundUp (by decide), fits, dvd_roundUp 4⟩
  · cases none

theorem newRegion_room {need : Nat} (paged : 0 < m.heap.page) (made : m.newRegion need = .ok m') :
    ∃ r, m'.Room r 0 need := by
  obtain ⟨base, heap, -, rfl⟩ := newRegion_eq_ok made
  have size : max (2 * need) m.regionSize ≤ m.regionFor need := le_roundUp paged
  refine ⟨_, Array.back?_push, Nat.le_refl 0, ?_, Nat.dvd_zero _⟩
  show 0 + need ≤ m.regionFor need
  omega

/-- The last region is open already, or is opened: from its sealed boundary on it becomes writable,
and the batch will seal it. -/
theorem openLast_eq_ok (opened : m.openLast b r = .ok (m', b')) :
    r.isOpen = true ∧ m' = m ∧ b' = b ∨
    m' = { m with
      heap := m.heap.setProtection (r.base + r.sealedTo) (r.size - r.sealedTo) .writable
      regions := m.regions.modify (m.regions.size - 1) fun r => { r with isOpen := true } } ∧
    b' = { b with touched := b.touched ++ [m.regions.size - 1] } := by
  unfold openLast Heap.beginWrite Heap.protect at opened
  split at opened
  · case _ already =>
    cases opened
    exact .inl ⟨already, rfl, rfl⟩
  · split at opened
    · cases opened
    · case _ heap painted =>
      split at painted
      · cases painted
        cases opened
        exact .inr ⟨rfl, rfl⟩
      · cases painted

theorem back?_modify_last {regions : Array Region} {f : Region → Region}
    (last : regions.back? = some r) :
    (regions.modify (regions.size - 1) f).back? = some (f r) := by
  rw [Array.back?_eq_getElem?] at last ⊢
  rw [Array.size_modify, getElem?_modify_eq_some]
  exact ⟨r, last, (if_pos rfl).symm⟩

theorem openLast_room {length : Nat} (room : m.Room r start length)
    (opened : m.openLast b r = .ok (m', b')) : m'.Room { r with isOpen := true } start length := by
  rcases openLast_eq_ok opened with ⟨already, rfl, -⟩ | ⟨rfl, -⟩
  · rw [← already]
    exact room
  · exact ⟨back?_modify_last room.last, room.past, room.fits, room.aligned⟩

theorem writeLast_eq_ok (wrote : m.writeLast b r start name code = .ok (addr, m', b')) :
    addr = r.base + start ∧ ∃ heap, m.heap.write (r.base + start) code = .ok heap ∧
      m' = { m with
        heap
        regions := m.regions.modify (m.regions.size - 1) fun r =>
          { r with offset := start + code.length } } ∧
      b' = { b with pending := b.pending ++ [⟨name, r.base + start, code.length⟩] } := by
  unfold writeLast at wrote
  dsimp only at wrote
  split at wrote
  · cases wrote
  · cases wrote
  · case _ heap written =>
    cases wrote
    exact ⟨rfl, heap, written, rfl, rfl⟩

/-- The ways an installation can go. What changed before a failure stays. -/
inductive Installed (m : Manager) (b : Batch) (name : String) (code : List UInt8) :
    Except (Fault InstallError) Nat × Manager × Batch → Prop
  | refused (e : InstallError) : Installed m b name code (.error (.error e), m, b)
  | unopened {m₁ : Manager} {r : Region} {start : Nat} (e : InstallError) :
      b.ended = false → m₁ = m ∨ m.newRegion code.length = .ok m₁ →
      m₁.Room r start code.length → Installed m b name code (.error (.error e), m₁, b)
  | unwritten {m₁ m₂ : Manager} {b₂ : Batch} {r : Region} {start : Nat} (e : Fault InstallError) :
      b.ended = false → m₁ = m ∨ m.newRegion code.length = .ok m₁ →
      m₁.Room r start code.length → m₁.openLast b r = .ok (m₂, b₂) → code ≠ [] →
      (∀ c, e = .crash c → m₂.writeLast b₂ r start name code = .error (.crash c)) →
      Installed m b name code (.error e, m₂, b₂)
  | placed {m₁ m₂ m₃ : Manager} {b₂ b₃ : Batch} {r : Region} {start addr : Nat} :
      b.ended = false → m₁ = m ∨ m.newRegion code.length = .ok m₁ →
      m₁.Room r start code.length → m₁.openLast b r = .ok (m₂, b₂) → code ≠ [] →
      m₂.writeLast b₂ r start name code = .ok (addr, m₃, b₃) →
      Installed m b name code (.ok addr, m₃, b₃)

/-- Once a function has its place, what is left is to open the last region and to write. -/
theorem installed_at {m₁ : Manager} {r : Region} {start : Nat} {b : Batch} {name : String}
    {code : List UInt8} (live : b.ended = false) (given : code ≠ [])
    (from_ : m₁ = m ∨ m.newRegion code.length = .ok m₁) (room : m₁.Room r start code.length) :
    Installed m b name code
      (match m₁.regions.back? with
      | none => (.error (.crash .outOfRange), m₁, b)
      | some r =>
        match m₁.openLast b r with
        | .error e => (.error (.error (.memory e)), m₁, b)
        | .ok (m, b) =>
          match m.writeLast b r start name code with
          | .error (.error e) => (.error (.error (.memory e)), m, b)
          | .error (.crash c) => (.error (.crash c), m, b)
          | .ok (addr, m, b) => (.ok addr, m, b)) := by
  rw [room.last]
  dsimp only
  split
  · exact .unopened _ live from_ room
  · case _ m₂ b₂ opened =>
    split
    · exact .unwritten _ live from_ room opened given (by rintro c ⟨⟩)
    · next crashed =>
      refine .unwritten _ live from_ room opened given ?_
      rintro c ⟨⟩
      exact crashed
    · case _ addr m₃ b₃ wrote => exact .placed live from_ room opened given wrote

theorem install_cases (paged : 0 < m.heap.page) (b : Batch) (name : String) (code : List UInt8) :
    Installed m b name code (m.install b name code) := by
  unfold install
  dsimp only
  split
  · exact .refused _
  · case _ live =>
    split
    · exact .refused _
    · case _ given =>
      have live : b.ended = false := by simpa using live
      have given : code ≠ [] := by simpa using given
      cases found : m.roomFor? code.length with
      | some start =>
        obtain ⟨r, room⟩ := roomFor?_eq_some found
        exact installed_at live given (.inl rfl) room
      | none =>
        cases made : m.newRegion code.length with
        | error e => exact .refused _
        | ok m₁ =>
          obtain ⟨r, room⟩ := newRegion_room paged made
          exact installed_at live given (.inr made) room

/-- What an installation adds to the functions that are placed. -/
def newlyPlaced (name : String) (code : List UInt8) :
    Except (Fault InstallError) Nat → List Placement
  | .ok addr => [⟨name, addr, code⟩]
  | .error _ => []

theorem openLast_keeps (opened : m.openLast b r = .ok (m', b')) :
    m' = { m with heap := m'.heap, regions := m'.regions } ∧ b'.ended = b.ended ∧
      b'.pending = b.pending := by
  rcases openLast_eq_ok opened with ⟨-, rfl, rfl⟩ | ⟨rfl, rfl⟩
  · exact ⟨rfl, rfl, rfl⟩
  · exact ⟨rfl, rfl, rfl⟩

/-- An installation works on the heap and on the regions alone, and makes nothing known. -/
theorem Installed.manager {out : Except (Fault InstallError) Nat × Manager × Batch}
    (installed : Installed m b name code out) :
    out.2.1 = { m with heap := out.2.1.heap, regions := out.2.1.regions } := by
  have extended : ∀ {m₁ : Manager}, m₁ = m ∨ m.newRegion code.length = .ok m₁ →
      m₁ = { m with heap := m₁.heap, regions := m₁.regions } := by
    intro m₁ from_
    rcases from_ with rfl | made
    · rfl
    · obtain ⟨_, _, _, rfl⟩ := newRegion_eq_ok made
      rfl
  cases installed with
  | refused => rfl
  | unopened _ _ from_ _ => exact extended from_
  | unwritten _ _ from_ _ opened =>
    rw [extended from_] at opened
    exact (openLast_keeps opened).1
  | placed _ from_ _ opened _ wrote =>
    obtain ⟨-, _, -, rfl, -⟩ := writeLast_eq_ok wrote
    rw [extended from_] at opened
    rw [(openLast_keeps opened).1]

/-- It ends no batch, and a function that has been placed waits for the end of its batch. -/
theorem Installed.batch {out : Except (Fault InstallError) Nat × Manager × Batch}
    (installed : Installed m b name code out) : out.2.2.ended = b.ended ∧
      out.2.2.pending = b.pending ++ (newlyPlaced name code out.1).map Placement.symbol := by
  cases installed with
  | refused => exact ⟨rfl, (List.append_nil _).symm⟩
  | unopened => exact ⟨rfl, (List.append_nil _).symm⟩
  | unwritten _ _ _ _ opened =>
    obtain ⟨-, ended, pending⟩ := openLast_keeps opened
    exact ⟨ended, pending.trans (List.append_nil _).symm⟩
  | placed _ _ _ opened _ wrote =>
    obtain ⟨-, ended, pending⟩ := openLast_keeps opened
    obtain ⟨rfl, _, -, -, rfl⟩ := writeLast_eq_ok wrote
    exact ⟨ended, congrArg (· ++ _) pending⟩

/-- A function placed in one of the regions. -/
theorem Laid.place {blocks : List CodeBlock} {regions : Array Region} {i : Nat} {p : Placement}
    (laid : Laid blocks regions placed) (at_ : regions[i]? = some r) (low : r.base ≤ p.addr)
    (high : p.stop ≤ r.base + r.offset) : Laid blocks regions (placed ++ [p]) where
  apart := laid.apart
  backed := laid.backed
  room := laid.room
  inside q mem := by
    rcases List.mem_append.mp mem with mem | mem
    · exact laid.inside q mem
    · rw [List.mem_singleton.mp mem]
      exact ⟨i, r, at_, low, high⟩

namespace Holds

theorem newRegion {need : Nat} (holds : m.Holds pending placed)
    (made : m.newRegion need = .ok m') : m'.Holds pending placed := by
  obtain ⟨base, heap, allocated, rfl⟩ := newRegion_eq_ok made
  obtain ⟨rfl, page, contents, blocks, -, -, -⟩ := Heap.allocate_eq_ok allocated
  have paged : 0 < heap.page := by
    rw [page]
    exact holds.paged
  constructor
  case paged => exact paged
  case ordered => exact holds.ordered.allocate allocated
  case laid =>
    show Laid heap.blocks _ _
    rw [blocks]
    exact holds.laid.push holds.ordered.below (le_roundUp holds.paged)
  case written =>
    intro p mem i bound
    show heap.contents[p.addr + i]? = _
    rw [contents]
    exact holds.written p mem i bound
  case nonempty => exact holds.nonempty
  case ascending => exact holds.ascending
  case sorted => exact holds.sorted
  case known => exact holds.known
  case waiting => exact holds.waiting

theorem openLast (holds : m.Holds b.pending placed) (opened : m.openLast b r = .ok (m', b')) :
    m'.Holds b'.pending placed := by
  rcases openLast_eq_ok opened with ⟨-, rfl, rfl⟩ | ⟨rfl, rfl⟩
  · exact holds
  · apply holds.repaint Heap.sameBytes_setProtection
    apply holds.laid.modify
    intro s at_
    exact ⟨rfl, rfl, Nat.le_refl _, holds.laid.room _ s at_⟩

theorem writeLast (holds : m.Holds b.pending placed) (room : m.Room r start code.length)
    (given : code ≠ []) (wrote : m.writeLast b r start name code = .ok (addr, m', b')) :
    m'.Holds b'.pending (placed ++ [⟨name, addr, code⟩]) := by
  obtain ⟨rfl, heap, written, rfl, rfl⟩ := writeLast_eq_ok wrote
  obtain ⟨same, -, -⟩ := Heap.write_eq_ok written
  have past := room.past
  have fits := room.fits
  have last := room.last
  rw [Array.back?_eq_getElem?] at last
  -- every function that was there ends before the new one starts
  have before : ∀ p ∈ placed, p.stop ≤ r.base + start := by
    intro p mem
    have := holds.laid.stop_le room.last p mem
    omega
  constructor
  case paged =>
    show 0 < heap.page
    rw [same]
    exact holds.paged
  case ordered =>
    show heap.Ordered
    rw [same]
    exact ⟨holds.ordered.below, holds.ordered.apart, holds.ordered.within⟩
  case laid =>
    have moved : Laid m.heap.blocks (m.regions.modify (m.regions.size - 1) fun r =>
        { r with offset := start + code.length }) placed := by
      apply holds.laid.modify
      intro s at_
      rw [last] at at_
      cases at_
      exact ⟨rfl, rfl, by show r.offset ≤ start + code.length; omega, fits⟩
    have here : (m.regions.modify (m.regions.size - 1) fun r =>
        { r with offset := start + code.length })[m.regions.size - 1]? =
          some { r with offset := start + code.length } :=
      getElem?_modify_eq_some.mpr ⟨r, last, (if_pos rfl).symm⟩
    show Laid heap.blocks _ _
    rw [same]
    apply moved.place here
    · exact Nat.le_add_right _ _
    · exact Nat.le_of_eq (Nat.add_assoc _ _ _)
  case nonempty =>
    intro p mem
    rcases List.mem_append.mp mem with mem | mem
    · exact holds.nonempty p mem
    · rw [List.mem_singleton.mp mem]
      exact List.length_pos_of_ne_nil given
  case ascending =>
    rw [List.pairwise_append]
    refine ⟨holds.ascending, List.pairwise_singleton _ _, ?_⟩
    intro p mem q new
    rw [List.mem_singleton.mp new]
    exact before p mem
  case written =>
    intro p mem
    rcases List.mem_append.mp mem with mem | mem
    · exact (holds.written p mem).write written (.inl (before p mem))
    · rw [List.mem_singleton.mp mem]
      exact Heap.write_written written
  case sorted => exact holds.sorted
  case known =>
    intro s mem
    obtain ⟨p, old, symbol⟩ := holds.known s mem
    exact ⟨p, List.mem_append_left _ old, symbol⟩
  case waiting =>
    intro s mem
    rcases List.mem_append.mp mem with mem | mem
    · obtain ⟨p, old, symbol⟩ := holds.waiting s mem
      exact ⟨p, List.mem_append_left _ old, symbol⟩
    · rw [List.mem_singleton.mp mem]
      exact ⟨_, List.mem_append_right _ (List.mem_singleton_self _), rfl⟩

/-- The place of a function in the last region lies in a block, so it can be written unless it is
sealed. -/
theorem writeLast_ne_crash (holds : m.Holds b.pending placed) (room : m.Room r start code.length)
    (given : code ≠ []) (c : Crash) : m.writeLast b r start name code ≠ .error (.crash c) := by
  have last := room.last
  rw [Array.back?_eq_getElem?] at last
  obtain ⟨block, mem, base, size⟩ := holds.laid.backed _ r last
  have fits := room.fits
  have inside : m.heap.checkRange (r.base + start) code.length = .ok () :=
    holds.ordered.checkRange mem (by omega) (by omega) (List.length_pos_iff.mpr given)
  unfold Manager.writeLast
  dsimp only
  split
  · rintro ⟨⟩
  · next crashed => exact absurd crashed (Heap.write_ne_crash inside _)
  · rintro ⟨⟩

/-- Whether an installation succeeds or fails, and wherever it fails. -/
theorem install {out : Except (Fault InstallError) Nat × Manager × Batch}
    (holds : m.Holds b.pending placed) (installed : Installed m b name code out) :
    out.2.1.Holds out.2.2.pending (placed ++ newlyPlaced name code out.1) := by
  have extended : ∀ {m₁ : Manager}, m₁ = m ∨ m.newRegion code.length = .ok m₁ →
      m₁.Holds b.pending placed := by
    intro m₁ from_
    rcases from_ with rfl | made
    · exact holds
    · exact holds.newRegion made
  cases installed with
  | refused e => simpa [newlyPlaced] using holds
  | unopened e _ from_ _ => simpa [newlyPlaced] using extended from_
  | unwritten e _ from_ _ opened => simpa [newlyPlaced] using (extended from_).openLast opened
  | placed _ from_ room opened given wrote =>
    exact ((extended from_).openLast opened).writeLast (openLast_room room opened) given wrote

/-- An installation has a result. -/
theorem install_ne_crash (holds : m.Holds b.pending placed) (name : String) (code : List UInt8)
    (c : Crash) : (m.install b name code).1 ≠ .error (.crash c) := by
  have installed := install_cases holds.paged b name code
  revert installed
  generalize m.install b name code = out
  intro installed
  cases installed with
  | refused e => rintro ⟨⟩
  | unopened e _ _ _ => rintro ⟨⟩
  | placed _ _ _ _ _ _ => rintro ⟨⟩
  | unwritten e _ from_ room opened given failed =>
    rintro ⟨⟩
    have extended := from_.elim (fun same => same ▸ holds) holds.newRegion
    exact (extended.openLast opened).writeLast_ne_crash (openLast_room room opened) given c
      (failed c rfl)

end Holds

/-! ### The end of a batch -/

/-- A region as the end of a batch leaves it: what follows starts on a new page. -/
def sealedRegion (page : Nat) (r : Region) : Region :=
  let stop := min (roundUp r.offset page) r.size
  { r with sealedTo := stop, offset := stop, isOpen := false }

/-- The heap once the pages that a region has used are executable. -/
def sealedHeap (h : Heap) (r : Region) : Heap :=
  let stop := min (roundUp r.offset h.page) r.size
  if r.sealedTo < stop then
    match h.endWrite (r.base + r.sealedTo) (stop - r.sealedTo) with
    | .ok heap => heap
    | .error _ => h
  else h

theorem sameBytes_sealedHeap (h : Heap) (r : Region) : (sealedHeap h r).SameBytes h := by
  unfold sealedHeap Heap.endWrite Heap.protect
  dsimp only
  split
  · split
    · case _ heap painted =>
      split at painted
      · cases painted
        exact Heap.sameBytes_setProtection
      · cases painted
    · exact ⟨rfl, rfl, rfl, rfl⟩
  · exact ⟨rfl, rfl, rfl, rfl⟩

theorem setIfInBounds_eq_modify {regions : Array Region} {i : Nat} (at_ : regions[i]? = some r)
    (f : Region → Region) : regions.setIfInBounds i (f r) = regions.modify i f := by
  apply Array.ext_getElem?
  intro j
  rw [Array.getElem?_setIfInBounds, Array.getElem?_modify]
  split
  · case _ here =>
    subst here
    have bound := (Array.getElem?_eq_some_iff.mp at_).1
    rw [if_pos bound, at_]
    rfl
  · rfl

theorem sealRegion_cases (s : Manager × List MemoryError) (i : Nat) :
    s.1.regions[i]? = none ∧ (sealRegion s i).1 = s.1 ∨
    ∃ r, s.1.regions[i]? = some r ∧ (sealRegion s i).1 = { s.1 with
      heap := sealedHeap s.1.heap r
      regions := s.1.regions.modify i (sealedRegion s.1.heap.page) } := by
  cases at_ : s.1.regions[i]? with
  | none =>
    refine .inl ⟨rfl, ?_⟩
    unfold sealRegion
    dsimp only
    rw [at_]
  | some r =>
    refine .inr ⟨r, rfl, ?_⟩
    rw [← setIfInBounds_eq_modify at_]
    unfold sealRegion sealedHeap
    dsimp only
    rw [at_]
    dsimp only
    by_cases unsealed : r.sealedTo < min (roundUp r.offset s.1.heap.page) r.size
    · simp only [if_pos unsealed]
      cases s.1.heap.endWrite (r.base + r.sealedTo)
        (min (roundUp r.offset s.1.heap.page) r.size - r.sealedTo) <;> rfl
    · simp only [if_neg unsealed]
      rfl

/-- A manager that knows one more function. -/
def publish (m : Manager) (s : Symbol) : Manager :=
  { m with byName := (s.name, s.addr) :: m.byName, symbols := insertSymbol s m.symbols }

/-- A manager whose regions are sealed and whose functions are not known yet. -/
def sealAll (m : Manager) (b : Batch) : Manager :=
  (b.touched.foldl sealRegion ({ m with heap := b.pending.foldl (fun h _ => h.flush) m.heap }, [])).1

/-- Sealing works on the heap and on the regions alone. -/
theorem sealAll_eq (m : Manager) (b : Batch) :
    m.sealAll b = { m with heap := (m.sealAll b).heap, regions := (m.sealAll b).regions } := by
  have kept : ∀ (touched : List Nat) (s : Manager × List MemoryError),
      (touched.foldl sealRegion s).1 = { s.1 with
        heap := (touched.foldl sealRegion s).1.heap
        regions := (touched.foldl sealRegion s).1.regions } := by
    intro touched
    induction touched with
    | nil => exact fun s => rfl
    | cons i rest ih =>
      intro s
      have first : (sealRegion s i).1 = { s.1 with
          heap := (sealRegion s i).1.heap, regions := (sealRegion s i).1.regions } := by
        rcases sealRegion_cases s i with ⟨-, same⟩ | ⟨r, -, sealed⟩
        · rw [same]
        · rw [sealed]
      rw [List.foldl_cons, ih, first]
  exact kept b.touched _

theorem symbols_sealAll (m : Manager) (b : Batch) : (m.sealAll b).symbols = m.symbols := by
  rw [sealAll_eq]

theorem finish_eq (live : b.ended = false) : (m.finish b).2 =
    ({ b.pending.foldl publish (m.sealAll b) with
        batches := (b.pending.foldl publish (m.sealAll b)).batches + 1 },
      { b with ended := true }) := by
  unfold finish
  rw [live]
  rfl

theorem sameBytes_flushes (symbols : List Symbol) (h : Heap) :
    (symbols.foldl (fun h _ => h.flush) h).SameBytes h := by
  induction symbols generalizing h with
  | nil => exact ⟨rfl, rfl, rfl, rfl⟩
  | cons s rest ih =>
    have same := ih h.flush
    exact ⟨same.page, same.blocks, same.next, same.contents⟩

namespace Holds

theorem sealRegion {s : Manager × List MemoryError} (holds : s.1.Holds pending placed) (i : Nat) :
    (Manager.sealRegion s i).1.Holds pending placed := by
  rcases sealRegion_cases s i with ⟨-, same⟩ | ⟨r, at_, sealed⟩
  · rw [same]
    exact holds
  · rw [sealed]
    apply holds.repaint (sameBytes_sealedHeap _ _)
    apply holds.laid.modify
    intro r' at'
    have room := holds.laid.room i r' at'
    have up : r'.offset ≤ roundUp r'.offset s.1.heap.page := le_roundUp holds.paged
    refine ⟨rfl, rfl, Nat.le_min.mpr ⟨up, room⟩, Nat.min_le_right _ _⟩

theorem sealRegions {s : Manager × List MemoryError} (holds : s.1.Holds pending placed)
    (touched : List Nat) : (touched.foldl Manager.sealRegion s).1.Holds pending placed := by
  induction touched generalizing s with
  | nil => exact holds
  | cons i rest ih => exact ih (holds.sealRegion i)

theorem sealAll (holds : m.Holds b.pending placed) : (m.sealAll b).Holds b.pending placed := by
  have flushed := holds.repaint (sameBytes_flushes b.pending m.heap) holds.laid
  exact sealRegions (s := (_, [])) flushed b.touched

/-- A placed function that becomes known, beside those that are. -/
theorem publish (holds : m.Holds pending placed) {p : Placement} (mem : p ∈ placed) :
    (m.publish p.symbol).Holds pending placed ∧
      ∀ s, s ∈ (m.publish p.symbol).symbols ↔ s = p.symbol ∨ s ∈ m.symbols := by
  have same : ∀ s ∈ m.symbols, s.addr = p.symbol.addr → s = p.symbol := by
    intro s member addr
    obtain ⟨q, old, rfl⟩ := holds.known s member
    rw [holds.eq_of_addr old mem addr]
  have members : ∀ s, s ∈ (m.publish p.symbol).symbols ↔ s = p.symbol ∨ s ∈ m.symbols :=
    fun s => mem_insertSymbol same
  refine ⟨?_, members⟩
  constructor
  case known =>
    intro s member
    rcases (members s).mp member with rfl | member
    · exact ⟨p, mem, rfl⟩
    · exact holds.known s member
  case sorted => exact insertSymbol_sorted holds.sorted
  case paged => exact holds.paged
  case ordered => exact holds.ordered
  case laid => exact holds.laid
  case nonempty => exact holds.nonempty
  case ascending => exact holds.ascending
  case written => exact holds.written
  case waiting => exact holds.waiting

theorem publishAll (holds : m.Holds pending placed) {symbols : List Symbol}
    (sub : ∀ s ∈ symbols, ∃ p ∈ placed, p.symbol = s) :
    (symbols.foldl Manager.publish m).Holds pending placed ∧
      ∀ s, s ∈ (symbols.foldl Manager.publish m).symbols ↔ s ∈ symbols ∨ s ∈ m.symbols := by
  induction symbols generalizing m with
  | nil => exact ⟨holds, fun s => by simp⟩
  | cons t rest ih =>
    obtain ⟨p, mem, rfl⟩ := sub t List.mem_cons_self
    obtain ⟨first, members⟩ := holds.publish mem
    obtain ⟨later, all⟩ := ih first fun s mem => sub s (List.mem_cons_of_mem _ mem)
    refine ⟨later, fun s => ?_⟩
    rw [List.foldl_cons, all, members, List.mem_cons]
    tauto

/-- The end of a batch makes known what waited for it. -/
theorem finish (holds : m.Holds b.pending placed) (live : b.ended = false) :
    (m.finish b).2.1.Holds [] placed ∧
      ∀ s, s ∈ (m.finish b).2.1.symbols ↔ s ∈ b.pending ∨ s ∈ m.symbols := by
  have sealed := holds.sealAll
  obtain ⟨known, members⟩ := sealed.publishAll sealed.waiting
  rw [finish_eq live, ← symbols_sealAll m b]
  refine ⟨?_, members⟩
  constructor
  case waiting =>
    intro s mem
    cases mem
  case paged => exact known.paged
  case ordered => exact known.ordered
  case laid => exact known.laid
  case nonempty => exact known.nonempty
  case ascending => exact known.ascending
  case written => exact known.written
  case sorted => exact known.sorted
  case known => exact known.known

end Holds

/-! ### Closing -/

theorem sameBlocks_release {h h' : Heap} {addr size : Nat} (released : h.release addr size = .ok h') :
    h'.page = h.page ∧ h'.next = h.next ∧ (h.Ordered → h'.Ordered) := by
  unfold Heap.release at released
  split at released
  · cases released
    exact ⟨rfl, rfl, fun ordered => ⟨fun b mem => ordered.below b (List.mem_filter.mp mem).1,
      ordered.apart.filter _, fun b mem => ordered.within b (List.mem_filter.mp mem).1⟩⟩
  · cases released

/-- Giving regions back makes no block and moves none. -/
theorem release_regions (regions : List Region) (s : List HeapError × Heap) :
    let h := (regions.foldl (fun (es, h) r =>
      match Heap.release h r.base r.size with
      | .ok h => (es, h)
      | .error e => (es ++ [e], h)) s).2
    h.page = s.2.page ∧ h.next = s.2.next ∧ (s.2.Ordered → h.Ordered) := by
  induction regions generalizing s with
  | nil => exact ⟨rfl, rfl, id⟩
  | cons r rest ih =>
    rw [List.foldl_cons]
    cases released : Heap.release s.2 r.base r.size with
    | error e => simpa only [released] using ih (s.1 ++ [e], s.2)
    | ok h =>
      obtain ⟨page, next, ordered⟩ := sameBlocks_release released
      obtain ⟨page', next', ordered'⟩ := ih (s.1, h)
      simp only [released]
      exact ⟨page'.trans page, next'.trans next, fun old => ordered' (ordered old)⟩

/-- A closed manager holds nothing. -/
theorem Holds.close (holds : m.Holds pending placed) (live : m.closed = false) :
    m.close.2.Holds [] [] ∧ m.close.2.heap.page = m.heap.page ∧ m.close.2.heap.next = m.heap.next ∧
      m.close.2.regions = #[] ∧ m.close.2.closed = true := by
  obtain ⟨page, next, ordered⟩ := release_regions m.regions.toList ([], m.heap)
  unfold Manager.close
  rw [live]
  simp only [Bool.false_eq_true, if_false, ← Array.foldl_toList]
  refine ⟨?_, page, next, trivial, trivial⟩
  constructor
  case paged => exact Nat.lt_of_lt_of_eq holds.paged page.symm
  case ordered => exact ordered holds.ordered
  case laid => exact ⟨by simp, by simp, by simp, by simp⟩
  all_goals simp

end Manager
end TieredEngine.Native
