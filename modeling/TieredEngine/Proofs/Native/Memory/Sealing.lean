import TieredEngine.Proofs.Native.Memory.Manager

/-!
Sealing, for page sizes that are powers of two. Every region begins at a page and is sealed up to a
page, and what is sealed is executable: opening a region makes only the pages from its sealed
boundary on writable, and the end of a batch moves the boundary past all that the batch wrote. So a
function is known by name only once it lies below the boundary of its region.
-/
namespace TieredEngine.Native
open TieredEngine

/-- A region of whole pages that is sealed up to a page and executable up to there. -/
structure Region.Sealed (h : Heap) (r : Region) : Prop where
  base : h.page ∣ r.base
  size : h.page ∣ r.size
  boundary : h.page ∣ r.sealedTo
  reach : r.sealedTo ≤ r.offset
  executable : ∀ a, r.base ≤ a → a < r.base + r.sealedTo → h.protectionAt? a = some .executable

/-- Where the end of a batch seals a region to is a page again. -/
theorem Region.Sealed.stop {h : Heap} {r : Region} {k : Nat} (sealed : r.Sealed h)
    (power : h.page = 2 ^ k) : h.page ∣ min (roundUp r.offset h.page) r.size := by
  rcases Nat.le_total (roundUp r.offset h.page) r.size with less | less
  · rw [Nat.min_eq_left less, power]
    exact dvd_roundUp k
  · rw [Nat.min_eq_right less]
    exact sealed.size

namespace Manager
variable {m m' : Manager} {b b' : Batch} {placed : List Placement} {pending : List Symbol}
  {touched : List Nat} {r : Region} {name : String} {code : List UInt8} {start addr : Nat}

/-- The regions of a manager are sealed, except for what the batch that has touched them has
written; every known function lies in a sealed part, and every other one waits for the batch. -/
structure Sealing (m : Manager) (touched : List Nat) (pending : List Symbol)
    (placed : List Placement) : Prop where
  power : ∃ k, 4 ≤ k ∧ m.heap.page = 2 ^ k
  next : m.heap.page ∣ m.heap.next
  regions : ∀ (i : Nat) (r : Region), m.regions[i]? = some r → r.Sealed m.heap
  opened : ∀ (i : Nat) (r : Region), m.regions[i]? = some r → r.isOpen = true → i ∈ touched
  aligned : ∀ p ∈ placed, functionAlign ∣ p.addr
  reached : ∀ p ∈ placed, ∃ (i : Nat) (r : Region), m.regions[i]? = some r ∧ r.base ≤ p.addr ∧
    (p.stop ≤ r.base + r.sealedTo ∨
      p.symbol ∉ m.symbols ∧ i ∈ touched ∧ p.stop ≤ r.base + r.offset)
  awaited : ∀ p ∈ placed, p.symbol ∈ m.symbols ∨ p.symbol ∈ pending

namespace Sealing

theorem executable (sealing : m.Sealing touched pending placed) {p : Placement} (mem : p ∈ placed)
    (known : p.symbol ∈ m.symbols) {a : Nat} (low : p.addr ≤ a) (high : a < p.stop) :
    m.heap.protectionAt? a = some .executable := by
  obtain ⟨i, r, at_, base, sealed | ⟨unknown, -⟩⟩ := sealing.reached p mem
  · exact (sealing.regions i r at_).executable a (by omega) (by omega)
  · exact absurd known unknown

theorem newRegion {need : Nat} (sealing : m.Sealing touched pending placed)
    (holds : m.Holds pending placed) (made : m.newRegion need = .ok m') :
    m'.Sealing touched pending placed := by
  obtain ⟨base, heap, allocated, rfl⟩ := newRegion_eq_ok made
  obtain ⟨rfl, page, -, -, next, -, protection⟩ := Heap.allocate_eq_ok allocated
  obtain ⟨k, large, power⟩ := sealing.power
  have whole : m.heap.page ∣ m.regionFor need := by
    unfold regionFor
    rw [power]
    exact dvd_roundUp k
  have split : ∀ (i : Nat) (r : Region),
      (m.regions.push { base := m.heap.next, size := m.regionFor need })[i]? = some r →
      r = { base := m.heap.next, size := m.regionFor need } ∨ m.regions[i]? = some r := by
    intro i r at_
    rw [Array.getElem?_push] at at_
    split at at_
    · cases at_
      exact .inl rfl
    · exact .inr at_
  constructor
  case power => exact ⟨k, large, page.trans power⟩
  case next =>
    show heap.page ∣ heap.next
    rw [page, next, power]
    refine Nat.dvd_add (Nat.dvd_add ?_ (dvd_roundUp k)) (Nat.dvd_refl _)
    rw [← power]
    exact sealing.next
  case regions =>
    intro i r at_
    rcases split i r at_ with rfl | at_
    · constructor
      case base => exact page.symm ▸ sealing.next
      case size => exact page.symm ▸ whole
      case boundary => exact Nat.dvd_zero _
      case reach => exact Nat.le_refl _
      case executable =>
        intro a low high
        exact absurd high (Nat.not_lt.mpr low)
    · have old := sealing.regions i r at_
      obtain ⟨b, block, from_, room⟩ := holds.laid.backed i r at_
      have below := holds.ordered.below b block
      have offset := holds.laid.room i r at_
      have reach := old.reach
      constructor
      case base => exact page.symm ▸ old.base
      case size => exact page.symm ▸ old.size
      case boundary => exact page.symm ▸ old.boundary
      case reach => exact reach
      case executable =>
        intro a low high
        show heap.protectionAt? a = _
        rw [protection a (by omega)]
        exact old.executable a low high
  case opened =>
    intro i r at_ isOpen
    rcases split i r at_ with rfl | at_
    · cases isOpen
    · exact sealing.opened i r at_ isOpen
  case aligned => exact sealing.aligned
  case reached =>
    intro p mem
    obtain ⟨i, r, at_, reached⟩ := sealing.reached p mem
    refine ⟨i, r, ?_, reached⟩
    have bound := (Array.getElem?_eq_some_iff.mp at_).1
    show (m.regions.push _)[i]? = _
    rw [Array.getElem?_push, if_neg (by omega), at_]
  case awaited => exact sealing.awaited

/-- No sealed address lies past the sealed part of the last region. -/
theorem below_last (sealing : m.Sealing touched pending placed) (holds : m.Holds pending placed)
    (last : m.regions.back? = some r) {i : Nat} {s : Region} (at_ : m.regions[i]? = some s) {a : Nat}
    (high : a < s.base + s.sealedTo) : a < r.base + r.sealedTo := by
  rw [Array.back?_eq_getElem?] at last
  have bound := (Array.getElem?_eq_some_iff.mp at_).1
  have reach := (sealing.regions i s at_).reach
  have room := holds.laid.room i s at_
  rcases Nat.lt_or_ge i (m.regions.size - 1) with before | same
  · have apart := holds.laid.apart i _ s r before at_ last
    omega
  · have here : i = m.regions.size - 1 := by omega
    rw [here, last] at at_
    cases at_
    exact high

theorem openLast (sealing : m.Sealing b.touched pending placed) (holds : m.Holds pending placed)
    (last : m.regions.back? = some r) (opened : m.openLast b r = .ok (m', b')) :
    m'.Sealing b'.touched pending placed := by
  rcases openLast_eq_ok opened with ⟨-, rfl, rfl⟩ | ⟨rfl, rfl⟩
  · exact sealing
  · have lastAt := Array.back?_eq_getElem?.symm.trans last
    have within := holds.within lastAt
    have room := holds.laid.room _ r lastAt
    have reach := (sealing.regions _ r lastAt).reach
    constructor
    case power => exact sealing.power
    case next => exact sealing.next
    case regions =>
      intro i s found
      obtain ⟨old, at_, rfl⟩ := getElem?_modify_eq_some.mp found
      have sealed := sealing.regions i old at_
      have painted : ∀ a, old.base ≤ a → a < old.base + old.sealedTo →
          (m.heap.setProtection (r.base + r.sealedTo) (r.size - r.sealedTo) .writable).protectionAt? a =
            some .executable := by
        intro a low high
        rw [Heap.protectionAt?_below (by omega) (sealing.below_last holds last at_ high)]
        exact sealed.executable a low high
      split
      · exact ⟨sealed.base, sealed.size, sealed.boundary, sealed.reach, painted⟩
      · exact ⟨sealed.base, sealed.size, sealed.boundary, sealed.reach, painted⟩
    case opened =>
      intro i s found isOpen
      obtain ⟨old, at_, rfl⟩ := getElem?_modify_eq_some.mp found
      rw [List.mem_append, List.mem_singleton]
      split at isOpen
      · case _ here => exact .inr here.symm
      · exact .inl (sealing.opened i old at_ isOpen)
    case aligned => exact sealing.aligned
    case reached =>
      intro p mem
      obtain ⟨i, s, at_, low, reached⟩ := sealing.reached p mem
      refine ⟨i, _, getElem?_modify_eq_some.mpr ⟨s, at_, rfl⟩, ?_⟩
      have kept : p.stop ≤ s.base + s.sealedTo ∨ p.symbol ∉ m.symbols ∧
          i ∈ b.touched ++ [m.regions.size - 1] ∧ p.stop ≤ s.base + s.offset :=
        reached.imp_right fun ⟨unknown, mem, high⟩ => ⟨unknown, List.mem_append_left _ mem, high⟩
      split
      · exact ⟨low, kept⟩
      · exact ⟨low, kept⟩
    case awaited => exact sealing.awaited

theorem writeLast (sealing : m.Sealing b.touched b.pending placed)
    (holds : m.Holds b.pending placed) (room : m.Room r start code.length) (isOpen : r.isOpen = true)
    (wrote : m.writeLast b r start name code = .ok (addr, m', b')) :
    m'.Sealing b'.touched b'.pending (placed ++ [⟨name, addr, code⟩]) := by
  obtain ⟨rfl, heap, written, rfl, rfl⟩ := writeLast_eq_ok wrote
  obtain ⟨same, -, -⟩ := Heap.write_eq_ok written
  obtain ⟨k, large, power⟩ := sealing.power
  have past := room.past
  have last := room.last
  rw [Array.back?_eq_getElem?] at last
  have touched : m.regions.size - 1 ∈ b.touched := sealing.opened _ r last isOpen
  have sealedLast := sealing.regions _ r last
  have page : heap.page = m.heap.page := by rw [same]
  have protection : ∀ a, heap.protectionAt? a = m.heap.protectionAt? a := by
    intro a
    rw [same]
    rfl
  -- a known function starts before the place of the new one
  have unknown : (⟨name, r.base + start, code.length⟩ : Symbol) ∉ m.symbols := by
    intro known
    obtain ⟨q, old, symbol⟩ := holds.known _ known
    have stop := holds.laid.stop_le room.last q old
    have some := holds.nonempty q old
    have addr : q.addr = r.base + start := congrArg Symbol.addr symbol
    unfold Placement.stop at stop
    omega
  constructor
  case power => exact ⟨k, large, page.trans power⟩
  case next =>
    show heap.page ∣ heap.next
    rw [same]
    exact sealing.next
  case regions =>
    intro i s found
    obtain ⟨old, at_, rfl⟩ := getElem?_modify_eq_some.mp found
    have sealed := sealing.regions i old at_
    split
    · case _ here =>
      rw [← here, last] at at_
      cases at_
      refine ⟨page ▸ sealed.base, page ▸ sealed.size, page ▸ sealed.boundary, ?_, ?_⟩
      · have := sealed.reach
        show r.sealedTo ≤ start + code.length
        omega
      · intro a low high
        exact (protection a).trans (sealed.executable a low high)
    · refine ⟨page ▸ sealed.base, page ▸ sealed.size, page ▸ sealed.boundary, sealed.reach, ?_⟩
      intro a low high
      exact (protection a).trans (sealed.executable a low high)
  case opened =>
    intro i s found isOpen
    obtain ⟨old, at_, rfl⟩ := getElem?_modify_eq_some.mp found
    split at isOpen
    · exact sealing.opened i old at_ isOpen
    · exact sealing.opened i old at_ isOpen
  case aligned =>
    intro p mem
    rcases List.mem_append.mp mem with mem | mem
    · exact sealing.aligned p mem
    · rw [List.mem_singleton.mp mem]
      have wide : functionAlign ∣ m.heap.page := by
        rw [power]
        exact Nat.pow_dvd_pow 2 large
      exact Nat.dvd_add (Nat.dvd_trans wide sealedLast.base) room.aligned
  case reached =>
    intro p mem
    rcases List.mem_append.mp mem with mem | mem
    · obtain ⟨i, s, at_, low, reached⟩ := sealing.reached p mem
      refine ⟨i, _, getElem?_modify_eq_some.mpr ⟨s, at_, rfl⟩, ?_⟩
      split
      · case _ here =>
        rw [← here, last] at at_
        cases at_
        refine ⟨low, reached.imp_right fun ⟨unknown, mem, high⟩ => ⟨unknown, mem, ?_⟩⟩
        show p.stop ≤ r.base + (start + code.length)
        omega
      · exact ⟨low, reached⟩
    · rw [List.mem_singleton.mp mem]
      refine ⟨_, _, getElem?_modify_eq_some.mpr ⟨r, last, (if_pos rfl).symm⟩, ?_⟩
      refine ⟨Nat.le_add_right _ _, .inr ⟨unknown, touched, ?_⟩⟩
      exact Nat.le_of_eq (Nat.add_assoc _ _ _)
  case awaited =>
    intro p mem
    rcases List.mem_append.mp mem with mem | mem
    · exact (sealing.awaited p mem).imp_right (List.mem_append_left _)
    · rw [List.mem_singleton.mp mem]
      exact .inr (List.mem_append_right _ (List.mem_singleton_self _))

theorem install {out : Except (Fault InstallError) Nat × Manager × Batch}
    (sealing : m.Sealing b.touched b.pending placed) (holds : m.Holds b.pending placed)
    (installed : Installed m b name code out) :
    out.2.1.Sealing out.2.2.touched out.2.2.pending (placed ++ newlyPlaced name code out.1) := by
  have extended : ∀ {m₁ : Manager}, m₁ = m ∨ m.newRegion code.length = .ok m₁ →
      m₁.Sealing b.touched b.pending placed ∧ m₁.Holds b.pending placed := by
    intro m₁ from_
    rcases from_ with rfl | made
    · exact ⟨sealing, holds⟩
    · exact ⟨sealing.newRegion holds made, holds.newRegion made⟩
  have pending : ∀ {m₁ m₂ : Manager} {b₂ : Batch} {r : Region},
      m₁.openLast b r = .ok (m₂, b₂) → b₂.pending = b.pending := by
    intro m₁ m₂ b₂ r opened
    rcases openLast_eq_ok opened with ⟨-, -, rfl⟩ | ⟨-, rfl⟩
    · rfl
    · rfl
  cases installed with
  | refused e => simpa [newlyPlaced] using sealing
  | unopened e _ from_ _ => simpa [newlyPlaced] using (extended from_).1
  | unwritten e _ from_ room opened =>
    obtain ⟨sealing, holds⟩ := extended from_
    have after := sealing.openLast holds room.last opened
    rw [← pending opened] at after
    simpa [newlyPlaced] using after
  | placed _ from_ room opened given wrote =>
    obtain ⟨sealing, holds⟩ := extended from_
    have after := sealing.openLast holds room.last opened
    rw [← pending opened] at after
    exact after.writeLast (holds.openLast opened) (openLast_room room opened) rfl wrote

end Sealing

/-! ### The end of a batch -/

/-- The pages that a region has used become executable, and no other page changes. -/
theorem protectionAt?_sealedHeap {h : Heap} {k : Nat} (power : h.page = 2 ^ k)
    (sealed : r.Sealed h) (within : r.base + r.size < Heap.addresses) (a : Nat) : (sealedHeap h r).protectionAt? a =
      if r.base + r.sealedTo ≤ a ∧ a < r.base + min (roundUp r.offset h.page) r.size then
        some .executable
      else h.protectionAt? a := by
  have whole := sealed.stop power
  have start : h.page ∣ r.base + r.sealedTo := Nat.dvd_add sealed.base sealed.boundary
  unfold sealedHeap Heap.endWrite Heap.protect
  dsimp only
  by_cases before : r.sealedTo < min (roundUp r.offset h.page) r.size
  · have small : h.page ≤ Heap.addresses := by
      have size := Nat.le_of_dvd (by omega) sealed.size
      omega
    rw [if_pos before, if_pos (Heap.isPage_of_dvd (Heap.page_dvd_addresses power small) start)]
    dsimp only
    rw [Heap.protectionAt?_aligned power (by omega) start (Nat.dvd_sub whole sealed.boundary)]
    have span : r.base + r.sealedTo + (min (roundUp r.offset h.page) r.size - r.sealedTo) =
        r.base + min (roundUp r.offset h.page) r.size := by omega
    rw [span]
  · rw [if_neg before, if_neg (by omega)]

namespace Sealing

/-- Once a region is sealed, the batch need not come back to it. -/
theorem sealRegion {s : Manager × List MemoryError} {i : Nat}
    (sealing : s.1.Sealing (i :: touched) pending placed) (holds : s.1.Holds pending placed) :
    (Manager.sealRegion s i).1.Sealing touched pending placed := by
  rcases sealRegion_cases s i with ⟨none, same⟩ | ⟨r, here, sealed⟩
  · -- a region that is there is not this one
    have other : ∀ (j : Nat) (r : Region), s.1.regions[j]? = some r → j ∈ i :: touched →
        j ∈ touched := by
      intro j r at_ mem
      rcases List.mem_cons.mp mem with rfl | mem
      · rw [none] at at_
        cases at_
      · exact mem
    rw [same]
    constructor
    case power => exact sealing.power
    case next => exact sealing.next
    case regions => exact sealing.regions
    case opened => exact fun j r at_ isOpen => other j r at_ (sealing.opened j r at_ isOpen)
    case aligned => exact sealing.aligned
    case reached =>
      intro p mem
      obtain ⟨j, r, at_, low, reached⟩ := sealing.reached p mem
      exact ⟨j, r, at_, low, reached.imp_right fun ⟨unknown, mem, high⟩ =>
        ⟨unknown, other j r at_ mem, high⟩⟩
    case awaited => exact sealing.awaited
  · obtain ⟨k, large, power⟩ := sealing.power
    have same := sameBytes_sealedHeap s.1.heap r
    have sealedHere := sealing.regions i r here
    have paint := protectionAt?_sealedHeap power sealedHere (holds.within here)
    have room := holds.laid.room i r here
    have up : r.offset ≤ roundUp r.offset s.1.heap.page := le_roundUp holds.paged
    have reach := sealedHere.reach
    -- what was executable stays so
    have kept : ∀ a, s.1.heap.protectionAt? a = some .executable →
        (sealedHeap s.1.heap r).protectionAt? a = some .executable := by
      intro a old
      rw [paint]
      split
      · rfl
      · exact old
    rw [sealed]
    constructor
    case power => exact ⟨k, large, same.page.trans power⟩
    case next =>
      show (sealedHeap s.1.heap r).page ∣ (sealedHeap s.1.heap r).next
      rw [same.page, same.next]
      exact sealing.next
    case regions =>
      intro j r' found
      obtain ⟨old, at_, rfl⟩ := getElem?_modify_eq_some.mp found
      have before := sealing.regions j old at_
      split
      · case _ equal =>
        rw [← equal, here] at at_
        cases at_
        constructor
        case base => exact same.page.symm ▸ before.base
        case size => exact same.page.symm ▸ before.size
        case boundary => exact same.page.symm ▸ before.stop power
        case reach => exact Nat.le_refl _
        case executable =>
          intro a low high
          rcases Nat.lt_or_ge a (r.base + r.sealedTo) with old | new
          · exact kept a (before.executable a low old)
          · show (sealedHeap s.1.heap r).protectionAt? a = _
            rw [paint, if_pos ⟨new, high⟩]
      · constructor
        case base => exact same.page.symm ▸ before.base
        case size => exact same.page.symm ▸ before.size
        case boundary => exact same.page.symm ▸ before.boundary
        case reach => exact before.reach
        case executable => exact fun a low high => kept a (before.executable a low high)
    case opened =>
      intro j r' found isOpen
      obtain ⟨old, at_, rfl⟩ := getElem?_modify_eq_some.mp found
      split at isOpen
      · cases isOpen
      · case _ other =>
        rcases List.mem_cons.mp (sealing.opened j old at_ isOpen) with rfl | mem
        · exact absurd rfl other
        · exact mem
    case aligned => exact sealing.aligned
    case reached =>
      intro p mem
      obtain ⟨j, old, at_, low, reached⟩ := sealing.reached p mem
      refine ⟨j, _, getElem?_modify_eq_some.mpr ⟨old, at_, rfl⟩, ?_⟩
      split
      · case _ equal =>
        rw [← equal, here] at at_
        cases at_
        refine ⟨low, .inl ?_⟩
        show p.stop ≤ r.base + min (roundUp r.offset s.1.heap.page) r.size
        rcases reached with high | ⟨-, -, high⟩
        · omega
        · omega
      · case _ other =>
        refine ⟨low, reached.imp_right fun ⟨unknown, mem, high⟩ => ⟨unknown, ?_, high⟩⟩
        rcases List.mem_cons.mp mem with rfl | mem
        · exact absurd rfl other
        · exact mem
    case awaited => exact sealing.awaited

theorem sealAll (sealing : m.Sealing b.touched b.pending placed)
    (holds : m.Holds b.pending placed) : (m.sealAll b).Sealing [] b.pending placed := by
  have all : ∀ (touched : List Nat) (s : Manager × List MemoryError),
      s.1.Sealing touched b.pending placed → s.1.Holds b.pending placed →
      (touched.foldl Manager.sealRegion s).1.Sealing [] b.pending placed := by
    intro touched
    induction touched with
    | nil => exact fun s sealing _ => sealing
    | cons i rest ih => exact fun s sealing holds => ih _ (sealing.sealRegion holds) (holds.sealRegion i)
  have same := sameBytes_flushes b.pending m.heap
  have flushed := holds.repaint same holds.laid
  have protection : ∀ (symbols : List Symbol) (h : Heap) (a : Nat),
      (symbols.foldl (fun h _ => h.flush) h).protectionAt? a = h.protectionAt? a := by
    intro symbols
    induction symbols with
    | nil => exact fun h a => rfl
    | cons _ rest ih => exact fun h a => ih h.flush a
  refine all b.touched (_, []) ?_ flushed
  obtain ⟨k, large, power⟩ := sealing.power
  constructor
  case power => exact ⟨k, large, same.page.trans power⟩
  case next =>
    show Heap.page _ ∣ Heap.next _
    rw [same.page, same.next]
    exact sealing.next
  case regions =>
    intro i r at_
    have sealed := sealing.regions i r at_
    constructor
    case base => exact same.page.symm ▸ sealed.base
    case size => exact same.page.symm ▸ sealed.size
    case boundary => exact same.page.symm ▸ sealed.boundary
    case reach => exact sealed.reach
    case executable =>
      exact fun a low high => (protection _ _ a).trans (sealed.executable a low high)
  case opened => exact sealing.opened
  case aligned => exact sealing.aligned
  case reached => exact sealing.reached
  case awaited => exact sealing.awaited

/-- After a batch no region is open and every placed function is known. -/
theorem finish (sealing : m.Sealing b.touched b.pending placed) (holds : m.Holds b.pending placed)
    (live : b.ended = false) : (m.finish b).2.1.Sealing [] [] placed := by
  have sealed := sealing.sealAll holds
  obtain ⟨-, members⟩ := holds.finish live
  have published : ∀ (symbols : List Symbol) (m : Manager),
      (symbols.foldl Manager.publish m).heap = m.heap ∧
        (symbols.foldl Manager.publish m).regions = m.regions := by
    intro symbols
    induction symbols with
    | nil => exact fun m => ⟨rfl, rfl⟩
    | cons s rest ih => exact fun m => ih (m.publish s)
  obtain ⟨heap, regions⟩ := published b.pending (m.sealAll b)
  have known : ∀ p ∈ placed, p.symbol ∈ (m.finish b).2.1.symbols := by
    intro p mem
    rw [members, ← symbols_sealAll m b]
    exact (sealed.awaited p mem).symm
  rw [finish_eq live] at known ⊢
  constructor
  case power => exact heap.symm ▸ sealed.power
  case next => exact heap.symm ▸ sealed.next
  case regions =>
    intro i r at_
    exact heap.symm ▸ sealed.regions i r (regions ▸ at_)
  case opened => exact fun i r at_ => sealed.opened i r (regions ▸ at_)
  case aligned => exact sealed.aligned
  case reached =>
    intro p mem
    obtain ⟨i, r, at_, low, high | ⟨-, none, -⟩⟩ := sealed.reached p mem
    · exact ⟨i, r, regions.symm ▸ at_, low, .inl high⟩
    · cases none
  case awaited => exact fun p mem => .inl (known p mem)

theorem close (sealing : m.Sealing touched pending placed) (holds : m.Holds pending placed)
    (live : m.closed = false) : m.close.2.Sealing [] [] [] := by
  obtain ⟨-, page, next, regions, -⟩ := holds.close live
  obtain ⟨k, large, power⟩ := sealing.power
  constructor
  case power => exact ⟨k, large, page.trans power⟩
  case next =>
    rw [page, next]
    exact sealing.next
  case regions => simp [regions]
  case opened => simp [regions]
  all_goals simp

end Sealing

end Manager
end TieredEngine.Native
