import Mathlib.Algebra.Ring.Nat
import TieredEngine.Native.Memory.Heap
import TieredEngine.Proofs.Except

/-!
What the operations of the heap do to the bytes and to the protection of an address. Blocks are
kept newest first and start at ever higher addresses, so a range inside a block is found in it,
whatever was allocated later. Which pages a range covers is only plain for page sizes that are
powers of two; nothing about bytes depends on that.
-/
namespace TieredEngine.Native
open TieredEngine

section Rounding
variable {n align : Nat}

theorem le_roundUp (positive : 0 < align) : n ≤ roundUp n align := by
  have low : (n + align - 1) &&& (align - 1) ≤ align - 1 := Nat.and_le_right
  unfold roundUp
  dsimp only
  omega

theorem roundUp_two_pow (k : Nat) : roundUp n (2 ^ k) = 2 ^ k * ((n + 2 ^ k - 1) / 2 ^ k) := by
  have split := Nat.div_add_mod (n + 2 ^ k - 1) (2 ^ k)
  unfold roundUp
  dsimp only
  rw [Nat.and_two_pow_sub_one_eq_mod]
  omega

theorem dvd_roundUp (k : Nat) : 2 ^ k ∣ roundUp n (2 ^ k) := by
  rw [roundUp_two_pow]
  exact Nat.dvd_mul_right _ _

/-- A multiple of the alignment that is at least the number is at least the number rounded up. -/
theorem roundUp_le {k m : Nat} (above : n ≤ m) (multiple : 2 ^ k ∣ m) : roundUp n (2 ^ k) ≤ m := by
  obtain ⟨c, rfl⟩ := multiple
  rw [roundUp_two_pow]
  apply Nat.mul_le_mul_left
  have positive : 0 < 2 ^ k := Nat.two_pow_pos k
  rw [Nat.div_le_iff_le_mul_add_pred positive]
  omega

end Rounding

namespace Heap
variable {h h' : Heap} {addr size : Nat} {p : Protection} {code : List UInt8}

/-- Blocks lie below the next free address, the newest highest, and end before the addresses do. -/
structure Ordered (h : Heap) : Prop where
  below : ∀ b ∈ h.blocks, b.base + b.size ≤ h.next
  apart : h.blocks.Pairwise fun newer older => older.base + older.size ≤ newer.base
  within : ∀ b ∈ h.blocks, b.base + b.size < addresses

/-- A range inside a block is found, though a block that was allocated later is looked at first. -/
theorem Ordered.checkRange {b : CodeBlock} (ordered : h.Ordered) (mem : b ∈ h.blocks)
    (low : b.base ≤ addr) (high : addr + size ≤ b.base + b.size) (nonempty : 0 < size) :
    h.checkRange addr size = .ok () := by
  obtain ⟨newer, older, blocks⟩ := List.append_of_mem mem
  have apart := ordered.apart
  rw [blocks, List.pairwise_append] at apart
  have wraps : (addr + size) % addresses ≤ addr + size := Nat.mod_le _ _
  have found : h.blocks.find? (fun b => b.base ≤ addr &&
      (addr + size) % addresses ≤ b.base + b.size) = some b := by
    rw [List.find?_eq_some_iff_append]
    constructor
    · simp only [Bool.and_eq_true, decide_eq_true_eq]
      omega
    · refine ⟨newer, older, blocks, fun c later => ?_⟩
      have above := apart.2.2 c later b List.mem_cons_self
      have past : ¬ c.base ≤ addr := by omega
      simp [past]
  unfold Heap.checkRange
  dsimp only
  rw [found]
  exact if_pos high

/-- Heaps that hold the same bytes in the same blocks; their protection may differ. -/
structure SameBytes (h' h : Heap) : Prop where
  page : h'.page = h.page
  blocks : h'.blocks = h.blocks
  next : h'.next = h.next
  contents : h'.contents = h.contents

theorem SameBytes.ordered (same : h'.SameBytes h) (ordered : h.Ordered) : h'.Ordered := by
  constructor
  · rw [same.blocks, same.next]
    exact ordered.below
  · rw [same.blocks]
    exact ordered.apart
  · rw [same.blocks]
    exact ordered.within

theorem sameBytes_setProtection : (h.setProtection addr size p).SameBytes h :=
  ⟨rfl, rfl, rfl, rfl⟩

/-! ### Bytes -/

/-- The cells from an address on hold a list of bytes. -/
def Written (h : Heap) (addr : Nat) (code : List UInt8) : Prop :=
  ∀ i (bound : i < code.length), h.contents[addr + i]? = some code[i]

theorem Written.bytes (written : h.Written addr code)
    (inside : h.checkRange addr code.length = .ok ()) : h.bytes addr code.length = .ok code := by
  unfold Heap.bytes
  rw [inside]
  show Except.ok _ = Except.ok code
  congr 1
  apply List.ext_getElem
  · simp
  · intro i _ bound
    simp [written i bound]

theorem getElem?_place (contents : Std.TreeMap Nat UInt8) (code : List UInt8) (addr start x : Nat) :
    ((code.zipIdx start).foldl (fun m (b, i) => m.insert (addr + i) b) contents)[x]? =
      if addr + start ≤ x ∧ x < addr + start + code.length then code[x - addr - start]?
      else contents[x]? := by
  induction code generalizing contents start with
  | nil =>
    rw [if_neg (by simp only [List.length_nil]; omega)]
    rfl
  | cons b rest ih =>
    rw [List.zipIdx_cons, List.foldl_cons, ih, Std.TreeMap.getElem?_insert]
    simp only [List.length_cons, Std.compare_eq_iff_eq]
    rcases Nat.lt_trichotomy x (addr + start) with before | here | after
    · rw [if_neg (by omega), if_neg (by omega), if_neg (by omega)]
    · have first : x - addr - start = 0 := by omega
      rw [if_neg (by omega), if_pos here.symm, if_pos (by omega), first, List.getElem?_cons_zero]
    · have next : x - addr - start = x - addr - (start + 1) + 1 := by omega
      rw [next, List.getElem?_cons_succ, if_neg (by omega : ¬ addr + start = x)]
      congr 1
      simp only [eq_iff_iff]
      omega

/-- What a write leaves: the same blocks and protection, and other bytes only in its range. -/
theorem write_eq_ok (written : h.write addr code = .ok h') :
    h' = { h with contents := h'.contents } ∧ h.sealedAt? addr code.length = none ∧
      ∀ x, h'.contents[x]? =
        if addr ≤ x ∧ x < addr + code.length then code[x - addr]? else h.contents[x]? := by
  unfold write at written
  obtain ⟨⟨⟩, _, open_⟩ := bind_eq_ok.mp written
  split at open_
  · cases open_
  · case h_2 unsealed =>
    cases open_
    refine ⟨rfl, unsealed, fun x => ?_⟩
    simpa using getElem?_place h.contents code addr 0 x

/-- Inside a block a write succeeds or meets a sealed page. -/
theorem write_ne_crash (inside : h.checkRange addr code.length = .ok ()) (c : Crash) :
    h.write addr code ≠ .error (.crash c) := by
  unfold write
  rw [inside]
  dsimp only [bind, Except.bind]
  split <;> rintro ⟨⟩

theorem write_written (written : h.write addr code = .ok h') : h'.Written addr code := by
  intro i bound
  rw [(write_eq_ok written).2.2, if_pos (by omega), Nat.add_sub_cancel_left]
  exact List.getElem?_eq_getElem bound

/-- Bytes outside the range of a write stay. -/
theorem Written.write {other : Nat} {bytes : List UInt8} (old : h.Written other bytes)
    (written : h.write addr code = .ok h')
    (apart : other + bytes.length ≤ addr ∨ addr + code.length ≤ other) :
    h'.Written other bytes := by
  intro i bound
  rw [(write_eq_ok written).2.2, if_neg (by omega)]
  exact old i bound

/-! ### Protection -/

theorem pageOf_le (h : Heap) (a : Nat) : h.pageOf a ≤ a := Nat.sub_le _ _

/-- The pages of a range that does not reach the end of the addresses. -/
theorem mem_pagesFrom (within : addr + size ≤ addresses) {x : Nat} : x ∈ h.pagesFrom addr size ↔
    ∃ i < (size + h.page - 1) / h.page, x = addr + i * h.page := by
  have here : ∀ i < (size + h.page - 1) / h.page,
      (addr + i * h.page) % addresses = addr + i * h.page := by
    intro i bound
    have past : (i + 1) * h.page ≤ size + h.page - 1 :=
      Nat.le_trans (Nat.mul_le_mul_right _ bound) (Nat.div_mul_le_self _ _)
    rw [Nat.succ_mul] at past
    have positive : 0 < h.page := by
      refine Nat.pos_of_ne_zero fun none => ?_
      rw [none, Nat.div_zero] at bound
      cases bound
    exact Nat.mod_eq_of_lt (by omega)
  simp only [pagesFrom, List.mem_map, List.mem_range]
  constructor
  · rintro ⟨i, bound, rfl⟩
    exact ⟨i, bound, here i bound⟩
  · rintro ⟨i, bound, rfl⟩
    exact ⟨i, bound, here i bound⟩

theorem getElem?_paint (pages : List Nat) (protection : Std.TreeMap Nat Protection)
    (p : Protection) (x : Nat) :
    (pages.foldl (fun m a => m.insert a p) protection)[x]? =
      if x ∈ pages then some p else protection[x]? := by
  induction pages generalizing protection with
  | nil => simp
  | cons a rest ih =>
    rw [List.foldl_cons, ih, Std.TreeMap.getElem?_insert]
    by_cases here : x = a
    · simp [here]
    · simp [here, Ne.symm here]

theorem protectionAt?_setProtection (a : Nat) : (h.setProtection addr size p).protectionAt? a =
    if h.pageOf a ∈ h.pagesFrom addr size then some p else h.protectionAt? a :=
  getElem?_paint _ _ p _

theorem protectionAt?_below (within : addr + size ≤ addresses) {a : Nat} (below : a < addr) :
    (h.setProtection addr size p).protectionAt? a = h.protectionAt? a := by
  rw [protectionAt?_setProtection, if_neg]
  intro covered
  obtain ⟨i, -, eq⟩ := (mem_pagesFrom within).mp covered
  have := h.pageOf_le a
  omega

section PowerOfTwo
variable {k a : Nat} (power : h.page = 2 ^ k)
include power

theorem pageOf_eq : h.pageOf a = h.page * (a / h.page) := by
  have split := Nat.div_add_mod a h.page
  unfold pageOf
  rw [power] at split ⊢
  rw [Nat.and_two_pow_sub_one_eq_mod]
  omega

theorem page_pos : 0 < h.page := by
  rw [power]
  exact Nat.two_pow_pos k

theorem page_dvd_addresses (small : h.page ≤ addresses) : h.page ∣ addresses := by
  rw [power] at small ⊢
  exact Nat.pow_dvd_pow 2 ((Nat.pow_le_pow_iff_right (by decide)).mp small)

/-- The pages of an aligned range are the pages of its addresses. -/
theorem pageOf_mem (within : addr + size ≤ addresses) (aligned : h.page ∣ addr)
    (whole : h.page ∣ size) :
    h.pageOf a ∈ h.pagesFrom addr size ↔ addr ≤ a ∧ a < addr + size := by
  have positive := page_pos power
  rw [mem_pagesFrom within]
  obtain ⟨first, rfl⟩ := aligned
  obtain ⟨count, rfl⟩ := whole
  have pages : (h.page * count + h.page - 1) / h.page = count := by
    rw [Nat.add_sub_assoc positive, Nat.mul_add_div positive, Nat.div_eq_of_lt (by omega)]
    rfl
  have low : h.page * first ≤ a ↔ first ≤ a / h.page := by
    rw [Nat.le_div_iff_mul_le positive, Nat.mul_comm]
  have high : a < h.page * first + h.page * count ↔ a / h.page < first + count := by
    rw [Nat.div_lt_iff_lt_mul positive, ← Nat.mul_add, Nat.mul_comm]
  rw [pages, pageOf_eq power, low, high]
  constructor
  · rintro ⟨i, bound, eq⟩
    have : a / h.page = first + i := by
      apply Nat.eq_of_mul_eq_mul_left positive
      rw [eq, Nat.mul_add, Nat.mul_comm i]
    omega
  · rintro ⟨at_least, at_most⟩
    refine ⟨a / h.page - first, by omega, ?_⟩
    rw [Nat.mul_comm _ h.page, ← Nat.mul_add]
    congr 1
    omega

theorem protectionAt?_aligned (within : addr + size ≤ addresses) (aligned : h.page ∣ addr)
    (whole : h.page ∣ size) : (h.setProtection addr size p).protectionAt? a =
      if addr ≤ a ∧ a < addr + size then some p else h.protectionAt? a := by
  rw [protectionAt?_setProtection]
  simp only [pageOf_mem power within aligned whole]

omit power in
/-- Where pages divide the addresses evenly, the sign of an address makes no difference. -/
theorem isPage_of_dvd (even : h.page ∣ addresses) (aligned : h.page ∣ addr) : h.isPage addr = true := by
  unfold isPage
  split
  · simpa using Nat.mod_eq_zero_of_dvd aligned
  · simpa using Nat.mod_eq_zero_of_dvd (Nat.dvd_sub even aligned)

end PowerOfTwo

/-- What a new block changes: it lies past all others, and only its own pages become writable. -/
theorem allocate_eq_ok {base : Nat} (allocated : h.allocate size = .ok (base, h')) :
    base = h.next ∧ h'.page = h.page ∧ h'.contents = h.contents ∧
      h'.blocks = ⟨base, roundUp size h.page⟩ :: h.blocks ∧
      h'.next = base + roundUp size h.page + h.page ∧
      base + roundUp size h.page + h.page < addresses ∧
      ∀ a < base, h'.protectionAt? a = h.protectionAt? a := by
  unfold allocate at allocated
  split at allocated
  · cases allocated
  · dsimp only at allocated
    split at allocated
    · cases allocated
    · next room =>
      cases allocated
      refine ⟨rfl, rfl, rfl, rfl, rfl, Nat.lt_of_not_le room, fun a below => ?_⟩
      rw [protectionAt?_below (by omega) below]
      rfl

theorem Ordered.allocate {base : Nat} (ordered : h.Ordered)
    (allocated : h.allocate size = .ok (base, h')) : h'.Ordered := by
  obtain ⟨rfl, -, -, blocks, next, room, -⟩ := allocate_eq_ok allocated
  constructor
  · intro b mem
    rw [blocks] at mem
    rcases List.mem_cons.mp mem with rfl | mem
    · show h.next + roundUp size h.page ≤ h'.next
      omega
    · have := ordered.below b mem
      omega
  · rw [blocks]
    exact .cons (fun b mem => ordered.below b mem) ordered.apart
  · intro b mem
    rw [blocks] at mem
    rcases List.mem_cons.mp mem with rfl | mem
    · show h.next + roundUp size h.page < addresses
      omega
    · exact ordered.within b mem

end Heap
end TieredEngine.Native
