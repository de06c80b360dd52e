import TieredEngine.Proofs.Native.Memory.Manager

/-!
Which writes a heap lets through, for page sizes that are powers of two. A write has to lie in one
block, and it is refused where it meets a sealed page. The check looks at one address a page apart,
from the start of the range, so it covers as many pages as the length of the range calls for. A range
that begins within a page can reach one page further, and that page is not looked at.
-/
namespace TieredEngine.Native.Heap
open TieredEngine

variable {h h' : Heap} {addr size : Nat} {code : List UInt8}

/-! ### What a write needs -/

/-- A range lies in one block that has not been given back. -/
def Live (h : Heap) (addr size : Nat) : Prop :=
  ∃ b ∈ h.blocks, b.base ≤ addr ∧ addr + size ≤ b.base + b.size

theorem Live.within (live : h.Live addr size) (ordered : h.Ordered) : addr + size ≤ addresses := by
  obtain ⟨b, mem, -, high⟩ := live
  exact Nat.le_of_lt (Nat.lt_of_le_of_lt high (ordered.within b mem))

/-- The page of an address is not sealed. A page whose protection has been forgotten counts as
writable. -/
def Writable (h : Heap) (a : Nat) : Prop := h.protectionAt? a ≠ some .executable

instance (h : Heap) (a : Nat) : Decidable (h.Writable a) := inferInstanceAs (Decidable (_ ≠ _))

/-- Where the pages end that a write of a size looks at. -/
def checkedTo (h : Heap) (addr size : Nat) : Nat := h.pageOf addr + roundUp size h.page

/-- The byte at an address; cells that were never written are zero. -/
def byteAt (h : Heap) (a : Nat) : UInt8 := (h.contents[a]?).getD 0

theorem Ordered.checkRange_iff (ordered : h.Ordered) (nonempty : 0 < size) :
    h.checkRange addr size = .ok () ↔ h.Live addr size := by
  constructor
  · intro checked
    unfold Heap.checkRange at checked
    dsimp only at checked
    split at checked
    · cases checked
    · case h_2 b found =>
      have start := List.find?_some found
      simp only [Bool.and_eq_true, decide_eq_true_eq] at start
      split at checked
      · case isTrue fits => exact ⟨b, List.mem_of_find?_eq_some found, start.1, fits⟩
      · cases checked
  · rintro ⟨b, mem, low, high⟩
    exact ordered.checkRange mem low high nonempty

/-- A range is only ever read beyond its block when its end wraps. -/
theorem checkRange_crash {c : Crash} (crashed : h.checkRange addr size = .error (.crash c)) :
    2 ^ 64 ≤ addr + size := by
  unfold checkRange at crashed
  dsimp only at crashed
  split at crashed
  · cases crashed
  · case h_2 b found =>
    have start := List.find?_some found
    simp only [Bool.and_eq_true, decide_eq_true_eq] at start
    split at crashed
    · cases crashed
    · case isFalse beyond =>
      by_contra small
      have same : (addr + size) % addresses = addr + size :=
        Nat.mod_eq_of_lt (Nat.lt_of_not_le small)
      omega

/-- The pages that a write looks at are those of the addresses of its range up to where the check
ends: the address looked at on each page lies in the range. -/
theorem sealedAt?_eq_none {k : Nat} (power : h.page = 2 ^ k) (within : addr + size ≤ addresses) :
    h.sealedAt? addr size = none ↔
      ∀ a, addr ≤ a → a < addr + size → a < h.checkedTo addr size → h.Writable a := by
  have positive := page_pos power
  have pages : roundUp size h.page = h.page * ((size + h.page - 1) / h.page) := by
    rw [power]
    exact roundUp_two_pow k
  have looked : h.sealedAt? addr size = none ↔
      ∀ i < (size + h.page - 1) / h.page, h.Writable (addr + i * h.page) := by
    unfold sealedAt? Writable protectionAt?
    simp only [List.find?_eq_none, mem_pagesFrom within, beq_iff_eq]
    constructor
    · exact fun none i bound => none _ ⟨i, bound, rfl⟩
    · rintro all _ ⟨i, bound, rfl⟩
      exact all i bound
  have first := pageOf_eq power (a := addr)
  have split := Nat.div_add_mod addr h.page
  have within := Nat.mod_lt addr positive
  rw [looked]
  unfold checkedTo
  rw [pages, first]
  constructor
  · intro all a low _ short
    -- the address lies on the page that is looked at in step `a / page - addr / page`
    have after : addr / h.page ≤ a / h.page := Nat.div_le_div_right low
    have bound : a / h.page < addr / h.page + (size + h.page - 1) / h.page := by
      rw [Nat.div_lt_iff_lt_mul positive, Nat.mul_comm, Nat.mul_add]
      exact short
    have step := all (a / h.page - addr / h.page) (by omega)
    have samePage : h.pageOf (addr + (a / h.page - addr / h.page) * h.page) = h.pageOf a := by
      rw [pageOf_eq power, pageOf_eq power, Nat.add_mul_div_right _ _ positive]
      congr 1
      omega
    unfold Writable protectionAt? at step ⊢
    rwa [samePage] at step
  · intro all i bound
    have last : h.page * (i + 1) ≤ h.page * ((size + h.page - 1) / h.page) :=
      Nat.mul_le_mul_left _ bound
    have most := Nat.mul_div_le (size + h.page - 1) h.page
    have next : h.page * (i + 1) = i * h.page + h.page := by rw [Nat.mul_add, Nat.mul_one, Nat.mul_comm]
    apply all <;> omega

/-- At most one page of a range is not looked at. -/
theorem end_lt_checkedTo {k : Nat} (power : h.page = 2 ^ k) (addr size : Nat) :
    addr + size < h.checkedTo addr size + h.page := by
  have positive := page_pos power
  have first := pageOf_eq power (a := addr)
  have split := Nat.div_add_mod addr h.page
  have within := Nat.mod_lt addr positive
  have up : size ≤ roundUp size h.page := le_roundUp positive
  unfold checkedTo
  omega

theorem write_ok_iff_checked {k : Nat} (power : h.page = 2 ^ k) (ordered : h.Ordered)
    (nonempty : code ≠ []) : (∃ h', h.write addr code = .ok h') ↔
      h.Live addr code.length ∧ ∀ a, addr ≤ a → a < addr + code.length →
        a < h.checkedTo addr code.length → h.Writable a := by
  have live : h.checkRange addr code.length = .ok () ↔ h.Live addr code.length :=
    ordered.checkRange_iff (List.length_pos_of_ne_nil nonempty)
  constructor
  · rintro ⟨h', written⟩
    obtain ⟨⟨⟩, inside, -⟩ := bind_eq_ok.mp written
    have inside := live.mp inside
    exact ⟨inside, (sealedAt?_eq_none power (inside.within ordered)).mp (write_eq_ok written).2.1⟩
  · rintro ⟨inside, unsealed⟩
    unfold write
    rw [live.mpr inside, (sealedAt?_eq_none power (inside.within ordered)).mpr unsealed]
    exact ⟨_, rfl⟩

theorem write_crash {c : Crash} (crashed : h.write addr code = .error (.crash c)) :
    2 ^ 64 ≤ addr + code.length := by
  unfold write at crashed
  rcases bind_eq_error.mp crashed with failed | ⟨⟨⟩, _, rest⟩
  · exact checkRange_crash failed
  · split at rest <;> cases rest

/-! ### Runs -/

inductive Op where
  | allocate (size : Nat)
  | beginWrite (addr size : Nat)
  | endWrite (addr size : Nat)
  | write (addr : Nat) (code : List UInt8)
  | release (addr size : Nat)
  deriving DecidableEq, Repr

/-- The heap that an operation gives, if it does not fail. -/
def perform (h : Heap) : Op → Except (Fault HeapError) Heap
  | .allocate size => ((h.allocate size).map (·.2)).mapError .error
  | .beginWrite addr size => (h.beginWrite addr size).mapError .error
  | .endWrite addr size => (h.endWrite addr size).mapError .error
  | .write addr code => h.write addr code
  | .release addr size => (h.release addr size).mapError .error

/-- An operation that fails leaves the heap as it was. -/
def step (h : Heap) (op : Op) : Heap := (h.perform op).toOption.getD h

def run (h : Heap) (ops : List Op) : Heap := ops.foldl step h

/-- An empty heap with a page size and a bound on the bytes in use. -/
def start (page : Nat) (limit : Int) : Heap := { Heap.ofPage page with limit }

theorem step_of_ok {op : Op} (done : h.perform op = .ok h') : h.step op = h' := by
  unfold step
  rw [done]
  rfl

theorem step_of_error {op : Op} {e : Fault HeapError} (failed : h.perform op = .error e) :
    h.step op = h := by
  unfold step
  rw [failed]
  rfl

theorem protect_ordered {p : Protection} (ordered : h.Ordered)
    (painted : h.protect addr size p = .ok h') : h'.page = h.page ∧ h'.Ordered := by
  unfold protect at painted
  split at painted
  · cases painted
    exact ⟨rfl, sameBytes_setProtection.ordered ordered⟩
  · cases painted

/-- No operation changes the page size or makes blocks overlap. -/
theorem perform_ordered {op : Op} (ordered : h.Ordered) (done : h.perform op = .ok h') :
    h'.page = h.page ∧ h'.Ordered := by
  cases op with
  | allocate size =>
    obtain ⟨⟨base, h'⟩, allocated, rfl⟩ := map_eq_ok.mp (mapError_eq_ok.mp done)
    exact ⟨(allocate_eq_ok allocated).2.1, ordered.allocate allocated⟩
  | beginWrite addr size => exact protect_ordered ordered (mapError_eq_ok.mp done)
  | endWrite addr size => exact protect_ordered ordered (mapError_eq_ok.mp done)
  | write addr code =>
    obtain ⟨same, -, -⟩ := write_eq_ok done
    rw [same]
    exact ⟨rfl, ordered.below, ordered.apart, ordered.within⟩
  | release addr size =>
    obtain ⟨page, -, keeps⟩ := Manager.sameBlocks_release (mapError_eq_ok.mp done)
    exact ⟨page, keeps ordered⟩

theorem step_ordered (ordered : h.Ordered) (op : Op) :
    (h.step op).page = h.page ∧ (h.step op).Ordered := by
  cases done : h.perform op with
  | error e =>
    rw [step_of_error done]
    exact ⟨rfl, ordered⟩
  | ok h' =>
    rw [step_of_ok done]
    exact perform_ordered ordered done

theorem run_ordered (ordered : h.Ordered) (ops : List Op) :
    (h.run ops).page = h.page ∧ (h.run ops).Ordered := by
  induction ops generalizing h with
  | nil => exact ⟨rfl, ordered⟩
  | cons op rest ih =>
    obtain ⟨page, ordered⟩ := step_ordered ordered op
    obtain ⟨page', ordered'⟩ := ih ordered
    exact ⟨page'.trans page, ordered'⟩

theorem start_ordered {page : Nat} (positive : 0 < page) (limit : Int) :
    (start page limit).page = page ∧ (start page limit).Ordered := by
  constructor
  · unfold start ofPage
    dsimp only
    rw [if_neg (by omega)]
    exact Int.toNat_natCast page
  · constructor <;> simp [start, ofPage]

/-- Whatever has been done to a heap, a write of some bytes goes through exactly if its range lies in
one live block and none of its pages is sealed, save at most one that the check does not look at: the last
page of a range that reaches further than a range of its length has to. A write that does not go
through changes nothing, and only one whose end wraps can crash. One that does changes the bytes of its
range, and nothing else. -/
theorem write_ok_iff {page : Nat} (power : ∃ k, page = 2 ^ k) (limit : Int) (ops : List Op) (addr : Nat)
    {code : List UInt8} (nonempty : code ≠ []) :
    let h := (start page limit).run ops
    ((∃ h', h.write addr code = .ok h') ↔ h.Live addr code.length ∧
      ∀ a, addr ≤ a → a < addr + code.length → a < h.checkedTo addr code.length → h.Writable a) ∧
    addr + code.length < h.checkedTo addr code.length + h.page ∧
    (addr + code.length ≤ h.checkedTo addr code.length →
      ((∃ h', h.write addr code = .ok h') ↔ h.Live addr code.length ∧
        ∀ a, addr ≤ a → a < addr + code.length → h.Writable a)) ∧
    (∀ c, h.write addr code = .error (.crash c) → 2 ^ 64 ≤ addr + code.length) ∧
    (∀ e, h.write addr code = .error e → h.step (.write addr code) = h) ∧
    ∀ h', h.write addr code = .ok h' → h.step (.write addr code) = h' ∧
      h' = { h with contents := h'.contents } ∧
      ∀ a, h'.byteAt a =
        if addr ≤ a ∧ a < addr + code.length then code.getD (a - addr) 0 else h.byteAt a := by
  intro h
  obtain ⟨k, rfl⟩ := power
  obtain ⟨startPage, startOrdered⟩ := start_ordered (Nat.two_pow_pos k) limit
  obtain ⟨runPage, ordered⟩ := run_ordered startOrdered ops
  have power : h.page = 2 ^ k := runPage.trans startPage
  have checked : (∃ h', h.write addr code = .ok h') ↔ _ :=
    write_ok_iff_checked power ordered nonempty
  refine ⟨checked, end_lt_checkedTo power addr _, fun covered => checked.trans ?_, fun c => write_crash,
    fun e failed => step_of_error failed, fun h' written => ⟨step_of_ok written, ?_⟩⟩
  · constructor
    · exact fun ⟨live, all⟩ => ⟨live, fun a low high => all a low high (Nat.lt_of_lt_of_le high covered)⟩
    · exact fun ⟨live, all⟩ => ⟨live, fun a low high _ => all a low high⟩
  · obtain ⟨same, -, bytes⟩ := write_eq_ok written
    refine ⟨same, fun a => ?_⟩
    unfold byteAt
    rw [bytes]
    split
    · rw [List.getD_eq_getElem?_getD]
    · rfl

/-- A block of two pages whose second page is sealed. -/
def halfSealed : List Op := [.allocate 32, .endWrite 0x100010 16]

theorem write_ok_iff_halfSealed : (∃ k, 16 = 2 ^ k) ∧ [(7 : UInt8), 8] ≠ [] ∧
    (∃ h', ((start 16 0).run halfSealed).write 0x10000E [7, 8] = .ok h') ∧
    ¬ ∃ h', ((start 16 0).run halfSealed).write 0x100010 [7, 8] = .ok h' := by
  have nonempty : [(7 : UInt8), 8] ≠ [] := by decide
  have low := (write_ok_iff ⟨4, rfl⟩ 0 halfSealed 0x10000E nonempty).1
  have high := (write_ok_iff ⟨4, rfl⟩ 0 halfSealed 0x100010 nonempty).1
  refine ⟨⟨4, rfl⟩, nonempty, low.mpr ⟨⟨⟨0x100000, 32⟩, by decide +kernel⟩, ?_⟩, fun goes => ?_⟩
  · intro a above below _
    obtain rfl | rfl : a = 0x10000E ∨ a = 0x10000F := by
      simp only [List.length_cons, List.length_nil] at below
      omega
    · decide +kernel
    · decide +kernel
  · exact (high.mp goes).2 0x100010 (by decide) (by decide) (by decide +kernel) (by decide +kernel)

/-- A write that begins in the middle of the first page goes through, though its range ends in the
second, which is sealed, and changes a byte there. -/
theorem sealed_page_written : let h := (start 16 0).run halfSealed
    h.byteAt 0x100010 = 0 ∧
    (∃ h', h.write 0x100008 (List.replicate 16 7) = .ok h' ∧ h'.byteAt 0x100010 = 7) ∧
    ¬ ∀ a, 0x100008 ≤ a → a < 0x100008 + 16 → h.Writable a := by
  refine ⟨by decide +kernel, ?_, fun all => ?_⟩
  · have written : ((((start 16 0).run halfSealed).write 0x100008 (List.replicate 16 7)).toOption.map
        (·.byteAt 0x100010)) = some 7 := by decide +kernel
    obtain ⟨h', goes, byte⟩ := Option.map_eq_some_iff.mp written
    exact ⟨h', ok_of_toOption goes, byte⟩
  · exact all 0x100010 (by decide) (by decide) (by decide +kernel)

end TieredEngine.Native.Heap
