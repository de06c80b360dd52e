import Std.Data.TreeMap
import TieredEngine.Crash

/-!
Memory for generated code, given out in blocks of whole pages. Addresses only go up and a free page
lies between blocks, so no address is ever given out twice. A page is writable or executable,
never both; writing checks the pages, running is not this module's business.

Pages need not be powers of two: rounding clears the bits of the page size less one.
-/
namespace TieredEngine.Native
open TieredEngine

/-- Whether a page may be written or executed. -/
inductive Protection where
  | writable | executable
  deriving DecidableEq, Repr

/-- `n` brought up to a multiple of a power of two, by clearing the bits below it. -/
def roundUp (n align : Nat) : Nat :=
  let top := n + align - 1
  top - (top &&& (align - 1))

structure CodeBlock where
  base : Nat
  size : Nat
  deriving DecidableEq, Repr

structure Heap where
  page : Nat
  blocks : List CodeBlock := []
  protection : Std.TreeMap Nat Protection := {}
  /-- Bytes written so far; all others are zero. -/
  contents : Std.TreeMap Nat UInt8 := {}
  next : Nat
  flushes : Nat := 0
  /-- Bound on the bytes in use; zero or less for none. -/
  limit : Int := 0
  used : Int := 0

inductive HeapError where
  | limit (n : Int)
  | exhausted (size : Nat)
  | outside (addr size : Nat)
  | sealedPage (addr : Nat)
  | unaligned (addr : Nat)
  | unknownBlock (addr : Nat)
  deriving DecidableEq, Repr

private def hexAddress (n : Nat) : String := "0x" ++ String.ofList (Nat.toDigits 16 n)

def HeapError.message : HeapError → String
  | .limit n => s!"heap code memory limit {n} exceeded"
  | .exhausted n => s!"no addresses left for {n} bytes"
  | .outside a n => s!"range {hexAddress a}+{n} is outside every block"
  | .sealedPage a => s!"write to sealed page at {hexAddress a}"
  | .unaligned a => s!"address {hexAddress a} is not page aligned"
  | .unknownBlock a => s!"release of unknown block {hexAddress a}"

namespace Heap

/-- Address of the first block, before rounding. -/
def firstAddress : Nat := 0x100000

def defaultPage : Nat := 4096

/-- An empty heap; a page size that is not positive means the usual one. -/
def ofPage (page : Int) : Heap :=
  let page := if page ≤ 0 then defaultPage else page.toNat
  { page, next := roundUp firstAddress page }

/-- Addresses are words of sixty-four bits. -/
def addresses : Nat := Nat.pow 2 64

/-- Addresses of the pages from an address on that cover a size. Past the last address they go on
with the first one. -/
def pagesFrom (h : Heap) (addr size : Nat) : List Nat :=
  (List.range ((size + h.page - 1) / h.page)).map fun i => (addr + i * h.page) % addresses

/-- The page an address lies on. -/
def pageOf (h : Heap) (addr : Nat) : Nat := addr - (addr &&& (h.page - 1))

def setProtection (h : Heap) (addr size : Nat) (p : Protection) : Heap :=
  { h with protection := (h.pagesFrom addr size).foldl (fun m a => m.insert a p) h.protection }

/-- A new writable block of at least a size. No block reaches the end of the addresses. -/
def allocate (h : Heap) (size : Nat) : Except HeapError (Nat × Heap) :=
  if 0 < h.limit && h.limit < h.used + size then .error (.limit h.limit)
  else
    let size := roundUp size h.page
    let base := h.next
    if addresses ≤ base + size + h.page then .error (.exhausted size)
    else
      let h := { h with
        next := base + size + h.page
        blocks := ⟨base, size⟩ :: h.blocks
        used := h.used + size }
      .ok (base, h.setProtection base size .writable)

/-- Checks that a range lies in one block. Ends of ranges wrap, and a range that wraps into a block
cannot be read. -/
def checkRange (h : Heap) (addr size : Nat) : Except (Fault HeapError) Unit :=
  let stop := (addr + size) % addresses
  match h.blocks.find? fun b => b.base ≤ addr && stop ≤ b.base + b.size with
  | none => .error (.error (.outside addr size))
  | some b => if addr + size ≤ b.base + b.size then .ok () else .error (.crash .outOfRange)

/-- Bytes of a range. -/
def bytes (h : Heap) (addr size : Nat) : Except (Fault HeapError) (List UInt8) := do
  h.checkRange addr size
  return (List.range size).map fun i => (h.contents[addr + i]?).getD 0

/-- Address at which a write of a size meets a page that is not writable. One address a page
apart is looked at, beginning with the first. -/
def sealedAt? (h : Heap) (addr size : Nat) : Option Nat :=
  (h.pagesFrom addr size).find? fun a => h.protection[h.pageOf a]? == some .executable

def write (h : Heap) (addr : Nat) (code : List UInt8) : Except (Fault HeapError) Heap := do
  h.checkRange addr code.length
  match h.sealedAt? addr code.length with
  | some a => throw (.error (.sealedPage a))
  | none =>
    let contents := code.zipIdx.foldl (fun m (b, i) => m.insert (addr + i) b) h.contents
    return { h with contents }

/-- Whether an address begins a page. An address of the upper half counts as a negative number, which
matters to page sizes that are no powers of two. -/
def isPage (h : Heap) (addr : Nat) : Bool :=
  (if 2 * addr < addresses then addr else addresses - addr) % h.page == 0

/-- Gives the pages of a range a protection, whether or not they belong to a block. -/
def protect (h : Heap) (addr size : Nat) (p : Protection) : Except HeapError Heap :=
  if h.isPage addr then .ok (h.setProtection addr size p) else .error (.unaligned addr)

def beginWrite (h : Heap) (addr size : Nat) : Except HeapError Heap := h.protect addr size .writable
def endWrite (h : Heap) (addr size : Nat) : Except HeapError Heap := h.protect addr size .executable

/-- Tells the processor that code has changed; here it is only counted. -/
def flush (h : Heap) : Heap := { h with flushes := h.flushes + 1 }

/-- Gives a block back; the caller says its size. -/
def release (h : Heap) (addr size : Nat) : Except HeapError Heap :=
  if h.blocks.any (·.base == addr) then
    .ok { h with
      blocks := h.blocks.filter (·.base != addr)
      protection := (h.pagesFrom addr size).foldl (fun m a => m.erase a) h.protection
      used := h.used - size }
  else .error (.unknownBlock addr)

def protectionAt? (h : Heap) (addr : Nat) : Option Protection := h.protection[h.pageOf addr]?

end Heap

end TieredEngine.Native
