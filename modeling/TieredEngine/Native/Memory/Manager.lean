import TieredEngine.Native.Memory.Heap

/-!
The manager of generated code. It holds regions of memory and places functions one after another in
the last of them, sixteen-byte aligned. Functions are written in batches: while a batch is open its
pages are writable, at its end they are sealed and its functions become known. What follows starts
on a new page, so a sealed page is never written again.
-/
namespace TieredEngine.Native
open TieredEngine

/-- Usual size of a region. -/
def defaultRegionSize : Nat := 4 * 1024 * 1024

/-- Alignment of functions. -/
def functionAlign : Nat := 16

structure Region where
  base : Nat
  size : Nat
  /-- Place of the next function. -/
  offset : Nat := 0
  /-- Bytes below this are sealed. -/
  sealedTo : Nat := 0
  isOpen : Bool := false
  deriving DecidableEq, Repr

/-- An installed function. -/
structure Symbol where
  name : String
  addr : Nat
  size : Nat
  deriving DecidableEq, Repr

structure MemoryStats where
  regions : Nat
  /-- Size of all regions. -/
  reserved : Nat
  /-- Bytes in use, padding included. -/
  used : Nat
  functions : Nat
  batches : Nat
  deriving DecidableEq, Repr

/-- An operation on code memory failed. -/
structure MemoryError where
  operation : String
  size : Nat
  cause : HeapError
  deriving DecidableEq, Repr

def MemoryError.message (e : MemoryError) : String :=
  s!"jit memory: {e.operation} ({e.size} bytes): {e.cause.message}"

def managerClosedMessage : String := "jit memory manager is closed"

/-- Why a function is not installed. -/
inductive InstallError where
  | batchEnded
  | noCode (name : String)
  | memory (e : MemoryError)
  deriving DecidableEq, Repr

def InstallError.message : InstallError → String
  | .batchEnded => "write batch already ended"
  | .noCode n => s!"function {n} has no code"
  | .memory e => e.message

/-- A phase of writing: the functions placed in it, and the regions it has opened by position. -/
structure Batch where
  pending : List Symbol := []
  touched : List Nat := []
  ended : Bool := false
  deriving DecidableEq, Repr

structure Manager where
  heap : Heap
  regionSize : Nat
  regions : Array Region := #[]
  closed : Bool := false
  batches : Nat := 0
  /-- Address of the last function installed under a name, the last one first. -/
  byName : List (String × Nat) := []
  /-- Installed functions by ascending address. -/
  symbols : List Symbol := []

namespace Manager

/-- A manager; a region size that is not positive means the usual one. -/
def ofHeap (heap : Heap) (regionSize : Int) : Manager :=
  { heap, regionSize := if regionSize ≤ 0 then defaultRegionSize else regionSize.toNat }

/-- Opens a batch, unless the manager is closed. -/
def begin (m : Manager) : Option Batch := if m.closed then none else some {}

def getFunction? (m : Manager) (name : String) : Option Nat :=
  (m.byName.find? (·.1 == name)).map (·.2)

/-- The function an address lies in: the last one that starts at or below it, if it reaches it. -/
def lookup (m : Manager) (addr : Nat) : Option Symbol :=
  match (m.symbols.filter (·.addr ≤ addr)).getLast? with
  | some s => if addr < s.addr + s.size then some s else none
  | none => none

def stats (m : Manager) : MemoryStats := {
  regions := m.regions.size
  reserved := m.regions.foldl (fun n r => n + r.size) 0
  used := m.regions.foldl (fun n r => n + r.offset) 0
  functions := m.symbols.length
  batches := m.batches }

/-- Gives all regions back and forgets all functions. Failures are collected. -/
def close (m : Manager) : List HeapError × Manager :=
  if m.closed then ([], m)
  else
    let (errors, heap) := m.regions.foldl (fun (es, h) r =>
      match Heap.release h r.base r.size with
      | .ok h => (es, h)
      | .error e => (es ++ [e], h)) ([], m.heap)
    (errors, { m with heap, closed := true, regions := #[], byName := [], symbols := [] })

/-- A new region with room for twice the need, at least of the usual size, in whole pages. -/
def newRegion (m : Manager) (need : Nat) : Except MemoryError Manager :=
  let size := roundUp (max (2 * need) m.regionSize) m.heap.page
  match m.heap.allocate size with
  | .ok (base, heap) => .ok { m with heap, regions := m.regions.push { base, size } }
  | .error e => .error ⟨"allocate region", size, e⟩

/-- Where a function goes in the last region, if it has room. -/
def roomFor? (m : Manager) (length : Nat) : Option Nat := do
  let r ← m.regions.back?
  let start := roundUp r.offset functionAlign
  if start + length ≤ r.size then some start else none

/-- Makes the last region writable for the batch. -/
def openLast (m : Manager) (b : Batch) (r : Region) : Except MemoryError (Manager × Batch) :=
  if r.isOpen then .ok (m, b)
  else
    match m.heap.beginWrite (r.base + r.sealedTo) (r.size - r.sealedTo) with
    | .error e => .error ⟨"begin write", r.size - r.sealedTo, e⟩
    | .ok heap =>
      let last := m.regions.size - 1
      .ok ({ m with heap, regions := m.regions.modify last fun r => { r with isOpen := true } },
        { b with touched := b.touched ++ [last] })

/-- Writes a function at its place in the last region, which is open. -/
def writeLast (m : Manager) (b : Batch) (r : Region) (start : Nat) (name : String)
    (code : List UInt8) : Except (Fault MemoryError) (Nat × Manager × Batch) :=
  let addr := r.base + start
  match m.heap.write addr code with
  | .error (.error e) => .error (.error ⟨"write", code.length, e⟩)
  | .error (.crash c) => .error (.crash c)
  | .ok heap =>
    let last := m.regions.size - 1
    .ok (addr, { m with
        heap
        regions := m.regions.modify last fun r => { r with offset := start + code.length } },
      { b with pending := b.pending ++ [⟨name, addr, code.length⟩] })

/-- Places a function in an open batch. What changed before a failure stays changed. -/
def install (m : Manager) (b : Batch) (name : String) (code : List UInt8) :
    Except (Fault InstallError) Nat × Manager × Batch :=
  let failed (e : MemoryError) (m : Manager) (b : Batch) :
      Except (Fault InstallError) Nat × Manager × Batch := (.error (.error (.memory e)), m, b)
  if b.ended then (.error (.error .batchEnded), m, b)
  else if code.isEmpty then (.error (.error (.noCode name)), m, b)
  else
    let placed : Except MemoryError (Nat × Manager) := match m.roomFor? code.length with
      | some start => .ok (start, m)
      | none => (m.newRegion code.length).map fun m => (0, m)
    match placed with
    | .error e => failed e m b
    | .ok (start, m) =>
      match m.regions.back? with
      | none => (.error (.crash .outOfRange), m, b)
      | some r =>
        match m.openLast b r with
        | .error e => failed e m b
        | .ok (m, b) =>
          match m.writeLast b r start name code with
          | .error (.error e) => failed e m b
          | .error (.crash c) => (.error (.crash c), m, b)
          | .ok (addr, m, b) => (.ok addr, m, b)

/-- Seals what a batch wrote in a region; the next function starts on a new page. -/
def sealRegion (s : Manager × List MemoryError) (i : Nat) : Manager × List MemoryError :=
  let (m, errors) := s
  match m.regions[i]? with
  | none => s
  | some r =>
    let stop := min (roundUp r.offset m.heap.page) r.size
    let (heap, errors) :=
      if r.sealedTo < stop then
        match m.heap.endWrite (r.base + r.sealedTo) (stop - r.sealedTo) with
        | .ok heap => (heap, errors)
        | .error e => (m.heap, errors ++ [⟨"seal", stop - r.sealedTo, e⟩])
      else (m.heap, errors)
    let r := { r with sealedTo := stop, offset := stop, isOpen := false }
    ({ m with heap, regions := m.regions.setIfInBounds i r }, errors)

/-- Inserts a function by address; an address holds one function. -/
def insertSymbol (s : Symbol) : List Symbol → List Symbol
  | [] => [s]
  | t :: rest =>
    if s.addr < t.addr then s :: t :: rest
    else if s.addr = t.addr then s :: rest
    else t :: insertSymbol s rest

/-- Ends a batch: flushes, seals its regions and makes its functions known. -/
def finish (m : Manager) (b : Batch) : List MemoryError × Manager × Batch :=
  if b.ended then ([], m, b)
  else
    let heap := b.pending.foldl (fun h _ => h.flush) m.heap
    let (m, errors) := b.touched.foldl sealRegion ({ m with heap }, [])
    let m := b.pending.foldl (fun m s =>
      { m with byName := (s.name, s.addr) :: m.byName, symbols := insertSymbol s m.symbols }) m
    (errors, { m with batches := m.batches + 1 }, { b with ended := true })

end Manager

end TieredEngine.Native
