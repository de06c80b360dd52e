import TieredEngine.Native.Memory.Manager
import TieredEngine.Script.Line

/-!
Scripts on code memory. Lines open and end batches, place functions in the last batch, ask the
manager what it knows, and work on the memory below it directly. While a batch is open the manager
answers neither a second batch, nor its statistics, nor its end.
-/
namespace TieredEngine.Script
open TieredEngine TieredEngine.Native

/-- A manager and the last batch. -/
structure MemoryDesk where
  manager : Manager
  batch : Option Batch := none

/-- Why memory refuses what a line asks. -/
inductive MemoryRefusal where
  | busy
  | closed
  | memory (errors : List MemoryError)
  | install (e : InstallError)
  | heap (errors : List HeapError)

def MemoryRefusal.message : MemoryRefusal → String
  | .busy => "a batch is open"
  | .closed => managerClosedMessage
  | .memory es => String.intercalate "; " (es.map MemoryError.message)
  | .install e => e.message
  | .heap es => String.intercalate "; " (es.map HeapError.message)

/-- What a line of a memory script gives. -/
inductive Told where
  | done
  | address (a : Nat)
  | known (a : Option Nat)
  | found (s : Option Symbol)
  | symbols (l : List Symbol)
  | stats (s : MemoryStats)
  | protection (p : Option Protection)
  | bytes (b : List UInt8)
  | count (n : Nat)
  | page (n : Nat)
  | refused (r : MemoryRefusal)
  | crashed

namespace MemoryDesk

abbrev Answer := Reading (Told × MemoryDesk)

def told (d : MemoryDesk) (t : Told) : Answer := .ok (t, d)

def refuse (d : MemoryDesk) (r : MemoryRefusal) : Answer := d.told (.refused r)

private def sizeAt (l : Line) (i : Nat) : Reading Nat := do
  let n ← l.get (·.asInt) i
  if n < 0 then throw (.crashed .outOfRange) else return n.toNat

private def addrAt (l : Line) (i : Nat) : Reading Nat := return (← l.get (·.asWord64) i).toNat

def isBusy (d : MemoryDesk) : Bool := d.batch.any (!·.ended)

def withHeap (d : MemoryDesk) (heap : Heap) : MemoryDesk :=
  { d with manager := { d.manager with heap } }

/-- Carries out something on the memory below the manager. -/
def onHeap {α : Type} (d : MemoryDesk) (r : Except (Fault HeapError) α)
    (give : α → Told × MemoryDesk) : Answer :=
  match r with
  | .ok a => .ok (give a)
  | .error (.error e) => d.refuse (.heap [e])
  | .error (.crash c) => .error (.crashed c)

def changeHeap (d : MemoryDesk) (r : Except HeapError Heap) : Answer :=
  d.onHeap (r.mapError .error) fun h => (.done, d.withHeap h)

def place (d : MemoryDesk) (name : String) (code : List UInt8) : Answer := do
  let b ← orMalformed d.batch
  let (r, manager, b) := d.manager.install b name code
  let after : MemoryDesk := ⟨manager, some b⟩
  match r with
  | .ok a => after.told (.address a)
  | .error (.error (.memory e)) => after.refuse (.memory [e])
  | .error (.error e) => after.refuse (.install e)
  | .error (.crash _) => after.told .crashed

/-- Lines on the memory below the manager. -/
def heapLine (d : MemoryDesk) (l : Line) : Answer := do
  let heap := d.manager.heap
  match l.verb with
  | "h_alloc" =>
    d.onHeap ((heap.allocate (← sizeAt l 0)).mapError .error) fun (a, h) =>
      (.address a, d.withHeap h)
  | "h_write" =>
    let addr ← addrAt l 0
    d.onHeap (heap.write addr (← l.get (·.asBytes) 1)) fun h => (.done, d.withHeap h)
  | "h_begin" => d.changeHeap (heap.beginWrite (← addrAt l 0) (← l.get (·.asInt) 1).toNat)
  | "h_end" => d.changeHeap (heap.endWrite (← addrAt l 0) (← l.get (·.asInt) 1).toNat)
  | "h_release" => d.changeHeap (heap.release (← addrAt l 0) (← l.get (·.asInt) 1).toNat)
  | "h_prot" => d.told (.protection (heap.protectionAt? (← addrAt l 0)))
  | "h_bytes" =>
    let addr ← addrAt l 0
    d.onHeap (heap.bytes addr (← sizeAt l 1)) fun b => (.bytes b, d)
  | "h_flushes" => d.told (.count heap.flushes)
  | "h_info" => d.told (.page heap.page)
  | _ => throw .malformed

def step (d : MemoryDesk) (l : Line) : Answer := do
  let m := d.manager
  match l.verb with
  | "begin" =>
    if d.isBusy then d.refuse .busy
    else match m.begin with
    | some b => return (.done, { d with batch := some b })
    | none => d.refuse .closed
  | "alloc" =>
    let name ← l.get (·.asText) 0
    d.place name (← l.get (·.asBytes) 1)
  | "fill" =>
    let name ← l.get (·.asText) 0
    let size ← sizeAt l 1
    d.place name (List.replicate size (UInt8.ofNat (← l.get (·.asNat 64) 2)))
  | "end" | "finalize" =>
    let (errors, manager, b) := m.finish (← orMalformed d.batch)
    let after : MemoryDesk := ⟨manager, some b⟩
    if errors.isEmpty then after.told .done else after.refuse (.memory errors)
  | "get" => d.told (.known (m.getFunction? (← l.get (·.asText) 0)))
  | "lookup" => d.told (.found (m.lookup (← addrAt l 0)))
  | "symbols" => d.told (.symbols m.symbols)
  | "stats" => if d.isBusy then d.refuse .busy else d.told (.stats m.stats)
  | "close" =>
    if d.isBusy then d.refuse .busy
    else
      let (errors, manager) := m.close
      let after := { d with manager }
      if errors.isEmpty then after.told .done else after.refuse (.heap errors)
  | "limit" =>
    let limit ← l.get (·.asInt) 0
    return (.done, d.withHeap { m.heap with limit })
  | _ => d.heapLine l

end MemoryDesk

end TieredEngine.Script
