/-!
The sixteen general registers of the x86-64 and the conditions its conditional instructions test.
Both are numbered as in machine code: the low three bits of a register's number stand in the
instruction itself, the fourth in a prefix.

All registers that an instruction can name stand in one row, class after class, and machine code
names a register by the first place of its class and a distance from it.
-/
namespace TieredEngine.Native.X64

inductive Reg where
  | rax | rcx | rdx | rbx | rsp | rbp | rsi | rdi
  | r8 | r9 | r10 | r11 | r12 | r13 | r14 | r15
  deriving DecidableEq, Repr, Inhabited

namespace Reg

/-- All registers, in the order of their numbers. -/
def all : List Reg :=
  [rax, rcx, rdx, rbx, rsp, rbp, rsi, rdi, r8, r9, r10, r11, r12, r13, r14, r15]

def code : Reg → Nat
  | rax => 0
  | rcx => 1
  | rdx => 2
  | rbx => 3
  | rsp => 4
  | rbp => 5
  | rsi => 6
  | rdi => 7
  | r8 => 8
  | r9 => 9
  | r10 => 10
  | r11 => 11
  | r12 => 12
  | r13 => 13
  | r14 => 14
  | r15 => 15

/-- The register with a number below sixteen. -/
def ofCode (n : Nat) : Reg := all[n]?.getD rax

def name : Reg → String
  | rax => "rax"
  | rcx => "rcx"
  | rdx => "rdx"
  | rbx => "rbx"
  | rsp => "rsp"
  | rbp => "rbp"
  | rsi => "rsi"
  | rdi => "rdi"
  | r8 => "r8"
  | r9 => "r9"
  | r10 => "r10"
  | r11 => "r11"
  | r12 => "r12"
  | r13 => "r13"
  | r14 => "r14"
  | r15 => "r15"

def ofName? (s : String) : Option Reg := all.find? (·.name == s)

/-- Name shown for a number, which need not be a register's. -/
def codeName (n : Int) : String :=
  match n with
  | .ofNat k => (all[k]?.map name).getD "???"
  | .negSucc _ => "???"

/-- The three bits that stand in the instruction. -/
def low (r : Reg) : UInt8 := UInt8.ofNat (r.code % 8)

/-- The bit that stands in the prefix. -/
def high (r : Reg) : UInt8 := UInt8.ofNat (r.code / 8)

def isExtended (r : Reg) : Bool := 8 ≤ r.code

/-- Registers of the integer arguments of a call, in order. -/
def arguments : List Reg := [rdi, rsi, rdx, rcx, r8, r9]

end Reg

/-- Conditions on the flags: below, above or equal, …; `l` to `g` are the signed ones. -/
inductive Cond where
  | b | ae | e | ne | be | a | l | ge | le | g
  deriving DecidableEq, Repr, Inhabited

namespace Cond

def all : List Cond := [b, ae, e, ne, be, a, l, ge, le, g]

def code : Cond → UInt8
  | b => 0x2
  | ae => 0x3
  | e => 0x4
  | ne => 0x5
  | be => 0x6
  | a => 0x7
  | l => 0xC
  | ge => 0xD
  | le => 0xE
  | g => 0xF

def name : Cond → String
  | b => "b"
  | ae => "ae"
  | e => "e"
  | ne => "ne"
  | be => "be"
  | a => "a"
  | l => "l"
  | ge => "ge"
  | le => "le"
  | g => "g"

def ofName? (s : String) : Option Cond := all.find? (·.name == s)

end Cond

/-- Part of a general register that an instruction works on. -/
inductive Width where
  | byte | word | dword | qword
  deriving DecidableEq, Repr

/-- A register by its place in the row of all registers; place 0 is no register. -/
structure Register where
  place : Nat
  deriving DecidableEq, Repr

namespace Register

private def numbered (stem tail : String) (first count : Nat) : List String :=
  (List.range count).map fun i => s!"{stem}{first + i}{tail}"

/-- Names in the order of the row, from place 1 on. -/
def names : List String :=
  ["AL", "CL", "DL", "BL", "AH", "CH", "DH", "BH", "SPB", "BPB", "SIB", "DIB"] ++
  numbered "R" "B" 8 8 ++
  ["AX", "CX", "DX", "BX", "SP", "BP", "SI", "DI"] ++ numbered "R" "W" 8 8 ++
  ["EAX", "ECX", "EDX", "EBX", "ESP", "EBP", "ESI", "EDI"] ++ numbered "R" "L" 8 8 ++
  ["RAX", "RCX", "RDX", "RBX", "RSP", "RBP", "RSI", "RDI"] ++ numbered "R" "" 8 8 ++
  ["IP", "EIP", "RIP"] ++ numbered "F" "" 0 8 ++ numbered "M" "" 0 8 ++ numbered "X" "" 0 16 ++
  ["ES", "CS", "SS", "DS", "FS", "GS", "GDTR", "IDTR", "LDTR", "MSW", "TASK"] ++
  numbered "CR" "" 0 16 ++ numbered "DR" "" 0 16 ++ numbered "TR" "" 0 8

def name (r : Register) : String :=
  match r.place with
  | 0 => "Reg(0)"
  | i + 1 => names[i]?.getD s!"Reg({r.place})"

def al : Register := ⟨1⟩
def cl : Register := ⟨2⟩
/-- The first byte register that only a prefix can name. -/
def spb : Register := ⟨9⟩
def ax : Register := ⟨21⟩
def dx : Register := ⟨23⟩
def eax : Register := ⟨37⟩
def rax : Register := ⟨53⟩
def eip : Register := ⟨70⟩
def rip : Register := ⟨71⟩
/-- The top of the stack of floating-point registers. -/
def st0 : Register := ⟨72⟩
def mm0 : Register := ⟨80⟩
def xmm0 : Register := ⟨88⟩
def es : Register := ⟨104⟩
def fs : Register := ⟨108⟩
def gs : Register := ⟨109⟩
def cr0 : Register := ⟨115⟩
def dr0 : Register := ⟨131⟩
def tr0 : Register := ⟨147⟩

/-- The register so many places further on. -/
def add (r : Register) (n : Nat) : Register := ⟨r.place + n⟩

/-- Which part of which general register it is; second bytes are none. -/
def general? (r : Register) : Option (Width × Reg) :=
  let p := r.place
  if p = 0 then none
  else if p < 5 then some (.byte, Reg.ofCode (p - 1))
  else if p < 9 then none
  else if p < 21 then some (.byte, Reg.ofCode (p - 5))
  else if p < 37 then some (.word, Reg.ofCode (p - 21))
  else if p < 53 then some (.dword, Reg.ofCode (p - 37))
  else if p < 69 then some (.qword, Reg.ofCode (p - 53))
  else none

end Register

end TieredEngine.Native.X64
