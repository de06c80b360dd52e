import TieredEngine.Native.X64.Decode.General
import TieredEngine.Native.X64.Decode.Vector

/-!
Instructions with the opcode 0F and one or two bytes more.
-/
namespace TieredEngine.Native.X64.Decode

/-- Descriptor tables of tasks, by digit. -/
def taskGroup : Reader Body :=
  byDigit fun digit =>
    match digit with
    | 0 => sized "SLDT" fun w => [regMem w]
    | 1 => sized "STR" fun w => [regMem w]
    | 2 => inst "LLDT" [rm16]
    | 3 => inst "LTR" [rm16]
    | 4 => inst "VERR" [rm16]
    | 5 => inst "VERW" [rm16]
    | _ => fail

/-- Operand bytes of the system group that are opcodes of their own. -/
def systemNames : List (Nat × String) := [
  (0xC8, "MONITOR"), (0xC9, "MWAIT"), (0xD0, "XGETBV"), (0xD1, "XSETBV"), (0xD5, "XEND"),
  (0xD6, "XTEST"), (0xF8, "SWAPGS"), (0xF9, "RDTSCP")]

/-- Descriptor tables of the system, by digit. -/
def systemGroup : Reader Body :=
  byNext (fun b => (systemNames.lookup b).map (inst · [])) <| byDigit fun digit =>
    match digit with
    | 0 => inst "SGDT" [.mem]
    | 1 => inst "SIDT" [.mem]
    | 2 => inst "LGDT" [.mem]
    | 3 => inst "LIDT" [.mem]
    | 4 => sized "SMSW" fun w => [regMem w]
    | 6 => inst "LMSW" [rm16]
    | 7 => inst "INVLPG" [.mem]
    | _ => fail

/-- Saving and restoring processor state; the form for 64 bits has a name of its own. -/
def stateSave (name : String) : Reader Body :=
  bySize (inst name [.mem]) (inst name [.mem]) (inst (name ++ "64") [.mem])

/-- Operand bytes of the fence group that are opcodes of their own. -/
def fenceNames : List (Nat × String) := [(0xE8, "LFENCE"), (0xF0, "MFENCE"), (0xF8, "SFENCE")]

/-- Fences, processor state and segment bases, by digit. -/
def fenceGroup : Reader Body :=
  let orBase (base : String) (plain : Width → Reader Body) : Reader Body :=
    sizedRows fun w => [(.f3, inst base [regMem w]), (.plain, plain w)]
  let named (short long : String) (w : Width) : Reader Body :=
    inst (if w == .qword then long else short) [.mem]
  byNext (fun b => (fenceNames.lookup b).map (inst · [])) <| byDigit fun digit =>
    match digit with
    | 0 => orBase "RDFSBASE" (named "FXSAVE" "FXSAVE64")
    | 1 => orBase "RDGSBASE" (named "FXRSTOR" "FXRSTOR64")
    | 2 => orBase "WRFSBASE" (named "LDMXCSR" "LDMXCSR")
    | 3 => orBase "WRGSBASE" (named "STMXCSR" "STMXCSR")
    | 4 => stateSave "XSAVE"
    | 5 => stateSave "XRSTOR"
    | 6 => stateSave "XSAVEOPT"
    | _ => inst "CLFLUSH" [.mem]

/-- Exchanges of pairs, processor state and random numbers, by digit. -/
def pairGroup : Reader Body :=
  byDigit fun digit =>
    match digit with
    | 1 =>
      bySize (inst "CMPXCHG8B" [.mem]) (inst "CMPXCHG8B" [.mem]) (inst "CMPXCHG16B" [.mem])
    | 3 => stateSave "XRSTORS"
    | 4 => stateSave "XSAVEC"
    | 5 => stateSave "XSAVES"
    | 6 => sized "RDRAND" fun w => [.regForced (.general w)]
    | _ => fail

/-- Single bits of a register or memory, by digit. -/
def bitGroup : Reader Body :=
  let row (name : String) : Reader Body := sized name fun w => [regMem w, .imm8u]
  byDigit fun digit =>
    match digit with
    | 4 => row "BT"
    | 5 => row "BTS"
    | 6 => row "BTR"
    | 7 => row "BTC"
    | _ => fail

def prefetchName? : Nat → Option String
  | 0 => some "PREFETCHNTA"
  | 1 => some "PREFETCHT0"
  | 2 => some "PREFETCHT1"
  | 3 => some "PREFETCHT2"
  | _ => none

/-- Counts of leading or trailing zeros with a prefix, searches without. -/
def scanOr (counted scanned : String) : Reader Body :=
  let rows (w : Width) : Reader Body :=
    byPrefix [(.f3, inst counted [reg w, regMem w]), (.plain, inst scanned [reg w, regMem w])]
  bySize (rows .word) (rows .dword) (rows .qword)

/-- The registers of the system go to and from full general registers. -/
def systemMove (c : Class) (load : Bool) : Reader Body :=
  let general : Form := .regForced (.general .qword)
  inst "MOV" (if load then [.reg c, general] else [general, .reg c])

/-- Opcodes 0F 00 to 0F 3F that do not work on packed numbers. -/
def extendedLow (n : Nat) : Reader Body :=
  match n with
  | 0x00 => taskGroup
  | 0x01 => systemGroup
  | 0x02 => sized "LAR" fun w => [reg w, regMem w]
  | 0x03 => sized "LSL" fun w => [reg w, if w == .qword then rm32 else regMem w]
  | 0x05 => inst "SYSCALL" []
  | 0x06 => inst "CLTS" []
  | 0x07 => sized "SYSRET" fun _ => []
  | 0x08 => inst "INVD" []
  | 0x09 => inst "WBINVD" []
  | 0x0B => inst "UD2" []
  | 0x0D => byDigit fun digit => if digit = 1 then inst "PREFETCHW" [.mem] else fail
  | 0x18 =>
    byDigit fun digit =>
      match prefetchName? digit with
      | some name => inst name [.mem]
      | none => fail
  | 0x1F =>
    byDigit fun digit =>
      if digit = 0 then bySize (inst "NOP" [rm16]) (inst "NOP" [rm32]) fail else fail
  | 0x20 => systemMove .control false
  | 0x21 => systemMove .debug false
  | 0x22 => systemMove .control true
  | 0x23 => systemMove .debug true
  | 0x24 => systemMove .test false
  | 0x26 => systemMove .test true
  | 0x30 => inst "WRMSR" []
  | 0x31 => inst "RDTSC" []
  | 0x32 => inst "RDMSR" []
  | 0x33 => inst "RDPMC" []
  | 0x34 => inst "SYSENTER" []
  | 0x35 => sized "SYSEXIT" fun _ => []
  | 0x38 => do vector38 (← byte).toNat
  | 0x3A => do vector3A (← byte).toNat
  | _ => vector n

/-- Opcodes 0F A0 to 0F FF that do not work on packed numbers. -/
def extendedHigh (n : Nat) : Reader Body :=
  if n / 8 = 0x19 then sized "BSWAP" fun w => [.inOpcode (.general w) (n % 8)]
  else match n with
  | 0xA0 => sized "PUSH" fun _ => [.fixed .fs]
  | 0xA1 => sized "POP" fun _ => [.fixed .fs]
  | 0xA2 => inst "CPUID" []
  | 0xA3 => sized "BT" fun w => [regMem w, reg w]
  | 0xA4 => sized "SHLD" fun w => [regMem w, reg w, .imm8u]
  | 0xA5 => sized "SHLD" fun w => [regMem w, reg w, .fixed .cl]
  | 0xA8 => sized "PUSH" fun _ => [.fixed .gs]
  | 0xA9 => sized "POP" fun _ => [.fixed .gs]
  | 0xAA => inst "RSM" []
  | 0xAB => sized "BTS" fun w => [regMem w, reg w]
  | 0xAC => sized "SHRD" fun w => [regMem w, reg w, .imm8u]
  | 0xAD => sized "SHRD" fun w => [regMem w, reg w, .fixed .cl]
  | 0xAE => fenceGroup
  | 0xAF => sized "IMUL" fun w => [reg w, regMem w]
  | 0xB0 => inst "CMPXCHG" [rm8, r8]
  | 0xB1 => sized "CMPXCHG" fun w => [regMem w, reg w]
  | 0xB2 => sized "LSS" fun w => [reg w, .mem]
  | 0xB3 => sized "BTR" fun w => [regMem w, reg w]
  | 0xB4 => sized "LFS" fun w => [reg w, .mem]
  | 0xB5 => sized "LGS" fun w => [reg w, .mem]
  | 0xB6 => sized "MOVZX" fun w => [reg w, rm8]
  | 0xB7 => sized "MOVZX" fun w => [reg w, rm16]
  | 0xB8 =>
    let rows (w : Width) : Reader Body := byPrefix [(.f3, inst "POPCNT" [reg w, regMem w])]
    bySize (rows .word) (rows .dword) (rows .qword)
  | 0xB9 => inst "UD1" [r32, rm32]
  | 0xBA => bitGroup
  | 0xBB => sized "BTC" fun w => [regMem w, reg w]
  | 0xBC => scanOr "TZCNT" "BSF"
  | 0xBD => scanOr "LZCNT" "BSR"
  | 0xBE => sized "MOVSX" fun w => [reg w, rm8]
  | 0xBF => sized "MOVSX" fun w => [reg w, rm16]
  | 0xC0 => inst "XADD" [rm8, r8]
  | 0xC1 => sized "XADD" fun w => [regMem w, reg w]
  | 0xC3 =>
    bySize (inst "MOVNTI" [.mem, r32]) (inst "MOVNTI" [.mem, r32])
      (inst "MOVNTI" [.mem, reg .qword])
  | 0xC7 => pairGroup
  | 0xFF => inst "UD0" [r32, rm32]
  | _ => vector n

/-- Opcodes after the byte 0F. -/
def extended0F (n : Nat) : Reader Body :=
  if n < 0x40 then extendedLow n
  else if n < 0x50 then sized ("CMOV" ++ condName n) fun w => [reg w, regMem w]
  else if n < 0x80 then vector n
  else if n < 0x90 then sized ("J" ++ condName n) fun _ => [.rel32]
  else if n < 0xA0 then inst ("SET" ++ condName n) [rm8]
  else extendedHigh n

end TieredEngine.Native.X64.Decode
