import TieredEngine.Native.X64.Decode
import TieredEngine.Text.Case
import TieredEngine.Text.Quoted

/-!
Listings of machine code: one line per instruction with its offset, its bytes and its text. A byte
at which no instruction can be read has a line of its own and reading goes on after it.
-/
namespace TieredEngine.Native.X64
open TieredEngine

/-- A number in hexadecimal with its sign in front. -/
private def signedHex (z : Int) : String :=
  if z < 0 then "-" ++ Text.hexMarked z.natAbs else Text.hexMarked z.natAbs

/-- A distance stands after a base or an index unless it is zero, and by itself always. -/
def Mem.text (m : Mem) : String :=
  let base := m.base.elim "" Register.name
  let index := match m.index with
    | none => ""
    | some (scale, r) =>
      (if m.base.isSome then "+" else "") ++ (if scale > 1 then s!"{scale}*" else "") ++
        (r.getD ⟨0⟩).name
  let disp := m.disp.toInt
  let alone := m.base.isNone && m.index.isNone
  let distance :=
    if disp = 0 && !alone then "" else (if disp < 0 then "" else "+") ++ signedHex disp
  "[" ++ base ++ index ++ distance ++ "]"

def Operand.text : Operand → String
  | .reg r => r.name
  | .mem m => m.text
  | .imm v => signedHex v.toInt
  | .rel v =>
    let z := v.toInt
    if z < 0 then s!".{z}" else s!".+{z}"

def Decoded.text (d : Decoded) : String :=
  let name := String.join (d.prefixes.map (· ++ " ")) ++ d.mnemonic
  if d.args.isEmpty then name
  else name ++ " " ++ String.intercalate ", " (d.args.map Operand.text)

private def offsetText (n : Nat) : String := "0x" ++ Text.hexPadded 4 n

private def byteHex (b : UInt8) : String := Text.hexPadded 2 b.toNat

/-- Line of an instruction: its bytes are padded to 24 columns. -/
def instructionLine (offset : Nat) (bytes : List UInt8) (d : Decoded) : String :=
  let shown := String.intercalate " " (bytes.map byteHex)
  let padded := shown ++ String.ofList (List.replicate (24 - shown.length) ' ')
  s!"{offsetText offset}: {padded} {d.text}\n"

/-- Lines from an offset on; every line takes at least one byte. -/
def linesFrom : Nat → Nat → List UInt8 → List String
  | 0, _, _ => []
  | _, _, [] => []
  | fuel + 1, offset, b :: rest =>
    match decode (b :: rest) with
    | .ok (d, k + 1) =>
      instructionLine offset ((b :: rest).take (k + 1)) d ::
        linesFrom fuel (offset + k + 1) (rest.drop k)
    | _ => s!"{offsetText offset}: db 0x{byteHex b}\n" :: linesFrom fuel (offset + 1) rest

def disassemble (code : List UInt8) : String := String.join (linesFrom code.length 0 code)

/-- Instructions with their lengths up to the end, or to the first place that cannot be read. -/
def decodeAll : Nat → Nat → List UInt8 → List (Decoded × Nat) × Option (Nat × DecodeError)
  | 0, _, _ => ([], none)
  | _, _, [] => ([], none)
  | fuel + 1, offset, b :: rest =>
    match decode (b :: rest) with
    | .ok (d, k + 1) =>
      let (ds, e) := decodeAll fuel (offset + k + 1) (rest.drop k)
      ((d, k + 1) :: ds, e)
    | .ok (_, 0) => ([], some (offset, .unrecognized))
    | .error e => ([], some (offset, e))

def decodeErrorMessage (offset : Nat) (e : DecodeError) : String :=
  s!"decode at {offsetText offset}: {e.message}"

end TieredEngine.Native.X64
