import TieredEngine.Text.Numeral
import TieredEngine.Text.Quoted

/-!
Bytes and text. A text has the bytes of its UTF-8 form, in which it can be measured, and any bytes are
a text once those are replaced that are not in this form. Bytes are written
as hexadecimal text, two digits a byte, or with sixty-four letters, four of them to three bytes and
padded with equal signs. In the latter line ends are skipped, and a fault is given by the place where
it is noticed.
-/
namespace TieredEngine.Text

/-- First byte of a character in UTF-8. -/
def firstByte (c : Char) : Nat :=
  let n := c.toNat
  if n < 0x80 then n
  else if n < 0x800 then 0xC0 + n / 0x40
  else if n < 0x10000 then 0xE0 + n / 0x1000
  else 0xF0 + n / 0x40000

/-- Characters of bytes in UTF-8 after so many that belong to the character before. A byte that no
character starts with is replaced. -/
def charactersAfter : Nat → List UInt8 → List Char
  | _, [] => []
  | skip + 1, _ :: bytes => charactersAfter skip bytes
  | 0, b :: bytes =>
    match (b :: bytes).toByteArray.utf8DecodeChar? 0 with
    | some c => c :: charactersAfter (c.utf8Size - 1) bytes
    | none => '\uFFFD' :: charactersAfter 0 bytes

def ofBytes (bytes : List UInt8) : String := String.ofList (charactersAfter 0 bytes)

/-- Length of a text in bytes. -/
def byteLength (s : List Char) : Nat := s.foldl (fun n c => n + c.utf8Size) 0

/-- Characters within so many bytes; a character that is cut is replaced byte by byte. -/
def takeBytes : Nat → List Char → List Char
  | _, [] => []
  | n, c :: rest =>
    if c.utf8Size ≤ n then c :: takeBytes (n - c.utf8Size) rest
    else List.replicate n '\uFFFD'

def hexOfBytes (bytes : List UInt8) : String :=
  bytes.foldl (fun acc b => acc ++ hexPadded 2 b.toNat) ""

/-- A digit below sixteen. -/
def hexDigit? (c : Char) : Option Nat := (digitValue? c).filter (· < 16)

def bytesOfHex? : List Char → Option (List UInt8)
  | [] => some []
  | [_] => none
  | a :: b :: rest => do
    let x ← hexDigit? a
    let y ← hexDigit? b
    return UInt8.ofNat (16 * x + y) :: (← bytesOfHex? rest)

/-- A number in hexadecimal after the mark `0x`. -/
def hexMarked (n : Nat) : String := "0x" ++ String.ofList (Nat.toDigits 16 n)

end TieredEngine.Text

namespace TieredEngine.Text.Base64

/-- The six bits of a letter. -/
def sextet? (c : Char) : Option Nat :=
  if 'A' ≤ c && c ≤ 'Z' then some (c.toNat - 'A'.toNat)
  else if 'a' ≤ c && c ≤ 'z' then some (c.toNat - 'a'.toNat + 26)
  else if '0' ≤ c && c ≤ '9' then some (c.toNat - '0'.toNat + 52)
  else if c = '+' then some 62
  else if c = '/' then some 63
  else none

def isLineEnd (c : Char) : Bool := c == '\n' || c == '\r'

/-- The bytes of up to four letters; a last byte that is not complete is dropped. -/
def bytesOf (letters : List Nat) : List UInt8 :=
  let word := ((letters ++ [0, 0, 0, 0]).take 4).foldl (fun n d => n * 64 + d) 0
  ([word / 65536, word / 256, word].map UInt8.ofNat).take (letters.length - 1)

/-- Text and padding after the letters of a last group, from an offset on. -/
def padding (offset : Nat) (letters : List Nat) (rest : List Char) : Except Nat (List UInt8) :=
  let finish (place : Nat) (rest : List Char) : Except Nat (List UInt8) :=
    let blanks := rest.takeWhile isLineEnd
    if blanks.length = rest.length then .ok (bytesOf letters) else .error (place + blanks.length)
  let blanks := rest.takeWhile isLineEnd
  let place := offset + 1 + blanks.length
  if letters.length < 2 then .error offset
  else if letters.length = 2 then
    match rest.drop blanks.length with
    | [] => .error place
    | '=' :: rest => finish (place + 1) rest
    | _ => .error (place - 1)
  else finish (offset + 1) rest

/-- Reads letters in groups of four, from an offset on. -/
def decodeFrom (offset : Nat) (letters : List Nat) : List Char → Except Nat (List UInt8)
  | [] => if letters.isEmpty then .ok [] else .error (offset - letters.length)
  | c :: rest =>
    match sextet? c with
    | some d =>
      if letters.length = 3 then
        (decodeFrom (offset + c.utf8Size) [] rest).map (bytesOf (letters ++ [d]) ++ ·)
      else decodeFrom (offset + c.utf8Size) (letters ++ [d]) rest
    | none =>
      if isLineEnd c then decodeFrom (offset + 1) letters rest
      else if c = '=' then padding offset letters rest
      else .error offset

def decode (s : String) : Except Nat (List UInt8) := decodeFrom 0 [] s.toList

def faultMessage (offset : Nat) : String := "illegal base64 data at input byte " ++ toString offset

end TieredEngine.Text.Base64
