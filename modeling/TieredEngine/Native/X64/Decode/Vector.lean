import TieredEngine.Native.X64.Decode.Reader

/-!
Instructions on the registers for packed numbers. Most opcodes stand for up to four instructions,
of which a prefix chooses one.
-/
namespace TieredEngine.Native.X64.Decode

abbrev mm : Form := .reg .mm
abbrev mmMem : Form := .regOrMem .mm
abbrev mmOnly : Form := .regOnly .mm
abbrev xmm : Form := .reg .xmm
abbrev xmmMem : Form := .regOrMem .xmm
abbrev xmmOnly : Form := .regOnly .xmm

/-- Whole numbers: the short registers, or with a prefix the long ones. -/
def packed (name : String) (more : List Form) : Reader Body :=
  byPrefix [(.x66, inst name ([xmm, xmmMem] ++ more)), (.plain, inst name ([mm, mmMem] ++ more))]

/-- Instructions that only the prefix 66 makes. -/
def only66 (name : String) (forms : List Form) : Reader Body := byPrefix [(.x66, inst name forms)]

/-- Instructions on packed whole numbers by opcode. -/
def packedNames : List (Nat × String) := [
  (0x60, "PUNPCKLBW"), (0x61, "PUNPCKLWD"), (0x62, "PUNPCKLDQ"), (0x63, "PACKSSWB"),
  (0x64, "PCMPGTB"), (0x65, "PCMPGTW"), (0x66, "PCMPGTD"), (0x67, "PACKUSWB"),
  (0x68, "PUNPCKHBW"), (0x69, "PUNPCKHWD"), (0x6A, "PUNPCKHDQ"), (0x6B, "PACKSSDW"),
  (0x74, "PCMPEQB"), (0x75, "PCMPEQW"), (0x76, "PCMPEQD"), (0xD1, "PSRLW"), (0xD2, "PSRLD"),
  (0xD3, "PSRLQ"), (0xD4, "PADDQ"), (0xD5, "PMULLW"), (0xD8, "PSUBUSB"), (0xD9, "PSUBUSW"),
  (0xDA, "PMINUB"), (0xDB, "PAND"), (0xDC, "PADDUSB"), (0xDD, "PADDUSW"), (0xDE, "PMAXUB"),
  (0xDF, "PANDN"), (0xE0, "PAVGB"), (0xE1, "PSRAW"), (0xE2, "PSRAD"), (0xE3, "PAVGW"),
  (0xE4, "PMULHUW"), (0xE5, "PMULHW"), (0xE8, "PSUBSB"), (0xE9, "PSUBSW"), (0xEA, "PMINSW"),
  (0xEB, "POR"), (0xEC, "PADDSB"), (0xED, "PADDSW"), (0xEE, "PMAXSW"), (0xEF, "PXOR"),
  (0xF1, "PSLLW"), (0xF2, "PSLLD"), (0xF3, "PSLLQ"), (0xF4, "PMULUDQ"), (0xF5, "PMADDWD"),
  (0xF6, "PSADBW"), (0xF8, "PSUBB"), (0xF9, "PSUBW"), (0xFA, "PSUBD"), (0xFB, "PSUBQ"),
  (0xFC, "PADDB"), (0xFD, "PADDW"), (0xFE, "PADDD")]

/-- Fractions, one or several at once, of single or double precision. -/
def fractionNames : List (Nat × String) := [
  (0x51, "SQRT"), (0x58, "ADD"), (0x59, "MUL"), (0x5C, "SUB"), (0x5D, "MIN"), (0x5E, "DIV"),
  (0x5F, "MAX")]

/-- Several fractions at once, of single or double precision. -/
def packedFractionNames : List (Nat × String) := [
  (0x14, "UNPCKL"), (0x15, "UNPCKH"), (0x54, "AND"), (0x55, "ANDN"), (0x56, "OR"), (0x57, "XOR")]

/-- The four precisions of an instruction on fractions. -/
def fractions (name : String) (forms : List Form) : Reader Body :=
  byPrefix [
    (.f3, inst (name ++ "SS") forms), (.f2, inst (name ++ "SD") forms),
    (.x66, inst (name ++ "PD") forms), (.plain, inst (name ++ "PS") forms)]

def packedFractions (name : String) (forms : List Form) : Reader Body :=
  byPrefix [(.x66, inst (name ++ "PD") forms), (.plain, inst (name ++ "PS") forms)]

/-- Unaligned moves; the one of a single number of double precision has a name of its own. -/
def unalignedMove (forms : List Form) : Reader Body :=
  byPrefix [
    (.f3, inst "MOVSS" forms), (.f2, inst "MOVSD_XMM" forms), (.x66, inst "MOVUPD" forms),
    (.plain, inst "MOVUPS" forms)]

/-- A move of half a register to or from memory, or between the halves of two registers. -/
def halfMove (half between : String) (others : List (Need × Reader Body)) : Reader Body :=
  byPrefix (others ++ [
    (.x66, inst (half ++ "D") [xmm, .mem]),
    (.plain, byMemory (inst between [xmm, xmmOnly]) (inst (half ++ "S") [xmm, .mem]))])

def halfStore (half : String) : Reader Body :=
  byPrefix [(.x66, inst (half ++ "D") [.mem, xmm]), (.plain, inst (half ++ "S") [.mem, xmm])]

/-- Chooses by prefix under each width; the rows may differ in the general register only. -/
def sizedRows (rows : Width → List (Need × Reader Body)) : Reader Body :=
  bySize (byPrefix (rows .dword)) (byPrefix (rows .dword)) (byPrefix (rows .qword))

/-- A fraction made of a whole number. -/
def toFraction : Reader Body :=
  sizedRows fun w => [
    (.f3, inst "CVTSI2SS" [xmm, regMem w]), (.f2, inst "CVTSI2SD" [xmm, regMem w]),
    (.x66, inst "CVTPI2PD" [xmm, mmMem]), (.plain, inst "CVTPI2PS" [xmm, mmMem])]

/-- A whole number made of a fraction, cut off or rounded. -/
def ofFraction (cut : String) : Reader Body :=
  sizedRows fun w => [
    (.f3, inst s!"CVT{cut}SS2SI" [reg w, xmmMem]), (.f2, inst s!"CVT{cut}SD2SI" [reg w, xmmMem]),
    (.x66, inst s!"CVT{cut}PD2PI" [mm, xmmMem]), (.plain, inst s!"CVT{cut}PS2PI" [mm, xmmMem])]

/-- Moves between a general register and one for packed numbers. -/
def wordMove (load : Bool) : Reader Body :=
  let way (a b : Form) : List Form := if load then [a, b] else [b, a]
  sizedRows fun w =>
    let name := if w == .qword then "MOVQ" else "MOVD"
    (if load then [] else [(.f3, inst "MOVQ" [xmm, xmmMem])]) ++
      [(.x66, inst name (way xmm (regMem w))), (.plain, inst name (way mm (regMem w)))]

/-- Moves of whole registers for packed numbers. -/
def fullMove (load : Bool) : Reader Body :=
  let way (a b : Form) : List Form := if load then [a, b] else [b, a]
  byPrefix [
    (.f3, inst "MOVDQU" (way xmm xmmMem)), (.x66, inst "MOVDQA" (way xmm xmmMem)),
    (.plain, inst "MOVQ" (way mm mmMem))]

/-- Shifts by a constant, by opcode and digit. -/
def packedShift (n : Nat) : Reader Body :=
  let both (name : String) : Reader Body :=
    byPrefix [(.x66, inst name [xmmOnly, .imm8u]), (.plain, inst name [mmOnly, .imm8u])]
  byDigit fun digit =>
    match n, digit with
    | 0x71, 2 => both "PSRLW"
    | 0x71, 4 => both "PSRAW"
    | 0x71, 6 => both "PSLLW"
    | 0x72, 2 => both "PSRLD"
    | 0x72, 4 => both "PSRAD"
    | 0x72, 6 => both "PSLLD"
    | 0x73, 2 => both "PSRLQ"
    | 0x73, 3 => only66 "PSRLDQ" [xmmOnly, .imm8u]
    | 0x73, 6 => both "PSLLQ"
    | 0x73, 7 => only66 "PSLLDQ" [xmmOnly, .imm8u]
    | _, _ => fail

/-- Instructions on packed numbers with the opcode 0F and one byte more. -/
def vector (n : Nat) : Reader Body :=
  match packedNames.lookup n, fractionNames.lookup n, packedFractionNames.lookup n with
  | some name, _, _ => packed name []
  | _, some name, _ => fractions name [xmm, xmmMem]
  | _, _, some name => packedFractions name [xmm, xmmMem]
  | none, none, none =>
    match n with
    | 0x10 => unalignedMove [xmm, xmmMem]
    | 0x11 => unalignedMove [xmmMem, xmm]
    | 0x12 =>
      halfMove "MOVLP" "MOVHLPS"
        [(.f3, inst "MOVSLDUP" [xmm, xmmMem]), (.f2, inst "MOVDDUP" [xmm, xmmMem])]
    | 0x13 => halfStore "MOVLP"
    | 0x16 => halfMove "MOVHP" "MOVLHPS" [(.f3, inst "MOVSHDUP" [xmm, xmmMem])]
    | 0x17 => halfStore "MOVHP"
    | 0x28 => packedFractions "MOVA" [xmm, xmmMem]
    | 0x29 => packedFractions "MOVA" [xmmMem, xmm]
    | 0x2A => toFraction
    | 0x2B => packedFractions "MOVNT" [.mem, xmm]
    | 0x2C => ofFraction "T"
    | 0x2D => ofFraction ""
    | 0x2E =>
      byPrefix [(.x66, inst "UCOMISD" [xmm, xmmMem]), (.plain, inst "UCOMISS" [xmm, xmmMem])]
    | 0x2F => byPrefix [(.x66, inst "COMISD" [xmm, xmmMem]), (.plain, inst "COMISS" [xmm, xmmMem])]
    | 0x50 => packedFractions "MOVMSK" [r32, xmmOnly]
    | 0x52 => byPrefix [(.f3, inst "RSQRTSS" [xmm, xmmMem]), (.plain, inst "RSQRTPS" [xmm, xmmMem])]
    | 0x53 => byPrefix [(.f3, inst "RCPSS" [xmm, xmmMem]), (.plain, inst "RCPPS" [xmm, xmmMem])]
    | 0x5A =>
      byPrefix [
        (.f3, inst "CVTSS2SD" [xmm, xmmMem]), (.f2, inst "CVTSD2SS" [xmm, xmmMem]),
        (.x66, inst "CVTPD2PS" [xmm, xmmMem]), (.plain, inst "CVTPS2PD" [xmm, xmmMem])]
    | 0x5B =>
      byPrefix [
        (.f3, inst "CVTTPS2DQ" [xmm, xmmMem]), (.x66, inst "CVTPS2DQ" [xmm, xmmMem]),
        (.plain, inst "CVTDQ2PS" [xmm, xmmMem])]
    | 0x6C => only66 "PUNPCKLQDQ" [xmm, xmmMem]
    | 0x6D => only66 "PUNPCKHQDQ" [xmm, xmmMem]
    | 0x6E => wordMove true
    | 0x6F => fullMove true
    | 0x70 =>
      byPrefix [
        (.f3, inst "PSHUFHW" [xmm, xmmMem, .imm8u]), (.f2, inst "PSHUFLW" [xmm, xmmMem, .imm8u]),
        (.x66, inst "PSHUFD" [xmm, xmmMem, .imm8u]), (.plain, inst "PSHUFW" [mm, mmMem, .imm8u])]
    | 0x71 | 0x72 | 0x73 => packedShift n
    | 0x77 => inst "EMMS" []
    | 0x7C => byPrefix [(.f2, inst "HADDPS" [xmm, xmmMem]), (.x66, inst "HADDPD" [xmm, xmmMem])]
    | 0x7D => byPrefix [(.f2, inst "HSUBPS" [xmm, xmmMem]), (.x66, inst "HSUBPD" [xmm, xmmMem])]
    | 0x7E => wordMove false
    | 0x7F => fullMove false
    | 0xC2 =>
      byPrefix [
        (.f3, inst "CMPSS" [xmm, xmmMem, .imm8u]), (.f2, inst "CMPSD_XMM" [xmm, xmmMem, .imm8u]),
        (.x66, inst "CMPPD" [xmm, xmmMem, .imm8u]), (.plain, inst "CMPPS" [xmm, xmmMem, .imm8u])]
    | 0xC4 =>
      byPrefix [
        (.x66, inst "PINSRW" [xmm, rm32, .imm8u]), (.plain, inst "PINSRW" [mm, rm32, .imm8u])]
    | 0xC5 =>
      byPrefix [
        (.x66, inst "PEXTRW" [r32, xmmOnly, .imm8u]), (.plain, inst "PEXTRW" [r32, mmOnly, .imm8u])]
    | 0xC6 => packedFractions "SHUF" [xmm, xmmMem, .imm8u]
    | 0xD0 => byPrefix [(.f2, inst "ADDSUBPS" [xmm, xmmMem]), (.x66, inst "ADDSUBPD" [xmm, xmmMem])]
    | 0xD6 =>
      byPrefix [
        (.f3, inst "MOVQ2DQ" [xmm, mmOnly]), (.f2, inst "MOVDQ2Q" [mm, xmmOnly]),
        (.x66, inst "MOVQ" [xmmMem, xmm])]
    | 0xD7 =>
      byPrefix [(.x66, inst "PMOVMSKB" [r32, xmmOnly]), (.plain, inst "PMOVMSKB" [r32, mmOnly])]
    | 0xE6 =>
      byPrefix [
        (.f3, inst "CVTDQ2PD" [xmm, xmmMem]), (.f2, inst "CVTPD2DQ" [xmm, xmmMem]),
        (.x66, inst "CVTTPD2DQ" [xmm, xmmMem])]
    | 0xE7 => byPrefix [(.x66, inst "MOVNTDQ" [.mem, xmm]), (.plain, inst "MOVNTQ" [.mem, mm])]
    | 0xF0 => byPrefix [(.f2, inst "LDDQU" [xmm, .mem])]
    | 0xF7 =>
      byPrefix [(.x66, inst "MASKMOVDQU" [xmm, xmmOnly]), (.plain, inst "MASKMOVQ" [mm, mmOnly])]
    | _ => fail

/-- Opcodes after 0F 38 that both kinds of registers have. -/
def packedNames38 : List (Nat × String) := [
  (0x00, "PSHUFB"), (0x01, "PHADDW"), (0x02, "PHADDD"), (0x03, "PHADDSW"), (0x04, "PMADDUBSW"),
  (0x05, "PHSUBW"), (0x06, "PHSUBD"), (0x07, "PHSUBSW"), (0x08, "PSIGNB"), (0x09, "PSIGNW"),
  (0x0A, "PSIGND"), (0x0B, "PMULHRSW"), (0x1C, "PABSB"), (0x1D, "PABSW"), (0x1E, "PABSD")]

/-- Opcodes after 0F 38 that only the long registers have. -/
def longNames38 : List (Nat × String) := [
  (0x17, "PTEST"), (0x20, "PMOVSXBW"), (0x21, "PMOVSXBD"), (0x22, "PMOVSXBQ"), (0x23, "PMOVSXWD"),
  (0x24, "PMOVSXWQ"), (0x25, "PMOVSXDQ"), (0x28, "PMULDQ"), (0x29, "PCMPEQQ"), (0x2B, "PACKUSDW"),
  (0x30, "PMOVZXBW"), (0x31, "PMOVZXBD"), (0x32, "PMOVZXBQ"), (0x33, "PMOVZXWD"),
  (0x34, "PMOVZXWQ"), (0x35, "PMOVZXDQ"), (0x37, "PCMPGTQ"), (0x38, "PMINSB"), (0x39, "PMINSD"),
  (0x3A, "PMINUW"), (0x3B, "PMINUD"), (0x3C, "PMAXSB"), (0x3D, "PMAXSD"), (0x3E, "PMAXUW"),
  (0x3F, "PMAXUD"), (0x40, "PMULLD"), (0x41, "PHMINPOSUW"), (0xDB, "AESIMC"), (0xDC, "AESENC"),
  (0xDD, "AESENCLAST"), (0xDE, "AESDEC"), (0xDF, "AESDECLAST")]

/-- Opcodes after 0F 38. -/
def vector38 (n : Nat) : Reader Body :=
  let blend (name : String) : Reader Body := only66 name [xmm, xmmMem, .fixed .xmm0]
  match packedNames38.lookup n, longNames38.lookup n with
  | some name, _ => packed name []
  | _, some name => only66 name [xmm, xmmMem]
  | none, none =>
    match n with
    | 0x10 => blend "PBLENDVB"
    | 0x14 => blend "BLENDVPS"
    | 0x15 => blend "BLENDVPD"
    | 0x2A => only66 "MOVNTDQA" [xmm, .mem]
    | 0x82 => only66 "INVPCID" [reg .qword, .mem]
    | 0xF0 =>
      let rows (w : Width) : Reader Body :=
        let sum : Width := if w == .qword then .qword else .dword
        byPrefix [(.f2, inst "CRC32" [reg sum, rm8]), (.plain, inst "MOVBE" [reg w, .mem])]
      bySize (rows .word) (rows .dword) (rows .qword)
    | 0xF1 =>
      let rows (w : Width) : Reader Body :=
        let sum : Width := if w == .qword then .qword else .dword
        byPrefix [(.f2, inst "CRC32" [reg sum, regMem w]), (.plain, inst "MOVBE" [.mem, reg w])]
      bySize (rows .word) (rows .dword) (rows .qword)
    | _ => fail

/-- Opcodes after 0F 3A that work on two long registers and a constant. -/
def longNames3A : List (Nat × String) := [
  (0x08, "ROUNDPS"), (0x09, "ROUNDPD"), (0x0A, "ROUNDSS"), (0x0B, "ROUNDSD"), (0x0C, "BLENDPS"),
  (0x0D, "BLENDPD"), (0x0E, "PBLENDW"), (0x21, "INSERTPS"), (0x40, "DPPS"), (0x41, "DPPD"),
  (0x42, "MPSADBW"), (0x44, "PCLMULQDQ"), (0x60, "PCMPESTRM"), (0x61, "PCMPESTRI"),
  (0x62, "PCMPISTRM"), (0x63, "PCMPISTRI"), (0xDF, "AESKEYGENASSIST")]

/-- Opcodes after 0F 3A. -/
def vector3A (n : Nat) : Reader Body :=
  let bySizeOnly66 (word long : Reader Body) : Reader Body := bySize word word long
  match longNames3A.lookup n with
  | some name => only66 name [xmm, xmmMem, .imm8u]
  | none =>
    match n with
    | 0x0F => packed "PALIGNR" [.imm8u]
    | 0x14 => only66 "PEXTRB" [rm32, xmm, .imm8u]
    | 0x15 => only66 "PEXTRW" [rm32, xmm, .imm8u]
    | 0x16 =>
      bySizeOnly66 (only66 "PEXTRD" [rm32, xmm, .imm8u]) (only66 "PEXTRQ" [rm64, xmm, .imm8u])
    | 0x17 => only66 "EXTRACTPS" [rm32, xmm, .imm8u]
    | 0x20 => only66 "PINSRB" [xmm, rm32, .imm8u]
    | 0x22 =>
      bySizeOnly66 (only66 "PINSRD" [xmm, rm32, .imm8u]) (only66 "PINSRQ" [xmm, rm64, .imm8u])
    | _ => fail

end TieredEngine.Native.X64.Decode
