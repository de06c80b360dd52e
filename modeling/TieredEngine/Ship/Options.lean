import TieredEngine.Pass.Pipeline
import TieredEngine.Path
import TieredEngine.Text.Blank
import TieredEngine.Text.Case
import TieredEngine.Text.Quoted

/-!
Options of a compilation ahead of time: what it produces, the system it produces it for, the path its
output gets, and the command lines of the tools it runs. The extension of an output file depends on the
format and the system.
-/
namespace TieredEngine.Ship
open TieredEngine

inductive Format where
  | executable | object | llvmText | llvmBitcode | assembly
  deriving DecidableEq, Repr, Inhabited

namespace Format

/-- All formats, in the order of their numbers. -/
def all : List Format := [executable, object, llvmText, llvmBitcode, assembly]

def name : Format → String
  | executable => "exe"
  | object => "obj"
  | llvmText => "llvm-ir"
  | llvmBitcode => "llvm-bc"
  | assembly => "asm"

def code (f : Format) : Nat := all.idxOf f

/-- Name shown for a number, which need not be a format's. -/
def codeName (n : Int) : String :=
  match n with
  | .ofNat k => (all[k]?.map name).getD s!"format({n})"
  | .negSucc _ => s!"format({n})"

/-- Reads a name or one of its aliases, in any case and with blanks around. -/
def ofName? (s : String) : Option Format :=
  match Text.lower (Text.trim s) with
  | "exe" | "executable" | "bin" => some executable
  | "obj" | "object" | "o" => some object
  | "llvm-ir" | "ll" | "ir" => some llvmText
  | "llvm-bc" | "bc" | "bitcode" => some llvmBitcode
  | "asm" | "assembly" | "s" => some assembly
  | _ => none

def unknownMessage (s : String) : String :=
  s!"unknown output format {Text.quoted s} (expected exe, obj, llvm-ir, llvm-bc or asm)"

/-- Extension of an output file on a system, by the system's name. -/
def extension (os : String) : Format → String
  | executable => if os == "windows" then ".exe" else ""
  | object => if os == "windows" then ".obj" else ".o"
  | llvmText => ".ll"
  | llvmBitcode => ".bc"
  | assembly => ".s"

end Format

/-- Name of the system this program runs on. -/
def hostSystem : String := "linux"

structure Options where
  /-- Target triple; empty for this machine. -/
  target : String := ""
  level : Pass.Level := .o2
  format : Format := .executable
  /-- Remove what the entry cannot reach. -/
  strip : Bool := true
  verbose : Bool := false
  linker : String := ""
  runtimeDir : String := ""
  sysroot : String := ""
  stripSymbols : Bool := false
  /-- Path of the output; empty to derive it from the input. -/
  output : String := ""
  /-- Path of the code generator; empty to search for one. -/
  codegen : String := ""
  /-- Path of the bitcode assembler; empty to search for one. -/
  assembler : String := ""
  deriving DecidableEq, Repr

/-- Libraries of a system that every program is linked with. -/
def systemLibraries : String → List String
  | "darwin" => ["-lSystem", "-lc", "-lm", "-lpthread"]
  | "windows" => ["kernel32.lib", "ws2_32.lib", "userenv.lib", "bcrypt.lib"]
  | _ => ["-lc", "-lm", "-lpthread", "-ldl"]

/-- File name of the runtime library on a system. -/
def runtimeLibrary (system : String) : String :=
  if system == "windows" then "mirrt.lib" else "libmirrt.a"

namespace Options

/-- System that the target triple speaks of. -/
def system (o : Options) : String :=
  let t := Text.lower o.target
  let hasWord (w : String) : Bool := 1 < (t.splitOn w).length
  if t.isEmpty then hostSystem
  else if hasWord "windows" || hasWord "win32" then "windows"
  else if hasWord "darwin" || hasWord "apple" || hasWord "macos" then "darwin"
  else "linux"

/-- The output beside the input, under its name with the extension of the format. -/
def outputPath (o : Options) (input : String) : String :=
  if o.output != "" then o.output
  else
    let stem := Path.stem (Path.base input)
    let stem := if stem == "" || stem == "." then "a.out" else stem
    Path.join [Path.dir input, stem ++ o.format.extension o.system]

private def given (flag value : String) : List String :=
  if value.isEmpty then [] else [flag ++ value]

def linkArgs (o : Options) (out object runtime : String) : List String :=
  ["-o", out, object, runtime, "-" ++ o.level.name] ++ given "--target=" o.target ++
    given "--sysroot=" o.sysroot ++ systemLibraries o.system ++
    (if o.stripSymbols then ["-s"] else [])

def codegenArgs (o : Options) (input out : String) (asText : Bool) : List String :=
  ["-filetype=" ++ (if asText then "asm" else "obj"), "-" ++ o.level.name,
    "-relocation-model=pic"] ++ given "-mtriple=" o.target ++ ["-o", out, input]

end Options

end TieredEngine.Ship
