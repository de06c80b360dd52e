import TieredEngine.Ir.Builder

/-!
A small module to try the engine on: straight-line arithmetic, a choice, a loop with phis, a
recursion, a switch and a main function that calls two of the others.
-/
namespace TieredEngine.Ir.Samples
open TieredEngine

private def int32 (n : Int) : Value := Value.ofInt .i32 n
private def int64 (n : Int) : Value := Value.ofInt .i64 n

/-- One block that applies an operation to both parameters. -/
def binaryBody (op : Op) : Build Unit := do
  let _ ← Build.newBlock
  Build.ret (← Build.binary op (← Build.param 0) (← Build.param 1))

def maxBody : Build Unit := do
  let entry ← Build.newBlock
  let yes ← Build.newBlock
  let no ← Build.newBlock
  let x ← Build.param 0
  let y ← Build.param 1
  Build.setBlock entry
  Build.condBr (← Build.compare .ge x y) yes no
  Build.setBlock yes
  Build.ret x
  Build.setBlock no
  Build.ret y

/-- Adds the numbers below the parameter in a loop. -/
def sumBody : Build Unit := do
  let entry ← Build.newBlock
  let loop ← Build.newBlock
  let body ← Build.newBlock
  let exit ← Build.newBlock
  Build.setBlock entry
  let zero ← Build.const (int64 0)
  let one ← Build.const (int64 1)
  Build.br loop
  Build.setBlock loop
  let i ← Build.phi .i64
  let acc ← Build.phi .i64
  Build.condBr (← Build.compare .lt i (← Build.param 0)) body exit
  Build.setBlock body
  let nextAcc ← Build.binary .add acc i
  let nextI ← Build.binary .add i one
  Build.br loop
  Build.setBlock exit
  Build.ret acc
  Build.addIncoming i entry zero
  Build.addIncoming i body nextI
  Build.addIncoming acc entry zero
  Build.addIncoming acc body nextAcc

def fibBody (self : FuncId) : Build Unit := do
  let entry ← Build.newBlock
  let base ← Build.newBlock
  let rec' ← Build.newBlock
  let n ← Build.param 0
  Build.setBlock entry
  let two ← Build.const (int64 2)
  Build.condBr (← Build.compare .lt n two) base rec'
  Build.setBlock base
  Build.ret n
  Build.setBlock rec'
  let one ← Build.const (int64 1)
  let n1 ← Build.binary .sub n one
  let n2 ← Build.binary .sub n two
  let r1 ← Build.call self .i64 [n1]
  let r2 ← Build.call self .i64 [n2]
  Build.ret (← Build.binary .add r1 r2)

def classifyBody : Build Unit := do
  let entry ← Build.newBlock
  let one ← Build.newBlock
  let two ← Build.newBlock
  let other ← Build.newBlock
  Build.setBlock entry
  Build.switch (← Build.param 0) other [⟨1, one⟩, ⟨2, two⟩]
  Build.setBlock one
  Build.ret (← Build.const (int32 10))
  Build.setBlock two
  Build.ret (← Build.const (int32 20))
  Build.setBlock other
  Build.ret (← Build.const (int32 (-1)))

def mainBody (add sum : FuncId) : Build Unit := do
  let _ ← Build.newBlock
  let a ← Build.const (int32 40)
  let b ← Build.const (int32 2)
  let x ← Build.call add .i32 [a, b]
  let ten ← Build.const (int64 10)
  let s ← Build.call sum .i64 [ten]
  let narrow ← Build.cast .i32 s
  Build.ret (← Build.binary .add x narrow)

/-- Adds a function whose body may refer to its own number. -/
private def define (b : ModuleBuilder) (name : String) (params : List Ty) (ret : Ty)
    (body : FuncId → Build Unit) : FuncId × ModuleBuilder :=
  let (id, b) := b.addFunction name params ret
  (id, (b.onFunction id (body id)).2)

def sampleModule : Module :=
  let b : ModuleBuilder := { name := "samples" }
  let (add, b) := define b "add" [.i32, .i32] .i32 fun _ => binaryBody .add
  let (_, b) := define b "max" [.i32, .i32] .i32 fun _ => maxBody
  let (_, b) := define b "mul" [.i64, .i64] .i64 fun _ => binaryBody .mul
  let (sum, b) := define b "sum_to" [.i64] .i64 fun _ => sumBody
  let (_, b) := define b "fib" [.i64] .i64 fibBody
  let (_, b) := define b "classify" [.i32] .i32 fun _ => classifyBody
  let (_, b) := define b "main" [] .i32 fun _ => mainBody add sum
  b.build

end TieredEngine.Ir.Samples
