import TieredEngine.Cli.Build
import TieredEngine.Cli.Flags
import TieredEngine.Cli.Run
import TieredEngine.Crash
import TieredEngine.Eval.Arith
import TieredEngine.Eval.Error
import TieredEngine.Eval.Machine
import TieredEngine.Eval.StandIn
import TieredEngine.Host.World
import TieredEngine.Hotness.Tracker
import TieredEngine.Ir.Builder
import TieredEngine.Ir.Codec.Decode
import TieredEngine.Ir.Codec.Encode
import TieredEngine.Ir.Inst
import TieredEngine.Ir.Listing
import TieredEngine.Ir.Literal
import TieredEngine.Ir.Module
import TieredEngine.Ir.Op
import TieredEngine.Ir.Samples
import TieredEngine.Ir.Ty
import TieredEngine.Ir.Typing
import TieredEngine.Ir.Value
import TieredEngine.Ir.WellFormed
import TieredEngine.Json.Doc
import TieredEngine.Json.Mismatch
import TieredEngine.Json.Node
import TieredEngine.Llvm.Syntax
import TieredEngine.Llvm.Text
import TieredEngine.Main
import TieredEngine.Native.Convention
import TieredEngine.Native.Memory.Heap
import TieredEngine.Native.Memory.Manager
import TieredEngine.Native.X64.Assembly
import TieredEngine.Native.X64.Baseline
import TieredEngine.Native.X64.Decode
import TieredEngine.Native.X64.Decode.Extended
import TieredEngine.Native.X64.Decode.General
import TieredEngine.Native.X64.Decode.Mark
import TieredEngine.Native.X64.Decode.Reader
import TieredEngine.Native.X64.Decode.Vector
import TieredEngine.Native.X64.Disassembly
import TieredEngine.Native.X64.Instr
import TieredEngine.Native.X64.Machine
import TieredEngine.Native.X64.Reg
import TieredEngine.Number.Binary
import TieredEngine.Number.Reading
import TieredEngine.Number.Shortest
import TieredEngine.Pass.ConstFold
import TieredEngine.Pass.CopyProp
import TieredEngine.Pass.Pipeline
import TieredEngine.Pass.Removal
import TieredEngine.Path
import TieredEngine.Proofs.Eval.Agreement
import TieredEngine.Proofs.Eval.Congruence
import TieredEngine.Proofs.Eval.Definite
import TieredEngine.Proofs.Eval.DepthLimit
import TieredEngine.Proofs.Eval.Entering
import TieredEngine.Proofs.Eval.FreshGlobals
import TieredEngine.Proofs.Eval.Integers
import TieredEngine.Proofs.Eval.Linking
import TieredEngine.Proofs.Eval.Lockstep
import TieredEngine.Proofs.Eval.Normality
import TieredEngine.Proofs.Eval.Steps
import TieredEngine.Proofs.Eval.TypedRuns
import TieredEngine.Proofs.Ir.Building
import TieredEngine.Proofs.Ir.Checked
import TieredEngine.Proofs.Ir.Codec.Crashes
import TieredEngine.Proofs.Ir.Codec.RoundTrip
import TieredEngine.Proofs.Ir.EveryPath
import TieredEngine.Proofs.Ir.Postorder
import TieredEngine.Proofs.Ir.WellTyped
import TieredEngine.Proofs.Native.Convention
import TieredEngine.Proofs.Native.Memory.Heap
import TieredEngine.Proofs.Native.Memory.Lookup
import TieredEngine.Proofs.Native.Memory.Manager
import TieredEngine.Proofs.Native.Memory.Protection
import TieredEngine.Proofs.Native.Memory.Sealing
import TieredEngine.Proofs.Native.Memory.Writing
import TieredEngine.Proofs.Native.X64.Assembling
import TieredEngine.Proofs.Native.X64.Blocks
import TieredEngine.Proofs.Native.X64.Entry
import TieredEngine.Proofs.Native.X64.StackSafety
import TieredEngine.Proofs.Pass.BlockRuns
import TieredEngine.Proofs.Pass.ConstFold
import TieredEngine.Proofs.Pass.CopyProp
import TieredEngine.Proofs.Pass.DeadCode
import TieredEngine.Proofs.Pass.FixedPoint
import TieredEngine.Proofs.Pass.Pipeline
import TieredEngine.Proofs.Session.Alone
import TieredEngine.Proofs.Session.Coherence
import TieredEngine.Proofs.Session.Disabling
import TieredEngine.Proofs.Session.Entries
import TieredEngine.Proofs.Session.Equivalence
import TieredEngine.Proofs.Session.Failures
import TieredEngine.Proofs.Session.Policy
import TieredEngine.Proofs.Session.Registering
import TieredEngine.Proofs.Settings.Saving
import TieredEngine.Proofs.Ship.Casts
import TieredEngine.Proofs.Ship.Lowering.Meaning
import TieredEngine.Proofs.Ship.Output
import TieredEngine.Proofs.Ship.Totality
import TieredEngine.Proofs.Ship.TreeShake
import TieredEngine.Repl.Prompt
import TieredEngine.Script.Assembling
import TieredEngine.Script.Building
import TieredEngine.Script.Line
import TieredEngine.Script.Memory
import TieredEngine.Script.Tracking
import TieredEngine.Session.Callers
import TieredEngine.Session.Config
import TieredEngine.Session.Promotion
import TieredEngine.Session.Report
import TieredEngine.Session.Run
import TieredEngine.Session.StandIn
import TieredEngine.Session.State
import TieredEngine.Session.Tier
import TieredEngine.Settings.Field
import TieredEngine.Settings.File
import TieredEngine.Settings.Reading
import TieredEngine.Ship.Compile
import TieredEngine.Ship.Lowering
import TieredEngine.Ship.Manifest
import TieredEngine.Ship.Options
import TieredEngine.Ship.Toolchain
import TieredEngine.Ship.TreeShake
import TieredEngine.Size.Bytes
import TieredEngine.Text.Blank
import TieredEngine.Text.Case
import TieredEngine.Text.Encoding
import TieredEngine.Text.Numeral
import TieredEngine.Text.Quoted
import TieredEngine.Time.Duration
import TieredEngine.Toml.Document
import TieredEngine.Toml.Quoted
import TieredEngine.Toml.Scalar
import TieredEngine.Toml.Seen
