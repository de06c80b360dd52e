import TieredEngine.Eval.Machine
import TieredEngine.Ir.Literal

/-!
Stand-ins for functions that a module expects from outside, and a way to try one instruction on
values.
-/
namespace TieredEngine.Eval
open TieredEngine TieredEngine.Ir

/-- What a stand-in does with its arguments. -/
inductive StandIn where
  | sum | first | nothing | seven | failing | logged
  deriving DecidableEq, Repr

namespace StandIn

def ofName? : String → Option StandIn
  | "sum" => some sum
  | "first" => some first
  | "void" => some nothing
  | "seven" => some seven
  | "fail" => some failing
  | "log" => some logged
  | _ => none

def run (s : StandIn) (args : List Value) : Except String Value :=
  match s with
  | sum => .ok (Value.ofInt .i64 (args.foldl (fun n v => n + v.toInt) 0))
  | first => .ok (args.headD .void)
  | nothing => .ok .void
  | seven => .ok (Value.ofInt .i32 7)
  | failing => .error "host failure"
  | logged => .ok .void

/-- Stand-ins by the name of the function they stand for. -/
abbrev Table := List (String × StandIn)

def Table.hosts (t : Table) : Hosts := fun name => (t.lookup name).map fun s _ args => s.run args

/-- Calls of logged stand-ins, the first call first. -/
def Table.log (t : Table) (calls : List HostCall) : List String :=
  (calls.reverse.filter fun c => t.lookup c.name == some .logged).map fun c =>
    String.intercalate " " (c.name :: c.args.map Value.text)

end StandIn

/-- One instruction on so many arguments, which stand in the first registers. -/
def singleInst (op : Op) (ty : Ty) (args : List Value) : Inst := {
  op, ty
  dest := ⟨UInt32.ofNat args.length⟩
  args := (List.range args.length).map fun i => ⟨UInt32.ofNat i⟩
  source := if op = .cast then (args.head?.elim .void (·.ty)) else .void }

/-- A function that returns the result of one instruction on its parameters. -/
def singleFunction (i : Inst) (args : List Value) (result : Ty) : Function := {
  name := "eval"
  sig := { params := args.map (·.ty), ret := result }
  params := i.args
  blocks := #[some { insts := [i], term := .ret (some i.dest) }]
  regTypes := (args.map (·.ty) ++ [result]).toArray }

/-- Runs one instruction on values. -/
def runSingle (i : Inst) (args : List Value) (result : Ty) : Except (Halt Empty) Value :=
  let m : Module := { functions := #[singleFunction i args result] }
  (run { shared := false } m ⟨0⟩ args (⟨#[], [], ()⟩ : World Unit)).result

end TieredEngine.Eval
