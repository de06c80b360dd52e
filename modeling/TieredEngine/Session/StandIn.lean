import TieredEngine.Session.State

/-!
A code generator that stands in for a real one: its code is a trap followed by the name of the
function, and it can be told to refuse, to break, or to make no code at all.
-/
namespace TieredEngine.Session
open TieredEngine TieredEngine.Native

namespace Backend

/-- What a stand-in does with a function, by the function's name. -/
abbrev Manners := List (String × String)

/-- A stand-in. Without conventions its code can be installed but not called. -/
def standIn (manners : Manners) (conventions : Bool) (name : String) : Backend where
  name := name
  compile f :=
    let refuse (reason : String) := .error (.error (.unsupported ⟨name, f.name, reason⟩))
    let made (code : List UInt8) :=
      if conventions then
        match Convention.ofSignature f.sig with
        | .ok c => .ok ⟨f.name, name, code, some c⟩
        | .error e => refuse e.message
      else .ok ⟨f.name, name, code, none⟩
    match manners.lookup f.name with
    | some "refuse" => refuse "refused"
    | some "break" => .error (.error (.broken "backend broke"))
    | some "empty" => made []
    | _ => made (0xCC :: f.name.toUTF8.toList)

end Backend

end TieredEngine.Session
