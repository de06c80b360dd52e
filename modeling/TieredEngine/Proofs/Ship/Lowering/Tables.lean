import TieredEngine.Proofs.Ship.Lowering.Blocks
import TieredEngine.Proofs.Ship.Lowering.Structure

/-!
The tables of a module that is being lowered. Its global variables are those of the source and then the
texts, numbered; its functions are those of the source and then functions of the runtime, each declared
when it is first called and found by its name from then on.
-/
namespace TieredEngine.Ship.Lowering
open TieredEngine TieredEngine.Llvm

def textName (k : Nat) : String := s!".str.{k}"

/-- Name of the conversion from a floating-point type to another type. -/
def conversionName (target source : Ir.Ty) : String :=
  let kind := if target.isSigned then "fptosi" else "fptoui"
  s!"llvm.{kind}.sat.{typeSuffix target}.{typeSuffix source}"

/-- The conversions of floating point to words, with the types they give. -/
def conversions : List (String × Llvm.Ty) :=
  (Ir.Ty.all.filter fun t => t.isIntLike && t != .bool).flatMap fun target =>
    [.f32, .f64].map fun source => (conversionName target source, .int (intWidth target))

/-- The functions that lowering declares. -/
def runtime : List (String × Llvm.Ty) := (panicSymbol, .void) :: conversions

theorem mem_conversions {target source : Ir.Ty} (word : target.isIntLike = true)
    (wide : target ≠ .bool) (float : source.isFloat = true) :
    (conversionName target source, .int (intWidth target)) ∈ conversions := by
  have whole : ∀ t : Ir.Ty, t ∈ Ir.Ty.all := by
    intro t
    cases t <;> decide
  refine List.mem_flatMap.mpr ⟨target, List.mem_filter.mpr ⟨whole _, by simp [word, wide]⟩, ?_⟩
  refine List.mem_map.mpr ⟨source, ?_, rfl⟩
  cases source <;> first | decide | cases float

/-- The name of a conversion says what it gives. -/
theorem conversion_type {name : String} {t u : Llvm.Ty} (one : (name, t) ∈ conversions)
    (two : (name, u) ∈ conversions) : t = u := by
  have apart : ∀ e ∈ conversions, ∀ e' ∈ conversions, e.1 = e'.1 → e.2 = e'.2 := by decide +kernel
  exact apart _ one _ two rfl

theorem conversion_ne_panic {t : Llvm.Ty} : (panicSymbol, t) ∉ conversions := by
  have other : ∀ e ∈ conversions, e.1 ≠ panicSymbol := by decide +kernel
  exact fun member => other _ member rfl

end TieredEngine.Ship.Lowering

namespace TieredEngine.Ship
open TieredEngine

open Lowering

/-- Names of the source's global variables, with the types of what they hold. -/
def globalsOf (m : Ir.Module) : List (String × Llvm.Ty) :=
  m.globals.toList.map fun g? =>
    (g?.elim "" Ir.Global.name, returnType (g?.elim .void Ir.Global.ty))

/-- Names of the source's functions in the lowered module, with the types they give. -/
def LowerOptions.functionsOf (o : LowerOptions) (m : Ir.Module) : List (String × Llvm.Ty) :=
  m.functions.toList.map fun f => (o.nameOf f, returnType f.sig.ret)

/-- A function whose name is taken by the wrapper. -/
def LowerOptions.Renames (o : LowerOptions) (f : Ir.Function) : Prop :=
  ∃ e, o.wrapped = some e ∧ e.id = f.id ∧ f.name = "main"

namespace LowerOptions

variable {o : LowerOptions} {f : Ir.Function}

theorem nameOf_renamed (renames : o.Renames f) : o.nameOf f = renamedMain := by
  obtain ⟨e, wrapped, id, name⟩ := renames
  simp [nameOf, wrapped, id, name]

theorem nameOf_kept (keeps : ¬ o.Renames f) : o.nameOf f = f.name := by
  refine if_neg fun some => ?_
  cases wrapped : o.wrapped with
  | none => simp [wrapped] at some
  | some e =>
    have taken : e.id = f.id ∧ f.name = "main" := by simpa [wrapped] using some
    exact keeps ⟨e, wrapped, taken⟩

end LowerOptions

namespace Lowering

/-- The tables agree with the source, and the functions are found by their names. -/
structure Tables (m : Ir.Module) (o : LowerOptions) (s : State) : Prop where
  globals : ∃ texts, s.globals.toList.map (fun g => (g.name, g.init.ty)) = globalsOf m ++ texts ∧
    texts.map (·.1) = (List.range s.texts.length).map textName
  functions : ∃ made, s.functions.toList.map (fun g => (g.name, g.ret)) = o.functionsOf m ++ made ∧
    (made.map (·.1)).Nodup ∧ made ⊆ runtime ∧ ∀ e ∈ made, e.1 ∉ (o.functionsOf m).map (·.1)
  declared : s.declared = (s.functions.toList.map (·.name)).zipIdx.reverse

namespace Tables

variable {m : Ir.Module} {o : LowerOptions} {s : State} (tables : Tables m o s)
include tables

/-- The functions of the source keep their places. -/
theorem function {k : Nat} {name : String} {ret : Llvm.Ty}
    (at_k : (o.functionsOf m)[k]? = some (name, ret)) :
    ∃ g, s.functions[k]? = some g ∧ g.ret = ret := by
  obtain ⟨made, all, _⟩ := tables.functions
  have there : (s.functions.toList.map fun g => (g.name, g.ret))[k]? = some (name, ret) := by
    rw [all, List.getElem?_append_left (List.getElem?_eq_some_iff.mp at_k).1, at_k]
  rw [List.getElem?_map, Option.map_eq_some_iff] at there
  obtain ⟨g, found, same⟩ := there
  exact ⟨g, (Array.getElem?_toList ..).symm.trans found, (Prod.mk.inj same).2⟩

/-- The global variables of the source keep their places. -/
theorem global {k : Nat} {name : String} {ty : Llvm.Ty}
    (at_k : (globalsOf m)[k]? = some (name, ty)) :
    ∃ g, s.globals[k]? = some g ∧ g.init.ty = ty := by
  obtain ⟨texts, all, _⟩ := tables.globals
  have there : (s.globals.toList.map fun g => (g.name, g.init.ty))[k]? = some (name, ty) := by
    rw [all, List.getElem?_append_left (List.getElem?_eq_some_iff.mp at_k).1, at_k]
  rw [List.getElem?_map, Option.map_eq_some_iff] at there
  obtain ⟨g, found, same⟩ := there
  exact ⟨g, (Array.getElem?_toList ..).symm.trans found, (Prod.mk.inj same).2⟩

/-- What is found by a name has it. -/
theorem found {name n : String} {i : Nat} (known : s.declared.find? (·.1 == name) = some (n, i)) :
    ∃ g, s.functions[i]? = some g ∧ g.name = name := by
  have listed := List.mem_of_find?_eq_some known
  have same : n = name := by simpa using List.find?_some known
  rw [tables.declared, List.mem_reverse, List.mem_iff_getElem?] at listed
  obtain ⟨k, at_k⟩ := listed
  rw [List.getElem?_zipIdx, Option.map_eq_some_iff] at at_k
  obtain ⟨n', at_k, pair⟩ := at_k
  rw [List.getElem?_map, Option.map_eq_some_iff] at at_k
  obtain ⟨g, there, named⟩ := at_k
  obtain ⟨rfl, rfl⟩ := Prod.mk.inj pair
  rw [Nat.zero_add]
  exact ⟨g, (Array.getElem?_toList ..).symm.trans there, named.trans same⟩

/-- What is not found by a name is not there. -/
theorem missing {name : String} (unknown : s.declared.find? (·.1 == name) = none) :
    name ∉ s.functions.toList.map (·.name) := by
  intro member
  obtain ⟨k, at_k⟩ := List.mem_iff_getElem?.mp member
  have listed : (name, k) ∈ s.declared := by
    rw [tables.declared, List.mem_reverse, List.mem_iff_getElem?]
    exact ⟨k, by rw [List.getElem?_zipIdx, at_k, Option.map_some, Nat.zero_add]⟩
  simpa using List.find?_eq_none.mp unknown _ listed

/-- A function of the runtime is declared under a name that is not there. -/
theorem declare {name : String} {ret : Llvm.Ty} (listed : (name, ret) ∈ runtime)
    (unknown : s.declared.find? (·.1 == name) = none) (g : Llvm.Func) (named : g.name = name)
    (gives : g.ret = ret) :
    Tables m o { s with
      functions := s.functions.push g
      declared := (name, s.functions.size) :: s.declared } := by
  have fresh := tables.missing unknown
  refine ⟨tables.globals, ?_, ?_⟩
  · obtain ⟨made, all, apart, runtimes, outside⟩ := tables.functions
    have names : (o.functionsOf m ++ made).map (·.1) = s.functions.toList.map (·.name) := by
      rw [← all, List.map_map]
      rfl
    rw [← names, List.map_append, List.mem_append, not_or] at fresh
    refine ⟨made ++ [(name, ret)], ?_, ?_, ?_, ?_⟩
    · rw [Array.toList_push, List.map_append, all, List.append_assoc, List.map_singleton, named, gives]
    · rw [List.map_append, List.map_singleton, List.nodup_append]
      refine ⟨apart, by simp, ?_⟩
      rintro a old b new rfl
      obtain rfl := List.mem_singleton.mp new
      exact fresh.2 old
    · exact List.append_subset.mpr ⟨runtimes, List.cons_subset.mpr ⟨listed, List.nil_subset _⟩⟩
    · intro e member
      rcases List.mem_append.mp member with old | new
      · exact outside e old
      · rw [List.mem_singleton.mp new]
        exact fresh.1
  · simp only [Array.toList_push, List.map_append, List.map_singleton, named, List.zipIdx_append,
      List.reverse_append, tables.declared]
    simp

/-- A function is changed, but neither its name nor what it gives. -/
theorem modify (k : Nat) {g : Llvm.Func → Llvm.Func} (name : ∀ a, (g a).name = a.name)
    (ret : ∀ a, (g a).ret = a.ret) : Tables m o { s with functions := s.functions.modify k g } := by
  refine ⟨tables.globals, ?_, ?_⟩
  · dsimp only
    rw [Array.toList_modify, map_modify fun a => by rw [name, ret]]
    exact tables.functions
  · dsimp only
    rw [Array.toList_modify, map_modify name]
    exact tables.declared

/-- A text is added. -/
theorem text (name : String) (bytes : List UInt8) (g : Nat) :
    Tables m o { s with
      globals := s.globals.push ⟨textName s.texts.length, .text bytes⟩
      texts := (name, g) :: s.texts } := by
  refine ⟨?_, tables.functions, tables.declared⟩
  obtain ⟨texts, all, numbered⟩ := tables.globals
  refine ⟨texts ++ [(textName s.texts.length, .bytes bytes.length)], ?_, ?_⟩
  · rw [Array.toList_push, List.map_append, all, List.append_assoc]
    rfl
  · rw [List.map_append, numbered, List.length_cons, List.range_succ, List.map_append]
    rfl

/-- A function of the runtime gives what its name says, if no function of the source has the name and
gives something else. -/
theorem conversion_ret {i : Nat} {g : Llvm.Func} (there : s.functions[i]? = some g) {ret : Llvm.Ty}
    (listed : (g.name, ret) ∈ conversions)
    (honest : ∀ e ∈ o.functionsOf m, ∀ t, (e.1, t) ∈ conversions → e.2 = t) : g.ret = ret := by
  obtain ⟨made, all, _, runtimes, _⟩ := tables.functions
  have member : (g.name, g.ret) ∈ o.functionsOf m ++ made := by
    rw [← all]
    exact List.mem_map.mpr ⟨g, Array.mem_toList_iff.mpr (Array.mem_of_getElem? there), rfl⟩
  rcases List.mem_append.mp member with source | new
  · exact honest _ source ret listed
  · rcases List.mem_cons.mp (runtimes new) with panics | converts
    · exact absurd ((Prod.mk.inj panics).1 ▸ listed) conversion_ne_panic
    · exact conversion_type converts listed

end Tables

end Lowering

end TieredEngine.Ship
