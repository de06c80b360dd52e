import Mathlib.Data.List.Nodup
import TieredEngine.Proofs.Ship.Lowering.Whole

/-!
Symbols of a lowered module. The names that lowering makes up itself differ from each other, and functions
are looked up before they are declared; nothing else is compared. So two symbols are equal exactly where
a global variable of the source has the name of something else, where something of the source has the
name of a numbered text, or where a function has the name that a wrapped entry is given.
-/
namespace TieredEngine.Llvm

/-- Names of all that a module defines or declares. -/
def Module.symbols (l : Module) : List String :=
  l.globals.toList.map (·.name) ++ l.functions.toList.map (·.name)

end TieredEngine.Llvm

namespace TieredEngine.Ship
open TieredEngine TieredEngine.Llvm Lowering

namespace Lowering

theorem textName_toList (k : Nat) : (textName k).toList = ".str.".toList ++ k.repr.toList := by
  simp [textName, toString]

theorem textName_inj {j k : Nat} (same : textName j = textName k) : j = k := by
  have chars := congrArg String.toList same
  rw [textName_toList, textName_toList] at chars
  exact repr_inj (List.append_cancel_left chars)

/-- No text is named like a function of the runtime or like the wrapper. -/
theorem textName_apart (k : Nat) : textName k ∉ runtime.map (·.1) ∧ textName k ≠ "main" := by
  have dot : (textName k).toList.head? = some '.' := by
    rw [textName_toList]
    rfl
  have letters : ∀ n ∈ "main" :: runtime.map (·.1), n.toList.head? ≠ some '.' := by decide +kernel
  exact ⟨fun member => letters _ (List.mem_cons_of_mem _ member) dot, fun same =>
    letters _ List.mem_cons_self (same ▸ dot)⟩

end Lowering

section

variable {m : Ir.Module} (accepted : m.defects = .ok [])
include accepted

/-- The functions of the source keep different names, unless one of them has the name that another one is
given. -/
theorem nameOf_nodup (o : LowerOptions) : (m.functions.toList.map o.nameOf).Nodup ↔
    ∀ f ∈ m.functions, o.Renames f → renamedMain ∉ m.functions.toList.map (·.name) := by
  constructor
  · intro apart f member renames taken
    obtain ⟨g, listed, named⟩ := List.mem_map.mp taken
    have kept : o.nameOf g = renamedMain := by
      rw [LowerOptions.nameOf_kept, named]
      rintro ⟨_, _, _, main⟩
      exact absurd (named.symm.trans main) (by decide)
    have equal := List.inj_on_of_nodup_map apart (Array.mem_toList_iff.mpr member) listed
      ((LowerOptions.nameOf_renamed renames).trans kept.symm)
    obtain ⟨_, _, _, main⟩ := renames
    exact absurd (named.symm.trans (equal ▸ main)) (by decide)
  · intro free
    refine List.Nodup.map_on (fun f listed g listed' same => ?_)
      (Ir.Module.accepted_iff.mp accepted).2.1.of_map
    have inside := Array.mem_toList_iff.mp listed
    have inside' := Array.mem_toList_iff.mp listed'
    refine Ir.Module.eq_of_name accepted inside inside' ?_
    -- a renamed function was called like the wrapper, and nothing else has the name it is given
    by_cases renames : o.Renames f <;> by_cases renames' : o.Renames g
    · obtain ⟨_, _, _, main⟩ := renames
      obtain ⟨_, _, _, main'⟩ := renames'
      exact main.trans main'.symm
    · rw [LowerOptions.nameOf_renamed renames, LowerOptions.nameOf_kept renames'] at same
      exact absurd (same ▸ List.mem_map_of_mem listed') (free f inside renames)
    · rw [LowerOptions.nameOf_kept renames, LowerOptions.nameOf_renamed renames'] at same
      exact absurd (same ▸ List.mem_map_of_mem listed) (free g inside' renames')
    · rwa [LowerOptions.nameOf_kept renames, LowerOptions.nameOf_kept renames'] at same

end

def globalNames (m : Ir.Module) : List String := (globalsOf m).map (·.1)

/-- The names of a lowered module: those of the source, the numbered texts, and functions that are made,
all of whose names are new. -/
theorem names_of_lower {m : Ir.Module} (accepted : m.defects = .ok []) {o : LowerOptions}
    {l : Llvm.Module} (ran : lower m o = .ok l) : ∃ texts made,
      l.globals.toList.map (·.name) = globalNames m ++ (List.range texts).map textName ∧
      l.functions.toList.map (·.name) = m.functions.toList.map o.nameOf ++ made ∧
      (∀ n ∈ made, n ∈ runtime.map (·.1) ∨ n = "main" ∧ o.wrapped.isSome = true) ∧
      made.Nodup ∧ ∀ n ∈ made, n ∉ m.functions.toList.map o.nameOf := by
  have anything : ∀ {P : Prop}, ¬ True → P := fun never => absurd trivial never
  obtain ⟨t, ⟨s, tables, sameGlobals, ended⟩, globals, functions⟩ :=
    (@lower_outcome (fun _ => True) m o accepted anything anything anything anything).1 l ran
  obtain ⟨texts, held, numbered⟩ := tables.globals
  obtain ⟨made, all, apart, runtimes, outside⟩ := tables.functions
  have source : (o.functionsOf m).map (·.1) = m.functions.toList.map o.nameOf := by
    rw [LowerOptions.functionsOf, List.map_map]
    rfl
  have names : s.functions.toList.map (·.name) = m.functions.toList.map o.nameOf ++ made.map (·.1) := by
    rw [← source, ← List.map_append, ← all, List.map_map]
    rfl
  have listed : ∀ n ∈ made.map (·.1), n ∈ runtime.map (·.1) := fun n member =>
    List.map_subset _ runtimes member
  have new : ∀ n ∈ made.map (·.1), n ∉ m.functions.toList.map o.nameOf := by
    intro n member
    obtain ⟨e, inside, rfl⟩ := List.mem_map.mp member
    exact source ▸ outside e inside
  have inGlobals : l.globals.toList.map (·.name) =
      globalNames m ++ (List.range s.texts.length).map textName := by
    rw [globals, sameGlobals, globalNames, ← numbered, ← List.map_append, ← held, List.map_map]
    rfl
  rcases ended with ⟨none, same⟩ | ⟨some, free, g, named, pushed⟩
  · refine ⟨_, made.map (·.1), inGlobals, ?_, fun n member => .inl (listed n member), apart, new⟩
    rw [functions, same, names]
  · refine ⟨_, made.map (·.1) ++ ["main"], inGlobals, ?_⟩
    rw [functions, pushed, Array.toList_push, List.map_append, names, List.append_assoc]
    rw [names, List.mem_append, not_or] at free
    refine ⟨by rw [List.map_singleton, named], ?_, ?_, ?_⟩
    · intro n member
      rcases List.mem_append.mp member with old | last
      · exact .inl (listed n old)
      · exact .inr ⟨List.mem_singleton.mp last, some⟩
    · rw [List.nodup_append]
      refine ⟨apart, by simp, ?_⟩
      rintro a old b last rfl
      obtain rfl := List.mem_singleton.mp last
      exact free.2 old
    · intro n member
      rcases List.mem_append.mp member with old | last
      · exact new n old
      · rw [List.mem_singleton.mp last]
        exact free.1

/-- Symbols of a lowered module are unique but for four kinds of clash: two global variables have one
name; a global variable has the name of a function, one that is made included; something of the source has
the name of a numbered text; or a function has the name that another one is given because it is wrapped. -/
theorem symbols_unique_iff {m : Ir.Module} (accepted : m.defects = .ok []) {o : LowerOptions}
    {l : Llvm.Module} (ran : lower m o = .ok l) : ∃ texts made,
      l.globals.toList.map (·.name) = globalNames m ++ (List.range texts).map textName ∧
      l.functions.toList.map (·.name) = m.functions.toList.map o.nameOf ++ made ∧
      (∀ n ∈ made, n ∈ runtime.map (·.1) ∨ n = "main" ∧ o.wrapped.isSome = true) ∧
      (l.symbols.Nodup ↔ (globalNames m).Nodup ∧
        (∀ n ∈ globalNames m, n ∉ l.functions.toList.map (·.name)) ∧
        (∀ k < texts, textName k ∉ globalNames m ∧ textName k ∉ m.functions.toList.map o.nameOf) ∧
        ∀ f ∈ m.functions, o.Renames f → renamedMain ∉ m.functions.toList.map (·.name)) := by
  obtain ⟨texts, made, globals, functions, kinds, apart, new⟩ := names_of_lower accepted ran
  refine ⟨texts, made, globals, functions, kinds, ?_⟩
  have numbered : ((List.range texts).map textName).Nodup :=
    List.nodup_range.map fun _ _ => textName_inj
  have unlike : ∀ k, textName k ∉ made := by
    intro k member
    obtain ⟨notRuntime, notMain⟩ := textName_apart k
    rcases kinds _ member with listed | ⟨main, _⟩
    · exact notRuntime listed
    · exact notMain main
  have own : (m.functions.toList.map o.nameOf ++ made).Nodup ↔
      ∀ f ∈ m.functions, o.Renames f → renamedMain ∉ m.functions.toList.map (·.name) := by
    rw [← nameOf_nodup accepted o, List.nodup_append]
    exact ⟨And.left, fun source => ⟨source, apart, fun a inside b member same =>
      new b member (same ▸ inside)⟩⟩
  have text : ∀ {k}, k < texts → textName k ∈ (List.range texts).map textName := fun below =>
    List.mem_map_of_mem (List.mem_range.mpr below)
  rw [Llvm.Module.symbols, globals, functions, List.nodup_append, List.nodup_append, own]
  constructor
  · rintro ⟨⟨once, -, fromTexts⟩, renamed, fromFunctions⟩
    refine ⟨once, fun n held listed => ?_, fun k below => ⟨fun held => ?_, fun listed => ?_⟩, renamed⟩
    · exact fromFunctions n (List.mem_append_left _ held) n listed rfl
    · exact fromTexts _ held _ (text below) rfl
    · exact fromFunctions _ (List.mem_append_right _ (text below)) _ (List.mem_append_left _ listed) rfl
  · rintro ⟨once, fromFunctions, fromTexts, renamed⟩
    refine ⟨⟨once, numbered, ?_⟩, renamed, ?_⟩
    · rintro a held b member rfl
      obtain ⟨k, below, rfl⟩ := List.mem_map.mp member
      exact (fromTexts k (List.mem_range.mp below)).1 held
    · rintro a held b listed rfl
      rcases List.mem_append.mp held with source | member
      · exact fromFunctions a source listed
      · obtain ⟨k, below, rfl⟩ := List.mem_map.mp member
        rcases List.mem_append.mp listed with source | extra
        · exact (fromTexts k (List.mem_range.mp below)).2 source
        · exact unlike k extra

/-- A program with a global variable that needs the runtime and a text, and is wrapped. -/
def dividing : Ir.Module := {
  globals := #[some { id := ⟨0⟩, name := "total", ty := .i32, init := .ofInt .i32 6 }]
  functions := #[{
    id := ⟨0⟩, name := "main", sig := { ret := .i32 }, regTypes := #[.i32, .i32]
    blocks := #[some {
      insts := [{ op := .loadGlobal, dest := ⟨0⟩, ty := .i32, global := ⟨0⟩ },
                { op := .div, dest := ⟨1⟩, ty := .i32, args := [⟨0⟩, ⟨0⟩] }]
      term := .ret (some ⟨1⟩) }] }] }

/-- Its symbols are unique. -/
theorem symbols_unique_iff_dividing : ∃ l,
    lower dividing { wrapped := dividing.functions[0]? } = .ok l ∧ l.symbols.Nodup := by
  have names : (lower dividing { wrapped := dividing.functions[0]? }).toOption.map
      (fun l => l.functions.toList.map (·.name)) = some ["_mir_main", "mirrt_panic", "main"] := by
    decide +kernel
  obtain ⟨l, lowered, names⟩ := Option.map_eq_some_iff.mp names
  have ran := ok_of_toOption lowered
  obtain ⟨texts, made, -, -, -, unique⟩ := symbols_unique_iff (by decide +kernel) ran
  refine ⟨l, ran, unique.mpr ⟨by decide, ?_, fun k _ => ?_, fun _ _ _ => by decide⟩⟩
  · rw [names]
    decide
  · have other : ∀ n ∈ ["total", "_mir_main"], n.toList.head? ≠ some '.' := by decide
    have dot : (textName k).toList.head? = some '.' := by
      rw [textName_toList]
      rfl
    have given : dividing.functions.toList.map
        ({ wrapped := dividing.functions[0]? } : LowerOptions).nameOf = ["_mir_main"] := by decide
    rw [given]
    exact ⟨fun member => other _ (List.mem_append_left ["_mir_main"] member) dot,
      fun member => other _ (List.mem_append_right ["total"] member) dot⟩

/-- A program that has a function with the name that its entry is given. -/
def twoMains : Ir.Module := {
  functions := #[
    { id := ⟨0⟩, name := "main", blocks := #[some { term := .ret none }] },
    { id := ⟨1⟩, name := "_mir_main", blocks := #[some { term := .ret none }] }] }

/-- Wrapping the entry gives it the name of the other function. -/
theorem symbols_clash_twoMains : twoMains.defects = .ok [] ∧ ∃ l,
    lower twoMains { wrapped := twoMains.functions[0]? } = .ok l ∧
    l.symbols = ["_mir_main", "_mir_main", "main"] ∧ ¬ l.symbols.Nodup := by
  have names : (lower twoMains { wrapped := twoMains.functions[0]? }).toOption.map (·.symbols) =
      some ["_mir_main", "_mir_main", "main"] := by decide +kernel
  obtain ⟨l, lowered, names⟩ := Option.map_eq_some_iff.mp names
  exact ⟨by decide +kernel, l, ok_of_toOption lowered, names, by rw [names]; decide⟩

end TieredEngine.Ship
