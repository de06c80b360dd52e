import TieredEngine.Proofs.Ir.Structure
import TieredEngine.Ship.TreeShake

/-!
What tree shaking keeps. The search for used functions ends with a closed set: all that a marked
function calls, loads or stores is marked too. Every function gets on the list of functions to look
at once, so the search is never cut short. Nothing is marked without a chain of calls that leads there
from the entry, so the marks are exactly what the entry can use. What is marked keeps its order: its
new place is the number of marked entries before it.
-/
namespace TieredEngine.Ship.TreeShake
open TieredEngine.Ir

/-- The place a marked entry moves to. -/
def place (live : Array Bool) (i : Nat) : Nat := (live.toList.take i).count true

theorem place_le (live : Array Bool) (i : Nat) : place live i ≤ i := by
  have counted : (live.toList.take i).count true ≤ (live.toList.take i).length :=
    List.count_le_length
  rw [List.length_take] at counted
  unfold place
  omega

/-- The table of new numbers gives each marked entry its place. -/
theorem numbering_of_marked {live : Array Bool} {i : Nat} (marked : live[i]? = some true) :
    (numbering live)[i]? = some (place live i) := by
  -- the fold has numbered the entries before, the first of them with `n`
  have numbers : ∀ (bits : List Bool) (table : Array Nat) (n : Nat),
      (bits.foldl (fun (acc : Array Nat × Nat) l =>
        if l then (acc.1.push acc.2, acc.2 + 1) else (acc.1.push 0, acc.2)) (table, n)).1.toList =
        table.toList ++ bits.mapIdx fun j l => if l then n + (bits.take j).count true else 0 := by
    intro bits
    induction bits with
    | nil => simp
    | cons l bits ih =>
      intro table n
      cases l with
      | false => simp [ih, List.mapIdx_cons]
      | true => simp [ih, List.mapIdx_cons, Nat.add_comm, Nat.add_left_comm]
  unfold numbering
  rw [← Array.getElem?_toList, ← Array.foldl_toList, numbers, Array.toList_empty, List.nil_append,
    List.getElem?_mapIdx, Array.getElem?_toList, marked]
  simp [place]

theorem length_marked_le {α : Type} (live : Array Bool) (xs : Array α) :
    (marked live xs).length ≤ xs.size := by
  have paired : (xs.toList.zip live.toList).length ≤ xs.size := by
    rw [List.length_zip]
    exact Nat.min_le_left _ _
  rw [marked, List.length_map]
  exact Nat.le_trans (List.length_filter_le _ _) paired

/-- A marked entry is found at its place among the marked ones. -/
theorem marked_place {α : Type} {live : Array Bool} {xs : Array α} (sizes : live.size = xs.size)
    {i : Nat} (isMarked : live[i]? = some true) :
    (marked live xs)[place live i]? = xs[i]? := by
  have found : ∀ (xs : List α) (bits : List Bool) (i : Nat), bits.length = xs.length →
      bits[i]? = some true →
      (((xs.zip bits).filter (·.2)).map (·.1))[(bits.take i).count true]? = xs[i]? := by
    intro xs
    induction xs with
    | nil =>
      intro bits i lengths bit
      simp_all
    | cons x xs ih =>
      intro bits i lengths bit
      cases bits with
      | nil => cases lengths
      | cons b bits =>
        cases i with
        | zero =>
          obtain rfl : b = true := by simpa using bit
          simp
        | succ i =>
          have rest := ih bits i (by simpa using lengths) (by simpa using bit)
          cases b <;> simpa using rest
  have here := found xs.toList live.toList i (by simpa using sizes) (by simpa using isMarked)
  exact here.trans Array.getElem?_toList

/-- What stands at a place was moved there. -/
theorem place_of_marked {α : Type} {live : Array Bool} {xs : Array α} (sizes : live.size = xs.size)
    {j : Nat} {x : α} (there : (marked live xs)[j]? = some x) :
    ∃ i, live[i]? = some true ∧ place live i = j ∧ xs[i]? = some x := by
  have origin : ∀ (xs : List α) (bits : List Bool) (j : Nat), bits.length = xs.length →
      (((xs.zip bits).filter (·.2)).map (·.1))[j]? = some x →
      ∃ i, bits[i]? = some true ∧ (bits.take i).count true = j ∧ xs[i]? = some x := by
    intro xs
    induction xs with
    | nil =>
      intro bits j _ there
      simp at there
    | cons y xs ih =>
      intro bits j lengths there
      cases bits with
      | nil => cases lengths
      | cons b bits =>
        have shorter : bits.length = xs.length := by simpa using lengths
        cases b with
        | false =>
          obtain ⟨i, bit, counted, at_i⟩ := ih bits j shorter (by simpa using there)
          exact ⟨i + 1, by simpa using bit, by simpa using counted, by simpa using at_i⟩
        | true =>
          cases j with
          | zero => exact ⟨0, rfl, rfl, by simpa using there⟩
          | succ j =>
            obtain ⟨i, bit, counted, at_i⟩ := ih bits j shorter (by simpa using there)
            exact ⟨i + 1, by simpa using bit, by simpa using counted, by simpa using at_i⟩
  obtain ⟨i, bit, counted, at_i⟩ := origin xs.toList live.toList j (by simpa using sizes) there
  exact ⟨i, by simpa using bit, counted, by simpa using at_i⟩

theorem place_inj {live : Array Bool} {i j : Nat} (first : live[i]? = some true)
    (second : live[j]? = some true) (same : place live i = place live j) : i = j := by
  obtain ⟨boundI, _⟩ := Array.getElem?_eq_some_iff.mp first
  obtain ⟨boundJ, _⟩ := Array.getElem?_eq_some_iff.mp second
  have atI := marked_place (show live.size = (Array.range live.size).size by simp) first
  have atJ := marked_place (show live.size = (Array.range live.size).size by simp) second
  rw [same, atJ] at atI
  simpa [boundI, boundJ] using atI.symm

namespace Live

def HasFunction (live : Live) (id : FuncId) : Prop := live.functions[id.num]? = some true

def HasGlobal (live : Live) (id : GlobalId) : Prop := live.globals[id.num]? = some true

/-- The new number of a function. -/
def function (live : Live) (id : FuncId) : FuncId := ⟨UInt32.ofNat (place live.functions id.num)⟩

/-- The new number of a global. -/
def global (live : Live) (id : GlobalId) : GlobalId := ⟨UInt32.ofNat (place live.globals id.num)⟩

theorem num_function (live : Live) (id : FuncId) :
    (live.function id).num = place live.functions id.num := by
  have small : place live.functions id.num < 2 ^ 32 :=
    Nat.lt_of_le_of_lt (place_le live.functions id.num) id.index.toNat_lt
  simpa [function, FuncId.num] using small

theorem num_global (live : Live) (id : GlobalId) :
    (live.global id).num = place live.globals id.num := by
  have small : place live.globals id.num < 2 ^ 32 :=
    Nat.lt_of_le_of_lt (place_le live.globals id.num) id.index.toNat_lt
  simpa [global, GlobalId.num] using small

/-- All that the instructions name is marked. -/
structure Covers (live : Live) (is : List Inst) : Prop where
  callees : ∀ i ∈ is, i.op = .call → live.HasFunction i.callee
  globals : ∀ i ∈ is, i.op = .loadGlobal ∨ i.op = .storeGlobal → live.HasGlobal i.global

/-- How many functions are not marked. -/
def unmarked (live : Live) : Nat := live.functions.count false

end Live

/-- What marking callees does: it marks more functions and lists exactly those, at no cost to the
functions that are unmarked or listed. -/
structure Grows (s s' : Live × List FuncId) : Prop where
  size : s'.1.functions.size = s.1.functions.size
  globals : s'.1.globals = s.1.globals
  kept : ∀ id, s.1.HasFunction id → s'.1.HasFunction id
  work : ∀ id ∈ s.2, id ∈ s'.2
  fresh : ∀ id, s'.1.HasFunction id → s.1.HasFunction id ∨ id ∈ s'.2
  listed : ∀ id ∈ s'.2, id ∈ s.2 ∨ s'.1.HasFunction id
  cost : s'.1.unmarked + s'.2.length = s.1.unmarked + s.2.length

theorem Grows.refl (s : Live × List FuncId) : Grows s s :=
  ⟨rfl, rfl, fun _ => id, fun _ => id, fun _ => .inl, fun _ => .inl, rfl⟩

theorem Grows.trans {s t u : Live × List FuncId} (first : Grows s t) (second : Grows t u) :
    Grows s u where
  size := second.size.trans first.size
  globals := second.globals.trans first.globals
  kept id marked := second.kept id (first.kept id marked)
  work id member := second.work id (first.work id member)
  fresh id marked := by
    rcases second.fresh id marked with early | late
    · exact (first.fresh id early).imp_right (second.work id)
    · exact .inr late
  listed id member := by
    rcases second.listed id member with early | late
    · exact (first.listed id early).imp_right (second.kept id)
    · exact .inr late
  cost := second.cost.trans first.cost

theorem markCallee_grows (s : Live × List FuncId) (id : FuncId) : Grows s (markCallee s id) := by
  unfold markCallee
  split
  · next unseen =>
    obtain ⟨bound, isFalse⟩ := Array.getElem?_eq_some_iff.mp unseen
    have has : ∀ x, ({ s.1 with functions := s.1.functions.setIfInBounds id.num true } :
        Live).HasFunction x ↔ x = id ∨ s.1.HasFunction x := by
      intro x
      unfold Live.HasFunction
      rw [Array.getElem?_setIfInBounds]
      by_cases same : x = id
      · simp [same, bound]
      · have different : ¬ id.num = x.num := fun equal => same (FuncId.num_inj.mp equal.symm)
        simp [same, different]
    refine ⟨by simp, rfl, fun x marked => (has x).mpr (.inr marked), fun x member => by simp [member],
      fun x marked => ?_, fun x member => ?_, ?_⟩
    · rcases (has x).mp marked with rfl | early
      · exact .inr (by simp)
      · exact .inl early
    · rcases List.mem_cons.mp member with rfl | early
      · exact .inr ((has _).mpr (.inl rfl))
      · exact .inl early
    · have positive : 0 < s.1.functions.count false :=
        Array.count_pos_iff.mpr (isFalse ▸ Array.getElem_mem bound)
      simp only [Live.unmarked, List.length_cons, Array.setIfInBounds, bound, dif_pos]
      rw [Array.count_set]
      simp only [isFalse]
      simp
      omega
  · exact .refl s

theorem marks_callee {s : Live × List FuncId} {id : FuncId} (inside : id.num < s.1.functions.size) :
    (markCallee s id).1.HasFunction id := by
  unfold markCallee
  split
  · simp [Live.HasFunction, inside]
  · next seen =>
    unfold Live.HasFunction
    rw [Array.getElem?_eq_getElem inside] at seen ⊢
    simpa using seen

theorem markCallees_grows (ids : List FuncId) (s : Live × List FuncId) :
    Grows s (ids.foldl markCallee s) ∧ ∀ id ∈ ids, id.num < s.1.functions.size →
      (ids.foldl markCallee s).1.HasFunction id := by
  induction ids generalizing s with
  | nil => exact ⟨.refl s, by simp⟩
  | cons id ids ih =>
    have first := markCallee_grows s id
    obtain ⟨rest, each⟩ := ih (markCallee s id)
    refine ⟨first.trans rest, fun x member inside => ?_⟩
    rcases List.mem_cons.mp member with rfl | later
    · exact rest.kept _ (marks_callee inside)
    · exact each x later (first.size ▸ inside)

theorem markGlobals (ids : List GlobalId) (globals : Array Bool) :
    (ids.foldl (fun a g => a.setIfInBounds g.num true) globals).size = globals.size ∧
    (∀ n : Nat, globals[n]? = some true →
      (ids.foldl (fun a g => a.setIfInBounds g.num true) globals)[n]? = some true) ∧
    ∀ g ∈ ids, g.num < globals.size →
      (ids.foldl (fun a g => a.setIfInBounds g.num true) globals)[g.num]? = some true := by
  induction ids generalizing globals with
  | nil => simp
  | cons id ids ih =>
    obtain ⟨size, kept, each⟩ := ih (globals.setIfInBounds id.num true)
    rw [Array.size_setIfInBounds] at size each
    refine ⟨size, fun n marked => kept n ?_, fun g member inside => ?_⟩
    · rw [Array.getElem?_setIfInBounds]
      obtain ⟨bound, isTrue⟩ := Array.getElem?_eq_some_iff.mp marked
      split
      · next same => simp [same, bound]
      · exact marked
    · rcases List.mem_cons.mp member with rfl | later
      · exact kept _ (by simp [inside])
      · exact each g later inside

theorem instsOf_eq_ok {f : Function} {is : List Inst} :
    instsOf f = .ok is ↔ ∃ bs, f.allBlocks = .ok bs ∧ bs.flatMap (·.insts) = is := by
  unfold instsOf
  rw [bind_eq_ok]
  simp [pure, Except.pure]

/-- The functions of an accepted module have all their blocks, and what their instructions name is
there. -/
theorem instsOf_of_accepted {m : Module} (accepted : m.defects = .ok []) {id : FuncId}
    {f : Function} (found : m.function? id = some f) :
    ∃ is, instsOf f = .ok is ∧ ∀ i ∈ is,
      (i.op = .call → i.callee.num < m.functions.size) ∧
      (i.op = .loadGlobal ∨ i.op = .storeGlobal → i.global.num < m.globals.size) := by
  obtain ⟨clean, _⟩ := Module.function_of_accepted accepted found
  cases body : f.isExternal with
  | true =>
    have none : f.allBlocks = .ok [] := Function.allBlocks_eq_ok.mpr (by
      simpa [Function.isExternal] using body)
    exact ⟨[], instsOf_eq_ok.mpr ⟨[], none, rfl⟩, by simp⟩
  | false =>
    obtain ⟨numbered, _⟩ := Function.wellNumbered_of_defects clean body
    obtain ⟨bs, all⟩ := numbered.allBlocks
    refine ⟨_, instsOf_eq_ok.mpr ⟨bs, all, rfl⟩, fun i member => ?_⟩
    obtain ⟨b, listed, inside⟩ := List.mem_flatMap.mp member
    exact Module.names_of_accepted accepted found (numbered.block?_of_mem all listed) inside

/-- A stage of the search: what is listed is marked, and all that a marked function names is marked
unless the function is still listed. -/
structure Frontier (m : Module) (live : Live) (work : List FuncId) : Prop where
  functions : live.functions.size = m.functions.size
  globals : live.globals.size = m.globals.size
  listed : ∀ id ∈ work, live.HasFunction id
  covered : ∀ id f is, live.HasFunction id → m.function? id = some f → instsOf f = .ok is →
    id ∈ work ∨ live.Covers is

/-- Looking at one function keeps the search consistent, and takes one function off the list for
good. -/
theorem Frontier.step {m : Module} (accepted : m.defects = .ok []) {live : Live} {id : FuncId}
    {rest : List FuncId} (frontier : Frontier m live (id :: rest)) {f : Function} {is : List Inst}
    (found : m.function? id = some f) (insts : instsOf f = .ok is) {next : Live × List FuncId}
    (looked : (callees is).foldl markCallee
      ({ live with
        globals := (globalsUsed is).foldl (fun a g => a.setIfInBounds g.num true) live.globals },
        rest) = next) :
    Frontier m next.1 next.2 ∧ next.1.unmarked + next.2.length = live.unmarked + rest.length ∧
      ∀ x, live.HasFunction x → next.1.HasFunction x := by
  obtain ⟨is', insts', named⟩ := instsOf_of_accepted accepted found
  cases insts.symm.trans insts'
  obtain ⟨size, kept, each⟩ := markGlobals (globalsUsed is) live.globals
  obtain ⟨grows, marked⟩ := markCallees_grows (callees is) ({ live with
    globals := (globalsUsed is).foldl (fun a g => a.setIfInBounds g.num true) live.globals }, rest)
  rw [looked] at grows marked
  have keeps : ∀ {js}, live.Covers js → next.1.Covers js := by
    intro js covers
    refine ⟨fun i member op => grows.kept _ (covers.callees i member op), fun i member op => ?_⟩
    unfold Live.HasGlobal
    rw [grows.globals]
    exact kept _ (covers.globals i member op)
  have coversHere : next.1.Covers is := by
    refine ⟨fun i member op => ?_, fun i member op => ?_⟩
    · refine marked i.callee (List.mem_map.mpr ⟨i, List.mem_filter.mpr ⟨member, ?_⟩, rfl⟩) ?_
      · simp [op]
      · rw [frontier.functions]
        exact (named i member).1 op
    · unfold Live.HasGlobal
      rw [grows.globals]
      refine each i.global (List.mem_map.mpr ⟨i, List.mem_filter.mpr ⟨member, ?_⟩, rfl⟩) ?_
      · simpa using op
      · rw [frontier.globals]
        exact (named i member).2 op
  refine ⟨⟨?_, ?_, fun x member => ?_, fun x g js has there those => ?_⟩, grows.cost, grows.kept⟩
  · rw [grows.size, frontier.functions]
  · rw [grows.globals, size, frontier.globals]
  · rcases grows.listed x member with early | late
    · exact grows.kept x (frontier.listed x (by simp [early]))
    · exact late
  · rcases grows.fresh x has with early | late
    · rcases frontier.covered x g js early there those with listed | covers
      · rcases List.mem_cons.mp listed with rfl | later
        · cases found.symm.trans there
          cases insts.symm.trans those
          exact .inr coversHere
        · exact .inl (grows.work x later)
      · exact .inr (keeps covers)
    · exact .inl late

/-- The search ends with nothing left to look at: each step takes one function off what is unmarked
or listed. -/
theorem mark_closed {m : Module} (accepted : m.defects = .ok []) {fuel : Nat} {live : Live}
    {work : List FuncId} (frontier : Frontier m live work)
    (enough : live.unmarked + work.length < fuel) :
    ∃ closed, mark m fuel live work = .ok closed ∧ Frontier m closed [] ∧
      ∀ id, live.HasFunction id → closed.HasFunction id := by
  induction fuel generalizing live work with
  | zero => omega
  | succ fuel ih =>
    cases work with
    | nil => exact ⟨live, rfl, frontier, fun _ => id⟩
    | cons id rest =>
      have inside : id.num < m.functions.size := by
        rw [← frontier.functions]
        exact (Array.getElem?_eq_some_iff.mp (frontier.listed id (by simp))).1
      have found : m.function? id = some m.functions[id.num] := Array.getElem?_eq_getElem inside
      obtain ⟨is, insts, _⟩ := instsOf_of_accepted accepted found
      obtain ⟨next, cost, kept⟩ := frontier.step accepted found insts rfl
      rw [List.length_cons] at enough
      obtain ⟨closed, ended, done, later⟩ := ih next (by omega)
      refine ⟨closed, ?_, done, fun x has => later x (kept x has)⟩
      simp only [mark, found, insts]
      exact ended

/-- The marks that the search starts with. -/
def Live.start (m : Module) (entry : FuncId) : Live where
  functions := (Array.replicate m.functions.size false).setIfInBounds entry.num true
  globals := Array.replicate m.globals.size false

theorem Live.hasFunction_start {m : Module} {entry : FuncId} (inside : entry.num < m.functions.size)
    (id : FuncId) : (Live.start m entry).HasFunction id ↔ id = entry := by
  simp only [start, Live.HasFunction, Array.getElem?_setIfInBounds, Array.size_replicate,
    Array.getElem?_replicate]
  by_cases same : id = entry
  · simp [same, inside]
  · have different : ¬ entry.num = id.num := fun equal => same (FuncId.num_inj.mp equal.symm)
    simp [same, different]

theorem liveFrom_closed {m : Module} (accepted : m.defects = .ok []) {entry : FuncId} {f : Function}
    (found : m.function? entry = some f) :
    ∃ live, liveFrom m entry = .ok live ∧ Frontier m live [] ∧ live.HasFunction entry := by
  have inside : entry.num < m.functions.size := (Array.getElem?_eq_some_iff.mp found).1
  have has := Live.hasFunction_start inside
  have frontier : Frontier m (.start m entry) [entry] :=
    ⟨by simp [Live.start], by simp [Live.start],
      fun id listed => (has id).mpr (by simpa using listed),
      fun id _ _ marked _ _ => .inl (by simp [(has id).mp marked])⟩
  have few : (Live.start m entry).unmarked + 1 < m.functions.size + 1 := by
    have grows := markCallee_grows
      (⟨Array.replicate m.functions.size false, Array.replicate m.globals.size false⟩, []) entry
    have unseen : (Array.replicate m.functions.size false)[entry.num]? = some false := by
      simp [inside]
    have cost := grows.cost
    simp only [markCallee, unseen, List.length_cons, List.length_nil] at cost
    have all : Array.count false (Array.replicate m.functions.size false) = m.functions.size := by
      simp
    simp only [Live.unmarked, all] at cost
    simp only [Live.unmarked, Live.start]
    omega
  obtain ⟨live, ended, closed, kept⟩ := mark_closed accepted frontier few
  exact ⟨live, ended, closed, kept entry ((has entry).mpr rfl)⟩

/-- The function has the instruction, in any of its blocks. -/
def Contains (f : Function) (i : Inst) : Prop := ∃ b, some b ∈ f.blocks.toList ∧ i ∈ b.insts

/-- Calls lead from the entry to a function. -/
inductive Reaches (m : Module) (entry : FuncId) : FuncId → Prop where
  | entry : Reaches m entry entry
  | call {id : FuncId} {f : Function} {i : Inst} (reached : Reaches m entry id)
      (found : m.function? id = some f) (inside : Contains f i) (op : i.op = .call) :
      Reaches m entry i.callee

/-- A function that calls lead to loads or stores the global. -/
inductive Uses (m : Module) (entry : FuncId) : GlobalId → Prop where
  | access {id : FuncId} {f : Function} {i : Inst} (reached : Reaches m entry id)
      (found : m.function? id = some f) (inside : Contains f i)
      (op : i.op = .loadGlobal ∨ i.op = .storeGlobal) : Uses m entry i.global

theorem mem_of_instsOf {f : Function} {is : List Inst} (insts : instsOf f = .ok is) {i : Inst} :
    i ∈ is ↔ Contains f i := by
  obtain ⟨bs, all, rfl⟩ := instsOf_eq_ok.mp insts
  have blocks := Function.allBlocks_eq_ok.mp all
  simp only [Contains, blocks, List.mem_flatMap, List.mem_map, Option.some.injEq,
    exists_eq_right]

theorem marked_only {ids : List FuncId} {s : Live × List FuncId} {x : FuncId} :
    ((ids.foldl markCallee s).1.HasFunction x → s.1.HasFunction x ∨ x ∈ ids) ∧
      (x ∈ (ids.foldl markCallee s).2 → x ∈ s.2 ∨ x ∈ ids) := by
  induction ids generalizing s with
  | nil => exact ⟨.inl, .inl⟩
  | cons id ids ih =>
    have first : ((markCallee s id).1.HasFunction x → s.1.HasFunction x ∨ x = id) ∧
        (x ∈ (markCallee s id).2 → x ∈ s.2 ∨ x = id) := by
      unfold markCallee
      split
      · refine ⟨fun marked => ?_, fun listed => (List.mem_cons.mp listed).symm⟩
        unfold Live.HasFunction at marked
        rw [Array.getElem?_setIfInBounds] at marked
        split at marked
        · next same => exact .inr (FuncId.num_inj.mp same.symm)
        · exact .inl marked
      · exact ⟨.inl, .inl⟩
    have rest := @ih (markCallee s id)
    refine ⟨fun marked => ?_, fun listed => ?_⟩
    · rcases rest.1 marked with early | late
      · exact (first.1 early).imp_right fun same : x = id => same ▸ List.mem_cons_self
      · exact .inr (List.mem_cons_of_mem _ late)
    · rcases rest.2 listed with early | late
      · exact (first.2 early).imp_right fun same : x = id => same ▸ List.mem_cons_self
      · exact .inr (List.mem_cons_of_mem _ late)

theorem markedGlobals_only {ids : List GlobalId} {globals : Array Bool} {n : Nat}
    (marked : (ids.foldl (fun a g => a.setIfInBounds g.num true) globals)[n]? = some true) :
    globals[n]? = some true ∨ ∃ g ∈ ids, g.num = n := by
  induction ids generalizing globals with
  | nil => exact .inl marked
  | cons id ids ih =>
    rcases ih marked with early | ⟨g, member, same⟩
    · rw [Array.getElem?_setIfInBounds] at early
      split at early
      · next same => exact .inr ⟨id, List.mem_cons_self, same⟩
      · exact .inl early
    · exact .inr ⟨g, List.mem_cons_of_mem _ member, same⟩

/-- Nothing is marked or listed without a reason. -/
structure Sound (m : Module) (entry : FuncId) (live : Live) (work : List FuncId) : Prop where
  functions : ∀ id, live.HasFunction id → Reaches m entry id
  globals : ∀ g, live.HasGlobal g → Uses m entry g
  work : ∀ id ∈ work, Reaches m entry id

theorem Sound.step {m : Module} {entry id : FuncId} {live : Live} {rest : List FuncId}
    (sound : Sound m entry live (id :: rest)) {f : Function} {is : List Inst}
    (found : m.function? id = some f) (insts : instsOf f = .ok is) {next : Live × List FuncId}
    (looked : (callees is).foldl markCallee
      ({ live with
        globals := (globalsUsed is).foldl (fun a g => a.setIfInBounds g.num true) live.globals },
        rest) = next) : Sound m entry next.1 next.2 := by
  have here := sound.work id List.mem_cons_self
  have called : ∀ x ∈ callees is, Reaches m entry x := by
    intro x member
    obtain ⟨i, calls, rfl⟩ := List.mem_map.mp member
    obtain ⟨inside, op⟩ := List.mem_filter.mp calls
    exact .call here found ((mem_of_instsOf insts).mp inside) (by simpa using op)
  have accessed : ∀ g ∈ globalsUsed is, Uses m entry g := by
    intro g member
    obtain ⟨i, accesses, rfl⟩ := List.mem_map.mp member
    obtain ⟨inside, op⟩ := List.mem_filter.mp accesses
    exact .access here found ((mem_of_instsOf insts).mp inside) (by simpa using op)
  have same := (markCallees_grows (callees is) ({ live with
    globals := (globalsUsed is).foldl (fun a g => a.setIfInBounds g.num true) live.globals },
    rest)).1.globals
  subst looked
  refine ⟨fun x marked => ?_, fun g marked => ?_, fun x listed => ?_⟩
  · rcases marked_only.1 marked with early | late
    · exact sound.functions x early
    · exact called x late
  · unfold Live.HasGlobal at marked
    rw [same] at marked
    rcases markedGlobals_only marked with early | ⟨x, member, equal⟩
    · exact sound.globals g early
    · exact GlobalId.num_inj.mp equal ▸ accessed x member
  · rcases marked_only.2 listed with early | late
    · exact sound.work x (List.mem_cons_of_mem _ early)
    · exact called x late

theorem mark_sound {m : Module} {entry : FuncId} {fuel : Nat} {live last : Live}
    {work : List FuncId} (sound : Sound m entry live work)
    (ended : mark m fuel live work = .ok last) : Sound m entry last [] := by
  induction fuel generalizing live work with
  | zero =>
    cases ended
    exact ⟨sound.functions, sound.globals, by simp⟩
  | succ fuel ih =>
    cases work with
    | nil =>
      cases ended
      exact sound
    | cons id rest =>
      cases found : m.function? id with
      | none =>
        simp only [mark, found] at ended
        cases ended
      | some f =>
        simp only [mark, found] at ended
        obtain ⟨is, insts, ended⟩ := bind_eq_ok.mp ended
        exact ih (sound.step found insts rfl) ended

/-- The search marks exactly the functions that calls lead to and the globals that these access. -/
structure Exact (m : Module) (entry : FuncId) (live : Live) : Prop where
  functions : ∀ id, live.HasFunction id ↔ Reaches m entry id
  globals : ∀ g, live.HasGlobal g ↔ Uses m entry g

theorem liveFrom_exact {m : Module} (accepted : m.defects = .ok []) {entry : FuncId} {f : Function}
    (found : m.function? entry = some f) {live : Live} (searched : liveFrom m entry = .ok live)
    (closed : Frontier m live []) (kept : live.HasFunction entry) : Exact m entry live := by
  have inside : entry.num < m.functions.size := (Array.getElem?_eq_some_iff.mp found).1
  have sound : Sound m entry live [] := by
    refine mark_sound ⟨fun id marked => ?_, fun g marked => ?_, fun id listed => ?_⟩ searched
    · rw [(Live.hasFunction_start inside id).mp marked]
      exact .entry
    · simp [Live.HasGlobal, Array.getElem?_replicate] at marked
    · rw [List.mem_singleton.mp listed]
      exact .entry
  have covers : ∀ {id g}, live.HasFunction id → m.function? id = some g →
      ∃ is, instsOf g = .ok is ∧ live.Covers is := by
    intro id g has there
    obtain ⟨is, insts, _⟩ := instsOf_of_accepted accepted there
    exact ⟨is, insts, (closed.covered id g is has there insts).resolve_left (by simp)⟩
  have complete : ∀ id, Reaches m entry id → live.HasFunction id := by
    intro id reached
    induction reached with
    | entry => exact kept
    | call _ there contained op ih =>
      obtain ⟨is, insts, covers⟩ := covers ih there
      exact covers.callees _ ((mem_of_instsOf insts).mpr contained) op
  refine ⟨fun id => ⟨sound.functions id, complete id⟩, fun g => ⟨sound.globals g, ?_⟩⟩
  rintro ⟨reached, there, contained, op⟩
  obtain ⟨is, insts, covers⟩ := covers (complete _ reached) there
  exact covers.globals _ ((mem_of_instsOf insts).mpr contained) op

end TieredEngine.Ship.TreeShake
