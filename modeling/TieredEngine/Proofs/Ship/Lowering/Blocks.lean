import TieredEngine.Llvm.Text
import TieredEngine.Proofs.Except
import TieredEngine.Proofs.Modified
import TieredEngine.Ship.Lowering

/-!
The blocks that lowering writes. What it does to them is seen in four things: the names of the blocks,
the edges of their terminators, which of them are still open, and where phis stand. Most steps leave
all four as they are; lowering an instruction may also close the block it writes to and go on in a new
one, with edges between blocks of its own only.
-/
namespace TieredEngine.Llvm

/-- Blocks that a terminator can go to, once per way. -/
def Term.targets : Term → List BlockName
  | .br t => [t]
  | .condBr _ yes no => [yes, no]
  | .switch _ default cases => default :: cases.map (·.2)
  | .ret _ | .unreachable => []

def Block.targets (b : Block) : List BlockName := (b.term.map Term.targets).getD []

/-- Edges between blocks, by their names. -/
def edgesOf (blocks : List Block) : List (BlockName × BlockName) :=
  blocks.flatMap fun b => b.targets.map (b.name, ·)

/-- Blocks with an edge to a block, once per edge. -/
def predecessorsOf (blocks : List Block) (n : BlockName) : List BlockName :=
  ((edgesOf blocks).filter (·.2 == n)).map (·.1)

/-- What LLVM asks of the blocks of a function: their labels differ, each ends in a terminator, nothing
jumps to the first one, and each phi has an input for each edge into its block. The first block is the
one with the name that is given, or does nothing but go there. -/
structure WellFormed (entryName : BlockName) (blocks : List Block) : Prop where
  labels : (blocks.map (·.name.text)).Nodup
  terminated : ∀ b ∈ blocks, b.term.isSome = true
  first : ∃ b rest, blocks = b :: rest ∧ predecessorsOf blocks b.name = [] ∧
    (b.name = entryName ∨ b.name = .start ∧ b.term = some (.br entryName))
  phis : ∀ b ∈ blocks, ∀ i ∈ b.insts, ∀ t ins, i.op = .phi t ins →
    (ins.map (·.2)).Perm (predecessorsOf blocks b.name)

/-- A block that an operation needs on its way. -/
def BlockName.IsAux : BlockName → Prop
  | aux .. => True
  | _ => False

end TieredEngine.Llvm

namespace TieredEngine.Ship.Lowering
open TieredEngine TieredEngine.Llvm

/-- A computation that fails with a fault or changes the state. -/
abbrev Stateful (ε : Type) := StateT State (Except ε)

theorem run_bind {ε α β : Type} {x : Stateful ε α} {g : α → Stateful ε β} {s s' : State} {b : β} :
    (x >>= g) s = .ok (b, s') ↔ ∃ a t, x s = .ok (a, t) ∧ g a t = .ok (b, s') := by
  show (x s >>= fun p => g p.1 p.2) = _ ↔ _
  rw [bind_eq_ok]
  exact ⟨fun ⟨p, first, rest⟩ => ⟨p.1, p.2, first, rest⟩, fun ⟨a, t, first, rest⟩ =>
    ⟨(a, t), first, rest⟩⟩

theorem run_pure {ε α : Type} {a b : α} {s s' : State} :
    (pure a : Stateful ε α) s = .ok (b, s') ↔ b = a ∧ s' = s := by
  show Except.ok (a, s) = .ok (b, s') ↔ _
  rw [Except.ok.injEq, Prod.mk.injEq]
  exact ⟨fun ⟨h, h'⟩ => ⟨h.symm, h'.symm⟩, fun ⟨h, h'⟩ => ⟨h.symm, h'.symm⟩⟩

/-- A loop over a list that gathers results: what is kept by each step, with the members done and
those left, holds at the end. -/
theorem run_mapM {ε α β : Type} {g : α → Stateful ε β} {l : List α}
    (I : List α → List α → List β → State → Prop) {s s' : State} {ys : List β} (start : I [] l [] s)
    (step : ∀ done x rest ys t y t', I done (x :: rest) ys t → g x t = .ok (y, t') →
      I (done ++ [x]) rest (ys ++ [y]) t')
    (ran : l.mapM g s = .ok (ys, s')) : I l [] ys s' := by
  have from_here : ∀ rest done ys₀ t ys₁, I done rest ys₀ t → rest.mapM g t = .ok (ys₁, s') →
      I (done ++ rest) [] (ys₀ ++ ys₁) s' := by
    intro rest
    induction rest with
    | nil =>
      intro done ys₀ t ys₁ holds ran
      obtain ⟨rfl, rfl⟩ := run_pure.mp ran
      simpa using holds
    | cons x rest ih =>
      intro done ys₀ t ys₁ holds ran
      rw [List.mapM_cons] at ran
      obtain ⟨y, t', ran₁, ran⟩ := run_bind.mp ran
      obtain ⟨ys₂, t₂, ran₂, ran⟩ := run_bind.mp ran
      obtain ⟨rfl, rfl⟩ := run_pure.mp ran
      rw [List.append_cons done, List.append_cons ys₀]
      exact ih (done ++ [x]) _ t' ys₂ (step done x rest ys₀ t y t' holds ran₁) ran₂
  exact from_here l [] [] s ys start ran

/-- A loop over a list that is not left early. -/
theorem run_forIn {ε α : Type} {g : α → PUnit → Stateful ε (ForInStep PUnit)} {l : List α}
    (I : List α → State → Prop) {s s' : State} {u : PUnit} (start : I l s)
    (step : ∀ x rest t r t', I (x :: rest) t → g x .unit t = .ok (r, t') →
      r = .yield .unit ∧ I rest t')
    (ran : forIn l .unit g s = .ok (u, s')) : I [] s' := by
  induction l generalizing s with
  | nil =>
    obtain ⟨_, rfl⟩ := run_pure.mp ran
    exact start
  | cons x rest ih =>
    rw [List.forIn_cons] at ran
    obtain ⟨r, t, ran₁, ran₂⟩ := run_bind.mp ran
    obtain ⟨rfl, holds⟩ := step x rest s r t start ran₁
    exact ih holds ran₂

theorem run_forM {ε α : Type} {g : α → Stateful ε PUnit} {l : List α} (I : List α → State → Prop)
    {s s' : State} {u : PUnit} (start : I l s)
    (step : ∀ x rest t r t', I (x :: rest) t → g x t = .ok (r, t') → I rest t')
    (ran : l.forM g s = .ok (u, s')) : I [] s' := by
  induction l generalizing s with
  | nil =>
    obtain ⟨_, rfl⟩ := run_pure.mp ran
    exact start
  | cons x rest ih =>
    obtain ⟨r, t, ran₁, ran₂⟩ := run_bind.mp ran
    exact ih (step x rest s r t start ran₁) ran₂

namespace State

def names (s : State) : List BlockName := s.blocks.toList.map (·.name)

def edges (s : State) : List (BlockName × BlockName) := edgesOf s.blocks.toList

/-- A block that has no terminator yet. -/
def Open (s : State) (j : Nat) : Prop := ∃ b, s.blocks[j]? = some b ∧ b.term = none

/-- A block has a terminator. -/
def TermAt (s : State) (j : Nat) (T : Llvm.Term) : Prop :=
  ∃ b, s.blocks[j]? = some b ∧ b.term = some T

/-- A phi stands at a place in a block. -/
def PhiAt (s : State) (j p : Nat) : Prop :=
  ∃ b i t ins, s.blocks[j]? = some b ∧ b.insts[p]? = some i ∧ i.op = .phi t ins

/-- Functions are only added. -/
structure Grows (s s' : State) : Prop where
  size : s.functions.size ≤ s'.functions.size
  kept : ∀ k < s.functions.size, s'.functions[k]? = s.functions[k]?

/-- Nothing has happened to the blocks but to their instructions. -/
structure Framed (s s' : State) : Prop where
  names : s'.names = s.names
  edges : s'.edges = s.edges
  opens : ∀ j, s'.Open j ↔ s.Open j
  terms : ∀ j T, s.TermAt j T → s'.TermAt j T
  grows : s.Grows s'

/-- Nothing has happened to the blocks but instructions that are no phis. -/
structure Quiet (s s' : State) : Prop extends s.Framed s' where
  phis : ∀ j p, s'.PhiAt j p → s.PhiAt j p
  current : s'.current = s.current
  aux : s'.aux = s.aux

variable {s t u : State}

theorem Grows.refl (s : State) : s.Grows s := ⟨Nat.le_refl _, fun _ _ => rfl⟩

theorem Grows.trans (first : s.Grows t) (second : t.Grows u) : s.Grows u :=
  ⟨Nat.le_trans first.size second.size, fun k inside =>
    (second.kept k (Nat.lt_of_lt_of_le inside first.size)).trans (first.kept k inside)⟩

theorem Grows.of_functions (same : t.functions = s.functions) : s.Grows t :=
  ⟨by simp [same], fun k _ => by rw [same]⟩

theorem Grows.of_push {g : Llvm.Func} (more : t.functions = s.functions.push g) : s.Grows t := by
  refine ⟨by simp [more], fun k inside => ?_⟩
  rw [more, Array.getElem?_push, if_neg (Nat.ne_of_lt inside)]

theorem Framed.of_blocks (blocks : t.blocks = s.blocks) (grows : s.Grows t) : s.Framed t := by
  refine ⟨?_, ?_, fun j => ?_, fun j T => ?_, grows⟩
  · rw [State.names, State.names, blocks]
  · rw [State.edges, State.edges, blocks]
  · rw [Open, Open, blocks]
  · rw [TermAt, TermAt, blocks]
    exact fun ends => ends

theorem Framed.trans (first : s.Framed t) (second : t.Framed u) : s.Framed u where
  names := second.names.trans first.names
  edges := second.edges.trans first.edges
  opens j := (second.opens j).trans (first.opens j)
  terms j T ends := second.terms j T (first.terms j T ends)
  grows := first.grows.trans second.grows

/-- A block is changed, but not its name. -/
theorem names_modify {g : Llvm.Block → Llvm.Block} {j : Nat}
    (blocks : t.blocks = s.blocks.modify j g) (name : ∀ b, (g b).name = b.name) :
    t.names = s.names := by
  rw [State.names, State.names, blocks, Array.toList_modify, map_modify name]

/-- A block is changed, but neither its name nor its terminator. -/
theorem Framed.of_modify {g : Llvm.Block → Llvm.Block} {j : Nat}
    (blocks : t.blocks = s.blocks.modify j g) (name : ∀ b, (g b).name = b.name)
    (term : ∀ b, (g b).term = b.term) (grows : s.Grows t) : s.Framed t := by
  refine ⟨names_modify blocks name, ?_, fun k => ?_, ?_, grows⟩
  · rw [State.edges, State.edges, edgesOf, edgesOf, blocks, Array.toList_modify, List.flatMap_def,
      List.flatMap_def, map_modify]
    intro b
    rw [name, Block.targets, term, ← Block.targets]
  · unfold Open
    rw [blocks, Array.getElem?_modify]
    split
    · cases s.blocks[k]? with
      | none => simp
      | some b => simp [term]
    · rfl
  · rintro k T ⟨b, there, closed⟩
    rw [TermAt, blocks, Array.getElem?_modify, there]
    split
    · exact ⟨g b, rfl, (term b).trans closed⟩
    · exact ⟨b, rfl, closed⟩

theorem Quiet.refl (s : State) : s.Quiet s :=
  { Framed.of_blocks rfl (.refl s) with
    phis := fun _ _ stands => stands, current := rfl, aux := rfl }

theorem Quiet.trans (first : s.Quiet t) (second : t.Quiet u) : s.Quiet u :=
  { first.toFramed.trans second.toFramed with
    phis := fun j p stands => first.phis j p (second.phis j p stands)
    current := second.current.trans first.current
    aux := second.aux.trans first.aux }

/-- What does not touch the blocks. -/
theorem Quiet.of_blocks (blocks : t.blocks = s.blocks) (current : t.current = s.current)
    (aux : t.aux = s.aux) (grows : s.Grows t) : s.Quiet t := by
  refine { Framed.of_blocks blocks grows with phis := fun j p => ?_, current, aux }
  rw [PhiAt, PhiAt, blocks]
  exact fun stands => stands

/-- An instruction that is no phi is added to a block. -/
theorem Quiet.of_emit {j : Nat} {i : Llvm.Inst} (plain : ∀ t ins, i.op ≠ .phi t ins)
    (blocks : t.blocks = s.blocks.modify j fun b => { b with insts := b.insts ++ [i] })
    (current : t.current = s.current) (aux : t.aux = s.aux) (grows : s.Grows t) : s.Quiet t := by
  refine { Framed.of_modify blocks (fun _ => rfl) (fun _ => rfl) grows with
    phis := ?_, current, aux }
  rintro k p ⟨b, x, ty, ins, at_k, at_p, phi⟩
  rw [blocks, Array.getElem?_modify] at at_k
  split at at_k
  · obtain ⟨b₀, before, rfl⟩ := Option.map_eq_some_iff.mp at_k
    dsimp only at at_p
    rw [List.getElem?_append] at at_p
    split at at_p
    · exact ⟨b₀, x, ty, ins, before, at_p, phi⟩
    · obtain rfl := List.mem_singleton.mp (List.mem_of_getElem? at_p)
      exact absurd phi (plain ty ins)
  · exact ⟨b, x, ty, ins, at_k, at_p, phi⟩

/-- A new block at the end. -/
structure Begins (n : BlockName) (s t : State) : Prop where
  names : t.names = s.names ++ [n]
  edges : t.edges = s.edges
  opens : ∀ j, t.Open j ↔ s.Open j ∨ j = s.blocks.size
  terms : ∀ j T, s.TermAt j T → t.TermAt j T
  phis : ∀ j p, t.PhiAt j p → s.PhiAt j p
  grows : s.Grows t

theorem Begins.of_push {n : BlockName} (blocks : t.blocks = s.blocks.push { name := n })
    (grows : s.Grows t) : Begins n s t := by
  have lookup : ∀ j, t.blocks[j]? = if j = s.blocks.size then some { name := n } else s.blocks[j]? := by
    intro j
    rw [blocks, Array.getElem?_push]
  refine ⟨?_, ?_, fun j => ?_, ?_, ?_, grows⟩
  · rw [State.names, State.names, blocks, Array.toList_push, List.map_append]
    rfl
  · rw [State.edges, State.edges, edgesOf, edgesOf, blocks, Array.toList_push, List.flatMap_append]
    exact List.append_nil _
  · unfold Open
    rw [lookup]
    split
    · next last => simp [last]
    · next other => simp [other]
  · rintro j T ⟨b, there, closed⟩
    refine ⟨b, ?_, closed⟩
    rw [lookup, if_neg (Nat.ne_of_lt (Array.getElem?_eq_some_iff.mp there).1)]
    exact there
  · rintro j p ⟨b, x, ty, ins, at_j, at_p, phi⟩
    rw [lookup] at at_j
    split at at_j
    · cases at_j
      cases at_p
    · exact ⟨b, x, ty, ins, at_j, at_p, phi⟩

/-- A block gets its terminator. -/
structure Closes (j : Nat) (T : Llvm.Term) (s t : State) : Prop where
  names : t.names = s.names
  edges : ∀ n, s.names[j]? = some n → t.edges.Perm (s.edges ++ T.targets.map (n, ·))
  opens : ∀ k, t.Open k ↔ s.Open k ∧ k ≠ j
  closed : t.TermAt j T
  terms : ∀ k T', s.TermAt k T' → t.TermAt k T'
  phis : ∀ k p, t.PhiAt k p → s.PhiAt k p
  grows : s.Grows t

theorem Closes.of_modify {j : Nat} {T : Llvm.Term} (blank : s.Open j)
    (blocks : t.blocks = s.blocks.modify j fun b => { b with term := some T })
    (grows : s.Grows t) : Closes j T s t := by
  obtain ⟨b, there, none⟩ := blank
  refine ⟨names_modify blocks fun _ => rfl, fun n named => ?_, fun k => ?_, ?_, ?_, ?_, grows⟩
  · have named : b.name = n := by
      rw [State.names, List.getElem?_map, Array.getElem?_toList, there] at named
      exact Option.some.inj named
    rw [State.edges, State.edges, edgesOf, edgesOf, blocks, Array.toList_modify]
    refine flatMap_modify_perm (a := b) (by rw [Array.getElem?_toList, there]) (.of_eq ?_)
    simp [Block.targets, none, named]
  · unfold Open
    rw [blocks, Array.getElem?_modify]
    split
    · next same =>
      subst same
      cases s.blocks[j]? <;> simp
    · next other => simp [Ne.symm other]
  · exact ⟨{ b with term := some T }, by rw [blocks, Array.getElem?_modify, there]; simp, rfl⟩
  · -- a block that has a terminator is not the one that gets one
    rintro k T' ⟨b', there', closed⟩
    refine ⟨b', ?_, closed⟩
    rw [blocks, Array.getElem?_modify, if_neg]
    · exact there'
    · rintro rfl
      cases there.symm.trans there'
      cases none.symm.trans closed
  · rintro k p ⟨b, x, ty, ins, at_k, at_p, phi⟩
    rw [blocks, Array.getElem?_modify] at at_k
    split at at_k
    · obtain ⟨b₀, before, rfl⟩ := Option.map_eq_some_iff.mp at_k
      exact ⟨b₀, x, ty, ins, before, at_p, phi⟩
    · exact ⟨b, x, ty, ins, at_k, at_p, phi⟩

end State

end TieredEngine.Ship.Lowering

/-!
How lowering ends: in a result, in an error that is reported, or in a crash. A triple says which crashes
there may be, besides what holds of the state before and after; its rules follow the steps that lowering
is made of.
-/
namespace TieredEngine.Ship.Lowering
open TieredEngine

/-- From a state with the first property, a computation that gives a result leaves a state with the second
one, and a computation that crashes does so in a way that may be. -/
def Ends {E α : Type} (may : Crash → Prop) (P : State → Prop) (x : Stateful (Fault E) α)
    (Q : α → State → Prop) : Prop :=
  ∀ s, P s → (∀ a t, x s = .ok (a, t) → Q a t) ∧ ∀ c, x s = .error (.crash c) → may c

/-- A computation that keeps an invariant and gives results with a property. -/
def Keeps {E α : Type} (may : Crash → Prop) (I : State → Prop) (x : Stateful (Fault E) α)
    (R : α → Prop) : Prop :=
  Ends may I x fun a t => I t ∧ R a

namespace Ends

variable {E α β : Type} {may : Crash → Prop} {P : State → Prop} {Q : α → State → Prop}
  {x : Stateful (Fault E) α}

theorem mono {P' : State → Prop} {Q' : α → State → Prop} (ends : Ends may P x Q)
    (pre : ∀ s, P' s → P s) (post : ∀ a t, Q a t → Q' a t) : Ends may P' x Q' :=
  fun s before => ⟨fun a t ran => post a t ((ends s (pre s before)).1 a t ran),
    (ends s (pre s before)).2⟩

theorem pure {a : α} (now : ∀ s, P s → Q a s) : Ends may P (Pure.pure a : Stateful (Fault E) α) Q := by
  refine fun s before => ⟨fun b t ran => ?_, fun c ran => (by cases ran)⟩
  obtain ⟨rfl, rfl⟩ := run_pure.mp ran
  exact now _ before

theorem bind {R : β → State → Prop} {g : α → Stateful (Fault E) β} (first : Ends may P x Q)
    (rest : ∀ a, Ends may (Q a) (g a) R) : Ends may P (x >>= g) R := by
  refine fun s before => ⟨fun b t ran => ?_, fun c ran => ?_⟩
  · obtain ⟨a, m, ran₁, ran₂⟩ := run_bind.mp ran
    exact (rest a m ((first s before).1 a m ran₁)).1 b t ran₂
  · have ran : (x s >>= fun p => g p.1 p.2) = .error (.crash c) := ran
    rcases bind_eq_error.mp ran with early | ⟨⟨a, m⟩, ran₁, ran₂⟩
    · exact (first s before).2 c early
    · exact (rest a m ((first s before).1 a m ran₁)).2 c ran₂

theorem error (e : E) : Ends may P (throw (.error e) : Stateful (Fault E) α) Q :=
  fun _ _ => ⟨fun _ _ ran => (by cases ran), fun _ ran => (by cases ran)⟩

/-- What comes after an error does not matter. -/
theorem error_bind (e : E) {R : β → State → Prop} {g : α → Stateful (Fault E) β} :
    Ends may P (throw (.error e) >>= g) R :=
  fun _ _ => ⟨fun _ _ ran => (by cases ran), fun _ ran => (by cases ran)⟩

theorem crash {c : Crash} (allowed : may c) :
    Ends may P (throw (.crash c) : Stateful (Fault E) α) Q := by
  refine fun s _ => ⟨fun a t ran => (by cases ran), fun c' ran => ?_⟩
  cases ran
  exact allowed

/-- Reading the state. -/
theorem bind_get {g : State → Stateful (Fault E) α} (rest : ∀ s, P s → Ends may (· = s) (g s) Q) :
    Ends may P (get >>= g) Q :=
  fun s before => rest s before s rfl

theorem of_modify {g : State → State} {Q : PUnit → State → Prop} (now : ∀ s, P s → Q .unit (g s)) :
    Ends may P (modify g : Stateful (Fault E) PUnit) Q := by
  refine fun s before => ⟨fun u t ran => ?_, fun c ran => (by cases ran)⟩
  cases ran
  exact now s before

theorem of_set {u : State} {Q : PUnit → State → Prop} (now : ∀ s, P s → Q .unit u) :
    Ends may P (set u : Stateful (Fault E) PUnit) Q := by
  refine fun s before => ⟨fun v t ran => ?_, fun c ran => (by cases ran)⟩
  cases ran
  exact now s before

theorem ite {p : Prop} [Decidable p] {y : Stateful (Fault E) α} (yes : p → Ends may P x Q)
    (no : ¬ p → Ends may P y Q) : Ends may P (if p then x else y) Q := by
  split
  · next holds => exact yes holds
  · next fails => exact no fails

/-- Something known of every state that is met. -/
theorem of_pre {F : Prop} (known : ∀ s, P s → F) (ends : F → Ends may P x Q) : Ends may P x Q :=
  fun s before => ends (known s before) s before

/-- Where an error is placed does not matter. -/
theorem placed {x : Lower α} (ends : Ends may P x Q) (name : String) (b : Option Ir.BlockId) :
    Ends may P (Lowering.placed name b x) Q := by
  refine fun s before => ⟨fun a t ran => (ends s before).1 a t (mapError_eq_ok.mp ran), fun c ran => ?_⟩
  unfold Lowering.placed at ran
  cases inner : x s with
  | ok p =>
    rw [inner] at ran
    cases ran
  | error e =>
    rw [inner] at ran
    cases e with
    | error e => cases ran
    | crash c' =>
      cases ran
      exact (ends s before).2 _ inner

/-- A part that is known to succeed. -/
theorem liftCrash {r : Except Crash α} {a : α} (ran : r = .ok a) (now : ∀ s, P s → Q a s) :
    Ends may P (Lowering.liftCrash r) Q := by
  subst ran
  refine fun s before => ⟨fun b t ran => ?_, fun c ran => (by cases ran)⟩
  cases ran
  exact now s before

end Ends

namespace Keeps

variable {E α β : Type} {may : Crash → Prop} {I : State → Prop} {R : α → Prop}
  {x : Stateful (Fault E) α}

theorem mono {R' : α → Prop} (keeps : Keeps may I x R) (post : ∀ a, R a → R' a) : Keeps may I x R' :=
  Ends.mono keeps (fun _ => id) fun a _ => And.imp_right (post a)

theorem bind {Q : β → State → Prop} {g : α → Stateful (Fault E) β} (first : Keeps may I x R)
    (rest : ∀ a, R a → Ends may I (g a) Q) : Ends may I (x >>= g) Q :=
  Ends.bind first fun a => .of_pre (fun _ => And.right) fun known =>
    (rest a known).mono (fun _ => And.left) fun _ _ => id

theorem pure {a : α} (now : R a) : Keeps may I (Pure.pure a : Stateful (Fault E) α) R :=
  Ends.pure fun _ holds => ⟨holds, now⟩

theorem bind_get {g : State → Stateful (Fault E) α} (rest : ∀ s, I s → Keeps may I (g s) R) :
    Keeps may I (get >>= g) R :=
  Ends.bind_get fun s holds => Ends.mono (rest s holds) (fun _ same => same ▸ holds) fun _ _ => id

theorem of_modify {g : State → State} (keeps : ∀ s, I s → I (g s)) :
    Keeps may I (modify g : Stateful (Fault E) PUnit) fun _ => True :=
  Ends.of_modify fun s holds => ⟨keeps s holds, trivial⟩

theorem mapM {T : α → β → Prop} {g : α → Stateful (Fault E) β} {l : List α}
    (each : ∀ a ∈ l, Keeps may I (g a) (T a)) : Keeps may I (l.mapM g) (List.Forall₂ T l) := by
  induction l with
  | nil => exact Keeps.pure List.Forall₂.nil
  | cons a l ih =>
    rw [List.mapM_cons]
    exact (each a List.mem_cons_self).bind fun b head =>
      (ih fun c member => each c (List.mem_cons_of_mem a member)).bind fun bs tail =>
        Keeps.pure (List.Forall₂.cons head tail)

theorem forM {g : α → Stateful (Fault E) PUnit} {l : List α}
    (each : ∀ a ∈ l, Keeps may I (g a) fun _ => True) : Keeps may I (l.forM g) fun _ => True := by
  induction l with
  | nil => exact Keeps.pure trivial
  | cons a l ih =>
    exact (each a List.mem_cons_self).bind fun _ _ =>
      ih fun c member => each c (List.mem_cons_of_mem a member)

/-- A loop that is not left early. -/
theorem forIn {g : α → PUnit → Stateful (Fault E) (ForInStep PUnit)} {l : List α}
    (each : ∀ a ∈ l, Keeps may I (g a .unit) (· = .yield .unit)) :
    Keeps may I (ForIn.forIn l .unit g) fun _ => True := by
  induction l with
  | nil => exact Keeps.pure trivial
  | cons a l ih =>
    rw [List.forIn_cons]
    exact (each a List.mem_cons_self).bind fun _ on =>
      on ▸ ih fun c member => each c (List.mem_cons_of_mem a member)

end Keeps

end TieredEngine.Ship.Lowering
