import TieredEngine.Proofs.Eval.Congruence

/-!
Entering a function. Everything before the first block depends only on the header of the function:
its name, signature, parameters and declared registers. So two functions with one header are
entered alike, and only their bodies have to be compared.
-/
namespace TieredEngine.Eval
open TieredEngine.Ir

variable {κ κ' ε ε' : Type}

theorem size_initialGlobals {m : Module} {globals : Array Value}
    (initial : initialGlobals m = .ok globals) : globals.size = m.globals.size := by
  unfold initialGlobals at initial
  rw [Array.mapM_eq_mapM_toList] at initial
  obtain ⟨vs, each, same⟩ := bind_eq_ok.mp initial
  cases same
  simpa using (mapM_eq_ok.mp each).length_eq.symm

/-- The value a global starts with. -/
def initialValue (g : Global) : Value := if g.init.ty = g.ty then g.init else Value.zero g.ty

theorem initialGlobals_of_present {m : Module} (present : ∀ g? ∈ m.globals, ∃ g, g? = some g) :
    initialGlobals m = .ok (m.globals.map fun g? => (g?.map initialValue).getD .void) := by
  unfold initialGlobals
  rw [Array.mapM_eq_mapM_toList, mapM_eq_map (g := fun g? => (g?.map initialValue).getD .void)]
  · show Except.ok _ = Except.ok _
    rw [← Array.toList_map]
  · intro g? member
    obtain ⟨g, rfl⟩ := present g? (by simpa using member)
    rfl

/-- The initial values of the globals of an accepted module. -/
theorem initialGlobals_of_accepted {m : Module} (accepted : m.defects = .ok []) :
    ∃ globals, initialGlobals m = .ok globals :=
  ⟨_, initialGlobals_of_present fun _ => Module.present_of_accepted accepted⟩

/-- Binding the same arguments in frames with the same registers. -/
theorem bindParams_alike {fr fr' : Frame} (regs : fr'.regs = fr.regs)
    (name : fr'.function.name = fr.function.name)
    (types : fr'.function.regTypes = fr.function.regTypes) (entry entry' : BlockId)
    (params : List Reg) (args : List Value) :
    (∃ g g', bindParams entry fr params args = .ok g ∧ bindParams entry' fr' params args = .ok g' ∧
      g.function = fr.function ∧ g'.function = fr'.function ∧ g.stats = fr.stats ∧
      g'.stats = fr'.stats ∧ g'.regs = g.regs ∧ g.block = fr.block ∧ g'.block = fr'.block) ∨
    (∃ e e', bindParams entry fr params args = .error (.error e) ∧
      bindParams entry' fr' params args = .error (.error e') ∧ e.Alike e') ∨
    ∃ c, bindParams entry fr params args = .error (.crash c) ∧
      bindParams entry' fr' params args = .error (.crash c) := by
  induction params generalizing fr fr' args with
  | nil => exact .inl ⟨fr, fr', rfl, rfl, rfl, rfl, rfl, rfl, regs, rfl, rfl⟩
  | cons r params ih =>
    cases args with
    | nil => exact .inr (.inr ⟨_, rfl, rfl⟩)
    | cons a args =>
      have same : fr'.function.regType? r = fr.function.regType? r := by
        simp only [Function.regType?, types]
      cases known : fr.function.regType? r with
      | none =>
        refine .inr (.inl ⟨⟨fr.function.name, entry, .undeclaredRegister r⟩,
          ⟨fr'.function.name, entry', .undeclaredRegister r⟩, ?_, ?_, name, rfl⟩) <;>
          simp [bindParams, Frame.set, same, known, Frame.fail]
      | some t =>
        by_cases fits : t = a.ty
        · have left : fr.set r a = .ok (fr.put r a) := Frame.set_eq_ok.mpr ⟨fits ▸ known, rfl⟩
          have right : fr'.set r a = .ok (fr'.put r a) :=
            Frame.set_eq_ok.mpr ⟨fits ▸ same.trans known, rfl⟩
          simp only [bindParams, left, right]
          exact ih (show (fr'.put r a).regs = (fr.put r a).regs by simp [Frame.put, regs]) name types
            args
        · refine .inr (.inl ⟨⟨fr.function.name, entry, .registerType r t a.ty⟩,
            ⟨fr'.function.name, entry', .registerType r t a.ty⟩, ?_, ?_, name, rfl⟩) <;>
            simp [bindParams, Frame.set, same, known, fits, Frame.fail]

/-- Bound registers are the parameters, and they hold arguments. -/
theorem bindParams_regs {entry : BlockId} {params : List Reg} {fr g : Frame} {args : List Value}
    (bound : bindParams entry fr params args = .ok g) (sized : fr.Sized) :
    g.Sized ∧ g.function = fr.function ∧
      (∀ r, (g.reg? r).isSome = true ↔ (fr.reg? r).isSome = true ∨ r ∈ params) ∧
      ∀ r v, g.reg? r = some v → fr.reg? r = some v ∨ v ∈ args := by
  induction params generalizing fr args with
  | nil =>
    cases bound
    exact ⟨sized, rfl, by simp, fun r v held => .inl held⟩
  | cons p params ih =>
    cases args with
    | nil => cases bound
    | cons a args =>
      simp only [bindParams] at bound
      cases written : fr.set p a with
      | error e => simp [written] at bound
      | ok fr₁ =>
        simp only [written] at bound
        obtain ⟨known, rfl⟩ := Frame.set_eq_ok.mp written
        have declared : fr.function.declares p = true := by simp [Function.declares, known]
        obtain ⟨sized', function, defined, values⟩ := ih bound (Frame.sized_put sized p a)
        have put := Frame.reg?_put sized declared a
        refine ⟨sized', function, fun r => ?_, fun r v held => ?_⟩
        · rw [defined r, put r]
          by_cases same : r = p <;> simp [same]
        · rcases values r v held with early | late
          · rw [put r] at early
            split at early
            · cases early
              exact .inr (by simp)
            · exact .inl early
          · exact .inr (by simp [late])

/-- Arguments are in the registers of their parameters. -/
theorem bindParams_reads {entry : BlockId} {params : List Reg} {fr g : Frame} {args : List Value}
    (bound : bindParams entry fr params args = .ok g) (sized : fr.Sized) (once : params.Nodup) :
    (∀ (k : Nat) r, params[k]? = some r → ∃ v, args[k]? = some v ∧ g.reg? r = some v) ∧
      ∀ r ∉ params, g.reg? r = fr.reg? r := by
  induction params generalizing fr args with
  | nil =>
    cases bound
    exact ⟨nofun, fun _ _ => rfl⟩
  | cons r params ih =>
    cases args with
    | nil => cases bound
    | cons v args =>
      rw [bindParams] at bound
      cases written : fr.set r v with
      | error e =>
        rw [written] at bound
        cases bound
      | ok fr₁ =>
        rw [written] at bound
        obtain ⟨type, rfl⟩ := Frame.set_eq_ok.mp written
        have declared : fr.function.declares r = true := by rw [Function.declares, type]; rfl
        have put := Frame.reg?_put sized declared v
        rw [List.nodup_cons] at once
        obtain ⟨each, others⟩ := ih bound (Frame.sized_put sized r v) once.2
        refine ⟨fun k q at_k => ?_, fun q missing => ?_⟩
        · cases k with
          | zero =>
            cases at_k
            exact ⟨v, rfl, by rw [others r once.1, put, if_pos rfl]⟩
          | succ k => exact each k q at_k
        · rw [List.mem_cons, not_or] at missing
          rw [others q missing.2, put, if_neg missing.1]

/-- The header of a function: what a caller sees of it, and its registers. -/
structure SameHeader (f f' : Function) : Prop where
  name : f'.name = f.name
  sig : f'.sig = f.sig
  params : f'.params = f.params
  regTypes : f'.regTypes = f.regTypes
  external : f'.isExternal = f.isExternal

/-- A frame as a call starts with it: the parameters hold arguments, other registers nothing. -/
structure Started (f : Function) (args : List Value) (fr : Frame) : Prop where
  function : fr.function = f
  sized : fr.Sized
  stats : fr.stats = {}
  block : fr.block = ⟨0⟩
  defined : ∀ r, (fr.reg? r).isSome = true ↔ r ∈ f.params
  values : ∀ r v, fr.reg? r = some v → v ∈ args

/-- The frame of a call before its arguments are bound. -/
def Frame.fresh (f : Function) : Frame :=
  { function := f, regs := Array.replicate f.regTypes.size none }

theorem Frame.reg?_fresh (f : Function) (r : Reg) : (Frame.fresh f).reg? r = none := by
  unfold Frame.reg? Frame.fresh
  rw [Array.getElem?_replicate]
  split <;> rfl

theorem started_of_bindParams {f : Function} {args : List Value} {fr : Frame} {entry : BlockId}
    (bound : bindParams entry (.fresh f) f.params args = .ok fr) : Started f args fr := by
  have sized : (Frame.fresh f).Sized := by simp [Frame.fresh, Frame.Sized]
  obtain ⟨sized', function, defined, values⟩ := bindParams_regs bound sized
  rcases @bindParams_alike (.fresh f) (.fresh f) rfl rfl rfl entry entry f.params args with
    ⟨g, _, same, _, _, _, stats, _, _, block, _⟩ | ⟨e, _, failed, _⟩ | ⟨c, failed, _⟩
  · cases bound.symm.trans same
    exact ⟨function, sized', stats, block, fun r => by simp [defined r, Frame.reg?_fresh],
      fun r v held => (values r v held).resolve_left (by simp [Frame.reg?_fresh])⟩
  · rw [bound] at failed
    cases failed
  · rw [bound] at failed
    cases failed

/-- An argument that cannot be bound has the wrong type, when the parameters are declared. -/
theorem bindParams_error {entry : BlockId} {params : List Reg} {fr : Frame} {args : List Value}
    {e : Error} (failed : bindParams entry fr params args = .error (.error e)) :
    e.function = fr.function.name ∧ (e.kind = .typeMismatch ∨ e.kind = .missingRegister) ∧
      ((∀ p ∈ params, fr.function.declares p = true) → e.kind = .typeMismatch) := by
  induction params generalizing fr args with
  | nil => cases failed
  | cons p params ih =>
    cases args with
    | nil => cases failed
    | cons a args =>
      simp only [bindParams] at failed
      cases written : fr.set p a with
      | ok g =>
        rw [written] at failed
        obtain ⟨_, rfl⟩ := Frame.set_eq_ok.mp written
        obtain ⟨named, kind, typed⟩ := ih failed
        exact ⟨named, kind, fun declared => typed fun q member => declared q (by simp [member])⟩
      | error e' =>
        rw [written] at failed
        cases failed
        rw [← and_assoc]
        refine ⟨?_, fun declared => ?_⟩
        · unfold Frame.set at written
          split at written
          · cases written
            exact ⟨rfl, .inr rfl⟩
          · split at written <;> cases written
            exact ⟨rfl, .inl rfl⟩
        · rcases Frame.set_of_declared (declared p (by simp)) a with fine | ⟨e, failed, kind⟩
          · rw [fine] at written
            cases written
          · cases written.symm.trans failed
            exact kind

/-- Gives the caller its own globals back, unless they are shared. -/
def Setup.settle (setup : Setup) (w : World κ) (out : Frame.Finished κ ε) : Frame.Finished κ ε :=
  if setup.shared then out
  else { out with world := { out.world with globals := w.globals } }

/-- What comes of entering a function: a failure at the door, the answer of the host, or a run of
the body in a frame with the arguments bound. -/
inductive Entered (setup : Setup) (m : Module) (call : Call κ ε) (fuel : Nat) (f : Function)
    (args : List Value) (w : World κ) : Frame.Finished κ ε → Prop where
  | refused (e : Error) (named : e.function = f.name)
      (door : e.kind = .argumentCount ∧ args.length ≠ f.sig.params.length ∨
        e.kind = .typeMismatch ∨ e.kind = .stackOverflow ∨ e.kind = .missingRegister)
      (kind : (f.isExternal = false → ∀ p ∈ f.params, f.declares p = true) →
        e.kind ≠ .missingRegister) :
      Entered setup m call fuel f args w ⟨.error (.fault e), {}, w⟩
  | crashed (c : Crash) : Entered setup m call fuel f args w ⟨.error (.crash c), {}, w⟩
  | hosted (external : f.isExternal = true) :
      Entered setup m call fuel f args w
        ⟨(callHost (ε := ε) setup.hosts f args w).1, {}, (callHost (ε := ε) setup.hosts f args w).2⟩
  | ran (internal : f.isExternal = false) (matching : args.map (·.ty) = f.sig.params) (fr : Frame)
      (globals : Array Value)
      (bound : bindParams f.entry (.fresh f) f.params args = .ok fr)
      (origin : (if setup.shared then .ok w.globals else initialGlobals m) = .ok globals) :
      Entered setup m call fuel f args w (setup.settle w
        (Frame.run call (fun x => x.num < m.functions.size) fuel fr { w with globals } none f.entry))

theorem matching_of_firstMismatch {args : List Value} {params : List Ty}
    (count : args.length = params.length) {i : Nat} (none : firstMismatch i args params = none) :
    args.map (·.ty) = params := by
  induction args generalizing params i with
  | nil => simpa using count.symm
  | cons a args ih =>
    cases params with
    | nil => cases count
    | cons t params =>
      unfold firstMismatch at none
      split at none
      · cases none
      · next same => rw [List.map_cons, ih (Nat.succ.inj count) none, not_not.mp same]

/-- Arguments of other types than the parameters' are refused. -/
theorem enter_of_mismatch (setup : Setup) {m : Module} (call : Call κ ε) (fuel depth : Nat)
    {id : FuncId} {f : Function} (found : m.function? id = some f) {args : List Value}
    (mismatch : args.map (·.ty) ≠ f.sig.params) (w : World κ) :
    ∃ e, enter setup m call fuel depth id args w = ⟨.error (.fault e), {}, w⟩ := by
  unfold enter
  rw [found]
  dsimp only
  split
  · exact ⟨_, rfl⟩
  · next count =>
    split
    · exact ⟨_, rfl⟩
    · next none => exact absurd (matching_of_firstMismatch (not_not.mp count) none) mismatch

theorem enter_cases {setup : Setup} {m : Module} {call : Call κ ε} {fuel depth : Nat} {id : FuncId}
    {f : Function} (found : m.function? id = some f) (args : List Value) (w : World κ) :
    Entered setup m call fuel f args w (enter setup m call fuel depth id args w) := by
  unfold enter
  rw [found]
  dsimp only
  split
  · next count => exact .refused _ rfl (.inl ⟨rfl, count⟩) fun _ => by simp [Error.kind, Cause.kind]
  · next count =>
    split
    · exact .refused _ rfl (.inr (.inl rfl)) fun _ => by simp [Error.kind, Cause.kind]
    · next none =>
      split
      · next external => exact .hosted external
      · next internal =>
        split
        · exact .refused _ rfl (.inr (.inr (.inl rfl))) fun _ => by simp [Error.kind, Cause.kind]
        · split
          · exact .crashed _
          · next globals origin =>
            split
            · next e failed =>
              obtain ⟨named, kind, typed⟩ := bindParams_error failed
              refine .refused e named (kind.elim (.inr ∘ .inl) (.inr ∘ .inr ∘ .inr)) fun declared => ?_
              rw [typed (declared (by simpa using internal))]
              decide
            · exact .crashed _
            · next fr bound =>
              exact .ran (by simpa using internal)
                (matching_of_firstMismatch (not_not.mp count) none) fr globals bound origin

theorem Setup.result_settle (setup : Setup) (w : World κ) (out : Frame.Finished κ ε) :
    (setup.settle w out).result = out.result := by
  unfold settle
  split <;> rfl

/-- A function with a body returns what its body returns. -/
theorem Entered.body {setup : Setup} {m : Module} {call : Call κ ε} {fuel : Nat} {f : Function}
    {args : List Value} {w : World κ} {out : Frame.Finished κ ε}
    (entered : Entered setup m call fuel f args w out) (internal : f.isExternal = false) {v : Value}
    (returned : out.result = .ok v) :
    ∃ fr globals, bindParams f.entry (.fresh f) f.params args = .ok fr ∧
      (Frame.run call (fun x => x.num < m.functions.size) fuel fr { w with globals } none
        f.entry).result = .ok v := by
  cases entered with
  | refused => cases returned
  | crashed => cases returned
  | hosted external => simp [internal] at external
  | ran _ _ fr globals bound origin => exact ⟨fr, globals, bound, setup.result_settle w _ ▸ returned⟩

/-- Arguments of the types that the parameters declare can be bound. -/
theorem bindParams_of_typed {entry : BlockId} {f : Function} {params : List Reg} {args : List Value}
    (typed : List.Forall₂ (fun p a => f.regType? p = some (Value.ty a)) params args) {fr : Frame}
    (function : fr.function = f) : ∃ g, bindParams entry fr params args = .ok g := by
  induction typed generalizing fr with
  | nil => exact ⟨fr, rfl⟩
  | @cons p a params args head tail ih =>
    have set : fr.set p a = .ok (fr.put p a) := Frame.set_eq_ok.mpr ⟨function ▸ head, rfl⟩
    simp only [bindParams, set]
    exact ih (by simpa using function)

theorem firstMismatch_of_matching {args : List Value} {params : List Ty}
    (matching : args.map (·.ty) = params) (i : Nat) : firstMismatch i args params = none := by
  subst matching
  induction args generalizing i with
  | nil => rfl
  | cons a args ih => simpa [firstMismatch] using ih (i + 1)

/-- A call with arguments of the signature's types, not too deep, runs the body. -/
theorem enter_of_matching {setup : Setup} {m : Module} {call : Call κ ε} {fuel depth : Nat}
    {id : FuncId} {f : Function} (found : m.function? id = some f) (internal : f.isExternal = false)
    {args : List Value} (matching : args.map (·.ty) = f.sig.params)
    (shallow : (depth : Int) < setup.maxDepth) {w : World κ} {fr : Frame} {globals : Array Value}
    (bound : bindParams f.entry (.fresh f) f.params args = .ok fr)
    (origin : (if setup.shared then .ok w.globals else initialGlobals m) = .ok globals) :
    enter setup m call fuel depth id args w = setup.settle w
      (Frame.run call (fun x => x.num < m.functions.size) fuel fr { w with globals } none f.entry) := by
  have count : args.length = f.sig.params.length := by rw [← matching, List.length_map]
  have deep : ¬ setup.maxDepth ≤ depth := by omega
  unfold Frame.fresh at bound
  simp [enter, found, count, firstMismatch_of_matching matching, internal, deep, origin, bound,
    Setup.settle]

theorem globals_callHost (hosts : Hosts) (f : Function) (args : List Value) (w : World κ) :
    (callHost (ε := ε) hosts f args w).2.globals = w.globals := by
  unfold callHost
  split
  · rfl
  · dsimp only
    split
    · rfl
    · split <;> rfl

/-- Results that belong together still do when both worlds get the same globals. -/
theorem Link.Shares.restore {L : Link κ κ' (Halt ε) (Halt ε')} {P : Value → Prop}
    {G : Array Value → Prop} (shares : L.Shares P G) {out : Frame.Finished κ ε}
    {out' : Frame.Finished κ' ε'} (ends : L.Ends P out out') {globals : Array Value}
    (good : G globals) :
    L.Ends P { out with world := { out.world with globals } }
      { out' with world := { out'.world with globals } } := by
  obtain ⟨r, stats, w⟩ := out
  obtain ⟨r', stats', w'⟩ := out'
  cases r with
  | error h =>
    cases r' with
    | error h' =>
      cases ends with
      | left free => exact .left free
      | right free => exact .right free
      | error worlds failures => exact .error (shares.reset _ _ _ worlds good) failures
    | ok v' =>
      cases ends with
      | left free => exact .left free
  | ok v =>
    cases r' with
    | error h' =>
      cases ends with
      | right free => exact .right free
    | ok v' =>
      cases ends with
      | ok worlds related => exact .ok (shares.reset _ _ _ worlds good) related

/-- Functions with one header are entered alike. -/
theorem enter_ends {L : Link κ κ' (Halt ε) (Halt ε')} {P : Value → Prop} {G : Array Value → Prop}
    (shares : L.Shares P G) {setup : Setup}
    (hosts : ∀ name run past args v, setup.hosts name = some run → run past args = .ok v → P v)
    {m m' : Module} {id : FuncId} {f f' : Function} (found : m.function? id = some f)
    (found' : m'.function? id = some f') (header : SameHeader f f')
    (initial : initialGlobals m' = initialGlobals m)
    (good : ∀ globals, initialGlobals m = .ok globals → G globals)
    {call : Call κ ε} {call' : Call κ' ε'} {fuel fuel' depth : Nat} {args : List Value}
    {w : World κ} {w' : World κ'} (worlds : L.worlds w w')
    (body : f.isExternal = false → ∀ fr fr' w w', L.worlds w w' → Started f args fr →
      Started f' args fr' → fr'.regs = fr.regs →
      L.Ends P (Frame.run call (fun x => x.num < m.functions.size) fuel fr w none f.entry)
        (Frame.run call' (fun x => x.num < m'.functions.size) fuel' fr' w' none f'.entry)) :
    L.Ends P (enter setup m call fuel depth id args w)
      (enter setup m' call' fuel' depth id args w') := by
  obtain ⟨same, holds⟩ := shares.globals w w' worlds
  have fails : ∀ c, L.Ends P ⟨.error (.fault ⟨f.name, f.entry, c⟩), {}, w⟩
      ⟨.error (.fault ⟨f'.name, f'.entry, c⟩), {}, w'⟩ := fun c =>
    .error worlds ⟨shares.alike _ _ ⟨header.name, rfl⟩, rfl⟩
  simp only [enter, found, found', header.sig, header.external]
  split
  · exact fails _
  · split
    · exact fails _
    · split
      · -- a call of the host
        unfold callHost
        rw [header.name]
        cases implementation : setup.hosts f.name with
        | none => exact .error worlds ⟨shares.fault _, rfl⟩
        | some run =>
          have recorded := shares.hosted w w' ⟨f.name, args⟩ worlds
          rw [shares.hostCalls w w' worlds] at recorded
          simp only [shares.hostCalls w w' worlds]
          cases ran : run w.hostCalls args with
          | error reason => exact .error recorded ⟨shares.host _ _, rfl⟩
          | ok v =>
            simp only [header.sig]
            by_cases fits : v.ty = f.sig.ret
            · simp only [fits, ne_eq, not_true, if_false]
              exact .ok recorded ⟨rfl, rfl, hosts _ _ _ _ _ implementation ran⟩
            · simp only [ne_eq, fits, not_false_eq_true, if_true]
              exact .error recorded ⟨shares.fault _, rfl⟩
      · next _ _ internal =>
        split
        · exact fails _
        · -- the globals the body works on belong together in both worlds
          have globals : (∃ c, (if setup.shared then .ok w.globals else initialGlobals m) = .error c ∧
                (if setup.shared then .ok w'.globals else initialGlobals m') = .error c) ∨
              ∃ g, (if setup.shared then .ok w.globals else initialGlobals m) = .ok g ∧
                (if setup.shared then .ok w'.globals else initialGlobals m') = .ok g ∧ G g := by
            rw [initial]
            by_cases shared : setup.shared = true
            · exact .inr ⟨w.globals, by simp [shared], by simp [shared, same], holds⟩
            · cases start : initialGlobals m with
              | error c => exact .inl ⟨c, by simp [shared], by simp [shared]⟩
              | ok g => exact .inr ⟨g, by simp [shared], by simp [shared], good g start⟩
          rcases globals with ⟨c, left, right⟩ | ⟨g, left, right, fits⟩
          · simp only [left, right]
            exact .error worlds ⟨shares.crash c, rfl⟩
          · simp only [left, right, header.params, header.regTypes]
            let fr : Frame := { function := f, regs := Array.replicate f.regTypes.size none }
            let fr' : Frame := { function := f', regs := Array.replicate f.regTypes.size none }
            have empty : ∀ r, fr.reg? r = none := by
              intro r
              simp only [fr, Frame.reg?, Array.getElem?_replicate]
              split <;> rfl
            have empty' : ∀ r, fr'.reg? r = none := empty
            have sized : fr.Sized := by simp [fr, Frame.Sized]
            have sized' : fr'.Sized := by simp [fr', Frame.Sized, header.regTypes]
            rcases bindParams_alike (show fr'.regs = fr.regs from rfl) header.name header.regTypes f.entry
              f'.entry f.params args with ⟨b, b', bound, bound', _, _, stats, stats', regs, block, block'⟩ |
              ⟨e, e', bound, bound', alike⟩ | ⟨c, bound, bound'⟩
            · obtain ⟨sized₁, function, defined, values⟩ := bindParams_regs bound sized
              obtain ⟨sized₂, function', defined', values'⟩ := bindParams_regs bound' sized'
              simp only [fr] at bound
              simp only [fr'] at bound'
              simp only [bound, bound']
              have started : Started f args b := ⟨function, sized₁, stats, block,
                fun r => by simp [defined r, empty r],
                fun r v held => (values r v held).resolve_left (by simp [empty r])⟩
              have started' : Started f' args b' := ⟨function', sized₂, stats', block',
                fun r => by simp [defined' r, empty' r, header.params],
                fun r v held => (values' r v held).resolve_left (by simp [empty' r])⟩
              have ended := body (by simpa using internal) b b' { w with globals := g }
                { w' with globals := g } (shares.reset w w' g worlds fits) started started' regs
              split
              · exact ended
              · rw [same]
                exact shares.restore ended holds
            · simp only [fr] at bound
              simp only [fr'] at bound'
              simp only [bound, bound']
              exact .error worlds ⟨shares.alike e e' alike, rfl⟩
            · simp only [fr] at bound
              simp only [fr'] at bound'
              simp only [bound, bound']
              exact .error worlds ⟨shares.crash c, rfl⟩

/-- One function entered with two ways of making calls. -/
theorem enter_congr {L : Link κ κ' (Halt ε) (Halt ε')} {P : Value → Prop} {G : Array Value → Prop}
    (shares : L.Shares P G) (closed : Closed P) {setup : Setup}
    (hosts : ∀ name run past args v, setup.hosts name = some run → run past args = .ok v → P v)
    {m m' : Module} {id : FuncId} {f : Function} (found : m.function? id = some f)
    (found' : m'.function? id = some f) (consts : Constants P f)
    (count : m'.functions.size = m.functions.size)
    (initial : initialGlobals m' = initialGlobals m)
    (good : ∀ globals, initialGlobals m = .ok globals → G globals)
    {call : Call κ ε} {call' : Call κ' ε'} (calls : CallsMatch L P call call')
    {fuel fuel' depth : Nat} (fuels : L.Fuels fuel fuel') {args : List Value}
    (fine : ∀ a ∈ args, P a) {w : World κ} {w' : World κ'} (worlds : L.worlds w w') :
    L.Ends P (enter setup m call fuel depth id args w)
      (enter setup m' call' fuel' depth id args w') := by
  refine enter_ends shares hosts found found' ⟨rfl, rfl, rfl, rfl, rfl⟩ initial good worlds ?_
  intro _ fr fr' w w' worlds started started' regs
  have same : fr' = fr := by
    obtain ⟨function, registers, block, stats⟩ := fr
    obtain ⟨function', registers', block', stats'⟩ := fr'
    obtain rfl := started.function.trans started'.function.symm
    obtain rfl := started.block.trans started'.block.symm
    obtain rfl := started.stats.trans started'.stats.symm
    obtain rfl : registers' = registers := regs
    rfl
  rw [count, same]
  exact run_congr shares closed calls _ consts fuels
    ⟨started.function, fun r v held => fine v (started.values r v held)⟩ none .entry worlds

/-- A run beside itself: what its calls work on keeps a property, and what it fails with has one. -/
def keeping (I : κ → Prop) (F : Halt ε → Prop) : Link κ κ (Halt ε) (Halt ε) where
  worlds w w' := w' = w ∧ I w.rest
  left _ := False
  right _ := False
  failures h _ := F h

theorem keeping_matches {α : Type} {I : κ → Prop} {F : Halt ε → Prop} {R : α → α → Prop}
    {r : Except (Halt ε) α} {w : World κ} (matched : (keeping I F).Matches R (r, w) (r, w)) :
    I w.rest ∧ ∀ h, r = .error h → F h := by
  cases matched with
  | left free => exact free.elim
  | right free => exact free.elim
  | ok worlds _ => exact ⟨worlds.2, by rintro h ⟨⟩⟩
  | error worlds failed =>
    refine ⟨worlds.2, ?_⟩
    rintro h ⟨⟩
    exact failed

theorem keeping_shares (I : κ → Prop) {F : Halt ε → Prop} (own : ∀ h, (∀ x, h ≠ .other x) → F h) :
    (keeping I F).Shares (fun _ => True) fun _ => True where
  globals := by
    rintro w _ ⟨rfl, _⟩
    exact ⟨rfl, trivial⟩
  reset := by
    rintro w _ globals ⟨rfl, holds⟩ _
    exact ⟨rfl, holds⟩
  store := fun _ _ _ _ _ _ _ => trivial
  values := fun _ _ _ _ => trivial
  hostCalls := by
    rintro w _ ⟨rfl, _⟩
    rfl
  hosted := by
    rintro w _ h ⟨rfl, holds⟩
    exact ⟨rfl, holds⟩
  alike := fun _ _ _ => own _ (by simp)
  host := fun _ _ => own _ (by simp)
  crash := fun _ => own _ (by simp)

/-- What calls keep, entering a function keeps. What it fails with is a failure of the evaluator or
of one of the calls. -/
theorem enter_keeps_failing {I : κ → Prop} {F : Halt ε → Prop}
    (own : ∀ h, (∀ x, h ≠ .other x) → F h) {setup : Setup} {m : Module} {call : Call κ ε}
    (calls : ∀ id args w, I w.rest →
      I (call id args w).2.rest ∧ ∀ h, (call id args w).1 = .error h → F h)
    (fuel depth : Nat) (id : FuncId) (args : List Value) {w : World κ} (holds : I w.rest) :
    I (enter setup m call fuel depth id args w).world.rest ∧
      ∀ h, (enter setup m call fuel depth id args w).result = .error h → F h := by
  cases found : m.function? id with
  | none =>
    simp only [enter, found]
    refine ⟨holds, ?_⟩
    rintro h ⟨⟩
    exact own _ (by simp)
  | some f =>
    have matching : CallsMatch (keeping I F) (fun _ => True) call call := by
      rintro id args _ w ⟨rfl, holds⟩ _
      obtain ⟨kept, fails⟩ := calls id args w holds
      revert kept fails
      generalize call id args w = out
      obtain ⟨r, w'⟩ := out
      intro kept fails
      cases r with
      | error h => exact Link.Matches.error ⟨rfl, kept⟩ (fails h rfl)
      | ok v => exact Link.Matches.ok ⟨rfl, kept⟩ ⟨rfl, trivial⟩
    have ends : (keeping I F).Ends (fun _ => True) (enter setup m call fuel depth id args w)
        (enter setup m call fuel depth id args w) :=
      enter_congr (keeping_shares I own) ⟨trivial, fun _ _ _ _ _ _ _ _ => trivial⟩
        (fun _ _ _ _ _ _ _ => trivial) found found (fun _ _ _ _ _ _ _ => trivial) rfl rfl
        (fun _ _ => trivial) matching (.inl ⟨rfl, own _ (by simp)⟩) (fun _ _ => trivial) ⟨rfl, holds⟩
    exact keeping_matches ends.result

theorem enter_keeps {I : κ → Prop} {setup : Setup} {m : Module} {call : Call κ ε}
    (calls : ∀ id args w, I w.rest → I (call id args w).2.rest) (fuel depth : Nat) (id : FuncId)
    (args : List Value) {w : World κ} (holds : I w.rest) :
    I (enter setup m call fuel depth id args w).world.rest :=
  (enter_keeps_failing (F := fun _ => True) (fun _ _ => trivial)
    (fun id args w held => ⟨calls id args w held, fun _ _ => trivial⟩) fuel depth id args holds).1

end TieredEngine.Eval

/-!
The number of globals. A store replaces a global by another value, so whatever runs leaves as many
globals as it found, as long as the calls it makes do.
-/
namespace TieredEngine.Eval
open TieredEngine.Ir

variable {κ ε : Type}

/-- Calls that keep the number of globals. -/
def KeepsCount (count : Nat) (call : Call κ ε) : Prop :=
  ∀ id args w, w.globals.size = count → (call id args w).2.globals.size = count

theorem size_storeGlobal {globals globals' : Array Value} {id : GlobalId} {v : Value}
    (stored : storeGlobal globals id v = .ok globals') : globals'.size = globals.size := by
  unfold storeGlobal at stored
  split at stored
  · cases stored
  · split at stored <;> cases stored
    exact Array.size_setIfInBounds

namespace Frame

variable {count : Nat} {call : Call κ ε} {known : FuncId → Bool}

theorem exec_globals (keeps : KeepsCount count call) (fr : Frame) (i : Inst) {w : World κ}
    (size : w.globals.size = count) : (fr.exec call known w i).2.globals.size = count := by
  unfold exec
  split
  · unfold callOut
    split
    · exact size
    · split
      · exact size
      · next args _ =>
        have kept := keeps i.callee args w size
        split
        · next called => rwa [called] at kept
        · next called =>
          rw [called] at kept
          split <;> exact kept
  · split
    · exact size
    · split
      · exact size
      · next stored => rw [size_storeGlobal stored, size]
  · split <;> exact size

theorem execAll_globals (keeps : KeepsCount count call) {is : List Inst} (fr : Frame)
    {w : World κ} (size : w.globals.size = count) :
    (Frame.execAll call known is fr w).2.globals.size = count := by
  induction is generalizing fr w with
  | nil => exact size
  | cons i is ih =>
    have kept : (fr.exec call known w i).2.globals.size = count := exec_globals keeps fr i size
    unfold Frame.execAll
    split
    · next ran => rwa [ran] at kept
    · next ran =>
      rw [ran] at kept
      exact ih _ kept

end Frame

section Globals

variable {count : Nat} {call : Call κ ε} (known : FuncId → Bool) {w : World κ}

theorem turn_globals (keeps : KeepsCount count call) (fr : Frame) (prev : Option BlockId)
    (cur : BlockId) (size : w.globals.size = count) :
    match Frame.turn call known fr w prev cur with
    | .stop out => out.world.globals.size = count
    | .go _ w' _ => w'.globals.size = count := by
  unfold Frame.turn
  cases fr.function.block? cur with
  | none => exact size
  | some b =>
    simp only [Frame.runBlock]
    cases (fr.arrive cur).applyPhis b prev with
    | error e => exact size
    | ok fr₁ =>
      have kept : (Frame.execAll call known b.insts fr₁ w).2.globals.size = count :=
        Frame.execAll_globals keeps fr₁ size
      dsimp only
      rcases executed : Frame.execAll call known b.insts fr₁ w with ⟨⟨h, stats⟩ | fr₂, w₂⟩
      · rwa [executed] at kept
      · rw [executed] at kept
        dsimp only
        cases fr₂.terminate b.term with
        | error e => exact kept
        | ok next => cases next <;> exact kept

theorem run_globals (keeps : KeepsCount count call) (fuel : Nat) (fr : Frame)
    (prev : Option BlockId) (cur : BlockId) (size : w.globals.size = count) :
    (Frame.run call known fuel fr w prev cur).world.globals.size = count := by
  induction fuel generalizing fr w prev cur with
  | zero => exact size
  | succ fuel ih =>
    have turned := turn_globals known keeps fr prev cur size
    unfold Frame.run
    cases stepped : Frame.turn call known fr w prev cur with
    | stop out => rwa [stepped] at turned
    | go fr' w' next =>
      rw [stepped] at turned
      exact ih fr' (some cur) next turned

end Globals

/-- However a function is entered, the number of globals stays. -/
theorem enter_globals (setup : Setup) {m : Module} {call : Call κ ε}
    (keeps : KeepsCount m.globals.size call) (fuel depth : Nat) (id : FuncId) (args : List Value)
    {w : World κ} (built : setup.shared = true → w.globals.size = m.globals.size) :
    (enter setup m call fuel depth id args w).world.globals.size = w.globals.size := by
  cases found : m.function? id with
  | none => simp only [enter, found]
  | some f =>
    have entered : Entered _ m call fuel f args w (enter setup m call fuel depth id args w) :=
      enter_cases found args w
    revert entered
    generalize enter setup m call fuel depth id args w = out
    intro entered
    cases entered with
    | refused => rfl
    | crashed => rfl
    | hosted => exact congrArg Array.size (globals_callHost setup.hosts f args w)
    | ran _ _ fr globals _ origin =>
      unfold Setup.settle
      split
      · next shared =>
        rw [if_pos shared] at origin
        cases origin
        rw [built shared]
        exact run_globals _ keeps fuel fr none f.entry (built shared)
      · rfl

theorem runAt_globals (setup : Setup) (m : Module) (fuel depth : Nat) (id : FuncId)
    (args : List Value) {w : World κ}
    (built : setup.shared = true → w.globals.size = m.globals.size) :
    (runAt (ε := ε) setup m fuel depth id args w).world.globals.size = w.globals.size := by
  induction fuel generalizing depth id args w with
  | zero => rfl
  | succ fuel ih =>
    refine enter_globals setup (fun id args w size => ?_) fuel depth id args built
    exact (ih (depth + 1) id args fun _ => size).trans size

end TieredEngine.Eval
