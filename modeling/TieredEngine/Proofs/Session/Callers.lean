import TieredEngine.Proofs.Session.Promotion
import TieredEngine.Session.Callers
import TieredEngine.Session.StandIn

/-!
Callers that promote one function at the same time. However their steps are mixed, the function is
promoted by one of them at a time and never falls back to a lower tier. The cap on promotions is
compared before the function is taken, and not again: every other caller that has compared it in
time may go beyond it by one.
-/
namespace TieredEngine.Session
open TieredEngine TieredEngine.Ir TieredEngine.Native

namespace Stage

/-- The tier that code is being made for, or has been. -/
def chosen? : Stage → Option Tier
  | compiling t => some t
  | installed e => some e.tier
  | _ => none

/-- The function runs on the code, and the promotion is not counted yet. -/
def uncounted : Stage → Bool
  | switched => true
  | _ => false

/-- The cap does not stop the caller any more, and its promotion is not counted yet. -/
def uncapped : Stage → Bool
  | counted _ | untried _ | higher _ | holding _ | granted _ | queued _ | started _ | compiling _
  | installed _ | switched => true
  | _ => false

theorem holds_of_chosen {stage : Stage} {t : Tier} (chosen : stage.chosen? = some t) :
    stage.holds = true := by
  cases stage with
  | compiling _ => rfl
  | installed _ => rfl
  | _ => cases chosen

theorem holds_of_uncounted {stage : Stage} (uncounted : stage.uncounted = true) :
    stage.holds = true := by
  cases stage with
  | switched => rfl
  | _ => cases uncounted

/-- Everything that a step of one caller can do. -/
inductive Moved (setup : Setup) (s : Shared) : Stage → Shared × Stage → Prop where
  /-- A caller that does not have the function goes on with its checks, or gives up. -/
  | looked {a b : Stage} (free : a.holds = false) (free' : b.holds = false)
      (checked : b.uncapped = true →
        a.uncapped = true ∨ (s.slot.promotions : Int) < setup.config.maxPromotions) :
      Moved setup s a (s, b)
  | took (t : Tier) (unheld : s.slot.promoting = false) :
      Moved setup s (higher t) ({ s with slot := { s.slot with promoting := true } }, holding t)
  /-- A caller that has the function goes on, and leaves its code and the count as they are. -/
  | worked {a b : Stage} {s' : Shared} (has : a.holds = true) (has' : b.holds = true)
      (settled : b.uncounted = a.uncounted)
      (checked : b.uncapped = true → a.uncapped = true)
      (above : ∀ t, b.chosen? = some t → s.slot.tier.rank < t.rank ∨ a.chosen? = some t)
      (entry : s'.slot.entry = s.slot.entry) (promoting : s'.slot.promoting = s.slot.promoting)
      (promotions : s'.slot.promotions = s.slot.promotions) : Moved setup s a (s', b)
  | switched (e : Entry) :
      Moved setup s (installed e) ({ s with slot := { s.slot with entry := some e } }, switched)
  | counted :
      Moved setup s switched
        ({ s with slot := { s.slot with promotions := s.slot.promotions + 1 } }, leaving)
  | gaveBack :
      Moved setup s leaving ({ s with slot := { s.slot with promoting := false } }, idle)

theorem Moved.rest (setup : Setup) (s : Shared) (a : Stage) : Moved setup s a (s, a) := by
  cases has : a.holds with
  | false => exact .looked has has .inl
  | true => exact .worked has has rfl id (fun _ => .inr) rfl rfl rfl

/-- A caller that has the function, and no code for it, goes on. -/
theorem Moved.onward (setup : Setup) (s : Shared) {a b : Stage} {failed : Nat} {ended : Bool}
    (has : a.holds = true) (has' : b.holds = true) (settled : b.uncounted = a.uncounted)
    (passed : a.uncapped = true) (uncoded : b.chosen? = none) :
    Moved setup s a ({ s with slot := { s.slot with failed }, ended }, b) := by
  refine .worked has has' settled (fun _ => passed) (fun t chosen => ?_) rfl rfl rfl
  rw [uncoded] at chosen
  cases chosen

/-- A check passes or ends the request. -/
theorem Moved.check (setup : Setup) (s : Shared) {a b : Stage} (free : a.holds = false)
    (free' : b.holds = false) {passes : Prop} [Decidable passes]
    (checked : passes → b.uncapped = true →
      a.uncapped = true ∨ (s.slot.promotions : Int) < setup.config.maxPromotions) :
    Moved setup s a (s, if passes then b else idle) := by
  split
  · next passed => exact .looked free free' (checked passed)
  · exact .looked free rfl fun uncapped => nomatch uncapped

theorem advance_moved (setup : Setup) (s : Shared) (made : Made) (stage : Stage) :
    Moved setup s stage (stage.advance setup s made) := by
  cases stage with
  | idle => exact .rest setup s idle
  | asked t => exact .check setup s rfl rfl fun _ uncapped => nomatch uncapped
  | admitted t => exact .check setup s rfl rfl fun _ uncapped => nomatch uncapped
  | possible t => exact .check setup s rfl rfl fun below _ => .inr below
  | counted t => exact .check setup s rfl rfl fun _ _ => .inl rfl
  | untried t => exact .check setup s rfl rfl fun _ _ => .inl rfl
  | higher t =>
    dsimp only [advance]
    split
    · exact .looked rfl rfl fun uncapped => nomatch uncapped
    · next unheld => exact .took t (by simpa using unheld)
  | holding t =>
    dsimp only [advance]
    split <;> exact .onward setup s rfl rfl rfl rfl rfl
  | granted t =>
    dsimp only [advance]
    split
    · exact .onward setup s rfl rfl rfl rfl rfl
    · split <;> exact .onward setup s rfl rfl rfl rfl rfl
  | queued t => exact .onward setup s rfl rfl rfl rfl rfl
  | started t =>
    dsimp only [advance]
    split
    · exact .onward setup s rfl rfl rfl rfl rfl
    · next tier backend chosen =>
      refine .worked rfl rfl rfl (fun _ => rfl) (fun u same => .inl ?_) rfl rfl rfl
      cases same
      exact (Setup.backendFor_some chosen).1
  | compiling tier =>
    cases made with
    | code e => exact .worked rfl rfl rfl (fun _ => rfl) (fun _ => .inr) rfl rfl rfl
    | _ => exact .onward setup s rfl rfl rfl rfl rfl
  | installed e => exact .switched e
  | switched => exact .counted
  | leaving => exact .gaveBack

theorem step_moved (setup : Setup) (s : Shared) (move : Move) (stage : Stage) :
    Moved setup s stage (stage.step setup s move) := by
  unfold step
  split
  · exact .looked rfl rfl fun uncapped => nomatch uncapped
  · exact advance_moved setup s _ stage
  · split <;> exact .onward setup s rfl rfl rfl rfl rfl
  · exact .rest setup s stage

end Stage

namespace Callers

variable {setup : Setup} {c : Callers}

/-- Everything that a turn can do. -/
inductive Turned (setup : Setup) (c : Callers) : Callers → Prop where
  /-- At most, promotions end. -/
  | aside {s' : Shared} (slot : s'.slot = c.shared.slot) : Turned setup c { c with shared := s' }
  | moved {before after : List Stage} {a b : Stage} {s' : Shared}
      (there : c.stages = before ++ a :: after) (moved : Stage.Moved setup c.shared a (s', b)) :
      Turned setup c { shared := s', stages := before ++ b :: after }

theorem turn_turned (setup : Setup) (c : Callers) (t : Turn) : Turned setup c (c.turn setup t) := by
  cases t with
  | fail => exact .aside rfl
  | close => exact .aside rfl
  | caller n move =>
    dsimp only [turn]
    split
    · exact .aside rfl
    · next stage there =>
      obtain ⟨inside, same⟩ := List.getElem?_eq_some_iff.mp there
      have split : c.stages = c.stages.take n ++ stage :: c.stages.drop (n + 1) := by
        rw [← same, ← List.drop_eq_getElem_cons inside, List.take_append_drop]
      rw [List.set_eq_take_append_cons_drop, if_pos inside]
      exact .moved split (stage.step_moved setup c.shared move)

/-- What holds of callers at any time. -/
structure Sound (setup : Setup) (c : Callers) : Prop where
  /-- Nobody has the function, or one caller. -/
  held : c.stages.countP Stage.holds = c.shared.slot.promoting.toNat
  /-- Code is made for higher tiers only. -/
  above : ∀ stage ∈ c.stages, ∀ t, stage.chosen? = some t → c.shared.slot.tier.rank < t.rank
  /-- Every promotion was to a higher tier. -/
  climbed : c.shared.slot.promotions + c.stages.countP Stage.uncounted ≤ c.shared.slot.tier.rank
  /-- When the cap is reached, at least one caller has gone past it, and no more follow. -/
  capped : setup.config.maxPromotions.toNat ≤ c.shared.slot.promotions →
    c.shared.slot.promotions + c.stages.countP Stage.uncapped ≤
      setup.config.maxPromotions.toNat + (c.stages.length - 1)

theorem sound_start (setup : Setup) (f : Function) (count : Nat) : Sound setup (start f count) := by
  refine ⟨?_, ?_, ?_, fun _ => ?_⟩
  · simp [start, List.countP_replicate, Stage.holds]
  · intro stage member t chosen
    cases List.eq_of_mem_replicate member
    cases chosen
  · simp [start, List.countP_replicate, Stage.uncounted]
  · simp [start, List.countP_replicate, Stage.uncapped]

/-- One of the callers counted apart from the others. -/
theorem countP_middle (p : Stage → Bool) (before after : List Stage) (a : Stage) :
    (before ++ a :: after).countP p = (before ++ after).countP p + (p a).toNat := by
  simp only [List.countP_append, List.countP_cons]
  cases p a <;> simp [Nat.add_assoc]

section Moving

variable {before after : List Stage} {a b : Stage} {s' : Shared}

/-- While one caller has the function, no other does anything to it. -/
theorem Sound.alone (sound : c.Sound setup) (there : c.stages = before ++ a :: after)
    (has : a.holds = true) :
    c.shared.slot.promoting = true ∧ ∀ stage ∈ before ++ after, stage.holds = false := by
  have held := sound.held
  rw [there, countP_middle, has, Bool.toNat_true] at held
  have bound := Bool.toNat_le c.shared.slot.promoting
  refine ⟨Bool.toNat_eq_one.mp (by omega), fun stage member => ?_⟩
  have none : (before ++ after).countP Stage.holds = 0 := by omega
  simpa using List.countP_eq_zero.mp none stage member

theorem Sound.held_moved (sound : c.Sound setup) (there : c.stages = before ++ a :: after)
    (moved : Stage.Moved setup c.shared a (s', b)) :
    (before ++ b :: after).countP Stage.holds = s'.slot.promoting.toNat := by
  have held := sound.held
  rw [there, countP_middle] at held
  rw [countP_middle]
  cases moved with
  | looked free free' _ => simpa only [free, free'] using held
  | took t unheld => simpa [Stage.holds, unheld] using held
  | worked has has' _ _ _ _ promoting _ => simpa only [has, has', promoting] using held
  | switched e => exact held
  | counted => exact held
  | gaveBack =>
    have taken := (sound.alone there rfl).1
    simpa [Stage.holds, taken] using held

/-- Code is made by who has the function, so that the tier is not raised by another meanwhile. -/
theorem Sound.above_moved (sound : c.Sound setup) (there : c.stages = before ++ a :: after)
    (moved : Stage.Moved setup c.shared a (s', b)) :
    ∀ stage ∈ before ++ b :: after, ∀ t, stage.chosen? = some t →
      s'.slot.tier.rank < t.rank := by
  have above := sound.above
  rw [there] at above
  have others : ∀ stage ∈ before ++ after, ∀ t, stage.chosen? = some t →
      c.shared.slot.tier.rank < t.rank := fun stage member =>
    above stage (by
      rcases List.mem_append.mp member with early | late
      · exact List.mem_append_left _ early
      · exact List.mem_append_right _ (List.mem_cons_of_mem _ late))
  have own := above a (by simp)
  suffices kept : (∀ stage ∈ before ++ after, ∀ t, stage.chosen? = some t →
      s'.slot.tier.rank < t.rank) ∧ ∀ t, b.chosen? = some t → s'.slot.tier.rank < t.rank by
    intro stage member
    rcases List.mem_append.mp member with early | late
    · exact kept.1 stage (List.mem_append_left _ early)
    · rcases List.mem_cons.mp late with rfl | later
      · exact kept.2
      · exact kept.1 stage (List.mem_append_right _ later)
  cases moved with
  | looked free free' _ =>
    refine ⟨others, fun t chosen => ?_⟩
    rw [Stage.holds_of_chosen chosen] at free'
    cases free'
  | took t unheld => exact ⟨others, fun _ none => nomatch none⟩
  | worked has has' _ _ higher entry _ _ =>
    have same : s'.slot.tier = c.shared.slot.tier := by
      unfold Slot.tier
      rw [entry]
    rw [same]
    refine ⟨others, fun t chosen => ?_⟩
    rcases higher t chosen with now | before
    · exact now
    · exact own t before
  | switched e =>
    refine ⟨fun stage member t chosen => ?_, fun _ none => nomatch none⟩
    have free := (sound.alone there rfl).2 stage member
    rw [Stage.holds_of_chosen chosen] at free
    cases free
  | counted => exact ⟨others, fun _ none => nomatch none⟩
  | gaveBack => exact ⟨others, fun _ none => nomatch none⟩

theorem Sound.climbed_moved (sound : c.Sound setup) (there : c.stages = before ++ a :: after)
    (moved : Stage.Moved setup c.shared a (s', b)) :
    s'.slot.promotions + (before ++ b :: after).countP Stage.uncounted ≤ s'.slot.tier.rank := by
  have climbed := sound.climbed
  rw [there, countP_middle] at climbed
  rw [countP_middle]
  cases moved with
  | looked free free' _ =>
    have settled : ∀ stage : Stage, stage.holds = false → stage.uncounted = false := by
      intro stage free
      by_contra uncounted
      rw [Stage.holds_of_uncounted (by simpa using uncounted)] at free
      cases free
    simpa only [settled a free, settled b free'] using climbed
  | took t unheld => exact climbed
  | worked _ _ settled _ _ entry _ promotions =>
    unfold Slot.tier
    rw [entry, promotions, settled]
    exact climbed
  | switched e =>
    have higher := sound.above (.installed e) (by simp [there]) e.tier rfl
    show c.shared.slot.promotions + ((before ++ after).countP Stage.uncounted + 1) ≤ e.tier.rank
    omega
  | counted =>
    show c.shared.slot.promotions + 1 + (before ++ after).countP Stage.uncounted ≤
      c.shared.slot.tier.rank
    have climbed : c.shared.slot.promotions + ((before ++ after).countP Stage.uncounted + 1) ≤
      c.shared.slot.tier.rank := climbed
    omega
  | gaveBack => exact climbed

theorem Sound.capped_moved (sound : c.Sound setup) (there : c.stages = before ++ a :: after)
    (moved : Stage.Moved setup c.shared a (s', b))
    (reached : setup.config.maxPromotions.toNat ≤ s'.slot.promotions) :
    s'.slot.promotions + (before ++ b :: after).countP Stage.uncapped ≤
      setup.config.maxPromotions.toNat + ((before ++ b :: after).length - 1) := by
  have capped := sound.capped
  rw [there, countP_middle] at capped
  rw [countP_middle]
  have same : (before ++ b :: after).length = (before ++ a :: after).length := by simp
  rw [same]
  have unchanged : s'.slot.promotions = c.shared.slot.promotions →
      (b.uncapped = true → a.uncapped = true) →
      s'.slot.promotions + ((before ++ after).countP Stage.uncapped + b.uncapped.toNat) ≤
        setup.config.maxPromotions.toNat + ((before ++ a :: after).length - 1) := by
    intro promotions checked
    have fewer : b.uncapped.toNat ≤ a.uncapped.toNat := by
      cases further : b.uncapped with
      | false => exact Nat.zero_le _
      | true => rw [checked further]
    have before := capped (promotions ▸ reached)
    omega
  cases moved with
  | looked _ _ checked =>
    refine unchanged rfl fun uncapped => (checked uncapped).resolve_right ?_
    omega
  | took t unheld => exact unchanged rfl fun _ => rfl
  | worked _ _ _ checked _ _ _ promotions => exact unchanged promotions checked
  | switched e => exact unchanged rfl fun _ => rfl
  | gaveBack => exact unchanged rfl fun uncapped => nomatch uncapped
  | counted =>
    show c.shared.slot.promotions + 1 + (before ++ after).countP Stage.uncapped ≤ _
    have reached : setup.config.maxPromotions.toNat ≤ c.shared.slot.promotions + 1 := reached
    have others : (before ++ after).countP Stage.uncapped ≤ (before ++ after).length :=
      List.countP_le_length
    have length : (before ++ Stage.switched :: after).length - 1 = (before ++ after).length := by
      simp [← Nat.add_assoc]
    rw [length] at capped ⊢
    by_cases exceeded : setup.config.maxPromotions.toNat ≤ c.shared.slot.promotions
    · have before : c.shared.slot.promotions + ((before ++ after).countP Stage.uncapped + 1) ≤ _ :=
        capped exceeded
      omega
    · omega

end Moving

theorem Sound.turned {c' : Callers} (sound : c.Sound setup) (turned : c.Turned setup c') :
    c'.Sound setup := by
  cases turned with
  | aside slot =>
    obtain ⟨held, above, climbed, capped⟩ := sound
    exact ⟨slot ▸ held, slot ▸ above, slot ▸ climbed, slot ▸ capped⟩
  | moved there moved =>
    exact ⟨sound.held_moved there moved, sound.above_moved there moved,
      sound.climbed_moved there moved, sound.capped_moved there moved⟩

theorem Turned.climbs {c' : Callers} (sound : c.Sound setup) (turned : c.Turned setup c') :
    c.shared.slot.tier.rank ≤ c'.shared.slot.tier.rank := by
  cases turned with
  | aside slot => rw [slot]
  | moved there moved =>
    cases moved with
    | worked _ _ _ _ _ entry _ _ =>
      unfold Slot.tier
      rw [entry]
    | switched e => exact Nat.le_of_lt (sound.above (.installed e) (by simp [there]) e.tier rfl)
    | _ => exact Nat.le_refl _

theorem Sound.run (sound : c.Sound setup) (turns : List Turn) :
    (run setup turns c).Sound setup ∧
      c.shared.slot.tier.rank ≤ (run setup turns c).shared.slot.tier.rank := by
  induction turns generalizing c with
  | nil => exact ⟨sound, Nat.le_refl _⟩
  | cons t turns ih =>
    have turned := turn_turned setup c t
    obtain ⟨kept, higher⟩ := ih (sound.turned turned)
    exact ⟨kept, Nat.le_trans (turned.climbs sound) higher⟩

theorem Turned.length {c' : Callers} (turned : c.Turned setup c') :
    c'.stages.length = c.stages.length := by
  cases turned with
  | aside _ => rfl
  | moved there _ => simp [there]

theorem run_length (turns : List Turn) : (run setup turns c).stages.length = c.stages.length := by
  induction turns generalizing c with
  | nil => rfl
  | cons t turns ih => exact ih.trans (turn_turned setup c t).length

end Callers

/-- However the callers of a function take turns, one at a time has the function, its tier never
falls, and every promotion was to a higher tier. Each caller beyond the first can exceed the cap by
one promotion. -/
theorem promotions_in_turn (setup : Setup) (f : Function) (count : Nat) (turns later : List Turn) :
    let c := Callers.run setup turns (.start f count)
    c.stages.countP Stage.holds ≤ 1 ∧
    c.shared.slot.tier.rank ≤ (Callers.run setup later c).shared.slot.tier.rank ∧
    c.shared.slot.promotions ≤ c.shared.slot.tier.rank ∧
    c.shared.slot.promotions ≤ setup.config.maxPromotions.toNat + (count - 1) := by
  intro c
  have sound : c.Sound setup := ((Callers.sound_start setup f count).run turns).1
  have callers : c.stages.length = count :=
    (Callers.run_length turns).trans List.length_replicate
  have capped := sound.capped
  rw [callers] at capped
  refine ⟨?_, (sound.run later).2, ?_, ?_⟩
  · rw [sound.held]
    exact Bool.toNat_le _
  · have climbed := sound.climbed
    omega
  · omega

/-- A session in which each function may be promoted once. -/
def onePromotion : Setup := {
  config := { thresholds := ⟨1, 2, 3, 4, 1⟩, startInterpreted := true, maxPromotions := 1,
              backends := some (Tier.compiled.map (·, "standIn")) }
  backends := [.standIn [] true "standIn"]
  invoker := some .standIn }

/-- Two callers ask for different tiers and come through the checks; then one is promoted, and after
it the other. -/
def twoTargets (e : Entry) : List Turn :=
  let goes (n steps : Nat) := List.replicate steps (Turn.caller n (.advance (.code e)))
  [.caller 0 (.ask .baseline), .caller 1 (.ask .standard)] ++ goes 0 5 ++ goes 1 5 ++ goes 0 8 ++
    goes 1 8

/-- The count of promotions is not compared again once a caller has the function: the second caller
promotes a function that has reached its cap. -/
theorem two_targets_exceed_cap :
    let f : Function := { name := "f", blocks := #[some { term := .ret none }] }
    let e : Entry := { tier := .baseline, addr := 0x1000, backend := "standIn", code := [0xcc, 0x66]
                       convention := ⟨f.sig, [], 0, 0⟩, program := .ofBytes [0xcc, 0x66] }
    let c := Callers.run onePromotion (twoTargets e) (.start f 2)
    onePromotion.config.validate.toOption = some () ∧ onePromotion.config.maxPromotions = 1 ∧
      c.shared.slot.promotions = 2 := by
  decide +kernel

end TieredEngine.Session
