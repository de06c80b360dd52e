import TieredEngine.Proofs.Except
import TieredEngine.Proofs.Toml.Quoting
import TieredEngine.Settings.Reading

/-!
Reading back a configuration file that was saved. Of all that a file can say seven texts are written,
so what comes back is the file with nothing else said. It comes back when none of the texts has a
control character that a document cannot spell as quoting spells it.
-/
namespace TieredEngine.Settings
open TieredEngine TieredEngine.Toml TieredEngine.Session

namespace File

/-- The settings that are written to a file. -/
def written (f : File) : File where
  preset := f.preset
  session := {
    checkInterval := f.session.checkInterval, bailout := f.session.bailout
    regionSize := f.session.regionSize }
  ship := { level := f.ship.level, linker := f.ship.linker, runtimeDir := f.ship.runtimeDir }

/-- The lines of the file's text. -/
def lines (f : File) : List Line := [
  .comment "预设：script / application / server / benchmark / development / embedded",
  .setting "preset" f.preset, .blank, .heading "tiered",
  .comment "后台编译检查间隔", .setting "check_interval" f.session.checkInterval,
  .comment "退出解释器策略：immediate / quick / normal / slow / off / custom:N",
  .setting "bailout" f.session.bailout,
  .comment "JIT 代码区域大小", .setting "region_size" f.session.regionSize, .blank, .heading "aot",
  .comment "优化级别 O0-O3", .setting "opt_level" f.ship.level,
  .comment "链接器路径，为空时依次查找 clang、gcc、cc", .setting "linker" f.ship.linker,
  .comment "运行时库目录，为空时查找 MIRJIT_RUNTIME_DIR", .setting "runtime_dir" f.ship.runtimeDir]

/-- A setting with its comment, as it is written. -/
def entry (comment key value : String) : String := s!"# {comment}\n{key} = {Text.quoted value}\n"

theorem toList_entry (comment key value : String) : (entry comment key value).toList =
    (Line.comment comment).chars ++ (Line.setting key value).chars := by
  simp [entry, Line.chars, toString]

theorem toList_text (f : File) : f.text.toList = f.lines.flatMap Line.chars := by
  have session : "\n[tiered]\n".toList = Line.blank.chars ++ (Line.heading "tiered").chars := by
    simp [Line.chars]
  have ship : "\n[aot]\n".toList = Line.blank.chars ++ (Line.heading "aot").chars := by
    simp [Line.chars]
  have text : f.text = entry _ "preset" f.preset ++ "\n[tiered]\n" ++
      entry _ "check_interval" f.session.checkInterval ++ entry _ "bailout" f.session.bailout ++
      entry _ "region_size" f.session.regionSize ++ "\n[aot]\n" ++
      entry _ "opt_level" f.ship.level ++ entry _ "linker" f.ship.linker ++
      entry _ "runtime_dir" f.ship.runtimeDir := rfl
  rw [text]
  simp only [String.toList_append, toList_entry, session, ship, lines, List.flatMap_cons,
    List.flatMap_nil, List.append_assoc, List.append_nil]

theorem lines_proper (f : File) : ∀ l ∈ f.lines, l.isProper = true := by
  have named {name value : String} (proper : (Line.heading name).isProper = true) :
      (Line.setting name value).isProper = true := proper
  simp only [lines, List.forall_mem_cons]
  refine ⟨?_, named ?_, rfl, ?_, ?_, named ?_, ?_, named ?_, ?_, named ?_, rfl, ?_, ?_, named ?_, ?_,
    named ?_, ?_, named ?_, by simp⟩
  all_goals decide +kernel

/-- What the file's text says, line by line. -/
theorem exprs_lines (f : File) : f.lines.filterMap Line.expr? = [
    .keyValue [⟨"preset", false⟩] (.string f.preset), .table [⟨"tiered", false⟩],
    .keyValue [⟨"check_interval", false⟩] (.string f.session.checkInterval),
    .keyValue [⟨"bailout", false⟩] (.string f.session.bailout),
    .keyValue [⟨"region_size", false⟩] (.string f.session.regionSize), .table [⟨"aot", false⟩],
    .keyValue [⟨"opt_level", false⟩] (.string f.ship.level),
    .keyValue [⟨"linker", false⟩] (.string f.ship.linker),
    .keyValue [⟨"runtime_dir", false⟩] (.string f.ship.runtimeDir)] := rfl

/-- The texts that are written, none of which has a character that a document cannot spell. -/
def Legible (f : File) : Prop :=
  ∀ s ∈ [f.preset, f.session.checkInterval, f.session.bailout, f.session.regionSize, f.ship.level,
    f.ship.linker, f.ship.runtimeDir], ∀ c ∈ s.toList, isLegible c = true

instance (f : File) : Decidable f.Legible :=
  have (s : String) : Decidable (∀ c ∈ s.toList, isLegible c = true) :=
    List.decidableBAll _ s.toList
  List.decidableBAll _ _

theorem legible_lines (f : File) : (∀ l ∈ f.lines, l.Legible) ↔ f.Legible := by
  simp [lines, Legible, Line.Legible]

end File

namespace Reader

/-- A line that says a text for the first time. -/
theorem step_text {r : Reader} (table : Section) {name : String} {field : Field}
    {t : Setting String} (here : r.here = .table table) (known : table.field? name = some field)
    (slot : field.slot = .text t) (fresh : r.seen.find? (r.seen.current ++ [name]) = none)
    (v : String) : r.step (.keyValue [⟨name, false⟩] (.string v)) = .ok { r with
      progress := r.progress.on (t.put v)
      seen := r.seen.add ⟨r.seen.current ++ [name], .value, false, true⟩ } := by
  have seen : r.seen.line [⟨name, false⟩] (.string v) =
      .ok (r.seen.add ⟨r.seen.current ++ [name], .value, false, true⟩) := by
    simp [Seen.line, Key.trail, Seen.enterLine, fresh, Val.checkKeys, bind, Except.bind, pure,
      Except.pure]
  have stored : r.progress.assign table [⟨name, false⟩] [⟨name, false⟩] (.string v) =
      .ok (r.progress.on (t.put v)) := by
    simp [Progress.assign, known, Progress.store, slot]
  simp [step, line, here, seen, stored, Settings.Reading.lift, Except.mapError, bind, Except.bind,
    pure, Except.pure]

/-- The heading of a table that was not named before. -/
theorem step_heading {r : Reader} (table : Section) {name : String} {field : Field}
    (known : Section.root.field? name = some field) (slot : field.slot = .table table)
    (fresh : r.seen.closeLines.find? [name] = none) :
    r.step (.table [⟨name, false⟩]) = .ok { r with
      seen := { r.seen.closeLines.add ⟨[name], .table, true, false⟩ with current := [name] }
      here := .table table } := by
  have seen : r.seen.heading [name] =
      .ok { r.seen.closeLines.add ⟨[name], .table, true, false⟩ with current := [name] } := by
    simp [Seen.heading, Seen.enterOuter, fresh, bind, Except.bind, pure, Except.pure]
  have leads : place .root [name] = .ok (.table table) := by simp [place, known, slot]
  simp [step, heading, Key.trail, seen, leads, Settings.Reading.lift, Crash.lift, Except.mapError,
    bind, Except.bind, pure, Except.pure]

end Reader

/-- What stands in a saved file is taken back setting by setting. -/
theorem File.foldlM_exprs (f : File) : ∃ r, (f.lines.filterMap Line.expr?).foldlM Reader.step {} =
    .ok r ∧ r.progress = { file := f.written } := by
  have small : ∀ name ∈ ["preset", "tiered", "check_interval", "bailout", "region_size", "aot",
      "opt_level", "linker", "runtime_dir"], Text.lower name = name := by decide +kernel
  simp only [List.forall_mem_cons] at small
  obtain ⟨n1, n2, n3, n4, n5, n6, n7, n8, n9, -⟩ := small
  rw [f.exprs_lines]
  simp only [List.foldlM_cons, List.foldlM_nil]
  rw [Reader.step_text .root rfl (by simp only [Section.field?, n1]; rfl) rfl rfl]
  simp only [bind, Except.bind]
  rw [Reader.step_heading .session (by simp only [Section.field?, n2]; rfl) rfl rfl]
  simp only
  rw [Reader.step_text .session rfl (by simp only [Section.field?, n3]; rfl) rfl rfl]
  simp only
  rw [Reader.step_text .session rfl (by simp only [Section.field?, n4]; rfl) rfl rfl]
  simp only
  rw [Reader.step_text .session rfl (by simp only [Section.field?, n5]; rfl) rfl rfl]
  simp only
  rw [Reader.step_heading .ship (by simp only [Section.field?, n6]; rfl) rfl rfl]
  simp only
  rw [Reader.step_text .ship rfl (by simp only [Section.field?, n7]; rfl) rfl rfl]
  simp only
  rw [Reader.step_text .ship rfl (by simp only [Section.field?, n8]; rfl) rfl rfl]
  simp only
  rw [Reader.step_text .ship rfl (by simp only [Section.field?, n9]; rfl) rfl rfl]
  exact ⟨_, rfl, rfl⟩

namespace File

theorem enough_lines (f : File) : f.lines.length ≤ f.text.length + 1 := by
  rw [← String.length_toList, toList_text]
  exact Nat.le_succ_of_le (Line.length_le_chars f.lines)

/-- A legible file is read back as what was written of it. -/
theorem read_legible {f : File} (legible : f.Legible) : File.read f.text = .ok f.written := by
  have doc : Document.read f.text = { exprs := f.lines.filterMap Line.expr? } := by
    rw [Document.read, toList_text]
    exact Document.ofLines_legible f.lines_proper (f.legible_lines.mpr legible) f.enough_lines
  obtain ⟨r, ran, progress⟩ := f.foldlM_exprs
  simp only [File.read, doc, ran, bind, Except.bind, progress]
  rfl

/-- Any other file is refused, for an escape that documents do not have. -/
theorem read_illegible {f : File} (illegible : ¬ f.Legible) :
    ∃ b, File.read f.text = .error (.error (.form (.string (.unknownEscape b)))) := by
  have line : ∃ l ∈ f.lines, ¬ l.Legible := by
    simpa using mt f.legible_lines.mp illegible
  obtain ⟨b, before, ⟨after, whole⟩, doc⟩ :=
    Document.ofLines_illegible f.lines_proper line f.enough_lines
  rw [← toList_text] at doc
  obtain ⟨r, ran, -⟩ := f.foldlM_exprs
  rw [← whole, List.foldlM_append, bind_eq_ok] at ran
  obtain ⟨r', ran', -⟩ := ran
  refine ⟨b, ?_⟩
  simp only [File.read, Document.read, doc, ran', bind, Except.bind]
  rfl

/-- The configuration that comes of a file whose texts were read. -/
def configOver (f : File) (base : Config) (interval : Time.Duration) (bailout : Bailout)
    (size : Int) (backends : Option (List (Tier × String))) : Config where
  thresholds := f.session.thresholds.apply base.thresholds
  background := f.session.background.getD base.background
  checkInterval := interval
  maxParallel := f.session.maxParallel.getD base.maxParallel
  verbosity := f.session.verbosity.getD base.verbosity
  startInterpreted := f.session.startInterpreted.getD base.startInterpreted
  bailout := bailout
  maxPromotions := f.session.maxPromotions.getD base.maxPromotions
  backends := backends
  regionSize := size

/-- The code generators that a file comes to: those it names, or those of its base. -/
def Names (f : File) (base : Config) (backends : Option (List (Tier × String))) : Prop :=
  f.session.backends.isEmpty = true ∧ backends = base.backends ∨
    f.session.backends.isEmpty = false ∧
      ∃ pairs, backendsOf f.session.backends = .ok pairs ∧ backends = some pairs

/-- The file and what is written of it share a base and the texts that are read over it. -/
theorem sessionConfig_ok {f : File} {c : Config} (used : f.sessionConfig = .ok c) :
    ∃ base interval bailout size backends, f.presetConfig = .ok base ∧ f.Names base backends ∧
      c = f.configOver base interval bailout size backends ∧ c.validate = .ok () ∧
      f.written.sessionConfig =
        ((f.written.configOver base interval bailout size base.backends).validate.mapError
          SettingError.config >>= fun _ =>
            .ok (f.written.configOver base interval bailout size base.backends)) := by
  unfold sessionConfig at used
  obtain ⟨base, preset, used⟩ := bind_eq_ok.mp used
  obtain ⟨interval, readInterval, used⟩ := bind_eq_ok.mp used
  obtain ⟨bailout, readBailout, used⟩ := bind_eq_ok.mp used
  obtain ⟨size, readSize, used⟩ := bind_eq_ok.mp used
  have again : f.written.sessionConfig =
      ((f.written.configOver base interval bailout size base.backends).validate.mapError
        SettingError.config >>= fun _ =>
          .ok (f.written.configOver base interval bailout size base.backends)) := by
    have done {α β : Type} {x : Except SettingError α} {a : α} {more : α → Except SettingError β}
        (result : x = .ok a) : (x >>= more) = more a := by
      rw [result]
      rfl
    unfold sessionConfig
    exact (done preset).trans ((done readInterval).trans ((done readBailout).trans (done readSize)))
  split at used
  · next empty =>
    obtain ⟨backends, named, used⟩ := bind_eq_ok.mp used
    cases named
    obtain ⟨⟨⟩, valid, result⟩ := bind_eq_ok.mp used
    cases result
    exact ⟨base, interval, bailout, size, _, preset, .inl ⟨empty, rfl⟩, rfl,
      mapError_eq_ok.mp valid, again⟩
  · next given =>
    obtain ⟨backends, named, used⟩ := bind_eq_ok.mp used
    obtain ⟨pairs, known, rfl⟩ := map_eq_ok.mp named
    obtain ⟨⟨⟩, valid, result⟩ := bind_eq_ok.mp used
    cases result
    exact ⟨base, interval, bailout, size, _, preset, .inr ⟨by simpa using given, pairs, known, rfl⟩,
      rfl, mapError_eq_ok.mp valid, again⟩

/-- What the file says of sessions beyond what is written holds anyway, by its base. -/
structure SaysNoMore (f : File) (base : Config) : Prop where
  thresholds : f.session.thresholds.apply base.thresholds = base.thresholds
  background : f.session.background.getD base.background = base.background
  maxParallel : f.session.maxParallel.getD base.maxParallel = base.maxParallel
  verbosity : f.session.verbosity.getD base.verbosity = base.verbosity
  startInterpreted : f.session.startInterpreted.getD base.startInterpreted = base.startInterpreted
  maxPromotions : f.session.maxPromotions.getD base.maxPromotions = base.maxPromotions
  backends : ∀ backends, f.Names base backends → ∀ t,
    (backends.getD []).lookup t = (base.backends.getD []).lookup t

/-- What the file says of compilations beyond what is written holds anyway, by the defaults. -/
structure ShipsNoMore (f : File) : Prop where
  target : f.ship.target = ""
  sysroot : f.ship.sysroot = ""
  codegen : f.ship.codegen = ""
  assembler : f.ship.assembler = ""
  strip : f.ship.strip.getD true = true
  stripSymbols : f.ship.stripSymbols = false

end File

/-- Two configurations that name the same generator for each tier and agree in everything else. -/
structure SameConfig (c d : Config) : Prop where
  rest : { c with backends := none } = { d with backends := none }
  backends : ∀ t, (c.backends.getD []).lookup t = (d.backends.getD []).lookup t

theorem validate_eq_ok {c : Config} : c.validate = .ok () ↔ c.thresholds.isAscending = true ∧
    ¬ c.maxParallel < 0 ∧ ¬ c.maxPromotions < 0 ∧ ¬ (c.background = true ∧ c.checkInterval ≤ 0) ∧
    (c.backends.getD []).lookup .interpreted = none := by
  have none : (c.backends.getD []).find? (·.1 == .interpreted) = none ↔
      (c.backends.getD []).lookup .interpreted = none := by
    rw [List.find?_eq_none, List.lookup_eq_none_iff]
    exact forall₂_congr fun p _ => by simp [Bool.beq_comm]
  rw [← none]
  unfold Config.validate
  by_cases ascending : c.thresholds.isAscending = true
  · by_cases parallel : c.maxParallel < 0
    · simp [ascending, parallel, bind, Except.bind, pure, Except.pure]
    · by_cases promotions : c.maxPromotions < 0
      · simp [ascending, parallel, promotions, bind, Except.bind, pure, Except.pure]
      · by_cases interval : c.background = true ∧ c.checkInterval ≤ 0
        · simp [ascending, parallel, promotions, interval, bind, Except.bind, pure, Except.pure]
        · cases (c.backends.getD []).find? (·.1 == .interpreted) with
          | none => simp [ascending, parallel, promotions, interval, pure, Except.pure]
          | some p => simp [ascending, parallel, promotions, interval]
  · simp [ascending, bind, Except.bind, pure, Except.pure]

/-- The check of a configuration asks of the generators only which tiers have one. -/
theorem SameConfig.validate {c d : Config} (same : SameConfig c d) (valid : d.validate = .ok ()) :
    c.validate = .ok () := by
  obtain ⟨ascending, parallel, promotions, interval, noneNamed⟩ := validate_eq_ok.mp valid
  have rest := Config.mk.inj same.rest
  refine validate_eq_ok.mpr ⟨?_, ?_, ?_, ?_, (same.backends _).trans noneNamed⟩
  · rw [rest.1]
    exact ascending
  · rw [rest.2.2.2.1]
    exact parallel
  · rw [rest.2.2.2.2.2.2.2.1]
    exact promotions
  · rw [rest.2.1, rest.2.2.1]
    exact interval

namespace File

variable {f : File} {base : Config}

theorem Names.unique {backends backends' : Option (List (Tier × String))}
    (names : f.Names base backends) (names' : f.Names base backends') : backends = backends' := by
  rcases names with ⟨empty, rfl⟩ | ⟨given, pairs, read, rfl⟩
  · rcases names' with ⟨_, rfl⟩ | ⟨given, -⟩
    · rfl
    · simp [empty] at given
  · rcases names' with ⟨empty, -⟩ | ⟨_, pairs', read', rfl⟩
    · simp [given] at empty
    · rw [Except.ok.inj (read.symm.trans read')]

/-- The options of a file and of what is written of it share the level. -/
theorem shipOptions_ok {o : Ship.Options} (used : f.shipOptions = .ok o) : ∃ level,
    o = { target := f.ship.target, level, strip := f.ship.strip.getD true, linker := f.ship.linker
          runtimeDir := f.ship.runtimeDir, sysroot := f.ship.sysroot
          stripSymbols := f.ship.stripSymbols, codegen := f.ship.codegen
          assembler := f.ship.assembler } ∧
      f.written.shipOptions =
        .ok { level, linker := f.ship.linker, runtimeDir := f.ship.runtimeDir } := by
  unfold shipOptions at used
  obtain ⟨level, read, used⟩ := bind_eq_ok.mp used
  cases used
  refine ⟨level, rfl, ?_⟩
  exact bind_eq_ok.mpr ⟨level, read, rfl⟩

/-- The configurations are the same when nothing is said that is not written, and only then. -/
theorem sameConfig_iff (interval : Time.Duration) (bailout : Bailout) (size : Int)
    {backends : Option (List (Tier × String))} (names : f.Names base backends) :
    SameConfig (f.written.configOver base interval bailout size base.backends)
        (f.configOver base interval bailout size backends) ↔
      f.SaysNoMore base := by
  constructor
  · intro same
    have rest := Config.mk.inj same.rest
    refine ⟨rest.1.symm, rest.2.1.symm, rest.2.2.2.1.symm, rest.2.2.2.2.1.symm,
      rest.2.2.2.2.2.1.symm, rest.2.2.2.2.2.2.2.1.symm, fun backends' names' t => ?_⟩
    rw [← names.unique names']
    exact (same.backends t).symm
  · intro more
    refine ⟨?_, fun t => (more.backends backends names t).symm⟩
    unfold configOver
    rw [more.thresholds, more.background, more.maxParallel, more.verbosity, more.startInterpreted,
      more.maxPromotions]
    rfl

/-- A configuration file that can be used survives being saved exactly when its texts are legible and
it says nothing else. What else it says is not written, and other texts are written in a way that is
refused when they are read. -/
theorem saved_iff {c : Config} {o : Ship.Options} (session : f.sessionConfig = .ok c)
    (ship : f.shipOptions = .ok o) :
    (∃ g c', File.read f.text = .ok g ∧ g.sessionConfig = .ok c' ∧ SameConfig c' c ∧
        g.shipOptions = .ok o) ↔
      f.Legible ∧ f.ShipsNoMore ∧ ∀ base, f.presetConfig = .ok base → f.SaysNoMore base := by
  obtain ⟨base, interval, bailout, size, backends, preset, names, rfl, valid, again⟩ :=
    sessionConfig_ok session
  obtain ⟨level, rfl, againShip⟩ := shipOptions_ok ship
  constructor
  · rintro ⟨g, c', read, session', same, ship'⟩
    have legible : f.Legible := by
      by_contra illegible
      obtain ⟨b, refused⟩ := read_illegible illegible
      cases refused.symm.trans read
    cases (read_legible legible).symm.trans read
    obtain ⟨⟨⟩, -, made⟩ := bind_eq_ok.mp (again.symm.trans session')
    cases made
    have options := Ship.Options.mk.inj (Except.ok.inj (againShip.symm.trans ship'))
    refine ⟨legible, ?_, fun base' preset' => ?_⟩
    · obtain ⟨target, -, -, strip, -, -, -, sysroot, stripSymbols, -, codegen, assembler⟩ := options
      exact ⟨target.symm, sysroot.symm, codegen.symm, assembler.symm, strip.symm, stripSymbols.symm⟩
    · cases preset.symm.trans preset'
      exact (sameConfig_iff interval bailout size names).mp same
  · rintro ⟨legible, ships, sessions⟩
    have same := (sameConfig_iff interval bailout size names).mpr
      (sessions base preset)
    refine ⟨f.written, _, read_legible legible, ?_, same, ?_⟩
    · rw [again, same.validate valid]
      rfl
    · rw [againShip, ships.target, ships.sysroot, ships.codegen, ships.assembler, ships.strip,
        ships.stripSymbols]

/-- A file whose texts need quoting, and that says beyond them what its preset says already. -/
def quoting : File where
  preset := "server"
  session := { thresholds := { hot := some 200 }, background := some true, bailout := "custom:7" }
  ship := { linker := "C:\\bin \"cc\"\n\t\x08é\u200b😀", strip := some true }

theorem saved_iff_quoting : ∃ c o, quoting.sessionConfig = .ok c ∧ quoting.shipOptions = .ok o ∧
    ∃ g c', File.read quoting.text = .ok g ∧ g.sessionConfig = .ok c' ∧ SameConfig c' c ∧
      g.shipOptions = .ok o := by
  have some : quoting.sessionConfig.toOption.isSome = true := by decide +kernel
  obtain ⟨c, made⟩ := Option.isSome_iff_exists.mp some
  have session := ok_of_toOption made
  obtain ⟨o, ship⟩ : ∃ o, quoting.shipOptions = .ok o := ⟨_, rfl⟩
  refine ⟨c, o, session, ship, (saved_iff session ship).mpr ⟨?_, ?_, ?_⟩⟩
  · decide +kernel
  · exact ⟨rfl, rfl, rfl, rfl, rfl, rfl⟩
  · intro base preset
    have named : Preset.ofName? quoting.preset = .some .server := by decide +kernel
    have preset' : quoting.presetConfig = .ok Preset.server.config := by
      simp only [presetConfig, named]
      rfl
    cases preset'.symm.trans preset
    refine ⟨rfl, rfl, rfl, rfl, rfl, rfl, fun backends names t => ?_⟩
    rw [names.unique (.inl ⟨rfl, rfl⟩)]

/-- A file with a control character that quoting spells in a way of its own. -/
def bell : File := { ship := { linker := "cc\x07" } }

/-- A file that can be used need not be readable once it is saved. -/
theorem bell_refused : ∃ c o, bell.sessionConfig = .ok c ∧ bell.shipOptions = .ok o ∧
    ¬ ∃ g, File.read bell.text = .ok g := by
  have illegible : ¬ bell.Legible := by decide +kernel
  obtain ⟨b, refused⟩ := read_illegible illegible
  refine ⟨_, _, rfl, rfl, ?_⟩
  rw [refused]
  rintro ⟨g, ⟨⟩⟩

end File

end TieredEngine.Settings
