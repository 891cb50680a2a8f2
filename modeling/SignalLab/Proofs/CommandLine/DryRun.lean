import Mathlib
import SignalLab.Proofs.CommandLine.Reading
import SignalLab.Proofs.Compile.Evaluation
import SignalLab.Proofs.Disk.Writing
import SignalLab.Proofs.Trial.Outcome

/-!
# A dry run tells what a run would do

A dry run that fails does so because of the configuration or the program, and then the run that is not
dry fails in the same way. Behind a dry run that does not fail there are only the data and the report
left to fail on, which the exit codes of a run show (`dryRun_foretells`).

One thing a dry run does not foretell. A configuration may ask the synthetic market for more samples
than a column can have, and nothing looks at that before the samples are made: the dry run finds the
configuration valid, and the run is broken off (`dryRun_misses_overflow`).

The surroundings are any in which a command is a function of the state that it finds. What they hold,
how they answer and which paths they refuse is left open.
-/

namespace SignalLab

open Vocabulary (bound)

variable {σ : Type} [Host (StateM σ)]

/-! ## What is left to fail on -/

/-- No failure ends like a success. -/
theorem Failure.exitCode_ne_zero (f : Failure) : f.exitCode ≠ 0 := by
  cases f <;> simp [exitCode]

namespace Synthetic

variable {r : Request}

theorem fetch_of_lt (h : longestColumn < r.limit) : fetch r = .error .overflow := by
  rw [fetch, if_pos h]

theorem fetch_of_le (h : r.limit ≤ longestColumn) :
    fetch r = .ok (.synthetic r.instrument r.limit) := by
  rw [fetch, if_neg (Nat.not_lt.mpr h)]

end Synthetic

/-- A request that asks the synthetic market for more samples than a column can have. -/
def DataSource.IsExceeded (source : DataSource) (r : Request) : Prop :=
  source = .synthetic ∧ Synthetic.longestColumn < r.limit

/-- A request that asks for too much breaks the run off. -/
theorem DataSource.fetch_of_isExceeded {m : Type → Type} [Monad m] [Host m] {source : DataSource}
    {r : Request} (h : source.IsExceeded r) :
    (source.fetch r : m (Except Failure History)) = pure (.error .overflow) := by
  obtain ⟨rfl, hlimit⟩ := h
  rw [fetch, Synthetic.fetch_of_lt hlimit]

/-- Data that cannot be had are a failure of the data, unless too much was asked for. -/
theorem DataSource.exitCode_of_fetch {source : DataSource} {r : Request} {state : σ}
    {failure : Failure} (hasked : ¬ source.IsExceeded r)
    (h : ((source.fetch r : StateM σ (Except Failure History)).run state).1 = .error failure) :
    failure.exitCode = 3 := by
  cases source with
  | synthetic =>
    have hlimit : r.limit ≤ Synthetic.longestColumn := Nat.not_lt.mp fun h => hasked ⟨rfl, h⟩
    rw [fetch, Synthetic.fetch_of_le hlimit] at h
    cases h
  | archive folder =>
    rw [fetch, Archive.fetch, StateM.run_bind_eq] at h
    -- either the file cannot be read or its text is no table of bars
    split at h
    · cases h
      rfl
    · split at h <;> cases h
      rfl

namespace Trial

variable {draws : Signal} {markets : List Feeds} {source : String} {s : Settings} {p : Program}

/-- A trial of a program that compiles fails on its data or not at all. -/
theorem exitCode_of_run (h : compile (bound draws markets) source = .ok p)
    (hasked : ¬ s.source.IsExceeded (requestOf s)) {state : σ} {failure : Failure}
    (hrun : ((run s.source.fetch (bound draws markets) source s :
      StateM σ (Except Failure Trial)).run state).1 = .error failure) :
    failure.exitCode = 3 := by
  rw [answer_run_of_ok h] at hrun
  rcases hfetch : ((s.source.fetch (requestOf s) :
    StateM σ (Except Failure History)).run state).1 with failure' | history
  · rw [hfetch] at hrun
    cases hrun
    exact DataSource.exitCode_of_fetch hasked hfetch
  · rw [hfetch] at hrun
    rcases Nat.lt_or_ge history.size Settings.leastLimit with hsize | hsize
    · cases (ofHistory_of_lt hsize).symm.trans hrun
      rfl
    · obtain ⟨x, -, hx⟩ := ofHistory_of_le (s := s) h hsize
      cases hx.symm.trans hrun

/-- A trial that asks for too much is broken off. -/
theorem answer_run_of_isExceeded {v : Vocabulary} (h : compile v source = .ok p)
    (hasked : s.source.IsExceeded (requestOf s)) (state : σ) :
    ((run s.source.fetch v source s : StateM σ (Except Failure Trial)).run state).1 =
      .error .overflow := by
  rw [answer_run_of_ok h, DataSource.fetch_of_isExceeded hasked]
  rfl

end Trial

/-- A report that cannot be written is a failure of the report or of the system. -/
theorem Report.exitCode_of_writePieces {file : Host.File (StateM σ)} {ps : List ByteArray} {state : σ}
    {failure : Failure}
    (h : ((writePieces file ps : StateM σ (Except Failure Unit)).run state).1 = .error failure) :
    failure.exitCode = 1 := by
  induction ps generalizing state with
  | nil => cases h
  | cons piece rest ih =>
    rw [writePieces, StateM.run_bind_eq] at h
    split at h
    · cases h
      split <;> rfl
    · exact ih h

theorem Report.exitCode_of_write {prices positions equity : List Float} {path : String} {state : σ}
    {failure : Failure}
    (h : ((write prices positions equity path : StateM σ (Except Failure Unit)).run state).1 =
      .error failure) :
    failure.exitCode = 1 := by
  rw [write] at h
  split at h
  · next htable =>
    simp only [table] at htable
    split at htable <;> cases htable
    cases h
    rfl
  · rw [StateM.run_bind_eq] at h
    split at h
    · cases h
      rfl
    · exact exitCode_of_writePieces h

namespace CommandLine

theorem code_fail (failure : Failure) (source : String) (state : σ) :
    ((fail failure source : StateM σ UInt8).run state).1 = failure.exitCode := rfl

/-- Trying a program that compiles ends well, or with a failure of the report or of the data, unless
the data that it asks for are too much. -/
theorem runTrial_code (draws : Signal) (markets : List Feeds) {source : String} {p : Program}
    (h : compile (bound draws markets) source = .ok p) {s : Settings}
    (hasked : ¬ s.source.IsExceeded (Trial.requestOf s)) (output : Option String) (state : σ) :
    let code := ((runTrial (bound draws markets) source s output : StateM σ UInt8).run state).1
    code = 0 ∨ code = 1 ∨ code = 3 := by
  dsimp only
  rw [runTrial, StateM.run_bind_eq]
  split
  · next failure hrun =>
    exact .inr (.inr (Trial.exitCode_of_run h hasked hrun))
  · rw [StateM.run_bind_eq]
    split
    · exact .inl rfl
    · rw [StateM.run_bind_eq]
      split
      · next hwrite => exact .inr (.inl (Report.exitCode_of_write hwrite))
      · exact .inl rfl

/-- Trying a program with data that are too much ends with the code for it. -/
theorem runTrial_code_of_isExceeded {v : Vocabulary} {source : String} {p : Program}
    (h : compile v source = .ok p) {s : Settings}
    (hasked : s.source.IsExceeded (Trial.requestOf s)) (output : Option String) (state : σ) :
    ((runTrial v source s output : StateM σ UInt8).run state).1 = 101 := by
  rw [runTrial, StateM.run_bind_eq, Trial.answer_run_of_isExceeded h hasked]
  rfl

theorem runDry_code {v : Vocabulary} {source : String} {p : Program} (h : compile v source = .ok p)
    (s : Settings) (state : σ) :
    ((runDry v source s : StateM σ UInt8).run state).1 = 0 := by
  rw [runDry, h]
  rfl

variable {v : Vocabulary} {config program source : String} {instrument output : Option String}
  {s : Settings} {p : Program} {d : Diagnostic} {state : σ}

/-- A dry run of a program that compiles does not fail. -/
theorem code_dryRun
    (hprepare : ((prepare config program instrument : StateM σ _).run state).1 = .ok (s, source))
    (hcompile : compile v source = .ok p) :
    ((execute v (.run config program instrument output true) : StateM σ UInt8).run state).1 = 0 := by
  rw [execute, run_eq_prepare, StateM.run_bind_eq, hprepare, proceed, if_pos rfl]
  exact runDry_code hcompile s _

/-- A dry run of a program at fault fails on the program. -/
theorem code_dryRun_of_error
    (hprepare : ((prepare config program instrument : StateM σ _).run state).1 = .ok (s, source))
    (hcompile : compile v source = .error d) :
    ((execute v (.run config program instrument output true) : StateM σ UInt8).run state).1 = 4 := by
  rw [execute, run_eq_prepare, StateM.run_bind_eq, hprepare, proceed, if_pos rfl, runDry, hcompile]
  rfl

/-- A run that asks for too much is broken off. -/
theorem code_run_of_isExceeded
    (hprepare : ((prepare config program instrument : StateM σ _).run state).1 = .ok (s, source))
    (hcompile : compile v source = .ok p) (hasked : s.source.IsExceeded (Trial.requestOf s)) :
    ((execute v (.run config program instrument output false) : StateM σ UInt8).run state).1 =
      101 := by
  rw [execute, run_eq_prepare, StateM.run_bind_eq, hprepare, proceed, if_neg Bool.false_ne_true]
  exact runTrial_code_of_isExceeded hcompile hasked output _

/-! ## Both runs -/

/-- **A dry run tells what a run would do.** If it fails, then the run that is not dry fails in the
same way: with the same exit code and with the same effects, what it has printed and remarked among
them. If it does not fail, then there are settings and a source text. The run that is not dry does not
fail on its configuration or its program: its exit code is that of a success, of a report that cannot
be written, or of a failure of the data, unless the settings ask the synthetic market for more samples
than a column can have. Then the run is broken off. The numbers behind `random` may be drawn anew in
between. -/
theorem dryRun_foretells (draws draws' : Signal) (config program : String)
    (instrument output : Option String) (state : σ) :
    let prepared := ((prepare config program instrument : StateM σ _).run state).1
    let dry := (execute (Vocabulary.standard draws) (.run config program instrument output true) :
      StateM σ UInt8).run state
    let real := (execute (Vocabulary.standard draws')
      (.run config program instrument output false) : StateM σ UInt8).run state
    (dry.1 ≠ 0 → real = dry) ∧
    (dry.1 = 0 → ∃ s source, prepared = .ok (s, source) ∧
      (¬ (s.source = .synthetic ∧ Synthetic.longestColumn < s.limit) →
        real.1 = 0 ∨ real.1 = 1 ∨ real.1 = 3) ∧
      (s.source = .synthetic ∧ Synthetic.longestColumn < s.limit → real.1 = 101)) := by
  have hsame : ∀ source, compile (Vocabulary.standard draws') source =
      compile (Vocabulary.standard draws) source := compile_bound draws' draws [] []
  dsimp only
  rw [execute, execute, run_eq_prepare, run_eq_prepare, StateM.run_bind_eq, StateM.run_bind_eq]
  rcases ((prepare config program instrument :
    StateM σ (Except Failure (Settings × String))).run state) with ⟨failure | ⟨s, source⟩, state'⟩
  · simp [proceed, code_fail, failure.exitCode_ne_zero]
  · simp only [proceed, if_true, Bool.false_eq_true, if_false]
    rcases hcompile : compile (Vocabulary.standard draws) source with d | p
    · rw [runDry, hcompile, runTrial, Trial.run_of_error ((hsame source).trans hcompile),
        pure_bind]
      simp [code_fail, Failure.exitCode_ne_zero]
    · have hcompile' := (hsame source).trans hcompile
      refine ⟨fun h => absurd (runDry_code hcompile s state') h, fun _ => ⟨s, source, rfl, ?_, ?_⟩⟩
      · exact fun hasked => runTrial_code draws' [] hcompile' hasked output state'
      · exact fun hasked => runTrial_code_of_isExceeded hcompile' hasked output state'

/-- A scene with a configuration, a program that is fine and one with too few arguments. -/
def limitScene (limit : String) : Scene :=
  ⟨⟨[(["config"], .file ("[input]\ninstrument=demo\nlimit=" ++ limit).toUTF8),
    (["good"], .file "mean price volume".toUTF8), (["bad"], .file "mean price".toUTF8)]⟩, [], "", ""⟩

/-- The settings of a configuration that names the instrument `demo` and a number of samples. -/
def limitSettings (limit : ℕ) : Settings := ⟨.synthetic, "demo", limit, .daily, 0.0, "info"⟩

theorem settingsOf_limitTwo : ∃ ini, Ini.ofText "[input]\ninstrument=demo\nlimit=2" = .ok ini ∧
    settingsOf ini.config none = .ok (limitSettings 2) :=
  ⟨⟨[⟨"input", "limit", some "2"⟩, ⟨"input", "instrument", some "demo"⟩]⟩, by rfl, by rfl⟩

/-- A program at fault, and one that is fine. -/
theorem dryRun_foretells_mean :
    let v := Vocabulary.standard (Series.constant 0.5)
    let v' := Vocabulary.standard Offset.toFloat
    let scene := limitScene "2"
    let dryBad := (execute v (.run "config" "bad" none none true) : StateM Scene UInt8).run scene
    let bad := (execute v' (.run "config" "bad" none none false) : StateM Scene UInt8).run scene
    let dryGood := (execute v (.run "config" "good" none none true) : StateM Scene UInt8).run scene
    let good := (execute v' (.run "config" "good" none none false) : StateM Scene UInt8).run scene
    dryBad.1 = 4 ∧ bad = dryBad ∧ dryGood.1 = 0 ∧ (good.1 = 0 ∨ good.1 = 1 ∨ good.1 = 3) := by
  -- the runs stay as they are written, so that nothing of them is computed
  intro v v' scene
  have hconfig : scene.disk.readText [] "config" = .ok "[input]\ninstrument=demo\nlimit=2" :=
    Disk.readText_of_file ["config"] (by rfl) (by rfl)
  have hbad : ((prepare "config" "bad" none : StateM Scene _).run scene).1 =
      .ok (limitSettings 2, "mean price") :=
    OnlyReads.prepare_of_texts hconfig settingsOf_limitTwo
      (Disk.readText_of_file ["bad"] (by rfl) (by rfl))
  have hgood : ((prepare "config" "good" none : StateM Scene _).run scene).1 =
      .ok (limitSettings 2, "mean price volume") :=
    OnlyReads.prepare_of_texts hconfig settingsOf_limitTwo
      (Disk.readText_of_file ["good"] (by rfl) (by rfl))
  obtain ⟨d, hd⟩ : ∃ d, compile v "mean price" = .error d :=
    ⟨_, compile_meanPrice (Series.constant 0.5) []⟩
  obtain ⟨p, hp⟩ : ∃ p, compile v "mean price volume" = .ok p :=
    ⟨_, compile_meanPriceVolume (Series.constant 0.5) []⟩
  have hforetold (program : String) := dryRun_foretells (Series.constant 0.5) Offset.toFloat
    "config" program none none scene
  obtain ⟨s, source, hprepared, hcode, -⟩ := (hforetold "good").2 (code_dryRun hgood hp)
  cases hgood.symm.trans hprepared
  refine ⟨code_dryRun_of_error hbad hd, (hforetold "bad").1 ?_, code_dryRun hgood hp,
    hcode (by decide)⟩
  rw [code_dryRun_of_error hbad hd]
  decide

/-- **A limit that no column can have is not foretold**: the dry run finds nothing wrong, and the run
is broken off with an exit code that is none of the others. -/
theorem dryRun_misses_overflow :
    let v := Vocabulary.standard (Series.constant 0.5)
    let code dryRun := ((execute v (.run "config" "good" none none dryRun) :
      StateM Scene UInt8).run (limitScene "9223372036854775807")).1
    code true = 0 ∧ code false = 101 := by
  intro v code
  have hprepare : ((prepare "config" "good" none : StateM Scene _).run
      (limitScene "9223372036854775807")).1 =
        .ok (limitSettings 9223372036854775807, "mean price volume") := by
    rfl
  have hcompile := compile_meanPriceVolume (Series.constant 0.5) []
  exact ⟨code_dryRun hprepare hcompile,
    code_run_of_isExceeded hprepare hcompile ⟨rfl, by decide⟩⟩

end CommandLine

end SignalLab
