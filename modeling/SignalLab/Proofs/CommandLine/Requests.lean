import SignalLab.Disk
import SignalLab.Proofs.CommandLine.DryRun
import SignalLab.Proofs.Settings.Soundness

/-!
# What a run hands on

A run hands its settings to a trial, and the trial hands a request to the source of the data. `runKept`
is a run that keeps what is handed on and otherwise does the same (`map_fst_runKept`). Settings come of
a configuration that has been checked, so their numbers are sound; but an instrument that is given as
an option takes its place unchecked, and it is then handed on as it was given
(`run_hands_on_sound`).
-/

namespace SignalLab

/-- What is handed on: settings to a trial, or a request to a source of data. -/
inductive Handed
  | settings (s : Settings)
  | request (r : Request)

variable {m : Type → Type} [Monad m]

namespace Trial

variable {α : Type} {v : Vocabulary} {source : String} {s : Settings}

/-- A data source that does what another one does and keeps the requests it gets. -/
def keptFetch (fetch : Request → m α) : Request → StateT (List Handed) m α :=
  fun r => do
    modify (· ++ [.request r])
    fetch r

/-- A trial that keeps its settings and its requests. -/
def runKept [Host m] (v : Vocabulary) (source : String) (s : Settings) :
    StateT (List Handed) m (Except Failure Trial) := do
  modify (· ++ [.settings s])
  run (keptFetch s.source.fetch) v source s

/-- What is handed on in a trial. -/
def handed (v : Vocabulary) (source : String) (s : Settings) : List Handed :=
  match compile v source with
  | .error _ => [.settings s]
  | .ok _ => [.settings s, .request (requestOf s)]

/-- A trial hands on its settings, and a request if its program compiles. -/
theorem run_runKept [Host m] [LawfulMonad m] (v : Vocabulary) (source : String) (s : Settings)
    (before : List Handed) :
    ((runKept v source s).run before : m _) =
      (·, before ++ handed v source s) <$> run s.source.fetch v source s := by
  rw [runKept, handed]
  rcases hcompile : compile v source with d | p
  · rw [run_of_error hcompile, run_of_error hcompile]
    simp
  · rw [run_of_ok hcompile, run_of_ok hcompile]
    simp [keptFetch]

theorem settings_mem_handed_iff {s' : Settings} : .settings s' ∈ handed v source s ↔ s' = s := by
  rw [handed]
  split <;> simp

/-- A request asks for what the settings of its trial say. -/
theorem eq_requestOf_of_mem_handed {r : Request} (h : .request r ∈ handed v source s) :
    r = requestOf s := by
  rw [handed] at h
  split at h
  · simp at h
  · simpa using h

end Trial

namespace CommandLine

variable [Host m]

/-- What a run does about the outcome of its trial. -/
def conclude (source : String) (s : Settings) (output : Option String) :
    Except Failure Trial → m UInt8
  | .error failure => fail failure source
  | .ok t => do
    Host.remark ("\n" ++ Report.summary t s)
    match output with
    | none => return 0
    | some path =>
      match ← Report.write t.history.prices t.backtest.positions t.backtest.equity path with
      | .error failure => fail failure source
      | .ok () =>
        remarkLine ("Report written to " ++ path)
        return 0

theorem runTrial_eq_conclude (v : Vocabulary) (source : String) (s : Settings)
    (output : Option String) :
    (runTrial v source s output : m UInt8) =
      Trial.run s.source.fetch v source s >>= conclude source s output := rfl

/-- A run that keeps what is handed on. -/
def runKept (v : Vocabulary) (config program : String) (instrument output : Option String)
    (dryRun : Bool) : StateT (List Handed) m UInt8 := do
  match ← StateT.lift (prepare config program instrument) with
  | .error failure => StateT.lift (fail failure "")
  | .ok (s, source) =>
    if dryRun then StateT.lift (runDry v source s)
    else
      let outcome ← Trial.runKept v source s
      StateT.lift (conclude source s output outcome)

/-- What is handed on once a run is prepared. -/
def handed (v : Vocabulary) (dryRun : Bool) : Except Failure (Settings × String) → List Handed
  | .error _ => []
  | .ok (s, source) => if dryRun then [] else Trial.handed v source s

theorem run_runKept [LawfulMonad m] (v : Vocabulary) (config program : String)
    (instrument output : Option String) (dryRun : Bool) (before : List Handed) :
    ((runKept v config program instrument output dryRun).run before : m _) =
      prepare config program instrument >>= fun prepared =>
        (·, before ++ handed v dryRun prepared) <$> proceed v output dryRun prepared := by
  rw [runKept, StateT.run_bind, StateT.run_lift, bind_assoc]
  congr 1
  funext prepared
  rw [pure_bind]
  rcases prepared with failure | ⟨s, source⟩
  · simp [handed, proceed]
  · rcases dryRun with _ | _
    · simp [handed, proceed, Trial.run_runKept, runTrial_eq_conclude]
    · simp [handed, proceed]

/-- A run that keeps what is handed on does what the run does. -/
theorem map_fst_runKept [LawfulMonad m] (v : Vocabulary) (config program : String)
    (instrument output : Option String) (dryRun : Bool) (before : List Handed) :
    Prod.fst <$> (runKept v config program instrument output dryRun).run before =
      (run v config program instrument output dryRun : m UInt8) := by
  simp [run_runKept, run_eq_prepare]

variable {σ : Type} [Host (StateM σ)] {v : Vocabulary} {config program source : String}
  {instrument output : Option String} {dryRun : Bool} {s : Settings} {r : Request} {state : σ}

/-- The settings of a prepared run are those of a configuration, with the instrument that was given. -/
theorem exists_configured_of_prepare
    (h : ((prepare config program instrument : StateM σ _).run state).1 = .ok (s, source)) :
    ∃ c configured, Settings.Configured c configured ∧
      s = { configured with instrument := instrument.getD configured.instrument } := by
  rw [prepare, StateM.run_bind_eq, StateM.run_bind_eq] at h
  split at h
  · cases h
  · next c _ =>
    split at h
    · cases h
    · next s' hsettings =>
      rw [StateM.run_bind_eq, StateM.run_bind_eq] at h
      split at h <;> cases h
      rw [settingsOf] at hsettings
      rcases hconfigured : Settings.ofConfig c with failure | configured
      · rw [hconfigured] at hsettings
        cases hsettings
      · rw [hconfigured] at hsettings
        cases hsettings
        exact ⟨c, configured, (Settings.decides_ofConfig.ok_iff _).mp hconfigured, rfl⟩

/-- A run has handed on what follows from how it was prepared. -/
theorem handed_runKept (v : Vocabulary) (config program : String)
    (instrument output : Option String) (dryRun : Bool) (state : σ) :
    (((runKept v config program instrument output dryRun).run [] : StateM σ _).run state).1.2 =
      handed v dryRun ((prepare config program instrument : StateM σ _).run state).1 := by
  rw [run_runKept]
  rfl

/-- Settings that are handed on are those that the run was prepared with. -/
theorem prepared_of_mem_handed {prepared : Except Failure (Settings × String)}
    (h : .settings s ∈ handed v dryRun prepared) : ∃ source, prepared = .ok (s, source) := by
  rcases prepared with failure | ⟨s', source⟩
  · cases h
  · rcases dryRun with _ | _
    · rw [Trial.settings_mem_handed_iff.mp h]
      exact ⟨source, rfl⟩
    · cases h

/-- A request asks for what settings say that have been handed on before it. -/
theorem exists_settings_of_mem_handed {prepared : Except Failure (Settings × String)}
    (h : .request r ∈ handed v dryRun prepared) :
    ∃ s, .settings s ∈ handed v dryRun prepared ∧ r = Trial.requestOf s := by
  rcases prepared with failure | ⟨s, source⟩
  · cases h
  · rcases dryRun with _ | _
    · exact ⟨s, Trial.settings_mem_handed_iff.mpr rfl, Trial.eq_requestOf_of_mem_handed h⟩
    · cases h

/-- A run that is not dry and ends well has handed on settings and the request for their data. -/
theorem handed_of_success
    (h : ((run v config program instrument output false : StateM σ UInt8).run state).1 = 0) :
    ∃ s, handed v false ((prepare config program instrument : StateM σ _).run state).1 =
      [.settings s, .request (Trial.requestOf s)] := by
  rw [run_eq_prepare, StateM.run_bind_eq] at h
  rcases hprepare : ((prepare config program instrument : StateM σ _).run state).1
    with failure | ⟨s, source⟩
  · rw [hprepare] at h
    exact absurd h failure.exitCode_ne_zero
  · refine ⟨s, ?_⟩
    rw [handed, if_neg Bool.false_ne_true, Trial.handed]
    rcases hcompile : compile v source with d | p
    · rw [hprepare, proceed, if_neg Bool.false_ne_true, runTrial, Trial.run_of_error hcompile,
        pure_bind] at h
      exact absurd h (Failure.program d).exitCode_ne_zero
    · rfl

/-- A program that is a signal and nothing else. -/
theorem compile_price (draws : Signal) (markets : List Feeds) :
    compile (Vocabulary.bound draws markets) "price" =
      .ok ⟨#[.reference "price", .reference "volume", .reference "open", .reference "close",
        .reference "high", .reference "low", .reference "time", .reference "random",
        .reference "pi", .reference "e", .reference "price"]⟩ := by
  have hparse : Expr.parse "price" = .ok (.reference ⟨0, 5⟩ "price") := by cbv
  rw [compile_bound draws (Series.constant 0.5) markets [], compile, hparse]
  decide +kernel

/-- A scene with a configuration and a program that are fine. -/
def demoScene : Scene :=
  ⟨⟨[(["config"], .file "[input]\ninstrument=demo".toUTF8), (["program"], .file "price".toUTF8)]⟩,
    [], "", ""⟩

/-- The settings of the scene, for an instrument. -/
def demoSettings (instrument : String) : Settings :=
  ⟨.synthetic, instrument, 500, .daily, 0.0, "info"⟩

theorem handed_demoScene (given : Option String) :
    (((runKept (Vocabulary.standard (Series.constant 0.5)) "config" "program" given none false).run
      [] : StateM Scene _).run demoScene).1.2 =
        [.settings (demoSettings (given.getD "demo")),
          .request ⟨given.getD "demo", 500, .daily⟩] := by
  have hprepare : ((prepare "config" "program" given : StateM Scene _).run demoScene).1 =
      .ok (demoSettings (given.getD "demo"), "price") := by rfl
  have hcompile := compile_price (Series.constant 0.5) []
  rw [Vocabulary.bound, List.foldl_nil] at hcompile
  rw [handed_runKept, hprepare, handed, if_neg Bool.false_ne_true, Trial.handed, hcompile]
  rfl

/-- **A run hands on sound settings, and a request for just their data.** Limit, frequency and cost
rate are those of a configuration that has been checked, whatever the options are. An instrument that
is given as an option is handed on as it was given: it is one that can be asked for exactly if it was
before, and without the option it always is. Dry runs hand nothing on, and runs that are not dry and
end well have handed on both. -/
theorem run_hands_on_sound (v : Vocabulary) (config program : String)
    (instrument output : Option String) (dryRun : Bool) (state : σ) :
    let kept := ((runKept v config program instrument output dryRun).run [] : StateM σ _).run state
    let plain := (execute v (.run config program instrument output dryRun) : StateM σ _).run state
    let handed := kept.1.2
    (kept.1.1, kept.2) = plain ∧
      (∀ s, .settings s ∈ handed → s.Sound ∧ (∀ given ∈ instrument, s.instrument = given) ∧
        (IsInstrument s.instrument ↔ ∀ given ∈ instrument, IsInstrument given)) ∧
      (∀ r, .request r ∈ handed →
        ∃ s, .settings s ∈ handed ∧ r = ⟨s.instrument, s.limit, s.frequency⟩) ∧
      (dryRun = true → handed = []) ∧
      (dryRun = false → plain.1 = 0 → ∃ s,
        handed = [.settings s, .request ⟨s.instrument, s.limit, s.frequency⟩]) := by
  intro kept plain handed'
  have hhanded : handed' =
      handed v dryRun ((prepare config program instrument : StateM σ _).run state).1 :=
    handed_runKept v config program instrument output dryRun state
  rw [hhanded]
  refine ⟨?_, fun s hs => ?_, fun r hr => exists_settings_of_mem_handed hr, ?_, ?_⟩
  · change _ = (run v config program instrument output dryRun : StateM σ _).run state
    rw [← map_fst_runKept v config program instrument output dryRun []]
    rfl
  · obtain ⟨source, hprepare⟩ := prepared_of_mem_handed hs
    obtain ⟨c, configured, hconfigured, rfl⟩ := exists_configured_of_prepare hprepare
    -- the option replaces the instrument and nothing else
    refine ⟨⟨hconfigured.sound.limit, hconfigured.sound.amount, hconfigured.sound.finite,
      hconfigured.sound.nonneg⟩, ?_⟩
    rcases instrument with _ | given
    · exact ⟨nofun, fun _ => nofun, fun _ => hconfigured.instrument.isInstrument⟩
    · simp
  · rintro rfl
    rcases ((prepare config program instrument : StateM σ _).run state).1
      with failure | ⟨s, source⟩ <;> rfl
  · rintro rfl hcode
    exact handed_of_success hcode

/-- A run over the configured instrument. -/
theorem run_hands_on_sound_demo :
    let kept := ((runKept (Vocabulary.standard (Series.constant 0.5)) "config" "program" none
      none false).run [] : StateM Scene _).run demoScene
    kept.1.2 = [.settings (demoSettings "demo"), .request ⟨"demo", 500, .daily⟩] ∧
      (demoSettings "demo").Sound ∧ IsInstrument "demo" := by
  obtain ⟨-, hsettings, -⟩ := run_hands_on_sound (Vocabulary.standard (Series.constant 0.5))
    "config" "program" none none false demoScene
  dsimp only
  rw [handed_demoScene] at hsettings ⊢
  obtain ⟨hsound, -, hinstrument⟩ := hsettings (demoSettings "demo") (.head _)
  exact ⟨rfl, hsound, hinstrument.mpr nofun⟩

/-- A blank instrument that is given as an option is asked for. -/
theorem run_hands_on_blank :
    let kept := ((runKept (Vocabulary.standard (Series.constant 0.5)) "config" "program" (some "")
      none false).run [] : StateM Scene _).run demoScene
    .request ⟨"", 500, .daily⟩ ∈ kept.1.2 ∧ ¬ IsInstrument "" := by
  dsimp only
  rw [handed_demoScene]
  exact ⟨.tail _ (.head _), fun h => h.nonempty rfl⟩

end CommandLine

end SignalLab
