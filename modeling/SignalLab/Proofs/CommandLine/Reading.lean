import SignalLab.Disk
import SignalLab.Proofs.CommandLine.Preparation

/-!
# Commands that only read

Nearly all that commands do leaves the disk as it is, and answers with what stands on it whatever has
been printed before. `OnlyReads` says both. It holds of every operation of a scene but the two of
writing, and of whatever is put together from such operations; so there is one lemma for each part of a
command, and the only part without one is the writing of a report.
-/

namespace SignalLab

variable {medium : Medium}

/-- A command that leaves the disk alone, and whose answer depends on nothing else. -/
structure OnlyReads {α : Type} (x : StateM (SceneOn medium) α) : Prop where
  disk : ∀ scene, (x.run scene).2.disk = scene.disk
  working : ∀ scene, (x.run scene).2.working = scene.working
  answer : ∀ scene other : SceneOn medium, other.disk = scene.disk → other.working = scene.working →
    (x.run other).1 = (x.run scene).1

/-- After a success the rest decides. -/
theorem ok_bind_eq {ε α β : Type} (a : α) (f : α → Except ε β) : (Except.ok a >>= f) = f a := rfl

namespace OnlyReads

variable {α β : Type}

/-! ## Operations -/

protected theorem pure (a : α) : OnlyReads (pure a : StateM (SceneOn medium) α) :=
  ⟨fun _ => rfl, fun _ => rfl, fun _ _ _ _ => rfl⟩

/-- One after the other, commands that only read do nothing else together. -/
protected theorem bind {x : StateM (SceneOn medium) α} {f : α → StateM (SceneOn medium) β}
    (hx : OnlyReads x) (hf : ∀ a, OnlyReads (f a)) : OnlyReads (x >>= f) where
  disk scene := ((hf _).disk _).trans (hx.disk scene)
  working scene := ((hf _).working _).trans (hx.working scene)
  answer scene other hdisk hworking := by
    change ((f (x.run other).1).run (x.run other).2).1 = ((f (x.run scene).1).run (x.run scene).2).1
    rw [hx.answer scene other hdisk hworking]
    refine (hf _).answer _ _ ?_ ?_
    · rw [hx.disk, hx.disk, hdisk]
    · rw [hx.working, hx.working, hworking]

/-- To look at the disk is to read. -/
theorem look (look : Disk → Location → α) :
    OnlyReads (do let s ← get; return look s.disk s.working : StateM (SceneOn medium) α) where
  disk _ := rfl
  working _ := rfl
  answer scene other hdisk hworking := by
    change look other.disk other.working = look scene.disk scene.working
    rw [hdisk, hworking]

theorem isPresent (path : String) : OnlyReads (Host.isPresent path : StateM (SceneOn medium) _) :=
  look fun d w => (d.locate w path).toOption.isSome

theorem readText (path : String) : OnlyReads (Host.readText path : StateM (SceneOn medium) _) :=
  look fun d w => d.readText w path

theorem listNames (path : String) : OnlyReads (Host.listNames path : StateM (SceneOn medium) _) :=
  look fun d w => d.listNames w path

theorem print (text : String) : OnlyReads (Host.print text : StateM (SceneOn medium) _) :=
  ⟨fun _ => rfl, fun _ => rfl, fun _ _ _ _ => rfl⟩

theorem remark (text : String) : OnlyReads (Host.remark text : StateM (SceneOn medium) _) :=
  ⟨fun _ => rfl, fun _ => rfl, fun _ _ _ _ => rfl⟩

/-- What is answered after something that only reads would have been answered before it. -/
theorem answer_after {x : StateM (SceneOn medium) α} {y : StateM (SceneOn medium) β}
    (hx : OnlyReads x) (hy : OnlyReads y) (scene : SceneOn medium) :
    (y.run (x.run scene).2).1 = (y.run scene).1 :=
  hy.answer _ _ (hx.disk scene) (hx.working scene)

/-! ## Data -/

theorem fetch (source : DataSource) (r : Request) :
    OnlyReads (source.fetch r : StateM (SceneOn medium) _) := by
  cases source with
  | synthetic => exact .pure _
  | archive folder =>
    refine (readText _).bind fun answer => ?_
    split
    · exact .pure _
    · split <;> exact .pure _

theorem instruments (source : DataSource) :
    OnlyReads (source.instruments : StateM (SceneOn medium) _) := by
  cases source with
  | synthetic => exact .pure _
  | archive folder =>
    refine (listNames _).bind fun answer => ?_
    split <;> exact .pure _

theorem trial (v : Vocabulary) (source : String) (s : Settings) :
    OnlyReads (Trial.run s.source.fetch v source s : StateM (SceneOn medium) _) := by
  unfold Trial.run
  split
  · exact .pure _
  · refine (fetch _ _).bind fun answer => ?_
    split <;> exact .pure _

/-! ## Commands -/

open CommandLine

theorem remarkLine (text : String) : OnlyReads (remarkLine text : StateM (SceneOn medium) _) :=
  remark _

theorem printLine (text : String) : OnlyReads (printLine text : StateM (SceneOn medium) _) :=
  print _

theorem fail (failure : Failure) (source : String) :
    OnlyReads (fail failure source : StateM (SceneOn medium) _) :=
  (remark _).bind fun _ => .pure _

theorem loadConfig (path : String) : OnlyReads (loadConfig path : StateM (SceneOn medium) _) := by
  refine (isPresent _).bind fun present => ?_
  split
  · exact .pure _
  · refine (readText _).bind fun answer => ?_
    split
    · exact .pure _
    · split <;> exact .pure _

theorem loadProgram (path : String) : OnlyReads (loadProgram path : StateM (SceneOn medium) _) := by
  refine (readText _).bind fun answer => ?_
  split <;> exact .pure _

theorem prepare (config program : String) (instrument : Option String) :
    OnlyReads (prepare config program instrument : StateM (SceneOn medium) _) := by
  refine (remarkLine _).bind fun _ => (loadConfig _).bind fun c => ?_
  split
  · exact .pure _
  · split
    · exact .pure _
    · refine (remarkLine _).bind fun _ => (loadProgram _).bind fun source => ?_
      split
      · exact .pure _
      · exact (remarkLine _).bind fun _ => .pure _

theorem run_isPresent (path : String) (scene : SceneOn medium) :
    (Host.isPresent path : StateM (SceneOn medium) _).run scene =
      ((scene.disk.locate scene.working path).toOption.isSome, scene) := rfl

theorem run_readText (path : String) (scene : SceneOn medium) :
    (Host.readText path : StateM (SceneOn medium) _).run scene =
      (scene.disk.readText scene.working path, scene) := rfl

/-- The settings and the source text of a run are those that stand on the disk when it begins. -/
theorem answer_prepare (config program : String) (instrument : Option String)
    (scene : SceneOn medium) :
    ((CommandLine.prepare config program instrument : StateM (SceneOn medium) _).run scene).1 = (do
      let c ← ((CommandLine.loadConfig config : StateM (SceneOn medium) _).run scene).1
      let s ← settingsOf c instrument
      let source ← ((CommandLine.loadProgram program : StateM (SceneOn medium) _).run scene).1
      return (s, source)) := by
  rw [CommandLine.prepare, StateM.run_bind_eq, StateM.run_bind_eq,
    (remarkLine _).answer_after (loadConfig _)]
  rcases ((CommandLine.loadConfig config : StateM (SceneOn medium) _).run scene).1 with failure | c
  · rfl
  · rw [ok_bind_eq]
    dsimp only
    rcases settingsOf c instrument with failure | s
    · rfl
    · rw [ok_bind_eq]
      dsimp only
      rw [StateM.run_bind_eq, StateM.run_bind_eq, (remarkLine _).answer_after (loadProgram _),
        (loadConfig _).answer_after (loadProgram _), (remarkLine _).answer_after (loadProgram _)]
      rcases ((CommandLine.loadProgram program : StateM (SceneOn medium) _).run scene).1 with
        failure | source
      · rfl
      · rfl

/-- What is answered from the text of a configuration file. -/
theorem answer_loadConfig {path text : String} {scene : SceneOn medium} {ini : Ini}
    (htext : scene.disk.readText scene.working path = .ok text) (hini : Ini.ofText text = .ok ini) :
    ((CommandLine.loadConfig path : StateM (SceneOn medium) _).run scene).1 = .ok ini.config := by
  have hpresent : (scene.disk.locate scene.working path).toOption.isSome = true := by
    rw [Disk.readText] at htext
    split at htext
    · cases htext
    · next hplace =>
      rw [hplace]
      rfl
  rw [CommandLine.loadConfig, StateM.run_bind_eq, run_isPresent, hpresent, Bool.not_true,
    if_neg Bool.false_ne_true, StateM.run_bind_eq, run_readText, htext]
  dsimp only
  rw [hini]
  rfl

/-- A run is prepared if a configuration that can be used and a program stand on the disk. -/
theorem prepare_of_texts {config program text source : String} {instrument : Option String}
    {scene : SceneOn medium} {s : Settings}
    (htext : scene.disk.readText scene.working config = .ok text)
    (hsettings : ∃ ini, Ini.ofText text = .ok ini ∧ settingsOf ini.config instrument = .ok s)
    (hsource : scene.disk.readText scene.working program = .ok source) :
    ((CommandLine.prepare config program instrument : StateM (SceneOn medium) _).run scene).1 =
      .ok (s, source) := by
  obtain ⟨ini, hini, hs⟩ := hsettings
  have hprogram : ((CommandLine.loadProgram program : StateM (SceneOn medium) _).run scene).1 =
      .ok source := by
    rw [CommandLine.loadProgram, StateM.run_bind_eq, run_readText, hsource]
    rfl
  rw [answer_prepare, answer_loadConfig htext hini, ok_bind_eq, hs, ok_bind_eq, hprogram]
  rfl

theorem runDry (v : Vocabulary) (source : String) (s : Settings) :
    OnlyReads (runDry v source s : StateM (SceneOn medium) _) := by
  unfold CommandLine.runDry
  split
  · exact .fail _ _
  · exact (remark _).bind fun _ => .pure _

/-- A trial that is to be reported nowhere only reads. -/
theorem runTrial (v : Vocabulary) (source : String) (s : Settings) :
    OnlyReads (runTrial v source s none : StateM (SceneOn medium) _) := by
  refine (trial _ _ _).bind fun answer => ?_
  split
  · exact .fail _ _
  · exact (remark _).bind fun _ => .pure _

theorem check (v : Vocabulary) (program : String) :
    OnlyReads (check v program : StateM (SceneOn medium) _) := by
  refine (remarkLine _).bind fun _ => (loadProgram _).bind fun source => ?_
  split
  · exact .fail _ _
  · refine (printLine _).bind fun _ => ?_
    dsimp only
    split
    -- with a description there is one more line to print first
    case' h_1 => refine (printLine _).bind fun _ => ?_
    all_goals
      split
      · exact .fail _ _
      · exact (printLine _).bind fun _ => (remarkLine _).bind fun _ => .pure _

theorem builtins (v : Vocabulary) (category : Option Category) :
    OnlyReads (builtins v category : StateM (SceneOn medium) _) :=
  (print _).bind fun _ => .pure _

theorem listing (config : String) :
    OnlyReads (CommandLine.instruments config : StateM (SceneOn medium) _) := by
  refine (loadConfig _).bind fun c => ?_
  split
  · exact .fail _ _
  · split
    · exact .fail _ _
    · refine (instruments _).bind fun names => ?_
      split
      · exact .fail _ _
      · dsimp only
        split
        · exact (remarkLine _).bind fun _ => .pure _
        · exact (remarkLine _).bind fun _ => .pure _
        · exact (print _).bind fun _ => (remarkLine _).bind fun _ => .pure _

end OnlyReads

end SignalLab
