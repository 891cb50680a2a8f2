import Mathlib
import SignalLab.Proofs.Backtest.Prefix
import SignalLab.Proofs.CommandLine.DryRun
import SignalLab.Proofs.CommandLine.Reading
import SignalLab.Proofs.Compile.Extension
import SignalLab.Proofs.Report.Table

/-!
# What a run leaves on the disk

All commands only read, but for a run that is not dry and that has been asked for a report. It reads
until it has the trial and then opens the file of the report; what can still fail by then is the
opening, which leaves everything as it was, and the writing, which does not. So the disk is changed
only where the path of the report leads. What stands there in the end is what the medium keeps of the
report: all of it if the run succeeds, unless a device has dropped it, and its first bytes if the run
has been refused the rest (`execute_writes_report`). It makes no difference whether the file held the
program or the configuration before: they have been read by then.

So a run that fails may have changed a file, and a run that succeeds may have left nothing in one
(`execute_writes_inPart`).
-/

namespace SignalLab

variable {medium : Medium}

/-! ## The report of a trial -/

namespace Trial

/-- The rows of the report of a trial. -/
def rows (t : Trial) : List String :=
  Report.rows 0 t.history.prices t.backtest.positions t.backtest.equity

/-- The text of the report of a trial. -/
def report (t : Trial) : String := Report.header ++ String.join t.rows

/-- A trial backtests some signal over its history. -/
theorem exists_ofSignal {v : Vocabulary} {p : Program} {s : Settings} {h : History} {t : Trial}
    (htrial : ofHistory v p s h = .ok t) : ∃ x, t = ofSignal h x s := by
  unfold ofHistory at htrial
  split at htrial
  · cases htrial
  · split at htrial
    · cases htrial
    · next x heval =>
      cases htrial
      exact ⟨x, rfl⟩

theorem exists_ofSignal_of_run {σ : Type} {fetch : Request → StateM σ (Except Failure History)}
    {v : Vocabulary} {source : String} {s : Settings} {state : σ} {t : Trial}
    (htrial : ((run fetch v source s).run state).1 = .ok t) : ∃ h x, t = ofSignal h x s := by
  rcases hcompile : compile v source with d | p
  · rw [run_of_error hcompile] at htrial
    cases htrial
  · rw [answer_run_of_ok hcompile] at htrial
    rcases hfetch : ((fetch (requestOf s)).run state).1 with failure | h
    · rw [hfetch] at htrial
      cases htrial
    · rw [hfetch] at htrial
      exact ⟨h, exists_ofSignal htrial⟩

end Trial

/-- A report begins with its header. -/
theorem Trial.toUTF8_report (t : Trial) :
    t.report.toUTF8 = Report.header.toUTF8 ++ (String.join t.rows).toUTF8 :=
  String.toByteArray_append

/-- A trial of a signal has a position and a point of the equity for every sample. -/
theorem Trial.length_ofSignal (h : History) (x : Signal) (s : Settings) :
    let t := ofSignal h x s
    t.backtest.positions.length = t.history.prices.length ∧
      t.backtest.equity.length = t.history.prices.length :=
  ⟨Backtest.length_positions h.prices x s.costRate, Backtest.length_equity h.prices x s.costRate⟩

/-- The columns of a trial make a table. -/
theorem Trial.table_of_run {σ : Type} {fetch : Request → StateM σ (Except Failure History)}
    {v : Vocabulary} {source : String} {s : Settings} {state : σ} {t : Trial}
    (htrial : ((run fetch v source s).run state).1 = .ok t) :
    Report.table t.history.prices t.backtest.positions t.backtest.equity = .ok t.report := by
  obtain ⟨h, x, rfl⟩ := exists_ofSignal_of_run htrial
  obtain ⟨hpositions, hequity⟩ := length_ofSignal h x s
  exact Report.table_of_equal hpositions hequity

/-! ## Runs with a report -/

namespace CommandLine

/-- The trial that a run makes, from what stands on the disk when it begins. -/
def outcome (v : Vocabulary) (config program : String) (instrument : Option String)
    (scene : SceneOn medium) : Except Failure Trial := do
  let c ← ((loadConfig config : StateM (SceneOn medium) _).run scene).1
  let s ← settingsOf c instrument
  let source ← ((loadProgram program : StateM (SceneOn medium) _).run scene).1
  ((Trial.run s.source.fetch v source s : StateM (SceneOn medium) _).run scene).1

/-- A run tries what it has prepared. -/
theorem outcome_eq_prepare (v : Vocabulary) (config program : String) (instrument : Option String)
    (scene : SceneOn medium) :
    outcome v config program instrument scene =
      ((prepare config program instrument : StateM (SceneOn medium) _).run scene).1 >>= fun p =>
        ((Trial.run p.1.source.fetch v p.2 p.1 : StateM (SceneOn medium) _).run scene).1 := by
  rw [OnlyReads.answer_prepare, outcome]
  simp only [bind_assoc, pure_bind]

/-- What a run makes is the trial of some signal. -/
theorem exists_ofSignal_of_outcome {v : Vocabulary} {config program : String}
    {instrument : Option String} {scene : SceneOn medium} {t : Trial}
    (h : outcome v config program instrument scene = .ok t) : ∃ h x s, t = .ofSignal h x s := by
  rw [outcome_eq_prepare] at h
  rcases hprepare : ((prepare config program instrument : StateM (SceneOn medium) _).run scene).1
    with failure | ⟨s, source⟩
  · rw [hprepare] at h
    cases h
  · rw [hprepare] at h
    obtain ⟨history, x, rfl⟩ := Trial.exists_ofSignal_of_run h
    exact ⟨history, x, s, rfl⟩

/-- What a run that is to report at a path ends with, given the disk that it finds: it fails as its
trial does, or because the path cannot be opened, and then the disk stays as it is; or it has opened
the path, and then its file holds what is kept of the report. -/
structure Reports (answer : Except Failure Trial) (path : String) (disk : Disk) (working : Location)
    (code : UInt8) (after : SceneOn medium) : Prop where
  stays : after.working = working
  fails : ∀ failure, answer = .error failure → code = failure.exitCode ∧ after.disk = disk
  unopened : ∀ t fault, answer = .ok t → disk.locateNew working path = .error fault →
    code = 1 ∧ after.disk = disk
  opened : ∀ t place, answer = .ok t → disk.locateNew working path = .ok place →
    after.disk = disk.put place (.file ((medium place).kept t.report.toUTF8)) ∧
    (∀ fault, (medium place).refusal? t.report.utf8ByteSize = some fault → code = 1) ∧
    ((medium place).refusal? t.report.utf8ByteSize = none → code = 0)

/-- A failure before the report ends a run with the disk as it was. -/
theorem Reports.of_fail (failure : Failure) (source path : String) (scene : SceneOn medium) :
    let r := (fail failure source : StateM (SceneOn medium) UInt8).run scene
    Reports (.error failure) path scene.disk scene.working r.1 r.2 := by
  refine ⟨rfl, fun failure' h => ?_, fun t fault h => ?_, fun t place h => ?_⟩
  · cases h
    exact ⟨rfl, rfl⟩
  · cases h
  · cases h

/-- So does a path that cannot be opened. -/
theorem Reports.of_unopened {t : Trial} {path : String} {scene : SceneOn medium} {fault : DiskFault}
    (hplace : scene.disk.locateNew scene.working path = .error fault) (source : String) :
    let r := (fail (.report fault.message) source : StateM (SceneOn medium) UInt8).run scene
    Reports (.ok t) path scene.disk scene.working r.1 r.2 := by
  refine ⟨rfl, fun failure h => ?_, fun _ _ _ _ => ⟨rfl, rfl⟩, fun t place _ h => ?_⟩
  · cases h
  · cases hplace.symm.trans h

/-- A run that has opened its path ends as the writing of the report does. -/
theorem Reports.of_opened {t : Trial} {path : String} {disk : Disk} {working place : Location}
    {code : UInt8} {after : SceneOn medium} (hplace : disk.locateNew working path = .ok place)
    (hstays : after.working = working)
    (hdisk : after.disk = disk.put place (.file ((medium place).kept t.report.toUTF8)))
    (hrefused : ∀ fault, (medium place).refusal? t.report.utf8ByteSize = some fault → code = 1)
    (hfits : (medium place).refusal? t.report.utf8ByteSize = none → code = 0) :
    Reports (.ok t) path disk working code after := by
  refine ⟨hstays, fun failure h => ?_, fun t fault _ h => ?_, fun t' place' h h' => ?_⟩
  · cases h
  · cases hplace.symm.trans h
  · cases h
    cases hplace.symm.trans h'
    exact ⟨hdisk, hrefused, hfits⟩

theorem reports_runTrial (v : Vocabulary) (source : String) (s : Settings) (path : String)
    (scene : SceneOn medium) :
    let r := (runTrial v source s (some path) : StateM (SceneOn medium) UInt8).run scene
    Reports ((Trial.run s.source.fetch v source s : StateM (SceneOn medium) _).run scene).1 path
      scene.disk scene.working r.1 r.2 := by
  have hreads : OnlyReads (Trial.run s.source.fetch v source s : StateM (SceneOn medium) _) :=
    .trial v source s
  dsimp only
  rw [runTrial, StateM.run_bind_eq, ← hreads.disk scene, ← hreads.working scene]
  generalize ((Trial.run s.source.fetch v source s : StateM (SceneOn medium) _).run scene).2 = tried
  rcases htrial : ((Trial.run s.source.fetch v source s : StateM (SceneOn medium) _).run scene).1
    with failure | t
  · exact .of_fail failure source path tried
  · have htable := Trial.table_of_run htrial
    -- the remarks before the report concern neither the disk nor the working folder
    have hremark : OnlyReads (Host.remark ("\n" ++ Report.summary t s) :
      StateM (SceneOn medium) _) := .remark _
    dsimp only
    rw [StateM.run_bind_eq, StateM.run_bind_eq, Report.run_write htable, ← hremark.disk tried,
      ← hremark.working tried]
    generalize ((Host.remark ("\n" ++ Report.summary t s) :
      StateM (SceneOn medium) Unit).run tried).2 = remarked
    rcases hplace : remarked.disk.locateNew remarked.working path with fault | place
    · exact .of_unopened hplace source
    · dsimp only
      rcases hroom : (medium place).refusal? t.report.utf8ByteSize with _ | fault
      · rw [Report.ending_of_fits hroom]
        refine .of_opened hplace rfl rfl (fun fault hfault => ?_) fun _ => rfl
        cases hroom.symm.trans hfault
      · obtain ⟨failure, hending, hcode⟩ := Report.ending_of_refused hroom
        rw [hending]
        refine .of_opened hplace rfl rfl (fun _ _ => hcode) fun hfits => ?_
        cases hroom.symm.trans hfits

/-- **A run that is to report** decides by what it finds, and leaves what is kept of its report, or
nothing. -/
theorem reports_run (v : Vocabulary) (config program : String) (instrument : Option String)
    (path : String) (scene : SceneOn medium) :
    let r := (execute v (.run config program instrument (some path) false) :
      StateM (SceneOn medium) UInt8).run scene
    Reports (outcome v config program instrument scene) path scene.disk scene.working r.1 r.2 := by
  have hreads : OnlyReads (prepare config program instrument : StateM (SceneOn medium) _) :=
    .prepare config program instrument
  dsimp only
  rw [execute, run_eq_prepare, StateM.run_bind_eq, outcome_eq_prepare]
  rcases ((prepare config program instrument : StateM (SceneOn medium) _).run scene).1 with
    failure | ⟨s, source⟩
  · rw [← hreads.disk scene, ← hreads.working scene]
    exact .of_fail failure "" path _
  · have hreports := reports_runTrial v source s path
      ((prepare config program instrument : StateM (SceneOn medium) _).run scene).2
    rw [hreads.answer_after (.trial v source s), hreads.disk, hreads.working] at hreports
    exact hreports

/-! ## All commands -/

/-- The path at which a command is to write a report. -/
def reportPath? : Command → Option String
  | .run _ _ _ output false => output
  | _ => none

theorem eq_run_of_reportPath? {command : Command} {path : String}
    (h : reportPath? command = some path) :
    ∃ config program instrument, command = .run config program instrument (some path) false := by
  cases command with
  | run config program instrument output dryRun =>
    cases dryRun with
    | false =>
      change output = some path at h
      exact ⟨config, program, instrument, by rw [h]⟩
    | true => cases h
  | check program => cases h
  | builtins category => cases h
  | instruments config => cases h

/-- A command that is to write no report only reads. -/
theorem onlyReads_execute (v : Vocabulary) {command : Command} (h : reportPath? command = none) :
    OnlyReads (execute v command : StateM (SceneOn medium) _) := by
  cases command with
  | run config program instrument output dryRun =>
    rw [execute, run_eq_prepare]
    refine (OnlyReads.prepare _ _ _).bind fun prepared => ?_
    rcases prepared with failure | ⟨s, source⟩
    · exact .fail _ _
    · rw [proceed]
      split
      · exact .runDry _ _ _
      · next hdry =>
        rw [Bool.not_eq_true] at hdry
        rw [hdry] at h
        change output = none at h
        rw [h]
        exact .runTrial _ _ _
  | check program => exact .check _ _
  | builtins category => exact .builtins _ _
  | instruments config => exact .listing _

/-- **What a command leaves on the disk.** Whatever a command does, nothing on the disk changes, unless
the command is a run that is not dry and was given a path for its report. If its trial fails, then the
run fails with the same code and the disk stays as it is, and so it does if the path cannot be opened.
Otherwise one location is changed, that to which the path leads. It holds what is kept there of the
report of the trial that the run made of the files as they were. The run fails if the medium has
refused some of the report. If it has refused nothing then the run succeeds, and unless the medium
drops what it takes, what is read from the path is the report: a header and a row for every sample of
the trial, with the number, the price, the position and the equity of the sample. -/
theorem execute_writes_report (v : Vocabulary) (command : Command) (scene : SceneOn medium) :
    let r := (execute v command : StateM (SceneOn medium) UInt8).run scene
    r.2.working = scene.working ∧
    (reportPath? command = none → r.2.disk = scene.disk) ∧
    ∀ config program instrument path,
      command = .run config program instrument (some path) false →
        (∀ failure, outcome v config program instrument scene = .error failure →
          r.1 = failure.exitCode ∧ r.1 ≠ 0 ∧ r.2.disk = scene.disk) ∧
        ∀ t, outcome v config program instrument scene = .ok t →
          (∀ fault, scene.disk.locateNew scene.working path = .error fault →
            r.1 = 1 ∧ r.2.disk = scene.disk) ∧
          ∀ place, scene.disk.locateNew scene.working path = .ok place →
            (∀ other, other ≠ place → r.2.disk.find? other = scene.disk.find? other) ∧
            r.2.disk.find? place = some (.file ((medium place).kept t.report.toUTF8)) ∧
            (∀ fault, (medium place).refusal? t.report.utf8ByteSize = some fault → r.1 = 1) ∧
            ((medium place).refusal? t.report.utf8ByteSize = none → r.1 = 0 ∧
              (medium place ≠ .nothing → ∃ text,
                r.2.disk.readText scene.working path = .ok text ∧
                text = Report.header ++ String.join t.rows ∧
                t.history.prices.length = t.history.size ∧
                t.backtest.positions.length = t.history.size ∧
                t.backtest.equity.length = t.history.size ∧
                Report.ReadsAs text t.history.prices t.backtest.positions t.backtest.equity)) := by
  rcases hpath : reportPath? command with _ | path
  · have hreads : OnlyReads (execute v command : StateM (SceneOn medium) _) :=
      onlyReads_execute v hpath
    refine ⟨hreads.working scene, fun _ => hreads.disk scene, ?_⟩
    rintro config program instrument path rfl
    cases hpath
  · obtain ⟨config, program, instrument, rfl⟩ : ∃ config program instrument,
        command = .run config program instrument (some path) false :=
      eq_run_of_reportPath? hpath
    have hreports := reports_run v config program instrument path scene
    refine ⟨hreports.stays, fun h => absurd h (Option.some_ne_none path), ?_⟩
    intro config' program' instrument' path' hcommand
    cases hcommand
    refine ⟨fun failure hanswer => ?fails, fun t hanswer =>
      ⟨fun fault => hreports.unopened t fault hanswer, fun place hplace => ?opened⟩⟩
    case fails =>
      obtain ⟨hcode, hdisk⟩ := hreports.fails failure hanswer
      exact ⟨hcode, fun hzero => failure.exitCode_ne_zero (hcode.symm.trans hzero), hdisk⟩
    case opened =>
      obtain ⟨hdisk, hrefused, hfits⟩ := hreports.opened t place hanswer hplace
      have hroot : place ≠ [] := Disk.ne_nil_of_find? (Disk.locateNew_cases hplace).2.1
      refine ⟨fun other hother => ?_, ?_, hrefused, fun hroom => ⟨hfits hroom, fun hkeeps => ?_⟩⟩
      · exact (congrArg (Disk.find? · other) hdisk).trans (Disk.find?_put_of_ne _ hother _)
      · exact (congrArg (Disk.find? · place) hdisk).trans (Disk.find?_put_self _ hroot _)
      · -- the columns of a trial are of one length, whatever signal it is the trial of
        obtain ⟨h, x, s, rfl⟩ := exists_ofSignal_of_outcome hanswer
        obtain ⟨hpositions, hequity⟩ := Trial.length_ofSignal h x s
        have hkept : (medium place).kept (Trial.ofSignal h x s).report.toUTF8 =
            (Trial.ofSignal h x s).report.toUTF8 := Keeping.kept_of_fits hkeeps hroom
        rw [hkept] at hdisk
        exact ⟨_, (congrArg (Disk.readText · scene.working path) hdisk).trans
          (Disk.readText_put hplace _), rfl, h.length_prices, hpositions.trans h.length_prices,
          hequity.trans h.length_prices, Report.readsAs_table hpositions hequity⟩

/-- Over two samples there is a trial. -/
theorem exists_outcome_of_prepare (draws : Signal) {config program : String}
    {instrument : Option String} {scene : SceneOn medium}
    (hprepare : ((prepare config program instrument : StateM (SceneOn medium) _).run scene).1 =
      .ok (limitSettings 2, "mean price volume")) :
    ∃ t, outcome (Vocabulary.standard draws) config program instrument scene = .ok t ∧
      t.history.size = 2 := by
  obtain ⟨p, hcompile⟩ : ∃ p, compile (Vocabulary.bound draws []) "mean price volume" = .ok p :=
    ⟨_, compile_meanPriceVolume draws []⟩
  have hstandard : compile (Vocabulary.standard draws) "mean price volume" = .ok p := hcompile
  have hsize : (History.synthetic "demo" 2).size = 2 := by decide
  obtain ⟨x, -, hx⟩ := Trial.ofHistory_of_le (s := limitSettings 2) hcompile hsize.ge
  refine ⟨.ofSignal (History.synthetic "demo" 2) x (limitSettings 2), ?_, hsize⟩
  rw [outcome_eq_prepare, hprepare, ok_bind_eq]
  dsimp only [limitSettings]
  rw [Trial.answer_run_of_ok hstandard, DataSource.fetch, Synthetic.fetch_of_le (by decide)]
  exact hx

/-- A run over two samples whose report takes the place of the program. -/
theorem execute_writes_report_overProgram :
    let v := Vocabulary.standard (Series.constant 0.5)
    let scene : SceneOn .lasting :=
      ⟨⟨[(["config"], .file "[input]\ninstrument=demo\nlimit=2".toUTF8),
        (["program"], .file "mean price volume".toUTF8)]⟩, [], "", ""⟩
    let r := (execute v (.run "config" "program" none (some "program") false) :
      StateM (SceneOn .lasting) UInt8).run scene
    r.1 = 0 ∧ r.2.disk.find? ["config"] = scene.disk.find? ["config"] ∧
      ∃ t, outcome v "config" "program" none scene = .ok t ∧ t.history.size = 2 ∧
        ∃ text, r.2.disk.readText [] "program" = .ok text ∧
          text = Report.header ++ String.join t.rows ∧
          Report.ReadsAs text t.history.prices t.backtest.positions t.backtest.equity := by
  -- the run stays as it is written, so that nothing of it is computed to compare what is said of it
  intro v scene
  have hprepare : ((prepare "config" "program" none : StateM (SceneOn .lasting) _).run scene).1 =
      .ok (limitSettings 2, "mean price volume") :=
    OnlyReads.prepare_of_texts (Disk.readText_of_file ["config"] (by rfl) (by rfl)) settingsOf_limitTwo
      (Disk.readText_of_file ["program"] (by rfl) (by rfl))
  obtain ⟨t, houtcome, htwo⟩ := exists_outcome_of_prepare (Series.constant 0.5) hprepare
  obtain ⟨-, -, hruns⟩ :=
    execute_writes_report v (.run "config" "program" none (some "program") false) scene
  obtain ⟨hothers, -, -, hfits⟩ :=
    ((hruns "config" "program" none "program" rfl).2 t houtcome).2 ["program"] (by rfl)
  obtain ⟨hcode, hread⟩ := hfits rfl
  obtain ⟨text, htext, hreport, -, -, -, hreads⟩ := hread Keeping.noConfusion
  exact ⟨hcode, hothers ["config"] (by decide), t, houtcome, htwo, text, htext, hreport, hreads⟩

/-- A medium with room for a few bytes of one file, and none for those of another, which it drops. -/
def narrowMedium : Medium := fun place =>
  if place = ["full"] then .upTo 5 (.other 28 "No space left on device")
  else if place = ["sink"] then .nothing
  else .all

/-- **A run that fails may have changed a file, and one that succeeds may have left no report.** Where
there is too little room, what the file held is gone, the report has been begun, and the run fails. Of
a report that goes to a device that drops it, nothing is there after the run has succeeded. -/
theorem execute_writes_inPart :
    let v := Vocabulary.standard (Series.constant 0.5)
    let scene : SceneOn narrowMedium :=
      ⟨⟨[(["config"], .file "[input]\ninstrument=demo\nlimit=2".toUTF8),
        (["program"], .file "mean price volume".toUTF8), (["full"], .file "old".toUTF8),
        (["sink"], .file .empty)]⟩, [], "", ""⟩
    let full := (execute v (.run "config" "program" none (some "full") false) :
      StateM (SceneOn narrowMedium) UInt8).run scene
    let sink := (execute v (.run "config" "program" none (some "sink") false) :
      StateM (SceneOn narrowMedium) UInt8).run scene
    (full.1 = 1 ∧ full.2.disk.find? ["full"] = some (.file "index".toUTF8) ∧
      scene.disk.find? ["full"] = some (.file "old".toUTF8)) ∧
    sink.1 = 0 ∧ sink.2.disk.find? ["sink"] = some (.file .empty) ∧
      ∃ t, outcome v "config" "program" none scene = .ok t ∧ t.report.toUTF8 ≠ .empty := by
  intro v scene
  have hprepare : ((prepare "config" "program" none : StateM (SceneOn narrowMedium) _).run scene).1 =
      .ok (limitSettings 2, "mean price volume") :=
    OnlyReads.prepare_of_texts (Disk.readText_of_file ["config"] (by rfl) (by rfl)) settingsOf_limitTwo
      (Disk.readText_of_file ["program"] (by rfl) (by rfl))
  obtain ⟨t, houtcome, -⟩ := exists_outcome_of_prepare (Series.constant 0.5) hprepare
  have hreports (path : String) := reports_run v "config" "program" none path scene
  obtain ⟨hfull, hrefused, -⟩ := (hreports "full").opened t ["full"] houtcome (by rfl)
  obtain ⟨hsink, -, hfits⟩ := (hreports "sink").opened t ["sink"] houtcome (by rfl)
  have hheader : 5 < Report.header.toUTF8.size := by decide
  have hlong : 5 < t.report.toUTF8.size := by
    rw [t.toUTF8_report, ByteArray.size_append]
    exact hheader.trans_le (Nat.le_add_right _ _)
  have hbegun : (narrowMedium ["full"]).kept t.report.toUTF8 = "index".toUTF8 := by
    rw [t.toUTF8_report]
    change (Report.header.toUTF8 ++ (String.join t.rows).toUTF8).extract 0 5 = "index".toUTF8
    rw [ByteArray.extract_append, Nat.zero_sub, Nat.sub_eq_zero_of_le hheader.le,
      ByteArray.extract_eq_empty_iff.mpr (Nat.min_le_left 0 _), ByteArray.append_empty]
    decide
  have hroom : (Keeping.upTo 5 (.other 28 "No space left on device")).refusal?
      t.report.utf8ByteSize = some (.other 28 "No space left on device") := by
    rw [Keeping.refusal?]
    exact if_pos hlong
  rw [hbegun] at hfull
  refine ⟨⟨hrefused _ hroom, ?_, rfl⟩, hfits rfl, ?_, t, houtcome, ?_⟩
  · exact (congrArg (Disk.find? · ["full"]) hfull).trans (Disk.find?_put_self _ (by decide) _)
  · exact (congrArg (Disk.find? · ["sink"]) hsink).trans (Disk.find?_put_self _ (by decide) _)
  · intro hempty
    rw [hempty] at hlong
    exact absurd hlong (by decide)

end CommandLine

end SignalLab
