import Mathlib
import SignalLab.Proofs.Compile.Evaluation
import SignalLab.Proofs.Compile.Faults
import SignalLab.Proofs.Program.Acceptance
import SignalLab.Trial

/-!
# What comes of a trial

A trial is decided in three steps: the program is compiled, the data are asked for, and the program is
evaluated over what comes. The first two can fail, and then the trial fails with the same failure. The
third cannot, for whatever has been compiled can be evaluated over every history (`exists_evaluate`);
only the history can be too short.

How often the data are asked for is said by a data source that keeps its requests
(`Request.recorded`). It may otherwise do as it likes: it runs in any monad, may answer differently
each time, and may have effects of its own.
-/

namespace SignalLab

open Vocabulary (bound)

/-! ## Evaluation after compilation -/

/-- A source text that compiles is evaluated over every market, and so is its program. -/
theorem exists_evaluate {draws : Signal} {markets : List Feeds} {source : String} {p : Program}
    (h : compile (bound draws markets) source = .ok p) (feeds : Feeds) :
    ∃ x, p.eval ((bound draws markets).bind feeds) = .ok x ∧
      evaluate (bound draws markets) feeds source = .ok x := by
  have hlower : ∃ e, Program.ofExpr (bound draws markets) e = .ok p := by
    unfold compile at h
    split at h
    · cases h
    · exact ⟨_, h⟩
  obtain ⟨e, he⟩ := hlower
  obtain ⟨x, hx, -⟩ := Program.eval_bind_eq_meaning? he feeds
  refine ⟨x, hx, ?_⟩
  rw [evaluate, h]
  dsimp only
  rw [hx]

/-- A mean of nothing but a signal, which is refused. -/
theorem compile_meanPrice (draws : Signal) (markets : List Feeds) :
    compile (bound draws markets) "mean price" = .error (.application "mean" 2 1 ⟨0, 10⟩) := by
  have hparse : Expr.parse "mean price" =
      .ok (.application ⟨0, 10⟩ "mean" [.reference ⟨5, 10⟩ "price"]) := by cbv
  rw [compile_bound draws (Series.constant 0.5) markets [], compile, hparse]
  decide +kernel

/-- A mean of one signal over as many samples as another one says. -/
theorem compile_meanPriceVolume (draws : Signal) (markets : List Feeds) :
    compile (bound draws markets) "mean price volume" =
      .ok ⟨#[.reference "price", .reference "volume", .reference "open", .reference "close",
        .reference "high", .reference "low", .reference "time", .reference "random",
        .reference "pi", .reference "e", .apply "mean" [0, 1]]⟩ := by
  have hparse : Expr.parse "mean price volume" = .ok (.application ⟨0, 17⟩ "mean"
      [.reference ⟨5, 10⟩ "price", .reference ⟨11, 17⟩ "volume"]) := by cbv
  rw [compile_bound draws (Series.constant 0.5) markets [], compile, hparse]
  decide +kernel

/-! ## Requests -/

variable {m : Type → Type} [Monad m]

namespace Request

variable {α : Type}

/-- A data source that does what another one does and keeps the requests it gets, in order. -/
def recorded (fetch : Request → m α) : Request → StateT (List Request) m α :=
  fun r => do
    modify (· ++ [r])
    fetch r

theorem run_recorded [LawfulMonad m] (fetch : Request → m α) (r : Request)
    (requests : List Request) :
    (recorded fetch r).run requests = (·, requests ++ [r]) <$> fetch r := by
  simp [recorded]

end Request

namespace Trial

variable {fetch : Request → m (Except Failure History)} {v : Vocabulary} {source : String}
  {s : Settings} {p : Program} {d : Diagnostic}

/-- A program at fault ends a trial before any data are asked for. -/
theorem run_of_error (h : compile v source = .error d) :
    run fetch v source s = pure (.error (.program d)) := by
  rw [run, h]

/-- A trial of any other program asks for data once, and the rest follows from the answer. -/
theorem run_of_ok [LawfulMonad m] (h : compile v source = .ok p) :
    run fetch v source s = (· >>= ofHistory v p s) <$> fetch (requestOf s) := by
  rw [run, h, map_eq_pure_bind]
  dsimp only
  congr 1
  funext answer
  cases answer <;> rfl

/-- The same in surroundings that are a state. -/
theorem answer_run_of_ok {σ : Type} {fetch : Request → StateM σ (Except Failure History)}
    (h : compile v source = .ok p) (state : σ) :
    ((run fetch v source s).run state).1 =
      ((fetch (requestOf s)).run state).1 >>= ofHistory v p s := by
  rw [run_of_ok h, StateT.run_map]
  rfl

/-- Over too few samples there is no trial. -/
theorem ofHistory_of_lt {h : History} (hsize : h.size < Settings.leastLimit) :
    ofHistory v p s h = .error (.tooFewSamples s.instrument h.size Settings.leastLimit) := by
  rw [ofHistory, if_pos hsize]

/-- The trial of a signal over a history. -/
def ofSignal (h : History) (x : Signal) (s : Settings) : Trial :=
  let backtest := Backtest.run h.prices x s.costRate
  ⟨h, backtest, .ofMetrics backtest.metrics (h.size - 1) s.frequency⟩

/-- Over enough samples there always is one: that of the signal of the source text. -/
theorem ofHistory_of_le {draws : Signal} {markets : List Feeds}
    (hcompile : compile (bound draws markets) source = .ok p) {h : History}
    (hsize : Settings.leastLimit ≤ h.size) :
    ∃ x, evaluate (bound draws markets) h.feeds source = .ok x ∧
      ofHistory (bound draws markets) p s h = .ok (ofSignal h x s) := by
  obtain ⟨x, heval, hevaluate⟩ := exists_evaluate hcompile h.feeds
  refine ⟨x, hevaluate, ?_⟩
  rw [ofHistory, if_neg (Nat.not_lt.mpr hsize), heval]
  rfl

/-- **A trial compiles its program, asks for data once, and tries the program over what it gets.**
If the program is at fault, that is what the trial answers, and no data are asked for. Otherwise they
are asked for exactly once, as the settings say. The data source's failure is the trial's; a history of
fewer than two samples is too short; and every other one is backtested with the signal that the source
text has over it. No fault of evaluation is answered, unless the data source itself answers with it. -/
theorem run_asks_once (draws : Signal) (markets : List Feeds) [LawfulMonad m]
    (fetch : Request → m (Except Failure History)) (source : String) (s : Settings)
    (requests : List Request) :
    let v := bound draws markets
    let answers := (run (Request.recorded fetch) v source s).run requests
    (∀ d, compile v source = .error d →
      answers = pure (.error (.program d), requests) ∧ ∀ fault, d ≠ .program fault) ∧
    ∀ p, compile v source = .ok p →
      let request : Request := ⟨s.instrument, s.limit, s.frequency⟩
      ∃ outcome : Except Failure History → Except Failure Trial,
        answers = (fun answer => (outcome answer, requests ++ [request])) <$> fetch request ∧
        (∀ failure, outcome (.error failure) = .error failure) ∧
        (∀ h : History, h.size < 2 →
          outcome (.ok h) = .error (.tooFewSamples s.instrument h.size 2)) ∧
        (∀ h : History, 2 ≤ h.size → ∃ x, evaluate v h.feeds source = .ok x ∧
          let backtest := Backtest.run h.prices x s.costRate
          outcome (.ok h) =
            .ok ⟨h, backtest, .ofMetrics backtest.metrics (h.size - 1) s.frequency⟩) ∧
        ∀ answer fault, outcome answer = .error (.program (.program fault)) →
          answer = .error (.program (.program fault)) := by
  intro v answers
  refine ⟨fun d h => ⟨?_, ne_program_of_compile h⟩, fun p h => ?_⟩
  · change (run (Request.recorded fetch) v source s).run requests = _
    rw [run_of_error h]
    rfl
  · refine ⟨(· >>= ofHistory v p s), ?_, fun failure => rfl, fun h hsize => ofHistory_of_lt hsize,
      fun history hsize => ofHistory_of_le h hsize, ?_⟩
    · change (run (Request.recorded fetch) v source s).run requests = _
      rw [run_of_ok h, StateT.run_map, Request.run_recorded, Functor.map_map]
      rfl
    · rintro (failure | history) fault hfault
      · have hsame : failure = .program (.program fault) := Except.error.inj hfault
        rw [hsame]
      · rcases Nat.lt_or_ge history.size Settings.leastLimit with hsize | hsize
        · cases (ofHistory_of_lt hsize).symm.trans hfault
        · obtain ⟨x, -, hx⟩ := ofHistory_of_le (s := s) h hsize
          cases hx.symm.trans hfault

/-- A program at fault and a good one, over a data source that has two samples. -/
theorem run_asks_once_meanByVolume :
    let v := bound (Series.constant 0.5) []
    let s : Settings := ⟨.synthetic, "demo", 5, .daily, 0.001, "info"⟩
    let h : History := ⟨#[⟨1.0, 2.0, 1.0, 1.0, 1.0, 1.0⟩, ⟨2.0, 2.0, 1.0, 2.0, 2.0, 1.0⟩]⟩
    let fetch : Request → Id (Except Failure History) := fun _ => pure (.ok h)
    let d : Diagnostic := .application "mean" 2 1 ⟨0, 10⟩
    let p : Program := ⟨#[.reference "price", .reference "volume", .reference "open",
      .reference "close", .reference "high", .reference "low", .reference "time",
      .reference "random", .reference "pi", .reference "e", .apply "mean" [0, 1]]⟩
    compile v "mean price" = .error d ∧ compile v "mean price volume" = .ok p ∧ 2 ≤ h.size ∧
      (run (Request.recorded fetch) v "mean price" s).run [] = pure (.error (.program d), []) ∧
      ∃ x, evaluate v h.feeds "mean price volume" = .ok x ∧
        let backtest := Backtest.run h.prices x s.costRate
        (run (Request.recorded fetch) v "mean price volume" s).run [] =
          pure (.ok ⟨h, backtest, .ofMetrics backtest.metrics 1 s.frequency⟩,
            [⟨"demo", 5, .daily⟩]) := by
  intro v s h fetch d p
  have hfault : compile v "mean price" = .error d := compile_meanPrice (Series.constant 0.5) []
  have hcompile : compile v "mean price volume" = .ok p :=
    compile_meanPriceVolume (Series.constant 0.5) []
  have hsize : 2 ≤ h.size := by decide
  have hasks := run_asks_once (Series.constant 0.5) [] fetch
  obtain ⟨outcome, hrun, -, -, hfull, -⟩ := (hasks "mean price volume" s []).2 p hcompile
  obtain ⟨x, hx, houtcome⟩ := hfull h hsize
  refine ⟨hfault, hcompile, hsize, ((hasks "mean price" s []).1 d hfault).1, x, hx, ?_⟩
  intro backtest
  rw [hrun]
  exact congrArg (·, [(⟨"demo", 5, .daily⟩ : Request)]) houtcome

end Trial

end SignalLab
