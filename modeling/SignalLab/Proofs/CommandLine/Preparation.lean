import SignalLab.CommandLine.Run

/-!
# Before a run looks at its program

A dry run and a run that is not dry begin alike: they read and check the configuration, take the
instrument that was given, and read the program. `prepare` is this beginning, and `run_eq_prepare` says
that the two part only after it.
-/

namespace SignalLab

/-- In surroundings that are a state, one step is taken after the other. -/
theorem StateM.run_bind_eq {σ α β : Type} (x : StateM σ α) (f : α → StateM σ β) (state : σ) :
    (x >>= f).run state = (f (x.run state).1).run (x.run state).2 := rfl

namespace CommandLine

variable {m : Type → Type} [Monad m] [Host m]

/-- Reads the settings and the source text of a run, with remarks on the progress. -/
def prepare (config program : String) (instrument : Option String) :
    m (Except Failure (Settings × String)) := do
  remarkLine ("Loading config from " ++ config)
  match ← loadConfig config with
  | .error failure => return .error failure
  | .ok c =>
    match settingsOf c instrument with
    | .error failure => return .error failure
    | .ok s =>
      remarkLine ("Loading program from " ++ program)
      match ← loadProgram program with
      | .error failure => return .error failure
      | .ok source =>
        remarkLine ("Program: " ++ (Docstring.ofSource source).name)
        return .ok (s, source)

/-- What a run does once it is prepared. -/
def proceed (v : Vocabulary) (output : Option String) (dryRun : Bool) :
    Except Failure (Settings × String) → m UInt8
  | .error failure => fail failure ""
  | .ok (s, source) => if dryRun then runDry v source s else runTrial v source s output

/-- A run prepares itself, and then says what it would do or does it. -/
theorem run_eq_prepare [LawfulMonad m] (v : Vocabulary) (config program : String)
    (instrument output : Option String) (dryRun : Bool) :
    (run v config program instrument output dryRun : m UInt8) =
      prepare config program instrument >>= proceed v output dryRun := by
  simp only [run, prepare, bind_assoc]
  congr 1
  funext _
  congr 1
  funext c
  rcases c with failure | c
  · rw [pure_bind]
    rfl
  · dsimp only
    rcases settingsOf c instrument with failure | s
    · rw [pure_bind]
      rfl
    · simp only [bind_assoc]
      congr 1
      funext _
      congr 1
      funext source
      rcases source with failure | source
      · rw [pure_bind]
        rfl
      · simp only [bind_assoc, pure_bind]
        rfl

end CommandLine

end SignalLab
