import Mathlib
import SignalLab.Proofs.First
import SignalLab.Settings

/-!
# Which configurations a run can be made from

Every key of a configuration is valid or not by itself, except that the folder is only looked at where
the source is one of files. A configuration is accepted exactly if all keys are valid; the settings are
then what the keys say. Otherwise the first key that is not valid is reported, in the order of
`checks`, and the log level is never at fault (`ofConfig_exact`).

The values of the keys may be any: nothing is assumed of where a configuration comes from.
-/

namespace SignalLab.Settings

variable {c : Config} {k : ConfigKey}

/-! ## What a configuration says -/

/-- What the text of a key says: it is read without the blanks around it, and if nothing is left of it
or it is absent, it says nothing. -/
inductive Says (c : Config) (k : ConfigKey) : Option String → Prop
  | absent (hvalue : c.text? k = none) : Says c k none
  | blank {s : String} (hvalue : c.text? k = some s) (hblank : Text.trim s = "") : Says c k none
  | text {s : String} (hvalue : c.text? k = some s) (hblank : Text.trim s ≠ "") :
      Says c k (some (Text.trim s))

/-- The data source of a configuration. -/
inductive HasSource (c : Config) : DataSource → Prop
  | unnamed (hsource : Says c sourceKey none) : HasSource c .synthetic
  | synthetic {s : String} (hsource : Says c sourceKey (some s))
      (hname : Text.lowercase s = "synthetic") : HasSource c .synthetic
  | archive {s folder : String} (hsource : Says c sourceKey (some s))
      (hname : Text.lowercase s = "csv") (hfolder : Says c folderKey (some folder)) :
      HasSource c (.archive folder)

/-- The number of samples of a configuration. -/
inductive HasLimit (c : Config) : Nat → Prop
  | absent (hvalue : c.whole? limitKey = .ok none) : HasLimit c 500
  | given {n : Int} (hvalue : c.whole? limitKey = .ok (some n)) (hleast : 2 ≤ n) :
      HasLimit c n.toNat

/-- The frequency of a configuration. -/
inductive HasFrequency (c : Config) : Frequency → Prop
  | unnamed (hvalue : Says c frequencyKey none) : HasFrequency c ⟨1, .days⟩
  | given {s : String} {f : Frequency} (hvalue : Says c frequencyKey (some s))
      (hreads : Frequency.ofText s = .ok f) : HasFrequency c f

/-- The cost rate of a configuration. -/
inductive HasCostRate (c : Config) : Float → Prop
  | absent (hvalue : c.number? costRateKey = .ok none) : HasCostRate c 0.0
  | given {x : Float} (hvalue : c.number? costRateKey = .ok (some x)) (hfinite : x.isFinite = true)
      (hleast : 0.0 ≤ x) : HasCostRate c x

/-- The log level of a configuration. -/
inductive HasLogLevel (c : Config) : String → Prop
  | unnamed (hvalue : Says c logLevelKey none) : HasLogLevel c "info"
  | given {s : String} (hvalue : Says c logLevelKey (some s)) : HasLogLevel c s

/-- The settings of a configuration: for every field what its key says, or else the default. -/
structure Configured (c : Config) (s : Settings) : Prop where
  source : HasSource c s.source
  instrument : Says c instrumentKey (some s.instrument)
  limit : HasLimit c s.limit
  frequency : HasFrequency c s.frequency
  costRate : HasCostRate c s.costRate
  logLevel : HasLogLevel c s.logLevel

/-! ## What can be wrong with a configuration -/

/-- The checks of a configuration. -/
inductive Check
  | source
  | folder
  | instrument
  | limit
  | frequency
  | costRate
  deriving DecidableEq

/-- The key that a check looks at. -/
def Check.key : Check → ConfigKey
  | .source => sourceKey
  | .folder => folderKey
  | .instrument => instrumentKey
  | .limit => limitKey
  | .frequency => frequencyKey
  | .costRate => costRateKey

/-- The checks in their order. -/
def checks : List Check := [.source, .folder, .instrument, .limit, .frequency, .costRate]

/-- What is wrong with the value of a key. -/
inductive Refuses (c : Config) : Check → Failure → Prop
  | unknownSource {s : String} (hsource : Says c sourceKey (some s))
      (hsynthetic : Text.lowercase s ≠ "synthetic") (hcsv : Text.lowercase s ≠ "csv") :
      Refuses c .source (.configInvalid sourceKey
        ("unknown source '" ++ Text.lowercase s ++ "', expected synthetic or csv"))
  /-- A folder is only wanted where the source is one of files. -/
  | noFolder {s : String} (hsource : Says c sourceKey (some s))
      (hname : Text.lowercase s = "csv") (hfolder : Says c folderKey none) :
      Refuses c .folder (.configMissing folderKey)
  | noInstrument (hvalue : Says c instrumentKey none) :
      Refuses c .instrument (.configMissing instrumentKey)
  | notWhole {reason : String} (hvalue : c.whole? limitKey = .error reason) :
      Refuses c .limit (.configInvalid limitKey reason)
  | lowLimit {n : Int} (hvalue : c.whole? limitKey = .ok (some n)) (hlow : n < 2) :
      Refuses c .limit (.configInvalid limitKey "limit must be at least 2")
  | notFrequency {s : String} {fault : FrequencyFault} (hvalue : Says c frequencyKey (some s))
      (hreads : Frequency.ofText s = .error fault) :
      Refuses c .frequency (.configInvalid frequencyKey fault.message)
  | notNumber {reason : String} (hvalue : c.number? costRateKey = .error reason) :
      Refuses c .costRate (.configInvalid costRateKey reason)
  | badCostRate {x : Float} (hvalue : c.number? costRateKey = .ok (some x))
      (hbad : ¬ (x.isFinite = true ∧ 0.0 ≤ x)) :
      Refuses c .costRate
        (.configInvalid costRateKey "cost_rate must be a non-negative number")

/-! ## Single keys -/

theorem says_iff {said : Option String} : Says c k said ↔ Text.trimmed? (c.text? k) = said := by
  constructor
  · rintro (hvalue | ⟨hvalue, hblank⟩ | ⟨hvalue, hblank⟩)
    · rw [hvalue]
      rfl
    · rw [hvalue, Text.trimmed?, Option.map_some, hblank]
      rfl
    · rw [hvalue, Text.trimmed?, Option.map_some]
      split
      · next hempty => exact absurd (Option.some.inj hempty) hblank
      · rfl
  · rintro rfl
    rcases hvalue : c.text? k with _ | s
    · exact .absent hvalue
    · rw [Text.trimmed?, Option.map_some]
      split
      · next hempty => exact .blank hvalue (Option.some.inj hempty)
      · next hne => exact .text hvalue fun hempty => hne (congrArg some hempty)

/-- A key says one thing only. -/
theorem Says.unique {said said' : Option String} (h : Says c k said) (h' : Says c k said') :
    said = said' :=
  (says_iff.mp h).symm.trans (says_iff.mp h')

/-- Only one thing can be wrong with a key. -/
theorem Refuses.unique {check : Check} {failure failure' : Failure} (h : Refuses c check failure)
    (h' : Refuses c check failure') : failure = failure' := by
  cases h with
  | unknownSource hsource =>
    cases h' with
    | unknownSource hsource' => rw [Option.some.inj (hsource.unique hsource')]
  | noFolder => cases h'; rfl
  | noInstrument => cases h'; rfl
  | notWhole hvalue =>
    cases h' with
    | notWhole hvalue' => rw [Except.error.inj (hvalue.symm.trans hvalue')]
    | lowLimit hvalue' => cases hvalue.symm.trans hvalue'
  | lowLimit hvalue =>
    cases h' with
    | notWhole hvalue' => cases hvalue.symm.trans hvalue'
    | lowLimit => rfl
  | notFrequency hvalue hreads =>
    cases h' with
    | notFrequency hvalue' hreads' =>
      cases hvalue.unique hvalue'
      rw [Except.error.inj (hreads.symm.trans hreads')]
  | notNumber hvalue =>
    cases h' with
    | notNumber hvalue' => rw [Except.error.inj (hvalue.symm.trans hvalue')]
    | badCostRate hvalue' => cases hvalue.symm.trans hvalue'
  | badCostRate hvalue =>
    cases h' with
    | notNumber hvalue' => cases hvalue.symm.trans hvalue'
    | badCostRate => rfl

/-! ## Exclusion -/

variable {α : Type}

/-- What a configuration has is one thing, and it has nothing where a check fails. -/
structure Exclusive (c : Config) (checks : List Check) (has : α → Prop) : Prop where
  unique : ∀ {x y : α}, has x → has y → x = y
  clean : ∀ {x : α}, has x → Clean (Refuses c) checks

theorem exclusive_source : Exclusive c [.source, .folder] (HasSource c) where
  unique h h' := by
    cases h with
    | unnamed hsaid =>
      cases h' with
      | unnamed | synthetic => rfl
      | archive hsaid' => cases hsaid.unique hsaid'
    | synthetic hsaid hname =>
      cases h' with
      | unnamed | synthetic => rfl
      | archive hsaid' hname' =>
        cases hsaid.unique hsaid'
        exact absurd (hname.symm.trans hname') (by decide)
    | archive hsaid hname hfolder =>
      cases h' with
      | unnamed hsaid' => cases hsaid.unique hsaid'
      | synthetic hsaid' hname' =>
        cases hsaid.unique hsaid'
        exact absurd (hname.symm.trans hname') (by decide)
      | archive _ _ hfolder' =>
        cases hfolder.unique hfolder'
        rfl
  clean h := by
    refine .cons (fun _ hrefuses => ?_) (.cons (fun _ hrefuses => ?_) .nil)
    · cases hrefuses with
      | unknownSource hsaid' hsynthetic hcsv =>
        cases h with
        | unnamed hsaid => cases hsaid.unique hsaid'
        | synthetic hsaid hname =>
          cases hsaid.unique hsaid'
          exact hsynthetic hname
        | archive hsaid hname =>
          cases hsaid.unique hsaid'
          exact hcsv hname
    · cases hrefuses with
      | noFolder hsaid' hname' hfolder' =>
        cases h with
        | unnamed hsaid => cases hsaid.unique hsaid'
        | synthetic hsaid hname =>
          cases hsaid.unique hsaid'
          exact absurd (hname.symm.trans hname') (by decide)
        | archive _ _ hfolder => cases hfolder.unique hfolder'

theorem exclusive_instrument :
    Exclusive c [.instrument] (fun s => Says c instrumentKey (some s)) where
  unique h h' := Option.some.inj (h.unique h')
  clean h := by
    refine clean_singleton_iff.mpr fun _ hrefuses => ?_
    cases hrefuses with
    | noInstrument hnone => cases h.unique hnone

theorem exclusive_limit : Exclusive c [.limit] (HasLimit c) where
  unique h h' := by
    cases h with
    | absent hvalue =>
      cases h' with
      | absent => rfl
      | given hvalue' => cases hvalue.symm.trans hvalue'
    | given hvalue =>
      cases h' with
      | absent hvalue' => cases hvalue.symm.trans hvalue'
      | given hvalue' =>
        cases hvalue.symm.trans hvalue'
        rfl
  clean h := by
    refine clean_singleton_iff.mpr fun _ hrefuses => ?_
    cases hrefuses with
    | notWhole hvalue' =>
      cases h with
      | absent hvalue | given hvalue => cases hvalue.symm.trans hvalue'
    | lowLimit hvalue' hlow =>
      cases h with
      | absent hvalue => cases hvalue.symm.trans hvalue'
      | given hvalue hleast =>
        cases hvalue.symm.trans hvalue'
        exact Int.not_lt.mpr hleast hlow

theorem exclusive_frequency : Exclusive c [.frequency] (HasFrequency c) where
  unique h h' := by
    cases h with
    | unnamed hsaid =>
      cases h' with
      | unnamed => rfl
      | given hsaid' => cases hsaid.unique hsaid'
    | given hsaid hreads =>
      cases h' with
      | unnamed hsaid' => cases hsaid.unique hsaid'
      | given hsaid' hreads' =>
        cases hsaid.unique hsaid'
        exact Except.ok.inj (hreads.symm.trans hreads')
  clean h := by
    refine clean_singleton_iff.mpr fun _ hrefuses => ?_
    cases hrefuses with
    | notFrequency hsaid' hreads' =>
      cases h with
      | unnamed hsaid => cases hsaid.unique hsaid'
      | given hsaid hreads =>
        cases hsaid.unique hsaid'
        cases hreads.symm.trans hreads'

theorem exclusive_costRate : Exclusive c [.costRate] (HasCostRate c) where
  unique h h' := by
    cases h with
    | absent hvalue =>
      cases h' with
      | absent => rfl
      | given hvalue' => cases hvalue.symm.trans hvalue'
    | given hvalue =>
      cases h' with
      | absent hvalue' => cases hvalue.symm.trans hvalue'
      | given hvalue' => exact Option.some.inj (Except.ok.inj (hvalue.symm.trans hvalue'))
  clean h := by
    refine clean_singleton_iff.mpr fun _ hrefuses => ?_
    cases hrefuses with
    | notNumber hvalue' =>
      cases h with
      | absent hvalue | given hvalue => cases hvalue.symm.trans hvalue'
    | badCostRate hvalue' hbad =>
      cases h with
      | absent hvalue => cases hvalue.symm.trans hvalue'
      | given hvalue hfinite hleast =>
        cases hvalue.symm.trans hvalue'
        exact hbad ⟨hfinite, hleast⟩

/-! ## Answers -/

/-- An answer is right about some checks: it is the first failure among them, or if there is none what
the configuration has. -/
structure Decides (c : Config) (checks : List Check) (has : α → Prop) (answer : Except Failure α) :
    Prop where
  fits : Fits (Refuses c) checks answer
  ok_iff : ∀ x, answer = .ok x ↔ has x

namespace Exclusive

variable {checks : List Check} {has : α → Prop}

theorem ok (h : Exclusive c checks has) {x : α} (hx : has x) : Decides c checks has (.ok x) := by
  refine ⟨h.clean hx, fun y => ⟨fun hy => ?_, fun hy => ?_⟩⟩
  · rwa [← Except.ok.inj hy]
  · rw [h.unique hx hy]

theorem error (h : Exclusive c checks has) {failure : Failure}
    (hfirst : First (Refuses c) checks failure) : Decides c checks has (.error failure) :=
  ⟨hfirst, fun _ => iff_of_false nofun fun hx => hfirst.not_clean (h.clean hx)⟩

end Exclusive

theorem decides_sourceOf : Decides c [.source, .folder] (HasSource c) (sourceOf c) := by
  obtain ⟨said, hsaid⟩ : ∃ said, Says c sourceKey said := ⟨_, says_iff.mpr rfl⟩
  unfold sourceOf
  rw [says_iff.mp hsaid]
  rcases said with _ | s
  · have hdefault : Text.lowercase "synthetic" = "synthetic" := by decide
    rw [Option.getD_none, hdefault]
    exact exclusive_source.ok (.unnamed hsaid)
  · rw [Option.getD_some]
    split
    · next hname => exact exclusive_source.ok (.synthetic hsaid hname)
    · next hname =>
      split
      · next folder hfolder =>
        exact exclusive_source.ok (.archive hsaid hname (says_iff.mpr hfolder))
      · next hfolder =>
        have hsource : ∀ failure, ¬ Refuses c .source failure := by
          intro failure hrefuses
          cases hrefuses with
          | unknownSource hsaid' _ hcsv =>
            cases hsaid.unique hsaid'
            exact hcsv hname
        have hfirst := First.here (Refuses.noFolder hsaid hname (says_iff.mpr hfolder)) []
        exact exclusive_source.error (hfirst.behind (.cons hsource .nil))
    · next hsynthetic hcsv =>
      exact exclusive_source.error (First.here (.unknownSource hsaid hsynthetic hcsv) _)

theorem decides_instrumentOf :
    Decides c [.instrument] (fun s => Says c instrumentKey (some s)) (instrumentOf c) := by
  unfold instrumentOf
  split
  · next s hvalue => exact exclusive_instrument.ok (says_iff.mpr hvalue)
  · next hvalue =>
    exact exclusive_instrument.error (First.here (.noInstrument (says_iff.mpr hvalue)) _)

theorem decides_limitOf : Decides c [.limit] (HasLimit c) (limitOf c) := by
  unfold limitOf
  split
  · next reason hvalue => exact exclusive_limit.error (First.here (.notWhole hvalue) _)
  · next hvalue => exact exclusive_limit.ok (.absent hvalue)
  · next n hvalue =>
    split
    · next hleast => exact exclusive_limit.ok (.given hvalue hleast)
    · next hlow =>
      exact exclusive_limit.error (First.here (.lowLimit hvalue (Int.not_le.mp hlow)) _)

theorem decides_frequencyOf : Decides c [.frequency] (HasFrequency c) (frequencyOf c) := by
  unfold frequencyOf
  split
  · next hvalue => exact exclusive_frequency.ok (.unnamed (says_iff.mpr hvalue))
  · next s hvalue =>
    have hsaid := says_iff.mpr hvalue
    split
    · next fault hreads =>
      exact exclusive_frequency.error (First.here (.notFrequency hsaid hreads) _)
    · next f hreads => exact exclusive_frequency.ok (.given hsaid hreads)

theorem decides_costRateOf : Decides c [.costRate] (HasCostRate c) (costRateOf c) := by
  unfold costRateOf
  split
  · next reason hvalue => exact exclusive_costRate.error (First.here (.notNumber hvalue) _)
  · next hvalue => exact exclusive_costRate.ok (.absent hvalue)
  · next x hvalue =>
    have hgood : (x.isFinite && decide (x >= 0.0)) = true ↔ x.isFinite = true ∧ 0.0 ≤ x := by
      rw [Bool.and_eq_true, decide_eq_true_iff]
    split
    · next hx =>
      obtain ⟨hfinite, hleast⟩ := hgood.mp hx
      exact exclusive_costRate.ok (.given hvalue hfinite hleast)
    · next hx =>
      have hbad : ¬ (x.isFinite = true ∧ 0.0 ≤ x) := fun h => hx (hgood.mpr h)
      exact exclusive_costRate.error (First.here (.badCostRate hvalue hbad) _)

/-- The log level is whatever a configuration says. -/
theorem logLevelOf_eq_iff {level : String} : logLevelOf c = level ↔ HasLogLevel c level := by
  obtain ⟨said, hsaid⟩ : ∃ said, Says c logLevelKey said := ⟨_, says_iff.mpr rfl⟩
  rw [logLevelOf, says_iff.mp hsaid]
  constructor
  · rintro rfl
    rcases said with _ | s
    · exact .unnamed hsaid
    · exact .given hsaid
  · rintro (hsaid' | hsaid') <;> cases hsaid.unique hsaid' <;> rfl

/-! ## Whole configurations -/

theorem decides_ofConfig : Decides c checks (Configured c) (ofConfig c) where
  fits :=
    decides_sourceOf.fits.bind fun source _ => decides_instrumentOf.fits.bind fun instrument _ =>
      decides_limitOf.fits.bind fun limit _ => decides_frequencyOf.fits.bind fun frequency _ =>
        decides_costRateOf.fits.bind fun costRate _ => Clean.nil
  ok_iff s := by
    simp only [ofConfig, bind_eq_ok_iff, decides_sourceOf.ok_iff, decides_instrumentOf.ok_iff,
      decides_limitOf.ok_iff, decides_frequencyOf.ok_iff, decides_costRateOf.ok_iff]
    constructor
    · rintro ⟨source, hsource, instrument, hinstrument, limit, hlimit, frequency, hfrequency,
        costRate, hcostRate, hs⟩
      cases hs
      exact ⟨hsource, hinstrument, hlimit, hfrequency, hcostRate, logLevelOf_eq_iff.mp rfl⟩
    · intro h
      refine ⟨_, h.source, _, h.instrument, _, h.limit, _, h.frequency, _, h.costRate, ?_⟩
      rw [logLevelOf_eq_iff.mpr h.logLevel]
      rfl

/-- The key that a failure of a configuration names. -/
def failedKey? : Failure → Option ConfigKey
  | .configMissing key | .configInvalid key _ => some key
  | _ => none

/-- A failure of a check names the key that it looks at. -/
theorem Refuses.failedKey?_eq {check : Check} {failure : Failure} (h : Refuses c check failure) :
    failedKey? failure = some check.key := by
  cases h <;> rfl

/-- **A configuration is accepted exactly if every key is valid**, and the settings are then what the
keys say, with the defaults for those that say nothing. **Otherwise the first key at fault is
reported**, whatever the later ones hold. -/
theorem ofConfig_exact (c : Config) :
    (∀ s, ofConfig c = .ok s ↔ Configured c s) ∧
      ((∃ s, ofConfig c = .ok s) ↔
        (∃ source, HasSource c source) ∧ (∃ instrument, Says c instrumentKey (some instrument)) ∧
          (∃ limit, HasLimit c limit) ∧ (∃ frequency, HasFrequency c frequency) ∧
            ∃ costRate, HasCostRate c costRate) ∧
      (∀ failure, ofConfig c = .error failure ↔ First (Refuses c) checks failure) ∧
      ∀ check failure, Refuses c check failure → failedKey? failure = some check.key := by
  have hdecides := decides_ofConfig (c := c)
  refine ⟨hdecides.ok_iff, ⟨?_, ?_⟩, fun failure => ?_, fun _ _ => Refuses.failedKey?_eq⟩
  · rintro ⟨s, hs⟩
    obtain ⟨hsource, hinstrument, hlimit, hfrequency, hcostRate, -⟩ := (hdecides.ok_iff s).mp hs
    exact ⟨⟨_, hsource⟩, ⟨_, hinstrument⟩, ⟨_, hlimit⟩, ⟨_, hfrequency⟩, _, hcostRate⟩
  · rintro ⟨⟨source, hsource⟩, ⟨instrument, hinstrument⟩, ⟨limit, hlimit⟩, ⟨frequency, hfrequency⟩,
      costRate, hcostRate⟩
    exact ⟨⟨source, instrument, limit, frequency, costRate, logLevelOf c⟩,
      (hdecides.ok_iff _).mpr
        ⟨hsource, hinstrument, hlimit, hfrequency, hcostRate, logLevelOf_eq_iff.mp rfl⟩⟩
  · exact hdecides.fits.error_iff fun _ _ _ => Refuses.unique

/-- A source that is written with blanks and capitals, a blank instrument, and faults behind it. -/
theorem ofConfig_exact_blankInstrument :
    let c : Config :=
      ⟨fun k => if k.name = "source" then some " CSV " else if k.name = "data_dir" then some "data"
          else if k.name = "instrument" then some "  " else none,
        fun _ => .error "no number", fun _ => .error "no number"⟩
    Refuses c .limit (.configInvalid limitKey "no number") ∧
      First (Refuses c) checks (.configMissing instrumentKey) := by
  intro c
  have hfault : ofConfig c = .error (.configMissing instrumentKey) := by cbv
  exact ⟨.notWhole rfl, ((ofConfig_exact c).2.2.1 _).mp hfault⟩

end SignalLab.Settings
