import SignalLab.Proofs.Market.Frequency
import SignalLab.Proofs.Settings.Acceptance
import SignalLab.Proofs.Text.Trimming

/-!
# What holds of all settings

Whatever a configuration says, the settings that come of it ask for at least two samples, have a
frequency that steps, charge a cost rate that is a number and not negative, and name an instrument
without blanks around it.
-/

namespace SignalLab

/-- A frequency that has been read steps by one unit or more. -/
theorem Frequency.one_le_of_ofText {s : String} {f : Frequency} (h : ofText s = .ok f) :
    1 ≤ f.amount.toNat := by
  obtain ⟨digits, hwritten⟩ := ofText_eq_ok_iff.mp h
  exact hwritten.positive

/-- An instrument that can be asked for: not blank, and with no blanks around it. -/
structure IsInstrument (instrument : String) : Prop where
  nonempty : instrument ≠ ""
  solid : Text.IsSolid instrument.toList

namespace Settings

/-- Settings that a run can be made with, as far as numbers go. -/
structure Sound (s : Settings) : Prop where
  limit : 2 ≤ s.limit
  amount : 1 ≤ s.frequency.amount.toNat
  finite : s.costRate.isFinite = true
  nonneg : 0.0 ≤ s.costRate

variable {c : Config} {s : Settings}

theorem HasLimit.two_le {n : Nat} (h : HasLimit c n) : 2 ≤ n := by
  cases h with
  | absent => decide
  | given _ hleast => omega

theorem HasFrequency.one_le {f : Frequency} (h : HasFrequency c f) : 1 ≤ f.amount.toNat := by
  cases h with
  | unnamed => decide
  | given _ hreads => exact Frequency.one_le_of_ofText hreads

theorem HasCostRate.finite_and_nonneg {x : Float} (h : HasCostRate c x) :
    x.isFinite = true ∧ 0.0 ≤ x := by
  cases h with
  | absent => exact ⟨by decide +kernel, by decide +kernel⟩
  | given _ hfinite hleast => exact ⟨hfinite, hleast⟩

/-- The settings of a configuration are sound, the defaults among them. -/
theorem Configured.sound (h : Configured c s) : s.Sound :=
  ⟨h.limit.two_le, h.frequency.one_le, h.costRate.finite_and_nonneg.1,
    h.costRate.finite_and_nonneg.2⟩

/-- What a key says is never blank at an end. -/
theorem Says.isInstrument {k : ConfigKey} {said : String} (h : Says c k (some said)) :
    IsInstrument said := by
  cases h with
  | text _ hblank =>
    refine ⟨hblank, ?_⟩
    rw [Text.trim, String.toList_ofList]
    exact Text.isSolid_trimChars _

end Settings

end SignalLab
