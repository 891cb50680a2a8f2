import SignalLab.Proofs.Number.Floating
import SignalLab.Proofs.Series.Samples
import SignalLab.Proofs.Vocabulary.Binding

/-!
# The aggregates of the vocabulary

Seven functions of the rolling group sum up a window, whose length is read anew at every offset. They
read it in different ways: from the newest sample or from the oldest, the first sample apart or with
the others, the newest one twice. All of them keep to the window all the same, and all of them are
missing as soon as one sample of it is not finite (`Vocabulary.operation?_aggregate`).
-/

namespace SignalLab

namespace Rolling

/-- The names of the functions that sum up a window. -/
def aggregateNames : List String :=
  ["sum", "mean", "stdev", "rolling_min", "rolling_max", "ema", "zscore"]

theorem exists_aggregate {name : String} (h : name ∈ aggregateNames) :
    ∃ aggregate : Signal → Offset → ℕ → Float,
      (Vocabulary.functionEntries.lookup name).bind Entry.operation? =
        some (.binary (windowed aggregate)) ∧
      Window.Local aggregate ∧ Window.Strict aggregate := by
  simp only [aggregateNames, List.mem_cons, List.not_mem_nil, or_false] at h
  rcases h with rfl | rfl | rfl | rfl | rfl | rfl | rfl
  · exact ⟨Window.sum, rfl, Window.local_sum, Window.strict_sum⟩
  · exact ⟨Window.mean, rfl, Window.local_mean, Window.strict_mean Floating.missing_div⟩
  · exact ⟨Window.deviation, rfl, Window.local_deviation, Window.strict_deviation⟩
  · exact ⟨Window.least, rfl, Window.local_least, Window.strict_least⟩
  · exact ⟨Window.greatest, rfl, Window.local_greatest, Window.strict_greatest⟩
  · exact ⟨Window.exponential, rfl, Window.local_exponential, Window.strict_exponential⟩
  · exact ⟨Window.score, rfl, Window.local_score, Window.strict_score⟩

variable {aggregate : Signal → Offset → ℕ → Float} {x n : Signal} {t : Offset} {k : ℕ}

/-- The length of the window and its samples decide what is made of it. -/
theorem windowed_congr (h : Window.Local aggregate) (hk : windowLength (n t) 1 = k) {y m : Signal}
    {s : Offset} (hlength : windowLength (m s) 1 = k)
    (hsamples : ∀ i < k, y (s.back i) = x (t.back i)) :
    windowed aggregate y m s = windowed aggregate x n t := by
  have hleast : 1 ≤ k := hk ▸ le_windowLength (n t) 1
  rw [windowed, windowed, hk, hlength]
  exact h.of_samples hleast (Window.samples_eq_iff.mpr hsamples)

theorem isNaN_windowed (h : Window.Strict aggregate) (hk : windowLength (n t) 1 = k)
    (hbad : ∃ i < k, (x (t.back i)).isFinite = false) : (windowed aggregate x n t).isNaN = true := by
  have hmissing : windowed aggregate x n t = missingFloat := by
    rw [windowed, hk]
    exact h (Window.all_samples_eq_false.mpr hbad)
  rw [hmissing]
  exact Floating.isNaN_missing

/-- A window that reaches past the first recorded sample has an oldest sample that is missing. -/
theorem isNaN_windowed_ofArray (h : Window.Strict aggregate) (hk : windowLength (n t) 1 = k)
    {recorded : Array Float} (hpast : recorded.size ≤ (t.back (k - 1)).toNat) :
    (windowed aggregate (Series.ofArray recorded) n t).isNaN = true := by
  have hleast : 1 ≤ k := hk ▸ le_windowLength (n t) 1
  refine isNaN_windowed h hk ⟨k - 1, by omega, ?_⟩
  rw [Series.ofArray, dif_neg hpast.not_gt]
  decide +kernel

/-- A sample outside the window may be any number. -/
theorem windowed_update (h : Window.Local aggregate) (hk : windowLength (n t) 1 = k) {u : Offset}
    (hout : ∀ i < k, t.back i ≠ u) (v : Float) :
    windowed aggregate (Function.update x u v) n t = windowed aggregate x n t :=
  windowed_congr h hk hk fun i hi => Function.update_of_ne (hout i hi) v x

end Rolling

namespace Vocabulary

/-- **The aggregates keep to their windows, and one bad sample spoils them.** A window holds at least
one sample and at most `maxWindow`. Its length and its samples decide the result; if one of them is
not finite, as where the window reaches past the first sample, the result is not a number. -/
theorem operation?_aggregate (draws : Signal) (markets : List Feeds) (feeds : Feeds) {name : String}
    (h : name ∈ Rolling.aggregateNames) :
    ∃ f : Signal → Signal → Signal,
      ((bound draws markets).bind feeds).operation? name = some (.binary f) ∧
      ∀ (x n : Signal) (t : Offset) (k : ℕ), windowLength (n t) 1 = k →
        (1 ≤ k ∧ k ≤ maxWindow) ∧
        (∀ (y m : Signal) (s : Offset), windowLength (m s) 1 = k →
          (∀ i < k, y (s.back i) = x (t.back i)) → f y m s = f x n t) ∧
        ((∃ i < k, (x (t.back i)).isFinite = false) → (f x n t).isNaN = true) ∧
        (∀ recorded : Array Float, recorded.size ≤ (t.back (k - 1)).toNat →
          (f (Series.ofArray recorded) n t).isNaN = true) ∧
        (∀ (u : Offset) (v : Float), (∀ i < k, t.back i ≠ u) →
          f (Function.update x u v) n t = f x n t) := by
  obtain ⟨aggregate, hlookup, hlocal, hstrict⟩ := Rolling.exists_aggregate h
  refine ⟨Rolling.windowed aggregate, ?_, fun x n t k hk => ⟨?bounds, ?samples, ?bad, ?past, ?out⟩⟩
  · rw [operation?_bind_bound]
    exact hlookup
  case bounds => exact hk ▸ ⟨le_windowLength _ _, windowLength_le (by decide) _⟩
  case samples =>
    exact fun y m s hlength hsamples => Rolling.windowed_congr hlocal hk hlength hsamples
  case bad => exact Rolling.isNaN_windowed hstrict hk
  case past => exact fun recorded hpast => Rolling.isNaN_windowed_ofArray hstrict hk hpast
  case out => exact fun u v hout => Rolling.windowed_update hlocal hk hout v

/-- Five samples, the third of them missing. -/
def gapped : Signal := Series.ofArray #[1, 2, missingFloat, 4, 5]

/-- The mean of two samples does not see the sample that is missing, the mean of three is spoiled by
it, and so is the mean of six, which reaches past the first sample. -/
theorem operation?_aggregate_gapped :
    ∃ f, ((bound (Series.constant 0.0) []).bind Feeds.zeros).operation? "mean" = some (.binary f) ∧
      f gapped (Series.constant 2) Offset.latest = 4.5 ∧
      f (Function.update gapped (Offset.ofNat 2) 3) (Series.constant 2) Offset.latest =
        f gapped (Series.constant 2) Offset.latest ∧
      (f gapped (Series.constant 3) Offset.latest).isNaN = true ∧
      (f gapped (Series.constant 6) Offset.latest).isNaN = true := by
  obtain ⟨f, hf, hwindow⟩ :=
    operation?_aggregate (Series.constant 0.0) [] Feeds.zeros
      (by decide : "mean" ∈ Rolling.aggregateNames)
  have hmean : f = Rolling.windowed Window.mean := by
    rw [operation?_bind_bound] at hf
    exact (Operation.binary.inj (Option.some.inj hf)).symm
  obtain ⟨-, -, -, -, htwo⟩ := hwindow gapped (Series.constant 2) Offset.latest 2 (by decide +kernel)
  obtain ⟨-, -, hthree, -⟩ := hwindow gapped (Series.constant 3) Offset.latest 3 (by decide +kernel)
  obtain ⟨-, -, -, hsix, -⟩ := hwindow gapped (Series.constant 6) Offset.latest 6 (by decide +kernel)
  refine ⟨f, hf, ?_, htwo _ _ (by decide), hthree ⟨2, by decide, by decide +kernel⟩,
    hsix _ (by decide)⟩
  rw [hmean]
  decide +kernel

end Vocabulary

end SignalLab
