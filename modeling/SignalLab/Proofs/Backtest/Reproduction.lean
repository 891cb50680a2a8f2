import SignalLab.Market.History
import SignalLab.Proofs.Backtest.Bounds

/-!
# Reported positions reproduce a backtest

A backtest is decided by its prices, by the positions that the signal asks for over them, and by the
cost rate that is charged (`run_congr`). It knows nothing else of the market, nor of the signal. The
positions that it reports ask for themselves, and a cost rate that is charged is charged again, so
that the report of a backtest leads to the same backtest, to the last bit (`run_reproduced`).
-/

namespace SignalLab

/-! ## Reading a recorded list -/

/-- The latest numbers of a signal, recorded, are read where they come from. -/
theorem Series.ofArray_latest {α : Type} [Number α] (x : Series α) (f : α → α) {n t : ℕ}
    (h : t < n) :
    Series.ofArray ((x.latest n).map f).toArray (Offset.ofNat t) = f (x (Offset.ofNat t)) := by
  -- an offset beyond the greatest one is the greatest one, and its sample is recorded as well
  have hsize : ((x.latest n).map f).toArray.size = n := by simp [latest]
  have hle : (Offset.ofNat t).toNat ≤ t := Nat.min_le_left _ _
  have hoffset : Offset.ofNat (Offset.ofNat t).toNat = Offset.ofNat t :=
    Offset.ext_toNat (by simp)
  have hindex : n - 1 - (n - 1 - (Offset.ofNat t).toNat) = (Offset.ofNat t).toNat := by omega
  rw [Series.ofArray, dif_pos (by omega)]
  simp only [hsize]
  simp only [latest_eq_map, List.map_map, List.getElem_toArray, List.getElem_map,
    List.getElem_range, Function.comp, hindex, hoffset]

namespace Backtest

open Floating

variable {α : Type} [Number α]

/-! ## What decides a backtest -/

/-- **The positions and the charged cost rate decide a backtest** over given prices. -/
theorem run_congr {prices : List α} {x y : Series α} {rate rate' : α}
    (hpositions : ∀ t < prices.length,
      position (x (Offset.ofNat t)) = position (y (Offset.ofNat t)))
    (hcost : effectiveCost rate = effectiveCost rate') :
    run prices x rate = run prices y rate' := by
  have hlatest : (x.latest prices.length).map position =
      (y.latest prices.length).map position := by
    simp only [Series.latest, List.map_map]
    refine List.map_congr_left fun t ht => hpositions t ?_
    simpa using ht
  rw [run, run, hlatest, hcost]

/-- A rate that is negative or not finite costs what a rate of zero does. -/
theorem effectiveCost_charged (rate : Float) :
    effectiveCost (if rate.isFinite = true ∧ ¬ rate < 0 then rate else 0) = effectiveCost rate := by
  split_ifs with h
  · rfl
  · have hnot : ¬ (Number.isFinite rate && Number.lt Number.zero rate) = true := by
      rw [Bool.and_eq_true, lt_eq_true_iff]
      exact fun ⟨hfinite, hpositive⟩ =>
        h ⟨hfinite, fun hnegative => lt_irrefl rate (lt_trans hnegative hpositive)⟩
    rw [effectiveCost, effectiveCost, if_neg hnot]
    decide

/-- A position asks for itself. -/
theorem position_position (x : Float) : position (position x) = position x := by
  obtain ⟨hfinite, hlow, hhigh⟩ := position_bounds x
  generalize position x = p at *
  rw [position, isFinite_eq, if_pos hfinite, Number.confine, if_neg, if_neg]
  · rw [lt_eq_true_iff]
    exact not_lt_of_le hhigh
  · rw [lt_eq_true_iff]
    exact not_lt_of_le hlow

/-! ## Backtests over a market -/

/-- **The report of a backtest leads to the same backtest.** Its positions, read as a signal, and its
cost rate, with zero in the place of a negative one and of one that is not finite, give the same
equity, positions and figures. So do any other market with the same prices, any other signal that asks
for the same positions over them, and any other rate at the same charge. -/
theorem run_reproduced (h : History) (output : Signal) (rate : Float) :
    let b := run h.prices output rate
    let charged := if rate.isFinite = true ∧ ¬ rate < 0 then rate else 0
    run h.prices (Series.ofArray b.positions.toArray) charged = b ∧
    ∀ (other : History) (output' : Signal) (rate' : Float),
      other.column Sample.price = h.column Sample.price →
      (∀ t < h.prices.length,
        position (output' (Offset.ofNat t)) = position (output (Offset.ofNat t))) →
      effectiveCost rate' = effectiveCost rate →
      run other.prices output' rate' = b := by
  intro b charged
  refine ⟨run_congr (fun t ht => ?_) (effectiveCost_charged rate), ?_⟩
  · have hread : Series.ofArray b.positions.toArray (Offset.ofNat t) =
        position (output (Offset.ofNat t)) := Series.ofArray_latest output position ht
    rw [hread, position_position]
  · intro other output' rate' hcolumn hpositions hcost
    have hprices : other.prices = h.prices := congrArg Array.toList hcolumn
    rw [hprices]
    exact run_congr hpositions hcost

/-- A market with other volumes, a signal that asks for no more than its limits and goes on before the
market does, and a negative rate in the place of one that is not a number. -/
theorem run_reproduced_otherMarket :
    let h : History := ⟨#[⟨100, 1, 1, 1, 1, 1⟩, ⟨110, 2, 1, 1, 1, 1⟩, ⟨0, 3, 1, 1, 1, 1⟩]⟩
    let other : History := ⟨#[⟨100, 7, 2, 2, 2, 2⟩, ⟨110, 8, 2, 2, 2, 2⟩, ⟨0, 9, 2, 2, 2, 2⟩]⟩
    let output : Signal := Series.ofArray #[5, missingFloat, -3]
    let output' : Signal := Series.ofArray #[9, 1, 0, -1]
    let b := run h.prices output missingFloat
    other.column Sample.price = h.column Sample.price ∧
      (∀ t < h.prices.length,
        position (output' (Offset.ofNat t)) = position (output (Offset.ofNat t))) ∧
      effectiveCost (-1) = effectiveCost missingFloat ∧ b.positions = [1, 0, -1] ∧
      run h.prices (Series.ofArray #[1, 0, -1]) 0 = b ∧ run other.prices output' (-1) = b := by
  intro h other output output' b
  have hcolumn : other.column Sample.price = h.column Sample.price := by decide +kernel
  have hasked : ∀ t < h.prices.length,
      position (output' (Offset.ofNat t)) = position (output (Offset.ofNat t)) := by
    decide +kernel
  have hcost : effectiveCost (-1) = effectiveCost missingFloat := by decide +kernel
  have hpositions : b.positions = [1, 0, -1] := by decide +kernel
  obtain ⟨hagain, hothers⟩ := run_reproduced h output missingFloat
  have hcharged : (if missingFloat.isFinite = true ∧ ¬ missingFloat < 0 then missingFloat else 0) =
      (0 : Float) := by decide
  rw [hpositions, hcharged] at hagain
  exact ⟨hcolumn, hasked, hcost, hpositions, hagain, hothers other output' (-1) hcolumn hasked hcost⟩

end Backtest

end SignalLab
