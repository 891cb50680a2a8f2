import SignalLab.Proofs.Number.Canonical
import SignalLab.Proofs.Series.Samples
import SignalLab.Proofs.Series.Welford
import SignalLab.Proofs.Vocabulary.Binding

/-!
# Flat windows do not deviate

One pass over samples that all equal the same finite number knows after each of them that the mean is
this number and that nothing deviates from it (`Welford.Level`). In floating point this is so to the
last bit, for windows of every length, and the score of such a window is the positive zero
(`Vocabulary.operation?_zscore_of_flat`).

Nothing is assumed about the arithmetic. The first sample becomes the mean because it is divided by
one and a zero is added to it; every later one lies at a zero distance from the mean, which stays a
zero when it is divided by a count or multiplied with a finite number. A sum of squares would be
rounded, and its difference from the square of the sum would not vanish.
-/

namespace SignalLab

open Floating

/-! ## One pass -/

namespace Welford

variable {v x : Float} {w : Welford Float}

/-- What is known after samples that equal `v`, up to the sign of a zero: `v` is their mean, and the
sum of the squared distances from it is the positive zero. -/
structure Level (v : Float) (w : Welford Float) : Prop where
  mean : (w.mean == v) = true
  squares : w.squares = 0

/-- The first sample becomes the mean. -/
theorem level_push_empty (hv : v.isFinite = true) (hx : (x == v) = true) :
    Level v (empty.push x) := by
  have hfinite : x.isFinite = true := isFinite_of_beq hx hv
  have hshare : (x - 0) / 1 = x := by rw [Floating.sub_zero, Floating.div_one]
  have hmean : ((empty.push x).mean == x) = true := by
    change (0 + (x - 0) / 1 == x) = true
    rw [hshare, Floating.add_comm]
    exact add_beq (isNaN_of_isFinite hfinite) ⟨.positive, rfl⟩
  refine ⟨PartialEquivBEq.trans hmean hx, ?_⟩
  have hdistance : IsZero (x - (empty.push x).mean) :=
    isZero_sub_of_beq (PartialEquivBEq.symm hmean) (isFinite_of_beq hmean hfinite)
  change empty.squares + (x - 0) * (x - (empty.push x).mean) = 0
  rw [Floating.sub_zero]
  exact squares_add_eq_zero rfl hfinite hdistance

/-- Every later sample lies at a zero distance from the mean, which it does not move. -/
theorem Level.push (h : Level v w) (hv : v.isFinite = true) (hx : (x == v) = true) :
    Level v (w.push x) := by
  have hfinite : w.mean.isFinite = true := isFinite_of_beq h.mean hv
  have hdistance : IsZero (x - w.mean) :=
    isZero_sub_of_beq (PartialEquivBEq.trans hx (PartialEquivBEq.symm h.mean)) hfinite
  have hstays : ((w.push x).mean == w.mean) = true :=
    add_beq (isNaN_of_isFinite hfinite) (hdistance.div_count (Nat.succ_pos w.count))
  have hmean : ((w.push x).mean == v) = true := PartialEquivBEq.trans hstays h.mean
  have hafter : IsZero (x - (w.push x).mean) :=
    isZero_sub_of_beq (PartialEquivBEq.trans hx (PartialEquivBEq.symm hmean))
      (isFinite_of_beq hmean hv)
  exact ⟨hmean, squares_add_eq_zero h.squares hdistance.isFinite hafter⟩

/-- **All along the pass** the mean is `v`, and nothing deviates from it. -/
theorem Level.foldl {xs : List Float} (h : Level v w) (hv : v.isFinite = true)
    (hxs : ∀ x ∈ xs, (x == v) = true) : Level v (xs.foldl Welford.push w) := by
  induction xs generalizing w with
  | nil => exact h
  | cons x xs ih =>
    rw [List.forall_mem_cons] at hxs
    exact ih (h.push hv hxs.1) hxs.2

end Welford

/-! ## Windows -/

namespace Window

variable {x : Signal} {t : Offset} {k : ℕ} {v : Float}

/-- A flat window is all there, and it is level. -/
theorem spread?_of_flat (hk : 1 ≤ k) (hv : v.isFinite = true)
    (hflat : ∀ i < k, (x (t.back i) == v) = true) :
    ∃ w, spread? x t k = some w ∧ w.count = k ∧ w.Level v := by
  have hsamples : ∀ s ∈ samples x t k, (s == v) = true := by
    intro s hs
    obtain ⟨i, hi, rfl⟩ := mem_samples_iff.mp hs
    exact hflat i hi
  have hfinite : (samples x t k).all Number.isFinite = true :=
    List.all_eq_true.mpr fun s hs => isFinite_of_beq (hsamples s hs) hv
  refine ⟨Welford.ofList (samples x t k), ?_, ?_, ?_⟩
  · rw [spread?, foldFinite_eq, if_pos hfinite]
    rfl
  · rw [Welford.count_ofList, length_samples]
  · obtain ⟨k, rfl⟩ := Nat.exists_eq_add_of_le' hk
    rw [samples_succ, List.forall_mem_cons] at hsamples
    rw [samples_succ, Welford.ofList, List.foldl_cons]
    exact (Welford.level_push_empty hv hsamples.1).foldl hv hsamples.2

theorem score_of_flat (hk : 1 ≤ k) (hv : v.isFinite = true)
    (hflat : ∀ i < k, (x (t.back i) == v) = true) : score x t k = 0 := by
  obtain ⟨w, hspread, hcount, hlevel⟩ := spread?_of_flat hk hv hflat
  have hdeviation : w.deviation = 0 := Welford.deviation_eq_zero hlevel.squares (by omega)
  rw [score, hspread]
  dsimp only
  rw [hdeviation]
  exact if_pos rfl

end Window

/-! ## The vocabulary -/

namespace Vocabulary

/-- **The score of a flat window is exactly zero.** If all samples of the window equal one finite
number, up to the sign of a zero, then the score is the positive zero, however long the window is and
whatever asked for its length. -/
theorem operation?_zscore_of_flat (draws : Signal) (markets : List Feeds) (feeds : Feeds) :
    ∃ f : Signal → Signal → Signal,
      ((bound draws markets).bind feeds).operation? "zscore" = some (.binary f) ∧
      ∀ (x n : Signal) (t : Offset) (v : Float), v.isFinite = true →
        (∀ i < windowLength (n t) 1, (x (t.back i) == v) = true) → f x n t = 0 := by
  refine ⟨Rolling.windowed Window.score, ?_, fun x n t v hv hflat => ?_⟩
  · rw [operation?_bind_bound]
    rfl
  · exact Window.score_of_flat (le_windowLength (n t) 1) hv hflat

/-- Three samples of one tenth, which has no end in binary. -/
theorem operation?_zscore_of_tenths :
    ∃ f : Signal → Signal → Signal,
      ((bound (Series.constant 0.0) []).bind Feeds.zeros).operation? "zscore" = some (.binary f) ∧
      (∀ i < windowLength (Series.constant 3 Offset.latest) 1,
        (Series.ofArray #[5, 0.1, 0.1, 0.1] (Offset.latest.back i) == 0.1) = true) ∧
      f (Series.ofArray #[5, 0.1, 0.1, 0.1]) (Series.constant 3) Offset.latest = 0 := by
  obtain ⟨f, hf, hzero⟩ := operation?_zscore_of_flat (Series.constant 0.0) [] Feeds.zeros
  have hflat : ∀ i < windowLength (Series.constant 3 Offset.latest) 1,
      (Series.ofArray #[5, 0.1, 0.1, 0.1] (Offset.latest.back i) == 0.1) = true := by
    decide +kernel
  exact ⟨f, hf, hflat, hzero _ _ _ 0.1 (by decide +kernel) hflat⟩

end Vocabulary

end SignalLab
