import SignalLab.Series.Window

/-!
# What a window reads

An aggregate over a window of length `k` reads the `k` samples of the window and nothing else
(`Window.Local`). Two series that agree on two windows, sample by sample from the newest to the
oldest, therefore have the same aggregate there, also where one of the windows reaches past the
greatest offset.

The length of a window is the least length or at most `maxWindow`, whatever number it is made from.
-/

namespace SignalLab

/-! ## Window lengths -/

theorem le_windowLength (n : Float) (least : Nat) : least ≤ windowLength n least := by
  unfold windowLength
  split
  · exact Nat.le_max_left _ _
  · exact Nat.le_refl least

theorem windowLength_le {least : Nat} (h : least ≤ maxWindow) (n : Float) :
    windowLength n least ≤ maxWindow := by
  unfold windowLength
  split
  · exact Nat.max_le.mpr ⟨h, Nat.min_le_right _ _⟩
  · exact h

/-! ## Agreement -/

variable {α β : Type}

/-- Two series agree at two offsets and on the `k` samples behind them. -/
def Series.AgreeBehind (k : Nat) (x : Series α) (s : Offset) (y : Series α) (t : Offset) : Prop :=
  ∀ j ≤ k, x (s.back j) = y (t.back j)

namespace Series.AgreeBehind

variable {x y : Series α} {s t : Offset} {k : Nat}

theorem here (h : AgreeBehind k x s y t) : x s = y t := by
  have := h 0 (Nat.zero_le k)
  rwa [Offset.back_zero, Offset.back_zero] at this

theorem mono (h : AgreeBehind k x s y t) {j : Nat} (hj : j ≤ k) : AgreeBehind j x s y t :=
  fun i hi => h i (Nat.le_trans hi hj)

/-- Agreement at one pair of offsets only. -/
theorem of_eq (h : x s = y t) : AgreeBehind 0 x s y t := by
  intro j hj
  rw [Nat.le_zero.mp hj, Offset.back_zero, Offset.back_zero]
  exact h

end Series.AgreeBehind

namespace Window

/-- An aggregate reads only the samples of its window. A window holds at least one sample. -/
def Local (aggregate : Series α → Offset → Nat → β) : Prop :=
  ∀ ⦃k : Nat⦄ ⦃x y : Series α⦄ ⦃s t : Offset⦄,
    Series.AgreeBehind k x s y t → aggregate x s (k + 1) = aggregate y t (k + 1)

/-! ## Folds -/

/-- The samples behind the newest one are those of a window that begins one sample further back. -/
theorem agree_behind_newest {x y : Series α} {s t : Offset} {k : Nat}
    (h : ∀ j < k + 1, x (s.back j) = y (t.back j)) :
    ∀ j < k, x ((s.back 1).back j) = y ((t.back 1).back j) := by
  intro j hj
  rw [Offset.back_back, Offset.back_back]
  exact h (1 + j) (by omega)

variable [Number α]

/-- The samples of a window decide the fold over it. -/
theorem foldFinite_congr (step : β → α → β) (x y : Series α) (k : Nat) (s t : Offset) (acc : β)
    (h : ∀ j < k, x (s.back j) = y (t.back j)) :
    foldFinite step x k s acc = foldFinite step y k t acc := by
  induction k generalizing s t acc with
  | zero => rfl
  | succ k ih =>
    have hnewest : x s = y t := by
      have := h 0 (Nat.succ_pos k)
      rwa [Offset.back_zero, Offset.back_zero] at this
    -- both folds stop at the newest sample, or go on with the window behind it
    rw [foldFinite, foldFinite, hnewest, ih (s.back 1) (t.back 1) _ (agree_behind_newest h)]

/-- The samples of a window decide the fold over it from its oldest sample. -/
theorem foldFiniteOldest_congr (step : β → α → β) (x y : Series α) (k : Nat) (s t : Offset)
    (acc : β) (h : ∀ j < k, x (s.back j) = y (t.back j)) :
    foldFiniteOldest step x s k acc = foldFiniteOldest step y t k acc := by
  induction k generalizing acc with
  | zero => rfl
  | succ k ih =>
    have holdest : x (s.back k) = y (t.back k) := h k (Nat.lt_succ_self k)
    rw [foldFiniteOldest, foldFiniteOldest, holdest, ih _ fun j hj => h j (Nat.lt_succ_of_lt hj)]

/-! ## Aggregates -/

theorem local_sum : Local (α := α) sum := by
  intro k x y s t h
  rw [sum, sum, foldFinite_congr _ x y (k + 1) s t _ fun j hj => h j (Nat.le_of_lt_succ hj)]

theorem local_mean : Local (α := α) mean := by
  intro k x y s t h
  rw [mean, mean, local_sum h]

theorem local_spread? : Local (α := α) spread? := by
  intro k x y s t h
  exact foldFinite_congr _ x y (k + 1) s t _ fun j hj => h j (Nat.le_of_lt_succ hj)

theorem local_deviation : Local (α := α) deviation := by
  intro k x y s t h
  rw [deviation, deviation, local_spread? h]

theorem local_score : Local (α := α) score := by
  intro k x y s t h
  rw [score, score, local_spread? h, h.here]

theorem local_extreme (choose : α → α → α) : Local (extreme choose) := by
  intro k x y s t h
  have hwindow : ∀ j < k + 1, x (s.back j) = y (t.back j) := fun j hj => h j (Nat.le_of_lt_succ hj)
  have hrest :=
    foldFinite_congr choose x y k (s.back 1) (t.back 1) (y t) (agree_behind_newest hwindow)
  rw [extreme, extreme, h.here, Nat.add_sub_cancel, hrest]

theorem local_least : Local (α := α) least := local_extreme Number.smaller

theorem local_greatest : Local (α := α) greatest := local_extreme Number.larger

/-- The exponential average starts from the oldest sample of its window, which is the last one that
agreement speaks of. -/
theorem local_exponential : Local (α := α) exponential := by
  intro k x y s t h
  have holdest : x (s.back k) = y (t.back k) := h k (Nat.le_refl k)
  rw [exponential, exponential]
  dsimp only
  rw [Nat.add_sub_cancel, holdest,
    foldFiniteOldest_congr _ x y k s t _ fun j hj => h j (Nat.le_of_lt hj)]

end Window

end SignalLab
