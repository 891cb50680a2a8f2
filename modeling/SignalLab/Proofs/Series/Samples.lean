import SignalLab.Proofs.Series.Window

/-!
# Windows as lists of samples

The folds over a window go from offset to offset and leave early. What they compute is a fold over
the list of the samples, if all of these are finite, and nothing otherwise (`foldFinite_eq`,
`foldFiniteOldest_eq`). An aggregate is decided by that list (`Local.of_samples`), and it is missing
as soon as one of the samples is not finite (`Strict`), wherever in the window that sample stands and
in whichever direction the aggregate reads.
-/

namespace SignalLab.Window

variable {α β : Type}

/-! ## Samples -/

/-- A window as its newest sample and the window behind it. -/
theorem samples_succ (x : Series α) (t : Offset) (k : Nat) :
    samples x t (k + 1) = x t :: samples x (t.back 1) k := by
  rw [samples, samples, List.range_succ_eq_map, List.map_cons, List.map_map, Offset.back_zero]
  congr 1
  refine List.map_congr_left fun i _ => ?_
  rw [Function.comp_apply, Offset.back_back, Nat.add_comm 1 i]

/-- A window as its newer samples and the oldest one. -/
theorem samples_succ_oldest (x : Series α) (t : Offset) (k : Nat) :
    samples x t (k + 1) = samples x t k ++ [x (t.back k)] := by
  rw [samples, List.range_succ, List.map_append, List.map_singleton, samples]

theorem length_samples (x : Series α) (t : Offset) (k : Nat) : (samples x t k).length = k := by
  rw [samples, List.length_map, List.length_range]

theorem mem_samples_iff {x : Series α} {t : Offset} {k : Nat} {v : α} :
    v ∈ samples x t k ↔ ∃ i < k, x (t.back i) = v := by
  simp only [samples, List.mem_map, List.mem_range]

theorem samples_eq_iff {x y : Series α} {s t : Offset} {k : Nat} :
    samples x s k = samples y t k ↔ ∀ i < k, x (s.back i) = y (t.back i) := by
  simp only [samples, List.map_inj_left, List.mem_range]

/-- A local aggregate is decided by the samples of its window. -/
theorem Local.of_samples {aggregate : Series α → Offset → Nat → β} (h : Local aggregate)
    {x y : Series α} {s t : Offset} {k : Nat} (hk : 1 ≤ k) (heq : samples x s k = samples y t k) :
    aggregate x s k = aggregate y t k := by
  obtain ⟨k, rfl⟩ := Nat.exists_eq_add_of_le' hk
  exact h fun i hi => samples_eq_iff.mp heq i (Nat.lt_succ_of_le hi)

/-! ## Folds -/

variable [Number α]

theorem foldFinite_eq (step : β → α → β) (x : Series α) (k : Nat) (t : Offset) (acc : β) :
    foldFinite step x k t acc =
      if (samples x t k).all Number.isFinite then some ((samples x t k).foldl step acc)
      else none := by
  induction k generalizing t acc with
  | zero => rfl
  | succ k ih =>
    rw [samples_succ, foldFinite, ih]
    cases hnewest : Number.isFinite (x t) <;> simp [hnewest]

/-- The samples are listed newest first, so a fold from the oldest one is a fold from the right. -/
theorem foldFiniteOldest_eq (step : β → α → β) (x : Series α) (t : Offset) (k : Nat) (acc : β) :
    foldFiniteOldest step x t k acc =
      if (samples x t k).all Number.isFinite then
        some ((samples x t k).foldr (fun v acc => step acc v) acc)
      else none := by
  induction k generalizing acc with
  | zero => rfl
  | succ k ih =>
    rw [samples_succ_oldest, foldFiniteOldest, ih]
    cases holdest : Number.isFinite (x (t.back k)) <;> simp [holdest]

/-! ## Strict aggregates -/

/-- Some sample of the window is not finite. -/
theorem all_samples_eq_false {x : Series α} {t : Offset} {k : Nat} :
    (samples x t k).all Number.isFinite = false ↔
      ∃ i < k, Number.isFinite (x (t.back i)) = false := by
  simp [samples]

/-- An aggregate is missing where some sample of its window is not finite. -/
def Strict (aggregate : Series α → Offset → Nat → α) : Prop :=
  ∀ ⦃x : Series α⦄ ⦃t : Offset⦄ ⦃k : Nat⦄,
    (samples x t k).all Number.isFinite = false → aggregate x t k = Number.missing

theorem strict_sum : Strict (α := α) sum := by
  intro x t k h
  rw [sum, foldFinite_eq, h]
  rfl

/-- The mean divides what is missing by the count. -/
theorem strict_mean (h : ∀ y : α, Number.missing / y = Number.missing) : Strict (α := α) mean := by
  intro x t k hbad
  rw [mean, strict_sum hbad, h]

theorem spread?_eq_none {x : Series α} {t : Offset} {k : Nat}
    (h : (samples x t k).all Number.isFinite = false) : spread? x t k = none := by
  rw [spread?, foldFinite_eq, h]
  rfl

theorem strict_deviation : Strict (α := α) deviation := by
  intro x t k h
  rw [deviation, spread?_eq_none h]

theorem strict_score : Strict (α := α) score := by
  intro x t k h
  rw [score, spread?_eq_none h]

/-- The newest sample is looked at by itself, and the fold goes over the others. -/
theorem strict_extreme (choose : α → α → α) : Strict (extreme choose) := by
  intro x t k h
  cases k with
  | zero => contradiction
  | succ k =>
    rw [samples_succ, List.all_cons] at h
    rw [extreme]
    split
    · next hnewest =>
      rw [hnewest, Bool.true_and] at h
      rw [Nat.add_sub_cancel, foldFinite_eq, h]
      rfl
    · rfl

theorem strict_least : Strict (α := α) least := strict_extreme Number.smaller

theorem strict_greatest : Strict (α := α) greatest := strict_extreme Number.larger

/-- The oldest sample is looked at by itself, and the fold goes over the others. -/
theorem strict_exponential : Strict (α := α) exponential := by
  intro x t k h
  cases k with
  | zero => contradiction
  | succ k =>
    rw [samples_succ_oldest, List.all_append, List.all_cons, List.all_nil, Bool.and_true] at h
    rw [exponential, Nat.add_sub_cancel]
    split
    · next holdest =>
      rw [holdest, Bool.and_true] at h
      dsimp only
      rw [foldFiniteOldest_eq, h]
      rfl
    · rfl

end SignalLab.Window
