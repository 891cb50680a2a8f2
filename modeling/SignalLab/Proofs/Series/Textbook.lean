import Mathlib.Algebra.BigOperators.Field
import Mathlib.Algebra.BigOperators.Intervals
import Mathlib.Algebra.Order.Hom.Ring
import Mathlib.Analysis.Convex.Basic
import Mathlib.RingTheory.SimpleRing.Field
import SignalLab.Proofs.Number.Root
import SignalLab.Proofs.Series.Samples
import SignalLab.Proofs.Series.Welford

/-!
# The figures of a window

An aggregate folds the samples of its window one after the other. Calculated exactly, what it arrives
at is the figure that its name promises, told from all samples at once (`aggregates_textbook`): sum,
mean, variance, least and greatest sample, distance from the mean in deviations, and a weighted sum
whose weights fall off by the same share from each sample to the one before it.

## Shape of the argument

Exact numbers are finite, so no fold leaves early, and each is a fold over the list of the samples.
That list begins with the newest one. Sums, means and extremes do not depend on its direction; the
exponential average does. It goes through the list from the right, so the weight of a sample is told by
how many newer ones there are.
-/

namespace SignalLab.Window

theorem setOf_mem_samples {α : Type} (x : Series α) (t : Offset) (k : ℕ) :
    {v | ∃ i < k + 1, x (t.back i) = v} = {v | v ∈ x t :: samples x (t.back 1) k} := by
  ext v
  rw [Set.mem_ofPred_eq, Set.mem_ofPred_eq, ← mem_samples_iff, samples_succ]

/-! ## Definitions -/

variable {α : Type} [ExactNumber α]

/-- The mean of the first `k` of some numbers. -/
def meanOf (s : ℕ → α) (k : ℕ) : α := (∑ i ∈ Finset.range k, s i) / k

/-- The mean squared distance of the first `k` of some numbers from their mean. -/
def varianceOf (s : ℕ → α) (k : ℕ) : α := (∑ i ∈ Finset.range k, (s i - meanOf s k) ^ 2) / k

/-- A sum of the first `k` of some numbers in which each has the share `a` of what those before it
leave, and the last one has all that is left. -/
def decaying (a : α) (s : ℕ → α) (k : ℕ) : α :=
  (∑ i ∈ Finset.range (k - 1), a * (1 - a) ^ i * s i) + (1 - a) ^ (k - 1) * s (k - 1)

theorem varianceOf_nonneg (s : ℕ → α) (k : ℕ) : 0 ≤ varianceOf s k :=
  div_nonneg (Finset.sum_nonneg fun _ _ => sq_nonneg _) (Nat.cast_nonneg k)

theorem decaying_one (a : α) (s : ℕ → α) : decaying a s 1 = s 0 := by
  simp [decaying]

/-- The first number has its share, and the others share the rest in the same way. -/
theorem decaying_succ (a : α) (s : ℕ → α) (k : ℕ) :
    decaying a s (k + 2) = a * s 0 + (1 - a) * decaying a (fun i => s (i + 1)) (k + 1) := by
  have hshift : ∀ i, a * (1 - a) ^ (i + 1) * s (i + 1) =
      (1 - a) * (a * (1 - a) ^ i * s (i + 1)) := by
    intro i
    ring
  rw [decaying, decaying, Nat.add_sub_cancel, show k + 2 - 1 = k + 1 from rfl,
    Finset.sum_range_succ', mul_add, Finset.mul_sum]
  simp only [hshift]
  ring

/-! ## Folds -/

variable {β : Type} (x : Series α) (t : Offset)

theorem foldFinite_exact (step : β → α → β) (k : ℕ) (acc : β) :
    foldFinite step x k t acc = some ((samples x t k).foldl step acc) := by
  have hfinite : (samples x t k).all Number.isFinite = true := List.all_eq_true.mpr fun _ _ => rfl
  rw [foldFinite_eq, if_pos hfinite]

theorem foldFiniteOldest_exact (step : β → α → β) (k : ℕ) (acc : β) :
    foldFiniteOldest step x t k acc =
      some ((samples x t k).foldr (fun v acc => step acc v) acc) := by
  have hfinite : (samples x t k).all Number.isFinite = true := List.all_eq_true.mpr fun _ _ => rfl
  rw [foldFiniteOldest_eq, if_pos hfinite]

/-- A sum over the samples of a window, in the order of the list. -/
theorem sum_map_samples (f : α → α) (k : ℕ) :
    ((samples x t k).map f).sum = ∑ i ∈ Finset.range k, f (x (t.back i)) := by
  rw [samples, List.map_map]
  rfl

theorem sum_samples (k : ℕ) : (samples x t k).sum = ∑ i ∈ Finset.range k, x (t.back i) := rfl

/-! ## Sum, mean and variance -/

theorem sum_exact (k : ℕ) : sum x t k = ∑ i ∈ Finset.range k, x (t.back i) := by
  rw [sum, foldFinite_exact, Option.getD_some, Number.zero_eq, ← List.sum_eq_foldl,
    sum_samples]

theorem mean_exact (k : ℕ) : mean x t k = meanOf (fun i => x (t.back i)) k := by
  rw [mean, sum_exact]
  rfl

theorem spread?_exact (k : ℕ) : spread? x t k = some (Welford.ofList (samples x t k)) :=
  foldFinite_exact x t Welford.push k Welford.empty

theorem mean_ofList_samples (k : ℕ) :
    (Welford.ofList (samples x t k)).mean = meanOf (fun i => x (t.back i)) k := by
  rw [Welford.mean_ofList, length_samples, meanOf, sum_samples]

theorem squares_ofList_samples (k : ℕ) :
    (Welford.ofList (samples x t k)).squares =
      ∑ i ∈ Finset.range k, (x (t.back i) - meanOf (fun i => x (t.back i)) k) ^ 2 := by
  rw [Welford.squares_ofList, mean_ofList_samples,
    sum_map_samples x t fun v => (v - meanOf (fun i => x (t.back i)) k) ^ 2]

/-! ## Deviation and score -/

/-- The deviation is the root of the variance. -/
theorem deviation_exact (k : ℕ) :
    deviation x t k = ExactNumber.root (varianceOf (fun i => x (t.back i)) k) := by
  rw [deviation, spread?_exact]
  dsimp only
  rw [Welford.deviation, squares_ofList_samples, Welford.count_ofList, length_samples]
  rfl

/-- The score is zero if there is no deviation, and else counted in deviations. -/
theorem score_exact (k : ℕ) :
    score x t k = if deviation x t k = 0 then 0
      else (x t - meanOf (fun i => x (t.back i)) k) / deviation x t k := by
  rw [score, deviation, spread?_exact]
  dsimp only
  rw [mean_ofList_samples, Number.zero_eq]
  simp only [Number.eq, decide_eq_true_eq]

/-! ## Extremes -/

theorem isLeast_foldl_min {δ : Type} [LinearOrder δ] (a : δ) (l : List δ) :
    IsLeast {v | v ∈ a :: l} (l.foldl min a) := by
  induction l using List.reverseRecOn with
  | nil => simp
  | append_singleton l b ih =>
    have hmore : {v | v ∈ a :: (l ++ [b])} = insert b {v | v ∈ a :: l} := by
      ext v
      simp only [List.mem_cons, List.mem_append, List.not_mem_nil, or_false, Set.mem_ofPred_eq,
        Set.mem_insert_iff]
      tauto
    rw [List.foldl_concat, min_comm, hmore]
    exact ih.insert b

theorem isGreatest_foldl_max {δ : Type} [LinearOrder δ] (a : δ) (l : List δ) :
    IsGreatest {v | v ∈ a :: l} (l.foldl max a) :=
  isLeast_foldl_min (δ := δᵒᵈ) a l

/-- What an extreme is chosen from: the samples of the window. -/
theorem extreme_exact (choose : α → α → α) (k : ℕ) :
    extreme choose x t (k + 1) = (samples x (t.back 1) k).foldl choose (x t) := by
  rw [extreme, foldFinite_exact, Nat.add_sub_cancel]
  rfl

theorem isLeast_least {k : ℕ} (hk : 1 ≤ k) :
    IsLeast {v | ∃ i < k, x (t.back i) = v} (least x t k) := by
  obtain ⟨k, rfl⟩ := Nat.exists_eq_add_of_le' hk
  have hsmaller : (Number.smaller : α → α → α) = min := by
    funext a b
    exact Number.smaller_eq a b
  rw [least, extreme_exact, setOf_mem_samples, hsmaller]
  exact isLeast_foldl_min _ _

theorem isGreatest_greatest {k : ℕ} (hk : 1 ≤ k) :
    IsGreatest {v | ∃ i < k, x (t.back i) = v} (greatest x t k) := by
  obtain ⟨k, rfl⟩ := Nat.exists_eq_add_of_le' hk
  have hlarger : (Number.larger : α → α → α) = max := by
    funext a b
    exact Number.larger_eq a b
  rw [greatest, extreme_exact, setOf_mem_samples, hlarger]
  exact isGreatest_foldl_max _ _

/-! ## Exponential averages -/

/-- A fold from the oldest sample gives each sample its share of what the newer ones leave. -/
theorem foldr_eq_decaying (a : α) (k : ℕ) :
    (samples x t k).foldr (fun v acc => a * v + (1 - a) * acc) (x (t.back k)) =
      decaying a (fun i => x (t.back i)) (k + 1) := by
  induction k generalizing t with
  | zero =>
    rw [decaying_one]
    rfl
  | succ k ih =>
    have hback : ∀ i, (t.back 1).back i = t.back (i + 1) := by
      intro i
      rw [Offset.back_back, Nat.add_comm]
    have hbehind := ih (t.back 1)
    simp only [hback] at hbehind
    rw [samples_succ, List.foldr_cons, hbehind, decaying_succ, Offset.back_zero]

theorem exponential_exact {k : ℕ} (hk : 1 ≤ k) :
    exponential x t k = decaying (2 / ((k : α) + 1)) (fun i => x (t.back i)) k := by
  obtain ⟨k, rfl⟩ := Nat.exists_eq_add_of_le' hk
  have hshare : (smoothing (k + 1) : α) = 2 / ((k + 1 : ℕ) + 1) := by
    rw [smoothing, Number.one_eq]
    rfl
  rw [exponential, ← foldr_eq_decaying, Nat.add_sub_cancel, ← hshare]
  dsimp only
  rw [foldFiniteOldest_exact, Number.one_eq]
  rfl

/-- Whatever holds the samples between two bounds holds their weighted sum between them. -/
theorem decaying_mem_Icc {a low high : α} (ha : 0 ≤ a) (ha' : a ≤ 1) (s : ℕ → α) (k : ℕ)
    (h : ∀ i < k + 1, s i ∈ Set.Icc low high) : decaying a s (k + 1) ∈ Set.Icc low high := by
  induction k generalizing s with
  | zero =>
    rw [decaying_one]
    exact h 0 Nat.one_pos
  | succ k ih =>
    have hnewest := h 0 (Nat.succ_pos _)
    have hbehind := ih (fun i => s (i + 1)) fun i hi => h (i + 1) (by omega)
    rw [decaying_succ]
    exact convex_Icc low high hnewest hbehind ha (sub_nonneg.mpr ha') (add_sub_cancel a 1)

/-- The exponential average lies between the least and the greatest sample. -/
theorem exponential_mem_Icc {k : ℕ} (hk : 1 ≤ k) :
    exponential x t k ∈ Set.Icc (least x t k) (greatest x t k) := by
  have hcount : (1 : α) ≤ k := by exact_mod_cast hk
  have hpos : (0 : α) < k + 1 := by linarith
  have hshare : (0 : α) ≤ 2 / (k + 1) := by positivity
  have hshare' : (2 : α) / (k + 1) ≤ 1 := (div_le_one hpos).mpr (by linarith)
  have hsamples : ∀ i < k, x (t.back i) ∈ Set.Icc (least x t k) (greatest x t k) := fun i hi =>
    ⟨(isLeast_least x t hk).2 ⟨i, hi, rfl⟩, (isGreatest_greatest x t hk).2 ⟨i, hi, rfl⟩⟩
  rw [exponential_exact x t hk]
  obtain ⟨m, rfl⟩ := Nat.exists_eq_add_of_le' hk
  exact decaying_mem_Icc hshare hshare' _ m hsamples

/-! ## In a larger field

The samples may be rational numbers and the root of their variance not. In a larger field the window
has the same figures, and there a deviation. -/

section Embedding

variable {γ : Type} [ExactNumber γ] (f : α →+*o γ)

theorem meanOf_map (s : ℕ → α) (k : ℕ) : meanOf (fun i => f (s i)) k = f (meanOf s k) := by
  simp only [meanOf, map_div₀, map_sum, map_natCast]

theorem varianceOf_map (s : ℕ → α) (k : ℕ) :
    varianceOf (fun i => f (s i)) k = f (varianceOf s k) := by
  simp only [varianceOf, meanOf_map, map_div₀, map_sum, map_natCast, map_pow, map_sub]

theorem deviation_map (k : ℕ) :
    deviation (fun u => f (x u)) t k =
      ExactNumber.root (f (varianceOf (fun i => x (t.back i)) k)) := by
  rw [deviation_exact, varianceOf_map f fun i => x (t.back i)]

variable [LawfulRoot γ]

/-- There is no deviation in a larger field if and only if there is no variance. -/
theorem deviation_map_eq_zero_iff (k : ℕ) :
    deviation (fun u => f (x u)) t k = 0 ↔ varianceOf (fun i => x (t.back i)) k = 0 := by
  have hnonneg := map_nonneg f (varianceOf_nonneg (fun i => x (t.back i)) k)
  have hroot := LawfulRoot.root_nonneg _ hnonneg
  rw [deviation_map, ← not_iff_not, ← ne_eq, ← ne_eq, ← hroot.lt_iff_ne',
    ExactNumber.root_pos_iff hnonneg, hnonneg.lt_iff_ne', map_ne_zero]

theorem score_map (k : ℕ) :
    score (fun u => f (x u)) t k =
      if varianceOf (fun i => x (t.back i)) k = 0 then 0
      else (f (x t) - f (meanOf (fun i => x (t.back i)) k)) / deviation (fun u => f (x u)) t k := by
  rw [score_exact, meanOf_map f fun i => x (t.back i)]
  exact if_congr (deviation_map_eq_zero_iff x t f k) rfl rfl

end Embedding

/-! ## The figures -/

/-- **The aggregates compute the figures as they are defined.** Over the rational numbers, as over any
others that are calculated with exactly, the samples of a window of length `k`, the newest first, have
the sum, the mean, the sum of squared distances from it, the least and the greatest sample that the
aggregates and the pass over the window arrive at. The exponential average gives each sample the share
`2 / (k + 1)` of what the newer ones leave, and so lies between the least and the greatest sample.

Roots may exist in a larger field only, as the real numbers are for the rational ones. There the
square of the deviation is the variance, and the score is zero if the variance is, and else the
distance of the newest sample from the mean in deviations. -/
theorem aggregates_textbook (x : Series α) (t : Offset) (k : ℕ) (hk : 1 ≤ k) :
    let s := fun i => x (t.back i)
    let a : α := 2 / (k + 1)
    sum x t k = ∑ i ∈ Finset.range k, s i ∧
    mean x t k = (∑ i ∈ Finset.range k, s i) / k ∧
    (∃ w, spread? x t k = some w ∧ w.count = k ∧ w.mean = (∑ i ∈ Finset.range k, s i) / k ∧
      w.squares = ∑ i ∈ Finset.range k, (s i - w.mean) ^ 2) ∧
    IsLeast {v | ∃ i < k, s i = v} (least x t k) ∧
    IsGreatest {v | ∃ i < k, s i = v} (greatest x t k) ∧
    exponential x t k =
      (∑ i ∈ Finset.range (k - 1), a * (1 - a) ^ i * s i) + (1 - a) ^ (k - 1) * s (k - 1) ∧
    (least x t k ≤ exponential x t k ∧ exponential x t k ≤ greatest x t k) ∧
    ∀ (γ : Type) [ExactNumber γ] [LawfulRoot γ] (f : α →+*o γ),
      let y : Series γ := fun u => f (x u)
      0 ≤ deviation y t k ∧ deviation y t k ^ 2 = f (varianceOf s k) ∧
      score y t k =
        if varianceOf s k = 0 then 0 else (f (s 0) - f (meanOf s k)) / deviation y t k := by
  intro s a
  refine ⟨sum_exact x t k, mean_exact x t k,
    ⟨_, spread?_exact x t k, ?_, mean_ofList_samples x t k, ?_⟩, isLeast_least x t hk,
    isGreatest_greatest x t hk, exponential_exact x t hk, exponential_mem_Icc x t hk,
    fun γ _ _ f => ?_⟩
  · rw [Welford.count_ofList, length_samples]
  · rw [squares_ofList_samples, mean_ofList_samples]
  · have hnonneg : 0 ≤ f (varianceOf s k) := map_nonneg f (varianceOf_nonneg s k)
    have hnewest : s 0 = x t := congrArg x t.back_zero
    refine ⟨?_, ?_, ?_⟩
    · rw [deviation_map]
      exact LawfulRoot.root_nonneg _ hnonneg
    · rw [deviation_map]
      exact LawfulRoot.sq_root _ hnonneg
    · rw [hnewest]
      exact score_map x t f k

/-- Three samples, the newest of them the greatest. -/
theorem aggregates_textbook_rising :
    let x : Series ℚ := Series.ofArray #[1, 2, 4]
    let f : ℚ →+*o ℝ := ⟨Rat.castHom ℝ, Rat.cast_mono⟩
    1 ≤ 3 ∧ mean x Offset.latest 3 = 7 / 3 ∧ exponential x Offset.latest 3 = 11 / 4 ∧
      IsGreatest {v | ∃ i < 3, x (Offset.latest.back i) = v} 4 ∧
      deviation (fun u => f (x u)) Offset.latest 3 ^ 2 = 14 / 9 := by
  intro x f
  obtain ⟨-, -, -, -, hgreatest, -, -, hroot⟩ :=
    aggregates_textbook x Offset.latest 3 (by decide)
  obtain ⟨-, hdeviation, -⟩ := hroot ℝ f
  have hfour : greatest x Offset.latest 3 = 4 := by decide +kernel
  have hvariance : varianceOf (fun i => x (Offset.latest.back i)) 3 = 14 / 9 := by decide +kernel
  refine ⟨by decide, by decide +kernel, by decide +kernel, hfour ▸ hgreatest, ?_⟩
  rw [hdeviation, hvariance]
  norm_num

end SignalLab.Window
