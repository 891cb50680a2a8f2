import SignalLab.Backtest

/-!
# A backtest never rewrites its past

A backtest goes through its samples from the oldest to the newest. Its positions and its equity up
to a sample depend on nothing that comes after: a backtest over more prices begins with the
positions and the equity of the backtest over the first of them (`take_positions`, `take_equity`),
provided that the longer signal reads, further back by as many samples as were added, what the
shorter one reads.
-/

namespace SignalLab

/-! ## The latest numbers of a series -/

namespace Series

variable {α : Type}

/-- The latest numbers of a series, the oldest being number zero. -/
theorem latest_eq_map (x : Series α) (n : Nat) :
    x.latest n = (List.range n).map fun i => x (Offset.ofNat (n - 1 - i)) := by
  rw [latest, List.range_eq_range', List.reverse_range', List.map_map, List.range_eq_range']
  refine List.map_congr_left fun i _ => ?_
  simp

/-- The latest `n + m` numbers are the latest `n` as seen from `m` samples back, and then the latest
`m`. -/
theorem latest_add (y : Series α) (n m : Nat) :
    y.latest (n + m) = Series.latest (fun t => y (t.back m)) n ++ y.latest m := by
  have hback : ∀ t, y ((Offset.ofNat t).back m) = y (Offset.ofNat (m + t)) := by
    intro t
    congr 1
    exact Offset.ext_toNat (by simp; omega)
  -- offsets from zero up to `m` come first, and the list is read from its end
  unfold latest
  rw [Nat.add_comm, List.range_add, List.reverse_append, List.map_append, ← List.map_reverse,
    List.map_map]
  simp only [hback]
  rfl

end Series

namespace Backtest

variable {α : Type} [Number α]

/-! ## Steps and equity -/

theorem stepReturns_begins (cost : α) (samples more : List (α × α)) :
    stepReturns cost samples <+: stepReturns cost (samples ++ more) := by
  induction samples with
  | nil => exact List.nil_prefix
  | cons first samples ih =>
    -- a step needs two samples, so the step from the last sample exists only if there is more
    rcases samples with _ | ⟨second, samples⟩
    · exact List.nil_prefix
    · rw [List.cons_append, List.cons_append, stepReturns, stepReturns]
      exact List.prefix_cons_inj _ |>.mpr ih

theorem curve_begins (equity : α) {steps all : List α} (h : steps <+: all) :
    curve equity steps <+: curve equity all := by
  obtain ⟨more, rfl⟩ := h
  induction steps generalizing equity with
  | nil =>
    rcases more with _ | ⟨step, more⟩
    · exact List.prefix_rfl
    · exact ⟨curve (equity * (Number.one + step)) more, rfl⟩
  | cons step steps ih =>
    rw [List.cons_append, curve, curve]
    exact List.prefix_cons_inj _ |>.mpr (ih _)

theorem length_stepReturns (cost : α) (samples : List (α × α)) :
    (stepReturns cost samples).length = samples.length - 1 := by
  induction samples with
  | nil => rfl
  | cons first samples ih =>
    rcases samples with _ | ⟨second, samples⟩
    · rfl
    · rw [stepReturns, List.length_cons, ih]
      simp

theorem length_curve (equity : α) (steps : List α) :
    (curve equity steps).length = steps.length + 1 := by
  induction steps generalizing equity with
  | nil => rfl
  | cons step steps ih => rw [curve, List.length_cons, List.length_cons, ih]

/-! ## Backtests -/

theorem length_positions (prices : List α) (x : Series α) (rate : α) :
    (run prices x rate).positions.length = prices.length := by
  simp [run, Series.latest]

/-- The equity follows the step returns between the samples, where there are any. -/
theorem equity_eq {prices : List α} (h : prices ≠ []) (x : Series α) (rate : α) :
    (run prices x rate).equity = curve Number.one
      (stepReturns (effectiveCost rate) (prices.zip (run prices x rate).positions)) := by
  have hempty : ¬ prices.isEmpty := by simpa using h
  rw [run]
  dsimp only
  rw [if_neg hempty]

/-- There is one equity for every sample. -/
theorem length_equity (prices : List α) (x : Series α) (rate : α) :
    (run prices x rate).equity.length = prices.length := by
  rcases prices with _ | ⟨price, prices⟩
  · rfl
  · rw [equity_eq (List.cons_ne_nil _ _), length_curve, length_stepReturns, List.length_zip,
      length_positions, Nat.min_self, List.length_cons]
    omega

variable {prices more : List α} {x y : Series α}

/-- The positions over more prices begin with those over the first of them. -/
theorem positions_append (h : ∀ t, y (t.back more.length) = x t) (rate : α) :
    (run (prices ++ more) y rate).positions =
      (run prices x rate).positions ++ (y.latest more.length).map position := by
  have hx : (fun t : Offset => y (t.back more.length)) = x := funext h
  rw [run, run]
  dsimp only
  rw [List.length_append, Series.latest_add, hx, List.map_append]

/-- **The positions over more prices begin with the positions over the first of them.** -/
theorem take_positions (h : ∀ t, y (t.back more.length) = x t) (rate : α) :
    (run (prices ++ more) y rate).positions.take prices.length = (run prices x rate).positions := by
  rw [positions_append h, List.take_left' (length_positions prices x rate)]

/-- **The equity over more prices begins with the equity over the first of them.** -/
theorem take_equity (h : ∀ t, y (t.back more.length) = x t) (rate : α) :
    (run (prices ++ more) y rate).equity.take prices.length = (run prices x rate).equity := by
  have hbegins : (run prices x rate).equity <+: (run (prices ++ more) y rate).equity := by
    rcases prices with _ | ⟨price, prices⟩
    · exact List.nil_prefix
    · -- prices and positions are of one length, so pairing them up splits where both do
      rw [equity_eq (List.cons_ne_nil _ _), List.cons_append, equity_eq (List.cons_ne_nil _ _),
        ← List.cons_append, positions_append h, List.zip_append (length_positions _ _ _).symm]
      exact curve_begins _ (stepReturns_begins _ _ _)
  have htake := List.prefix_iff_eq_take.mp hbegins
  rw [length_equity] at htake
  exact htake.symm

end Backtest

end SignalLab
