import Mathlib.Algebra.Order.Field.Basic
import Mathlib.Order.Interval.Set.Defs
import Mathlib.Tactic.FieldSimp
import Mathlib.Tactic.Linarith
import Mathlib.Tactic.NormNum
import SignalLab.Market.Synthetic
import SignalLab.Proofs.Number.Exact

/-!
# The walk of the synthetic market

The synthetic market is a walk: a sample is made from the closing price before it and three draws, and
the walk goes on from its closing price and the state behind its draws. Nothing that comes later is
asked for, so a shorter history is the beginning of a longer one (`walk_take`), and every sample opens
where the one before it closed (`opening_walk_succ`).

Calculated exactly, the samples are consistent whatever is drawn (`samples_consistent`). The closing
price never goes below its floor, and this carries the rest: a price that is raised to the floor came
from one that was not below it, so it has moved by less than was drawn, and as prices are positive the
lowest and the highest one spread around them as they should.
-/

namespace SignalLab.Synthetic

/-! ## The shape of a walk -/

section

variable {α : Type} [Number α]

/-- The sample that follows a closing price. -/
def sampleAfter (state : UInt32) (last : α) : Sample α := (nextSample state last).1

/-- The state of the generator after the draws of a sample. -/
def stateAfter (state : UInt32) : UInt32 := nextState (nextState (nextState state))

theorem walk_succ (state : UInt32) (last : α) (n : ℕ) :
    walk state last (n + 1) =
      sampleAfter state last :: walk (stateAfter state) (sampleAfter state last).closing n :=
  rfl

theorem length_walk (state : UInt32) (last : α) (n : ℕ) : (walk state last n).length = n := by
  induction n generalizing state last with
  | zero => rfl
  | succ n ih => rw [walk_succ, List.length_cons, ih]

/-- **A shorter walk is the beginning of a longer one.** -/
theorem walk_take (state : UInt32) (last : α) {m n : ℕ} (h : m ≤ n) :
    (walk state last n).take m = walk state last m := by
  induction n generalizing state last m with
  | zero => rw [Nat.le_zero.mp h, List.take_zero, walk]
  | succ n ih =>
    rcases m with _ | m
    · rfl
    · rw [walk_succ, walk_succ, List.take_succ_cons, ih _ _ (Nat.le_of_succ_le_succ h)]

/-- A walk opens with the closing price that it starts from. -/
theorem opening_walk_zero {state : UInt32} {last : α} {n : ℕ} {s : Sample α}
    (h : (walk state last n)[0]? = some s) : s.opening = last := by
  rcases n with _ | n
  · cases h
  · rw [walk_succ, List.getElem?_cons_zero] at h
    rw [← Option.some.inj h]
    rfl

/-- Every further sample opens where the one before it closed. -/
theorem opening_walk_succ {state : UInt32} {last : α} {n i : ℕ} {s t : Sample α}
    (hs : (walk state last n)[i]? = some s) (ht : (walk state last n)[i + 1]? = some t) :
    t.opening = s.closing := by
  induction n generalizing state last i with
  | zero => cases hs
  | succ n ih =>
    rw [walk_succ] at hs ht
    rw [List.getElem?_cons_succ] at ht
    rcases i with _ | i
    · rw [List.getElem?_cons_zero] at hs
      rw [← Option.some.inj hs]
      exact opening_walk_zero ht
    · exact ih hs ht

end

/-! ## Samples calculated exactly -/

section

variable {α : Type} [ExactNumber α]

/-- What holds of a sample of the market: the closing price is not below its floor and moved by at
most half a percent, the other prices stand around it as their names say, and the volume is in its
range. -/
structure Consistent (s : Sample α) : Prop where
  floor : 1 / 10 ≤ s.closing
  change : |s.closing / s.opening - 1| ≤ 5 / 1000
  low_pos : 0 < s.low
  low_le : s.low ≤ min s.opening s.closing
  le_high : max s.opening s.closing ≤ s.high
  price_mem : s.price ∈ Set.Icc s.low s.high
  volume_mem : s.volume ∈ Set.Ico 800 1400

theorem leastClose_eq : (leastClose : α) = 1 / 10 := by
  norm_num [leastClose, Number.decimal_eq]

theorem startClose_eq : (startClose : α) = 100 := by
  norm_num [startClose, Number.ofCount_eq]

theorem draw_mem (state : UInt32) : (draw state : α) ∈ Set.Ico 0 1 := by
  have hsize : (0 : α) < (UInt32.size : ℕ) := by norm_num [UInt32.size]
  have hstate : (state.toNat : α) < (UInt32.size : ℕ) := Nat.cast_lt.mpr state.toNat_lt
  rw [draw, Number.ofCount_eq, Number.ofCount_eq]
  exact ⟨div_nonneg (Nat.cast_nonneg _) hsize.le, (div_lt_one hsize).mpr hstate⟩

theorem abs_centred_le (state : UInt32) : |(centred state : α)| ≤ 1 / 2 := by
  obtain ⟨hpos, hlt⟩ := draw_mem (α := α) state
  have hhalf : (Number.decimal 5 1 : α) = 1 / 2 := by norm_num [Number.decimal_eq]
  rw [centred, hhalf, abs_le]
  constructor <;> linarith

/-- What the first draw of a sample moves the closing price by. -/
def drift (state : UInt32) : α := centred (nextState state) * (1 / 100)

/-- What the second draw of a sample spreads the highest and the lowest price by. -/
def swing (state : UInt32) : α := |centred (nextState (nextState state)) * (2 / 100)|

theorem abs_drift_le (state : UInt32) : |(drift state : α)| ≤ 5 / 1000 := by
  have hcentred := abs_centred_le (α := α) (nextState state)
  rw [drift, abs_mul, abs_of_pos (by norm_num : (0 : α) < 1 / 100)]
  linarith

theorem swing_mem (state : UInt32) : (swing state : α) ∈ Set.Icc 0 (1 / 100) := by
  have hcentred := abs_centred_le (α := α) (nextState (nextState state))
  refine ⟨abs_nonneg _, ?_⟩
  rw [swing, abs_mul, abs_of_pos (by norm_num : (0 : α) < 2 / 100)]
  linarith

theorem opening_sampleAfter (state : UInt32) (last : α) :
    (sampleAfter state last).opening = last :=
  rfl

theorem closing_sampleAfter (state : UInt32) (last : α) :
    (sampleAfter state last).closing = max (last * (1 + drift state)) (1 / 10) := by
  have hpercent : (Number.decimal 1 2 : α) = 1 / 100 := by norm_num [Number.decimal_eq]
  simp only [sampleAfter, nextSample, Number.larger_eq, Number.one_eq, leastClose_eq, hpercent]
  rfl

/-- The highest and the lowest price stand around the opening and the closing price. -/
theorem high_sampleAfter (state : UInt32) (last : α) :
    let s := sampleAfter state last
    s.high = max s.opening s.closing * (1 + swing state) ∧
      s.low = min s.opening s.closing * (1 - swing state) := by
  have hpercent : (Number.decimal 2 2 : α) = 2 / 100 := by norm_num [Number.decimal_eq]
  simp only [sampleAfter, nextSample, Number.larger_eq, Number.smaller_eq, Number.one_eq, hpercent]
  exact ⟨rfl, rfl⟩

theorem price_sampleAfter (state : UInt32) (last : α) :
    let s := sampleAfter state last
    s.price = (s.high + s.low + s.closing) / 3 := by
  have hthree : (Number.ofCount 3 : α) = 3 := by norm_num [Number.ofCount_eq]
  simp only [sampleAfter, nextSample, hthree]

theorem volume_sampleAfter (state : UInt32) (last : α) :
    (sampleAfter state last).volume = 800 + draw (stateAfter state) * 600 := by
  have hbase : (Number.ofCount 800 : α) = 800 := by norm_num [Number.ofCount_eq]
  have hrange : (Number.ofCount 600 : α) = 600 := by norm_num [Number.ofCount_eq]
  simp only [sampleAfter, nextSample, hbase, hrange]
  rfl

/-- A price at or above the floor moves by at most half a percent, also if it is raised to the
floor: then it came down, but not as far. -/
theorem abs_move_le {last d : α} (hfloor : 1 / 10 ≤ last) (hdrift : |d| ≤ 5 / 1000) :
    |max (last * (1 + d)) (1 / 10) / last - 1| ≤ 5 / 1000 := by
  have hlast : 0 < last := by linarith
  obtain ⟨hdown, hup⟩ := abs_le.mp hdrift
  have hleast : last * (1 - 5 / 1000) ≤ max (last * (1 + d)) (1 / 10) :=
    le_max_of_le_left (mul_le_mul_of_nonneg_left (by linarith) hlast.le)
  have hmost : max (last * (1 + d)) (1 / 10) ≤ last * (1 + 5 / 1000) :=
    max_le (mul_le_mul_of_nonneg_left (by linarith) hlast.le) (by linarith)
  rw [abs_le, le_sub_iff_add_le, sub_le_iff_le_add, le_div_iff₀ hlast, div_le_iff₀ hlast]
  constructor <;> linarith

/-- **Each sample is consistent**, if the closing price before it was not below the floor. -/
theorem consistent_sampleAfter (state : UInt32) {last : α} (hfloor : 1 / 10 ≤ last) :
    Consistent (sampleAfter state last) := by
  have hclosing := closing_sampleAfter state last
  obtain ⟨hhigh, hlow⟩ := high_sampleAfter state last
  have hprice := price_sampleAfter state last
  have hopening := opening_sampleAfter state last
  obtain ⟨hswing, hswing'⟩ := swing_mem (α := α) state
  obtain ⟨hdrawn, hdrawn'⟩ := draw_mem (α := α) (stateAfter state)
  have hleast : 1 / 10 ≤ (sampleAfter state last).closing := by
    rw [hclosing]
    exact le_max_right _ _
  have hmin : 1 / 10 ≤ min (sampleAfter state last).opening (sampleAfter state last).closing :=
    le_min (hopening.symm ▸ hfloor) hleast
  have hmax := hmin.trans (min_le_max)
  have hlow_le : (sampleAfter state last).low ≤
      min (sampleAfter state last).opening (sampleAfter state last).closing := by
    rw [hlow]
    exact mul_le_of_le_one_right (by linarith) (by linarith)
  have hle_high : max (sampleAfter state last).opening (sampleAfter state last).closing ≤
      (sampleAfter state last).high := by
    rw [hhigh]
    exact le_mul_of_one_le_right (by linarith) (by linarith)
  have hclosing_mem := And.intro (hlow_le.trans (min_le_right _ _))
    ((le_max_right _ _).trans hle_high)
  refine ⟨hleast, ?_, ?_, hlow_le, hle_high, ⟨?_, ?_⟩, ⟨?_, ?_⟩⟩
  · rw [hopening, hclosing]
    exact abs_move_le hfloor (abs_drift_le state)
  · rw [hlow]
    exact mul_pos (by linarith) (by linarith)
  · linarith
  · linarith
  · rw [volume_sampleAfter]
    linarith
  · rw [volume_sampleAfter]
    linarith

/-- **All samples of a walk are consistent**: none closes below the floor, so each starts from a price
that is not below it. -/
theorem consistent_walk (state : UInt32) {last : α} (hfloor : 1 / 10 ≤ last) (n : ℕ) :
    ∀ s ∈ walk state last n, Consistent s := by
  induction n generalizing state last with
  | zero => exact List.forall_mem_nil _
  | succ n ih =>
    have hfirst := consistent_sampleAfter state hfloor
    rw [walk_succ, List.forall_mem_cons]
    exact ⟨hfirst, ih _ hfirst.floor⟩

end

/-! ## The market of a name -/

/-- **The synthetic market of every name is stable and consistent.** Whatever numbers it is calculated
with, a history has as many samples as were asked for, a shorter history is the beginning of a longer
one, the first sample opens at the start price, and every other one opens where the one before it
closed; so the six columns of a history are of the length asked for. Calculated exactly, all samples
are consistent. -/
theorem samples_consistent (name : String) (n : ℕ) :
    (∀ (α : Type) [Number α],
      (samples name n : List (Sample α)).length = n ∧
      (∀ m ≤ n, (samples name m : List (Sample α)) = (samples name n).take m) ∧
      (∀ s : Sample α, (samples name n)[0]? = some s → s.opening = startClose) ∧
      ∀ (i : ℕ) (s t : Sample α), (samples name n)[i]? = some s →
        (samples name n)[i + 1]? = some t → t.opening = s.closing) ∧
    (∀ part, ((History.synthetic name n).column part).size = n ∧
      ∀ m ≤ n, ((History.synthetic name m).column part).toList =
        ((History.synthetic name n).column part).toList.take m) ∧
    ∀ (α : Type) [ExactNumber α], ∀ s ∈ (samples name n : List (Sample α)), Consistent s := by
  refine ⟨fun α _ => ⟨?_, ?_, ?_, ?_⟩, fun part => ⟨?_, ?_⟩, fun α _ => ?_⟩
  · exact length_walk _ _ _
  · exact fun m hm => (walk_take _ _ hm).symm
  · exact fun s hs => opening_walk_zero hs
  · exact fun i s t hs ht => opening_walk_succ hs ht
  · rw [History.column, Array.size_map]
    exact length_walk _ _ _
  · intro m hm
    simp only [History.column, History.synthetic, Array.toList_map, ← List.map_take]
    rw [samples, samples, walk_take _ _ hm]
  · exact consistent_walk _ (by rw [startClose_eq]; norm_num) n

/-- The first two of three samples of a market. -/
theorem samples_consistent_twoOfThree :
    (samples "demo" 2 : List (Sample ℚ)) = (samples "demo" 3).take 2 ∧
      ∃ s t : Sample ℚ, (samples "demo" 3)[0]? = some s ∧ (samples "demo" 3)[1]? = some t ∧
        s.opening = 100 ∧ t.opening = s.closing ∧ Consistent s ∧ Consistent t := by
  obtain ⟨hshape, -, hexact⟩ := samples_consistent "demo" 3
  obtain ⟨-, htake, hfirst, hnext⟩ := hshape ℚ
  let s : Sample ℚ := sampleAfter (seedOf "demo") startClose
  let t : Sample ℚ := sampleAfter (stateAfter (seedOf "demo")) s.closing
  have hs : (samples "demo" 3)[0]? = some s := rfl
  have ht : (samples "demo" 3)[1]? = some t := rfl
  refine ⟨htake 2 (by decide), s, t, hs, ht, (hfirst s hs).trans startClose_eq, hnext 0 s t hs ht,
    hexact ℚ s (List.mem_of_getElem? hs), hexact ℚ t (List.mem_of_getElem? ht)⟩

end SignalLab.Synthetic
