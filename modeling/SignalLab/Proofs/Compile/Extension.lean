import Mathlib
import SignalLab.Proofs.Backtest.Prefix
import SignalLab.Proofs.Compile.Evaluation

/-!
# Later samples never rewrite the past

When a history grows by `m` samples, what lay `t` samples back lies `t + m` samples back. A program
that mentions neither `time`, which is the number of samples back itself, nor `random` follows this
move: it has the same numbers as before, `m` samples further back. Its backtest over the longer
history therefore begins with its backtest over the shorter one.

This holds of every offset because going back stops at the greatest one. A history that fits below
it has no samples there.
-/

namespace SignalLab

open Vocabulary (bound unfed)

/-! ## Longer histories -/

/-- A column with later samples at its end reads what it read before, as many samples further
back. -/
theorem Series.ofArray_append {α : Type} [Number α] (xs ys : Array α)
    (h : (xs ++ ys).size ≤ maxOffset) (t : Offset) :
    Series.ofArray (xs ++ ys) (t.back ys.size) = Series.ofArray xs t := by
  rw [Array.size_append] at h
  by_cases ht : t.toNat < xs.size
  · have hback : (t.back ys.size).toNat = t.toNat + ys.size := by
      rw [Offset.toNat_back]
      omega
    have hin : (t.back ys.size).toNat < (xs ++ ys).size := by
      rw [hback, Array.size_append]
      omega
    have hindex : (xs ++ ys).size - 1 - (t.back ys.size).toNat = xs.size - 1 - t.toNat := by
      rw [hback, Array.size_append]
      omega
    rw [Series.ofArray, Series.ofArray, dif_pos ht, dif_pos hin]
    simp only [hindex]
    exact Array.getElem_append_left (by omega)
  · -- also where going back stops, because the longer column ends before that
    have hout : ¬ (t.back ys.size).toNat < (xs ++ ys).size := by
      rw [Offset.toNat_back, Array.size_append]
      omega
    rw [Series.ofArray, Series.ofArray, dif_neg ht, dif_neg hout]

namespace History

/-- A history with later samples. -/
def extend (h : History) (later : Array (Sample Float)) : History := ⟨h.samples ++ later⟩

variable {h : History} {later : Array (Sample Float)}

theorem column_extend (part : Sample Float → Float) :
    (h.extend later).column part = h.column part ++ later.map part :=
  Array.map_append

theorem prices_extend :
    (h.extend later).prices = h.prices ++ (later.map Sample.price).toList := by
  rw [prices, prices, column_extend, Array.toList_append]

theorem length_prices (h : History) : h.prices.length = h.size := by
  simp [prices, column, size]

/-- Every column of a longer history says, further back, what it said before. -/
theorem sample_feeds_extend (hsize : (h.extend later).size ≤ maxOffset) (t : Offset) :
    (h.extend later).feeds.sample (t.back later.size) = h.feeds.sample t := by
  have hcolumn : ∀ part : Sample Float → Float,
      Series.ofArray ((h.extend later).column part) (t.back later.size) =
        Series.ofArray (h.column part) t := by
    intro part
    -- all columns are of one length, that of the samples
    have hfits : (h.column part ++ later.map part).size ≤ maxOffset := by
      rw [← column_extend, column, Array.size_map]
      exact hsize
    have happend := Series.ofArray_append (h.column part) (later.map part) hfits t
    rw [Array.size_map] at happend
    rw [column_extend, happend]
  simp only [Feeds.sample, feeds, hcolumn]

end History

/-! ## Programs over longer histories -/

namespace Alignment

/-- Every offset is compared with the one that lies `m` samples further back. -/
def moved (m : Nat) : Alignment where
  holds _ s t := t = s.back m
  back {_ s t} h j _ := by
    rw [h, Offset.back_back, Offset.back_back, Nat.add_comm]

/-- The references that do not depend on a market are the same at all offsets, except for the time
and the numbers drawn. -/
theorem related_unfed_moved {m : Nat} {draws draws' : Signal} (name : String) (x y : Signal)
    (hname : name ∉ ["time", "random"]) (hx : (unfed draws).lookup name = some x)
    (hy : (unfed draws').lookup name = some y) : (moved m).Related 0 x y := by
  rw [List.mem_cons, List.mem_singleton, not_or] at hname
  obtain ⟨value, rfl⟩ := Vocabulary.constant_of_lookup_unfed hname.1 hname.2 hx
  rw [Vocabulary.lookup_unfed_congr draws draws' hname.2, hy] at hx
  rw [Option.some.inj hx]
  exact related_constant _ 0 value

end Alignment

/-- **Later samples never rewrite the past.** A source text that mentions neither `time` nor
`random` has over a longer history, further back by as many samples as were added, the numbers that
it has over the shorter one, and its backtest begins with the positions and the equity over the
shorter one. -/
theorem evaluate_extend (draws draws' : Signal) (markets markets' : List Feeds) (source : String)
    (e : Expr) (p : Program) (hparse : Expr.parse source = .ok e)
    (hcompile : compile (bound draws markets) source = .ok p) (htime : e.mentions "time" = false)
    (hrandom : e.mentions "random" = false) (h : History) (later : Array (Sample Float))
    (hsize : (h.extend later).size ≤ maxOffset) :
    ∃ x y, evaluate (bound draws markets) h.feeds source = .ok x ∧
      evaluate (bound draws' markets') (h.extend later).feeds source = .ok y ∧
      (∀ t : Offset, y (t.back later.size) = x t) ∧
      ∀ rate : Float,
        (Backtest.run (h.extend later).prices y rate).positions.take h.size =
            (Backtest.run h.prices x rate).positions ∧
          (Backtest.run (h.extend later).prices y rate).equity.take h.size =
            (Backtest.run h.prices x rate).equity := by
  have hfeeds : ∀ s t, (Alignment.moved later.size).holds 0 s t →
      h.feeds.sample s = (h.extend later).feeds.sample t := by
    rintro s _ rfl
    exact (History.sample_feeds_extend hsize s).symm
  have hmentions : ∀ name ∈ ["time", "random"], e.mentions name = false := by
    intro name hname
    rw [List.mem_cons, List.mem_singleton] at hname
    rcases hname with rfl | rfl
    · exact htime
    · exact hrandom
  obtain ⟨x, y, hx, hy, hrelated⟩ := Alignment.related_evaluate markets markets' hfeeds
    Alignment.related_unfed_moved hparse hcompile hmentions
  have hmoved : ∀ t : Offset, y (t.back later.size) = x t := fun t => (hrelated t _ rfl).symm
  refine ⟨x, y, hx, hy, hmoved, fun rate => ?_⟩
  have hlater : ∀ t : Offset, y (t.back (later.map Sample.price).toList.length) = x t := by
    intro t
    rw [Array.length_toList, Array.size_map]
    exact hmoved t
  rw [History.prices_extend, ← History.length_prices]
  exact ⟨Backtest.take_positions hlater rate, Backtest.take_equity hlater rate⟩

/-- A program that smooths returns over as many samples as the volume says, over a history of two
samples to which a third is added. -/
theorem evaluate_extend_smoothedReturns :
    let v := bound (Series.constant 0.5) []
    let source := "mean (returns close) volume"
    let h : History := ⟨#[⟨1.0, 2.0, 1.0, 1.0, 1.0, 1.0⟩, ⟨2.0, 2.0, 1.0, 2.0, 2.0, 1.0⟩]⟩
    let later : Array (Sample Float) := #[⟨4.0, 2.0, 2.0, 4.0, 4.0, 2.0⟩]
    ∃ e p, Expr.parse source = .ok e ∧ compile v source = .ok p ∧ e.mentions "time" = false ∧
      e.mentions "random" = false ∧ (h.extend later).size ≤ maxOffset ∧
      ∃ x y, evaluate v h.feeds source = .ok x ∧ evaluate v (h.extend later).feeds source = .ok y ∧
        (∀ t : Offset, y (t.back 1) = x t) ∧
        ∀ rate : Float,
          (Backtest.run (h.extend later).prices y rate).positions.take 2 =
              (Backtest.run h.prices x rate).positions ∧
            (Backtest.run (h.extend later).prices y rate).equity.take 2 =
              (Backtest.run h.prices x rate).equity := by
  intro v source h later
  let e : Expr := .application ⟨0, 27⟩ "mean"
    [.application ⟨5, 20⟩ "returns" [.reference ⟨14, 19⟩ "close"], .reference ⟨21, 27⟩ "volume"]
  let p : Program := ⟨#[.reference "price", .reference "volume", .reference "open",
    .reference "close", .reference "high", .reference "low", .reference "time",
    .reference "random", .reference "pi", .reference "e", .apply "returns" [3],
    .apply "mean" [10, 1]]⟩
  have hparse : Expr.parse source = .ok e := by cbv
  have hlower : Program.ofExpr v e = .ok p := by decide +kernel
  have hcompile : compile v source = .ok p := by
    rw [compile, hparse]
    exact hlower
  have htime : e.mentions "time" = false := by decide
  have hrandom : e.mentions "random" = false := by decide
  have hsize : (h.extend later).size ≤ maxOffset := by decide
  refine ⟨e, p, hparse, hcompile, htime, hrandom, hsize, ?_⟩
  exact evaluate_extend (Series.constant 0.5) (Series.constant 0.5) [] [] source e p hparse
    hcompile htime hrandom h later hsize

end SignalLab
