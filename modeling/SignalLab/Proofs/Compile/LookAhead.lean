import Mathlib
import SignalLab.Proofs.Compile.Evaluation

/-!
# Programs do not look ahead

The number that a program has at an offset is decided by the samples of the market from that offset
back. How far back they matter is bounded as well: every level of nested functions that look back
adds `maxWindow` samples, whatever the lengths of the windows are, which are numbers of the
program's own making. Both are said of two markets that agree on these samples and may differ
everywhere else.
-/

namespace SignalLab

open Vocabulary (bound unfed)

namespace Alignment

/-- One offset for both runs, behind which two markets agree over `maxWindow` samples a level. -/
def behind (feeds feeds' : Feeds) : Alignment where
  holds depth s t := s = t ∧ ∀ u : Offset, s.toNat ≤ u.toNat →
    u.toNat ≤ (s.back (depth * maxWindow)).toNat → feeds.sample u = feeds'.sample u
  back {depth s t} h j hj := by
    obtain ⟨rfl, hagree⟩ := h
    refine ⟨rfl, fun u hlow hhigh => hagree u ?_ ?_⟩
    · have := s.le_max
      rw [Offset.toNat_back] at hlow
      omega
    · -- the step back and the levels that remain do not reach behind all levels
      have hreach : j + depth * maxWindow ≤ (depth + 1) * maxWindow := by
        rw [Nat.succ_mul]
        omega
      rw [Offset.back_back, Offset.toNat_back] at hhigh
      rw [Offset.toNat_back]
      omega

/-- The references that do not depend on a market say the same in both runs, except for the numbers
drawn. -/
theorem related_unfed_behind {feeds feeds' : Feeds} {draws draws' : Signal} (name : String)
    (x y : Signal) (hname : name ∉ ["random"]) (hx : (unfed draws).lookup name = some x)
    (hy : (unfed draws').lookup name = some y) : (behind feeds feeds').Related 0 x y := by
  rw [Vocabulary.lookup_unfed_congr draws draws' (by simpa using hname), hy] at hx
  rw [← Option.some.inj hx]
  rintro s _ ⟨rfl, -⟩
  rfl

end Alignment

/-- **No program looks ahead, and none looks back without bound.** Two evaluations of a source text
that does not mention `random`, over markets that agree at an offset and on the samples behind it
that its nested functions can reach, give the same number there. -/
theorem evaluate_eq_of_agree_behind (draws draws' : Signal) (markets markets' : List Feeds)
    (source : String) (e : Expr) (p : Program) (hparse : Expr.parse source = .ok e)
    (hcompile : compile (bound draws markets) source = .ok p)
    (hrandom : e.mentions "random" = false) (feeds feeds' : Feeds) (t : Offset)
    (hagree : ∀ u : Offset, t.toNat ≤ u.toNat →
      u.toNat ≤ (t.back (e.lookBackDepth [] * maxWindow)).toNat → feeds.sample u = feeds'.sample u) :
    ∃ x y, evaluate (bound draws markets) feeds source = .ok x ∧
      evaluate (bound draws' markets') feeds' source = .ok y ∧ x t = y t := by
  have hfeeds : ∀ s t, (Alignment.behind feeds feeds').holds 0 s t →
      feeds.sample s = feeds'.sample t := by
    rintro s _ ⟨rfl, h⟩
    exact h s (Nat.le_refl _) (Nat.le_of_eq (by rw [Nat.zero_mul, Offset.back_zero]))
  have hmentions : ∀ name ∈ ["random"], e.mentions name = false := by
    intro name hname
    rw [List.mem_singleton.mp hname]
    exact hrandom
  obtain ⟨x, y, hx, hy, hrelated⟩ := Alignment.related_evaluate markets markets' hfeeds
    Alignment.related_unfed_behind hparse hcompile hmentions
  exact ⟨x, y, hx, hy, hrelated t t ⟨rfl, hagree⟩⟩

/-- A market in which everything fell from two to one five samples ago. -/
def fallenLately : Feeds := Feeds.same fun t => if t.toNat < 5 then 1.0 else 2.0

/-- Up to the fall a program cannot tell the market from one that never falls. The window of its
mean is as long as the volume says, and the mean is read behind a lag. -/
theorem evaluate_eq_before_fall :
    let v := bound (Series.constant 0.5) []
    let source := "let m = mean close volume in lag m price"
    let t := Offset.ofNat 5
    ∃ e p, Expr.parse source = .ok e ∧ compile v source = .ok p ∧ e.mentions "random" = false ∧
      e.lookBackDepth [] = 2 ∧
      ∃ x y, evaluate v fallenLately source = .ok x ∧
        evaluate v (Feeds.same (Series.constant 2.0)) source = .ok y ∧ x t = y t := by
  intro v source t
  let e : Expr := .binding ⟨0, 40⟩ "m"
    (.application ⟨8, 25⟩ "mean" [.reference ⟨13, 18⟩ "close", .reference ⟨19, 25⟩ "volume"])
    (.application ⟨29, 40⟩ "lag" [.reference ⟨33, 34⟩ "m", .reference ⟨35, 40⟩ "price"])
  let p : Program := ⟨#[.reference "price", .reference "volume", .reference "open",
    .reference "close", .reference "high", .reference "low", .reference "time",
    .reference "random", .reference "pi", .reference "e", .apply "mean" [3, 1],
    .apply "lag" [10, 0]]⟩
  have hparse : Expr.parse source = .ok e := by cbv
  have hlower : Program.ofExpr v e = .ok p := by decide +kernel
  have hcompile : compile v source = .ok p := by
    rw [compile, hparse]
    exact hlower
  have hrandom : e.mentions "random" = false := by decide
  have hdepth : e.lookBackDepth [] = 2 := by decide
  refine ⟨e, p, hparse, hcompile, hrandom, hdepth, ?_⟩
  refine evaluate_eq_of_agree_behind (Series.constant 0.5) (Series.constant 0.5) [] [] source e p
    hparse hcompile hrandom fallenLately (Feeds.same (Series.constant 2.0)) t fun u hu _ => ?_
  have hbefore : ¬ u.toNat < 5 := Nat.not_lt.mpr hu
  simp only [Feeds.sample, fallenLately, Feeds.same, if_neg hbefore, Series.constant]

end SignalLab
