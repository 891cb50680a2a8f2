import SignalLab.Proofs.Compile.Composition
import SignalLab.Proofs.Compile.Layout
import SignalLab.Proofs.Number.Whole

/-!
# Functions that programs could define

Some functions of the rolling group can be written with others. A difference is what is left after a
lagged signal is taken away, the two returns compare a signal with the one lagged by one sample unless
that one is zero, and to lag twice is to lag by the sum. Such a program evaluates to the very signal
of the function (`Vocabulary.derived_eq_composed`): at every offset, also beyond the samples and at
the greatest offset, and down to the sign of a zero and to what is not a number.

Programs are told by the kinds of their tokens, and a whole number by the literal that its digits write
(`written_repr`). The parts of these programs are any source texts that compile. Both sides read them at
the same offsets, or at offsets that stop at the same place, so nothing has to be known about them but
that they have one signal. A part that mentions `random` has one as long as the numbers are drawn once.
-/

namespace SignalLab

open Token (Written)
open Vocabulary (bound)

/-! ## Signals -/

namespace Logic

@[simp] theorem holds_truth (b : Bool) : holds (truth b) = b := by
  cases b <;> decide

end Logic

namespace Rolling

/-- The signal as it was one sample ago. -/
theorem lag_one (x : Signal) (t : Offset) :
    lag x (Series.constant (Float.ofNat 1)) t = x (t.back 1) := by
  rw [lag, Series.constant, windowLength_ofNat (by decide)]
  rfl

/-- To lag twice is to lag by the sum: where going back stops, it stops both ways. -/
theorem lag_lag (x : Signal) {a b : ℕ} (h : a + b ≤ maxWindow) :
    lag (lag x (Series.constant (Float.ofNat a))) (Series.constant (Float.ofNat b)) =
      lag x (Series.constant (Float.ofNat (a + b))) := by
  funext t
  simp only [lag, Series.constant]
  rw [windowLength_ofNat (by omega), windowLength_ofNat (by omega), windowLength_ofNat h,
    Nat.zero_max, Nat.zero_max, Nat.zero_max, Offset.back_back, Nat.add_comm]

/-- A comparison with the sample before, written with `if`, `eq` and `lag`. -/
theorem select_eq_sincePrevious (f : Float → Float → Float) (x : Signal) :
    let previous := lag x (Series.constant (Float.ofNat 1))
    Logic.select (fun t => Logic.truth (previous t == Series.constant (Float.ofNat 0) t))
      (Series.constant (Float.ofNat 0)) (fun t => f (x t) (previous t)) = sincePrevious f x := by
  funext t
  rw [Logic.select, Logic.holds_truth, lag_one]
  rfl

end Rolling

/-! ## Tokens -/

/-- The tokens of a whole number. -/
def wholeNumber (n : ℕ) : List TokenKind := [.literal (Float.ofNat n)]

/-- The digits of a whole number write it. -/
theorem written_repr {n : ℕ} (h : n < 2 ^ 53) : Written n.repr (wholeNumber n) :=
  ⟨_, Token.scan_repr h, rfl⟩

/-- `lag (x) 1`. -/
def previously (ks : List TokenKind) : List TokenKind :=
  applied "lag" [inParentheses ks, wholeNumber 1]

/-- `if (eq (lag (x) 1) 0) 0 (change)`. -/
def unlessZero (ks change : List TokenKind) : List TokenKind :=
  applied "if" [inParentheses (applied "eq" [inParentheses (previously ks), wholeNumber 0]),
    wholeNumber 0, inParentheses change]

section

variable {draws : Signal} {markets : List Feeds} {feeds : Feeds} {ks : List TokenKind} {x : Signal}

/-- What a name of the table does, whichever market is bound. -/
theorem operation?_of_lookup {name : String} {operation : Operation}
    (h : (Vocabulary.functionEntries.lookup name).bind Entry.operation? = some operation) :
    ((bound draws markets).bind feeds).operation? name = some operation := by
  rw [Vocabulary.operation?_bind_bound]
  exact h

theorem Means.lag {kn : List TokenKind} {n : Signal}
    (hx : MeansAtom ((bound draws markets).bind feeds) ks x)
    (hn : MeansAtom ((bound draws markets).bind feeds) kn n) :
    Means ((bound draws markets).bind feeds) (applied "lag" [ks, kn]) (Rolling.lag x n) :=
  .binary (operation?_of_lookup rfl) hx hn

theorem Means.difference {kn : List TokenKind} {n : Signal}
    (hx : MeansAtom ((bound draws markets).bind feeds) ks x)
    (hn : MeansAtom ((bound draws markets).bind feeds) kn n) :
    Means ((bound draws markets).bind feeds) (applied "diff" [ks, kn]) (Rolling.difference x n) :=
  .binary (operation?_of_lookup rfl) hx hn

theorem Means.quotient {ks' : List TokenKind} {y : Signal}
    (hx : MeansAtom ((bound draws markets).bind feeds) ks x)
    (hy : MeansAtom ((bound draws markets).bind feeds) ks' y) :
    Means ((bound draws markets).bind feeds) (applied "div" [ks, ks']) (fun t => x t / y t) :=
  .pointwise2 (· / ·) (operation?_of_lookup rfl) hx hy

theorem Means.lagOne (hx : Means ((bound draws markets).bind feeds) ks x) :
    Means ((bound draws markets).bind feeds) (previously ks)
      (Rolling.lag x (Series.constant (Float.ofNat 1))) :=
  .lag hx.atom (meansAtom_literal _ _)

/-- A change since the previous sample, unless that one is zero. -/
theorem Means.sincePrevious {change : List TokenKind} (f : Float → Float → Float)
    (hx : Means ((bound draws markets).bind feeds) ks x)
    (hchange : Means ((bound draws markets).bind feeds) change
      (fun t => f (x t) (Rolling.lag x (Series.constant (Float.ofNat 1)) t))) :
    Means ((bound draws markets).bind feeds) (unlessZero ks change) (Rolling.sincePrevious f x) := by
  have hzero := meansAtom_literal ((bound draws markets).bind feeds) (Float.ofNat 0)
  have hequal : Means ((bound draws markets).bind feeds)
      (applied "eq" [inParentheses (previously ks), wholeNumber 0]) _ :=
    .pointwise2 (fun x y => Logic.truth (x == y)) (operation?_of_lookup rfl)
      hx.lagOne.atom hzero
  rw [← Rolling.select_eq_sincePrevious]
  exact .ternary (operation?_of_lookup rfl) hequal.atom hzero hchange.atom

end

/-! ## Programs -/

/-- A source text as a part of programs, in two runs: it writes these tokens and compiles, and unless
both runs draw the same numbers it does not mention `random`. -/
structure Part (draws draws' : Signal) (source : String) (ks : List TokenKind) : Prop where
  written : Written source ks
  compiles : ∃ p, compile (Vocabulary.standard draws) source = .ok p
  drawn : draws' = draws ∨ ∀ e, Expr.parse source = .ok e → e.mentions "random" = false

/-- In two runs over one market, all source texts that write the one list of tokens and all that write
the other evaluate to the same signal. -/
def SameSignal (draws draws' : Signal) (markets markets' : List Feeds) (feeds : Feeds)
    (ks ks' : List TokenKind) : Prop :=
  ∃ y, (∀ source, Written source ks → evaluate (bound draws markets) feeds source = .ok y) ∧
    ∀ source, Written source ks' → evaluate (bound draws' markets') feeds source = .ok y

variable {draws draws' : Signal} {markets markets' : List Feeds} {feeds : Feeds}
  {ks ks' : List TokenKind}

theorem SameSignal.of_means {y : Signal} (h : Means ((bound draws markets).bind feeds) ks y)
    (h' : Means ((bound draws' markets').bind feeds) ks' y) :
    SameSignal draws draws' markets markets' feeds ks ks' :=
  ⟨y, fun _ hwritten => (means_iff_evaluate hwritten).mp h,
    fun _ hwritten => (means_iff_evaluate hwritten).mp h'⟩

/-- A part has one signal in both runs. -/
theorem Part.exists_means {source : String} (h : Part draws draws' source ks)
    (markets markets' : List Feeds) (feeds : Feeds) :
    ∃ x, Means ((bound draws markets).bind feeds) ks x ∧
      Means ((bound draws' markets').bind feeds) ks x := by
  obtain ⟨p, hp⟩ := h.compiles
  have hcompile : compile (bound draws markets) source = .ok p :=
    (compile_bound draws draws markets [] source).trans hp
  rcases hparse : Expr.parse source with d | e
  · rw [compile, hparse] at hcompile
    cases hcompile
  · obtain ⟨x, heval, -⟩ := evaluate_of_compile draws markets feeds hparse hcompile
    have hsame : evaluate (bound draws markets) feeds source =
        evaluate (bound draws' markets') feeds source := by
      rcases h.drawn with rfl | hrandom
      · exact evaluate_bound_markets _ markets markets' hparse
      · exact evaluate_bound draws draws' markets markets' hparse (hrandom e hparse)
    exact ⟨x, (means_iff_evaluate h.written).mpr heval,
      (means_iff_evaluate h.written).mpr (hsame ▸ heval)⟩

/-- Whether a text is a part can be computed. -/
theorem Part.of_computed {source : String} (hwritten : Written source ks)
    (hcompiles : (compile (Vocabulary.standard draws) source).toOption.isSome = true)
    (hrandom : (Expr.parse source).toOption.all (!·.mentions "random") = true) :
    Part draws draws' source ks where
  written := hwritten
  compiles := by
    rcases hcompile : compile (Vocabulary.standard draws) source with d | p
    · rw [hcompile] at hcompiles
      cases hcompiles
    · exact ⟨p, rfl⟩
  drawn := by
    refine .inr fun e hparse => ?_
    rw [hparse] at hrandom
    simpa [Except.toOption] using hrandom

namespace Vocabulary

/-- **Functions that programs could define.** Let `x` and `n` be source texts that compile, and put
them in parentheses. Then `diff x n` is `sub x (lag x n)`; `returns x` and `log_returns x` are
`if (eq (lag x 1) 0) 0 (div (diff x 1) (lag x 1))` and `if (eq (lag x 1) 0) 0 (log (div x (lag x 1)))`;
and for whole numbers whose sum is no longer than a window can be, `lag (lag x a) b` is
`lag x (a + b)`, where the numbers may be written with their digits. The two sides have the same signal
over every market, in one run and also in two runs, if the parts do not mention `random`. -/
theorem derived_eq_composed (draws draws' : Signal) (markets markets' : List Feeds) (feeds : Feeds)
    {source : String} {ks : List TokenKind} (h : Part draws draws' source ks) :
    (∀ (lengths : String) (kn : List TokenKind), Part draws draws' lengths kn →
      SameSignal draws draws' markets markets' feeds
        (applied "diff" [inParentheses ks, inParentheses kn])
        (applied "sub" [inParentheses ks,
          inParentheses (applied "lag" [inParentheses ks, inParentheses kn])])) ∧
      SameSignal draws draws' markets markets' feeds (applied "returns" [inParentheses ks])
        (unlessZero ks (applied "div" [inParentheses (applied "diff"
          [inParentheses ks, wholeNumber 1]), inParentheses (previously ks)])) ∧
      SameSignal draws draws' markets markets' feeds (applied "log_returns" [inParentheses ks])
        (unlessZero ks (applied "log" [inParentheses (applied "div"
          [inParentheses ks, inParentheses (previously ks)])])) ∧
      ∀ a b : ℕ, a + b ≤ maxWindow →
        (∀ n ≤ a + b, Written n.repr (wholeNumber n)) ∧
        SameSignal draws draws' markets markets' feeds
          (applied "lag" [inParentheses (applied "lag" [inParentheses ks, wholeNumber a]),
            wholeNumber b])
          (applied "lag" [inParentheses ks, wholeNumber (a + b)]) := by
  obtain ⟨x, hx, hx'⟩ := h.exists_means markets markets' feeds
  refine ⟨fun lengths kn hn => ?difference, ?simple, ?log, fun a b hab => ?twice⟩
  case difference =>
    obtain ⟨n, hn, hn'⟩ := hn.exists_means markets markets' feeds
    have hlag := Means.lag hx'.atom hn'.atom
    exact .of_means (.difference hx.atom hn.atom)
      (.pointwise2 (· - ·) (operation?_of_lookup rfl) hx'.atom hlag.atom)
  case simple =>
    have hchange := Means.quotient (Means.difference hx'.atom
      (meansAtom_literal _ (Float.ofNat 1))).atom hx'.lagOne.atom
    exact .of_means (.unary (operation?_of_lookup rfl) hx.atom)
      (.sincePrevious Rolling.simpleReturn hx' hchange)
  case log =>
    have hratio := Means.quotient hx'.atom hx'.lagOne.atom
    exact .of_means (.unary (operation?_of_lookup rfl) hx.atom)
      (.sincePrevious Rolling.logReturn hx'
        (.pointwise Float.log (operation?_of_lookup rfl) hratio.atom))
  case twice =>
    have hlag := Means.lag hx.atom (meansAtom_literal _ (Float.ofNat a))
    have htwice := Means.lag hlag.atom (meansAtom_literal _ (Float.ofNat b))
    rw [Rolling.lag_lag x hab] at htwice
    have hdigits : maxWindow < 2 ^ 53 := by decide
    exact ⟨fun n hn => written_repr ((hn.trans hab).trans_lt hdigits),
      .of_means htwice (.lag hx'.atom (meansAtom_literal _ _))⟩

/-- A pipeline and a length with a comment behind it, put together in one line and in several, and
with other numbers drawn. -/
theorem derived_eq_composed_pipeline :
    let draws := Series.constant (0.25 : Float)
    let draws' := Series.constant (0.5 : Float)
    let ks : List TokenKind := [.reference "close", .pipe, .reference "mean", .literal 2]
    Part draws draws' "close |> mean 2" ks ∧ Part draws draws' "3 # samples" (wholeNumber 3) ∧
      ∃ y, evaluate (bound draws []) Feeds.zeros "diff (close |> mean 2) (3)" = .ok y ∧
        evaluate (bound draws' []) Feeds.zeros
          "sub (close |> mean 2) (lag\n\t(close |> mean 2) # as above\n\t(3))" = .ok y := by
  intro draws draws' ks
  have hx : Part draws draws' "close |> mean 2" ks :=
    .of_computed (by decide +kernel) (by decide +kernel) (by decide +kernel)
  have hn : Part draws draws' "3 # samples" (wholeNumber 3) :=
    .of_computed (by decide +kernel) (by decide +kernel) (by decide +kernel)
  obtain ⟨hdifference, -⟩ := derived_eq_composed draws draws' [] [] Feeds.zeros hx
  obtain ⟨y, hy, hy'⟩ := hdifference _ _ hn
  exact ⟨hx, hn, y, hy _ (by decide +kernel), hy' _ (by decide +kernel)⟩

end Vocabulary

end SignalLab
