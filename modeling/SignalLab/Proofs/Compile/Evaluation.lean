import SignalLab.Compile
import SignalLab.Market.History
import SignalLab.Proofs.Expr.Alignment
import SignalLab.Proofs.Program.Simulation

/-!
# Two evaluations of one source text

A source text that compiles with some vocabulary compiles to the same program with all vocabularies
bound from the standard one, and evaluates over any market to what its expression means
(`evaluate_of_compile`). Two evaluations are therefore related as far as the two markets are
(`Alignment.related_evaluate`).
-/

namespace SignalLab

open Vocabulary (bound unfed)

/-! ## Compiling -/

/-- Neither the markets bound before nor the numbers drawn change what a source text compiles to. -/
theorem compile_bound (draws draws' : Signal) (markets markets' : List Feeds) (source : String) :
    compile (bound draws markets) source = compile (bound draws' markets') source := by
  have hshape := Vocabulary.sameShape_bound_bound draws draws' markets markets'
  rw [compile, compile]
  split
  · rfl
  · exact Program.ofExpr_congr hshape _

/-- A source text that compiles evaluates over every market to the meaning of its expression. -/
theorem evaluate_of_compile (draws : Signal) (markets : List Feeds) (feeds : Feeds)
    {source : String} {e : Expr} {p : Program} (hparse : Expr.parse source = .ok e)
    (hcompile : compile (bound draws markets) source = .ok p) :
    ∃ x, evaluate (bound draws markets) feeds source = .ok x ∧
      e.meaning? ((bound draws markets).bind feeds) [] = some x := by
  have hnames := Vocabulary.nodup_names_bound draws markets
  have hshape := (Vocabulary.SameShape.bind hnames feeds).symm
  have hlower : Program.ofExpr (bound draws markets) e = .ok p := by
    rw [compile, hparse] at hcompile
    exact hcompile
  obtain ⟨-, x, heval, hmeaning⟩ :=
    Program.eval_of_ofExpr hshape (by rw [Vocabulary.table_bind]; exact hnames) hlower
  refine ⟨x, ?_, hmeaning⟩
  rw [evaluate, hcompile]
  dsimp only
  rw [heval]

/-! ## Samples of a market -/

/-- What six signals say at one offset. -/
def Feeds.sample (f : Feeds) (t : Offset) : Sample Float :=
  ⟨f.price t, f.volume t, f.opening t, f.closing t, f.high t, f.low t⟩

/-- Markets that say the same at two offsets say the same there under every name. -/
theorem Feeds.lookup_named_congr {f g : Feeds} {s t : Offset} (h : f.sample s = g.sample t)
    {name : String} {x y : Signal} (hx : f.named.lookup name = some x)
    (hy : g.named.lookup name = some y) : x s = y t := by
  rw [Feeds.sample, Feeds.sample, Sample.mk.injEq] at h
  obtain ⟨hprice, hvolume, hopening, hclosing, hhigh, hlow⟩ := h
  have hname : name ∈ Feeds.names :=
    Vocabulary.names_named f ▸ List.mem_map_of_mem (mem_of_lookup hx)
  simp only [Feeds.names, List.mem_cons, List.not_mem_nil, or_false] at hname
  rcases hname with rfl | rfl | rfl | rfl | rfl | rfl <;> cases hx <;> cases hy <;> assumption

/-! ## Two evaluations -/

namespace Alignment

variable {a : Alignment} {hidden : List String} {draws draws' : Signal} {feeds feeds' : Feeds}

/-- Vocabularies are related if their markets say the same at aligned offsets and the other
references that are not hidden do so, too. -/
theorem vocabularies_bound (markets markets' : List Feeds)
    (hfeeds : ∀ s t, a.holds 0 s t → feeds.sample s = feeds'.sample t)
    (hunfed : ∀ name x y, name ∉ hidden → (unfed draws).lookup name = some x →
      (unfed draws').lookup name = some y → a.Related 0 x y) :
    a.Vocabularies hidden ((bound draws markets).bind feeds)
      ((bound draws' markets').bind feeds') where
  operation? name := by
    rw [Vocabulary.operation?_bind_bound, Vocabulary.operation?_bind_bound]
  looksBack := Vocabulary.looksBack_operation?
  related {name x y} hname hx hy := by
    rw [Vocabulary.signal?_bind_bound] at hx hy
    by_cases hfed : name ∈ Feeds.names
    · obtain ⟨u, hu⟩ := Vocabulary.exists_lookup_named feeds hfed
      obtain ⟨u', hu'⟩ := Vocabulary.exists_lookup_named feeds' hfed
      rw [hu, Option.some_or] at hx
      rw [hu', Option.some_or] at hy
      intro s t hst
      rw [← Option.some.inj hx, ← Option.some.inj hy]
      exact Feeds.lookup_named_congr (hfeeds s t hst) hu hu'
    · rw [lookup_eq_none_of_not_mem hfed, Option.none_or] at hx hy
      exact hunfed name x y hname hx hy

/-- **Two evaluations of a source text** give signals that are related at the depth of its
expression. -/
theorem related_evaluate (markets markets' : List Feeds)
    (hfeeds : ∀ s t, a.holds 0 s t → feeds.sample s = feeds'.sample t)
    (hunfed : ∀ name x y, name ∉ hidden → (unfed draws).lookup name = some x →
      (unfed draws').lookup name = some y → a.Related 0 x y)
    {source : String} {e : Expr} {p : Program} (hparse : Expr.parse source = .ok e)
    (hcompile : compile (bound draws markets) source = .ok p)
    (hmentions : ∀ name ∈ hidden, e.mentions name = false) :
    ∃ x y, evaluate (bound draws markets) feeds source = .ok x ∧
      evaluate (bound draws' markets') feeds' source = .ok y ∧
      a.Related (e.lookBackDepth []) x y := by
  have hcompile' : compile (bound draws' markets') source = .ok p := by
    rw [← hcompile]
    exact compile_bound draws' draws markets' markets source
  obtain ⟨x, hx, hmeaning⟩ := evaluate_of_compile draws markets feeds hparse hcompile
  obtain ⟨y, hy, hmeaning'⟩ := evaluate_of_compile draws' markets' feeds' hparse hcompile'
  have hvocabularies := vocabularies_bound markets markets' hfeeds hunfed
  exact ⟨x, y, hx, hy,
    related_meaning? hvocabularies e Environments.nil hmentions hmeaning hmeaning'⟩

end Alignment

end SignalLab
