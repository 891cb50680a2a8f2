import SignalLab.Proofs.Compile.Evaluation
import SignalLab.Proofs.Grammar.Source
import SignalLab.Proofs.Program.Acceptance
import SignalLab.Proofs.Token.Lines

/-!
# Programs made of programs

A source text that evaluates to a signal can be put in parentheses and used as an argument. What an
application of such arguments evaluates to is what its operation makes of their signals, whatever the
arguments are written like (`Means.apply`).

The statements are about the kinds of the tokens that a text writes (`Token.Written`), so blanks, line
ends and comments may stand between them as one likes. Tokens mean a signal if a derivation writes
them and its expression means that signal (`Means`); this is so exactly if the texts that write them
evaluate to it (`means_iff_evaluate`).
-/

namespace SignalLab

open Vocabulary (bound)

/-! ## Written tokens -/

namespace Token

variable {source : String} {ks : List TokenKind}

/-- A source text writes tokens of these kinds. -/
def Written (source : String) (ks : List TokenKind) : Prop :=
  ∃ ts, scan source = .ok ts ∧ kinds ts = ks ++ [.eof]

theorem written_iff : Written source ks ↔ (scan source).toOption.map kinds = some (ks ++ [.eof]) := by
  rw [Written]
  rcases scan source with d | ts <;> simp [Except.toOption]

instance : Decidable (Written source ks) := decidable_of_iff' _ written_iff

theorem written_iff_scans :
    Written source ks ↔ ∃ us, Scans 0 source.toList us ∧ kinds us = ks := by
  constructor
  · rintro ⟨ts, hscan, hkinds⟩
    obtain ⟨us, hus, rfl⟩ := scan_eq_ok_iff.mp hscan
    rw [kinds_append] at hkinds
    exact ⟨us, hus, List.append_cancel_right hkinds⟩
  · rintro ⟨us, hus, rfl⟩
    refine ⟨_, scan_eq_ok_iff.mpr ⟨us, hus, rfl⟩, ?_⟩
    rw [kinds_append]
    rfl

/-- A text writes one list of tokens. -/
theorem Written.unique {ks' : List TokenKind} (h : Written source ks) (h' : Written source ks') :
    ks = ks' := by
  obtain ⟨ts, hscan, hkinds⟩ := h
  obtain ⟨ts', hscan', hkinds'⟩ := h'
  rw [hscan, Except.ok.injEq] at hscan'
  rw [hscan', hkinds'] at hkinds
  exact (List.append_cancel_right hkinds).symm

end Token

open Token (Written)

/-! ## Reading -/

namespace Expr

variable {source : String}

/-- A text that writes the tokens of a derivation is read as its expression. -/
theorem parse_of_written {d : Grammar.Expression} {s : Expr} (h : Written source d.tokens)
    (htree : d.tree? = some s) : ∃ e, parse source = .ok e ∧ e.bare = s := by
  obtain ⟨us, hus, hkinds⟩ := Token.written_iff_scans.mp h
  obtain ⟨e, hwrites, hbare⟩ := d.exists_writes htree hkinds
  exact ⟨e, parse_eq_ok_iff.mpr ⟨d, us, hus, hwrites⟩, hbare⟩

/-- What is read is the expression of a derivation that writes the tokens of the text. -/
theorem exists_derivation_of_written {ks : List TokenKind} {e : Expr} (h : Written source ks)
    (hparse : parse source = .ok e) :
    ∃ d : Grammar.Expression, d.tokens = ks ∧ d.tree? = some e.bare := by
  obtain ⟨d, us, hus, hwrites⟩ := parse_eq_ok_iff.mp hparse
  obtain ⟨htokens, htree⟩ := d.bare_of_writes hwrites
  exact ⟨d, (Token.written_iff_scans.mpr ⟨us, hus, htokens⟩).unique h, htree⟩

/-! ## Meanings -/

variable (w : Vocabulary)

mutual

/-- Places play no part in what an expression means. -/
theorem meaning?_bare (env : Environment) : ∀ e : Expr, e.bare.meaning? w env = e.meaning? w env
  | .literal _ value => by rw [bare_literal, meaning?, meaning?]
  | .reference _ name => by rw [bare_reference, meaning?, meaning?]
  | .application _ name arguments => by
    rw [bare_application, meaning?, meaning?, meanings?_bare env arguments]
  | .binding _ name value body => by
    rw [bare_binding, meaning?, meaning?, meaning?_bare env value]
    rcases value.meaning? w env with _ | x
    · rfl
    · exact meaning?_bare ((name, x) :: env) body

theorem meanings?_bare (env : Environment) :
    ∀ es : List Expr, meanings? w env (es.map bare) = meanings? w env es
  | [] => rfl
  | e :: rest => by
    rw [List.map_cons, meanings?, meanings?, meaning?_bare env e, meanings?_bare env rest]

end

end Expr

/-! ## Evaluation -/

section

variable {draws : Signal} {markets : List Feeds} {feeds : Feeds} {source : String} {x : Signal}

/-- **A source text evaluates to what its expression means**, and to nothing else. -/
theorem evaluate_eq_ok_iff :
    evaluate (bound draws markets) feeds source = .ok x ↔
      ∃ e, Expr.parse source = .ok e ∧ e.meaning? ((bound draws markets).bind feeds) [] = some x := by
  constructor
  · intro heval
    rcases hcompile : compile (bound draws markets) source with d | p
    · rw [evaluate, hcompile] at heval
      cases heval
    · rcases hparse : Expr.parse source with d | e
      · rw [compile, hparse] at hcompile
        cases hcompile
      · obtain ⟨y, hy, hmeaning⟩ := evaluate_of_compile draws markets feeds hparse hcompile
        rw [hy] at heval
        cases heval
        exact ⟨e, rfl, hmeaning⟩
  · rintro ⟨e, hparse, hmeaning⟩
    obtain ⟨p, hp⟩ := (Program.exists_ofExpr_iff draws markets feeds e).mpr ⟨x, hmeaning⟩
    have hcompile : compile (bound draws markets) source = .ok p := by
      rw [compile, hparse]
      exact hp
    obtain ⟨y, hy, hmeaning'⟩ := evaluate_of_compile draws markets feeds hparse hcompile
    rw [hmeaning, Option.some.injEq] at hmeaning'
    rw [hy, hmeaning']

end

/-! ## Tokens that mean a signal -/

section

variable {w : Vocabulary} {ks : List TokenKind} {x : Signal}

/-- A derivation of an expression writes the tokens, and its expression means the signal. -/
def Means (w : Vocabulary) (ks : List TokenKind) (x : Signal) : Prop :=
  ∃ (d : Grammar.Expression) (s : Expr),
    d.tokens = ks ∧ d.tree? = some s ∧ s.meaning? w [] = some x

/-- The same for tokens that may be an argument. -/
def MeansAtom (w : Vocabulary) (ks : List TokenKind) (x : Signal) : Prop :=
  ∃ (d : Grammar.Atom) (s : Expr), d.tokens = ks ∧ d.tree? = some s ∧ s.meaning? w [] = some x

/-- The tokens of a source text that evaluates to a signal mean it. -/
theorem means_iff_evaluate {draws : Signal} {markets : List Feeds} {feeds : Feeds} {source : String}
    (h : Written source ks) :
    Means ((bound draws markets).bind feeds) ks x ↔
      evaluate (bound draws markets) feeds source = .ok x := by
  rw [evaluate_eq_ok_iff]
  constructor
  · rintro ⟨d, s, rfl, htree, hmeaning⟩
    obtain ⟨e, hparse, rfl⟩ := Expr.parse_of_written h htree
    rw [Expr.meaning?_bare] at hmeaning
    exact ⟨e, hparse, hmeaning⟩
  · rintro ⟨e, hparse, hmeaning⟩
    obtain ⟨d, htokens, htree⟩ := Expr.exists_derivation_of_written h hparse
    rw [← Expr.meaning?_bare] at hmeaning
    exact ⟨d, e.bare, htokens, htree, hmeaning⟩

/-! ## Putting tokens together -/

/-- Tokens in parentheses. -/
def inParentheses (ks : List TokenKind) : List TokenKind := .opening :: (ks ++ [.closing])

/-- A name and its arguments. -/
def applied (name : String) (arguments : List (List TokenKind)) : List TokenKind :=
  .reference name :: arguments.flatten

theorem Means.atom (h : Means w ks x) : MeansAtom w (inParentheses ks) x := by
  obtain ⟨d, s, rfl, htree, hmeaning⟩ := h
  exact ⟨.group d, s, rfl, htree, hmeaning⟩

theorem meansAtom_literal (w : Vocabulary) (value : Float) :
    MeansAtom w [.literal value] (Series.constant value) :=
  ⟨.literal value, .literal Expr.nowhere value, rfl, rfl, by rw [Expr.meaning?]⟩

/-- Arguments mean a signal each. -/
theorem exists_arguments {kss : List (List TokenKind)} {xs : List Signal}
    (h : List.Forall₂ (MeansAtom w) kss xs) (hne : kss ≠ []) :
    ∃ (d : Grammar.Arguments) (es : List Expr),
      d.tokens = kss.flatten ∧ d.trees? = some es ∧ Expr.meanings? w [] es = some xs := by
  induction h with
  | nil => exact absurd rfl hne
  | @cons ks x kss xs hfirst hrest ih =>
    obtain ⟨a, s, rfl, htree, hmeaning⟩ := hfirst
    by_cases hlast : kss = []
    · obtain rfl : xs = [] := by
        rw [hlast] at hrest
        exact List.forall₂_nil_left_iff.mp hrest
      refine ⟨.one a, [s], ?_, ?_, ?_⟩
      · rw [Grammar.Arguments.tokens, hlast, List.flatten_cons, List.flatten_nil, List.append_nil]
      · rw [Grammar.Arguments.trees?, htree]
      · rw [Expr.meanings?, hmeaning, Expr.meanings?]
    · obtain ⟨d, es, htokens, htrees, hmeanings⟩ := ih hlast
      refine ⟨.more a d, s :: es, ?_, ?_, ?_⟩
      · rw [Grammar.Arguments.tokens, htokens, List.flatten_cons]
      · rw [Grammar.Arguments.trees?, htree, htrees]
      · rw [Expr.meanings?, hmeaning, hmeanings]

/-- **An application means what its operation makes of its arguments.** -/
theorem Means.apply {name : String} {operation : Operation} {kss : List (List TokenKind)}
    {xs : List Signal} {y : Signal} (hname : w.operation? name = some operation)
    (h : List.Forall₂ (MeansAtom w) kss xs) (hne : kss ≠ []) (hy : operation.result? xs = some y) :
    Means w (applied name kss) y := by
  obtain ⟨d, es, htokens, htrees, hmeanings⟩ := exists_arguments h hne
  refine ⟨.pipeline (.application (.apply (.reference name) d)),
    .application Expr.nowhere name es, ?_, ?_, ?_⟩
  · rw [Grammar.Expression.tokens, Grammar.Pipeline.tokens, Grammar.Application.tokens,
      Grammar.Atom.tokens, htokens]
    rfl
  · rw [Grammar.Expression.tree?, Grammar.Pipeline.tree?, Grammar.Application.tree?,
      Grammar.Atom.tree?, htrees]
    rfl
  · rw [Expr.meaning?, hname, hmeanings]
    exact hy

theorem Means.unary {name : String} {f : Signal → Signal} (hname : w.operation? name = some (.unary f))
    (hx : MeansAtom w ks x) : Means w (applied name [ks]) (f x) :=
  .apply hname (.cons hx .nil) (List.cons_ne_nil _ _) rfl

theorem Means.binary {name : String} {f : Signal → Signal → Signal} {ks' : List TokenKind}
    {y : Signal} (hname : w.operation? name = some (.binary f)) (hx : MeansAtom w ks x)
    (hy : MeansAtom w ks' y) : Means w (applied name [ks, ks']) (f x y) :=
  .apply hname (.cons hx (.cons hy .nil)) (List.cons_ne_nil _ _) rfl

theorem Means.ternary {name : String} {f : Signal → Signal → Signal → Signal}
    {ks' ks'' : List TokenKind} {y z : Signal} (hname : w.operation? name = some (.ternary f))
    (hx : MeansAtom w ks x) (hy : MeansAtom w ks' y) (hz : MeansAtom w ks'' z) :
    Means w (applied name [ks, ks', ks'']) (f x y z) :=
  .apply hname (.cons hx (.cons hy (.cons hz .nil))) (List.cons_ne_nil _ _) rfl

theorem Means.pointwise {name : String} (f : Float → Float)
    (hname : w.operation? name = some (.pointwise f)) (hx : MeansAtom w ks x) :
    Means w (applied name [ks]) (fun t => f (x t)) :=
  .unary hname hx

theorem Means.pointwise2 {name : String} (f : Float → Float → Float) {ks' : List TokenKind}
    {y : Signal} (hname : w.operation? name = some (.pointwise2 f)) (hx : MeansAtom w ks x)
    (hy : MeansAtom w ks' y) : Means w (applied name [ks, ks']) (fun t => f (x t) (y t)) :=
  .binary hname hx hy

end

end SignalLab
