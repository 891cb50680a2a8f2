import SignalLab.Proofs.Program.Simulation

/-!
# Lowering accepts what has a meaning

An expression that is lowered has a meaning (`eval_of_ofExpr`). Conversely an expression that has a
meaning is lowered: every name that means something is in scope, and an operation that has a result
gets as many arguments as it takes. Which market the meaning is asked for makes no difference.
-/

namespace SignalLab

/-! ## Names that mean something -/

namespace Vocabulary

/-- An operation of one vocabulary is that of a function in every vocabulary of the same shape. -/
theorem SameShape.find?_of_operation? {v w : Vocabulary} (h : SameShape v w) {name : String}
    {operation : Operation} (hname : w.operation? name = some operation) :
    ∃ entry, v.find? name = some entry ∧ entry.role = .function ∧ entry.arity = operation.arity := by
  obtain ⟨other, hother, hoperation⟩ := Option.bind_eq_some_iff.mp hname
  have hrole : other.role = .function := by
    rcases hrole : other.role with _ | _
    · rw [Entry.operation?_of_reference hrole] at hoperation
      simp at hoperation
    · rfl
  obtain ⟨operation', hoperation', harity⟩ := Entry.operation?_of_role hrole
  rw [hoperation, Option.some.injEq] at hoperation'
  have hroles := h.role name
  have harities := h.arity name
  rw [hother, Option.map_some] at hroles harities
  obtain ⟨entry, hentry, hsame⟩ := Option.map_eq_some_iff.mp hroles
  rw [hentry, Option.map_some, Option.some.injEq] at harities
  exact ⟨entry, hentry, hsame.trans hrole, by rw [harities, hoperation', harity]⟩

theorem references_bound (draws : Signal) (markets : List Feeds) :
    (bound draws markets).references = referenceNames := by
  rw [(sameShape_bound draws markets).references, references, entries, table_standard]
  rfl

/-- The references are the names that are found to be references. -/
theorem mem_references_bound_iff {draws : Signal} {markets : List Feeds} {name : String} :
    name ∈ (bound draws markets).references ↔
      ∃ entry, (bound draws markets).find? name = some entry ∧ entry.role = .reference := by
  rw [references_eq_filter (nodup_names_bound draws markets), List.mem_filter, decide_eq_true_iff,
    Option.map_eq_some_iff]
  refine and_iff_right_of_imp ?_
  rintro ⟨entry, hentry, -⟩
  -- a name that has an entry has one in the standard vocabulary, and so in the table
  have hrole := (sameShape_bound draws markets).role name
  rw [hentry, Option.map_some] at hrole
  obtain ⟨other, hother, -⟩ := Option.map_eq_some_iff.mp hrole.symm
  rw [find?_standard] at hother
  rw [Table.names, table_bound]
  exact List.mem_map_of_mem (mem_of_lookup hother)

/-- Every name that has a signal is one of the references. -/
theorem mem_references_of_signal? {draws : Signal} {markets : List Feeds} {feeds : Feeds}
    {name : String} {x : Signal} (h : ((bound draws markets).bind feeds).signal? name = some x) :
    name ∈ (bound draws markets).references := by
  rw [references_bound]
  by_contra hname
  have hfeeds : feeds.named.lookup name = none :=
    lookup_eq_none_of_not_mem fun hmem => hname (List.mem_append_left _ hmem)
  have hunfed : (unfed draws).lookup name = none :=
    lookup_eq_none_of_not_mem fun hmem => hname (List.mem_append_right _ hmem)
  rw [signal?_bind_bound, hfeeds, hunfed] at h
  simp at h

end Vocabulary

namespace Program

open Vocabulary (bound)

variable {w : Vocabulary} {env : Environment} {scope : Scope}

/-- Every name that means something is in scope. -/
def Covers (w : Vocabulary) (env : Environment) (scope : Scope) : Prop :=
  ∀ (name : String) (x : Signal), env.read w name = some x → ∃ i, scope.lookup name = some i

theorem Covers.bind (h : Covers w env scope) (name : String) (x : Signal) (i : Nat) :
    Covers w ((name, x) :: env) ((name, i) :: scope) := by
  intro other y hy
  rw [Environment.read_cons] at hy
  rw [lookup_cons_pair]
  by_cases hother : other = name
  · exact ⟨i, if_pos hother⟩
  · rw [if_neg hother] at hy ⊢
    exact h other y hy

/-- Emitting references puts them in scope and leaves what was there. -/
theorem exists_lookup_foldl {name : String} {names : List String} {p : Program} :
    (∃ i, (names.foldl emitReference (p, scope)).2.lookup name = some i) ↔
      name ∈ names ∨ ∃ i, scope.lookup name = some i := by
  induction names generalizing p scope with
  | nil => simp
  | cons first rest ih =>
    rw [List.foldl_cons, emitReference, ih, lookup_cons_pair, List.mem_cons]
    by_cases hfirst : name = first
    · simp [hfirst]
    · rw [if_neg hfirst, or_iff_right hfirst]

/-- The references that were emitted are in scope, and nothing else is. -/
theorem exists_lookup_emitReferences {names : List String} {name : String} :
    (∃ i, (emitReferences names).2.lookup name = some i) ↔ name ∈ names := by
  rw [emitReferences_eq_foldl, exists_lookup_foldl]
  simp

/-! ## Lowering -/

mutual

/-- **An expression that has a meaning is lowered.** -/
theorem lowerInto_of_meaning? {v w : Vocabulary} (hshape : v.SameShape w) : ∀ (e : Expr)
    {env : Environment} {scope : Scope} (p : Program) {x : Signal}, Covers w env scope →
    e.meaning? w env = some x → ∃ q i, lowerInto v scope p e = .ok (q, i)
  | .literal _ value, env, scope, p, x, _, _ => by
    rw [lowerInto]
    exact ⟨_, _, rfl⟩
  | .reference _ name, env, scope, p, x, hcovers, hx => by
    rw [Expr.meaning?] at hx
    obtain ⟨i, hi⟩ := hcovers name x hx
    rw [lowerInto, hi]
    exact ⟨p, i, rfl⟩
  | .application span name arguments, env, scope, p, x, hcovers, hx => by
    rw [Expr.meaning?] at hx
    split at hx
    · next operation xs hname hxs =>
      -- the operation has a result, so there are as many arguments as it takes
      have hlength : xs.length = operation.arity :=
        (operation.result?_isSome xs).mp (Option.isSome_of_eq_some hx)
      obtain ⟨entry, hentry, hrole, harity⟩ := hshape.find?_of_operation? hname
      have hcount : arguments.length = entry.arity := by
        rw [← Expr.length_of_meanings? hxs, hlength, harity]
      have hfault : applicationFault? v span name arguments.length = none :=
        applicationFault?_eq_none.mpr ⟨entry, hentry, hrole, hcount⟩
      obtain ⟨q, operands, hlower⟩ := lowerAll_of_meanings? hshape arguments p hcovers hxs
      rw [lowerInto, hfault]
      dsimp only
      rw [hlower]
      exact ⟨_, _, rfl⟩
    · simp at hx
  | .binding _ name value body, env, scope, p, x, hcovers, hx => by
    rw [Expr.meaning?] at hx
    split at hx
    · next y hy =>
      obtain ⟨q, i, hvalue⟩ := lowerInto_of_meaning? hshape value p hcovers hy
      rw [lowerInto, hvalue]
      exact lowerInto_of_meaning? hshape body q (hcovers.bind name y i) hx
    · simp at hx

/-- The same for several expressions. -/
theorem lowerAll_of_meanings? {v w : Vocabulary} (hshape : v.SameShape w) : ∀ (es : List Expr)
    {env : Environment} {scope : Scope} (p : Program) {xs : List Signal}, Covers w env scope →
    Expr.meanings? w env es = some xs → ∃ q indices, lowerAll v scope p es = .ok (q, indices)
  | [], env, scope, p, xs, _, _ => by
    rw [lowerAll]
    exact ⟨_, _, rfl⟩
  | e :: rest, env, scope, p, xs, hcovers, hxs => by
    rw [Expr.meanings?] at hxs
    split at hxs
    · next y ys hy hys =>
      obtain ⟨q, i, he⟩ := lowerInto_of_meaning? hshape e p hcovers hy
      obtain ⟨r, indices, hrest⟩ := lowerAll_of_meanings? hshape rest q hcovers hys
      rw [lowerAll, he]
      dsimp only
      rw [hrest]
      exact ⟨_, _, rfl⟩
    · simp at hxs

end

/-! ## Whole programs -/

/-- What is lowered evaluates over every market to its meaning. -/
theorem eval_bind_eq_meaning? {draws : Signal} {markets : List Feeds} {e : Expr} {p : Program}
    (h : ofExpr (bound draws markets) e = .ok p) (feeds : Feeds) :
    ∃ x, p.eval ((bound draws markets).bind feeds) = .ok x ∧
      e.meaning? ((bound draws markets).bind feeds) [] = some x := by
  have hnames := Vocabulary.nodup_names_bound draws markets
  have hshape := (Vocabulary.SameShape.bind hnames feeds).symm
  exact (eval_of_ofExpr hshape (by rw [Vocabulary.table_bind]; exact hnames) h).2

/-- **Lowering accepts exactly the expressions that have a meaning**, over whichever market. -/
theorem exists_ofExpr_iff (draws : Signal) (markets : List Feeds) (feeds : Feeds) (e : Expr) :
    (∃ p, ofExpr (bound draws markets) e = .ok p) ↔
      ∃ x, e.meaning? ((bound draws markets).bind feeds) [] = some x := by
  constructor
  · rintro ⟨p, hp⟩
    obtain ⟨x, -, hx⟩ := eval_bind_eq_meaning? hp feeds
    exact ⟨x, hx⟩
  · rintro ⟨x, hx⟩
    have hnames := Vocabulary.nodup_names_bound draws markets
    have hshape := (Vocabulary.SameShape.bind hnames feeds).symm
    have hcovers : Covers ((bound draws markets).bind feeds) []
        (emitReferences (bound draws markets).references).2 := by
      intro name y hname
      rw [Environment.read, List.lookup_nil, Option.none_or] at hname
      exact exists_lookup_emitReferences.mpr (Vocabulary.mem_references_of_signal? hname)
    obtain ⟨q, i, hlower⟩ := lowerInto_of_meaning? hshape e
      (emitReferences (bound draws markets).references).1 hcovers hx
    rw [ofExpr]
    dsimp only
    rw [hlower]
    exact ⟨_, rfl⟩

end Program

end SignalLab
