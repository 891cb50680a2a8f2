import SignalLab.Proofs.Expr.Meaning
import SignalLab.Proofs.Vocabulary.LookBack

/-!
# Two readings of one expression

The signals that an expression means in two vocabularies are compared at pairs of offsets. An
`Alignment` says which pairs of offsets are compared, for every depth of nesting of functions that
look back: stepping back by at most `maxWindow` on both sides uses up one level.

## Shape of the argument

Signals are `Related` at a depth if they agree at all pairs that are aligned at it. The references
of the two vocabularies are related at depth zero. A function that looks back raises the depth by
one, and a name that is bound has the depth of its value, so the two meanings of an expression are
related at its `lookBackDepth` (`related_meaning?`). Nothing is said of references that an
expression does not mention.
-/

namespace SignalLab

namespace Expr

/-! ## Depth and mention -/

mutual

/-- How many functions that look back are nested in one another, at most, given the depths of the
names that are bound around an expression. A binding counts where its name is used. -/
def lookBackDepth (depths : List (String × Nat)) : Expr → Nat
  | .literal .. => 0
  | .reference _ name => (depths.lookup name).getD 0
  | .application _ name arguments =>
    (if name ∈ Rolling.names then 1 else 0) + lookBackDepthAll depths arguments
  | .binding _ name value body => body.lookBackDepth ((name, value.lookBackDepth depths) :: depths)

/-- The greatest depth of several expressions. -/
def lookBackDepthAll (depths : List (String × Nat)) : List Expr → Nat
  | [] => 0
  | e :: rest => max (e.lookBackDepth depths) (lookBackDepthAll depths rest)

end

mutual

/-- Whether a name is read anywhere in an expression, be it bound there or not. -/
def mentions (name : String) : Expr → Bool
  | .literal .. => false
  | .reference _ other => other == name
  | .application _ _ arguments => mentionsAny name arguments
  | .binding _ _ value body => value.mentions name || body.mentions name

/-- Whether a name is read in any of several expressions. -/
def mentionsAny (name : String) : List Expr → Bool
  | [] => false
  | e :: rest => e.mentions name || mentionsAny name rest

end

end Expr

/-! ## Aligned offsets and related signals -/

/-- The pairs of offsets at which signals of a depth are compared. -/
structure Alignment where
  holds : Nat → Offset → Offset → Prop
  /-- One level pays for one step back of at most `maxWindow`. -/
  back : ∀ {depth : Nat} {s t : Offset}, holds (depth + 1) s t →
    ∀ j ≤ maxWindow, holds depth (s.back j) (t.back j)

namespace Alignment

variable {a : Alignment} {depth : Nat} {s t : Offset}

theorem lower (h : a.holds (depth + 1) s t) : a.holds depth s t := by
  have := a.back h 0 (Nat.zero_le _)
  rwa [Offset.back_zero, Offset.back_zero] at this

theorem lower_le (h : a.holds depth s t) {d : Nat} (hd : d ≤ depth) : a.holds d s t := by
  induction depth with
  | zero => rwa [Nat.le_zero.mp hd]
  | succ depth ih =>
    rcases Nat.le_succ_iff.mp hd with hle | heq
    · exact ih (lower h) hle
    · rwa [heq]

/-- Two signals agree at all offsets that are aligned at a depth. -/
def Related (a : Alignment) (depth : Nat) (x y : Signal) : Prop :=
  ∀ s t, a.holds depth s t → x s = y t

theorem Related.mono {d : Nat} {x y : Signal} (h : a.Related d x y) (hd : d ≤ depth) :
    a.Related depth x y :=
  fun s t hst => h s t (lower_le hst hd)

theorem related_constant (a : Alignment) (depth : Nat) (value : Float) :
    a.Related depth (Series.constant value) (Series.constant value) :=
  fun _ _ _ => rfl

/-- Related signals agree as far back as the function of a name looks, one level deeper if it looks
back at all. -/
theorem Related.agreeBehind {x y : Signal} (h : a.Related depth x y) {name : String}
    (hst : a.holds ((if name ∈ Rolling.names then 1 else 0) + depth) s t) :
    Series.AgreeBehind (lookBack name) x s y t := by
  unfold lookBack
  by_cases hname : name ∈ Rolling.names
  · rw [if_pos hname, Nat.add_comm] at hst
    rw [if_pos hname]
    intro j hj
    exact h _ _ (a.back hst j hj)
  · rw [if_neg hname, Nat.zero_add] at hst
    rw [if_neg hname]
    exact Series.AgreeBehind.of_eq (h s t hst)

/-- Two environments bind the same names to signals that are related at the depths given. -/
inductive Environments (a : Alignment) : List (String × Nat) → Environment → Environment → Prop
  | nil : Environments a [] [] []
  | cons {name : String} {depth : Nat} {x y : Signal} {depths : List (String × Nat)}
      {env env' : Environment} : a.Related depth x y → Environments a depths env env' →
      Environments a ((name, depth) :: depths) ((name, x) :: env) ((name, y) :: env')

/-- Two vocabularies have the same operations, which look back by at most `lookBack`, and signals
that are related at depth zero under every name but the hidden ones. -/
structure Vocabularies (a : Alignment) (hidden : List String) (v w : Vocabulary) : Prop where
  operation? : ∀ name, v.operation? name = w.operation? name
  looksBack : ∀ {name operation}, v.operation? name = some operation →
    operation.LooksBack (lookBack name)
  related : ∀ {name x y}, name ∉ hidden → v.signal? name = some x → w.signal? name = some y →
    a.Related 0 x y

variable {hidden : List String} {v w : Vocabulary}

/-- What a name means on the two sides is related at the depth of the name. -/
theorem Environments.read {depths : List (String × Nat)} {env env' : Environment}
    (henv : a.Environments depths env env') (h : a.Vocabularies hidden v w) {name : String}
    (hname : name ∉ hidden) {x y : Signal} (hx : env.read v name = some x)
    (hy : env'.read w name = some y) : a.Related ((depths.lookup name).getD 0) x y := by
  induction henv with
  | nil => exact h.related hname hx hy
  | @cons bound depth x' y' depths env env' hvalue _ ih =>
    rw [Environment.read_cons] at hx hy
    rw [lookup_cons_pair]
    by_cases hbound : name = bound
    · rw [if_pos hbound] at hx hy ⊢
      rw [← Option.some.inj hx, ← Option.some.inj hy]
      exact hvalue
    · rw [if_neg hbound] at hx hy ⊢
      exact ih hx hy

/-! ## Meanings -/

/-- An operation makes related signals from related signals, one level deeper if it looks back. -/
theorem Vocabularies.related_result? (h : a.Vocabularies hidden v w) {name : String}
    {operation : Operation} (hop : v.operation? name = some operation) {xs ys : List Signal}
    (hargs : List.Forall₂ (a.Related depth) xs ys) {x y : Signal}
    (hx : operation.result? xs = some x) (hy : operation.result? ys = some y) :
    a.Related ((if name ∈ Rolling.names then 1 else 0) + depth) x y := by
  intro s t hst
  exact h.looksBack hop (hargs.imp fun _ _ hrel => hrel.agreeBehind hst) hx hy

mutual

/-- **The two meanings of an expression are related at its depth** if it mentions no hidden name. -/
theorem related_meaning? (h : a.Vocabularies hidden v w) : ∀ (e : Expr)
    {depths : List (String × Nat)} {env env' : Environment} {x y : Signal},
    a.Environments depths env env' → (∀ name ∈ hidden, e.mentions name = false) →
    e.meaning? v env = some x → e.meaning? w env' = some y →
    a.Related (e.lookBackDepth depths) x y
  | .literal _ value, depths, env, env', x, y, _, _, hx, hy => by
    rw [Expr.meaning?] at hx hy
    rw [← Option.some.inj hx, ← Option.some.inj hy]
    exact related_constant a _ value
  | .reference _ name, depths, env, env', x, y, henv, hhidden, hx, hy => by
    rw [Expr.meaning?] at hx hy
    rw [Expr.lookBackDepth]
    have hname : name ∉ hidden := by
      intro hmem
      have := hhidden name hmem
      simp [Expr.mentions] at this
    exact henv.read h hname hx hy
  | .application _ name arguments, depths, env, env', x, y, henv, hhidden, hx, hy => by
    rw [Expr.meaning?] at hx hy
    rw [Expr.lookBackDepth]
    split at hx
    · next operation xs hop hxs =>
      rw [← h.operation? name, hop] at hy
      split at hy
      · next other ys hother hys =>
        cases hother
        -- the operation is the same on both sides, and its arguments are related one level up
        have hargs := related_meanings? h arguments henv
          (fun hidden' hmem => by simpa [Expr.mentions] using hhidden hidden' hmem) hxs hys
        exact h.related_result? hop hargs hx hy
      · simp at hy
    · simp at hx
  | .binding _ name value body, depths, env, env', x, y, henv, hhidden, hx, hy => by
    rw [Expr.meaning?] at hx hy
    rw [Expr.lookBackDepth]
    simp only [Expr.mentions, Bool.or_eq_false_iff] at hhidden
    split at hx
    · next u hu =>
      split at hy
      · next u' hu' =>
        -- the name keeps the depth of its value until the body reads it
        have hvalue := related_meaning? h value henv (fun _ hmem => (hhidden _ hmem).1) hu hu'
        exact related_meaning? h body (henv.cons hvalue) (fun _ hmem => (hhidden _ hmem).2) hx hy
      · simp at hy
    · simp at hx

/-- The same for several expressions, at the greatest of their depths. -/
theorem related_meanings? (h : a.Vocabularies hidden v w) : ∀ (es : List Expr)
    {depths : List (String × Nat)} {env env' : Environment} {xs ys : List Signal},
    a.Environments depths env env' → (∀ name ∈ hidden, Expr.mentionsAny name es = false) →
    Expr.meanings? v env es = some xs → Expr.meanings? w env' es = some ys →
    List.Forall₂ (a.Related (Expr.lookBackDepthAll depths es)) xs ys
  | [], depths, env, env', xs, ys, _, _, hx, hy => by
    rw [Expr.meanings?] at hx hy
    rw [← Option.some.inj hx, ← Option.some.inj hy]
    exact List.Forall₂.nil
  | e :: rest, depths, env, env', xs, ys, henv, hhidden, hx, hy => by
    rw [Expr.meanings?] at hx hy
    rw [Expr.lookBackDepthAll]
    simp only [Expr.mentionsAny, Bool.or_eq_false_iff] at hhidden
    split at hx
    · next x xs' hx' hxs =>
      split at hy
      · next y ys' hy' hys =>
        cases hx
        cases hy
        have hhead := related_meaning? h e henv (fun _ hmem => (hhidden _ hmem).1) hx' hy'
        have hrest := related_meanings? h rest henv (fun _ hmem => (hhidden _ hmem).2) hxs hys
        -- every argument is compared at the depth of the deepest one
        refine List.Forall₂.cons (hhead.mono (Nat.le_max_left _ _)) ?_
        exact hrest.imp fun _ _ hrel => hrel.mono (Nat.le_max_right _ _)
      · simp at hy
    · simp at hx

end

end Alignment

end SignalLab
