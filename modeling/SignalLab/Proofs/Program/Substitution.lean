import SignalLab.Proofs.Program.Acceptance

/-!
# A binding is the same as substituting its value

The value of a binding may be written in the place of its name. Two things keep the names of an
expression apart and are respected by `Expr.substitute`: the name may be bound again further inside,
where it is left alone, and the name of an application is no reading of the name. The third is a
condition: no binding that lies between may bind a name that the value reads (`Expr.captures`).

## Shape of the argument

Substituting is compared with reading in an environment. On the way into the body the two
environments agree on all names that the body reads, the substituted one apart, and as long as the
body reads that one, the value still means what it meant outside (`meaning?_substitute`). An
expression that has a meaning is lowered, so the body is accepted with the value in place.
-/

namespace SignalLab

namespace Expr

/-! ## Free names, substitution and capture -/

mutual

/-- Whether a name is read in an expression outside all bindings of it. -/
def hasFree (name : String) : Expr → Bool
  | .literal .. => false
  | .reference _ other => other == name
  | .application _ _ arguments => anyHasFree name arguments
  | .binding _ bound value body => value.hasFree name || (bound != name && body.hasFree name)

/-- Whether a name is read in one of several expressions outside all bindings of it. -/
def anyHasFree (name : String) : List Expr → Bool
  | [] => false
  | e :: rest => e.hasFree name || anyHasFree name rest

end

mutual

/-- Writes a value wherever a name is read in an expression outside all bindings of it. -/
def substitute (name : String) : Expr → Expr → Expr
  | .literal span number, _ => .literal span number
  | .reference span other, value => if other = name then value else .reference span other
  | .application span function arguments, value =>
    .application span function (substituteAll name arguments value)
  | .binding span bound inner body, value =>
    .binding span bound (inner.substitute name value)
      (if bound = name then body else body.substitute name value)

/-- Writes a value for a name in several expressions. -/
def substituteAll (name : String) : List Expr → Expr → List Expr
  | [], _ => []
  | e :: rest, value => e.substitute name value :: substituteAll name rest value

end

mutual

/-- Whether a name is read, outside all bindings of it, in the body of a binding inside an expression
that binds a name which the value reads. -/
def captures (name : String) : Expr → Expr → Bool
  | .literal .., _ | .reference .., _ => false
  | .application _ _ arguments, value => anyCaptures name arguments value
  | .binding _ bound inner body, value =>
    inner.captures name value ||
      (bound != name && (value.hasFree bound && body.hasFree name || body.captures name value))

/-- The same of one of several expressions. -/
def anyCaptures (name : String) : List Expr → Expr → Bool
  | [], _ => false
  | e :: rest, value => e.captures name value || anyCaptures name rest value

end

/-! ## Meanings -/

variable {w : Vocabulary}

mutual

/-- The meaning of an expression depends on the names that are free in it only. -/
theorem meaning?_congr : ∀ (e : Expr) {env env' : Environment},
    (∀ name, e.hasFree name = true → env.read w name = env'.read w name) →
    e.meaning? w env = e.meaning? w env'
  | .literal .., env, env', _ => by rw [meaning?, meaning?]
  | .reference _ name, env, env', h => by
    rw [meaning?, meaning?]
    exact h name (by simp [hasFree])
  | .application _ name arguments, env, env', h => by
    rw [meaning?, meaning?, meanings?_congr arguments fun other hother => h other hother]
  | .binding _ bound value body, env, env', h => by
    have hvalue := meaning?_congr value fun name hname => h name (by simp [hasFree, hname])
    rw [meaning?, meaning?, hvalue]
    split
    · next x _ =>
      refine meaning?_congr body fun name hname => ?_
      rw [Environment.read_cons, Environment.read_cons]
      by_cases hbound : name = bound
      · rw [if_pos hbound, if_pos hbound]
      · rw [if_neg hbound, if_neg hbound]
        exact h name (by simp [hasFree, hname, Ne.symm hbound])
    · rfl

theorem meanings?_congr : ∀ (es : List Expr) {env env' : Environment},
    (∀ name, anyHasFree name es = true → env.read w name = env'.read w name) →
    meanings? w env es = meanings? w env' es
  | [], env, env', _ => by rw [meanings?, meanings?]
  | e :: rest, env, env', h => by
    have hhead := meaning?_congr e fun name hname => h name (by simp [anyHasFree, hname])
    have hrest := meanings?_congr rest fun name hname => h name (by simp [anyHasFree, hname])
    rw [meanings?, meanings?, hhead, hrest]

end

mutual

/-- **Substitution.** An expression with a value written for a name means what it means where the
name means that value. -/
theorem meaning?_substitute {name : String} {value : Expr} : ∀ (e : Expr) {env env' : Environment},
    (∀ other, e.hasFree other = true → other ≠ name → env.read w other = env'.read w other) →
    (e.hasFree name = true → value.meaning? w env = env'.read w name) →
    e.captures name value = false →
    (e.substitute name value).meaning? w env = e.meaning? w env'
  | .literal .., env, env', _, _, _ => by rw [substitute, meaning?, meaning?]
  | .reference span other, env, env', hothers, hname, _ => by
    rw [substitute, meaning?]
    by_cases hother : other = name
    · rw [if_pos hother, hother]
      exact hname (by simp [hasFree, hother])
    · rw [if_neg hother, meaning?]
      exact hothers other (by simp [hasFree]) hother
  | .application _ function arguments, env, env', hothers, hname, hcaptures => by
    rw [substitute, meaning?, meaning?,
      meanings?_substituteAll arguments (fun other hother => hothers other hother)
        (fun hfree => hname hfree) hcaptures]
  | .binding _ bound inner body, env, env', hothers, hname, hcaptures => by
    simp only [captures, Bool.or_eq_false_iff] at hcaptures
    have hinner := meaning?_substitute inner
      (fun other hother => hothers other (by simp [hasFree, hother]))
      (fun hfree => hname (by simp [hasFree, hfree])) hcaptures.1
    rw [substitute, meaning?, meaning?, hinner]
    split
    · next x _ =>
      by_cases hbound : bound = name
      · -- the name means the inner value on both sides, so nothing is written for it here
        rw [if_pos hbound]
        refine meaning?_congr body fun other hother => ?_
        rw [Environment.read_cons, Environment.read_cons]
        by_cases heq : other = bound
        · rw [if_pos heq, if_pos heq]
        · rw [if_neg heq, if_neg heq]
          exact hothers other (by simp [hasFree, hother, Ne.symm heq]) (hbound ▸ heq)
      · rw [if_neg hbound]
        simp only [bne_iff_ne.mpr hbound, Bool.true_and, Bool.or_eq_false_iff] at hcaptures
        obtain ⟨-, hcapture, hcaptures⟩ := hcaptures
        refine meaning?_substitute body (fun other hother hne => ?_) (fun hfree => ?_) hcaptures
        · rw [Environment.read_cons, Environment.read_cons]
          by_cases heq : other = bound
          · rw [if_pos heq, if_pos heq]
          · rw [if_neg heq, if_neg heq]
            exact hothers other (by simp [hasFree, hother, Ne.symm heq]) hne
        · -- the body reads the name, so the value does not read what is bound here
          have hunread : value.hasFree bound = false := by
            rw [hfree, Bool.and_true] at hcapture
            exact hcapture
          rw [Environment.read_cons, if_neg (Ne.symm hbound), ← hname (by simp [hasFree, hfree, hbound])]
          refine meaning?_congr value fun other hother => ?_
          rw [Environment.read_cons, if_neg]
          rintro rfl
          rw [hunread] at hother
          cases hother
    · rfl

theorem meanings?_substituteAll {name : String} {value : Expr} : ∀ (es : List Expr)
    {env env' : Environment},
    (∀ other, anyHasFree other es = true → other ≠ name → env.read w other = env'.read w other) →
    (anyHasFree name es = true → value.meaning? w env = env'.read w name) →
    anyCaptures name es value = false →
    meanings? w env (substituteAll name es value) = meanings? w env' es
  | [], env, env', _, _, _ => by rw [substituteAll, meanings?, meanings?]
  | e :: rest, env, env', hothers, hname, hcaptures => by
    simp only [anyCaptures, Bool.or_eq_false_iff] at hcaptures
    have hhead := meaning?_substitute e
      (fun other hother => hothers other (by simp [anyHasFree, hother]))
      (fun hfree => hname (by simp [anyHasFree, hfree])) hcaptures.1
    have hrest := meanings?_substituteAll rest
      (fun other hother => hothers other (by simp [anyHasFree, hother]))
      (fun hfree => hname (by simp [anyHasFree, hfree])) hcaptures.2
    rw [substituteAll, meanings?, meanings?, hhead, hrest]

end

/-- A binding means what its body means with the value written for the name. -/
theorem meaning?_binding {env : Environment} {span : Span} {name : String} {value body : Expr}
    {x : Signal} (h : (binding span name value body).meaning? w env = some x)
    (hcaptures : body.captures name value = false) :
    (body.substitute name value).meaning? w env = some x := by
  rw [meaning?] at h
  split at h
  · next y hy =>
    rw [← h]
    refine meaning?_substitute body (fun other _ hother => ?_) (fun _ => ?_) hcaptures
    · rw [Environment.read_cons, if_neg hother]
    · rw [Environment.read_cons, if_pos rfl, hy]
  · simp at h

end Expr

namespace Program

open Vocabulary (bound)

/-- **A binding is the same as substituting its value.** If a binding is accepted and no binding
inside its body captures a name that the value reads, the body is accepted with the value written for
the name, and over every market the two programs have the same numbers at every offset. -/
theorem ofExpr_substitute (draws : Signal) (markets : List Feeds) (span : Span) (name : String)
    (value body : Expr) (p : Program)
    (h : ofExpr (bound draws markets) (.binding span name value body) = .ok p)
    (hcaptures : body.captures name value = false) :
    ∃ q, ofExpr (bound draws markets) (body.substitute name value) = .ok q ∧
      ∀ feeds : Feeds, ∃ x y, p.eval ((bound draws markets).bind feeds) = .ok x ∧
        q.eval ((bound draws markets).bind feeds) = .ok y ∧ ∀ t : Offset, x t = y t := by
  obtain ⟨x₀, -, hmeaning₀⟩ := eval_bind_eq_meaning? h Feeds.zeros
  obtain ⟨q, hq⟩ := (exists_ofExpr_iff draws markets Feeds.zeros _).mpr
    ⟨x₀, Expr.meaning?_binding hmeaning₀ hcaptures⟩
  refine ⟨q, hq, fun feeds => ?_⟩
  obtain ⟨x, hx, hmeaning⟩ := eval_bind_eq_meaning? h feeds
  obtain ⟨y, hy, hmeaning'⟩ := eval_bind_eq_meaning? hq feeds
  rw [Expr.meaning?_binding hmeaning hcaptures] at hmeaning'
  exact ⟨x, y, hx, hy, fun t => congrFun (Option.some.inj hmeaning') t⟩

/-- In `let price = neg price in let add = price in add add price` the outer binding hides an input
that its own value reads, and the inner one binds the name of a function that its body applies. -/
theorem ofExpr_substitute_hidingInput :
    let v := bound (Series.constant 0.5) []
    let value : Expr := .application ⟨12, 21⟩ "neg" [.reference ⟨16, 21⟩ "price"]
    let body : Expr := .binding ⟨25, 57⟩ "add" (.reference ⟨35, 40⟩ "price")
      (.application ⟨44, 57⟩ "add" [.reference ⟨48, 51⟩ "add", .reference ⟨52, 57⟩ "price"])
    let p : Program := ⟨#[.reference "price", .reference "volume", .reference "open",
      .reference "close", .reference "high", .reference "low", .reference "time",
      .reference "random", .reference "pi", .reference "e", .apply "neg" [0], .apply "add" [10, 10]]⟩
    ofExpr v (.binding ⟨0, 57⟩ "price" value body) = .ok p ∧ body.captures "price" value = false ∧
      body.substitute "price" value = .binding ⟨25, 57⟩ "add" value
        (.application ⟨44, 57⟩ "add" [.reference ⟨48, 51⟩ "add", value]) ∧
      ∃ q, ofExpr v (body.substitute "price" value) = .ok q ∧
        ∀ feeds : Feeds, ∃ x y, p.eval (v.bind feeds) = .ok x ∧ q.eval (v.bind feeds) = .ok y ∧
          ∀ t : Offset, x t = y t := by
  intro v value body p
  have hlower : ofExpr v (.binding ⟨0, 57⟩ "price" value body) = .ok p := by decide +kernel
  have hcaptures : body.captures "price" value = false := by decide
  refine ⟨hlower, hcaptures, rfl, ?_⟩
  exact ofExpr_substitute (Series.constant 0.5) [] ⟨0, 57⟩ "price" value body p hlower hcaptures

end Program

end SignalLab
