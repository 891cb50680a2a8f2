import SignalLab.Proofs.First
import SignalLab.Proofs.Program.Acceptance

/-!
# Lowering reports the first violation

What can be wrong with a node of an expression is told by the names that are in scope there and by
the vocabulary (`Violates`). Names are looked up in two places: a reference where it is bound or
among the references of the vocabulary, the name of an application in the vocabulary only. Lowering
reports the first violation in the order in which it comes past the nodes, and no other
(`ofExpr_reports_first_violation`).

## Shape of the argument

An answer of lowering fits the nodes it came past if it is a failure with their first violation, or
a success and there is none (`Fits`). Each step of lowering comes past nodes behind those that are
in order. The names in scope are at every node those that are bound there and the references of the
vocabulary (`InScope`), because a scope is left with the body it was made for.
-/

namespace SignalLab

/-- A node of an expression, with the names that the bindings around it bring into scope. -/
abbrev Visit := List String × Expr

mutual

/-- The nodes of an expression in the order in which they are checked: an application, then its
arguments from left to right; the value of a binding, then its body, where its name is bound. There
is nothing to check about a binding itself. -/
def Expr.visits (bound : List String) : Expr → List Visit
  | .literal span value => [(bound, .literal span value)]
  | .reference span name => [(bound, .reference span name)]
  | .application span name arguments =>
    (bound, .application span name arguments) :: Expr.visitsAll bound arguments
  | .binding _ name value body => value.visits bound ++ body.visits (name :: bound)

/-- The nodes of several expressions, one after the other. -/
def Expr.visitsAll (bound : List String) : List Expr → List Visit
  | [] => []
  | e :: rest => e.visits bound ++ Expr.visitsAll bound rest

end

/-- What is wrong with a node: a name that nothing binds, a function that is not there, and an
application of a name that is no function or takes another number of arguments. -/
inductive Violates (v : Vocabulary) : Visit → Diagnostic → Prop
  /-- A name has to be bound around it or be a reference of the vocabulary. -/
  | unbound {bound : List String} {span : Span} {name : String} (hbound : name ∉ bound)
      (hreference : ¬ ∃ entry, v.find? name = some entry ∧ entry.role = .reference) :
      Violates v (bound, .reference span name) (.reference name span)
  /-- No binding makes a function of a name. -/
  | unknown {bound : List String} {span : Span} {name : String} {arguments : List Expr}
      (hname : v.find? name = none) :
      Violates v (bound, .application span name arguments) (.reference name span)
  | misapplied {bound : List String} {span : Span} {name : String} {arguments : List Expr}
      {entry : Entry} (hname : v.find? name = some entry)
      (hentry : entry.role = .reference ∨
        entry.role = .function ∧ arguments.length ≠ entry.arity) :
      Violates v (bound, .application span name arguments)
        (.application name entry.arity arguments.length span)

variable {v : Vocabulary} {bound : List String} {d d' : Diagnostic}

/-! ## What is wrong with a node -/

/-- Only one thing can be wrong with a node. -/
theorem Violates.unique {visit : Visit} (h : Violates v visit d) (h' : Violates v visit d') :
    d = d' := by
  cases h with
  | unbound hbound hreference =>
    cases h'
    rfl
  | unknown hname =>
    cases h' with
    | unknown => rfl
    | misapplied hname' => rw [hname] at hname'; cases hname'
  | misapplied hname =>
    cases h' with
    | unknown hname' => rw [hname] at hname'; cases hname'
    | misapplied hname' =>
      rw [hname] at hname'
      rw [Option.some.inj hname']

theorem violates_reference_iff {span : Span} {name : String} :
    Violates v (bound, .reference span name) d ↔
      ¬ (name ∈ bound ∨ ∃ entry, v.find? name = some entry ∧ entry.role = .reference) ∧
        d = .reference name span := by
  constructor
  · rintro ⟨hbound, hreference⟩
    exact ⟨not_or.mpr ⟨hbound, hreference⟩, rfl⟩
  · rintro ⟨hname, rfl⟩
    exact .unbound (not_or.mp hname).1 (not_or.mp hname).2

/-- An application is checked for what can be wrong with it. -/
theorem violates_application_iff {span : Span} {name : String} {arguments : List Expr} :
    Violates v (bound, .application span name arguments) d ↔
      Program.applicationFault? v span name arguments.length = some d := by
  rw [Program.applicationFault?]
  constructor
  · intro h
    cases h with
    | unknown hname => rw [hname]
    | misapplied hname hentry =>
      rw [hname]
      dsimp only
      rw [if_neg]
      rintro ⟨hrole, hcount⟩
      rcases hentry with hreference | ⟨-, hne⟩
      · rw [hrole] at hreference
        cases hreference
      · exact hne hcount
  · intro h
    split at h
    · next hname =>
      cases h
      exact .unknown hname
    · next entry hname =>
      split at h
      · cases h
      · next hwrong =>
        cases h
        refine .misapplied hname ?_
        rcases hrole : entry.role with _ | _
        · exact .inl rfl
        · exact .inr ⟨rfl, fun hcount => hwrong ⟨hrole, hcount⟩⟩

/-! ## Names in scope -/

namespace Program

/-- The names in scope are those that are bound and the references of the vocabulary. -/
def InScope (v : Vocabulary) (bound : List String) (scope : Scope) : Prop :=
  ∀ name : String, (∃ i, scope.lookup name = some i) ↔
    name ∈ bound ∨ ∃ entry, v.find? name = some entry ∧ entry.role = .reference

/-- A binding adds its name. -/
theorem InScope.bind {scope : Scope} (h : InScope v bound scope) (name : String) (i : Nat) :
    InScope v (name :: bound) ((name, i) :: scope) := by
  intro other
  rw [lookup_cons_pair, List.mem_cons]
  by_cases hother : other = name
  · rw [if_pos hother]
    exact ⟨fun _ => .inl (.inl hother), fun _ => ⟨i, rfl⟩⟩
  · rw [if_neg hother, h other, or_iff_right hother]

/-- Where an expression is lowered, the references of the vocabulary are in scope. -/
theorem inScope_emitReferences (draws : Signal) (markets : List Feeds) :
    InScope (Vocabulary.bound draws markets) []
      (emitReferences (Vocabulary.bound draws markets).references).2 := by
  intro name
  rw [exists_lookup_emitReferences, Vocabulary.mem_references_bound_iff]
  exact (or_iff_right List.not_mem_nil).symm

/-! ## Lowering -/

mutual

/-- **Lowering an expression reports the first violation** in it, whatever was emitted before. -/
theorem lowerInto_fits : ∀ (e : Expr) {bound : List String} {scope : Scope} (p : Program),
    InScope v bound scope → Fits (Violates v) (e.visits bound) (lowerInto v scope p e)
  | .literal span value, bound, scope, p, _ => by
    rw [lowerInto, Expr.visits]
    exact clean_singleton_iff.mpr nofun
  | .reference span name, bound, scope, p, hscope => by
    rw [lowerInto, Expr.visits]
    rcases hlookup : scope.lookup name with _ | i
    · refine First.here (violates_reference_iff.mpr ⟨fun hname => ?_, rfl⟩) _
      obtain ⟨i, hi⟩ := (hscope name).mpr hname
      rw [hlookup] at hi
      cases hi
    · refine clean_singleton_iff.mpr fun d hviolates => ?_
      exact (violates_reference_iff.mp hviolates).1 ((hscope name).mp ⟨i, hlookup⟩)
  | .application span name arguments, bound, scope, p, hscope => by
    rw [lowerInto, Expr.visits]
    rcases hfault : applicationFault? v span name arguments.length with _ | d
    · have hclean : Clean (Violates v) [(bound, .application span name arguments)] := by
        refine clean_singleton_iff.mpr fun d hviolates => ?_
        rw [violates_application_iff, hfault] at hviolates
        cases hviolates
      have harguments := lowerAll_fits arguments p hscope
      dsimp only
      generalize lowerAll v scope p arguments = answer at harguments ⊢
      rcases answer with d | lowered <;> exact Fits.behind harguments hclean
    · exact First.here (violates_application_iff.mpr hfault) _
  | .binding _ name value body, bound, scope, p, hscope => by
    rw [lowerInto, Expr.visits]
    have hvalue := lowerInto_fits value p hscope
    generalize lowerInto v scope p value = answer at hvalue ⊢
    rcases answer with d | ⟨q, i⟩
    · exact First.append hvalue _
    · -- the scope of the body is that of the binding and its name
      exact (lowerInto_fits body q (hscope.bind name i)).behind hvalue

/-- Lowering several expressions reports the first violation in any of them. -/
theorem lowerAll_fits : ∀ (es : List Expr) {bound : List String} {scope : Scope} (p : Program),
    InScope v bound scope → Fits (Violates v) (Expr.visitsAll bound es) (lowerAll v scope p es)
  | [], bound, scope, p, _ => by
    rw [lowerAll, Expr.visitsAll]
    exact Clean.nil
  | e :: rest, bound, scope, p, hscope => by
    rw [lowerAll, Expr.visitsAll]
    have he := lowerInto_fits e p hscope
    generalize lowerInto v scope p e = answer at he ⊢
    rcases answer with d | ⟨q, i⟩
    · exact First.append he _
    · have hrest := lowerAll_fits rest q hscope
      dsimp only
      generalize lowerAll v scope q rest = answer at hrest ⊢
      rcases answer with d | lowered <;> exact Fits.behind hrest he

end

/-- **Lowering reports exactly the first violation**, with every vocabulary that binding markets
leads to, and it succeeds exactly when there is none. -/
theorem ofExpr_reports_first_violation (draws : Signal) (markets : List Feeds) (e : Expr) :
    (∀ d, ofExpr (Vocabulary.bound draws markets) e = .error d ↔
      First (Violates (Vocabulary.bound draws markets)) (e.visits []) d) ∧
    ((∃ p, ofExpr (Vocabulary.bound draws markets) e = .ok p) ↔
      Clean (Violates (Vocabulary.bound draws markets)) (e.visits [])) := by
  have hfits : Fits (Violates (Vocabulary.bound draws markets)) (e.visits [])
      (ofExpr (Vocabulary.bound draws markets) e) := by
    have hlower := lowerInto_fits e
      (emitReferences (Vocabulary.bound draws markets).references).1
      (inScope_emitReferences draws markets)
    rw [ofExpr]
    dsimp only
    generalize lowerInto _ _ _ e = answer at hlower ⊢
    rcases answer with d | lowered <;> exact hlower
  exact ⟨fun d => hfits.error_iff fun _ _ _ => Violates.unique, hfits.ok_iff⟩

/-- The number of arguments comes before what is wrong with an argument. -/
example : ofExpr (Vocabulary.standard (Series.constant 0.5))
    (.application ⟨0, 8⟩ "add" [.reference ⟨4, 8⟩ "nope"]) =
      .error (.application "add" 2 1 ⟨0, 8⟩) := by
  decide +kernel

end Program

end SignalLab
