import SignalLab.Proofs.Grammar.Derivation

/-!
# Reading the grammar one token at a time

A sentence is what a derivation writes, followed by the end of the text, provided that only names
are applied in it (`AppliesNames`). What is piped into is not looked at: a sentence may pipe into
anything. Tokens are viable if a sentence begins with them.

`advance` takes one token after the other and keeps, besides the phase of the expression it is in, a
stack of what is still open around it. It is stuck as soon as no rule of the grammar goes on. It is
never stuck within a sentence (`Expression.leads`), so tokens at which it is stuck are not viable
(`Stuck.not_viable`).

Nothing a derivation does depends on what is open around it. The statements are therefore about the
phases that tokens lead from and to (`Leads`) and hold for every stack.
-/

namespace SignalLab.Grammar

/-! ## Sentences -/

/-- Whether a name and nothing else is built. -/
def buildsName : Option Expr → Bool
  | some (.reference _ _) => true
  | _ => false

theorem buildsName_iff {tree : Option Expr} :
    buildsName tree = true ↔ ∃ span name, tree = some (.reference span name) := by
  rcases tree with _ | (_ | _ | _ | _) <;> simp [buildsName]

mutual

/-- Every atom that is applied to arguments within an expression builds a reference. -/
def Expression.AppliesNames : Expression → Prop
  | .binding _ value body => value.AppliesNames ∧ body.AppliesNames
  | .pipeline p => p.AppliesNames

/-- The same within a pipeline; what stands to the right of a pipe may build anything. -/
def Pipeline.AppliesNames : Pipeline → Prop
  | .application a => a.AppliesNames
  | .pipe left right => left.AppliesNames ∧ right.AppliesNames

/-- The same within an application, whose head has to build a reference if there are arguments. -/
def Application.AppliesNames : Application → Prop
  | .atom a => a.AppliesNames
  | .apply head arguments =>
    head.AppliesNames ∧ (∃ span name, head.tree? = some (.reference span name)) ∧
      arguments.AppliesNames

/-- The same within arguments. -/
def Arguments.AppliesNames : Arguments → Prop
  | .one a => a.AppliesNames
  | .more a rest => a.AppliesNames ∧ rest.AppliesNames

/-- The same within an atom. -/
def Atom.AppliesNames : Atom → Prop
  | .literal _ | .reference _ => True
  | .group e => e.AppliesNames

end

/-- The tokens of a whole program, whose pipes may lead into anything. -/
def Sentence (ts : List TokenKind) : Prop :=
  ∃ d : Expression, d.AppliesNames ∧ ts = d.tokens ++ [.eof]

/-- Tokens with which some sentence begins. -/
def Viable (ts : List TokenKind) : Prop := ∃ s, Sentence s ∧ ts <+: s

mutual

/-- A derivation that builds an expression applies names only. -/
theorem Expression.appliesNames_of_tree? : ∀ (d : Expression) {s : Expr}, d.tree? = some s →
    d.AppliesNames
  | .binding name value body, s, h => by
    rw [Expression.tree?] at h
    rw [Expression.AppliesNames]
    split at h
    · next hvalue hbody =>
      exact ⟨value.appliesNames_of_tree? hvalue, body.appliesNames_of_tree? hbody⟩
    · cases h
  | .pipeline p, s, h => by
    rw [Expression.tree?] at h
    rw [Expression.AppliesNames]
    exact p.appliesNames_of_tree? h

theorem Pipeline.appliesNames_of_tree? : ∀ (d : Pipeline) {s : Expr}, d.tree? = some s →
    d.AppliesNames
  | .application a, s, h => by
    rw [Pipeline.tree?] at h
    rw [Pipeline.AppliesNames]
    exact a.appliesNames_of_tree? h
  | .pipe left right, s, h => by
    rw [Pipeline.tree?] at h
    rw [Pipeline.AppliesNames]
    split at h
    · next hleft hright =>
      exact ⟨left.appliesNames_of_tree? hleft, right.appliesNames_of_tree? hright⟩
    · cases h

theorem Application.appliesNames_of_tree? : ∀ (d : Application) {s : Expr}, d.tree? = some s →
    d.AppliesNames
  | .atom a, s, h => by
    rw [Application.tree?] at h
    rw [Application.AppliesNames]
    exact a.appliesNames_of_tree? h
  | .apply head arguments, s, h => by
    rw [Application.tree?] at h
    rw [Application.AppliesNames]
    split at h
    · next hhead harguments =>
      obtain ⟨span, name, rfl, -⟩ := applied?_eq_some h
      exact ⟨head.appliesNames_of_tree? hhead, ⟨span, name, hhead⟩,
        arguments.appliesNames_of_trees? harguments⟩
    · cases h

theorem Arguments.appliesNames_of_trees? : ∀ (d : Arguments) {ss : List Expr}, d.trees? = some ss →
    d.AppliesNames
  | .one a, ss, h => by
    rw [Arguments.trees?] at h
    rw [Arguments.AppliesNames]
    split at h
    · next ha => exact a.appliesNames_of_tree? ha
    · cases h
  | .more a rest, ss, h => by
    rw [Arguments.trees?] at h
    rw [Arguments.AppliesNames]
    split at h
    · next ha hrest => exact ⟨a.appliesNames_of_tree? ha, rest.appliesNames_of_trees? hrest⟩
    · cases h

theorem Atom.appliesNames_of_tree? : ∀ (d : Atom) {s : Expr}, d.tree? = some s → d.AppliesNames
  | .literal value, _, _ => by
    rw [Atom.AppliesNames]
    trivial
  | .reference name, _, _ => by
    rw [Atom.AppliesNames]
    trivial
  | .group e, s, h => by
    rw [Atom.tree?] at h
    rw [Atom.AppliesNames]
    exact e.appliesNames_of_tree? h

end

/-! ## One token at a time -/

/-- What is open around the expression that is being read. -/
inductive Pending
  /-- A parenthesis in the place of a head. With `sole` the expression around it is, so far, only
  this parenthesis, so that it is a name if what stands in parentheses is one. -/
  | head (sole : Bool)
  /-- A parenthesis in the place of an argument. -/
  | argument
  /-- The value of a binding. -/
  | value

/-- Where in an expression a reader is. -/
inductive Phase
  /-- An application is to come, or also a binding if `binds`. With `sole` nothing of the expression
  has been read. -/
  | start (binds sole : Bool)
  /-- Behind the word that begins a binding. -/
  | afterLet
  /-- Behind the name of a binding. -/
  | afterName
  /-- Behind an application, which takes further arguments if `more`. With `alone` the expression is,
  so far, a name and nothing else. -/
  | behind (more alone : Bool)
  /-- Behind the end of the text. -/
  | finished

/-- What is open, the innermost first, and the phase of the innermost expression. -/
abbrev Reader := List Pending × Phase

/-- A reader takes one token, if the grammar has a place for it. -/
def advance : Reader → TokenKind → Option Reader
  | (pending, .start binds sole), kind =>
    match kind with
    | .literal _ => some (pending, .behind false false)
    | .reference _ => some (pending, .behind true sole)
    | .opening => some (.head sole :: pending, .start true true)
    | .letWord => if binds then some (pending, .afterLet) else none
    | _ => none
  | (pending, .afterLet), .reference _ => some (pending, .afterName)
  | (pending, .afterName), .equals => some (.value :: pending, .start true false)
  | (pending, .behind more alone), kind =>
    match kind, pending with
    | .pipe, pending => some (pending, .start false false)
    | .literal _, pending | .reference _, pending =>
      if more then some (pending, .behind true false) else none
    | .opening, pending => if more then some (.argument :: pending, .start true true) else none
    | .closing, .head sole :: pending => some (pending, .behind alone (sole && alone))
    | .closing, .argument :: pending => some (pending, .behind true false)
    | .inWord, .value :: pending => some (pending, .start true false)
    | .eof, [] => some ([], .finished)
    | _, _ => none
  | _, _ => none

theorem advance_start_eq_none {pending : List Pending} {sole : Bool} {kind : TokenKind}
    (h : startsAtom [kind] = false) : advance (pending, .start false sole) kind = none := by
  cases kind with
  | literal value | reference name | opening => cases h
  | _ => rfl

/-- The token that ends the innermost of what is open, or the program if nothing is. -/
def closer : List Pending → TokenKind
  | [] => .eof
  | .value :: _ => .inWord
  | .head _ :: _ | .argument :: _ => .closing

/-- Behind an application a reader takes what ends the expression, a pipe, and arguments if there
may be more. -/
theorem advance_behind_eq_none {pending : List Pending} {more alone : Bool} {kind : TokenKind}
    (hcloser : kind ≠ closer pending) (hpipe : startsPipe [kind] = false)
    (hatom : more = true → startsAtom [kind] = false) :
    advance (pending, .behind more alone) kind = none := by
  cases kind with
  | literal value | reference name | opening =>
    cases more with
    | false => rfl
    | true => cases hatom rfl
  | pipe => cases hpipe
  | equals | letWord => rfl
  | closing | inWord | eof =>
    rcases pending with _ | ⟨_ | _ | _, pending⟩ <;> first | rfl | exact absurd rfl hcloser

/-! ## From phase to phase -/

/-- Some tokens lead from one phase to another and leave what is open as it was. -/
def Leads (ts : List TokenKind) (p q : Phase) : Prop :=
  ∀ pending, ts.foldlM advance (pending, p) = some (pending, q)

variable {ts us : List TokenKind} {p q r : Phase} {kind : TokenKind}
  {binds sole more alone : Bool}

theorem Leads.nil (p : Phase) : Leads [] p p := fun _ => rfl

theorem Leads.append (h : Leads ts p q) (h' : Leads us q r) : Leads (ts ++ us) p r := by
  intro pending
  rw [List.foldlM_append, h pending]
  exact h' pending

/-- A pipe makes an expression that is no name of what follows. -/
theorem Leads.pipe (h : Leads us (.start false false) q) :
    Leads (.pipe :: us) (.behind more alone) q := fun pending => h pending

/-- A parenthesis in the place of a head is a name if what stands in it is one. -/
theorem Leads.group (h : Leads ts (.start true true) (.behind more alone)) :
    Leads (.opening :: (ts ++ [.closing])) (.start binds sole) (.behind alone (sole && alone)) := by
  intro pending
  show (ts ++ [TokenKind.closing]).foldlM advance (.head sole :: pending, .start true true) = _
  rw [List.foldlM_append, h]
  rfl

/-- A parenthesis in the place of an argument is an argument, whatever stands in it. -/
theorem Leads.group_argument {alone' : Bool}
    (h : Leads ts (.start true true) (.behind more alone)) :
    Leads (.opening :: (ts ++ [.closing])) (.behind true alone') (.behind true false) := by
  intro pending
  show (ts ++ [TokenKind.closing]).foldlM advance (.argument :: pending, .start true true) = _
  rw [List.foldlM_append, h]
  rfl

/-- What follows the word behind the value of a binding is read as an expression of its own. -/
theorem foldlM_binding (h : Leads ts (.start true false) (.behind more alone)) (name : String)
    (us : List TokenKind) (pending : List Pending) :
    (.reference name :: .equals :: (ts ++ .inWord :: us)).foldlM advance (pending, .afterLet) =
      us.foldlM advance (pending, .start true false) := by
  show (ts ++ .inWord :: us).foldlM advance (.value :: pending, .start true false) = _
  rw [List.foldlM_append, h]
  rfl

/-! ## Derivations -/

mutual

/-- What a derivation of an expression writes leads behind it. -/
theorem Expression.leads : ∀ (d : Expression), d.AppliesNames → ∀ sole,
    ∃ more, Leads d.tokens (.start true sole) (.behind more (sole && buildsName d.tree?))
  | .binding name value body, h, sole => by
    rw [Expression.AppliesNames] at h
    obtain ⟨_, hvalue⟩ := value.leads h.1 false
    obtain ⟨more, hbody⟩ := body.leads h.2 false
    have hname : buildsName (Expression.binding name value body).tree? = false := by
      rw [Expression.tree?]
      split <;> rfl
    refine ⟨more, fun pending => ?_⟩
    rw [Expression.tokens, hname, Bool.and_false]
    rw [Bool.false_and] at hbody
    exact (foldlM_binding hvalue name body.tokens pending).trans (hbody pending)
  | .pipeline p, h, sole => by
    rw [Expression.AppliesNames] at h
    rw [Expression.tokens, Expression.tree?]
    exact p.leads h true sole

theorem Pipeline.leads : ∀ (d : Pipeline), d.AppliesNames → ∀ binds sole,
    ∃ more, Leads d.tokens (.start binds sole) (.behind more (sole && buildsName d.tree?))
  | .application a, h, binds, sole => by
    rw [Pipeline.AppliesNames] at h
    rw [Pipeline.tokens, Pipeline.tree?]
    exact a.leads h binds sole
  | .pipe left right, h, binds, sole => by
    rw [Pipeline.AppliesNames] at h
    obtain ⟨_, hleft⟩ := left.leads h.1 binds sole
    obtain ⟨more, hright⟩ := right.leads h.2 false false
    -- a pipe builds an application, and what it leads into is read as no name
    have hname : buildsName (Pipeline.pipe left right).tree? = false := by
      rw [Pipeline.tree?]
      split
      · next x y _ _ => cases y <;> rfl
      · rfl
    refine ⟨more, ?_⟩
    rw [Pipeline.tokens, hname, Bool.and_false]
    rw [Bool.false_and] at hright
    exact hleft.append hright.pipe

theorem Application.leads : ∀ (d : Application), d.AppliesNames → ∀ binds sole,
    ∃ more, Leads d.tokens (.start binds sole) (.behind more (sole && buildsName d.tree?))
  | .atom a, h, binds, sole => by
    rw [Application.AppliesNames] at h
    rw [Application.tokens, Application.tree?]
    exact ⟨_, a.leads h binds sole⟩
  | .apply head arguments, h, binds, sole => by
    rw [Application.AppliesNames] at h
    obtain ⟨hhead, hreference, harguments⟩ := h
    have hleads := head.leads hhead binds sole
    rw [buildsName_iff.mpr hreference] at hleads
    have hname : buildsName (Application.apply head arguments).tree? = false := by
      rw [Application.tree?]
      split
      · next x ys _ _ => cases x <;> rfl
      · rfl
    refine ⟨true, ?_⟩
    rw [Application.tokens, hname, Bool.and_false]
    exact hleads.append (arguments.leads harguments _)

theorem Arguments.leads : ∀ (d : Arguments), d.AppliesNames → ∀ alone,
    Leads d.tokens (.behind true alone) (.behind true false)
  | .one a, h, alone => by
    rw [Arguments.AppliesNames] at h
    rw [Arguments.tokens]
    exact a.leads_argument h alone
  | .more a rest, h, alone => by
    rw [Arguments.AppliesNames] at h
    rw [Arguments.tokens]
    exact (a.leads_argument h.1 alone).append (rest.leads h.2 false)

/-- An atom in the place of a head takes arguments if it builds a name. -/
theorem Atom.leads : ∀ (d : Atom), d.AppliesNames → ∀ binds sole,
    Leads d.tokens (.start binds sole)
      (.behind (buildsName d.tree?) (sole && buildsName d.tree?))
  | .literal value, _, binds, sole => by
    intro pending
    rw [Atom.tokens, Atom.tree?, buildsName, Bool.and_false]
    · rfl
    · simp
  | .reference name, _, binds, sole => by
    intro pending
    rw [Atom.tokens, Atom.tree?, buildsName, Bool.and_true]
    rfl
  | .group e, h, binds, sole => by
    rw [Atom.AppliesNames] at h
    obtain ⟨_, he⟩ := e.leads h true
    rw [Bool.true_and] at he
    rw [Atom.tokens, Atom.tree?]
    exact he.group

/-- An atom in the place of an argument is followed by further arguments. -/
theorem Atom.leads_argument : ∀ (d : Atom), d.AppliesNames → ∀ alone,
    Leads d.tokens (.behind true alone) (.behind true false)
  | .literal value, _, alone => by
    intro pending
    rw [Atom.tokens]
    rfl
  | .reference name, _, alone => by
    intro pending
    rw [Atom.tokens]
    rfl
  | .group e, h, alone => by
    rw [Atom.AppliesNames] at h
    obtain ⟨_, he⟩ := e.leads h true
    rw [Atom.tokens]
    exact he.group_argument

end

/-! ## Where no sentence goes on -/

/-- A reader takes some tokens and then is stuck at one more. -/
def StuckFrom (s : Reader) (ts : List TokenKind) (kind : TokenKind) : Prop :=
  ∃ s', ts.foldlM advance s = some s' ∧ advance s' kind = none

/-- From some phase a reader is stuck at a token behind some others, whatever is open. -/
def Stuck (ts : List TokenKind) (p : Phase) (kind : TokenKind) : Prop :=
  ∀ pending, StuckFrom (pending, p) ts kind

/-- Where the tokens lead into another phase, what follows them is read from there. -/
theorem Leads.stuckFrom {pending : List Pending} (h : Leads ts p q)
    (h' : StuckFrom (pending, q) us kind) : StuckFrom (pending, p) (ts ++ us) kind := by
  rw [StuckFrom, List.foldlM_append, h pending]
  exact h'

theorem Leads.stuck (h : Leads ts p q) (h' : Stuck us q kind) : Stuck (ts ++ us) p kind :=
  fun pending => h.stuckFrom (h' pending)

/-- Where no binding may begin a reader is stuck at the same places, and at bindings. -/
theorem Stuck.of_pipe (h : Stuck ts (.start false sole) kind)
    (hkind : ts = [] → kind ≠ .letWord) : Stuck ts (.start true sole) kind := by
  intro pending
  obtain ⟨s, hs, hstuck⟩ := h pending
  rcases ts with _ | ⟨first, rest⟩
  · refine ⟨_, rfl, ?_⟩
    rw [← Option.some.inj hs] at hstuck
    cases kind with
    | letWord => exact absurd rfl (hkind rfl)
    | _ => exact hstuck
  · refine ⟨s, ?_, hstuck⟩
    cases first with
    | letWord => cases hs
    | _ => exact hs

/-- A reader is never stuck while the tokens are viable. -/
theorem exists_reader_of_viable (h : Viable ts) :
    ∃ s, ts.foldlM advance ([], .start true true) = some s := by
  obtain ⟨s, ⟨d, hd, rfl⟩, rest, hrest⟩ := h
  obtain ⟨more, hleads⟩ := d.leads hd true
  have hall : (ts ++ rest).foldlM advance ([], .start true true) = some ([], .finished) := by
    rw [hrest, List.foldlM_append, hleads]
    rfl
  rw [List.foldlM_append] at hall
  obtain ⟨s, hs, -⟩ := Option.bind_eq_some_iff.mp hall
  exact ⟨s, hs⟩

/-- **Tokens at which a reader is stuck begin no sentence.** -/
theorem StuckFrom.not_viable (h : StuckFrom ([], .start true true) ts kind) :
    ¬ Viable (ts ++ [kind]) := by
  intro hviable
  obtain ⟨s, hs, hstuck⟩ := h
  obtain ⟨s', hs'⟩ := exists_reader_of_viable hviable
  rw [List.foldlM_append, hs] at hs'
  obtain ⟨s'', hs'', -⟩ := Option.bind_eq_some_iff.mp (show (advance s kind).bind _ = _ from hs')
  rw [hstuck] at hs''
  cases hs''

end SignalLab.Grammar
