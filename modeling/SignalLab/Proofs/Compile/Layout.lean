import SignalLab.Proofs.Compile.Evaluation
import SignalLab.Proofs.Grammar.Placeless
import SignalLab.Proofs.Token.Passing

/-!
# The layout of a source text does not matter

What a source text means depends on the kinds of its tokens alone. Each stage is followed in two runs
at once, and whatever the one run does the other does too (`Alike`): tokens of the same kinds are read
as expressions that are the same but for their places, and these are lowered to the very same
instructions. Only diagnostics speak of places.

A gap holds no token, so blanks, line ends and comments can be put wherever a token ends, and one gap
can take the place of another (`Token.scan_alike_of_gaps`).
-/

namespace SignalLab

open Vocabulary (bound unfed)

/-! ## Gaps -/

namespace Token

variable {start : Nat} {front gap gap' back rest rest' : List Char} {us : List Token}

/-- Two lists of tokens have the same kinds. -/
def SameKinds (ts ts' : List Token) : Prop := kinds ts = kinds ts'

theorem SameKinds.append (us : List Token) {ts ts' : List Token} (h : SameKinds ts ts') :
    SameKinds (us ++ ts) (us ++ ts') := by
  rw [SameKinds, kinds_append, kinds_append, show kinds ts = kinds ts' from h]

theorem alike_map_append (us : List Token) {x y : Except Diagnostic (List Token)}
    (h : Alike SameKinds x y) : Alike SameKinds (x.map (us ++ ·)) (y.map (us ++ ·)) :=
  h.elim (fun _ _ hkinds => .ok (hkinds.append us)) fun _ _ hd => .error hd

/-- Where a text begins plays no part in the kinds of its tokens. -/
theorem scanFrom_alike (start start' : Nat) (cs : List Char) :
    Alike SameKinds (scanFrom start cs) (scanFrom start' cs) := by
  fun_induction scanFrom start cs generalizing start' with
  | case1 start =>
    rw [scanFrom]
    exact .ok rfl
  | case2 start c rest hpiece =>
    rw [scanFrom, hpiece]
    exact .error rfl
  | case3 start c rest more stop hpiece ih =>
    rw [scanFrom, hpiece]
    exact ih _
  | case4 start c rest more stop kind hpiece ih =>
    rw [scanFrom, hpiece]
    dsimp only
    refine (ih (start' + 1 + more)).elim (fun ts ts' hkinds => ?_) fun _ _ hd => .error hd
    exact .ok (List.cons_eq_cons.mpr ⟨rfl, hkinds⟩)

/-- Every token ends where a gap begins. -/
theorem Passes.endsToken_of_gap (h : Passes start gap [] back) :
    ∀ c ∈ gap.head?, endsToken c = true := by
  cases h with
  | here => simp
  | gap hbegins _ =>
    cases hbegins with
    | @blank c _ hgap =>
      intro d hd
      obtain rfl : c = d := by simpa using hd
      by_contra hpart
      rw [Bool.not_eq_true, endsToken, Bool.not_eq_false'] at hpart
      rw [not_isGapChar_of_class (p := isTokenPart) rfl rfl rfl rfl hpart] at hgap
      cases hgap
    | comment =>
      intro d hd
      obtain rfl : '#' = d := by simpa using hd
      decide

theorem Passes.ne_nil (h : Passes start front us rest) (hus : us ≠ []) : front ≠ [] := by
  cases h with
  | here => exact absurd rfl hus
  | gap hbegins _ | token hbegins _ => exact List.append_ne_nil_of_left_ne_nil hbegins.ne_nil _

/-- What follows where a token ends may be replaced by anything at which tokens end. -/
theorem Passes.replace_behind (h : Passes start front us rest)
    (hends : behind start us = start + front.length) (hrest : Replaces endsToken rest rest') :
    Passes start front us rest' := by
  induction h with
  | here => exact .here
  | @gap start text more rest ts hbegins hpasses ih =>
    rw [List.length_append, ← Nat.add_assoc] at hends
    have htext := List.length_pos_iff.mpr hbegins.ne_nil
    rcases ts with _ | ⟨t, ts⟩
    · rw [behind] at hends
      omega
    · -- a token follows, so the gap does not reach up to the rest
      obtain ⟨c, more, rfl⟩ := List.exists_cons_of_ne_nil (hpasses.ne_nil (List.cons_ne_nil t ts))
      exact .gap (hbegins.replace (.inl rfl)) (ih hends hrest)
  | @token start text more rest kind ts hbegins hpasses ih =>
    rw [List.length_append, ← Nat.add_assoc] at hends
    exact .token (hbegins.replace (Replaces.append hrest more)) (ih hends hrest)

/-- A gap holds no token. -/
theorem Passes.scan_eq_of_gap (h : Passes 0 front us (gap ++ back)) (hgap : Passes 0 gap [] back) :
    scan (String.ofList (front ++ gap ++ back)) =
      (scanFrom (front ++ gap).length back).map (us ++ ·) := by
  have hboth := h.append (hgap.shift front.length)
  rw [scan, String.toList_ofList, hboth.scanFrom_eq, List.map_nil, List.append_nil, Nat.zero_add]

/-- **One gap may take the place of another**, or of none, where tokens end. -/
theorem scan_alike_of_gaps (h : Passes 0 front us (gap ++ back))
    (hends : behind 0 us = front.length) (hgap : Passes 0 gap [] back)
    (hgap' : Passes 0 gap' [] back) (hsome : gap' = [] → gap = []) :
    Alike SameKinds (scan (String.ofList (front ++ gap ++ back)))
      (scan (String.ofList (front ++ gap' ++ back))) := by
  have hreplaces : Replaces endsToken (gap ++ back) (gap' ++ back) := by
    rcases gap' with _ | ⟨c, gap'⟩
    · exact .inl (by rw [hsome rfl])
    · exact .inr hgap'.endsToken_of_gap
  have h' := h.replace_behind (hends.trans (Nat.zero_add _).symm) hreplaces
  rw [h.scan_eq_of_gap hgap, h'.scan_eq_of_gap hgap']
  exact alike_map_append us (scanFrom_alike _ _ back)

end Token

/-! ## Reading -/

theorem Expr.parse_alike {source source' : String}
    (h : Alike Token.SameKinds (Token.scan source) (Token.scan source')) :
    Alike Expr.Same (parse source) (parse source') := by
  unfold parse
  exact h.elim (fun _ _ hkinds => ofTokens_alike hkinds) fun _ _ hd => .error hd

/-! ## Lowering -/

namespace Program

variable (v : Vocabulary)

theorem applicationFault?_alike (span span' : Span) (name : String) (got : Nat) :
    (applicationFault? v span name got).map Diagnostic.bare =
      (applicationFault? v span' name got).map Diagnostic.bare := by
  unfold applicationFault?
  rcases v.find? name with _ | entry
  · rfl
  · dsimp only
    split <;> rfl

mutual

/-- An expression without its places is lowered alike. -/
theorem lowerInto_bare (scope : Scope) (p : Program) : ∀ e : Expr,
    Alike Eq (lowerInto v scope p e) (lowerInto v scope p e.bare)
  | .literal span value => by
    rw [Expr.bare_literal, lowerInto, lowerInto]
    exact .ok rfl
  | .reference span name => by
    rw [Expr.bare_reference, lowerInto, lowerInto]
    rcases scope.lookup name with _ | index
    · exact .error rfl
    · exact .ok rfl
  | .application span name arguments => by
    rw [Expr.bare_application, lowerInto, lowerInto, List.length_map]
    have hfault := applicationFault?_alike v span Expr.nowhere name arguments.length
    generalize applicationFault? v span name arguments.length = x at hfault ⊢
    generalize applicationFault? v Expr.nowhere name arguments.length = y at hfault ⊢
    rcases x with _ | d <;> rcases y with _ | d'
    · dsimp only
      refine (lowerAll_bare scope p arguments).elim ?_ fun _ _ hd => .error hd
      rintro ⟨q, operands⟩ _ rfl
      exact .ok rfl
    · cases hfault
    · cases hfault
    · exact .error (Option.some.inj hfault)
  | .binding span name value body => by
    rw [Expr.bare_binding, lowerInto, lowerInto]
    refine (lowerInto_bare scope p value).elim ?_ fun _ _ hd => .error hd
    rintro ⟨q, index⟩ _ rfl
    exact lowerInto_bare ((name, index) :: scope) q body

theorem lowerAll_bare (scope : Scope) (p : Program) : ∀ es : List Expr,
    Alike Eq (lowerAll v scope p es) (lowerAll v scope p (es.map Expr.bare))
  | [] => by
    rw [List.map_nil, lowerAll]
    exact .ok rfl
  | e :: es => by
    rw [List.map_cons, lowerAll, lowerAll]
    refine (lowerInto_bare scope p e).elim ?_ fun _ _ hd => .error hd
    rintro ⟨q, index⟩ _ rfl
    dsimp only
    refine (lowerAll_bare scope q es).elim ?_ fun _ _ hd => .error hd
    rintro ⟨q, indices⟩ _ rfl
    exact .ok rfl

end

theorem lowerInto_alike (scope : Scope) (p : Program) {e e' : Expr} (h : e.Same e') :
    Alike Eq (lowerInto v scope p e) (lowerInto v scope p e') := by
  have hbare := (lowerInto_bare v scope p e').symm
  rw [← show e.bare = e'.bare from h] at hbare
  exact (lowerInto_bare v scope p e).trans hbare

/-- Expressions that are the same but for their places make the same program. -/
theorem ofExpr_alike {e e' : Expr} (h : e.Same e') : Alike Eq (ofExpr v e) (ofExpr v e') := by
  unfold ofExpr
  rcases emitReferences v.references with ⟨p, scope⟩
  dsimp only
  refine (lowerInto_alike v scope p h).elim ?_ fun _ _ hd => .error hd
  rintro ⟨q, index⟩ _ rfl
  exact .ok rfl

end Program

/-! ## Meaning -/

variable {v v' : Vocabulary} {feeds : Feeds} {source source' : String}

theorem compile_alike (h : Alike Expr.Same (Expr.parse source) (Expr.parse source')) :
    Alike Eq (compile v source) (compile v source') := by
  unfold compile
  exact h.elim (fun _ _ he => Program.ofExpr_alike v he) fun _ _ hd => .error hd

theorem evaluate_alike (h : Alike Eq (compile v source) (compile v source')) :
    Alike Eq (evaluate v feeds source) (evaluate v feeds source') := by
  unfold evaluate
  refine h.elim ?_ fun _ _ hd => .error hd
  rintro p _ rfl
  dsimp only
  split
  · exact .error rfl
  · exact .ok rfl

/-- Two runs over one market give the same: the source texts are read as the same expression but for
its places, they make the same program, and they have the same signal. If one of them is refused at
some stage, so is the other, with the same diagnostic but for its place. -/
structure SameMeaning (v v' : Vocabulary) (feeds : Feeds) (source source' : String) : Prop where
  parse : Alike Expr.Same (Expr.parse source) (Expr.parse source')
  compile : Alike Eq (compile v source) (compile v' source')
  evaluate : Alike Eq (evaluate v feeds source) (evaluate v' feeds source')

theorem sameMeaning_of_scan_alike
    (h : Alike Token.SameKinds (Token.scan source) (Token.scan source')) :
    SameMeaning v v feeds source source' where
  parse := Expr.parse_alike h
  compile := compile_alike (Expr.parse_alike h)
  evaluate := evaluate_alike (compile_alike (Expr.parse_alike h))

/-! ## Numbers drawn -/

/-- Every offset is aligned with itself only. -/
def Alignment.still : Alignment where
  holds _ s t := s = t
  back h j _ := by rw [h]

/-- What a source text evaluates to does not depend on the references that it does not mention, nor on
the markets bound before. -/
theorem evaluate_bound_of_hidden {draws draws' : Signal} (markets markets' : List Feeds)
    {hidden : List String}
    (hunfed : ∀ name x y, name ∉ hidden → (unfed draws).lookup name = some x →
      (unfed draws').lookup name = some y → x = y) {e : Expr}
    (hparse : Expr.parse source = .ok e) (hhidden : ∀ name ∈ hidden, e.mentions name = false) :
    evaluate (bound draws markets) feeds source = evaluate (bound draws' markets') feeds source := by
  have hcompile' := compile_bound draws draws' markets markets' source
  rcases hcompile : compile (bound draws markets) source with d | p
  · rw [hcompile] at hcompile'
    rw [evaluate, evaluate, hcompile, ← hcompile']
  · have hstill : ∀ name x y, name ∉ hidden → (unfed draws).lookup name = some x →
        (unfed draws').lookup name = some y → Alignment.still.Related 0 x y := by
      rintro name x y hname hx hy s _ rfl
      rw [hunfed name x y hname hx hy]
    obtain ⟨x, y, hx, hy, hrelated⟩ := Alignment.related_evaluate markets markets'
      (fun s t (hst : s = t) => congrArg feeds.sample hst) hstill hparse hcompile hhidden
    rw [hx, hy, show x = y from funext fun t => hrelated t t rfl]

/-- What a source text that does not mention `random` evaluates to does not depend on the numbers
drawn. -/
theorem evaluate_bound (draws draws' : Signal) (markets markets' : List Feeds) {e : Expr}
    (hparse : Expr.parse source = .ok e) (hrandom : e.mentions "random" = false) :
    evaluate (bound draws markets) feeds source = evaluate (bound draws' markets') feeds source := by
  refine @evaluate_bound_of_hidden _ _ _ _ markets markets' ["random"] ?_ _ hparse ?_
  · intro name x y hname hx hy
    rw [Vocabulary.lookup_unfed_congr draws draws' (by simpa using hname), hy] at hx
    exact (Option.some.inj hx).symm
  · intro name hname
    rw [List.mem_singleton.mp hname]
    exact hrandom

/-- The markets bound before play no part. -/
theorem evaluate_bound_markets (draws : Signal) (markets markets' : List Feeds) {e : Expr}
    (hparse : Expr.parse source = .ok e) :
    evaluate (bound draws markets) feeds source = evaluate (bound draws markets') feeds source := by
  refine @evaluate_bound_of_hidden _ _ _ _ markets markets' [] ?_ _ hparse ?_
  · intro name x y _ hx hy
    rw [hx] at hy
    exact Option.some.inj hy
  · intro name hname
    exact absurd hname List.not_mem_nil

theorem SameMeaning.of_bound {draws draws' : Signal} {markets markets' : List Feeds} {e : Expr}
    (h : SameMeaning (bound draws markets) (bound draws markets) feeds source source')
    (hparse : Expr.parse source' = .ok e) (hrandom : e.mentions "random" = false) :
    SameMeaning (bound draws markets) (bound draws' markets') feeds source source' := by
  obtain ⟨halike, hcompile, hevaluate⟩ := h
  rw [compile_bound draws draws' markets markets' source'] at hcompile
  rw [evaluate_bound draws draws' markets markets' hparse hrandom] at hevaluate
  exact ⟨halike, hcompile, hevaluate⟩

/-! ## Kinds of tokens and gaps -/

/-- **What a source text means depends on the kinds of its tokens alone**: two runs give the same if
they draw the same numbers, and also if the source text does not mention `random`. Where tokens end, a
gap may therefore be put in, and one gap may take the place of another. -/
theorem sameMeaning_of_kinds (feeds : Feeds) :
    (∀ source source' ts ts', Token.scan source = .ok ts → Token.scan source' = .ok ts' →
      Token.kinds ts = Token.kinds ts' →
      (∀ v, SameMeaning v v feeds source source') ∧
      ∀ e draws draws' markets markets', Expr.parse source' = .ok e → e.mentions "random" = false →
        SameMeaning (bound draws markets) (bound draws' markets') feeds source source') ∧
    ∀ v front gap gap' back us, Token.Passes 0 front us (gap ++ back) →
      Token.behind 0 us = front.length → Token.Passes 0 gap [] back → Token.Passes 0 gap' [] back →
      (gap' = [] → gap = []) →
      SameMeaning v v feeds (String.ofList (front ++ gap ++ back))
        (String.ofList (front ++ gap' ++ back)) := by
  refine ⟨fun source source' ts ts' hscan hscan' hkinds => ?_,
    fun v front gap gap' back us hfront hends hgap hgap' hsome => ?_⟩
  · have hkinds' : Alike Token.SameKinds (Token.scan source) (Token.scan source') := by
      rw [hscan, hscan']
      exact .ok hkinds
    exact ⟨fun v => sameMeaning_of_scan_alike hkinds', fun e draws draws' markets markets' hparse
      hrandom => (sameMeaning_of_scan_alike hkinds').of_bound hparse hrandom⟩
  · exact sameMeaning_of_scan_alike (Token.scan_alike_of_gaps hfront hends hgap hgap' hsome)

/-- A comment and the end of a line between two names: told from the tokens, whatever numbers are
drawn, and told from the gap. -/
theorem sameMeaning_of_comment :
    let source := "neg price"
    let source' := "neg # of the market\n\tprice"
    let v := bound (Series.constant 0.25) []
    let v' := bound (Series.constant 0.5) []
    (∃ ts ts' e, Token.scan source = .ok ts ∧ Token.scan source' = .ok ts' ∧
      Token.kinds ts = Token.kinds ts' ∧ Expr.parse source' = .ok e ∧
      e.mentions "random" = false ∧ SameMeaning v v Feeds.zeros source source' ∧
      SameMeaning v v' Feeds.zeros source source') ∧
    ∃ us, Token.Passes 0 "neg".toList us " price".toList ∧ Token.behind 0 us = 3 ∧
      Token.Passes 0 [' '] [] "price".toList ∧ Token.Passes 0 ['#', '!', '\n'] [] "price".toList ∧
      SameMeaning v v Feeds.zeros (String.ofList ("neg".toList ++ [' '] ++ "price".toList))
        (String.ofList ("neg".toList ++ ['#', '!', '\n'] ++ "price".toList)) := by
  intro source source' v v'
  obtain ⟨hkinds, hgaps⟩ := sameMeaning_of_kinds Feeds.zeros
  constructor
  · have hscan : Token.scan source = .ok [⟨.reference "neg", ⟨0, 3⟩⟩,
        ⟨.reference "price", ⟨4, 9⟩⟩, ⟨.eof, ⟨9, 9⟩⟩] := by cbv
    have hscan' : Token.scan source' = .ok [⟨.reference "neg", ⟨0, 3⟩⟩,
        ⟨.reference "price", ⟨21, 26⟩⟩, ⟨.eof, ⟨26, 26⟩⟩] := by cbv
    have hparse : Expr.parse source' =
        .ok (.application ⟨0, 26⟩ "neg" [.reference ⟨21, 26⟩ "price"]) := by cbv
    have hrandom : (Expr.application ⟨0, 26⟩ "neg" [.reference ⟨21, 26⟩ "price"]).mentions
        "random" = false := by decide
    obtain ⟨hdrawn, hundrawn⟩ := hkinds _ _ _ _ hscan hscan' rfl
    exact ⟨_, _, _, hscan, hscan', rfl, hparse, hrandom, hdrawn v,
      hundrawn _ _ _ _ _ hparse hrandom⟩
  · have hends : EndsWord ([] ++ ([' '] ++ "price".toList)) := by
      rintro c ⟨⟩
      rfl
    have hinside : ∀ c ∈ ['!'], isLineEnd c = false := by simp [isLineEnd]
    have hline : ∀ c ∈ (['\n'] ++ [] ++ "price".toList).head?, isLineEnd c = true := by
      rintro c ⟨⟩
      rfl
    have hfront : Token.Passes 0 ("neg".toList ++ []) [⟨.reference "neg", ⟨0, 3⟩⟩]
        ([' '] ++ "price".toList) :=
      .token (.token (.reference rfl (by decide) (by decide) hends)) .here
    have hblank : Token.Passes 0 ([' '] ++ []) [] "price".toList := .gap (.blank rfl) .here
    have hcomment : Token.Passes 0 (['#', '!'] ++ (['\n'] ++ [])) [] "price".toList :=
      .gap (.comment hinside hline) (.gap (.blank rfl) .here)
    exact ⟨_, hfront, rfl, hblank, hcomment, hgaps v _ _ _ _ _ hfront rfl hblank hcomment (by simp)⟩

end SignalLab
