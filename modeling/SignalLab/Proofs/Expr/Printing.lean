import Mathlib
import SignalLab.Proofs.Grammar.Source

/-!
# Printing expressions

An expression that a program can write is a `Phrase`: its names are words that are no keywords, its
applications have arguments, and its numbers come with a text. Printed with parentheses around every
argument, value and body, it is read back as the same expression, and whatever is read from any text is
such an expression (`Expr.parse_print`).

## Shape of the argument

A printed phrase consists of short texts, each of which is one piece of the whole, because nothing that
goes on with it stands behind it (`Token.Prints`): behind a word or a numeral there is a blank, a closing
parenthesis or the end of the text. The tokens are those of a derivation, which builds the expression of
the phrase. For the converse the tokens of a text are looked at one by one: its names are words, and its
numbers are read also from the parts of the text at their tokens.
-/

namespace SignalLab

open SignalLab.Expr (nowhere)

/-! ## Phrases -/

/-- A name that a program can write: a word that is no keyword. -/
structure Identifier where
  text : String
  isWord : SignalLab.isWord text.toList = true
  ne_let : text ≠ "let"
  ne_in : text ≠ "in"

theorem Identifier.wordKind_text (name : Identifier) :
    wordKind name.text = .reference name.text := by
  rw [wordKind, if_neg name.ne_let, if_neg name.ne_in]

/-- A number with a text that writes it: from the first character to the last a single token. -/
structure Numeral where
  text : String
  value : Float
  scan_eq : Token.scan text =
    .ok [⟨.literal value, ⟨0, text.length⟩⟩, ⟨.eof, Span.point text.length⟩]

mutual

/-- An expression that a program can write. -/
inductive Phrase
  | literal (number : Numeral)
  | reference (name : Identifier)
  | application (name : Identifier) (arguments : Phrases)
  | binding (name : Identifier) (value body : Phrase)

/-- One or more expressions that a program can write. -/
inductive Phrases
  | one (t : Phrase)
  | more (t : Phrase) (rest : Phrases)

end

mutual

/-- The expression that a phrase writes, without places. -/
def Phrase.expr : Phrase → Expr
  | .literal number => .literal nowhere number.value
  | .reference name => .reference nowhere name.text
  | .application name arguments => .application nowhere name.text arguments.exprs
  | .binding name value body => .binding nowhere name.text value.expr body.expr

/-- The expressions that phrases write, without places. -/
def Phrases.exprs : Phrases → List Expr
  | .one t => [t.expr]
  | .more t rest => t.expr :: rest.exprs

end

/-- A text in parentheses. -/
def grouped (text : String) : String := "(" ++ text ++ ")"

mutual

/-- The text of a phrase. -/
def Phrase.print : Phrase → String
  | .literal number => number.text
  | .reference name => name.text
  | .application name arguments => " ".intercalate (name.text :: arguments.prints)
  | .binding name value body =>
    " ".intercalate ["let", name.text, "=", grouped value.print, "in", grouped body.print]

/-- The texts of arguments. -/
def Phrases.prints : Phrases → List String
  | .one t => [grouped t.print]
  | .more t rest => grouped t.print :: rest.prints

end

/-! ## Derivations of phrases -/

/-- An atom as a whole expression. -/
def Grammar.Atom.alone (a : Atom) : Expression := .pipeline (.application (.atom a))

@[simp] theorem Grammar.Atom.tokens_alone (a : Atom) : a.alone.tokens = a.tokens := by
  rw [alone, Expression.tokens, Pipeline.tokens, Application.tokens]

@[simp] theorem Grammar.Atom.tree?_alone (a : Atom) : a.alone.tree? = a.tree? := by
  rw [alone, Expression.tree?, Pipeline.tree?, Application.tree?]

mutual

/-- The derivation of a printed phrase. -/
def Phrase.derivation : Phrase → Grammar.Expression
  | .literal number => (Grammar.Atom.literal number.value).alone
  | .reference name => (Grammar.Atom.reference name.text).alone
  | .application name arguments =>
    .pipeline (.application (.apply (.reference name.text) arguments.derivation))
  | .binding name value body =>
    .binding name.text (Grammar.Atom.group value.derivation).alone
      (Grammar.Atom.group body.derivation).alone

/-- The derivation of printed arguments. -/
def Phrases.derivation : Phrases → Grammar.Arguments
  | .one t => .one (.group t.derivation)
  | .more t rest => .more (.group t.derivation) rest.derivation

end

mutual

theorem Phrase.tree?_derivation : ∀ t : Phrase, t.derivation.tree? = some t.expr
  | .literal number => by simp [Phrase.derivation, Grammar.Atom.tree?, Phrase.expr]
  | .reference name => by simp [Phrase.derivation, Grammar.Atom.tree?, Phrase.expr]
  | .application name arguments => by
    simp [Phrase.derivation, Grammar.Expression.tree?, Grammar.Pipeline.tree?,
      Grammar.Application.tree?, Grammar.Atom.tree?, arguments.trees?_derivation, Phrase.expr,
      Grammar.applied?]
  | .binding name value body => by
    simp [Phrase.derivation, Grammar.Expression.tree?, Grammar.Atom.tree?, value.tree?_derivation,
      body.tree?_derivation, Phrase.expr]

theorem Phrases.trees?_derivation : ∀ ts : Phrases, ts.derivation.trees? = some ts.exprs
  | .one t => by
    simp [Phrases.derivation, Grammar.Arguments.trees?, Grammar.Atom.tree?, t.tree?_derivation,
      Phrases.exprs]
  | .more t rest => by
    simp [Phrases.derivation, Grammar.Arguments.trees?, Grammar.Atom.tree?, t.tree?_derivation,
      rest.trees?_derivation, Phrases.exprs]

end

/-! ## Tokens of printed texts -/

namespace Token

/-- A text consists of tokens of these kinds, at whatever offset it begins. -/
def Spells (cs : List Char) (ks : List TokenKind) : Prop :=
  ∀ start, ∃ ts, Scans start cs ts ∧ kinds ts = ks

/-- Nothing that goes on with a token. -/
def Ends (rest : List Char) : Prop := ∀ c ∈ rest.head?, endsToken c = true

/-- A text consists of tokens of these kinds, and those behind it are separate from them, if nothing
behind it goes on with a token. -/
def Prints (text : String) (ks : List TokenKind) : Prop :=
  ∀ ⦃rest : List Char⦄ ⦃ls : List TokenKind⦄, Ends rest → Spells rest ls →
    Spells (text.toList ++ rest) (ks ++ ls)

variable {rest : List Char} {ks : List TokenKind}

theorem spells_nil : Spells [] [] := fun _ => ⟨[], .done, rfl⟩

theorem Spells.token (h : Spells rest ks) {c : Char} {front : List Char} {kind : TokenKind}
    (hpiece : piece? c (front ++ rest) = some ⟨some kind, front.length⟩) :
    Spells (c :: (front ++ rest)) (kind :: ks) := by
  intro start
  obtain ⟨ts, hts, hkinds⟩ := h (start + 1 + front.length)
  exact ⟨_, .token hpiece hts, by rw [kinds_cons, hkinds]⟩

theorem Spells.single (h : Spells rest ks) {c : Char} {kind : TokenKind}
    (hpiece : piece? c rest = some ⟨some kind, 0⟩) : Spells (c :: rest) (kind :: ks) := by
  have hfront : piece? c ([] ++ rest) = some ⟨some kind, ([] : List Char).length⟩ := hpiece
  exact h.token hfront

theorem Spells.blank (h : Spells rest ks) : Spells (' ' :: rest) ks := by
  intro start
  obtain ⟨ts, hts, hkinds⟩ := h (start + 1)
  have hpiece : piece? ' ' ([] ++ rest) = some ⟨none, ([] : List Char).length⟩ := rfl
  exact ⟨ts, .gap hpiece hts, hkinds⟩

theorem ends_cons {c : Char} (h : endsToken c = true) (rest : List Char) : Ends (c :: rest) := by
  simpa [Ends] using h

theorem prints_equals : Prints "=" [.equals] := fun _ _ _ h => h.single rfl

theorem prints_word {word : String} (hword : isWord word.toList = true) :
    Prints word [wordKind word] := by
  intro rest ls hrest h
  rcases hchars : word.toList with _ | ⟨c, front⟩
  · rw [hchars] at hword
    cases hword
  · rw [hchars, isWord, Bool.and_eq_true, List.all_eq_true] at hword
    have htail : (front ++ rest).takeWhile isWordPart = front :=
      takeWhile_append_stop hword.2 fun d hd => isWordPart_of_endsToken (hrest d hd)
    have hpiece := piece?_of_isWordStart hword.1 (front ++ rest)
    rw [htail, ← hchars, String.ofList_toList] at hpiece
    exact h.token hpiece

theorem prints_numeral (number : Numeral) : Prints number.text [.literal number.value] := by
  intro rest ls hrest h
  obtain ⟨us, hus, heq⟩ := scan_eq_ok_iff.mp number.scan_eq
  have hsplit : [(⟨.literal number.value, ⟨0, number.text.length⟩⟩ : Token)] ++
      [⟨.eof, Span.point number.text.length⟩] = us ++ [atEnd 0 number.text.toList] := heq
  obtain ⟨rfl, -⟩ := List.append_inj' hsplit rfl
  rw [← String.length_toList] at hus
  obtain ⟨c, front, hchars, hpiece⟩ := hus.exists_piece?
  rw [hchars]
  exact h.token (piece?_append_replace hpiece (.inr hrest))

/-- The closing parenthesis ends what stands before it, and needs no end itself. -/
theorem Prints.grouped {text : String} (h : Prints text ks) :
    Prints (grouped text) (.opening :: (ks ++ [.closing])) := by
  intro rest ls _ hrest
  have hclosing : Spells (')' :: rest) (.closing :: ls) := hrest.single rfl
  have hinner := h (ends_cons (by decide) rest) hclosing
  have hopening : Spells ('(' :: (text.toList ++ ')' :: rest)) (.opening :: (ks ++ .closing :: ls)) :=
    hinner.single rfl
  simpa [SignalLab.grouped] using hopening

/-- Texts with blanks between them. -/
theorem prints_intercalate {texts : List String} {kss : List (List TokenKind)}
    (h : List.Forall₂ Prints texts kss) : Prints (" ".intercalate texts) kss.flatten := by
  induction h with
  | nil => exact fun rest ls _ h => h
  | @cons text ks texts kss hfirst hothers ih =>
    rcases texts with _ | ⟨text', texts⟩
    · cases hothers
      simpa using hfirst
    · intro rest ls hends hrest
      have hblank : Spells (' ' :: ((" ".intercalate (text' :: texts)).toList ++ rest))
          (kss.flatten ++ ls) := (ih hends hrest).blank
      have hall := hfirst (ends_cons (by decide) _) hblank
      simpa [String.intercalate_cons_cons] using hall

end Token

mutual

theorem Phrase.prints_print : ∀ t : Phrase, Token.Prints t.print t.derivation.tokens
  | .literal number => by
    simpa [Phrase.print, Phrase.derivation, Grammar.Atom.tokens] using Token.prints_numeral number
  | .reference name => by
    have hname := Token.prints_word name.isWord
    rw [name.wordKind_text] at hname
    simpa [Phrase.print, Phrase.derivation, Grammar.Atom.tokens] using hname
  | .application name arguments => by
    have hname := Token.prints_word name.isWord
    rw [name.wordKind_text] at hname
    obtain ⟨kss, harguments, htokens⟩ := arguments.exists_prints
    have hall := Token.prints_intercalate (.cons hname harguments)
    simpa [Phrase.print, Phrase.derivation, Grammar.Expression.tokens, Grammar.Pipeline.tokens,
      Grammar.Application.tokens, Grammar.Atom.tokens, htokens] using hall
  | .binding name value body => by
    have hlet : Token.Prints "let" [.letWord] := Token.prints_word (by decide)
    have hname := Token.prints_word name.isWord
    rw [name.wordKind_text] at hname
    have hin : Token.Prints "in" [.inWord] := Token.prints_word (by decide)
    have hall := Token.prints_intercalate <| .cons hlet <| .cons hname <|
      .cons Token.prints_equals <| .cons value.prints_print.grouped <| .cons hin <|
      .cons body.prints_print.grouped .nil
    simpa [Phrase.print, Phrase.derivation, Grammar.Expression.tokens, Grammar.Atom.tokens] using hall

theorem Phrases.exists_prints : ∀ ts : Phrases, ∃ kss,
    List.Forall₂ Token.Prints ts.prints kss ∧ kss.flatten = ts.derivation.tokens
  | .one t => by
    refine ⟨_, .cons t.prints_print.grouped .nil, ?_⟩
    simp [Phrases.derivation, Grammar.Arguments.tokens, Grammar.Atom.tokens]
  | .more t rest => by
    obtain ⟨kss, hrest, htokens⟩ := rest.exists_prints
    refine ⟨_, .cons t.prints_print.grouped hrest, ?_⟩
    simp [Phrases.derivation, Grammar.Arguments.tokens, Grammar.Atom.tokens, htokens]

end

/-! ## Phrases of derivations -/

/-- Whether the names among the kinds of tokens can be written, and the numbers. -/
def Writable : TokenKind → Prop
  | .literal value => ∃ number : Numeral, number.value = value
  | .reference name => ∃ identifier : Identifier, identifier.text = name
  | _ => True

theorem PieceKind.writable {kind : TokenKind} (h : PieceKind kind)
    (hkind : ∀ value, kind ≠ .literal value) : Writable kind := by
  cases h with
  | literal value => exact absurd rfl (hkind value)
  | word word hword =>
    unfold wordKind
    split_ifs with hlet hin
    · trivial
    · trivial
    · exact ⟨⟨word, hword, hlet, hin⟩, rfl⟩
  | _ => trivial

/-- The part of a text at a number writes the number by itself. -/
theorem Token.Scans.writable_literal {cs : List Char} {before after : List Token} {value : Float}
    {span : Span} (h : Scans 0 cs (before ++ [⟨.literal value, span⟩] ++ after)) :
    Writable (.literal value) := by
  obtain ⟨hstop, us, hus, hmoved⟩ := h.slice (List.cons_ne_nil _ _)
  obtain ⟨⟨start, stop⟩, rfl, hspan⟩ := Grammar.eq_singleton_of_map hmoved
  change span.stop ≤ cs.length at hstop
  change Scans 0 ((cs.drop span.start).take span.length) _ at hus
  change (⟨start + span.start, stop + span.start⟩ : Span) = span at hspan
  have hstart : start + span.start = span.start := congrArg Span.start hspan
  have hbehind : stop + span.start = span.stop := congrArg Span.stop hspan
  have hlength : ((cs.drop span.start).take span.length).length = stop := by
    rw [List.length_take, List.length_drop, Span.length]
    omega
  obtain rfl : start = 0 := by omega
  refine ⟨⟨String.ofList ((cs.drop span.start).take span.length), value, ?_⟩, rfl⟩
  refine scan_eq_ok_iff.mpr ⟨_, by rwa [String.toList_ofList], ?_⟩
  rw [atEnd, String.toList_ofList, ← String.length_toList, String.toList_ofList, hlength,
    Nat.zero_add]
  rfl

theorem Token.Scans.writable {cs : List Char} {ts : List Token} (h : Scans 0 cs ts) :
    ∀ k ∈ kinds ts, Writable k := by
  intro k hk
  obtain ⟨⟨kind, span⟩, ht, rfl⟩ := List.mem_map.mp hk
  cases kind with
  | literal value =>
    obtain ⟨before, after, rfl⟩ := List.append_of_mem ht
    exact Scans.writable_literal (by simpa using h)
  | _ => exact (h.pieceKind _ ht).writable (by simp)

/-- A phrase applied to phrases, if it is a name. -/
theorem Phrase.exists_applied {t : Phrase} {ts : Phrases} {s : Expr}
    (h : Grammar.applied? t.expr ts.exprs = some s) : ∃ u : Phrase, u.expr = s := by
  cases t with
  | reference name =>
    rw [Phrase.expr, Grammar.applied?] at h
    exact ⟨.application name ts, by rw [Phrase.expr]; exact Option.some.inj h⟩
  | _ => simp [Phrase.expr, Grammar.applied?] at h

/-- A phrase piped into a phrase, if that is a name or an application. -/
theorem Phrase.exists_piped {t u : Phrase} {s : Expr}
    (h : Grammar.piped? t.expr u.expr = some s) : ∃ v : Phrase, v.expr = s := by
  cases u with
  | reference name =>
    rw [Phrase.expr.eq_def (.reference name), Grammar.piped?] at h
    refine ⟨.application name (.one t), ?_⟩
    rw [Phrase.expr, Phrases.exprs]
    exact Option.some.inj h
  | application name arguments =>
    rw [Phrase.expr.eq_def (.application name arguments), Grammar.piped?] at h
    refine ⟨.application name (.more t arguments), ?_⟩
    rw [Phrase.expr, Phrases.exprs]
    exact Option.some.inj h
  | _ => simp [Phrase.expr, Grammar.piped?] at h

namespace Grammar

mutual

/-- What a derivation builds with tokens that can be written is the expression of a phrase. -/
theorem Expression.exists_phrase : ∀ (d : Expression) {s : Expr},
    (∀ k ∈ d.tokens, Writable k) → d.tree? = some s → ∃ t : Phrase, t.expr = s
  | .binding name value body, s, htokens, htree => by
    rw [Expression.tokens] at htokens
    rw [Expression.tree?] at htree
    split at htree
    · next x y hx hy =>
      obtain ⟨identifier, rfl⟩ : Writable (.reference name) := htokens _ (by simp)
      obtain ⟨v, rfl⟩ := value.exists_phrase (fun k hk => htokens k (by simp [hk])) hx
      obtain ⟨b, rfl⟩ := body.exists_phrase (fun k hk => htokens k (by simp [hk])) hy
      exact ⟨.binding identifier v b, by rw [Phrase.expr]; exact Option.some.inj htree⟩
    · simp at htree
  | .pipeline p, s, htokens, htree => by
    rw [Expression.tokens] at htokens
    rw [Expression.tree?] at htree
    exact p.exists_phrase htokens htree

theorem Pipeline.exists_phrase : ∀ (d : Pipeline) {s : Expr},
    (∀ k ∈ d.tokens, Writable k) → d.tree? = some s → ∃ t : Phrase, t.expr = s
  | .application a, s, htokens, htree => by
    rw [Pipeline.tokens] at htokens
    rw [Pipeline.tree?] at htree
    exact a.exists_phrase htokens htree
  | .pipe left right, s, htokens, htree => by
    rw [Pipeline.tokens] at htokens
    rw [Pipeline.tree?] at htree
    split at htree
    · next x y hx hy =>
      obtain ⟨l, rfl⟩ := left.exists_phrase (fun k hk => htokens k (by simp [hk])) hx
      obtain ⟨r, rfl⟩ := right.exists_phrase (fun k hk => htokens k (by simp [hk])) hy
      exact Phrase.exists_piped htree
    · simp at htree

theorem Application.exists_phrase : ∀ (d : Application) {s : Expr},
    (∀ k ∈ d.tokens, Writable k) → d.tree? = some s → ∃ t : Phrase, t.expr = s
  | .atom a, s, htokens, htree => by
    rw [Application.tokens] at htokens
    rw [Application.tree?] at htree
    exact a.exists_phrase htokens htree
  | .apply head arguments, s, htokens, htree => by
    rw [Application.tokens] at htokens
    rw [Application.tree?] at htree
    split at htree
    · next x ys hx hys =>
      obtain ⟨h, rfl⟩ := head.exists_phrase (fun k hk => htokens k (by simp [hk])) hx
      obtain ⟨ts, rfl⟩ := arguments.exists_phrases (fun k hk => htokens k (by simp [hk])) hys
      exact Phrase.exists_applied htree
    · simp at htree

theorem Arguments.exists_phrases : ∀ (d : Arguments) {ss : List Expr},
    (∀ k ∈ d.tokens, Writable k) → d.trees? = some ss → ∃ ts : Phrases, ts.exprs = ss
  | .one a, ss, htokens, htree => by
    rw [Arguments.tokens] at htokens
    rw [Arguments.trees?] at htree
    split at htree
    · next x hx =>
      obtain ⟨t, rfl⟩ := a.exists_phrase htokens hx
      exact ⟨.one t, by rw [Phrases.exprs]; exact Option.some.inj htree⟩
    · simp at htree
  | .more a rest, ss, htokens, htree => by
    rw [Arguments.tokens] at htokens
    rw [Arguments.trees?] at htree
    split at htree
    · next x xs hx hxs =>
      obtain ⟨t, rfl⟩ := a.exists_phrase (fun k hk => htokens k (by simp [hk])) hx
      obtain ⟨ts, rfl⟩ := rest.exists_phrases (fun k hk => htokens k (by simp [hk])) hxs
      exact ⟨.more t ts, by rw [Phrases.exprs]; exact Option.some.inj htree⟩
    · simp at htree

theorem Atom.exists_phrase : ∀ (d : Atom) {s : Expr},
    (∀ k ∈ d.tokens, Writable k) → d.tree? = some s → ∃ t : Phrase, t.expr = s
  | .literal value, s, htokens, htree => by
    rw [Atom.tokens] at htokens
    rw [Atom.tree?] at htree
    obtain ⟨number, rfl⟩ : Writable (.literal value) := htokens _ (by simp)
    exact ⟨.literal number, by rw [Phrase.expr]; exact Option.some.inj htree⟩
  | .reference name, s, htokens, htree => by
    rw [Atom.tokens] at htokens
    rw [Atom.tree?] at htree
    obtain ⟨identifier, rfl⟩ : Writable (.reference name) := htokens _ (by simp)
    exact ⟨.reference identifier, by rw [Phrase.expr]; exact Option.some.inj htree⟩
  | .group d, s, htokens, htree => by
    rw [Atom.tokens] at htokens
    rw [Atom.tree?] at htree
    exact d.exists_phrase (fun k hk => htokens k (by simp [hk])) htree

end

end Grammar

/-! ## Printing and reading -/

/-- **Reading undoes printing, and reads nothing that cannot be printed.** -/
theorem Expr.parse_print :
    (∀ t : Phrase, ∃ e, parse t.print = .ok e ∧ e.bare = t.expr) ∧
      ∀ (source : String) (e : Expr), parse source = .ok e → ∃ t : Phrase, t.expr = e.bare := by
  constructor
  · intro t
    obtain ⟨us, hus, hkinds⟩ := t.prints_print (by simp [Token.Ends]) Token.spells_nil 0
    rw [List.append_nil] at hus hkinds
    obtain ⟨e, hwrites, hbare⟩ := t.derivation.exists_writes t.tree?_derivation hkinds
    exact ⟨e, parse_eq_ok_iff.mpr ⟨t.derivation, us, hus, hwrites⟩, hbare⟩
  · intro source e h
    obtain ⟨d, us, hus, hwrites⟩ := parse_eq_ok_iff.mp h
    obtain ⟨htokens, htree⟩ := d.bare_of_writes hwrites
    exact d.exists_phrase (htokens ▸ hus.writable) htree

/-- A printed binding with a number in it, and a pipe into a name in parentheses. -/
theorem Expr.parse_print_meanOfTwo :
    (∃ t : Phrase, t.print = "let m = (mean (close) (2)) in (m)" ∧ ∃ e, parse t.print = .ok e ∧
      e.bare = .binding nowhere "m" (.application nowhere "mean"
        [.reference nowhere "close", .literal nowhere (Decimal.nearest 2 0)])
        (.reference nowhere "m")) ∧
      ∃ e, parse "close |> (mean) volume" = .ok e ∧ ∃ t : Phrase, t.expr = e.bare := by
  have hpiece : piece? '2' ([] ++ []) =
      some ⟨some (.literal (Decimal.nearest 2 0)), ([] : List Char).length⟩ := rfl
  let two : Numeral :=
    ⟨"2", Decimal.nearest 2 0, Token.scan_eq_ok_iff.mpr ⟨[_], .token hpiece .done, rfl⟩⟩
  let mean : Identifier := ⟨"mean", by decide, by decide, by decide⟩
  let close : Identifier := ⟨"close", by decide, by decide, by decide⟩
  let m : Identifier := ⟨"m", by decide, by decide, by decide⟩
  let t : Phrase := .binding m
    (.application mean (.more (.reference close) (.one (.literal two)))) (.reference m)
  have hprint : t.print = "let m = (mean (close) (2)) in (m)" := by cbv
  have hexpr : t.expr = .binding nowhere "m" (.application nowhere "mean"
      [.reference nowhere "close", .literal nowhere (Decimal.nearest 2 0)])
      (.reference nowhere "m") := by
    simp [t, Phrase.expr, Phrases.exprs, m, mean, close, two]
  have hpiped : parse "close |> (mean) volume" = .ok (.application ⟨0, 22⟩ "mean"
      [.reference ⟨0, 5⟩ "close", .reference ⟨16, 22⟩ "volume"]) := by
    cbv
  obtain ⟨hread, hwrite⟩ := parse_print
  refine ⟨⟨t, hprint, ?_⟩, _, hpiped, hwrite _ _ hpiped⟩
  rw [← hexpr]
  exact hread t

end SignalLab
