import SignalLab.Proofs.Token.Numeral

/-!
# What a text can begin with

A text begins with a gap, with a token, or with a character at which neither begins. `Begins` says of
a piece of a text what it is, and that it is the longest of its kind, in terms of its characters and of
those behind it; `Misfit` says of a character why no piece begins with it. A piece is cut off exactly
as these two say (`piece?_eq_some_iff`, `piece?_eq_none_iff`).
-/

namespace SignalLab

variable {c : Char} {cs front rest text : List Char} {kind : TokenKind} {kind? : Option TokenKind}

/-! ## Tokens and gaps -/

/-- Whether a word ends where the rest of a text follows. -/
def EndsWord (rest : List Char) : Prop := ∀ c ∈ rest.head?, isWordPart c = false

/-- A text is a token of a kind where the rest follows, and no longer one begins with it. -/
inductive Lexeme : TokenKind → List Char → List Char → Prop
  | opening {rest : List Char} : Lexeme .opening ['('] rest
  | closing {rest : List Char} : Lexeme .closing [')'] rest
  | equals {rest : List Char} : Lexeme .equals ['='] rest
  | pipe {rest : List Char} : Lexeme .pipe ['|', '>'] rest
  | letWord {rest : List Char} (ends : EndsWord rest) : Lexeme .letWord ['l', 'e', 't'] rest
  | inWord {rest : List Char} (ends : EndsWord rest) : Lexeme .inWord ['i', 'n'] rest
  | reference {name : String} {rest : List Char} (word : isWord name.toList = true)
      (notLet : name ≠ "let") (notIn : name ≠ "in") (ends : EndsWord rest) :
      Lexeme (.reference name) name.toList rest
  | literal {text rest : List Char} {value : Float}
      (longest : Longest numeralForm (text ++ rest) text)
      (reads : Decimal.readFloatChars text = .ok value) : Lexeme (.literal value) text rest

/-- A text is a piece where the rest follows: a token, a blank, or a comment up to the end of its
line. -/
inductive Begins : Option TokenKind → List Char → List Char → Prop
  | blank {c : Char} {rest : List Char} (isGap : isGapChar c = true) : Begins none [c] rest
  | comment {text rest : List Char} (inside : ∀ c ∈ text, isLineEnd c = false)
      (ends : ∀ c ∈ rest.head?, isLineEnd c = true) : Begins none ('#' :: text) rest
  | token {kind : TokenKind} {text rest : List Char} (lexeme : Lexeme kind text rest) :
      Begins (some kind) text rest

/-- Neither a gap nor a token begins with a character where the rest follows. -/
inductive Misfit (c : Char) (rest : List Char) : Prop
  /-- No piece begins with this character. -/
  | stray (notGap : isGapChar c = false) (notSign : c ∉ ['#', '(', ')', '=', '|'])
      (notWord : isWordStart c = false) (notNumeral : isNumeralStart c = false)
  /-- A bar that is not the first half of a pipe. -/
  | bar (isBar : c = '|') (notPipe : rest.head? ≠ some '>')
  /-- A numeral that is no number, since digits are missing before its exponent or in it. -/
  | numeral {text : List Char} (isStart : isNumeralStart c = true)
      (longest : Longest numeralForm (c :: rest) text)
      (refused : ∃ fault, Decimal.readFloatChars text = .error fault)
      (missing : text ∈ digitlessForm ∨ text ∈ openForm)

/-! ## First characters -/

theorem not_isWordStart_of_isNumeralStart (h : isNumeralStart c = true) : isWordStart c = false := by
  simp only [isNumeralStart, Decimal.isSign, Bool.or_eq_true, beq_iff_eq] at h
  rcases h with (hdigit | rfl) | rfl | rfl
  · have hnine : '9'.val.toNat = 57 := rfl
    have ha : 'a'.val.toNat = 97 := rfl
    have hne : c ≠ '_' := by
      rintro rfl
      exact absurd hdigit (by decide)
    simp only [Char.isDigit, Bool.and_eq_true, decide_eq_true_eq, UInt32.le_iff_toNat_le] at hdigit
    simp only [isWordStart, Char.isLower, Bool.or_eq_false_iff, beq_eq_false_iff_ne]
    refine ⟨?_, hne⟩
    simp only [Bool.and_eq_false_iff, decide_eq_false_iff_not, UInt32.le_iff_toNat_le]
    omega
  · rfl
  · rfl
  · rfl

/-- A numeral is read as soon as it begins. -/
theorem piece?_of_isNumeralStart (h : isNumeralStart c = true) (rest : List Char) :
    piece? c rest = (Decimal.readFloatChars (numeral (c :: rest))).toOption.map fun value =>
      ⟨some (.literal value), (numeral (c :: rest)).length - 1⟩ := by
  have hne : ∀ d, isNumeralStart d = false → c ≠ d := by
    rintro d hd rfl
    rw [h] at hd
    cases hd
  have hgap : isGapChar c = false := by
    simp [isGapChar, hne ' ' (by decide), hne '\t' (by decide), hne '\n' (by decide),
      hne '\r' (by decide)]
  have hword := not_isWordStart_of_isNumeralStart h
  rw [piece?, if_neg (by simp [hgap]), if_neg (hne '#' (by decide)), if_neg (hne '(' (by decide)),
    if_neg (hne ')' (by decide)), if_neg (hne '=' (by decide)), if_neg (hne '|' (by decide)),
    if_neg (by simp [hword]), if_pos h]
  dsimp only
  rcases Decimal.readFloatChars (numeral (c :: rest)) with fault | value <;> rfl

/-- A numeral that is a number begins with a sign, a digit or a point, and not with an exponent. -/
theorem isNumeralStart_of_reads {value : Float} (hform : c :: front ∈ numeralForm)
    (hreads : Decimal.readFloatChars (c :: front) = .ok value) : isNumeralStart c = true := by
  have hdigitless : c :: front ∉ digitlessForm := by
    intro hmem
    obtain ⟨fault, hfault⟩ := (readFloatChars_error_iff hform).mpr (.inl hmem)
    rw [hfault] at hreads
    cases hreads
  obtain ⟨sign, hsign, unsigned, hunsigned, heq⟩ := Language.mem_mul.mp hform
  obtain ⟨whole, hwhole, behind, hbehind, rfl⟩ := Language.mem_mul.mp hunsigned
  obtain ⟨fraction, hfraction, exponent, hexponent, rfl⟩ := Language.mem_mul.mp hbehind
  rcases mem_optionally.mp hsign with rfl | ⟨d, hd, rfl⟩
  · rcases whole with _ | ⟨d, whole⟩
    · rcases mem_optionally.mp hfraction with rfl | hpoint
      · -- without sign, digits and point only the exponent is left
        refine absurd ?_ hdigitless
        rw [← heq]
        exact Language.append_mem_mul (nil_mem_optionally _)
          (Language.append_mem_mul (nil_mem_optionally _) hexponent)
      · obtain ⟨_, ⟨d, hd, rfl⟩, digits, -, rfl⟩ := Language.mem_mul.mp hpoint
        obtain ⟨rfl, -⟩ := List.cons.inj heq
        have hpoint : (d == '.') = true := hd
        simp [isNumeralStart, hpoint]
    · obtain ⟨rfl, -⟩ := List.cons.inj heq
      simp [isNumeralStart, mem_kstar_oneOf.mp hwhole d List.mem_cons_self]
  · obtain ⟨rfl, -⟩ := List.cons.inj heq
    simp [isNumeralStart, hd]

/-! ## Cutting pieces off -/

theorem lexeme_wordKind {word : String} (hword : isWord word.toList = true) (hends : EndsWord rest) :
    Lexeme (wordKind word) word.toList rest := by
  unfold wordKind
  split_ifs with hlet hin
  · rw [hlet]
    exact .letWord hends
  · rw [hin]
    exact .inWord hends
  · exact .reference hword hlet hin hends

/-- What is cut off a text is a piece. -/
theorem exists_begins_of_piece? {more : Nat} (h : piece? c cs = some ⟨kind?, more⟩) :
    ∃ front rest, cs = front ++ rest ∧ front.length = more ∧ Begins kind? (c :: front) rest := by
  unfold piece? at h
  split_ifs at h with hgap hcomment hopening hclosing hequals hpipe hhead hword hnumeral
  · cases h
    exact ⟨[], cs, rfl, rfl, .blank hgap⟩
  · cases h
    subst hcomment
    refine ⟨cs.takeWhile (!isLineEnd ·), cs.dropWhile (!isLineEnd ·),
      List.takeWhile_append_dropWhile.symm, rfl, .comment (fun d hd => ?_) fun d hd => ?_⟩
    · simpa using List.mem_takeWhile_imp hd
    · simpa using head?_dropWhile_stop (!isLineEnd ·) cs d hd
  · cases h
    exact ⟨[], cs, rfl, rfl, hopening ▸ .token .opening⟩
  · cases h
    exact ⟨[], cs, rfl, rfl, hclosing ▸ .token .closing⟩
  · cases h
    exact ⟨[], cs, rfl, rfl, hequals ▸ .token .equals⟩
  · cases h
    obtain ⟨rest, rfl⟩ := List.head?_eq_some_iff.mp hhead
    exact ⟨['>'], rest, rfl, rfl, hpipe ▸ .token .pipe⟩
  · cases h
    refine ⟨cs.takeWhile isWordPart, cs.dropWhile isWordPart,
      List.takeWhile_append_dropWhile.symm, rfl, .token ?_⟩
    have hisWord : isWord (String.ofList (c :: cs.takeWhile isWordPart)).toList = true := by
      rw [String.toList_ofList, isWord, hword, Bool.true_and, List.all_eq_true]
      exact fun d hd => List.mem_takeWhile_imp hd
    have hlexeme := lexeme_wordKind hisWord (head?_dropWhile_stop isWordPart cs)
    rwa [String.toList_ofList] at hlexeme
  · dsimp only at h
    split at h
    · next value hvalue =>
      cases h
      have hlongest := longest_numeral (c :: cs)
      generalize numeral (c :: cs) = text at hvalue hlongest
      -- a text that writes a number is not empty, so it begins with the first character
      rcases text with _ | ⟨d, front⟩
      · simp [Decimal.readFloatChars] at hvalue
      · obtain ⟨rfl, rest, rfl⟩ := List.cons_prefix_cons.mp hlongest.begins
        exact ⟨front, rest, rfl, rfl, .token (.literal hlongest hvalue)⟩
    · cases h

/-- A word is cut off where it ends. -/
theorem piece?_of_isWord (word : String) (hword : isWord word.toList = true)
    (htext : word.toList = c :: front) (hends : EndsWord rest) :
    piece? c (front ++ rest) = some ⟨some (wordKind word), front.length⟩ := by
  rw [htext, isWord, Bool.and_eq_true, List.all_eq_true] at hword
  rw [piece?_of_isWordStart hword.1, takeWhile_append_stop hword.2 hends, ← htext,
    String.ofList_toList]

theorem Lexeme.piece? (h : Lexeme kind (c :: front) rest) :
    piece? c (front ++ rest) = some ⟨some kind, front.length⟩ := by
  generalize htext : c :: front = text at h
  cases h with
  | opening | closing | equals | pipe =>
    cases htext
    rfl
  | letWord hends => exact piece?_of_isWord "let" rfl htext.symm hends
  | inWord hends => exact piece?_of_isWord "in" rfl htext.symm hends
  | @reference name _ hword hlet hin hends =>
    have h := piece?_of_isWord name hword htext.symm hends
    rwa [wordKind, if_neg hlet, if_neg hin] at h
  | literal hlongest hreads =>
    subst htext
    have hnumeral : numeral (c :: (front ++ rest)) = c :: front :=
      (longest_numeral _).eq hlongest
    rw [piece?_of_isNumeralStart (isNumeralStart_of_reads hlongest.mem hreads), hnumeral, hreads]
    rfl

/-- A piece is cut off where it ends. -/
theorem Begins.piece? (h : Begins kind? (c :: front) rest) :
    piece? c (front ++ rest) = some ⟨kind?, front.length⟩ := by
  cases h with
  | blank hgap => rw [SignalLab.piece?, if_pos hgap]; rfl
  | comment hinside hends =>
    have hinside' : ∀ d ∈ front, (!isLineEnd d) = true := by simpa using hinside
    have hends' : ∀ d ∈ rest.head?, (!isLineEnd d) = false := by simpa using hends
    have htext := takeWhile_append_stop hinside' hends'
    rw [SignalLab.piece?, if_neg (by decide), if_pos rfl, htext]
  | token hlexeme => exact hlexeme.piece?

/-- **A piece is cut off a text** exactly if it is what the text begins with. -/
theorem piece?_eq_some_iff :
    piece? c (front ++ rest) = some ⟨kind?, front.length⟩ ↔ Begins kind? (c :: front) rest := by
  refine ⟨fun h => ?_, Begins.piece?⟩
  obtain ⟨front', rest', happend, hlength, hbegins⟩ := exists_begins_of_piece? h
  obtain ⟨rfl, rfl⟩ := List.append_inj happend hlength.symm
  exact hbegins

/-- **Nothing is cut off a text** exactly if it begins with a misfit. -/
theorem piece?_eq_none_iff : piece? c rest = none ↔ Misfit c rest := by
  constructor
  · intro h
    unfold piece? at h
    split_ifs at h with hgap hcomment hopening hclosing hequals hpipe hhead hword hnumeral
    · exact .bar hpipe hhead
    · dsimp only at h
      split at h
      · cases h
      · next fault hfault =>
        have hlongest := longest_numeral (c :: rest)
        have hrefused : ∃ fault, Decimal.readFloatChars (numeral (c :: rest)) = .error fault :=
          ⟨fault, hfault⟩
        exact .numeral hnumeral hlongest hrefused
          ((readFloatChars_error_iff hlongest.mem).mp hrefused)
    · exact .stray (by simpa using hgap) (by simp [hcomment, hopening, hclosing, hequals, hpipe])
        (by simpa using hword) (by simpa using hnumeral)
  · rintro (⟨hgap, hsign, hword, hnumeral⟩ | ⟨rfl, hhead⟩ | ⟨hstart, hlongest, hrefused, -⟩)
    · simp only [List.mem_cons, List.not_mem_nil, or_false, not_or] at hsign
      obtain ⟨hcomment, hopening, hclosing, hequals, hpipe⟩ := hsign
      simp [piece?, hgap, hcomment, hopening, hclosing, hequals, hpipe, hword, hnumeral]
    · rw [piece?, if_neg (by decide), if_neg (by decide), if_neg (by decide), if_neg (by decide),
        if_neg (by decide), if_pos rfl, if_neg hhead]
    · obtain ⟨fault, hfault⟩ := hrefused
      rw [piece?_of_isNumeralStart hstart, (longest_numeral _).eq hlongest, hfault]
      rfl

theorem Lexeme.ne_nil (h : Lexeme kind text rest) : text ≠ [] := by
  cases h with
  | @reference name _ hword _ _ _ =>
    intro hnil
    rw [hnil] at hword
    cases hword
  | literal _ hreads =>
    rintro rfl
    cases hreads
  | _ => simp

theorem Begins.ne_nil (h : Begins kind? text rest) : text ≠ [] := by
  cases h with
  | token hlexeme => exact hlexeme.ne_nil
  | _ => simp

/-- No token begins with a misfit. -/
theorem Misfit.not_lexeme (h : Misfit c rest) {after : List Char} (htext : text ++ after = c :: rest) :
    ¬ Lexeme kind text after := by
  intro hlexeme
  obtain ⟨d, front, rfl⟩ := List.exists_cons_of_ne_nil hlexeme.ne_nil
  rw [List.cons_append, List.cons.injEq] at htext
  obtain ⟨rfl, rfl⟩ := htext
  have hpiece := hlexeme.piece?
  rw [piece?_eq_none_iff.mpr h] at hpiece
  cases hpiece

/-- A text begins with one piece only. -/
theorem Begins.unique {kind?' : Option TokenKind} {text' rest' : List Char}
    (h : Begins kind? text rest) (h' : Begins kind?' text' rest')
    (heq : text ++ rest = text' ++ rest') : kind? = kind?' ∧ text = text' ∧ rest = rest' := by
  obtain ⟨c, front, rfl⟩ := List.exists_cons_of_ne_nil h.ne_nil
  obtain ⟨c', front', rfl⟩ := List.exists_cons_of_ne_nil h'.ne_nil
  rw [List.cons_append, List.cons_append, List.cons.injEq] at heq
  obtain ⟨rfl, heq⟩ := heq
  have hpiece := h.piece?
  rw [heq, h'.piece?, Option.some.injEq, Piece.mk.injEq] at hpiece
  obtain ⟨hkind, hlength⟩ := hpiece
  obtain ⟨rfl, rfl⟩ := List.append_inj heq hlength.symm
  exact ⟨hkind.symm, rfl, rfl⟩

/-! ## Characters of tokens -/

theorem not_isGapChar_of_class {p : Char → Bool} (hspace : p ' ' = false) (htab : p '\t' = false)
    (hfeed : p '\n' = false) (hreturn : p '\r' = false) (h : p c = true) :
    isGapChar c = false := by
  by_contra hgap
  simp only [isGapChar, Bool.not_eq_false, Bool.or_eq_true, beq_iff_eq] at hgap
  rcases hgap with ((rfl | rfl) | rfl) | rfl <;> simp_all

/-- The characters of tokens are those of signs, words and numerals. -/
theorem Lexeme.forall_mem {q : Char → Prop} (h : Lexeme kind text rest)
    (hsign : ∀ c ∈ ['(', ')', '=', '|', '>'], q c) (hword : ∀ c, isWordPart c = true → q c)
    (hnumeral : ∀ c, isNumeralPart c = true → q c) : ∀ c ∈ text, q c := by
  intro c hc
  cases h with
  | opening | closing | equals | pipe => exact hsign c (by simp_all)
  | letWord =>
    have hall : ['l', 'e', 't'].all isWordPart = true := rfl
    exact hword c (List.all_eq_true.mp hall c hc)
  | inWord =>
    have hall : ['i', 'n'].all isWordPart = true := rfl
    exact hword c (List.all_eq_true.mp hall c hc)
  | @reference name _ hisWord _ _ _ => exact hword c (isWordPart_of_isWord hisWord c hc)
  | literal hlongest _ => exact hnumeral c (within_numeralForm _ hlongest.mem c hc)

/-- No token has a character that separates tokens. -/
theorem Lexeme.not_isGapChar (h : Lexeme kind text rest) : ∀ c ∈ text, isGapChar c = false :=
  h.forall_mem (by simp [isGapChar]) (fun _ => not_isGapChar_of_class rfl rfl rfl rfl) fun _ =>
    not_isGapChar_of_class rfl rfl rfl rfl

/-- A piece stays one if the text behind it is replaced by one that does not go on with it. -/
theorem Begins.replace {rest' : List Char} (h : Begins kind? text rest)
    (hrest : Replaces (endsPiece kind?) rest rest') : Begins kind? text rest' := by
  obtain ⟨c, front, rfl⟩ := List.exists_cons_of_ne_nil h.ne_nil
  exact piece?_eq_some_iff.mp (piece?_append_replace h.piece? hrest)

end SignalLab
