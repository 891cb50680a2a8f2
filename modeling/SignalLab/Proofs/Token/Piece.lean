import Mathlib.Data.List.TakeDrop
import Mathlib.Data.List.TakeWhile
import SignalLab.Proofs.Text.Trimming
import SignalLab.Token.Scan

/-!
# Where a piece of a text ends

Every piece of a text is the longest that begins where it stands, so what it is depends on its own
characters and on the one behind it, which does not go on with it. Behind the piece the text may
therefore be replaced by any other that begins with the same character, or with one that goes on with
no piece of this kind, or by nothing (`piece?_replace`).

## Shape of the argument

A numeral is cut off in stages, of which each takes as many characters as it can. Such a stage is
`Greedy`, and so are two stages after each other: where the second takes nothing, the first stopped at
the character that follows both.
-/

namespace SignalLab

/-! ## Replacing the rest of a text -/

/-- Whether `rest'` may take the place of `rest` behind something that ends at `stops`. -/
def Replaces (stops : Char → Bool) (rest rest' : List Char) : Prop :=
  rest'.head? = rest.head? ∨ ∀ c ∈ rest'.head?, stops c = true

variable {stops p : Char → Bool}

theorem Replaces.append {rest rest' : List Char} (h : Replaces stops rest rest')
    (front : List Char) : Replaces stops (front ++ rest) (front ++ rest') := by
  rcases front with _ | ⟨c, front⟩
  · exact h
  · exact .inl rfl

theorem replaces_nil (stops : Char → Bool) (rest : List Char) : Replaces stops rest [] :=
  .inr (by simp)

/-- Cutting a text off further behind changes nothing for what ends before. -/
theorem replaces_append (stops : Char → Bool) (front back : List Char) :
    Replaces stops (front ++ back) front := by
  rcases front with _ | ⟨c, front⟩
  · exact replaces_nil stops _
  · exact .inl rfl

/-- No character of a class stands at the front of what replaces a text that begins with none. -/
theorem Replaces.forall_head? {rest rest' : List Char} (h : Replaces stops rest rest')
    (hstops : ∀ c, stops c = true → p c = false) (hrest : ∀ c ∈ rest.head?, p c = false) :
    ∀ c ∈ rest'.head?, p c = false := by
  rcases h with hsame | hstop
  · rwa [hsame]
  · exact fun c hc => hstops c (hstop c hc)

/-! ## Greedy stages -/

/-- A stage takes characters from the front of a text, and takes the same ones when the rest is
replaced. -/
def Greedy (stops : Char → Bool) (f : List Char → List Char) : Prop :=
  ∀ cs, ∃ rest, cs = f cs ++ rest ∧ ∀ rest', Replaces stops rest rest' → f (f cs ++ rest') = f cs

/-- One stage after another. -/
def andThen (f g : List Char → List Char) (cs : List Char) : List Char :=
  f cs ++ g (cs.drop (f cs).length)

/-- The second stage takes from what the first one leaves. -/
theorem andThen_of_append {f g : List Char → List Char} {cs rest : List Char}
    (h : f cs ++ rest = cs) : andThen f g cs = f cs ++ g rest := by
  have hdrop : cs.drop (f cs).length = rest :=
    calc cs.drop (f cs).length = (f cs ++ rest).drop (f cs).length := by rw [h]
      _ = rest := List.drop_left
  rw [andThen, hdrop]

theorem takeWhile_append_stop {front rest : List Char} (hfront : ∀ c ∈ front, p c = true)
    (hrest : ∀ c ∈ rest.head?, p c = false) : (front ++ rest).takeWhile p = front := by
  rw [List.takeWhile_append_of_pos hfront]
  rcases rest with _ | ⟨c, rest⟩
  · simp
  · have hc : p c = false := hrest c rfl
    rw [List.takeWhile_cons, if_neg (by simp [hc]), List.append_nil]

/-- Where characters of one class end is decided by the whole text. -/
theorem eq_of_append_stop {front front' rest rest' : List Char} (hfront : ∀ c ∈ front, p c = true)
    (hrest : ∀ c ∈ rest.head?, p c = false) (hfront' : ∀ c ∈ front', p c = true)
    (hrest' : ∀ c ∈ rest'.head?, p c = false) (h : front ++ rest = front' ++ rest') :
    front = front' ∧ rest = rest' := by
  have heq : front = front' := by
    rw [← takeWhile_append_stop hfront hrest, h, takeWhile_append_stop hfront' hrest']
  rw [heq] at h
  exact ⟨heq, List.append_cancel_left h⟩

theorem takeWhile_replace (hstops : ∀ c, stops c = true → p c = false) {cs rest : List Char}
    (h : Replaces stops (cs.dropWhile p) rest) :
    (cs.takeWhile p ++ rest).takeWhile p = cs.takeWhile p :=
  takeWhile_append_stop (fun _ hc => List.mem_takeWhile_imp hc)
    (h.forall_head? hstops (head?_dropWhile_stop p cs))

theorem greedy_takeWhile (hstops : ∀ c, stops c = true → p c = false) :
    Greedy stops (List.takeWhile p) := fun cs =>
  ⟨cs.dropWhile p, List.takeWhile_append_dropWhile.symm, fun _ h => takeWhile_replace hstops h⟩

theorem greedy_splitOne (hstops : ∀ c, stops c = true → p c = false) :
    Greedy stops fun cs => (splitOne p cs).1 := by
  rintro (_ | ⟨c, cs⟩)
  · refine ⟨[], rfl, fun rest' hrest' => ?_⟩
    have hnone := hrest'.forall_head? hstops (by simp)
    rcases rest' with _ | ⟨d, rest'⟩
    · rfl
    · have hd : p d = false := hnone d rfl
      simp [splitOne, hd]
  · by_cases hc : p c
    · refine ⟨cs, by simp [splitOne, hc], fun rest' _ => by simp [splitOne, hc]⟩
    · refine ⟨c :: cs, by simp [splitOne, hc], fun rest' hrest' => ?_⟩
      have hnone := hrest'.forall_head? hstops (by simpa using hc)
      simp only [splitOne, hc, Bool.false_eq_true, if_false, List.nil_append]
      rcases rest' with _ | ⟨d, rest'⟩
      · rfl
      · have hd : p d = false := hnone d rfl
        simp [hd]

theorem Greedy.andThen {f g : List Char → List Char} (hf : Greedy stops f) (hg : Greedy stops g) :
    Greedy stops (andThen f g) := by
  intro cs
  obtain ⟨middle, hcs, hfirst⟩ := hf cs
  obtain ⟨rest, hmiddle, hsecond⟩ := hg middle
  have hboth : SignalLab.andThen f g cs = f cs ++ g middle := andThen_of_append hcs.symm
  refine ⟨rest, by rw [hboth, List.append_assoc, ← hmiddle, ← hcs], fun rest' hrest' => ?_⟩
  -- the first stage stops where the second begins, or where both end
  have hreplaces : Replaces stops middle (g middle ++ rest') := by
    have := hrest'.append (g middle)
    rwa [← hmiddle] at this
  rw [hboth, List.append_assoc, SignalLab.andThen, hfirst _ hreplaces, List.drop_left,
    hsecond _ hrest']

/-! ## Numerals -/

/-- The characters that can go on with a word or a numeral. -/
def isTokenPart (c : Char) : Bool := isWordPart c || isNumeralStart c || isExponentMark c

/-- The characters at which every token ends. -/
def endsToken (c : Char) : Bool := !isTokenPart c

theorem isWordPart_of_endsToken {c : Char} (h : endsToken c = true) : isWordPart c = false := by
  simp only [endsToken, isTokenPart, Bool.not_eq_true', Bool.or_eq_false_iff] at h
  exact h.1.1

theorem isNumeralPart_of_endsToken {c : Char} (h : endsToken c = true) :
    Decimal.isSign c = false ∧ c.isDigit = false ∧ (c == '.') = false ∧ isExponentMark c = false := by
  simp only [endsToken, isTokenPart, isNumeralStart, Bool.not_eq_true', Bool.or_eq_false_iff] at h
  exact ⟨h.1.2.2, h.1.2.1.1, h.1.2.1.2, h.2⟩

theorem drop_length_splitOne (p : Char → Bool) (cs : List Char) :
    cs.drop (splitOne p cs).1.length = (splitOne p cs).2 := by
  rcases cs with _ | ⟨c, cs⟩
  · rfl
  · by_cases hc : p c <;> simp [splitOne, hc]

theorem drop_length_takeWhile (p : Char → Bool) (cs : List Char) :
    cs.drop (cs.takeWhile p).length = cs.dropWhile p := by
  calc cs.drop (cs.takeWhile p).length
      = (cs.takeWhile p ++ cs.dropWhile p).drop (cs.takeWhile p).length := by
        rw [List.takeWhile_append_dropWhile]
    _ = cs.dropWhile p := List.drop_left

theorem exponentPart_cons (c : Char) (cs : List Char) :
    exponentPart (c :: cs) =
      if isExponentMark c then
        c :: andThen (fun cs => (splitOne Decimal.isSign cs).1) (List.takeWhile Char.isDigit) cs
      else [] := by
  by_cases hc : isExponentMark c
  · have hmark : splitOne isExponentMark (c :: cs) = ([c], cs) := by rw [splitOne, if_pos hc]
    simp only [exponentPart, hmark, if_pos hc, andThen, drop_length_splitOne]
    rfl
  · rw [if_neg hc]
    simp [exponentPart, splitOne, hc]

/-- A numeral is cut off in five stages. -/
theorem numeral_eq (cs : List Char) :
    numeral cs =
      andThen (fun cs => (splitOne Decimal.isSign cs).1) (andThen (List.takeWhile Char.isDigit)
        (andThen (fun cs => (splitOne (· == '.') cs).1)
          (andThen (List.takeWhile Char.isDigit) exponentPart))) cs := by
  simp only [numeral, andThen, drop_length_splitOne, drop_length_takeWhile,
    List.span_eq_takeWhile_dropWhile, List.append_assoc]

theorem greedy_exponentPart : Greedy endsToken exponentPart := by
  have hmagnitude : Greedy endsToken
      (andThen (fun cs => (splitOne Decimal.isSign cs).1) (List.takeWhile Char.isDigit)) :=
    (greedy_splitOne fun c hc => (isNumeralPart_of_endsToken hc).1).andThen
      (greedy_takeWhile fun c hc => (isNumeralPart_of_endsToken hc).2.1)
  have hnone : ∀ rest : List Char, (∀ c ∈ rest.head?, isExponentMark c = false) →
      exponentPart rest = [] := by
    rintro (_ | ⟨c, rest⟩) hrest
    · rfl
    · have hc : isExponentMark c = false := hrest c rfl
      rw [exponentPart_cons, if_neg (by simp [hc])]
  have hstops : ∀ c, endsToken c = true → isExponentMark c = false :=
    fun c hc => (isNumeralPart_of_endsToken hc).2.2.2
  rintro (_ | ⟨c, cs⟩)
  · exact ⟨[], rfl, fun rest' hrest' => hnone _ (hrest'.forall_head? hstops (by simp))⟩
  · rw [exponentPart_cons]
    by_cases hc : isExponentMark c
    · obtain ⟨rest, hcs, hrest⟩ := hmagnitude cs
      rw [if_pos hc]
      refine ⟨rest, by rw [List.cons_append, ← hcs], fun rest' hrest' => ?_⟩
      rw [List.cons_append, exponentPart_cons, if_pos hc, hrest rest' hrest']
    · rw [if_neg hc]
      exact ⟨c :: cs, rfl, fun rest' hrest' =>
        hnone _ (hrest'.forall_head? hstops (by simpa using hc))⟩

theorem greedy_numeral : Greedy endsToken numeral := by
  rw [show numeral = _ from funext numeral_eq]
  have hdigits : Greedy endsToken (List.takeWhile Char.isDigit) :=
    greedy_takeWhile fun c hc => (isNumeralPart_of_endsToken hc).2.1
  have hsign : Greedy endsToken fun cs => (splitOne Decimal.isSign cs).1 :=
    greedy_splitOne fun c hc => (isNumeralPart_of_endsToken hc).1
  have hpoint : Greedy endsToken fun cs => (splitOne (· == '.') cs).1 :=
    greedy_splitOne fun c hc => (isNumeralPart_of_endsToken hc).2.2.1
  exact hsign.andThen (hdigits.andThen (hpoint.andThen (hdigits.andThen greedy_exponentPart)))

/-! ## Pieces -/

/-- A word goes on as long as its characters do. -/
theorem piece?_of_isWordStart {c : Char} (h : isWordStart c = true) (rest : List Char) :
    piece? c rest = some ⟨some (wordKind (String.ofList (c :: rest.takeWhile isWordPart))),
      (rest.takeWhile isWordPart).length⟩ := by
  have hne : ∀ d, isWordStart d = false → c ≠ d := by
    rintro d hd rfl
    rw [h] at hd
    cases hd
  have hgap : isGapChar c = false := by
    simp [isGapChar, hne ' ' (by decide), hne '\t' (by decide), hne '\n' (by decide),
      hne '\r' (by decide)]
  rw [piece?, if_neg (by simp [hgap]), if_neg (hne '#' (by decide)), if_neg (hne '(' (by decide)),
    if_neg (hne ')' (by decide)), if_neg (hne '=' (by decide)), if_neg (hne '|' (by decide)),
    if_pos h]

/-- The characters at which a piece ends: a gap at the end of its line, a token at what goes on with no
token. -/
def endsPiece : Option TokenKind → Char → Bool
  | none => isLineEnd
  | some _ => endsToken

/-- **A piece depends on its own characters and on where it ends.** -/
theorem piece?_replace {c : Char} {rest : List Char} {kind? : Option TokenKind} {more : Nat}
    (h : piece? c rest = some ⟨kind?, more⟩) :
    ∃ front back, rest = front ++ back ∧ front.length = more ∧
      ∀ back', Replaces (endsPiece kind?) back back' →
        piece? c (front ++ back') = some ⟨kind?, more⟩ := by
  unfold piece? at h
  split_ifs at h with hgap hcomment hopening hclosing hequals hpipe hhead hword hnumeral
  · cases h
    exact ⟨[], rest, rfl, rfl, fun _ _ => by rw [piece?, if_pos hgap]⟩
  · -- a comment goes on up to the end of its line
    cases h
    refine ⟨rest.takeWhile (!isLineEnd ·), rest.dropWhile (!isLineEnd ·),
      List.takeWhile_append_dropWhile.symm, rfl, fun back' hback' => ?_⟩
    have hends : ∀ d, endsPiece none d = true → (!isLineEnd d) = false := by simp [endsPiece]
    rw [piece?, if_neg hgap, if_pos hcomment, takeWhile_replace hends hback']
  · cases h
    refine ⟨[], rest, rfl, rfl, fun _ _ => ?_⟩
    rw [piece?, if_neg hgap, if_neg hcomment, if_pos hopening]
  · cases h
    refine ⟨[], rest, rfl, rfl, fun _ _ => ?_⟩
    rw [piece?, if_neg hgap, if_neg hcomment, if_neg hopening, if_pos hclosing]
  · cases h
    refine ⟨[], rest, rfl, rfl, fun _ _ => ?_⟩
    rw [piece?, if_neg hgap, if_neg hcomment, if_neg hopening, if_neg hclosing, if_pos hequals]
  · cases h
    obtain ⟨back, rfl⟩ := List.head?_eq_some_iff.mp hhead
    refine ⟨['>'], back, rfl, rfl, fun _ _ => ?_⟩
    rw [piece?, if_neg hgap, if_neg hcomment, if_neg hopening, if_neg hclosing, if_neg hequals,
      if_pos hpipe]
    rfl
  · cases h
    refine ⟨rest.takeWhile isWordPart, rest.dropWhile isWordPart,
      List.takeWhile_append_dropWhile.symm, rfl, fun back' hback' => ?_⟩
    rw [piece?_of_isWordStart hword, takeWhile_replace (fun _ => isWordPart_of_endsToken) hback']
  · dsimp only at h
    split at h
    · next value hvalue =>
      cases h
      obtain ⟨back, htext, hback⟩ := greedy_numeral (c :: rest)
      -- a text that writes a number is not empty, so it begins with the first character
      rcases hnum : numeral (c :: rest) with _ | ⟨d, front⟩
      · rw [hnum] at hvalue
        simp [Decimal.readFloatChars] at hvalue
      · rw [hnum, List.cons_append, List.cons.injEq] at htext
        obtain ⟨rfl, rfl⟩ := htext
        refine ⟨front, back, rfl, rfl, fun back' hback' => ?_⟩
        rw [piece?, if_neg hgap, if_neg hcomment, if_neg hopening, if_neg hclosing, if_neg hequals,
          if_neg hpipe, if_neg hword, if_pos hnumeral]
        dsimp only
        rw [← List.cons_append, ← hnum, hback back' hback', hvalue]
    · cases h

/-- Where a piece is known to end, its rest can be replaced. -/
theorem piece?_append_replace {c : Char} {front rest rest' : List Char} {kind? : Option TokenKind}
    (h : piece? c (front ++ rest) = some ⟨kind?, front.length⟩)
    (hrest : Replaces (endsPiece kind?) rest rest') :
    piece? c (front ++ rest') = some ⟨kind?, front.length⟩ := by
  obtain ⟨front', back, happend, hlength, hreplace⟩ := piece?_replace h
  obtain ⟨rfl, rfl⟩ := List.append_inj happend hlength.symm
  exact hreplace rest' hrest

/-! ## Kinds of pieces -/

/-- Whether a text is a single word. -/
def isWord : List Char → Bool
  | [] => false
  | c :: rest => isWordStart c && rest.all isWordPart

theorem isWordPart_of_isWord {cs : List Char} (h : isWord cs = true) :
    ∀ c ∈ cs, isWordPart c = true := by
  rcases cs with _ | ⟨d, rest⟩
  · cases h
  · rw [isWord, Bool.and_eq_true, List.all_eq_true] at h
    intro c hc
    rcases List.mem_cons.mp hc with rfl | hc
    · rw [isWordPart, h.1, Bool.true_or]
    · exact h.2 c hc

/-- The kinds of tokens that are pieces of a text. -/
inductive PieceKind : TokenKind → Prop
  | opening : PieceKind .opening
  | closing : PieceKind .closing
  | equals : PieceKind .equals
  | pipe : PieceKind .pipe
  | literal (value : Float) : PieceKind (.literal value)
  | word (word : String) (h : isWord word.toList = true) : PieceKind (wordKind word)

theorem pieceKind_of_piece? {c : Char} {rest : List Char} {kind : TokenKind} {more : Nat}
    (h : piece? c rest = some ⟨some kind, more⟩) : PieceKind kind := by
  unfold piece? at h
  split_ifs at h with hgap hcomment hopening hclosing hequals hpipe hhead hword hnumeral
  · cases h
  · cases h
  · cases h
    exact .opening
  · cases h
    exact .closing
  · cases h
    exact .equals
  · cases h
    exact .pipe
  · cases h
    refine .word _ ?_
    rw [String.toList_ofList, isWord, hword, Bool.true_and, List.all_eq_true]
    exact fun d hd => List.mem_takeWhile_imp hd
  · dsimp only at h
    split at h
    · cases h
      exact .literal _
    · cases h

/-- No piece stands for the end of the text. -/
theorem PieceKind.ne_eof {kind : TokenKind} (h : PieceKind kind) : kind ≠ .eof := by
  cases h with
  | word word _ =>
    unfold wordKind
    split_ifs <;> simp
  | _ => simp

end SignalLab
