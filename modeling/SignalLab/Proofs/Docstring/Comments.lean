import SignalLab.Docstring
import SignalLab.Proofs.Text.Lines
import SignalLab.Proofs.Token.Partition

/-!
# Where the name and the description of a program come from

A docstring is read line by line, where a line ends at a line feed; a scan ends a comment at a line feed
or at a carriage return. The two agree where a carriage return that ends a comment has nothing but
blanks behind it on its line (`ReturnsEndComments`), and the name and the description then come from
comments in front of all tokens (`Docstring.ofSource_from_comments`). Otherwise what follows the
carriage return is a part of the program, and yet is in the name
(`Docstring.ofSource_takes_program`).
-/

namespace SignalLab

/-! ## Blanks and comments between tokens -/

variable {cs text rest line behind : List Char} {i j start : Nat} {c : Char} {kind : TokenKind}
  {ts us : List Token}

theorem Text.not_isBlank_of_toNat (hlow : 0x20 < c.toNat) (hhigh : c.toNat < 0x80) :
    isBlank c = false := by
  simp only [isBlank, blankRanges, List.any_cons, List.any_nil, Bool.or_eq_false_iff,
    Bool.and_eq_false_iff, decide_eq_false_iff_not, and_true]
  omega

theorem not_isBlank_of_isDigit (h : c.isDigit = true) : Text.isBlank c = false := by
  have hzero : '0'.val.toNat = 48 := rfl
  have hnine : '9'.val.toNat = 57 := rfl
  simp only [Char.isDigit, Bool.and_eq_true, decide_eq_true_eq, UInt32.le_iff_toNat_le,
    ge_iff_le] at h
  exact Text.not_isBlank_of_toNat (by rw [Char.toNat]; omega) (by rw [Char.toNat]; omega)

theorem not_isBlank_of_isWordPart (h : isWordPart c = true) : Text.isBlank c = false := by
  simp only [isWordPart, isWordStart, Bool.or_eq_true, beq_iff_eq] at h
  rcases h with (h | rfl) | h
  · have ha : 'a'.val.toNat = 97 := rfl
    have hz : 'z'.val.toNat = 122 := rfl
    simp only [Char.isLower, Bool.and_eq_true, decide_eq_true_eq, UInt32.le_iff_toNat_le,
      ge_iff_le] at h
    exact Text.not_isBlank_of_toNat (by rw [Char.toNat]; omega) (by rw [Char.toNat]; omega)
  · decide
  · exact not_isBlank_of_isDigit h

theorem not_isBlank_of_isNumeralPart (h : isNumeralPart c = true) : Text.isBlank c = false := by
  simp only [isNumeralPart, Decimal.isSign, endsDigits, isExponentMark, Bool.or_eq_true,
    beq_iff_eq] at h
  rcases h with ((rfl | rfl) | h) | rfl | rfl | rfl
  · decide
  · decide
  · exact not_isBlank_of_isDigit h
  all_goals decide

/-- No token has a blank in it, and none the sign that begins a comment. -/
theorem Lexeme.not_isBlank (h : Lexeme kind text rest) :
    ∀ c ∈ text, Text.isBlank c = false ∧ c ≠ '#' := by
  refine h.forall_mem (by simp [Text.isBlank, Text.blankRanges])
    (fun c hc => ⟨not_isBlank_of_isWordPart hc, ?_⟩)
    fun c hc => ⟨not_isBlank_of_isNumeralPart hc, ?_⟩
  · rintro rfl
    cases hc
  · rintro rfl
    cases hc

namespace Token

/-- A character that a token covers belongs to it. -/
theorem Partition.not_isBlank (h : Partition cs start ts) (hc : cs[i]? = some c)
    (hcovered : ¬ Uncovered ts i) : Text.isBlank c = false ∧ c ≠ '#' := by
  simp only [Uncovered, not_forall, not_not] at hcovered
  obtain ⟨t, ht, hstart, hstop⟩ := hcovered
  refine (h.lexeme t ht).not_isBlank c ?_
  have hparts := take_append_drop_span cs (t := t) (by omega)
  refine mem_of_getElem? hparts.symm hstart ?_ hc
  have hlast := h.before t ht
  rw [List.length_take, List.length_drop, Span.length]
  omega

/-- From a comment sign on to the end of its line all is in a comment. -/
theorem Partition.inComment (h : Partition cs start ts) (hstart : start ≤ j) (hji : j ≤ i)
    (hsharp : cs[j]? = some '#') (hline : SameLine cs j i) : InComment cs start ts i := by
  refine ⟨j, hstart, hji, hsharp, ?_, hline⟩
  by_contra hcovered
  exact (h.not_isBlank hsharp hcovered).2 rfl

end Token

namespace Docstring

/-! ## The comments in front of a program -/

variable {cs text line : List Char} {ls : List (List Char)}

/-- A line that is blank or a comment. -/
def isSilent (line : List Char) : Bool := (line.dropWhile Text.isBlank).head?.all (· == '#')

/-- The texts of the comments in front of a program, from the first that has any. -/
def comments (cs : List Char) : List (List Char) :=
  leadingComments (((Text.splitLines cs).map Text.trimChars).dropWhile isEmptyLine)

/-- A carriage return at the end of a line does not matter. -/
theorem trimChars_dropLineReturn (line : List Char) :
    Text.trimChars (Text.dropLineReturn line) = Text.trimChars line := by
  rw [Text.dropLineReturn]
  split
  · next rest hreverse =>
    have hline : line = rest.reverse ++ ['\r'] := by
      rw [← List.reverse_reverse line, hreverse, List.reverse_cons]
    rw [hline, Text.trimChars_concat (by decide)]
  · rfl

/-- Nor does an empty line at the end. -/
theorem map_trimChars_lineChars (cs : List Char) :
    ∃ back, (back = [] ∨ back = [[]]) ∧
      (Text.splitLines cs).map Text.trimChars =
        (Text.lineChars cs).map Text.trimChars ++ back := by
  obtain ⟨front, last, hsplit⟩ : ∃ front last, Text.splitLines cs = front ++ [last] :=
    ⟨_, _, (List.dropLast_concat_getLast (List.splitOn_ne_nil '\n' cs)).symm⟩
  have hfront : (front.map Text.dropLineReturn).map Text.trimChars = front.map Text.trimChars := by
    rw [List.map_map]
    exact List.map_congr_left fun line _ => trimChars_dropLineReturn line
  rw [Text.lineChars, hsplit]
  simp only [List.dropLast_concat, List.getLast?_concat]
  rcases last with _ | ⟨c, last⟩
  · exact ⟨[[]], .inr rfl, by simp [hfront, Text.trimChars, Text.dropWhileEnd]⟩
  · exact ⟨[], .inl rfl, by simp [hfront]⟩

theorem leadingComments_concat_nil (ls : List (List Char)) :
    leadingComments (ls ++ [[]]) = leadingComments ls := by
  induction ls with
  | nil => rfl
  | cons line ls ih =>
    rw [List.cons_append, leadingComments, leadingComments]
    split <;> simp [ih]

theorem leadingComments_lineChars (cs : List Char) :
    leadingComments (((Text.lineChars cs).map Text.trimChars).dropWhile isEmptyLine) =
      comments cs := by
  obtain ⟨back, hback, hmap⟩ := map_trimChars_lineChars cs
  rw [comments, hmap]
  rcases hback with rfl | rfl
  · rw [List.append_nil]
  · rw [List.dropWhile_append]
    split
    · next hempty => rw [List.isEmpty_iff.mp hempty]; rfl
    · rw [leadingComments_concat_nil]

/-- What is said in front of a program. -/
theorem ofSource_eq (source : String) :
    ofSource source = match comments source.toList with
      | [] => ⟨unnamed, none⟩
      | name :: texts =>
        let shown := texts.filter (!·.isEmpty)
        ⟨String.ofList name,
          if shown.isEmpty then none else some (" ".intercalate (shown.map String.ofList))⟩ := by
  rw [ofSource]
  dsimp only
  rewrite [leadingComments_lineChars]
  rfl

/-! ## Lines in front of a program -/

/-- Behind a carriage return that ends a comment there are only blanks on the line. -/
def ReturnEndsComment (line : List Char) : Prop :=
  ((line.dropWhile Text.isBlank).dropWhile (· != '\r')).all Text.isBlank = true

/-- The same of all lines before the first that is neither blank nor a comment. -/
def ReturnsEndComments (source : String) : Prop :=
  ∀ line ∈ (Text.splitLines source.toList).takeWhile isSilent, ReturnEndsComment line

theorem isSilent_of_commentText? {text : List Char}
    (h : commentText? (Text.trimChars line) = some text) : isSilent line = true := by
  obtain ⟨back, hback, -⟩ :=
    Text.exists_append_dropWhileEnd Text.isBlank (line.dropWhile Text.isBlank)
  unfold commentText? at h
  split at h
  · next rest hline =>
    rw [Text.trimChars] at hline
    rw [isSilent, hback, hline]
    rfl
  · cases h

theorem isSilent_of_isEmptyLine (h : isEmptyLine (Text.trimChars line) = true) :
    isSilent line = true := by
  rw [isEmptyLine, Bool.or_eq_true, beq_iff_eq, List.isEmpty_iff] at h
  rcases h with h | h
  · obtain ⟨back, hback, hblank⟩ :=
      Text.exists_append_dropWhileEnd Text.isBlank (line.dropWhile Text.isBlank)
    rw [Text.trimChars] at h
    rw [h, List.nil_append] at hback
    -- what begins with a character that is not blank is not blank
    rw [isSilent, hback]
    rcases back with _ | ⟨c, back⟩
    · rfl
    · have hc := head?_dropWhile_stop Text.isBlank line c (by rw [hback]; rfl)
      rw [hblank c List.mem_cons_self] at hc
      cases hc
  · exact isSilent_of_commentText? h

/-- The text of a comment is a part of its line, behind the comment sign. -/
theorem exists_parts_of_commentText? {text : List Char}
    (h : commentText? (Text.trimChars line) = some text) :
    ∃ blanks inside back, line = blanks ++ ('#' :: (inside ++ text) ++ back) ∧
      (∀ c ∈ blanks, Text.isBlank c = true) ∧ Text.IsSolid text := by
  obtain ⟨blanks, back, hline, hblanks, -⟩ := Text.exists_blanks line
  unfold commentText? at h
  split at h
  · next more hmore =>
    cases h
    obtain ⟨before, behind, hbehind, -, -⟩ := Text.exists_blanks (more.dropWhile (· == '#'))
    have hsplit := List.takeWhile_append_dropWhile (p := (· == '#')) (l := more)
    refine ⟨blanks, more.takeWhile (· == '#') ++ before, behind ++ back, ?_, hblanks,
      Text.isSolid_trimChars _⟩
    calc line = blanks ++ ('#' :: more ++ back) := by rw [← hmore, ← hline]
      _ = blanks ++ ('#' :: (more.takeWhile (· == '#') ++ more.dropWhile (· == '#')) ++ back) := by
        rw [hsplit]
      _ = _ := by
        conv_lhs => rw [hbehind]
        simp only [List.append_assoc, List.cons_append]
  · cases h

/-- A comment in front of some lines stands on one of them, and all before it are comments. -/
theorem exists_of_mem_leadingComments (h : text ∈ leadingComments ls) :
    ∃ front line after, ls = front ++ line :: after ∧ commentText? line = some text ∧
      ∀ l ∈ front, ∃ text, commentText? l = some text := by
  induction ls with
  | nil => cases h
  | cons line ls ih =>
    rw [leadingComments] at h
    split at h
    · cases h
    · next first hfirst =>
      rcases List.mem_cons.mp h with rfl | hrest
      · exact ⟨[], line, ls, rfl, hfirst, nofun⟩
      · obtain ⟨front, line', after, rfl, htext, hfront⟩ := ih hrest
        exact ⟨line :: front, line', after, rfl, htext,
          List.forall_mem_cons.mpr ⟨⟨first, hfirst⟩, hfront⟩⟩

/-- A comment in front of a program stands on a line of its own, and all lines before it are blank or
comments. -/
theorem exists_line_of_mem_comments (h : text ∈ comments cs) :
    ∃ front line after, Text.splitLines cs = front ++ line :: after ∧
      commentText? (Text.trimChars line) = some text ∧ ∀ l ∈ front, isSilent l = true := by
  obtain ⟨front, trimmed, after, hlines, htext, hfront⟩ := exists_of_mem_leadingComments h
  have hall := (List.takeWhile_append_dropWhile
    (p := isEmptyLine) (l := (Text.splitLines cs).map Text.trimChars)).symm
  rw [hlines, ← List.append_assoc] at hall
  obtain ⟨front', after', hsplit, hfront', hafter⟩ := List.map_eq_append_iff.mp hall
  obtain ⟨line, after'', rfl, rfl, -⟩ := List.map_eq_cons_iff.mp hafter
  refine ⟨front', line, after'', hsplit, htext, fun l hl => ?_⟩
  have hmem : Text.trimChars l ∈ front'.map Text.trimChars := List.mem_map_of_mem hl
  rw [hfront'] at hmem
  rcases List.mem_append.mp hmem with hempty | hcomment
  · exact isSilent_of_isEmptyLine (List.mem_takeWhile_imp hempty)
  · obtain ⟨text', htext'⟩ := hfront _ hcomment
    exact isSilent_of_commentText? htext'

theorem mem_dropWhile_of_stop {p : Char → Bool} {d : Char} (hd : p d = false) (front : List Char)
    {back : List Char} {c : Char} (hc : c ∈ d :: back) : c ∈ (front ++ d :: back).dropWhile p := by
  induction front with
  | nil => rwa [List.nil_append, List.dropWhile_cons_of_neg (by simp [hd])]
  | cons e front ih =>
    rw [List.cons_append]
    by_cases he : p e = true
    · rwa [List.dropWhile_cons_of_pos he]
    · rw [List.dropWhile_cons_of_neg he]
      exact List.mem_cons_of_mem _ (List.mem_append_right _ hc)

/-- A comment has no carriage return before a character that is not blank. -/
theorem ReturnEndsComment.not_mem (h : ReturnEndsComment line) {front back : List Char} {c : Char}
    (hparts : line.dropWhile Text.isBlank = front ++ back) (hlast : front.getLast? = some c)
    (hc : Text.isBlank c = false) : '\r' ∉ front := by
  intro hmem
  obtain ⟨before, behind, rfl⟩ := List.append_of_mem hmem
  rw [List.getLast?_append_of_ne_nil _ (List.cons_ne_nil _ _)] at hlast
  have hlast' : c ∈ '\r' :: (behind ++ back) :=
    List.mem_append_left back (List.mem_of_getLast? hlast)
  rw [ReturnEndsComment, hparts, List.append_assoc, List.all_eq_true] at h
  rw [h c (mem_dropWhile_of_stop rfl before hlast')] at hc
  cases hc

/-- On a line that is blank or a comment, every character that is not blank lies behind a comment
sign, which only blanks come before. -/
theorem exists_sharp_of_visible (hsilent : isSilent line = true) {front back : List Char} {c : Char}
    (hparts : line = front ++ c :: back) (hc : Text.isBlank c = false) :
    ∃ blanks inside, front ++ [c] = blanks ++ '#' :: inside ∧
      ∀ d ∈ blanks, Text.isBlank d = true := by
  have hcomment : line.dropWhile Text.isBlank = front.dropWhile Text.isBlank ++ c :: back := by
    rw [hparts, List.dropWhile_append]
    split
    · next hempty =>
      rw [List.isEmpty_iff.mp hempty, List.dropWhile_cons_of_neg (by simp [hc]), List.nil_append]
    · rfl
  have hsharp : ∃ inside, front.dropWhile Text.isBlank ++ [c] = '#' :: inside := by
    rw [isSilent, hcomment] at hsilent
    rcases hdrop : front.dropWhile Text.isBlank with _ | ⟨d, more⟩
    · rw [hdrop, List.nil_append, List.head?_cons, Option.all_some, beq_iff_eq] at hsilent
      exact ⟨[], by rw [hsilent, List.nil_append]⟩
    · rw [hdrop, List.cons_append, List.head?_cons, Option.all_some, beq_iff_eq] at hsilent
      exact ⟨more ++ [c], by rw [hsilent, List.cons_append]⟩
  obtain ⟨inside, hinside⟩ := hsharp
  refine ⟨front.takeWhile Text.isBlank, inside, ?_, fun _ => List.mem_takeWhile_imp⟩
  rw [← hinside, ← List.append_assoc, List.takeWhile_append_dropWhile]

section Lines

open Token

variable {us : List Token} {inside blanks back behind rest : List Char} {i p : Nat} {c : Char}

/-- A comment that returns do not break is a comment of the scan, from its sign up to any character
that is not blank. -/
theorem inComment_of_line (h : Partition cs 0 us) (hdrop : cs.drop p = line ++ behind)
    (hunbroken : '\n' ∉ line) (hreturn : ReturnEndsComment line)
    (hparts : line = blanks ++ ('#' :: inside ++ back)) (hblanks : ∀ c ∈ blanks, Text.isBlank c = true)
    (hlast : ('#' :: inside).getLast? = some c) (hc : Text.isBlank c = false)
    (hstart : p + blanks.length ≤ i) (hstop : i < p + blanks.length + ('#' :: inside).length) :
    InComment cs 0 us i := by
  have hcomment : line.dropWhile Text.isBlank = '#' :: inside ++ back := by
    rw [hparts, List.dropWhile_append_of_pos hblanks, List.cons_append,
      List.dropWhile_cons_of_neg (by decide)]
  have hreturnless := hreturn.not_mem hcomment hlast hc
  have hat : cs.drop (p + blanks.length) = '#' :: inside ++ (back ++ behind) := by
    rw [hparts, List.append_assoc] at hdrop
    rw [drop_of_drop hdrop, List.append_assoc]
  refine h.inComment (Nat.zero_le _) hstart (getElem?_of_cons hat) fun k d hk hki hd => ?_
  have hmem := mem_of_getElem? hat hk (by omega) hd
  have hfeed : d ≠ '\n' := by
    rintro rfl
    refine hunbroken ?_
    rw [hparts]
    exact List.mem_append_right _ (List.mem_append_left _ hmem)
  have hreturn' : d ≠ '\r' := by
    rintro rfl
    exact hreturnless hmem
  simp [isLineEnd, hfeed, hreturn']

/-- No token covers a line that is blank or a comment. -/
theorem uncovered_of_line (h : Partition cs 0 us) (hdrop : cs.drop p = line ++ behind)
    (hunbroken : '\n' ∉ line) (hsilent : isSilent line = true) (hreturn : ReturnEndsComment line)
    (hstart : p ≤ i) (hstop : i < p + line.length) : Uncovered us i := by
  by_contra hcovered
  obtain ⟨front, c, back, hparts, hi⟩ : ∃ front c back, line = front ++ c :: back ∧
      i = p + front.length := by
    obtain ⟨k, rfl⟩ := Nat.exists_eq_add_of_le hstart
    refine ⟨line.take k, line.get ⟨k, by omega⟩, line.drop (k + 1), by simp, ?_⟩
    rw [List.length_take]
    omega
  have hat : cs.drop i = c :: (back ++ behind) := by
    rw [hparts, List.append_assoc] at hdrop
    rw [hi, drop_of_drop hdrop, List.cons_append]
  have hc := (h.not_isBlank (getElem?_of_cons hat) hcovered).1
  obtain ⟨blanks, inside, hcomment, hblanks⟩ := exists_sharp_of_visible hsilent hparts hc
  have hlength := congrArg List.length hcomment
  have hlast := congrArg List.getLast? hcomment
  rw [List.length_append, List.length_append, List.length_singleton, List.length_cons] at hlength
  rw [List.getLast?_concat, List.getLast?_append_of_ne_nil _ (List.cons_ne_nil _ _)] at hlast
  have hline : line = blanks ++ ('#' :: inside ++ back) := by
    rw [← List.append_assoc, ← hcomment, hparts, List.append_assoc, List.singleton_append]
  have hinside := inComment_of_line h hdrop hunbroken hreturn hline hblanks hlast.symm hc
    (i := i) (by omega) (by rw [List.length_cons]; omega)
  exact hcovered ((h.uncovered_iff i c (Nat.zero_le _) (getElem?_of_cons hat)).mpr (.inr hinside))

/-- Nor does one cover the lines in front of a program. -/
theorem uncovered_of_lines (h : Partition cs 0 us) {front : List (List Char)}
    (hdrop : cs.drop p = Text.linesText front ++ rest)
    (hfront : ∀ l ∈ front, '\n' ∉ l ∧ isSilent l = true ∧ ReturnEndsComment l)
    (hstart : p ≤ i) (hstop : i < p + (Text.linesText front).length) : Uncovered us i := by
  induction front generalizing p with
  | nil =>
    rw [Text.linesText_nil, List.length_nil] at hstop
    omega
  | cons line front ih =>
    obtain ⟨⟨hunbroken, hsilent, hreturn⟩, hfront⟩ := List.forall_mem_cons.mp hfront
    rw [Text.linesText_cons, List.append_assoc, List.cons_append] at hdrop
    rw [Text.linesText_cons, List.length_append, List.length_cons] at hstop
    have hfeed := drop_of_drop hdrop
    rcases Nat.lt_trichotomy i (p + line.length) with hlt | rfl | hgt
    · exact uncovered_of_line h hdrop hunbroken hsilent hreturn hstart hlt
    · by_contra hcovered
      cases (h.not_isBlank (getElem?_of_cons hfeed) hcovered).1
    · have hrest : cs.drop (p + line.length) = ['\n'] ++ (Text.linesText front ++ rest) := hfeed
      exact ih (drop_of_drop hrest) hfront (by simpa using hgt)
        (by rw [List.length_singleton]; omega)

end Lines

/-! ## Names and descriptions -/

/-- A text that is a part of comments in front of all tokens. -/
def StandsInComments (cs : List Char) (ts : List Token) (text : List Char) : Prop :=
  ∃ place, text <+: cs.drop place ∧
    (∀ i, place ≤ i → i < place + text.length → Token.InComment cs 0 ts i) ∧
    ∀ t ∈ ts, place + text.length ≤ t.span.start

open Token in
/-- The texts of the comments in front of a program stand in them. -/
theorem standsInComments_of_mem_comments {source : String} {us : List Token}
    (h : Partition source.toList 0 us) (hreturns : ReturnsEndComments source)
    (htext : text ∈ comments source.toList) (hne : text ≠ []) :
    StandsInComments source.toList us text := by
  obtain ⟨front, line, after, hsplit, hcomment, hfront⟩ := exists_line_of_mem_comments htext
  obtain ⟨behind, hline, hunbroken⟩ := Text.exists_isLine_of_splitLines hsplit
  have hsilent := isSilent_of_commentText? hcomment
  -- all lines up to this one are blank or comments
  have hreturn : ∀ l ∈ front ++ [line], ReturnEndsComment l := by
    refine fun l hl => hreturns l ?_
    have hall : ∀ l ∈ front ++ [line], isSilent l = true := by
      simpa [or_imp, forall_and] using ⟨hfront, hsilent⟩
    rw [hsplit, List.append_cons, List.takeWhile_append_of_pos hall]
    exact List.mem_append_left _ hl
  have hdrop : source.toList.drop (Text.linesText front).length = line ++ behind := by
    rw [hline.parts, List.drop_left]
  obtain ⟨blanks, inside, back, hparts, hblanks, hsolid⟩ := exists_parts_of_commentText? hcomment
  have hat : source.toList.drop ((Text.linesText front).length + blanks.length + 1 + inside.length) =
      text ++ (back ++ behind) := by
    have hparts' : line ++ behind = (blanks ++ '#' :: inside) ++ (text ++ (back ++ behind)) := by
      rw [hparts]
      simp only [List.append_assoc, List.cons_append]
    have h := drop_of_drop (hdrop.trans hparts')
    rw [List.length_append, List.length_cons] at h
    rw [← h]
    congr 1
    omega
  obtain ⟨c, hc⟩ : ∃ c, text.getLast? = some c := ⟨_, List.getLast?_eq_some_getLast hne⟩
  have hlast : ('#' :: (inside ++ text)).getLast? = some c := by
    rw [← List.cons_append, List.getLast?_append_of_ne_nil _ hne, hc]
  refine ⟨_, ⟨_, hat.symm⟩, fun i hstart hstop => ?_, fun t ht => ?_⟩
  · refine inComment_of_line h hdrop hline.unbroken (hreturn line (by simp)) hparts hblanks hlast
      (hsolid.last c hc) (by omega) ?_
    rw [List.length_cons, List.length_append]
    omega
  · by_contra hlt
    have hlength := congrArg List.length hparts
    simp only [List.length_append, List.length_cons] at hlength
    refine absurd ⟨Nat.le_refl _, h.ordered.start_lt_stop t ht⟩ ((?_ : Uncovered us t.span.start) t ht)
    by_cases hbefore : t.span.start < (Text.linesText front).length
    · refine uncovered_of_lines (p := 0) h hline.parts (fun l hl => ?_) (Nat.zero_le _) (by omega)
      exact ⟨hunbroken l hl, hfront l hl, hreturn l (List.mem_append_left _ hl)⟩
    · exact uncovered_of_line h hdrop hline.unbroken hsilent (hreturn line (by simp)) (by omega)
        (by omega)

/-- The first comment that has a text is the first that is not passed over. -/
theorem ne_nil_of_comments {name : List Char} {texts : List (List Char)}
    (h : comments cs = name :: texts) : name ≠ [] := by
  rintro rfl
  rw [comments] at h
  rcases hlines : ((Text.splitLines cs).map Text.trimChars).dropWhile isEmptyLine with _ | ⟨line, ls⟩
  · rw [hlines] at h
    cases h
  · have hstop := head?_dropWhile_stop isEmptyLine ((Text.splitLines cs).map Text.trimChars) line
      (by rw [hlines]; rfl)
    rw [hlines, leadingComments] at h
    split at h
    · cases h
    · next text htext =>
      obtain ⟨rfl, -⟩ := List.cons.inj h
      rw [isEmptyLine, htext, beq_self_eq_true, Bool.or_true] at hstop
      cases hstop

/-- A docstring that is taken from comments in front of all tokens: its name is a text from there, and
so is each of the texts that the description joins by blanks. -/
def FromComments (cs : List Char) (ts : List Token) (d : Docstring) : Prop :=
  ∃ name texts, d.name = String.ofList name ∧
    d.description = (if texts = [] then none else some (" ".intercalate (texts.map String.ofList))) ∧
    ∀ text ∈ name :: texts, text ≠ [] ∧ StandsInComments cs ts text

/-- The end of a text covers nothing. -/
theorem uncovered_concat_point_iff {us : List Token} {kind : TokenKind} {n i : Nat} :
    Token.Uncovered (us ++ [⟨kind, Span.point n⟩]) i ↔ Token.Uncovered us i := by
  simp only [Token.Uncovered, List.forall_mem_append, List.forall_mem_singleton, Span.point]
  exact and_iff_left (by omega)

/-- Nothing changes about what stands in comments by the end of the text. -/
theorem StandsInComments.concat_point {us : List Token} {kind : TokenKind}
    (h : StandsInComments cs us text) (hne : text ≠ []) :
    StandsInComments cs (us ++ [⟨kind, Span.point cs.length⟩]) text := by
  obtain ⟨place, hprefix, hinside, hbehind⟩ := h
  refine ⟨place, hprefix, fun i hstart hstop => ?_, List.forall_mem_append.mpr ⟨hbehind, ?_⟩⟩
  · obtain ⟨j, hj, hji, hsharp, huncovered, hline⟩ := hinside i hstart hstop
    exact ⟨j, hj, hji, hsharp, uncovered_concat_point_iff.mpr huncovered, hline⟩
  · have hpos := List.length_pos_iff.mpr hne
    have hlength := hprefix.length_le
    rw [List.length_drop] at hlength
    refine List.forall_mem_singleton.mpr ?_
    change place + text.length ≤ cs.length
    omega

/-- **Docstrings come from comments**, where carriage returns end none in front of more than blanks:
in a program that can be scanned, the name, if there is one, and all texts of the description are
parts of comments of the scan, and these are in front of all tokens. -/
theorem ofSource_from_comments {source : String} {ts : List Token} (hscan : Token.scan source = .ok ts)
    (hreturns : ReturnsEndComments source) (hname : (ofSource source).name ≠ unnamed) :
    FromComments source.toList ts (ofSource source) := by
  obtain ⟨us, hpasses, rfl⟩ := Token.scan_eq_ok_iff_passes.mp hscan
  have hpartition := hpasses.partition rfl (List.drop_zero (l := source.toList))
  have hstands : ∀ text ∈ comments source.toList, text ≠ [] →
      text ≠ [] ∧ StandsInComments source.toList (us ++ [⟨.eof, Span.point source.toList.length⟩])
        text :=
    fun text htext hne => ⟨hne,
      (standsInComments_of_mem_comments hpartition hreturns htext hne).concat_point hne⟩
  have hsource := ofSource_eq source
  rcases hcomments : comments source.toList with _ | ⟨name, texts⟩
  · rw [hcomments] at hsource
    rw [hsource] at hname
    exact absurd rfl hname
  · rw [hcomments] at hsource hstands
    rw [hsource]
    refine ⟨name, texts.filter (!·.isEmpty), rfl, by simp only [List.isEmpty_iff], ?_⟩
    refine List.forall_mem_cons.mpr ⟨hstands name List.mem_cons_self (ne_nil_of_comments hcomments),
      fun text htext => ?_⟩
    obtain ⟨hmem, hne⟩ := List.mem_filter.mp htext
    exact hstands text (List.mem_cons_of_mem _ hmem) (by simpa using hne)

/-- A program with lines that returns and feeds end together, and a comment sign in its name. -/
theorem ofSource_from_comments_crossOver :
    let source := "\r\n## Cross # over\r\n# Fast over slow\r\n\r\nprice"
    let ts : List Token := [⟨.reference "price", ⟨39, 44⟩⟩, ⟨.eof, ⟨44, 44⟩⟩]
    Token.scan source = .ok ts ∧ ReturnsEndComments source ∧
      ofSource source = ⟨"Cross # over", some "Fast over slow"⟩ ∧
      FromComments source.toList ts (ofSource source) := by
  intro source ts
  have hscan : Token.scan source = .ok ts := by cbv
  have hreturns : ReturnsEndComments source := by
    unfold ReturnsEndComments ReturnEndsComment
    decide +kernel
  have hsource : ofSource source = ⟨"Cross # over", some "Fast over slow"⟩ := by decide +kernel
  have hname : (ofSource source).name ≠ unnamed := by
    rw [hsource]
    decide
  exact ⟨hscan, hreturns, hsource, ofSource_from_comments hscan hreturns hname⟩

/-- What stands behind a carriage return is taken for a part of the name, and is the program. -/
theorem ofSource_takes_program :
    let source := "# Name\rprice"
    let ts : List Token := [⟨.reference "price", ⟨7, 12⟩⟩, ⟨.eof, ⟨12, 12⟩⟩]
    Token.scan source = .ok ts ∧ (ofSource source).name ≠ unnamed ∧
      ¬ FromComments source.toList ts (ofSource source) := by
  intro source ts
  have hscan : Token.scan source = .ok ts := by cbv
  have hsource : ofSource source = ⟨"Name\rprice", none⟩ := by decide +kernel
  refine ⟨hscan, by rw [hsource]; decide, ?_⟩
  rw [hsource]
  rintro ⟨name, texts, hname, -, htexts⟩
  obtain ⟨place, -, -, hbehind⟩ := (htexts name List.mem_cons_self).2
  -- the name is longer than what stands in front of the first token
  have hlength : name.length = 10 := by
    rw [← String.toList_ofList (l := name), ← hname]
    rfl
  have hfirst : place + name.length ≤ 7 := hbehind _ List.mem_cons_self
  omega

end Docstring

end SignalLab
