import SignalLab.Proofs.Token.Passing

/-!
# Tokens and gaps make up a text

The tokens of a text and the gaps between them cover it from its first character to its last, with
nothing left over and nothing covered twice (`Token.Partition`). A text is accepted exactly if it can be
parted like this, and the tokens are then the answer (`Token.scan_ok_iff_partition`).

## Shape of the argument

`Partition` speaks of a text from an offset on. Where a gap begins at the offset, the text from there on
is parted as it is behind the gap (`partition_gap_iff`), and where a token begins, as it is behind the
token with this token in front (`partition_token_iff`). A scan moves on by the one or the other.
-/

namespace SignalLab

namespace Token

/-! ## Parted texts -/

/-- No token covers the character at an offset. -/
def Uncovered (ts : List Token) (i : Nat) : Prop :=
  ∀ t ∈ ts, ¬ (t.span.start ≤ i ∧ i < t.span.stop)

/-- No line ends from one offset to another. -/
def SameLine (cs : List Char) (i j : Nat) : Prop :=
  ∀ k c, i ≤ k → k ≤ j → cs[k]? = some c → isLineEnd c = false

/-- A character lies in a comment: on its line, at or before it but not before `start`, is a `#` that
no token covers. -/
def InComment (cs : List Char) (start : Nat) (ts : List Token) (i : Nat) : Prop :=
  ∃ j, start ≤ j ∧ j ≤ i ∧ cs[j]? = some '#' ∧ Uncovered ts j ∧ SameLine cs j i

/-- Tokens and gaps make up a text from an offset on. -/
structure Partition (cs : List Char) (start : Nat) (ts : List Token) : Prop where
  /-- The tokens are in order, and none is empty. -/
  ordered : Ordered ts
  /-- They lie behind the offset. -/
  behind : ∀ t ∈ ts, start ≤ t.span.start
  /-- They lie before the end of the text. -/
  before : ∀ t ∈ ts, t.span.stop ≤ cs.length
  /-- Each is the longest of its kind where it stands. -/
  lexeme : ∀ t ∈ ts,
    Lexeme t.kind ((cs.drop t.span.start).take t.span.length) (cs.drop t.span.stop)
  /-- All else is blank or in a comment. -/
  uncovered_iff : ∀ i c, start ≤ i → cs[i]? = some c →
    (Uncovered ts i ↔ isGapChar c = true ∨ InComment cs start ts i)

variable {cs text rest : List Char} {start i : Nat} {c : Char} {kind : TokenKind} {t : Token}
  {ts : List Token}

theorem uncovered_of_lt {stop : Nat} (h : ∀ t ∈ ts, stop ≤ t.span.start) (hi : i < stop) :
    Uncovered ts i := by
  rintro t ht ⟨hstart, -⟩
  have := h t ht
  omega

/-! ## Characters of a piece -/

theorem drop_of_drop (h : cs.drop start = text ++ rest) :
    cs.drop (start + text.length) = rest := by
  rw [← List.drop_drop, h, List.drop_left]

theorem mem_of_getElem? (h : cs.drop start = text ++ rest) (hstart : start ≤ i)
    (hstop : i < start + text.length) (hc : cs[i]? = some c) : c ∈ text := by
  obtain ⟨k, rfl⟩ := Nat.exists_eq_add_of_le hstart
  rw [← List.getElem?_drop, h, List.getElem?_append_left (by omega)] at hc
  exact List.mem_of_getElem? hc

theorem getElem?_of_cons (h : cs.drop start = c :: rest) : cs[start]? = some c := by
  rw [← Nat.add_zero start, ← List.getElem?_drop, h, List.getElem?_cons_zero]

/-- What a token covers and what follows is the text from its first character on. -/
theorem take_append_drop_span (cs : List Char) (h : t.span.start ≤ t.span.stop) :
    (cs.drop t.span.start).take t.span.length ++ cs.drop t.span.stop = cs.drop t.span.start := by
  have hstop : cs.drop t.span.stop = (cs.drop t.span.start).drop t.span.length := by
    rw [List.drop_drop, Span.length, Nat.add_sub_cancel' h]
  rw [hstop, List.take_append_drop]

/-! ## Behind a gap -/

section Gap

variable (hdrop : cs.drop start = text ++ rest) (hgap : Begins none text rest)

include hdrop hgap

/-- A gap is blank or a comment. -/
theorem blank_or_comment (hstart : start ≤ i) (hstop : i < start + text.length)
    (hc : cs[i]? = some c) :
    isGapChar c = true ∨ cs[start]? = some '#' ∧ SameLine cs start i := by
  have hmem := mem_of_getElem? hdrop hstart hstop hc
  cases hgap with
  | blank hblank => exact .inl (List.mem_singleton.mp hmem ▸ hblank)
  | comment hinside =>
    refine .inr ⟨getElem?_of_cons hdrop, fun k d hk hki hd => ?_⟩
    rcases List.mem_cons.mp (mem_of_getElem? hdrop hk (by omega) hd) with rfl | hd
    · rfl
    · exact hinside d hd

/-- Where a gap begins, no token covers it. -/
theorem Partition.uncovered_of_gap (h : Partition cs start ts) (hstart : start ≤ i)
    (hstop : i < start + text.length) : Uncovered ts i := by
  have hfirst : Uncovered ts start := by
    rintro t ht ⟨hle, -⟩
    -- a token that covers it begins with it, and a text begins with one piece only
    obtain rfl : start = t.span.start := Nat.le_antisymm (h.behind t ht) hle
    have hlt := h.ordered.start_lt_stop t ht
    have htext := (take_append_drop_span cs (Nat.le_of_lt hlt)).trans hdrop
    cases ((Begins.token (h.lexeme t ht)).unique hgap htext).1
  rcases hc : cs[i]? with _ | c
  · rintro t ht ⟨-, hlt⟩
    have := h.before t ht
    rw [List.getElem?_eq_none_iff] at hc
    omega
  · refine (h.uncovered_iff i c hstart hc).mpr ?_
    refine (blank_or_comment hdrop hgap hstart hstop hc).imp_right fun ⟨hsharp, hline⟩ => ?_
    exact ⟨start, Nat.le_refl _, hstart, hsharp, hfirst, hline⟩

/-- What lies behind a gap is in no comment that begins in it. -/
theorem inComment_gap_iff (hi : start + text.length ≤ i) (hc : cs[i]? = some c) :
    InComment cs start ts i ↔ InComment cs (start + text.length) ts i := by
  constructor
  · rintro ⟨j, hstart, hji, hsharp, huncovered, hline⟩
    by_cases hstop : start + text.length ≤ j
    · exact ⟨j, hstop, hji, hsharp, huncovered, hline⟩
    · have hrest := drop_of_drop hdrop
      have hmem := mem_of_getElem? hdrop hstart (by omega) hsharp
      cases hgap with
      | blank hblank =>
        rw [← List.mem_singleton.mp hmem] at hblank
        cases hblank
      | comment _ hends =>
        -- the line of the comment ends where the gap does
        rcases rest with _ | ⟨d, rest⟩
        · rw [List.drop_eq_nil_iff] at hrest
          have := (List.getElem?_eq_some_iff.mp hc).1
          omega
        · have hd := hline _ d (by omega) hi (getElem?_of_cons hrest)
          rw [hends d rfl] at hd
          cases hd
  · rintro ⟨j, hstart, hji, hsharp, huncovered, hline⟩
    exact ⟨j, by omega, hji, hsharp, huncovered, hline⟩

/-- **Where a gap begins**, a text is parted as it is behind the gap. -/
theorem partition_gap_iff :
    Partition cs start ts ↔ Partition cs (start + text.length) ts := by
  constructor
  · intro h
    refine ⟨h.ordered, fun t ht => ?_, h.before, h.lexeme, fun i c hi hc => ?_⟩
    · by_contra hlt
      have huncovered := h.uncovered_of_gap hdrop hgap (h.behind t ht) (Nat.lt_of_not_le hlt)
      exact huncovered t ht ⟨Nat.le_refl _, h.ordered.start_lt_stop t ht⟩
    · rw [h.uncovered_iff i c (by omega) hc, inComment_gap_iff hdrop hgap hi hc]
  · intro h
    refine ⟨h.ordered, fun t ht => ?_, h.before, h.lexeme, fun i c hi hc => ?_⟩
    · have := h.behind t ht
      omega
    · by_cases hstop : start + text.length ≤ i
      · rw [h.uncovered_iff i c hstop hc, inComment_gap_iff hdrop hgap hstop hc]
      · have hlt := Nat.lt_of_not_le hstop
        refine iff_of_true (uncovered_of_lt h.behind hlt) ?_
        refine (blank_or_comment hdrop hgap hi hlt hc).imp_right fun ⟨hsharp, hline⟩ => ?_
        exact ⟨start, Nat.le_refl _, hi, hsharp, uncovered_of_lt h.behind (by omega), hline⟩

end Gap

/-! ## Behind a token -/

theorem uncovered_cons_iff {stop : Nat} (hi : stop ≤ i) :
    Uncovered (⟨kind, ⟨start, stop⟩⟩ :: ts) i ↔ Uncovered ts i := by
  rw [Uncovered, List.forall_mem_cons, and_iff_right]
  · rfl
  · rintro ⟨-, hlt⟩
    exact Nat.not_lt.mpr hi hlt

/-- What lies behind a token is in no comment that begins in it. -/
theorem inComment_token_iff {stop : Nat} (hle : start ≤ stop) :
    InComment cs start (⟨kind, ⟨start, stop⟩⟩ :: ts) i ↔ InComment cs stop ts i := by
  constructor
  · rintro ⟨j, hstart, hji, hsharp, huncovered, hline⟩
    have hstop : stop ≤ j := by
      by_contra hlt
      exact huncovered _ List.mem_cons_self ⟨hstart, Nat.lt_of_not_le hlt⟩
    exact ⟨j, hstop, hji, hsharp, (uncovered_cons_iff hstop).mp huncovered, hline⟩
  · rintro ⟨j, hstop, hji, hsharp, huncovered, hline⟩
    exact ⟨j, by omega, hji, hsharp, (uncovered_cons_iff hstop).mpr huncovered, hline⟩

/-- **Where a token begins**, a text is parted as it is behind the token, with it in front. -/
theorem partition_token_iff (hdrop : cs.drop start = text ++ rest) (hlexeme : Lexeme kind text rest) :
    Partition cs start (⟨kind, ⟨start, start + text.length⟩⟩ :: ts) ↔
      Partition cs (start + text.length) ts := by
  have hpos := List.length_pos_iff.mpr hlexeme.ne_nil
  have hle : start ≤ start + text.length := Nat.le_add_right _ _
  constructor
  · intro h
    refine ⟨h.ordered.sublist (List.sublist_cons_self _ _), fun t ht => ?_, fun t ht => ?_,
      fun t ht => ?_, fun i c hi hc => ?_⟩
    · exact List.rel_of_pairwise_cons h.ordered.pairwise ht
    · exact h.before t (List.mem_cons_of_mem _ ht)
    · exact h.lexeme t (List.mem_cons_of_mem _ ht)
    · rw [← uncovered_cons_iff hi, h.uncovered_iff i c (by omega) hc, inComment_token_iff hle]
  · intro h
    have hlength : start + text.length ≤ cs.length := by
      have := congrArg List.length hdrop
      rw [List.length_drop, List.length_append] at this
      omega
    refine ⟨⟨?_, .cons (fun t ht => h.behind t ht) h.ordered.pairwise⟩, ?_, ?_, ?_,
      fun i c hi hc => ?_⟩
    · exact List.forall_mem_cons.mpr ⟨by dsimp only; omega, h.ordered.start_lt_stop⟩
    · refine List.forall_mem_cons.mpr ⟨Nat.le_refl _, fun t ht => ?_⟩
      exact Nat.le_trans hle (h.behind t ht)
    · exact List.forall_mem_cons.mpr ⟨hlength, h.before⟩
    · refine List.forall_mem_cons.mpr ⟨?_, h.lexeme⟩
      dsimp only
      rw [Span.length, Nat.add_sub_cancel_left, drop_of_drop hdrop, hdrop, List.take_left]
      exact hlexeme
    · by_cases hstop : start + text.length ≤ i
      · rw [uncovered_cons_iff hstop, h.uncovered_iff i c hstop hc, inComment_token_iff hle]
      · -- the token covers these characters, so that none is blank and no comment begins among them
        have hlt := Nat.lt_of_not_le hstop
        refine iff_of_false (fun huncovered => huncovered _ List.mem_cons_self ⟨hi, hlt⟩) ?_
        rintro (hgap | ⟨j, hj, hji, -, huncovered, -⟩)
        · rw [hlexeme.not_isGapChar c (mem_of_getElem? hdrop hi hlt hc)] at hgap
          cases hgap
        · exact huncovered _ List.mem_cons_self ⟨hj, Nat.lt_of_le_of_lt hji hlt⟩

/-! ## Scanning a text -/

/-- A scan of a text parts it. -/
theorem Passes.partition (h : Passes start text ts rest) (hrest : rest = [])
    (hdrop : cs.drop start = text) : Partition cs start ts := by
  induction h with
  | @here start =>
    refine ⟨⟨by simp, .nil⟩, by simp, by simp, by simp, fun i c hi hc => ?_⟩
    have := (List.getElem?_eq_some_iff.mp hc).1
    rw [List.drop_eq_nil_iff] at hdrop
    omega
  | gap hbegins _ ih =>
    rw [hrest, List.append_nil] at hbegins
    exact (partition_gap_iff hdrop hbegins).mpr (ih hrest (drop_of_drop hdrop))
  | token hbegins _ ih =>
    rw [hrest, List.append_nil] at hbegins
    cases hbegins with
    | token hlexeme => exact (partition_token_iff hdrop hlexeme).mpr (ih hrest (drop_of_drop hdrop))

/-- A gap begins at a character that no token covers. -/
theorem Partition.exists_gap (h : Partition cs start ts) (hdrop : cs.drop start = c :: rest)
    (huncovered : Uncovered ts start) :
    ∃ text behind, cs.drop start = text ++ behind ∧ Begins none text behind := by
  rcases (h.uncovered_iff start c (Nat.le_refl _) (getElem?_of_cons hdrop)).mp huncovered with
    hblank | ⟨j, hstart, hj, hsharp, -, -⟩
  · exact ⟨[c], rest, hdrop, .blank hblank⟩
  · obtain rfl : start = j := Nat.le_antisymm hstart hj
    rw [getElem?_of_cons hdrop, Option.some.injEq] at hsharp
    obtain ⟨front, behind, rfl, -, hbegins⟩ :=
      exists_begins_of_piece? (show piece? '#' rest = _ from rfl)
    exact ⟨'#' :: front, behind, hsharp ▸ hdrop, hbegins⟩

/-- A token begins at a character that one covers. -/
theorem Partition.exists_token (h : Partition cs start ts) (hcovered : ¬ Uncovered ts start) :
    ∃ kind text behind us, cs.drop start = text ++ behind ∧ Lexeme kind text behind ∧
      ts = ⟨kind, ⟨start, start + text.length⟩⟩ :: us := by
  simp only [Uncovered, not_forall, not_not] at hcovered
  obtain ⟨t, ht, hstart, hstop⟩ := hcovered
  obtain rfl : start = t.span.start := Nat.le_antisymm (h.behind t ht) hstart
  rcases ts with _ | ⟨u, us⟩
  · cases ht
  · obtain rfl : u = t := by
      -- a token before it would begin before the text does
      by_contra hne
      have htail := List.mem_of_ne_of_mem (Ne.symm hne) ht
      have hbefore := List.rel_of_pairwise_cons h.ordered.pairwise htail
      have hlt := h.ordered.start_lt_stop u List.mem_cons_self
      have hbehind := h.behind u List.mem_cons_self
      omega
    have hlength : ((cs.drop u.span.start).take u.span.length).length = u.span.length := by
      have := h.before u List.mem_cons_self
      rw [List.length_take, List.length_drop, Span.length]
      omega
    refine ⟨u.kind, _, _, us, (take_append_drop_span _ (Nat.le_of_lt hstop)).symm, h.lexeme u ht, ?_⟩
    rw [hlength, Span.length, Nat.add_sub_cancel' (Nat.le_of_lt hstop)]

theorem length_drop_lt (hdrop : cs.drop start = text ++ rest) (hne : text ≠ []) :
    (cs.drop (start + text.length)).length < (cs.drop start).length := by
  rw [drop_of_drop hdrop, hdrop, List.length_append]
  exact Nat.lt_add_of_pos_left (List.length_pos_iff.mpr hne)

/-- A text that is parted is scanned to the tokens of its parts. -/
theorem Partition.passes (h : Partition cs start ts) : Passes start (cs.drop start) ts [] := by
  induction hlength : (cs.drop start).length using Nat.strong_induction_on generalizing start ts with
  | _ n ih =>
    rcases hdrop : cs.drop start with _ | ⟨c, rest⟩
    · have hnil : ts = [] := List.eq_nil_iff_forall_not_mem.mpr fun t ht => by
        have hlt := h.ordered.start_lt_stop t ht
        have hbehind := h.behind t ht
        have hbefore := h.before t ht
        rw [List.drop_eq_nil_iff] at hdrop
        omega
      rw [hnil]
      exact .here
    · rw [← hdrop]
      by_cases hcovered : Uncovered ts start
      · obtain ⟨text, behind, hparts, hbegins⟩ := h.exists_gap hdrop hcovered
        have hshorter := hlength ▸ length_drop_lt hparts hbegins.ne_nil
        have hnext := ih _ hshorter ((partition_gap_iff hparts hbegins).mp h) rfl
        rw [drop_of_drop hparts] at hnext
        rw [hparts]
        exact .gap (by rwa [List.append_nil]) hnext
      · obtain ⟨kind, text, behind, us, hparts, hlexeme, rfl⟩ := h.exists_token hcovered
        have hshorter := hlength ▸ length_drop_lt hparts hlexeme.ne_nil
        have hnext := ih _ hshorter ((partition_token_iff hparts hlexeme).mp h) rfl
        rw [drop_of_drop hparts] at hnext
        rw [hparts]
        exact .token (by rw [List.append_nil]; exact .token hlexeme) hnext

/-- **A text is accepted exactly if it can be parted into tokens and gaps.** The answer is these
tokens and then the end of the text, which is the only token that stands for it. -/
theorem scan_ok_iff_partition {source : String} {ts : List Token} :
    scan source = .ok ts ↔
      ∃ us, ts = us ++ [⟨.eof, Span.point source.toList.length⟩] ∧
        (∀ t ∈ us, t.isEof = false) ∧ Partition source.toList 0 us := by
  rw [scan_eq_ok_iff_passes]
  constructor
  · rintro ⟨us, hpasses, rfl⟩
    have hpartition := hpasses.partition rfl (List.drop_zero (l := source.toList))
    exact ⟨us, rfl, hpasses.isEof_eq_false, hpartition⟩
  · rintro ⟨us, rfl, -, hpartition⟩
    exact ⟨us, hpartition.passes, rfl⟩

end Token

end SignalLab
