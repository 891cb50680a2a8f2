import SignalLab.Proofs.Grammar.Rules
import SignalLab.Proofs.Token.Piece

/-!
# The tokens of a text and of its parts

A scan that succeeds is a sequence of pieces (`Token.Scans`), and the statements about tokens are by
induction on it: the places of tokens are in order and within the text (`Scans.ordered`,
`Scans.bounds`), and a part of the text that begins with a token and ends with one is scanned to the
same tokens when it stands alone (`Scans.slice`).

## Shape of the argument

A scan goes on from any piece as if the text began there, except for the offset it counts from
(`Scans.rebase`). That it may also stop behind any token is less obvious, because a piece is the
longest that begins where it stands: what follows it decides where it ends. Cutting the text off behind
a later token changes nothing a piece depends on (`piece?_replace`).
-/

namespace SignalLab

namespace Token

/-! ## Scans -/

/-- The pieces of a text that begins at an offset, and the tokens among them. -/
inductive Scans : Nat → List Char → List Token → Prop
  /-- The end of the text. -/
  | done {start : Nat} : Scans start [] []
  /-- A gap before the rest of the text. -/
  | gap {start : Nat} {c : Char} {front rest : List Char} {ts : List Token}
      (piece : piece? c (front ++ rest) = some ⟨none, front.length⟩)
      (scans : Scans (start + 1 + front.length) rest ts) :
      Scans start (c :: (front ++ rest)) ts
  /-- A token before the rest of the text. -/
  | token {start : Nat} {c : Char} {front rest : List Char} {kind : TokenKind} {ts : List Token}
      (piece : piece? c (front ++ rest) = some ⟨some kind, front.length⟩)
      (scans : Scans (start + 1 + front.length) rest ts) :
      Scans start (c :: (front ++ rest)) (⟨kind, ⟨start, start + 1 + front.length⟩⟩ :: ts)

/-- The token at the end of a text that begins at an offset. -/
def atEnd (start : Nat) (cs : List Char) : Token := ⟨.eof, Span.point (start + cs.length)⟩

/-- The end of a text is that of the rest behind its first piece. -/
theorem add_length_piece (start : Nat) (c : Char) (front rest : List Char) :
    start + (c :: (front ++ rest)).length = start + 1 + front.length + rest.length := by
  rw [List.length_cons, List.length_append]
  omega

theorem atEnd_append (start : Nat) (c : Char) (front rest : List Char) :
    atEnd start (c :: (front ++ rest)) = atEnd (start + 1 + front.length) rest := by
  rw [atEnd, atEnd, add_length_piece]

/-- The answer of a scan after a piece that is known to end. -/
theorem scanFrom_of_piece? {start : Nat} {c : Char} {front rest : List Char}
    {kind? : Option TokenKind} (h : piece? c (front ++ rest) = some ⟨kind?, front.length⟩) :
    scanFrom start (c :: (front ++ rest)) =
      (scanFrom (start + 1 + front.length) rest).map
        ((kind?.map fun kind => (⟨kind, ⟨start, start + 1 + front.length⟩⟩ : Token)).toList ++ ·) := by
  rw [scanFrom, h]
  dsimp only
  rw [List.drop_left]
  rcases kind? with _ | kind
  · rcases scanFrom (start + 1 + front.length) rest with _ | ts <;> rfl
  · rfl

theorem Scans.scanFrom_eq {start : Nat} {cs : List Char} {ts : List Token} (h : Scans start cs ts) :
    scanFrom start cs = .ok (ts ++ [atEnd start cs]) := by
  induction h with
  | done => rw [scanFrom]; rfl
  | gap hpiece _ ih | token hpiece _ ih =>
    rw [scanFrom_of_piece? hpiece, ih, atEnd_append]
    rfl

theorem exists_scans_of_scanFrom {start : Nat} {cs : List Char} {ts : List Token}
    (h : scanFrom start cs = .ok ts) : ∃ us, Scans start cs us ∧ ts = us ++ [atEnd start cs] := by
  induction hlength : cs.length using Nat.strong_induction_on generalizing start cs ts with
  | _ n ih =>
    rcases cs with _ | ⟨c, cs⟩
    · rw [scanFrom] at h
      cases h
      exact ⟨[], .done, rfl⟩
    · rcases hpiece : piece? c cs with _ | ⟨kind?, more⟩
      · rw [scanFrom, hpiece] at h
        simp at h
      · obtain ⟨front, rest, rfl, rfl, -⟩ := piece?_replace hpiece
        rw [scanFrom_of_piece? hpiece] at h
        rcases hscan : scanFrom (start + 1 + front.length) rest with d | ts'
        · rw [hscan] at h
          cases h
        · rw [hscan] at h
          cases h
          have hshorter : rest.length < n := by
            rw [← hlength, List.length_cons, List.length_append]
            omega
          obtain ⟨us, hus, rfl⟩ := ih _ hshorter hscan rfl
          rcases kind? with _ | kind
          · exact ⟨us, .gap hpiece hus, by rw [atEnd_append]; rfl⟩
          · exact ⟨_, .token hpiece hus, by rw [atEnd_append]; rfl⟩

/-- **A scan answers with the tokens among the pieces of the text**, and the end of the text. -/
theorem scan_eq_ok_iff {source : String} {ts : List Token} :
    scan source = .ok ts ↔
      ∃ us, Scans 0 source.toList us ∧ ts = us ++ [atEnd 0 source.toList] := by
  refine ⟨exists_scans_of_scanFrom, ?_⟩
  rintro ⟨us, hus, rfl⟩
  exact hus.scanFrom_eq

/-! ## Places -/

variable {start : Nat} {cs : List Char} {ts : List Token}

theorem Scans.pieceKind (h : Scans start cs ts) : ∀ t ∈ ts, PieceKind t.kind := by
  induction h with
  | done => simp
  | gap _ _ ih => exact ih
  | token hpiece _ ih => exact List.forall_mem_cons.mpr ⟨pieceKind_of_piece? hpiece, ih⟩

theorem Scans.isEof_eq_false (h : Scans start cs ts) : ∀ t ∈ ts, t.isEof = false := by
  intro t ht
  have hne := (h.pieceKind t ht).ne_eof
  unfold Token.isEof
  split
  · next heof => exact absurd heof hne
  · rfl

/-- Every token holds a character, and lies within the text. -/
theorem Scans.bounds (h : Scans start cs ts) : ∀ t ∈ ts,
    start ≤ t.span.start ∧ t.span.start < t.span.stop ∧ t.span.stop ≤ start + cs.length := by
  induction h with
  | done => simp
  | gap _ _ ih =>
    intro t ht
    have := ih t ht
    simp only [List.length_cons, List.length_append]
    omega
  | token _ _ ih =>
    rw [List.forall_mem_cons]
    simp only [List.length_cons, List.length_append]
    refine ⟨by omega, fun t ht => ?_⟩
    have := ih t ht
    omega

/-- Tokens in the order of their places, with no two on the same character. -/
structure Ordered (ts : List Token) : Prop where
  start_lt_stop : ∀ t ∈ ts, t.span.start < t.span.stop
  pairwise : ts.Pairwise fun t u => t.span.stop ≤ u.span.start

theorem Ordered.sublist {us : List Token} (h : Ordered ts) (hus : us.Sublist ts) : Ordered us :=
  ⟨fun t ht => h.start_lt_stop t (hus.subset ht), h.pairwise.sublist hus⟩

theorem Ordered.part {us : List Token} (h : Ordered ts) (hus : us <:+: ts) : Ordered us :=
  h.sublist hus.sublist

theorem Scans.ordered (h : Scans start cs ts) : Ordered ts := by
  refine ⟨fun t ht => (h.bounds t ht).2.1, ?_⟩
  induction h with
  | done => exact .nil
  | gap _ _ ih => exact ih
  | token _ hscans ih => exact .cons (fun t ht => (hscans.bounds t ht).1) ih

/-- The place behind some tokens, of which the first may stand at `start`. -/
def behind (start : Nat) : List Token → Nat
  | [] => start
  | t :: ts => behind t.span.stop ts

theorem behind_append (start : Nat) (ts us : List Token) :
    behind start (ts ++ us) = behind (behind start ts) us := by
  induction ts generalizing start with
  | nil => rfl
  | cons t ts ih => exact ih t.span.stop

/-- The span from the first of some tokens to the last. -/
def cover : List Token → Span
  | [] => Span.point 0
  | t :: ts => ⟨t.span.start, behind t.span.stop ts⟩

/-! ## What tokens cover -/

theorem exists_behind_eq (start : Nat) {ts : List Token} (hne : ts ≠ []) :
    ∃ t ∈ ts, behind start ts = t.span.stop := by
  induction ts generalizing start with
  | nil => exact absurd rfl hne
  | cons t ts ih =>
    rcases ts with _ | ⟨u, us⟩
    · exact ⟨t, List.mem_singleton_self t, rfl⟩
    · obtain ⟨v, hv, hbehind⟩ := ih t.span.stop (List.cons_ne_nil u us)
      exact ⟨v, List.mem_cons_of_mem t hv, hbehind⟩

theorem exists_cover_start_eq {ts : List Token} (hne : ts ≠ []) :
    ∃ t ∈ ts, (cover ts).start = t.span.start := by
  obtain ⟨t, us, rfl⟩ := List.exists_cons_of_ne_nil hne
  exact ⟨t, List.mem_cons_self, rfl⟩

theorem exists_cover_stop_eq {ts : List Token} (hne : ts ≠ []) :
    ∃ t ∈ ts, (cover ts).stop = t.span.stop := by
  obtain ⟨t, us, rfl⟩ := List.exists_cons_of_ne_nil hne
  exact exists_behind_eq t.span.start hne

theorem Ordered.stop_le_behind (h : Ordered ts) {t : Token} (ht : t ∈ ts) (start : Nat) :
    t.span.stop ≤ behind start ts := by
  induction ts generalizing start t with
  | nil => cases ht
  | cons u us ih =>
    have hus : Ordered us := h.sublist (List.sublist_cons_self u us)
    rcases List.mem_cons.mp ht with rfl | htail
    · rcases us with _ | ⟨v, vs⟩
      · exact Nat.le_refl _
      · -- the second token ends behind the first
        have hv := ih hus List.mem_cons_self t.span.stop
        have hstart := List.rel_of_pairwise_cons h.pairwise (List.mem_cons_self (l := vs))
        have hstop := h.start_lt_stop v (by simp)
        exact Nat.le_trans (by omega) hv
    · exact ih hus htail u.span.stop

/-- Every token lies within what the tokens cover. -/
theorem Ordered.within_cover (h : Ordered ts) {t : Token} (ht : t ∈ ts) :
    (cover ts).start ≤ t.span.start ∧ t.span.stop ≤ (cover ts).stop := by
  rcases ts with _ | ⟨u, us⟩
  · cases ht
  · refine ⟨?_, h.stop_le_behind ht u.span.start⟩
    rcases List.mem_cons.mp ht with rfl | htail
    · exact Nat.le_refl _
    · have hstop := List.rel_of_pairwise_cons h.pairwise htail
      have hstart := h.start_lt_stop u List.mem_cons_self
      exact Nat.le_trans (Nat.le_of_lt hstart) hstop

theorem Ordered.cover_start_lt_stop (h : Ordered ts) (hne : ts ≠ []) :
    (cover ts).start < (cover ts).stop := by
  obtain ⟨t, ht, hstart⟩ := exists_cover_start_eq hne
  have hstop := (h.within_cover ht).2
  have hlt := h.start_lt_stop t ht
  omega

/-- Some of the tokens cover a part of what all of them cover. -/
theorem Ordered.cover_within (h : Ordered ts) {us : List Token} (hne : us ≠ []) (hus : us ⊆ ts) :
    (cover ts).start ≤ (cover us).start ∧ (cover us).stop ≤ (cover ts).stop := by
  obtain ⟨t, ht, hstart⟩ := exists_cover_start_eq hne
  obtain ⟨u, hu, hstop⟩ := exists_cover_stop_eq hne
  rw [hstart, hstop]
  exact ⟨(h.within_cover (hus ht)).1, (h.within_cover (hus hu)).2⟩

/-- Tokens before others cover what lies before. -/
theorem Ordered.cover_stop_le {us vs ws : List Token} (h : Ordered (us ++ vs)) (hus : us ≠ [])
    (hne : ws ≠ []) (hws : ws ⊆ vs) : (cover us).stop ≤ (cover ws).start := by
  obtain ⟨t, ht, hstop⟩ := exists_cover_stop_eq hus
  obtain ⟨u, hu, hstart⟩ := exists_cover_start_eq hne
  rw [hstop, hstart]
  exact (List.pairwise_append.mp h.pairwise).2.2 t ht u (hws hu)

/-- What tokens cover reaches from the first of them to the last. -/
theorem Ordered.merge_cover {us mid vs : List Token} (h : Ordered (us ++ (mid ++ vs)))
    (hus : us ≠ []) (hvs : vs ≠ []) :
    (cover us).merge (cover vs) = cover (us ++ (mid ++ vs)) := by
  have hfront := h.cover_within hus (List.subset_append_left _ _)
  have hback := h.cover_within hvs fun t ht => by simp [ht]
  obtain ⟨u, us, rfl⟩ := List.exists_cons_of_ne_nil hus
  obtain ⟨v, vs, rfl⟩ := List.exists_cons_of_ne_nil hvs
  have hstart : (cover (u :: us)).start = (cover (u :: us ++ (mid ++ v :: vs))).start := rfl
  have hstop : (cover (v :: vs)).stop = (cover (u :: us ++ (mid ++ v :: vs))).stop := by
    rw [List.cons_append, cover, cover, behind_append, behind_append]
    rfl
  rw [Span.merge, Nat.min_eq_left (by omega), Nat.max_eq_right (by omega), hstart, hstop]

/-! ## Parts of a text -/

/-- A text can be cut right behind any of its tokens. -/
theorem Scans.split {us vs : List Token} (h : Scans start cs (us ++ vs)) :
    ∃ front back, cs = front ++ back ∧ Scans start front us ∧
      Scans (start + front.length) back vs ∧ behind start us = start + front.length := by
  generalize hts : us ++ vs = ts at h
  induction h generalizing us with
  | done =>
    obtain ⟨rfl, rfl⟩ := List.append_eq_nil_iff.mp hts
    exact ⟨[], [], rfl, .done, .done, rfl⟩
  | @gap start c front rest ts hpiece hscans ih =>
    rcases us with _ | ⟨u, us⟩
    · -- without tokens in front nothing is cut off, not even a gap
      obtain rfl : vs = ts := hts
      exact ⟨[], _, rfl, .done, .gap hpiece hscans, rfl⟩
    · obtain ⟨front', back, rfl, hfront, hback, hbehind⟩ := ih hts
      refine ⟨c :: (front ++ front'), back, by simp, .gap ?_ hfront, ?_, ?_⟩
      · exact piece?_append_replace hpiece (replaces_append _ _ _)
      · rwa [add_length_piece]
      · rwa [add_length_piece]
  | @token start c front rest kind ts hpiece hscans ih =>
    rcases us with _ | ⟨u, us⟩
    · obtain rfl : vs = _ := hts
      exact ⟨[], _, rfl, .done, .token hpiece hscans, rfl⟩
    · rw [List.cons_append, List.cons.injEq] at hts
      obtain ⟨rfl, hts⟩ := hts
      obtain ⟨front', back, rfl, hfront, hback, hbehind⟩ := ih hts
      refine ⟨c :: (front ++ front'), back, by simp, .token ?_ hfront, ?_, ?_⟩
      · exact piece?_append_replace hpiece (replaces_append _ _ _)
      · rwa [add_length_piece]
      · rwa [add_length_piece]

/-- The gaps before the first token of a text can be left out. -/
theorem Scans.dropGaps {t : Token} (h : Scans start cs (t :: ts)) :
    ∃ gaps rest, cs = gaps ++ rest ∧ t.span.start = start + gaps.length ∧
      Scans t.span.start rest (t :: ts) := by
  generalize hus : t :: ts = us at h
  induction h with
  | done => cases hus
  | @gap start c front rest us _ _ ih =>
    obtain ⟨gaps, rest', rfl, hstart, hscans⟩ := ih hus
    refine ⟨c :: (front ++ gaps), rest', by simp, ?_, hscans⟩
    rw [hstart, add_length_piece]
  | token hpiece hscans _ =>
    cases hus
    exact ⟨[], _, rfl, rfl, .token hpiece hscans⟩

/-- A text has the same tokens at another offset, except for their places. -/
theorem Scans.rebase {k : Nat} (h : Scans (start + k) cs ts) :
    ∃ us, Scans start cs us ∧ us.map (·.mapSpan (Span.shift k)) = ts := by
  generalize hoffset : start + k = offset at h
  induction h generalizing start with
  | done => exact ⟨[], .done, rfl⟩
  | @gap _ c front rest ts hpiece _ ih =>
    obtain ⟨us, hus, hts⟩ := @ih (start + 1 + front.length) (by omega)
    exact ⟨us, .gap hpiece hus, hts⟩
  | @token _ c front rest kind ts hpiece _ ih =>
    obtain ⟨us, hus, rfl⟩ := @ih (start + 1 + front.length) (by omega)
    refine ⟨_, .token hpiece hus, ?_⟩
    rw [List.map_cons, ← hoffset, Token.mapSpan, Span.shift,
      show start + 1 + front.length + k = start + k + 1 + front.length by omega]

/-- **The part of a text that some of its tokens cover** consists of these tokens also by itself. -/
theorem Scans.slice {before us after : List Token} (hne : us ≠ [])
    (h : Scans 0 cs (before ++ us ++ after)) :
    (cover us).stop ≤ cs.length ∧
      ∃ us', Scans 0 ((cs.drop (cover us).start).take (cover us).length) us' ∧
        us'.map (·.mapSpan (Span.shift (cover us).start)) = us := by
  rcases us with _ | ⟨u, us⟩
  · exact absurd rfl hne
  -- off go the text of the tokens before, the gaps in front of the first, and the text behind the last
  rw [List.append_assoc] at h
  obtain ⟨front, back, rfl, -, hback, -⟩ := h.split
  obtain ⟨gaps, rest, rfl, hstart, hrest⟩ := hback.dropGaps
  have hparts : Scans u.span.start rest ((u :: us) ++ after) := hrest
  obtain ⟨text, behindText, rfl, htext, -, hstop⟩ := hparts.split
  have hcover : cover (u :: us) = ⟨u.span.start, u.span.start + text.length⟩ := by
    rw [← hstop]
    rfl
  have hslice : ((front ++ (gaps ++ (text ++ behindText))).drop u.span.start).take
      (Span.length ⟨u.span.start, u.span.start + text.length⟩) = text := by
    have hbefore : u.span.start = (front ++ gaps).length := by
      rw [hstart, List.length_append, Nat.zero_add]
    rw [Span.length, Nat.add_sub_cancel_left, ← List.append_assoc, hbefore, List.drop_left,
      List.take_left]
  rw [hcover, hslice]
  refine ⟨?_, Scans.rebase (by rwa [Nat.zero_add])⟩
  simp only [List.length_append]
  omega

/-- A text that is a single token from its first character to its last is one piece. -/
theorem Scans.exists_piece? {kind : TokenKind} (h : Scans 0 cs [⟨kind, ⟨0, cs.length⟩⟩]) :
    ∃ c front, cs = c :: front ∧ piece? c (front ++ []) = some ⟨some kind, front.length⟩ := by
  generalize hts : [(⟨kind, ⟨0, cs.length⟩⟩ : Token)] = ts at h
  cases h with
  | done => cases hts
  | @gap _ c front rest _ hpiece hscans =>
    -- the token would begin behind the gap
    have hstart := (hscans.bounds _ (hts ▸ List.mem_singleton_self _)).1
    dsimp only at hstart
    omega
  | @token _ c front rest _ ts hpiece hscans =>
    simp only [List.length_cons, List.length_append, List.cons.injEq, Token.mk.injEq,
      Span.mk.injEq, true_and] at hts
    obtain ⟨⟨rfl, hlength⟩, -⟩ := hts
    obtain rfl : rest = [] := List.eq_nil_of_length_eq_zero (by omega)
    exact ⟨c, front, by rw [List.append_nil], hpiece⟩

end Token

end SignalLab
