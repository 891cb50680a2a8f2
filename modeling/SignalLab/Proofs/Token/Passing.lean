import SignalLab.Proofs.Token.Lexeme
import SignalLab.Proofs.Token.Scanning

/-!
# How far a text is scanned

A text is scanned from left to right. `Token.Passes` says how far the scan gets and which tokens it
finds on the way, piece by piece, in terms of what a text can begin with. A text is refused exactly if
the scan gets to a misfit, and the diagnostic names this character and its place (`scan_error_iff`).

What the scan has found before it is stopped does not depend on what stops it: the text up to there is
accepted by itself, with the same tokens (`Passes.scan_eq`).
-/

namespace SignalLab

namespace Token

/-- Scanning a text that begins at an offset, over some tokens, where the rest follows. -/
inductive Passes : Nat → List Char → List Token → List Char → Prop
  /-- Nothing has been scanned yet. -/
  | here {start : Nat} {rest : List Char} : Passes start [] [] rest
  /-- A gap is passed over. -/
  | gap {start : Nat} {text more rest : List Char} {ts : List Token}
      (begins : Begins none text (more ++ rest))
      (passes : Passes (start + text.length) more ts rest) : Passes start (text ++ more) ts rest
  /-- A token is found. -/
  | token {start : Nat} {text more rest : List Char} {kind : TokenKind} {ts : List Token}
      (begins : Begins (some kind) text (more ++ rest))
      (passes : Passes (start + text.length) more ts rest) :
      Passes start (text ++ more) (⟨kind, ⟨start, start + text.length⟩⟩ :: ts) rest

variable {start : Nat} {cs front rest : List Char} {c : Char} {ts : List Token} {d : Diagnostic}

/-- The answer of a scan behind a piece. -/
theorem scanFrom_of_begins {text : List Char} {kind? : Option TokenKind}
    (h : Begins kind? text rest) :
    scanFrom start (text ++ rest) = (scanFrom (start + text.length) rest).map
      ((kind?.map fun kind => (⟨kind, ⟨start, start + text.length⟩⟩ : Token)).toList ++ ·) := by
  obtain ⟨c, front, rfl⟩ := List.exists_cons_of_ne_nil h.ne_nil
  rw [List.cons_append, scanFrom_of_piece? h.piece?, List.length_cons,
    show start + (front.length + 1) = start + 1 + front.length by omega]

/-- **The answer of a scan behind what it has passed.** -/
theorem Passes.scanFrom_eq (h : Passes start front ts rest) :
    scanFrom start (front ++ rest) = (scanFrom (start + front.length) rest).map (ts ++ ·) := by
  induction h with
  | @here start rest =>
    rw [List.nil_append, List.length_nil, Nat.add_zero]
    rcases scanFrom start rest with d | us <;> rfl
  | @gap start text more rest ts hbegins _ ih =>
    rw [List.append_assoc, scanFrom_of_begins hbegins, ih, List.length_append, ← Nat.add_assoc]
    rcases scanFrom (start + text.length + more.length) rest with d | us <;> rfl
  | @token start text more rest kind ts hbegins _ ih =>
    rw [List.append_assoc, scanFrom_of_begins hbegins, ih, List.length_append, ← Nat.add_assoc]
    rcases scanFrom (start + text.length + more.length) rest with d | us <;> rfl

/-- What is passed over does not depend on the rest but for the character that ends the last piece. -/
theorem Passes.replace {rest' : List Char} (h : Passes start front ts rest)
    (hrest : ∀ kind?, Replaces (endsPiece kind?) rest rest') : Passes start front ts rest' := by
  induction h with
  | here => exact .here
  | @gap _ _ more _ _ hbegins _ ih => exact .gap (hbegins.replace ((hrest _).append more)) (ih hrest)
  | @token _ _ more _ _ _ hbegins _ ih =>
    exact .token (hbegins.replace ((hrest _).append more)) (ih hrest)

/-- Passing over one text after another. -/
theorem Passes.append {back : List Char} {us : List Token} (h : Passes start front ts (back ++ rest))
    (h' : Passes (start + front.length) back us rest) :
    Passes start (front ++ back) (ts ++ us) rest := by
  generalize hbehind : back ++ rest = behind at h
  induction h with
  | here => exact h'
  | @gap start text more _ ts hbegins _ ih =>
    rw [List.append_assoc]
    refine .gap ?_ (ih ?_ hbehind)
    · rwa [List.append_assoc, hbehind]
    · rwa [Nat.add_assoc, ← List.length_append]
  | @token start text more _ kind ts hbegins _ ih =>
    rw [List.append_assoc]
    refine .token ?_ (ih ?_ hbehind)
    · rwa [List.append_assoc, hbehind]
    · rwa [Nat.add_assoc, ← List.length_append]

/-- At another offset the same is passed over, with all tokens moved. -/
theorem Passes.shift (h : Passes start front ts rest) (k : Nat) :
    Passes (start + k) front (ts.map (·.mapSpan (Span.shift k))) rest := by
  induction h with
  | here => exact .here
  | @gap start text _ _ _ hbegins _ ih =>
    rw [Nat.add_right_comm] at ih
    exact .gap hbegins ih
  | @token start text _ _ _ _ hbegins _ ih =>
    rw [Nat.add_right_comm] at ih
    rw [List.map_cons, mapSpan, Span.shift, Nat.add_right_comm start text.length k]
    exact .token hbegins ih

theorem add_length_cons (start : Nat) (c : Char) (front : List Char) :
    start + (c :: front).length = start + 1 + front.length := by
  rw [List.length_cons, Nat.add_right_comm, Nat.add_assoc]

/-- A scan that passes over all of a text is one of the whole text. -/
theorem passes_nil_iff_scans : Passes start cs ts [] ↔ Scans start cs ts := by
  constructor
  · intro h
    generalize hrest : ([] : List Char) = rest at h
    induction h with
    | here => exact .done
    | gap hbegins _ ih =>
      subst hrest
      obtain ⟨c, front, rfl⟩ := List.exists_cons_of_ne_nil hbegins.ne_nil
      have hpiece := hbegins.piece?
      rw [List.append_nil] at hpiece
      rw [add_length_cons] at ih
      exact .gap hpiece (ih rfl)
    | token hbegins _ ih =>
      subst hrest
      obtain ⟨c, front, rfl⟩ := List.exists_cons_of_ne_nil hbegins.ne_nil
      have hpiece := hbegins.piece?
      rw [List.append_nil] at hpiece
      rw [add_length_cons] at ih ⊢
      exact .token hpiece (ih rfl)
  · intro h
    induction h with
    | done => exact .here
    | gap hpiece _ ih =>
      rw [← add_length_cons] at ih
      exact .gap (by rw [List.append_nil]; exact piece?_eq_some_iff.mp hpiece) ih
    | token hpiece _ ih =>
      rw [← add_length_cons] at ih ⊢
      exact .token (by rw [List.append_nil]; exact piece?_eq_some_iff.mp hpiece) ih

theorem Passes.isEof_eq_false (h : Passes start front ts rest) : ∀ t ∈ ts, t.isEof = false :=
  (passes_nil_iff_scans.mp (h.replace fun _ => replaces_nil _ rest)).isEof_eq_false

/-- Behind a piece a scan passes over what it passes over without the piece. -/
theorem Passes.after {text : List Char} {kind? : Option TokenKind}
    (h : Passes (start + text.length) front ts rest) (hbegins : Begins kind? text (front ++ rest)) :
    ∃ us, Passes start (text ++ front) us rest := by
  rcases kind? with _ | kind
  · exact ⟨_, .gap hbegins h⟩
  · exact ⟨_, .token hbegins h⟩

/-- A scan is stopped at a misfit, wherever it began. -/
theorem scanFrom_misfit (h : Misfit c rest) :
    scanFrom start (c :: rest) = .error (.character c (Span.single start)) := by
  rw [scanFrom, piece?_eq_none_iff.mpr h]

/-- A scan passes over the whole text, or over all that is before a misfit. -/
theorem exists_passes (start : Nat) (cs : List Char) :
    (∃ ts, Passes start cs ts []) ∨
      ∃ front ts c rest, cs = front ++ c :: rest ∧ Passes start front ts (c :: rest) ∧
        Misfit c rest := by
  induction hlength : cs.length using Nat.strong_induction_on generalizing start cs with
  | _ n ih =>
    rcases cs with _ | ⟨c, cs⟩
    · exact .inl ⟨[], .here⟩
    · rcases hpiece : piece? c cs with _ | ⟨kind?, more⟩
      · exact .inr ⟨[], [], c, cs, rfl, .here, piece?_eq_none_iff.mp hpiece⟩
      · obtain ⟨text, behind, rfl, -, hbegins⟩ := exists_begins_of_piece? hpiece
        have hshorter : behind.length < n := by
          rw [← hlength, List.length_cons, List.length_append]
          omega
        rcases ih _ hshorter (start + (c :: text).length) behind rfl with
          ⟨ts, hpasses⟩ | ⟨front, ts, c', rest, rfl, hpasses, hmisfit⟩
        · rw [← List.append_nil behind] at hbegins
          obtain ⟨us, hall⟩ := hpasses.after hbegins
          exact .inl ⟨us, hall⟩
        · obtain ⟨us, hall⟩ := hpasses.after hbegins
          exact .inr ⟨c :: text ++ front, us, c', rest, by simp, hall, hmisfit⟩

/-- A scan that succeeds passes over the whole text. -/
theorem scan_eq_ok_iff_passes {source : String} :
    scan source = .ok ts ↔
      ∃ us, Passes 0 source.toList us [] ∧ ts = us ++ [⟨.eof, Span.point source.toList.length⟩] := by
  simp only [scan_eq_ok_iff, passes_nil_iff_scans, atEnd, Nat.zero_add]

theorem Passes.scan_eq (h : Passes 0 front ts rest) :
    scan (String.ofList front) = .ok (ts ++ [⟨.eof, Span.point front.length⟩]) := by
  refine scan_eq_ok_iff_passes.mpr ⟨ts, ?_, by rw [String.toList_ofList]⟩
  rw [String.toList_ofList]
  exact h.replace fun _ => replaces_nil _ rest

/-! ## Refused texts -/

/-- A text is refused behind `front`: scanning it from left to right gets there over the tokens `ts`,
and then to a misfit. -/
structure Refused (cs front : List Char) (ts : List Token) (c : Char) (rest : List Char) : Prop where
  parts : cs = front ++ c :: rest
  passes : Passes 0 front ts (c :: rest)
  misfit : Misfit c rest

theorem scan_error_iff {source : String} :
    scan source = .error d ↔ ∃ front ts c rest, Refused source.toList front ts c rest ∧
      d = .character c (Span.single front.length) := by
  constructor
  · intro h
    rcases exists_passes 0 source.toList with
      ⟨us, hpasses⟩ | ⟨front, us, c, rest, hparts, hpasses, hmisfit⟩
    · rw [scan_eq_ok_iff_passes.mpr ⟨us, hpasses, rfl⟩] at h
      cases h
    · rw [scan, hparts, hpasses.scanFrom_eq, scanFrom_misfit hmisfit, Nat.zero_add] at h
      exact ⟨front, us, c, rest, ⟨hparts, hpasses, hmisfit⟩, (Except.error.inj h).symm⟩
  · rintro ⟨front, ts, c, rest, ⟨hparts, hpasses, hmisfit⟩, rfl⟩
    rw [scan, hparts, hpasses.scanFrom_eq, scanFrom_misfit hmisfit, Nat.zero_add]
    rfl

/-- **A text is refused exactly at the first misfit** that scanning it from left to right gets to. The
diagnostic names that character and its place, the text before it is accepted with the tokens found so
far, and no token begins there. -/
theorem scan_refuses_at_misfit (source : String) :
    (∀ d, scan source = .error d ↔ ∃ front ts c rest, Refused source.toList front ts c rest ∧
      d = .character c (Span.single front.length)) ∧
    (∀ front ts c rest, Refused source.toList front ts c rest →
      scan (String.ofList front) = .ok (ts ++ [⟨.eof, Span.point front.length⟩]) ∧
      ∀ kind text after, text ++ after = c :: rest → ¬ Lexeme kind text after) ∧
    ((∃ ts, scan source = .ok ts) ↔
      ∀ front ts c rest, ¬ Refused source.toList front ts c rest) := by
  refine ⟨fun _ => scan_error_iff, fun front ts c rest h => ⟨h.passes.scan_eq, ?_⟩, ?_, ?_⟩
  · exact fun kind text after htext => h.misfit.not_lexeme htext
  · rintro ⟨us, hus⟩ front ts c rest hrefused
    rw [scan_error_iff.mpr ⟨front, ts, c, rest, hrefused, rfl⟩] at hus
    cases hus
  · intro hnone
    rcases hscan : scan source with d | ts
    · obtain ⟨front, ts, c, rest, hrefused, -⟩ := scan_error_iff.mp hscan
      exact absurd hrefused (hnone front ts c rest)
    · exact ⟨ts, rfl⟩

/-- A numeral without digits in its exponent is refused at its first character. -/
example : scan "mean 1e+" = .error (.character '1' (Span.single 5)) := by cbv

end Token

end SignalLab
