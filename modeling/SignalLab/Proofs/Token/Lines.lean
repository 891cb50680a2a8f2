import SignalLab.Proofs.Token.Passing

/-!
# Texts line by line

No piece of a text goes on behind the end of its line, except that the end of a line is a blank itself.
A text of two parts with the end of a line between them is therefore scanned as each part would be by
itself: the first part that is refused decides, and if neither is, the tokens of the first are followed
by those of the second (`Token.scan_append_line`).

## Shape of the argument

How far a scan gets in the first part, and whether it stops there at a misfit, does not change when a
line ends behind that part: this character goes on with no piece (`Passes.replace`) and mends no misfit
(`Misfit.append_line`). Behind it the scan is at an offset of its own (`Passes.shift`).
-/

namespace SignalLab

variable {c : Char} {cs rest text : List Char} {p : Char → Bool} {L : Language Char}

theorem Span.shift_point (k n : Nat) : (Span.point n).shift k = Span.point (n + k) := rfl

theorem Span.shift_single (k n : Nat) : (Span.single n).shift k = Span.single (n + k) := by
  rw [single, single, shift, Nat.add_right_comm]

/-! ## Misfits at the end of a line -/

theorem prefix_of_prefix_append {d : Char} (hd : d ∉ text) (h : text <+: cs ++ d :: rest) :
    text <+: cs := by
  rcases List.prefix_or_prefix_of_prefix h (List.prefix_append cs _) with hshort | ⟨more, rfl⟩
  · exact hshort
  · rcases more with _ | ⟨e, more⟩
    · rw [List.append_nil]
    · -- what is longer would hold the character itself
      rw [List.prefix_append_right_inj, List.cons_prefix_cons] at h
      exact absurd (by simp [h.1]) hd

/-- The longest part of a text stays the longest where a character follows that is in none. -/
theorem Longest.append {d : Char} (h : Longest L cs text) (hwithin : Within p L) (hd : p d = false)
    (rest : List Char) : Longest L (cs ++ d :: rest) text where
  mem := h.mem
  begins := h.begins.trans (List.prefix_append _ _)
  longest t ht hbegins := by
    refine h.longest t ht (prefix_of_prefix_append (fun hmem => ?_) hbegins)
    rw [hwithin t ht d hmem] at hd
    cases hd

/-- The end of a line mends no misfit. -/
theorem Misfit.append_line (h : Misfit c rest) (more : List Char) :
    Misfit c (rest ++ '\n' :: more) := by
  cases h with
  | stray hgap hsign hword hnumeral => exact .stray hgap hsign hword hnumeral
  | bar hbar hpipe =>
    refine .bar hbar ?_
    rcases rest with _ | ⟨d, rest⟩
    · simp
    · exact hpipe
  | numeral hstart hlongest hrefused hmissing =>
    exact .numeral hstart (hlongest.append within_numeralForm rfl more) hrefused hmissing

namespace Token

/-! ## Two lines -/

variable {front back : List Char} {ts us : List Token}

theorem replaces_line (kind? : Option TokenKind) (more : List Char) :
    Replaces (endsPiece kind?) [] ('\n' :: more) := by
  refine .inr fun d hd => ?_
  cases hd
  rcases kind? with _ | kind <;> rfl

/-- Behind a text and the end of a line another is passed over as if it stood alone. -/
theorem Passes.append_line (h : Passes 0 front ts []) (h' : Passes 0 back us rest) :
    Passes 0 (front ++ '\n' :: back) (ts ++ us.map (·.mapSpan (Span.shift (front.length + 1))))
      rest := by
  have hline : Passes (0 + front.length) ['\n'] [] (back ++ rest) := .gap (.blank rfl) .here
  have hback := hline.append (h'.shift (front.length + 1))
  exact (h.replace fun _ => replaces_line _ _).append hback

/-- The answer for two texts from the answers for each, where the second one begins at an offset. -/
def joined (offset : Nat) : Except Diagnostic (List Token) → Except Diagnostic (List Token) →
    Except Diagnostic (List Token)
  | .error d, _ => .error d
  | .ok _, .error d => .error (d.mapSpan (Span.shift offset))
  | .ok ts, .ok us => .ok (ts.filter (!·.isEof) ++ us.map (·.mapSpan (Span.shift offset)))

theorem filter_append_eof (h : ∀ t ∈ ts, t.isEof = false) (span : Span) :
    (ts ++ [(⟨.eof, span⟩ : Token)]).filter (!·.isEof) = ts := by
  rw [List.filter_append, List.filter_eq_self.mpr fun t ht => by rw [h t ht]; rfl]
  exact List.append_nil ts

/-- **A text is scanned line by line**: the first part that is refused decides, and otherwise the tokens
of the first part are followed by those of the second. -/
theorem scan_append_line (a b : String) :
    scan (a ++ "\n" ++ b) = joined (a.length + 1) (scan a) (scan b) := by
  have hlines : (a ++ "\n" ++ b).toList = a.toList ++ '\n' :: b.toList := by
    rw [String.toList_append, String.toList_append, List.append_assoc]
    rfl
  have hlength : a.toList.length = a.length := String.length_toList
  rcases exists_passes 0 a.toList with ⟨ts, ha⟩ | ⟨front, ts, c, rest, hparts, ha, hmisfit⟩
  · rw [scan_eq_ok_iff_passes.mpr ⟨ts, ha, rfl⟩]
    rcases exists_passes 0 b.toList with ⟨us, hb⟩ | ⟨front, us, c, rest, hparts, hb, hmisfit⟩
    · rw [scan_eq_ok_iff_passes.mpr ⟨us, hb, rfl⟩, joined, filter_append_eof ha.isEof_eq_false]
      refine scan_eq_ok_iff_passes.mpr ⟨_, hlines ▸ ha.append_line hb, ?_⟩
      have hend : (a ++ "\n" ++ b).toList.length = b.toList.length + (a.length + 1) := by
        rw [hlines, List.length_append, List.length_cons, hlength]
        omega
      rw [List.map_append, hlength, hend, ← Span.shift_point, List.append_assoc]
      rfl
    · have hrefused : Refused b.toList front us c rest := ⟨hparts, hb, hmisfit⟩
      rw [scan_error_iff.mpr ⟨front, us, c, rest, hrefused, rfl⟩, joined]
      refine scan_error_iff.mpr ⟨a.toList ++ '\n' :: front, _, c, rest,
        ⟨?_, ha.append_line hb, hmisfit⟩, ?_⟩
      · rw [hlines, hparts, List.append_assoc]
        rfl
      · have hplace : (a.toList ++ '\n' :: front).length = front.length + (a.length + 1) := by
          rw [List.length_append, List.length_cons, hlength]
          omega
        rw [hplace, ← Span.shift_single]
        rfl
  · have hrefused : Refused a.toList front ts c rest := ⟨hparts, ha, hmisfit⟩
    rw [scan_error_iff.mpr ⟨front, ts, c, rest, hrefused, rfl⟩, joined]
    refine scan_error_iff.mpr ⟨front, ts, c, rest ++ '\n' :: b.toList,
      ⟨?_, ha.replace fun _ => .inl rfl, hmisfit.append_line _⟩, rfl⟩
    rw [hlines, hparts, List.append_assoc]
    rfl

end Token

end SignalLab
