import SignalLab.Text.Blank

/-!
# The lines of a text

A text is cut at its line feeds, so a line is a part of it that has none, with the begin of the text or
a line feed in front of it and the end of the text or a line feed behind it (`IsLine`).
-/

namespace SignalLab.Text

variable {cs before line behind : List Char} {front after : List (List Char)}

/-- A line of a text, with what is before it and what is behind it. -/
structure IsLine (cs before line behind : List Char) : Prop where
  parts : cs = before ++ (line ++ behind)
  begins : ∀ c ∈ before.getLast?, c = '\n'
  unbroken : '\n' ∉ line
  ends : ∀ c ∈ behind.head?, c = '\n'

/-- A text is one line, or it has a first line and a line feed behind it. -/
theorem splitLines_cases (cs : List Char) :
    '\n' ∉ cs ∧ splitLines cs = [cs] ∨
      ∃ line rest, cs = line ++ '\n' :: rest ∧ '\n' ∉ line ∧
        splitLines cs = line :: splitLines rest := by
  by_cases hmem : '\n' ∈ cs
  · right
    obtain ⟨line, rest, rfl, hline⟩ := List.eq_append_cons_of_mem hmem
    exact ⟨line, rest, rfl, hline, List.splitOn_append_cons_self_of_not_mem hline rest⟩
  · exact .inl ⟨hmem, List.splitOn_eq_singleton hmem⟩

/-- A line of what follows a line feed is a line of the whole. -/
theorem IsLine.behind_line {first rest : List Char} (h : IsLine rest before line behind) :
    IsLine (first ++ '\n' :: rest) (first ++ '\n' :: before) line behind where
  parts := by rw [List.append_assoc, List.cons_append, ← h.parts]
  begins := by
    rw [List.getLast?_append, List.getLast?_cons, Option.some_or]
    rcases hlast : before.getLast? with _ | c
    · simp
    · simpa using h.begins c hlast
  unbroken := h.unbroken
  ends := h.ends

/-- What stands in front of a line: the lines before it with their line feeds. -/
def linesText (front : List (List Char)) : List Char := front.flatMap (· ++ ['\n'])

@[simp]
theorem linesText_nil : linesText [] = [] := rfl

@[simp]
theorem linesText_cons : linesText (line :: front) = line ++ '\n' :: linesText front := by
  simp [linesText]

/-- A line lies behind those before it. -/
theorem exists_isLine_of_splitLines (h : splitLines cs = front ++ line :: after) :
    ∃ behind, IsLine cs (linesText front) line behind ∧ ∀ l ∈ front, '\n' ∉ l := by
  induction front generalizing cs with
  | nil =>
    rcases splitLines_cases cs with ⟨hcs, hsplit⟩ | ⟨first, rest, rfl, hfirst, hsplit⟩
    · obtain ⟨rfl, -⟩ := List.cons.inj (hsplit.symm.trans h)
      exact ⟨[], ⟨by simp, by simp, hcs, by simp⟩, nofun⟩
    · obtain ⟨rfl, -⟩ := List.cons.inj (hsplit.symm.trans h)
      exact ⟨'\n' :: rest, ⟨rfl, by simp, hfirst, by simp⟩, nofun⟩
  | cons l front ih =>
    rcases splitLines_cases cs with ⟨-, hsplit⟩ | ⟨first, rest, rfl, hfirst, hsplit⟩
    · obtain ⟨-, hnil⟩ := List.cons.inj (hsplit.symm.trans h)
      simp at hnil
    · obtain ⟨rfl, hrest⟩ := List.cons.inj (hsplit.symm.trans h)
      obtain ⟨behind, hline, hunbroken⟩ := ih hrest
      refine ⟨behind, ?_, List.forall_mem_cons.mpr ⟨hfirst, hunbroken⟩⟩
      rw [linesText_cons]
      exact hline.behind_line

end SignalLab.Text
