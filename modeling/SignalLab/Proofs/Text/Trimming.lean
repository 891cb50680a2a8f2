import Mathlib.Data.List.DropRight
import SignalLab.Text.Blank

/-!
# Trimmed texts

Trimming takes blanks off both ends of a text (`exists_blanks`) and leaves none there
(`isSolid_trimChars`).
-/

namespace SignalLab

/-- What is left when characters are dropped begins with one that is not. -/
theorem head?_dropWhile_stop {α : Type} (p : α → Bool) (xs : List α) :
    ∀ x ∈ (xs.dropWhile p).head?, p x = false := by
  intro x hx
  have h := List.head?_dropWhile_not p xs
  rw [Option.mem_def.mp hx] at h
  simpa using h

namespace Text

variable {α : Type}

/-! ## Dropping at the end -/

theorem dropWhileEnd_eq (p : α → Bool) (xs : List α) : dropWhileEnd p xs = xs.rdropWhile p := rfl

theorem exists_append_dropWhileEnd (p : α → Bool) (xs : List α) :
    ∃ back, xs = dropWhileEnd p xs ++ back ∧ ∀ x ∈ back, p x = true := by
  refine ⟨xs.rtakeWhile p, ?_, fun x hx => List.mem_rtakeWhile_imp hx⟩
  rw [dropWhileEnd_eq, List.rdropWhile_append_rtakeWhile]

theorem getLast?_dropWhileEnd (p : α → Bool) (xs : List α) :
    ∀ x ∈ (dropWhileEnd p xs).getLast?, p x = false := by
  intro x hx
  obtain ⟨hne, rfl⟩ := List.mem_getLast?_eq_getLast hx
  exact Bool.not_eq_true _ ▸ List.rdropWhile_last_not p xs hne

/-! ## Trimming -/

/-- A text with a blank at neither end. -/
structure IsSolid (cs : List Char) : Prop where
  first : ∀ c ∈ cs.head?, isBlank c = false
  last : ∀ c ∈ cs.getLast?, isBlank c = false

theorem isSolid_trimChars (cs : List Char) : IsSolid (trimChars cs) := by
  refine ⟨fun c hc => ?_, getLast?_dropWhileEnd _ _⟩
  -- what is dropped at the end leaves the first character alone
  obtain ⟨back, hback, -⟩ := exists_append_dropWhileEnd isBlank (cs.dropWhile isBlank)
  refine head?_dropWhile_stop isBlank cs c ?_
  rw [hback]
  exact List.mem_head?_append_of_mem_head? hc

/-- A text is its trimmed part with blanks around it. -/
theorem exists_blanks (cs : List Char) :
    ∃ front back, cs = front ++ (trimChars cs ++ back) ∧ (∀ c ∈ front, isBlank c = true) ∧
      ∀ c ∈ back, isBlank c = true := by
  obtain ⟨back, hback, hblank⟩ := exists_append_dropWhileEnd isBlank (cs.dropWhile isBlank)
  refine ⟨cs.takeWhile isBlank, back, ?_, fun c hc => List.mem_takeWhile_imp hc, hblank⟩
  rw [trimChars, ← hback, List.takeWhile_append_dropWhile]

/-- A blank at the end of a text does not matter. -/
theorem trimChars_concat {c : Char} (hc : isBlank c = true) (cs : List Char) :
    trimChars (cs ++ [c]) = trimChars cs := by
  rw [trimChars, trimChars, List.dropWhile_append]
  split
  · next hempty =>
    rw [List.isEmpty_iff.mp hempty, List.dropWhile_cons_of_pos hc, List.dropWhile_nil]
  · rw [dropWhileEnd_eq, dropWhileEnd_eq, List.rdropWhile_concat_pos isBlank _ _ hc]

end Text

end SignalLab
