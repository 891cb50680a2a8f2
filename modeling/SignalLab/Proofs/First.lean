import Mathlib.Data.List.Basic

/-!
# The first fault in a list

A checker that goes through a list and stops at the first fault answers with that fault, and
succeeds if there is none. `First` and `Clean` say what the faults of a list are without the
checker, and `Fits` that an answer is right about them.
-/

namespace SignalLab

variable {α β γ δ : Type} {bad : α → β → Prop} {xs ys : List α} {b b' : β} {x : α}

/-- Nothing is wrong with any element. -/
def Clean (bad : α → β → Prop) (xs : List α) : Prop := ∀ x ∈ xs, ∀ b, ¬ bad x b

/-- Something is wrong with an element, and nothing with those before it. -/
def First (bad : α → β → Prop) (xs : List α) (b : β) : Prop :=
  ∃ before x after, xs = before ++ x :: after ∧ Clean bad before ∧ bad x b

theorem Clean.nil : Clean bad [] := nofun

theorem clean_singleton_iff : Clean bad [x] ↔ ∀ b, ¬ bad x b := by
  simp [Clean]

theorem Clean.cons (h : ∀ b, ¬ bad x b) (hxs : Clean bad xs) : Clean bad (x :: xs) :=
  List.forall_mem_cons.mpr ⟨h, hxs⟩

theorem clean_append_iff : Clean bad (xs ++ ys) ↔ Clean bad xs ∧ Clean bad ys := by
  simp [Clean, or_imp, forall_and]

theorem First.here (h : bad x b) (xs : List α) : First bad (x :: xs) b :=
  ⟨[], x, xs, rfl, Clean.nil, h⟩

/-- What comes behind a fault does not matter. -/
theorem First.append (h : First bad xs b) (ys : List α) : First bad (xs ++ ys) b := by
  obtain ⟨before, x, after, rfl, hclean, hbad⟩ := h
  exact ⟨before, x, after ++ ys, by simp, hclean, hbad⟩

/-- A fault behind elements with which nothing is wrong is still the first. -/
theorem First.behind (h : First bad ys b) (hclean : Clean bad xs) : First bad (xs ++ ys) b := by
  obtain ⟨before, x, after, rfl, hbefore, hbad⟩ := h
  exact ⟨xs ++ before, x, after, by simp, clean_append_iff.mpr ⟨hclean, hbefore⟩, hbad⟩

theorem First.not_clean (h : First bad xs b) : ¬ Clean bad xs := by
  obtain ⟨before, x, after, rfl, -, hbad⟩ := h
  exact fun hclean => hclean x (by simp) b hbad

theorem first_nil_iff : First bad [] b ↔ False := by
  simp [First]

theorem first_cons_iff : First bad (x :: xs) b ↔ bad x b ∨ Clean bad [x] ∧ First bad xs b := by
  constructor
  · rintro ⟨before, y, after, hsplit, hclean, hbad⟩
    rcases before with _ | ⟨first, before⟩ <;> cases hsplit
    · exact .inl hbad
    · obtain ⟨hx, hbefore⟩ := clean_append_iff.mp (show Clean bad ([x] ++ before) from hclean)
      exact .inr ⟨hx, before, y, after, rfl, hbefore, hbad⟩
  · rintro (hbad | ⟨hx, hfirst⟩)
    · exact First.here hbad xs
    · exact hfirst.behind hx

/-- Where something is wrong there is a first fault. -/
theorem clean_iff : Clean bad xs ↔ ∀ b, ¬ First bad xs b := by
  refine ⟨fun hclean b hfirst => hfirst.not_clean hclean, fun h => ?_⟩
  induction xs with
  | nil => exact Clean.nil
  | cons x xs ih =>
    have hx : Clean bad [x] := clean_singleton_iff.mpr fun b hbad => h b (First.here hbad xs)
    exact clean_append_iff.mpr ⟨hx, ih fun b hfirst => h b (hfirst.behind hx)⟩

/-- If only one thing can be wrong with an element, a list has one first fault. -/
theorem First.unique (h : First bad xs b) (h' : First bad xs b')
    (hunique : ∀ x b b', bad x b → bad x b' → b = b') : b = b' := by
  obtain ⟨before, x, after, rfl, hbefore, hbad⟩ := h
  obtain ⟨before', x', after', hsplit, hbefore', hbad'⟩ := h'
  -- one of the two places lies before the other, where nothing is wrong, or they are the same
  rcases List.append_eq_append_iff.mp hsplit with ⟨more, rfl, hmore⟩ | ⟨more, rfl, hmore⟩
  · rcases more with _ | ⟨next, more⟩ <;> cases hmore
    · exact hunique _ _ _ hbad hbad'
    · exact absurd hbad (hbefore' x (by simp) b)
  · rcases more with _ | ⟨next, more⟩ <;> cases hmore
    · exact hunique _ _ _ hbad hbad'
    · exact absurd hbad' (hbefore x' (by simp) b')

/-- An answer fits a list: it is the first fault, or there is none. -/
def Fits (bad : α → β → Prop) (xs : List α) : Except β γ → Prop
  | .ok _ => Clean bad xs
  | .error b => First bad xs b

/-- Nothing changes about an answer by elements in front with which nothing is wrong. -/
theorem Fits.behind {answer : Except β γ} (h : Fits bad ys answer) (hclean : Clean bad xs) :
    Fits bad (xs ++ ys) answer := by
  rcases answer with b | c
  · exact First.behind h hclean
  · exact clean_append_iff.mpr ⟨hclean, h⟩

/-- One checker behind another fits what both go through. -/
theorem Fits.bind {answer : Except β γ} {f : γ → Except β δ} (h : Fits bad xs answer)
    (hf : ∀ c, answer = .ok c → Fits bad ys (f c)) : Fits bad (xs ++ ys) (answer >>= f) := by
  rcases answer with b | c
  · exact First.append h ys
  · exact (hf c rfl).behind h

/-- What two steps come to, if they come to anything. -/
theorem bind_eq_ok_iff {answer : Except β γ} {f : γ → Except β δ} {d : δ} :
    answer >>= f = .ok d ↔ ∃ c, answer = .ok c ∧ f c = .ok d := by
  rcases answer with b | c
  · constructor
    · rintro ⟨⟩
    · rintro ⟨c, ⟨⟩, -⟩
  · exact ⟨fun h => ⟨c, rfl, h⟩, fun ⟨_, hc, h⟩ => by cases hc; exact h⟩

/-- A failure says what the first fault is. -/
theorem Fits.error_iff {answer : Except β γ} (h : Fits bad xs answer)
    (hunique : ∀ x b b', bad x b → bad x b' → b = b') :
    answer = .error b ↔ First bad xs b := by
  rcases answer with b' | c
  · constructor
    · rintro ⟨⟩
      exact h
    · intro hb
      rw [First.unique h hb hunique]
  · constructor
    · rintro ⟨⟩
    · intro hb
      exact absurd h hb.not_clean

/-- A success says that there is no fault. -/
theorem Fits.ok_iff {answer : Except β γ} (h : Fits bad xs answer) :
    (∃ c, answer = .ok c) ↔ Clean bad xs := by
  rcases answer with b | c
  · constructor
    · rintro ⟨c, ⟨⟩⟩
    · intro hclean
      exact absurd hclean (First.not_clean h)
  · exact ⟨fun _ => h, fun _ => ⟨c, rfl⟩⟩

end SignalLab
