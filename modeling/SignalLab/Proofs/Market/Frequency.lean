import Mathlib.Tactic.FieldSimp
import Mathlib.Tactic.NormNum
import SignalLab.Frequency
import SignalLab.Proofs.Decimal.Digits
import SignalLab.Proofs.Decimal.Plain
import SignalLab.Proofs.Number.Exact
import SignalLab.Proofs.Token.Piece

/-!
# How frequencies are written, and how long they last

A text writes a frequency if it is digits and the letters of a unit and nothing else, and its number
is not zero and fits a word (`ofText_eq_ok_iff`). The frequency is written again without zeros in
front, and read back from there.

The letters `m` and `mo` begin alike. No letters begin with a digit, so the text falls into digits and
letters in one way, and the letters are compared as a whole.

A step in any unit but the month has a length. Even the longest one, of 2^32 - 1 weeks, can be told.
-/

namespace SignalLab

/-! ## Units -/

namespace TimeUnit

/-- How many seconds a unit lasts. Months are not all of one length. -/
inductive Lasts : TimeUnit → ℕ → Prop
  | second : Lasts .seconds 1
  | minute : Lasts .minutes 60
  | hour : Lasts .hours (60 * 60)
  | day : Lasts .days (24 * 60 * 60)
  | week : Lasts .weeks (7 * 24 * 60 * 60)

variable {unit : TimeUnit} {letters : String} {seconds : ℕ}

/-- The letters that are read as a unit are those that the unit is written with. -/
theorem ofLetters?_eq_some_iff : ofLetters? letters = some unit ↔ letters = unit.letters := by
  constructor
  · intro h
    unfold ofLetters? at h
    split at h <;> cases h <;> rfl
  · rintro rfl
    cases unit <;> rfl

theorem mem_letters_iff :
    letters ∈ ["s", "m", "h", "d", "w", "mo"] ↔ ∃ unit : TimeUnit, letters = unit.letters := by
  constructor
  · intro h
    fin_cases h
    exacts [⟨.seconds, rfl⟩, ⟨.minutes, rfl⟩, ⟨.hours, rfl⟩, ⟨.days, rfl⟩, ⟨.weeks, rfl⟩,
      ⟨.months, rfl⟩]
  · rintro ⟨unit, rfl⟩
    cases unit <;> decide

theorem not_isDigit_letters (unit : TimeUnit) :
    ∀ c ∈ unit.letters.toList, c.isDigit = false := by
  cases unit <;> simp [letters]

theorem Lasts.seconds? (h : unit.Lasts seconds) : unit.seconds? = some seconds := by
  cases h <;> rfl

/-- A unit lasts for a second or more, and for a week at most. -/
theorem Lasts.bounds (h : unit.Lasts seconds) : 0 < seconds ∧ seconds ≤ 604800 := by
  cases h <;> decide

end TimeUnit

/-! ## Texts -/

namespace Frequency

variable {s : String} {f : Frequency} {digits : List Char} {seconds : ℕ}

/-- A text that writes a frequency: one digit or more, the number of which is from 1 to 2^32 - 1, and
behind them the letters of a unit and nothing else. -/
def IsText (s : String) : Prop :=
  ∃ digits letters, s = String.ofList digits ++ letters ∧
    digits ≠ [] ∧ (∀ c ∈ digits, c.isDigit = true) ∧
    1 ≤ Decimal.ofDigits digits ∧ Decimal.ofDigits digits ≤ 2 ^ 32 - 1 ∧
    letters ∈ ["s", "m", "h", "d", "w", "mo"]

/-- The digits with which a text writes a frequency. -/
structure WrittenWith (digits : List Char) (s : String) (f : Frequency) : Prop where
  text : s = String.ofList digits ++ f.unit.letters
  isDigit : ∀ c ∈ digits, c.isDigit = true
  amount : Decimal.ofDigits digits = f.amount.toNat
  positive : 1 ≤ f.amount.toNat

theorem WrittenWith.ne_nil (h : WrittenWith digits s f) : digits ≠ [] := by
  rintro rfl
  have hzero : 0 = f.amount.toNat := h.amount
  have hpositive := h.positive
  omega

theorem exists_writtenWith_iff : (∃ f digits, WrittenWith digits s f) ↔ IsText s := by
  constructor
  · rintro ⟨f, digits, h⟩
    have hword := f.amount.toNat_lt
    refine ⟨digits, f.unit.letters, h.text, h.ne_nil, h.isDigit, ?_, ?_,
      TimeUnit.mem_letters_iff.mpr ⟨f.unit, rfl⟩⟩
    · rw [h.amount]
      exact h.positive
    · rw [h.amount]
      omega
  · rintro ⟨digits, letters, hs, -, hdigits, hpositive, hword, hletters⟩
    obtain ⟨unit, rfl⟩ := TimeUnit.mem_letters_iff.mp hletters
    have hamount : (Decimal.ofDigits digits).toUInt32.toNat = Decimal.ofDigits digits := by
      rw [Nat.toUInt32, UInt32.toNat_ofNat']
      exact Nat.mod_eq_of_lt (by omega)
    exact ⟨⟨(Decimal.ofDigits digits).toUInt32, unit⟩, digits, hs, hdigits, hamount.symm,
      hpositive.trans_eq hamount.symm⟩

/-- The text splits in front of the letters. -/
theorem WrittenWith.split (h : WrittenWith digits s f) :
    s.toList.takeWhile Char.isDigit = digits ∧
      s.toList.dropWhile Char.isDigit = f.unit.letters.toList := by
  have hletters : ∀ c ∈ f.unit.letters.toList.head?, c.isDigit = false := fun c hc =>
    f.unit.not_isDigit_letters c (List.mem_of_mem_head? hc)
  have htake : s.toList.takeWhile Char.isDigit = digits := by
    rw [h.text, String.toList_append, String.toList_ofList]
    exact takeWhile_append_stop h.isDigit hletters
  have hrest : digits ++ s.toList.dropWhile Char.isDigit = digits ++ f.unit.letters.toList :=
    calc digits ++ s.toList.dropWhile Char.isDigit = s.toList := by
          rw [← htake, List.takeWhile_append_dropWhile]
      _ = digits ++ f.unit.letters.toList := by
          rw [h.text, String.toList_append, String.toList_ofList]
  exact ⟨htake, List.append_cancel_left hrest⟩

/-- **A text is read as the frequency that it writes**, and no other text is read. -/
theorem ofText_eq_ok_iff : ofText s = .ok f ↔ ∃ digits, WrittenWith digits s f := by
  have hdigits : ∀ c ∈ s.toList.takeWhile Char.isDigit, c.isDigit = true :=
    fun c hc => List.mem_takeWhile_imp hc
  constructor
  · intro h
    rw [ofText] at h
    split at h
    · cases h
    · split at h
      · cases h
      · cases h
      · next amount hne hread =>
        obtain ⟨hamount, hword⟩ := (Decimal.readDigits_eq_ok_iff _ hdigits).mp hread
        split at h
        · cases h
        · next unit hunit =>
          cases h
          have hfits : amount.toUInt32.toNat = amount := by
            rw [Nat.toUInt32, UInt32.toNat_ofNat']
            exact Nat.mod_eq_of_lt (by simp only [UInt32.size] at hword; omega)
          refine ⟨_, ?_, hdigits, hamount.trans hfits.symm, ?_⟩
          · rw [← TimeUnit.ofLetters?_eq_some_iff.mp hunit, ← String.ofList_append,
              List.takeWhile_append_dropWhile, String.ofList_toList]
          · exact (Nat.pos_of_ne_zero hne).trans_eq hfits.symm
  · rintro ⟨digits, h⟩
    obtain ⟨htake, hdrop⟩ := h.split
    have hread : Decimal.readDigits (UInt32.size - 1) .tooLarge 0 digits = .ok f.amount.toNat :=
      (Decimal.readDigits_eq_ok_iff _ h.isDigit).mpr ⟨h.amount, Nat.le_pred_of_lt f.amount.toNat_lt⟩
    rw [ofText, htake, hdrop, String.ofList_toList, if_neg (by simpa using h.ne_nil), hread]
    split
    · next heq => cases heq
    · next heq =>
      have hpositive := h.positive
      rw [Except.ok.injEq] at heq
      omega
    · next amount _ heq =>
      cases heq
      rw [TimeUnit.ofLetters?_eq_some_iff.mpr rfl]
      simp

/-- The frequency is written without zeros in front. -/
theorem WrittenWith.text_eq (h : WrittenWith digits s f) :
    f.text = String.ofList (s.toList.dropWhile (· == '0')) := by
  have hpos : 0 < Decimal.ofDigits digits := h.positive.trans_eq h.amount.symm
  have hown := Decimal.toDigits_ofDigits h.isDigit hpos
  -- the zeros end within the digits, because the number is not zero
  have hne : (digits.dropWhile (· == '0')).isEmpty = false := by
    rw [← hown, List.isEmpty_eq_false_iff]
    exact Nat.toDigits_ne_nil
  refine String.toList_inj.mp ?_
  rw [Frequency.text, String.toList_ofList, String.toList_append, Decimal.toList_toString, ← h.amount, hown,
    h.text, String.toList_append, String.toList_ofList, List.dropWhile_append, hne]
  rfl

/-- What is written for a frequency writes it. -/
theorem writtenWith_text (h : 1 ≤ f.amount.toNat) :
    WrittenWith (Nat.toDigits 10 f.amount.toNat) f.text f where
  text := by rw [Frequency.text, Nat.toString_eq_ofList_toDigits]
  isDigit := Decimal.isDigit_toDigits
  amount := Decimal.ofDigits_toDigits _
  positive := h

/-! ## Lengths -/

/-- A word of units can be told as a length of time. -/
theorem lengthOf?_amount (h : f.unit.Lasts seconds) :
    lengthOf? f.amount.toNat seconds = some (f.amount.toNat * seconds) := by
  have hword : f.amount.toNat ≤ 2 ^ 32 := f.amount.toNat_lt.le
  rw [lengthOf?, if_pos]
  calc f.amount.toNat * seconds ≤ 2 ^ 32 * 604800 := Nat.mul_le_mul hword h.bounds.2
    _ ≤ longestLength := by decide

theorem period?_of_lasts (h : f.unit.Lasts seconds) :
    f.period? = some (f.amount.toNat * seconds) := by
  rw [← lengthOf?_amount h, period?]
  rcases f with ⟨amount, unit⟩
  cases h <;> rfl

theorem period?_eq_none_iff : f.period? = none ↔ f.unit = .months := by
  constructor
  · intro hnone
    rcases hunit : f.unit with _ | _ | _ | _ | _ | _
    case months => rfl
    all_goals
      have hsome := period?_of_lasts (f := f) (by rw [hunit]; constructor)
      rw [hnone] at hsome
      cases hsome
  · intro hunit
    rw [period?, hunit]

/-- As many steps as a year has take a year. -/
theorem periodsPerYear_mul {α : Type} [ExactNumber α] (hamount : 1 ≤ f.amount.toNat)
    (h : f.unit.Lasts seconds) :
    (f.periodsPerYear : α) * (f.amount.toNat * seconds : ℕ) = 365.25 * (24 * 60 * 60) := by
  have hamount' : (f.amount.toNat : α) ≠ 0 := by
    rw [Nat.cast_ne_zero]
    omega
  have hseconds : (seconds : α) ≠ 0 := by
    rw [Nat.cast_ne_zero]
    exact h.bounds.1.ne'
  rw [periodsPerYear, h.seconds?]
  simp only [Number.ofCount_eq, secondsPerYear]
  rw [Nat.cast_mul, div_mul_cancel₀ _ (mul_ne_zero hamount' hseconds)]
  norm_num

/-- **Frequencies are read back from their texts, and their lengths agree.** A text is read exactly if
it is digits that write a number from 1 to 2^32 - 1 and the letters of a unit, and what is read is
written as the text without zeros in front. A frequency with an amount is read from its text. It has
no length exactly in months; in any other unit its length is its amount times that of the unit, which
is not too long to be told, and a year of its steps takes 365.25 days. -/
theorem ofText_text_and_period? :
    (∀ s : String, ((∃ f, ofText s = .ok f) ↔ IsText s) ∧
      ∀ f, ofText s = .ok f → f.text = String.ofList (s.toList.dropWhile (· == '0'))) ∧
    ∀ f : Frequency, 1 ≤ f.amount.toNat →
      ofText f.text = .ok f ∧ (f.period? = none ↔ f.unit = .months) ∧
        ∀ seconds, f.unit.Lasts seconds →
          f.amount.toNat * seconds ≤ longestLength ∧
          f.period? = some (f.amount.toNat * seconds) ∧
          ∀ (α : Type) [ExactNumber α],
            (f.periodsPerYear : α) * (f.amount.toNat * seconds : ℕ) = 365.25 * (24 * 60 * 60) := by
  refine ⟨fun s => ⟨?_, fun f hf => ?_⟩, fun f hamount => ⟨?_, period?_eq_none_iff, ?_⟩⟩
  · simp only [ofText_eq_ok_iff]
    exact exists_writtenWith_iff
  · obtain ⟨digits, hdigits⟩ := ofText_eq_ok_iff.mp hf
    exact hdigits.text_eq
  · exact ofText_eq_ok_iff.mpr ⟨_, writtenWith_text hamount⟩
  · intro seconds hseconds
    refine ⟨?_, period?_of_lasts hseconds, fun α _ => periodsPerYear_mul hamount hseconds⟩
    by_contra htoo
    have hlength := lengthOf?_amount hseconds
    rw [lengthOf?, if_neg htoo] at hlength
    cases hlength

/-- The longest step there is, and a text with zeros in front and two letters. -/
theorem ofText_text_and_period?_longest :
    (let f : Frequency := ⟨4294967295, .weeks⟩
     1 ≤ f.amount.toNat ∧ ofText f.text = .ok f ∧
      f.period? = some (4294967295 * (7 * 24 * 60 * 60)) ∧
      (f.periodsPerYear : ℚ) * (4294967295 * (7 * 24 * 60 * 60) : ℕ) = 365.25 * (24 * 60 * 60)) ∧
    ofText "007mo" = .ok ⟨7, .months⟩ ∧
      text ⟨7, .months⟩ = String.ofList ("007mo".toList.dropWhile (· == '0')) := by
  have hread : ofText "007mo" = .ok ⟨7, .months⟩ := by decide +kernel
  obtain ⟨htext, -, hlasts⟩ := ofText_text_and_period?.2 ⟨4294967295, .weeks⟩ (by decide)
  obtain ⟨-, hperiod, hyear⟩ := hlasts _ .week
  exact ⟨⟨by decide, htext, hperiod, hyear ℚ⟩, hread,
    (ofText_text_and_period?.1 "007mo").2 _ hread⟩

end Frequency

end SignalLab
