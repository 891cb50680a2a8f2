import SignalLab.Proofs.Number.Whole

/-!
# Numbers and their digits

A list of digits is the number's own digits with zeros in front of them, if any
(`toDigits_ofDigits`). A reader with a limit reads the number that the digits write exactly if that
lies within the limit (`readDigits_eq_ok_iff`): reading on never makes a number smaller, so a reader
that has passed the limit does not come back.
-/

namespace SignalLab.Decimal

variable {c : Char} {ds : List Char} {n limit r : ℕ}

/-! ## One digit -/

theorem digitValue_bounds (h : c.isDigit = true) :
    digitValue c < 10 ∧ c.toNat = digitValue c + 48 := by
  have hbounds : 48 ≤ c.toNat ∧ c.toNat ≤ 57 := Char.isDigit_iff_toNat.mp h
  have hvalue : digitValue c = c.toNat - 48 := rfl
  omega

theorem toDigits_digitValue (h : c.isDigit = true) : Nat.toDigits 10 (digitValue c) = [c] := by
  obtain ⟨hlt, hchar⟩ := digitValue_bounds h
  rw [Nat.toDigits_of_lt_base hlt, List.singleton_inj, ← Char.toNat_inj,
    Nat.toNat_digitChar_of_lt_ten hlt, hchar, Nat.add_comm]

/-- Zero is the one digit without a value. -/
theorem digitValue_pos (h : c.isDigit = true) (hne : c ≠ '0') : 0 < digitValue c := by
  refine Nat.pos_of_ne_zero fun hzero => hne ?_
  have hdigits := toDigits_digitValue h
  rw [hzero, Nat.toDigits_zero, List.singleton_inj] at hdigits
  exact hdigits.symm

/-! ## All digits of a number -/

/-- Digits that are read behind a number stand behind its own digits. -/
theorem toDigits_foldl (hn : 0 < n) (h : ∀ c ∈ ds, c.isDigit = true) :
    Nat.toDigits 10 (ds.foldl (fun n d => 10 * n + digitValue d) n) = Nat.toDigits 10 n ++ ds := by
  induction ds generalizing n with
  | nil => rw [List.foldl_nil, List.append_nil]
  | cons c ds ih =>
    rw [List.forall_mem_cons] at h
    calc Nat.toDigits 10 (ds.foldl _ (10 * n + digitValue c))
        = Nat.toDigits 10 (10 * n + digitValue c) ++ ds := ih (by omega) h.2
      _ = (Nat.toDigits 10 n ++ Nat.toDigits 10 (digitValue c)) ++ ds := by
        rw [Nat.toDigits_append_toDigits (by decide) hn (digitValue_bounds h.1).1]
      _ = Nat.toDigits 10 n ++ c :: ds := by
        rw [toDigits_digitValue h.1, List.append_assoc, List.singleton_append]

/-- **The digits of the number that digits write** are these digits without zeros in front. -/
theorem toDigits_ofDigits (h : ∀ c ∈ ds, c.isDigit = true) (hpos : 0 < ofDigits ds) :
    Nat.toDigits 10 (ofDigits ds) = ds.dropWhile (· == '0') := by
  induction ds with
  | nil => exact absurd hpos (Nat.lt_irrefl 0)
  | cons c ds ih =>
    rw [List.forall_mem_cons] at h
    by_cases hzero : c = '0'
    · subst hzero
      rw [List.dropWhile_cons_of_pos (by rfl)]
      exact ih h.2 hpos
    · rw [List.dropWhile_cons_of_neg (by simpa using hzero)]
      -- from its first digit on the number is not zero
      have hfirst := toDigits_foldl (digitValue_pos h.1 hzero) h.2
      rw [toDigits_digitValue h.1] at hfirst
      rw [ofDigits, List.foldl_cons, Nat.mul_zero, Nat.zero_add]
      exact hfirst

/-! ## Reading within a limit -/

theorem le_foldl_digits (n : ℕ) (ds : List Char) :
    n ≤ ds.foldl (fun n d => 10 * n + digitValue d) n := by
  induction ds generalizing n with
  | nil => exact Nat.le_refl n
  | cons c ds ih => exact Nat.le_trans (by omega) (ih (10 * n + digitValue c))

/-- Behind a number within the limit. -/
theorem readDigits_behind (overflow : WholeFault) (h : ∀ c ∈ ds, c.isDigit = true)
    (hn : n ≤ limit) : readDigits limit overflow n ds = .ok r ↔
      ds.foldl (fun n d => 10 * n + digitValue d) n = r ∧ r ≤ limit := by
  induction ds generalizing n with
  | nil =>
    rw [readDigits, List.foldl_nil, Except.ok.injEq]
    exact ⟨fun hr => ⟨hr, hr ▸ hn⟩, And.left⟩
  | cons c ds ih =>
    rw [List.forall_mem_cons] at h
    rw [readDigits, if_pos h.1]
    dsimp only
    split
    · next hover =>
      refine ⟨nofun, ?_⟩
      rintro ⟨rfl, hle⟩
      exact absurd ((le_foldl_digits _ ds).trans hle) (Nat.not_le.mpr hover)
    · next hwithin => exact ih h.2 (Nat.not_lt.mp hwithin)

/-- **Digits are read as the number that they write**, if it lies within the limit. -/
theorem readDigits_eq_ok_iff (overflow : WholeFault) (h : ∀ c ∈ ds, c.isDigit = true) :
    readDigits limit overflow 0 ds = .ok r ↔ ofDigits ds = r ∧ r ≤ limit :=
  readDigits_behind overflow h (Nat.zero_le limit)

end SignalLab.Decimal
