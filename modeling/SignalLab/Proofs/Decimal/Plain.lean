import SignalLab.Decimal.Plain
import SignalLab.Proofs.Decimal.Nearest
import SignalLab.Proofs.Decimal.Shortest

/-!
# Plain texts read back

The plain text of a number is read as the number (`readFloat_plain`). It writes the shortest decimal
that lies in the interval of the number, digit for digit, and every decimal in the interval is read as
the number.
-/

namespace SignalLab.Decimal

open Floating
open Float.Model

/-! ## Digits -/

theorem ofDigits_append (ds ds' : List Char) :
    ofDigits (ds ++ ds') = ds'.foldl (fun n d => 10 * n + digitValue d) (ofDigits ds) := by
  rw [ofDigits, ofDigits, List.foldl_append]

/-- Zeros in front change nothing. -/
theorem ofDigits_zeros_append (n : ℕ) (ds : List Char) :
    ofDigits (List.replicate n '0' ++ ds) = ofDigits ds := by
  induction n with
  | zero => rfl
  | succ n ih =>
    rw [List.replicate_succ, List.cons_append]
    exact ih

/-- A zero behind multiplies by ten. -/
theorem ofDigits_append_zeros (ds : List Char) (n : ℕ) :
    ofDigits (ds ++ List.replicate n '0') = ofDigits ds * 10 ^ n := by
  induction n with
  | zero => simp
  | succ n ih =>
    rw [List.replicate_succ', ← List.append_assoc, ofDigits_append, ih]
    change 10 * (ofDigits ds * 10 ^ n) + 0 = _
    ring

theorem toList_toString (n : ℕ) : (toString n).toList = Nat.toDigits 10 n := Nat.toList_repr

theorem toList_zeros (n : ℕ) : (zeros n).toList = List.replicate n '0' := String.toList_ofList

theorem isDigit_toDigits {n : ℕ} : ∀ c ∈ Nat.toDigits 10 n, c.isDigit = true := fun c hc =>
  Nat.isDigit_of_mem_toDigits (by decide) (by decide) hc

theorem isDigit_replicate {n : ℕ} : ∀ c ∈ List.replicate n '0', c.isDigit = true := by
  intro c hc
  rw [List.eq_of_mem_replicate hc]
  rfl

/-! ## Texts of digits -/

/-- A text of digits with at most one point among them, and the number that it writes. -/
inductive Writes : List Char → ℚ → Prop
  | whole {ds : List Char} (hne : ds ≠ []) (hdigits : ∀ c ∈ ds, c.isDigit = true) :
    Writes ds (ofDigits ds)
  | point {ds fraction : List Char} (hne : ds ≠ []) (hdigits : ∀ c ∈ ds, c.isDigit = true)
    (hfraction : ∀ c ∈ fraction, c.isDigit = true) :
    Writes (ds ++ '.' :: fraction) (ofDigits (ds ++ fraction) * 10 ^ (-(fraction.length : ℤ)))

namespace Writes

variable {cs : List Char} {y : ℚ}

/-- The number is read from the text. -/
theorem readMagnitude? (h : Writes cs y) :
    ∃ m e, Decimal.readMagnitude? cs = some (nearest m e) ∧ (m : ℚ) * 10 ^ e = y := by
  cases h with
  | whole hne hdigits =>
    refine ⟨ofDigits cs, 0, ?_, by rw [zpow_zero, mul_one]⟩
    have hread := readMagnitude?_noPoint hdigits (by simp : ∀ c ∈ [].head?, isExponentMark c = true)
    rw [List.append_nil, if_neg (by simpa using hne)] at hread
    exact hread
  | @point ds fraction hne hdigits hfraction =>
    refine ⟨ofDigits (ds ++ fraction), -(fraction.length : ℤ), ?_, rfl⟩
    have hread := readMagnitude?_point hdigits hfraction (by simp : ∀ c ∈ [].head?, Char.isDigit c = false)
    rw [List.append_nil, if_neg (by simp [hne])] at hread
    rw [hread]
    change some (nearest _ (0 - _)) = _
    rw [zero_sub]

theorem isDigit_or_eq (h : Writes cs y) : ∀ c ∈ cs, c.isDigit = true ∨ c = '.' := by
  intro c hc
  cases h with
  | whole _ hdigits => exact .inl (hdigits c hc)
  | point _ hdigits hfraction =>
    rcases List.mem_append.mp hc with hc | hc
    · exact .inl (hdigits c hc)
    · rcases List.mem_cons.mp hc with rfl | hc
      · exact .inr rfl
      · exact .inl (hfraction c hc)

/-- The text begins with a digit. -/
theorem exists_cons (h : Writes cs y) : ∃ c rest, cs = c :: rest ∧ c.isDigit = true := by
  cases h with
  | whole hne hdigits =>
    obtain ⟨c, rest, rfl⟩ := List.exists_cons_of_ne_nil hne
    exact ⟨c, rest, rfl, hdigits c List.mem_cons_self⟩
  | point hne hdigits _ =>
    obtain ⟨c, rest, rfl⟩ := List.exists_cons_of_ne_nil hne
    exact ⟨c, _, rfl, hdigits c List.mem_cons_self⟩

end Writes

/-- A decimal with places is padded with zeros until a digit stands in front of the point. -/
theorem writes_withPlaces (digits : ℕ) {places : ℕ} (hplaces : 0 < places) :
    Writes (withPlaces digits places).toList (digits * 10 ^ (-(places : ℤ))) := by
  generalize hfull : List.replicate (places + 1 - (Nat.toDigits 10 digits).length) '0' ++
    Nat.toDigits 10 digits = full
  have hpadded : (zeros (places + 1 - (toString digits).length) ++ toString digits).toList = full := by
    rw [String.toList_append, toList_zeros, toList_toString, ← String.length_toList,
      toList_toString, hfull]
  have hlength : places < full.length := by
    rw [← hfull, List.length_append, List.length_replicate]
    omega
  have hdigits : ∀ c ∈ full, c.isDigit = true := by
    rw [← hfull]
    exact List.forall_mem_append.mpr ⟨isDigit_replicate, isDigit_toDigits⟩
  have hwhole : full.take (full.length - places) ≠ [] := by
    rw [← List.length_pos_iff, List.length_take]
    omega
  have hfraction : (full.drop (full.length - places)).length = places := by
    rw [List.length_drop]
    omega
  have htext : (withPlaces digits places).toList =
      full.take (full.length - places) ++ '.' :: full.drop (full.length - places) := by
    have hne : (full.drop (full.length - places)).isEmpty = false := by
      rw [List.isEmpty_eq_false_iff, ← List.length_pos_iff, hfraction]
      exact hplaces
    rw [withPlaces]
    simp only [hpadded, ← String.length_toList (s := _ ++ _), hne]
    rw [if_neg (by decide)]
    simp only [String.toList_append, String.toList_ofList, List.append_assoc]
    rfl
  have hfractionDigits : ∀ c ∈ full.drop (full.length - places), c.isDigit = true :=
    fun c hc => hdigits c (List.mem_of_mem_drop hc)
  have hwrites := Writes.point hwhole (fun c hc => hdigits c (List.mem_of_mem_take hc))
    hfractionDigits
  rw [List.take_append_drop, hfraction, ← hfull, ofDigits_zeros_append, ofDigits_toDigits, hfull,
    ← htext] at hwrites
  exact hwrites

/-- A decimal is written out in full. -/
theorem writes_plain (d : Scaled) : Writes d.plain.toList (d.digits * 10 ^ d.exponent) := by
  rw [Scaled.plain]
  by_cases hexponent : 0 ≤ d.exponent
  · obtain ⟨n, hn⟩ := Int.eq_ofNat_of_zero_le hexponent
    have hdigits : ∀ c ∈ Nat.toDigits 10 d.digits ++ List.replicate n '0', c.isDigit = true :=
      List.forall_mem_append.mpr ⟨isDigit_toDigits, isDigit_replicate⟩
    have hwrites := Writes.whole (by simp [Nat.toDigits_ne_nil]) hdigits
    rw [ofDigits_append_zeros, ofDigits_toDigits, Nat.cast_mul, Nat.cast_pow, Nat.cast_ofNat]
      at hwrites
    rw [if_pos hexponent, hn, String.toList_append, toList_toString, toList_zeros, Int.toNat_natCast,
      zpow_natCast]
    exact hwrites
  · obtain ⟨n, hn⟩ : ∃ n : ℕ, d.exponent = -n := ⟨(-d.exponent).toNat, by omega⟩
    rw [if_neg hexponent, hn, neg_neg, Int.toNat_natCast]
    exact writes_withPlaces d.digits (by omega)

/-- Besides digits a plain text has only a point, a sign and the letters of the names. -/
theorem mem_plain (x : Float) :
    ∀ c ∈ (plain x).toList, c.isDigit = true ∨ c ∈ ".-NaNinf".toList := by
  have hnan : nanText.toList ⊆ ".-NaNinf".toList := by decide
  have hinfinite (negative : Bool) : (infiniteText negative).toList ⊆ ".-NaNinf".toList := by
    cases negative <;> decide
  have hsign (negative : Bool) : (signText negative).toList ⊆ ".-NaNinf".toList := by
    cases negative <;> decide
  rw [plain]
  rcases Binary64.ofFloat x with _ | negative | ⟨negative, m, q⟩
  · exact fun c hc => .inr (hnan hc)
  · exact fun c hc => .inr (hinfinite negative hc)
  · rw [String.toList_append]
    refine List.forall_mem_append.mpr ⟨fun c hc => .inr (hsign negative hc), ?_⟩
    split_ifs
    · exact List.forall_mem_singleton.mpr (.inl rfl)
    · intro c hc
      rcases (writes_plain (shortest m q)).isDigit_or_eq c hc with hdigit | rfl
      · exact .inl hdigit
      · exact .inr (by decide)

/-! ## Signs -/

/-- A magnitude with a sign in front. -/
theorem readFloatChars_signText (negative : Bool) {c : Char} {rest : List Char} {x : Float}
    (hc : c.isDigit = true) (h : readMagnitude? (c :: rest) = some x) :
    readFloatChars ((signText negative).toList ++ c :: rest) = .ok (if negative then -x else x) := by
  cases negative
  · have hsign : splitSign (c :: rest) = (false, c :: rest) := by
      unfold splitSign
      split
      · next heq => cases heq; exact absurd hc (by decide)
      · next heq => cases heq; exact absurd hc (by decide)
      · rfl
    change readFloatChars (c :: rest) = _
    rw [readFloatChars, if_neg (by simp), hsign]
    dsimp only
    rw [h]
    rfl
  · change readFloatChars ('-' :: c :: rest) = _
    rw [readFloatChars, if_neg (by simp), splitSign]
    dsimp only
    rw [h]
    rfl

/-! ## Numbers -/

theorem parts_neg (x : Float) : parts (-x) = repack (parts x).neg := rfl

/-- The shortest decimal of a magnitude is read as the magnitude. -/
theorem parts_nearest_of_shortest {m : ℕ} {q : ℤ} (h : Canonical m q) (hq : q ≤ 971) (hm : 0 < m)
    {n : ℕ} {e : ℤ}
    (hvalue : (n : ℚ) * 10 ^ e = (shortest m q).digits * 10 ^ (shortest m q).exponent) :
    parts (nearest n e) = .finite .positive m q hm := by
  have hholds := holds_shortest h hq hm
  rw [← hvalue] at hholds
  have hn : 0 < n := by
    by_contra hzero
    have hleast := (range_of_holds h hq hm hholds).1
    rw [Nat.eq_zero_of_not_pos hzero, Nat.cast_zero, zero_mul] at hleast
    exact hleast.not_gt (by positivity)
  exact parts_nearest_of_holds h hq hm hn hholds

/-- **The plain text of a number is read as the number.** -/
theorem readFloat_plain (x : Float) : readFloat (plain x) = .ok x := by
  rw [plain, ofFloat_eq]
  rcases hx : parts x with s | _ | s | ⟨s, m, q, hm⟩
  · have hinfinite : x = if s == .negative then -(1.0 / 0.0) else 1.0 / 0.0 := by
      rw [← parts_inj, hx]
      cases s <;> rfl
    rw [hinfinite]
    cases s <;> rfl
  · have hnan : x = 0.0 / 0.0 := parts_inj.mp hx
    rw [hnan]
    rfl
  · have hzero : x = if s == .negative then -0.0 else 0.0 := by
      rw [← parts_inj, hx]
      cases s <;> rfl
    rw [hzero]
    cases s <;> rfl
  · have hcanonical := canonical_of_parts hx
    have hq := exponent_le_of_parts hx
    have hwrites := writes_plain (shortest m q)
    obtain ⟨n, e, hread, hvalue⟩ := hwrites.readMagnitude?
    obtain ⟨c, rest, htext, hdigit⟩ := hwrites.exists_cons
    have hnearest := parts_nearest_of_shortest hcanonical hq hm hvalue
    have hsign : (if s == .negative then -nearest n e else nearest n e) = x := by
      rw [← parts_inj, hx]
      cases s
      · rw [if_pos (by decide), parts_neg, hnearest]
        exact repack_of_canonical hcanonical hq .negative hm
      · exact hnearest
    rw [htext] at hread
    rw [meaningOf]
    dsimp only
    rw [readFloat, if_neg hm.ne', String.toList_append, htext,
      readFloatChars_signText _ hdigit hread, hsign]

/-- No two numbers have the same plain text; the zeros differ in their sign. -/
theorem plain_injective : Function.Injective plain := fun x y h => by
  have hread := readFloat_plain x
  rw [h, readFloat_plain] at hread
  exact (Except.ok.inj hread).symm

end SignalLab.Decimal
