import SignalLab.Proofs.Number.Canonical
import SignalLab.Proofs.Series.Window
import SignalLab.Proofs.Token.Passing

/-!
# Whole numbers in programs

A whole number comes into a program as a text of digits and goes out of it as the length of a window.
In between it is a floating-point number, and nothing is lost on the way: the digits are read as the
number (`Token.scan_repr`), and the number asks for the window that the digits tell
(`windowLength_ofNat`).

Window lengths are told from the bits of a number. These are taken apart by `Binary64.ofFloat` and,
for the arithmetic, into the parts of a number; the two agree (`Floating.ofFloat_eq`).
-/

namespace SignalLab

/-! ## Bits and parts -/

namespace Floating

open Float.Model
open Float.Model.UnpackedFloat

/-- What the parts of a number say of it. -/
def meaningOf : UnpackedFloat → Binary64
  | .notANumber => .nan
  | .infinity s => .infinite (s == .negative)
  | .zero s => .finite (s == .negative) 0 (-1074)
  | .finite s m e _ => .finite (s == .negative) m e

theorem toNat_unpackExponent (bits : UInt64) :
    (@unpackExponent .binary64 bits.toBitVec).toNat = (bits >>> 52 &&& 0x7ff).toNat := by
  have hmask : (0x7ff : UInt64).toNat = 2 ^ 11 - 1 := rfl
  rw [UInt64.toNat_and, UInt64.toNat_shiftRight, hmask, Nat.and_two_pow_sub_one_eq_mod,
    unpackExponent, BitVec.toNat_cast, BitVec.extractLsb_toNat]
  rfl

theorem toNat_unpackMantissa (bits : UInt64) :
    (@unpackMantissa .binary64 bits.toBitVec).toNat = (bits &&& 0xfffffffffffff).toNat := by
  have hmask : (0xfffffffffffff : UInt64).toNat = 2 ^ 52 - 1 := rfl
  rw [UInt64.toNat_and, hmask, Nat.and_two_pow_sub_one_eq_mod, unpackMantissa, BitVec.toNat_cast,
    BitVec.extractLsb_toNat]
  rfl

theorem toNat_unpackSign (bits : UInt64) :
    (@unpackSign .binary64 bits.toBitVec).toNat = (bits >>> 63).toNat := by
  have hbits := bits.toNat_lt
  rw [UInt64.toNat_shiftRight, unpackSign, BitVec.toNat_cast, BitVec.extractLsb_toNat]
  change (bits.toNat >>> 63) % 2 ^ 1 = bits.toNat >>> 63
  omega

/-- The top bit is the sign. -/
theorem top_eq_negative (bits : UInt64) :
    (bits >>> 63 == 1) = (Sign.ofBitVec (@unpackSign .binary64 bits.toBitVec) == .negative) := by
  have htop : (bits >>> 63 == 1) = (@unpackSign .binary64 bits.toBitVec == 1#1) := by
    rw [Bool.eq_iff_iff, beq_iff_eq, beq_iff_eq, ← UInt64.toNat_inj, ← BitVec.toNat_inj,
      toNat_unpackSign]
    rfl
  rw [htop]
  generalize @unpackSign .binary64 bits.toBitVec = b
  revert b
  decide

/-- **The two ways of taking a number apart agree.** -/
theorem ofFloat_eq (x : Float) : Binary64.ofFloat x = meaningOf (parts x) := by
  change Binary64.ofFloat x = meaningOf (UnpackedFloat.unpack .binary64 x.toBits.toBitVec)
  rw [Binary64.ofFloat, UnpackedFloat.unpack]
  dsimp only
  rw [← toNat_unpackExponent, ← toNat_unpackMantissa, top_eq_negative]
  -- the one asks for the numbers that the bits write, the other for the bits themselves
  have hgreatest : @unpackExponent .binary64 x.toBits.toBitVec = -1#11 ↔
      (@unpackExponent .binary64 x.toBits.toBitVec).toNat = 2047 := BitVec.toNat_inj.symm
  have hleast : @unpackExponent .binary64 x.toBits.toBitVec = 0#11 ↔
      (@unpackExponent .binary64 x.toBits.toBitVec).toNat = 0 := BitVec.toNat_inj.symm
  have hnone : @unpackMantissa .binary64 x.toBits.toBitVec = 0#52 ↔
      (@unpackMantissa .binary64 x.toBits.toBitVec).toNat = 0 := BitVec.toNat_inj.symm
  by_cases h : (@unpackExponent .binary64 x.toBits.toBitVec).toNat = 2047
  · rw [if_pos h, if_pos (hgreatest.mpr h)]
    by_cases h' : (@unpackMantissa .binary64 x.toBits.toBitVec).toNat = 0
    · rw [if_pos h', if_pos (hnone.mpr h')]
      rfl
    · rw [if_neg h', if_neg (h' ∘ hnone.mp)]
      rfl
  · rw [if_neg h, if_neg (h ∘ hgreatest.mp)]
    by_cases h' : (@unpackExponent .binary64 x.toBits.toBitVec).toNat = 0
    · rw [if_pos h', if_pos (hleast.mpr h')]
      by_cases h'' : (@unpackMantissa .binary64 x.toBits.toBitVec).toNat = 0
      · rw [dif_pos (hnone.mpr h''), h'']
        rfl
      · rw [dif_neg (h'' ∘ hnone.mp), h']
        rfl
    · rw [if_neg h', if_neg (h' ∘ hleast.mp), meaningOf, toNat_leadingOne]
      congr 1
      change -1074 + ((@unpackExponent .binary64 x.toBits.toBitVec).toNat : ℤ) - 1 = _ - 1075
      omega

theorem parts_of_ofFloat {x : Float} {negative : Bool} {m : ℕ} {e : ℤ} (hm : 0 < m)
    (h : Binary64.ofFloat x = .finite negative m e) :
    parts x = .finite (if negative then .negative else .positive) m e hm := by
  rw [ofFloat_eq] at h
  rcases hx : parts x with s | _ | s | ⟨s, n, f, hn⟩ <;> rw [hx] at h
  · exact absurd h (by simp [meaningOf])
  · exact absurd h (by simp [meaningOf])
  · rw [meaningOf, Binary64.finite.injEq] at h
    exact absurd h.2.1 hm.ne
  · rw [meaningOf, Binary64.finite.injEq] at h
    obtain ⟨rfl, rfl, rfl⟩ := h
    cases s <;> rfl

theorem ofFloat_ofNat {n : ℕ} (hpos : 0 < n) (hlt : n < 2 ^ 53) :
    Binary64.ofFloat (Float.ofNat n) =
      .finite false (n * 2 ^ (52 - n.log2)) (-(52 - n.log2 : ℕ)) := by
  rw [ofFloat_eq, parts_ofNat hpos hlt]
  rfl

end Floating

/-! ## Window lengths -/

/-- A whole number is not rounded, whichever significand it is written with. -/
theorem roundHalfUp_exact (n k : ℕ) : roundHalfUp (n * 2 ^ k) (-k) = n := by
  have hpos : 0 < 2 * 2 ^ k := by positivity
  have hup : (-(k : ℤ)).toNat = 0 := by omega
  rw [roundHalfUp, powerOfTwo, hup, Int.neg_neg, Int.toNat_natCast]
  change (2 * (n * 2 ^ k * 1) + 2 ^ k) / (2 * 2 ^ k) = n
  calc (2 * (n * 2 ^ k * 1) + 2 ^ k) / (2 * 2 ^ k)
      = (2 ^ k + 2 * 2 ^ k * n) / (2 * 2 ^ k) := by congr 1; ring
    _ = 2 ^ k / (2 * 2 ^ k) + n := Nat.add_mul_div_left _ _ hpos
    _ = n := by rw [Nat.div_eq_of_lt (by omega), Nat.zero_add]

/-- **A whole number asks for a window of its length.** -/
theorem windowLength_ofNat {n : ℕ} (h : n ≤ maxWindow) (least : ℕ) :
    windowLength (Float.ofNat n) least = max least n := by
  by_cases hzero : n = 0
  · have hparts : Binary64.ofFloat (Float.ofNat 0) = .finite false 0 (-(1074 : ℕ)) := by
      decide +kernel
    have hround := roundHalfUp_exact 0 1074
    rw [Nat.zero_mul] at hround
    rw [hzero, windowLength, hparts]
    dsimp only
    rw [hround, Nat.zero_min]
  · have hlt : n < 2 ^ 53 := h.trans_lt (by decide)
    rw [windowLength, Floating.ofFloat_ofNat (Nat.pos_of_ne_zero hzero) hlt]
    dsimp only
    rw [roundHalfUp_exact, Nat.min_eq_left h]

/-! ## Numerals -/

theorem Decimal.ofDigits_toDigits (n : ℕ) : ofDigits (Nat.toDigits 10 n) = n := by
  have h := @Nat.ofDigitChars_toDigits 10 n (by decide) (by decide)
  rwa [Nat.ofDigitChars_eq_foldl] at h

/-- A whole number is the nearest one to itself. -/
theorem Decimal.nearest_zero {n : ℕ} (h : n < 2 ^ 53) : nearest n 0 = Float.ofNat n := by
  have hlength : (Nat.toDigits 10 n).length ≤ 16 :=
    (Nat.length_toDigits_le_iff (by decide) (by decide)).mpr (h.trans (by decide))
  have hmost : ¬ mostPlaces < ((Nat.toDigits 10 n).length : ℤ) + 0 := by
    rw [mostPlaces]
    omega
  have hleast : ¬ ((Nat.toDigits 10 n).length : ℤ) + 0 < leastPlaces := by
    rw [leastPlaces]
    omega
  by_cases hzero : n = 0
  · subst hzero
    rfl
  · rw [nearest, if_neg (by simpa [hzero] using hleast), if_neg hmost, if_pos le_rfl]
    rfl

theorem Decimal.readFloatChars_toDigits {n : ℕ} (h : n < 2 ^ 53) :
    readFloatChars (Nat.toDigits 10 n) = .ok (Float.ofNat n) := by
  have hdigits : ∀ c ∈ Nat.toDigits 10 n, c.isDigit = true := fun c hc =>
    Nat.isDigit_of_mem_toDigits (by decide) (by decide) hc
  have hmagnitude : readMagnitude? (Nat.toDigits 10 n) = some (Float.ofNat n) := by
    have hread := readMagnitude?_noPoint hdigits (by simp : ∀ c ∈ [].head?, isExponentMark c = true)
    rw [List.append_nil, ofDigits_toDigits, if_neg (by simp)] at hread
    rw [hread, readExponent?, Option.map_some, nearest_zero h]
  have hsign : splitSign (Nat.toDigits 10 n) = (false, Nat.toDigits 10 n) := by
    unfold splitSign
    split
    · next heq => exact absurd (hdigits '+' (heq ▸ List.mem_cons_self)) (by decide)
    · next heq => exact absurd (hdigits '-' (heq ▸ List.mem_cons_self)) (by decide)
    · rfl
  rw [readFloatChars, if_neg (by simp), hsign]
  dsimp only
  rw [hmagnitude]
  rfl

namespace Token

open Language in
/-- Digits alone are a numeral. -/
theorem mem_numeralForm_of_digits {ds : List Char} (h : ∀ c ∈ ds, c.isDigit = true) :
    ds ∈ numeralForm := by
  have hbehind : [] ∈ optionally fractionForm * optionally exponentForm :=
    append_mem_mul (nil_mem_optionally _) (nil_mem_optionally _)
  have hdigits := append_mem_mul (mem_kstar_oneOf.mpr h) hbehind
  rw [List.append_nil] at hdigits
  exact append_mem_mul (nil_mem_optionally _) hdigits

/-- **The digits of a whole number are read as the number.** -/
theorem scan_repr {n : ℕ} (h : n < 2 ^ 53) :
    scan n.repr = .ok [⟨.literal (Float.ofNat n), ⟨0, n.repr.toList.length⟩⟩,
      ⟨.eof, Span.point n.repr.toList.length⟩] := by
  have hform : n.repr.toList ∈ numeralForm := by
    rw [Nat.toList_repr]
    exact mem_numeralForm_of_digits fun c hc =>
      Nat.isDigit_of_mem_toDigits (by decide) (by decide) hc
  have hread : Decimal.readFloatChars n.repr.toList = .ok (Float.ofNat n) := by
    rw [Nat.toList_repr, Decimal.readFloatChars_toDigits h]
  have hlongest : Longest numeralForm (n.repr.toList ++ ([] ++ [])) n.repr.toList :=
    ⟨hform, List.prefix_append _ _, fun t _ ht => by simpa using ht⟩
  have hpasses : Passes 0 (n.repr.toList ++ [])
      [⟨.literal (Float.ofNat n), ⟨0, 0 + n.repr.toList.length⟩⟩] [] :=
    .token (.token (.literal hlongest hread)) .here
  rw [List.append_nil, Nat.zero_add] at hpasses
  exact scan_eq_ok_iff_passes.mpr ⟨_, hpasses, rfl⟩

end Token

end SignalLab
