import SignalLab.Proofs.Number.Count

/-!
# Calculating with zeros

There are two floating-point zeros, which compare equal. A calculation that starts from zeros stays
with them as long as it multiplies them with finite numbers only and divides them by counts; zero
times infinity and zero by zero are no numbers. One stays one whichever zero is added to it, and the
positive zero stays positive.
-/

namespace SignalLab.Floating

open Float.Model (UnpackedFloat)
open Float.Model.UnpackedFloat (Sign)

variable {x y : Float}

/-- A zero of either sign. -/
def IsZero (x : Float) : Prop := ∃ s, parts x = .zero s

theorem isZero_iff : IsZero x ↔ (x == 0) = true := by
  have hbeq : (x == 0) = (parts x).beq (.zero .positive) := rfl
  rw [hbeq, UnpackedFloat.beq_iff_ne_notANumber_and_eq]
  constructor
  · rintro ⟨s, hs⟩
    rw [hs]
    cases s <;> simp
  · rintro ⟨-, -, hs | ⟨hs, -⟩ | ⟨hs, -⟩⟩ <;> exact ⟨_, hs⟩

theorem repack_zero (s : Sign) : repack (.zero s) = .zero s :=
  @UnpackedFloat.unpack_packedZero .binary64 s

theorem IsZero.isFinite (hx : IsZero x) : x.isFinite = true := by
  obtain ⟨s, hs⟩ := hx
  rw [isFinite_eq_parts, hs]
  rfl

/-! ## Comparisons -/

theorem IsZero.lt_left (hx : IsZero x) : x < y ↔ 0 < y := by
  obtain ⟨s, hs⟩ := hx
  rw [lt_iff, lt_iff, isNaN_eq_parts x, place, hs]
  rfl

theorem IsZero.lt_right (hy : IsZero y) : x < y ↔ x < 0 := by
  obtain ⟨s, hs⟩ := hy
  rw [lt_iff, lt_iff, isNaN_eq_parts y, place, place, hs]
  rfl

/-! ## Sums and differences -/

theorem IsZero.add (hx : IsZero x) (hy : IsZero y) : IsZero (x + y) := by
  obtain ⟨s, hs⟩ := hx
  obtain ⟨s', hs'⟩ := hy
  rw [IsZero, parts_add, hs, hs']
  cases s <;> cases s' <;> exact ⟨_, repack_zero _⟩

theorem IsZero.sub (hx : IsZero x) (hy : IsZero y) : IsZero (x - y) := by
  obtain ⟨s, hs⟩ := hx
  obtain ⟨s', hs'⟩ := hy
  rw [IsZero, parts_sub, hs, hs']
  cases s <;> cases s' <;> exact ⟨_, repack_zero _⟩

theorem IsZero.abs (hx : IsZero x) : IsZero x.abs := by
  obtain ⟨s, hs⟩ := hx
  rw [IsZero, parts_abs, hs]
  exact ⟨_, repack_zero _⟩

theorem one_add (hx : IsZero x) : 1 + x = 1 := by
  obtain ⟨s, hs⟩ := hx
  rw [← parts_inj, parts_add, hs]
  cases s <;> rfl

protected theorem zero_add (hx : IsZero x) : 0 + x = 0 := by
  obtain ⟨s, hs⟩ := hx
  rw [← parts_inj, parts_add, hs]
  cases s <;> rfl

/-! ## Products and quotients -/

theorem sign_mul_comm (s s' : Sign) : s * s' = s' * s := by
  cases s <;> cases s' <;> rfl

protected theorem mul_comm (x y : Float) : x * y = y * x := by
  rw [← parts_inj, parts_mul, parts_mul]
  congr 1
  rcases parts x with s | _ | s | ⟨s, m, e, hm⟩ <;>
    rcases parts y with s' | _ | s' | ⟨s', n, f, hn⟩ <;>
    simp [UnpackedFloat.mul, sign_mul_comm, Nat.mul_comm, Int.add_comm]

theorem IsZero.mul (hx : IsZero x) (hy : y.isFinite = true) : IsZero (x * y) := by
  obtain ⟨s, hs⟩ := hx
  rw [isFinite_eq_parts] at hy
  rw [IsZero, parts_mul, hs]
  match parts y, hy with
  | .zero s', _ => exact ⟨_, repack_zero _⟩
  | .finite s' m e hm, _ => exact ⟨_, repack_zero _⟩

theorem IsZero.finite_mul (hy : IsZero y) (hx : x.isFinite = true) : IsZero (x * y) := by
  rw [Floating.mul_comm]
  exact hy.mul hx

/-- A zero divided by a count. -/
theorem IsZero.div_count (hx : IsZero x) {n : ℕ} (hn : 0 < n) : IsZero (x / Float.ofNat n) := by
  obtain ⟨s, hs⟩ := hx
  rw [IsZero, parts_div, hs]
  match parts (Float.ofNat n), isCount_parts hn with
  | .infinity .positive, _ => exact ⟨_, repack_zero _⟩
  | .finite .positive m e hm, _ => exact ⟨_, repack_zero _⟩

theorem zero_div_count {n : ℕ} (hn : 0 < n) : 0 / Float.ofNat n = 0 := by
  rw [← parts_inj, parts_div]
  match parts (Float.ofNat n), isCount_parts hn with
  | .infinity .positive, _ => rfl
  | .finite .positive m e hm, _ => rfl

end SignalLab.Floating
