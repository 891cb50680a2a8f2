import SignalLab.Proofs.Disk.Writing

/-!
# What is kept of what is written

A file holds what its medium keeps of all that has been written to it since it was opened
(`append_put`). It makes no difference into how many pieces the bytes were cut, for to keep some of
them and then some of what comes behind is to keep some of the whole (`Keeping.kept_kept_append`). Once
a write has been refused, nothing that comes behind it is kept, and all of it is refused.
-/

namespace SignalLab

/-! ## Bytes -/

namespace Keeping

variable {k : Keeping} {bytes more : ByteArray} {fault : DiskFault} {size longer : Nat}

theorem kept_empty (k : Keeping) : k.kept .empty = .empty := by
  cases k with
  | all => rfl
  | upTo size fault => exact ByteArray.extract_eq_empty_iff.mpr (Nat.min_le_right _ _)
  | nothing => rfl

theorem refusal?_zero (k : Keeping) : k.refusal? 0 = none := by
  cases k <;> simp [refusal?]

/-- A file that is not refused a length is refused no shorter one. -/
theorem refusal?_of_le (h : k.refusal? size = some fault) (hle : size ≤ longer) :
    k.refusal? longer = some fault := by
  cases k with
  | all => cases h
  | upTo most fault' =>
    simp only [refusal?, Option.ite_none_right_eq_some] at h ⊢
    exact ⟨Nat.lt_of_lt_of_le h.1 hle, h.2⟩
  | nothing => cases h

/-- What is not refused is kept as it is, unless nothing is kept. -/
theorem kept_of_fits (hk : k ≠ .nothing) (h : k.refusal? bytes.size = none) :
    k.kept bytes = bytes := by
  cases k with
  | all => rfl
  | upTo most fault =>
    have hle : bytes.size ≤ most := by simpa [refusal?] using h
    refine ByteArray.ext ?_
    rw [kept, ByteArray.data_extract, Array.extract_eq_self_of_le hle]
  | nothing => exact absurd rfl hk

/-- To keep some of what has been kept and of what comes behind it is to keep some of the whole. -/
theorem kept_kept_append (k : Keeping) (bytes more : ByteArray) :
    k.kept (k.kept bytes ++ more) = k.kept (bytes ++ more) := by
  cases k with
  | all => rfl
  | upTo most fault =>
    have hroom : most - (min most bytes.size - 0) = most - bytes.size := by omega
    rw [kept, kept, kept, ByteArray.extract_append, ByteArray.extract_append,
      ByteArray.extract_extract, ByteArray.size_extract, hroom]
    simp
  | nothing => rfl

/-- What has been kept in full leaves as much room as what has been written. -/
theorem refusal?_kept_append (h : k.refusal? bytes.size = none) (more : ByteArray) :
    k.refusal? (k.kept bytes ++ more).size = k.refusal? (bytes ++ more).size := by
  by_cases hk : k = .nothing
  · subst hk
    rfl
  · rw [kept_of_fits hk h]

/-- Behind a write that was refused nothing more is kept. -/
theorem kept_append_of_refused (h : k.refusal? bytes.size = some fault) (more : ByteArray) :
    k.kept (bytes ++ more) = k.kept bytes := by
  cases k with
  | all => cases h
  | upTo most fault' =>
    have hlt : most < bytes.size := by
      simp only [refusal?, Option.ite_none_right_eq_some] at h
      exact h.1
    rw [kept, kept, ByteArray.extract_append,
      ByteArray.extract_eq_empty_iff.mpr (by omega : min (most - bytes.size) more.size ≤ _),
      ByteArray.append_empty]
  | nothing => cases h

end Keeping

/-! ## Files -/

namespace Disk

variable {d : Disk} {medium : Medium} {place : Location}

/-- What has been put somewhere is replaced by what is put there next. -/
theorem put_put (d : Disk) (place : Location) (c c' : Content) :
    (d.put place c).put place c' = d.put place c' := by
  simp [put, List.filter_filter]

theorem bytesAt_put (d : Disk) (hplace : place ≠ []) (bytes : ByteArray) :
    (d.put place (.file bytes)).bytesAt place = bytes := by
  rw [bytesAt, find?_put_self d hplace]

/-- **A file that has not been refused anything holds what is kept of all that has been written**, and
has room for more if it has room for the whole. -/
theorem append_put (d : Disk) (hplace : place ≠ []) {written : ByteArray}
    (hfits : (medium place).refusal? written.size = none) (more : ByteArray) :
    (d.put place (.file ((medium place).kept written))).append medium place more =
      (((medium place).refusal? (written ++ more).size).elim (.ok ()) .error,
        d.put place (.file ((medium place).kept (written ++ more)))) := by
  rw [append, bytesAt_put d hplace, put_put, Keeping.kept_kept_append, Keeping.refusal?_kept_append hfits]
  cases (medium place).refusal? (written ++ more).size <;> rfl

end Disk

end SignalLab
