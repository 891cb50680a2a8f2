import SignalLab.Proofs.First
import SignalLab.Proofs.Program.Simulation

/-!
# Which fault of a program is reported

A program may be made by hand, and then many things can be wrong with it at once. `FaultOf` says
which of them is reported: that there are no instructions; then the first operand that does not
precede its instruction; then the first instruction that uses a name wrongly. Evaluation answers
with this fault and otherwise with a signal (`eval_error_iff`, `exists_eval_iff`).

The operands are looked at before anything is evaluated, so a name that is used wrongly in front of
them is not reported. Afterwards every operand has a signal when it is asked for
(`inRange_of_ordered`): the pass has found one signal for each instruction it came past.
-/

namespace SignalLab

/-- An instruction and its index. -/
abbrev Numbered := Instruction × Nat

namespace Program

/-- The instructions of a program with their indices. -/
def numbered (p : Program) : List Numbered := p.instructions.toList.zipIdx

/-- The first operand of an instruction that does not precede it. -/
def Forward (numbered : Numbered) (fault : ProgramFault) : Prop :=
  First (fun operand fault => numbered.2 ≤ operand ∧ fault = .forwardOperand numbered.2 operand)
    numbered.1.operands fault

/-- What is wrong with the name that an instruction uses. The role of the name comes before the
number of operands, which only matters for a function. -/
inductive Misuses (v : Vocabulary) : Numbered → ProgramFault → Prop
  | unknownReference {index : Nat} {name : String} (hname : v.find? name = none) :
      Misuses v (.reference name, index) (.unknownName index name)
  | unknownFunction {index : Nat} {name : String} {operands : List Nat}
      (hname : v.find? name = none) :
      Misuses v (.apply name operands, index) (.unknownName index name)
  | noReference {index : Nat} {name : String} {entry : Entry} (hname : v.find? name = some entry)
      (hrole : entry.role = .function) :
      Misuses v (.reference name, index) (.wrongRole index name .reference)
  | noFunction {index : Nat} {name : String} {operands : List Nat} {entry : Entry}
      (hname : v.find? name = some entry) (hrole : entry.role = .reference) :
      Misuses v (.apply name operands, index) (.wrongRole index name .function)
  | count {index : Nat} {name : String} {operands : List Nat} {entry : Entry}
      (hname : v.find? name = some entry) (hrole : entry.role = .function)
      (hcount : operands.length ≠ entry.arity) :
      Misuses v (.apply name operands, index)
        (.operandCount index name entry.arity operands.length)

/-- The fault of a program, of all that may be wrong with it. -/
inductive FaultOf (v : Vocabulary) (p : Program) : ProgramFault → Prop
  | empty (h : p.size = 0) : FaultOf v p .empty
  | forward {fault : ProgramFault} (h : First Forward p.numbered fault) : FaultOf v p fault
  | misuse {fault : ProgramFault} (hordered : Clean Forward p.numbered)
      (h : First (Misuses v) p.numbered fault) : FaultOf v p fault

variable {v : Vocabulary} {signals : Array Signal} {fault fault' : ProgramFault}

/-! ## Operands that do not precede their instruction -/

theorem Forward.unique {numbered : Numbered} (h : Forward numbered fault)
    (h' : Forward numbered fault') : fault = fault' :=
  First.unique h h' fun _ _ _ h h' => h.2.trans h'.2.symm

/-- An instruction is in order exactly if all its operands precede it. -/
theorem clean_forward_iff {i : Instruction} {index : Nat} :
    Clean Forward [(i, index)] ↔ ∀ operand ∈ i.operands, operand < index := by
  rw [clean_singleton_iff]
  constructor
  · intro h operand hoperand
    by_contra hlt
    exact clean_iff.mpr h operand hoperand _ ⟨Nat.le_of_not_lt hlt, rfl⟩
  · intro h
    refine clean_iff.mp fun operand hoperand fault hfault => ?_
    exact Nat.not_lt_of_le hfault.1 (h operand hoperand)

/-- The first operand that does not precede its instruction is what is looked for. -/
theorem forwardOperand?_eq_some_iff {i : Instruction} {index : Nat} :
    forwardOperand? index i = some fault ↔ Forward (i, index) fault := by
  simp only [forwardOperand?, Option.map_eq_some_iff, List.find?_eq_some_iff_append, Forward, First,
    Clean, decide_eq_true_eq, Bool.not_eq_true', decide_eq_false_iff_not]
  constructor
  · rintro ⟨operand, ⟨hle, before, after, hsplit, hbefore⟩, rfl⟩
    exact ⟨before, operand, after, hsplit,
      fun other hother _ hwrong => hbefore other hother hwrong.1, hle, rfl⟩
  · rintro ⟨before, operand, after, hsplit, hbefore, hle, rfl⟩
    exact ⟨operand, ⟨hle, before, after, hsplit,
      fun other hother hwrong => hbefore other hother _ ⟨hwrong, rfl⟩⟩, rfl⟩

/-- The look for such operands finds the first of them in the list. -/
theorem firstForward?_eq_some_iff {instructions : List Instruction} {k : Nat} :
    firstForward? k instructions = some fault ↔ First Forward (instructions.zipIdx k) fault := by
  induction instructions generalizing k with
  | nil =>
    rw [firstForward?, List.zipIdx_nil, first_nil_iff]
    simp
  | cons i rest ih =>
    rw [firstForward?, List.zipIdx_cons, first_cons_iff, Option.or_eq_some_iff, ih,
      forwardOperand?_eq_some_iff, forwardOperand?_eq_none, clean_forward_iff]

/-! ## Names that are used wrongly -/

theorem Misuses.unique {numbered : Numbered} (h : Misuses v numbered fault)
    (h' : Misuses v numbered fault') : fault = fault' := by
  cases h <;> cases h' <;> simp_all

/-- Signals stand at all operands that are among the instructions so far. -/
theorem exists_at {operands : List Nat} (h : ∀ operand ∈ operands, operand < signals.size) :
    ∃ xs, At signals operands xs := by
  induction operands with
  | nil => exact ⟨[], List.Forall₂.nil⟩
  | cons operand rest ih =>
    obtain ⟨xs, hxs⟩ := ih fun other hother => h other (List.mem_cons_of_mem _ hother)
    have hlt := h operand List.mem_cons_self
    exact ⟨signals[operand] :: xs, List.Forall₂.cons (Array.getElem?_eq_getElem hlt) hxs⟩

/-- **One instruction** whose operands precede it has a signal unless it uses a name wrongly. -/
theorem nextSignal_fits {i : Instruction} (h : ∀ operand ∈ i.operands, operand < signals.size) :
    Fits (Misuses v) [(i, signals.size)] (nextSignal v signals i) := by
  rcases i with value | name | ⟨name, operands⟩
  · exact clean_singleton_iff.mpr nofun
  · rw [nextSignal, Vocabulary.meaning?]
    rcases hname : v.find? name with _ | ⟨x | ⟨operation, parameters⟩, doc, category⟩
    · exact First.here (.unknownReference hname) []
    · refine clean_singleton_iff.mpr fun fault hfault => ?_
      cases hfault <;> simp_all [Entry.role]
    · exact First.here (.noReference hname rfl) []
  · rw [nextSignal, Vocabulary.meaning?]
    rcases hname : v.find? name with _ | ⟨x | ⟨operation, parameters⟩, doc, category⟩
    · exact First.here (.unknownFunction hname) []
    · exact First.here (.noFunction hname rfl) []
    · obtain ⟨xs, hxs⟩ : ∃ xs, At signals operands xs := exists_at h
      have hlength : operands.length = xs.length := List.Forall₂.length_eq hxs
      simp only [Option.map_some]
      rw [operandSignals_eq_ok.mpr hxs]
      dsimp only
      -- the operation has a result exactly if the number of operands is right
      have hresult := operation.result?_isSome xs
      rw [← hlength] at hresult
      rcases hx : operation.result? xs with _ | x
      · rw [hx] at hresult
        exact First.here (.count hname rfl fun hcount => Bool.noConfusion (hresult.mpr hcount)) []
      · rw [hx] at hresult
        refine clean_singleton_iff.mpr fun fault hfault => ?_
        cases hfault <;> simp_all [Entry.role, Entry.arity]

/-- **The pass over instructions in order** stops at the first that uses a name wrongly. -/
theorem signalsFrom_fits {instructions : List Instruction}
    (h : Clean Forward (instructions.zipIdx signals.size)) :
    Fits (Misuses v) (instructions.zipIdx signals.size) (signalsFrom v signals instructions) := by
  induction instructions generalizing signals with
  | nil => exact Clean.nil
  | cons i rest ih =>
    rw [List.zipIdx_cons] at h ⊢
    obtain ⟨hi, hrest⟩ := clean_append_iff.mp (show Clean Forward ([_] ++ _) from h)
    have hnext := nextSignal_fits (v := v) (clean_forward_iff.mp hi)
    rw [signalsFrom]
    generalize nextSignal v signals i = answer at hnext ⊢
    rcases answer with fault | x
    · exact First.append hnext _
    · rw [← Array.size_push x] at hrest ⊢
      exact (ih hrest).behind hnext

/-- What an instruction asks for is there: every operand has a signal, and a function that is handed
as many signals as it takes has a result. -/
structure InRange (v : Vocabulary) (signals : Array Signal) (i : Instruction) : Prop where
  operands : ∀ operand ∈ i.operands, operand < signals.size
  arguments : ∀ name operands operation, i = .apply name operands →
    v.operation? name = some operation → operands.length = operation.arity →
      ∃ xs x, At signals operands xs ∧ operation.result? xs = some x ∧
        nextSignal v signals i = .ok x

/-- **Whatever instruction the pass comes to** finds what it asks for, if all are in order. -/
theorem inRange_of_ordered {before after : List Instruction} {i : Instruction}
    (hordered : Clean Forward ((before ++ i :: after).zipIdx))
    (h : signalsFrom v #[] before = .ok signals) : InRange v signals i := by
  have hsize : signals.size = before.length := by
    rw [(signalsFrom_keeps h).1, Array.size_empty, Nat.zero_add]
  have hlt : ∀ operand ∈ i.operands, operand < signals.size := by
    rw [List.zipIdx_append, List.zipIdx_cons, Nat.zero_add, ← hsize] at hordered
    have hi := (clean_append_iff.mp hordered).2
    exact clean_forward_iff.mp (clean_append_iff.mp (show Clean Forward ([_] ++ _) from hi)).1
  refine ⟨hlt, ?_⟩
  rintro name operands operation rfl hname hcount
  obtain ⟨xs, hxs⟩ : ∃ xs, At signals operands xs := exists_at hlt
  rw [List.Forall₂.length_eq hxs, ← operation.result?_isSome] at hcount
  obtain ⟨x, hx⟩ := Option.isSome_iff_exists.mp hcount
  exact ⟨xs, x, hxs, hx, nextSignal_apply_iff.mpr ⟨operation, xs, hname, hxs, hx⟩⟩

/-! ## Whole programs -/

theorem numbered_eq_nil (p : Program) (h : p.size = 0) : p.numbered = [] := by
  rw [numbered, Array.toList_eq_nil_iff.mpr (Array.eq_empty_of_size_eq_zero h), List.zipIdx_nil]

/-- **Evaluation answers with the fault of a program**, if it has one. -/
theorem eval_error_iff (v : Vocabulary) (p : Program) (fault : ProgramFault) :
    p.eval v = .error fault ↔ FaultOf v p fault := by
  rw [eval, fault?]
  by_cases hsize : p.size = 0
  · rw [if_pos hsize]
    have hnumbered := p.numbered_eq_nil hsize
    constructor
    · rintro ⟨⟩
      exact .empty hsize
    · intro hfault
      cases hfault with
      | empty => rfl
      | forward h => exact (first_nil_iff.mp (hnumbered ▸ h)).elim
      | misuse _ h => exact (first_nil_iff.mp (hnumbered ▸ h)).elim
  · rw [if_neg hsize]
    rcases hforward : firstForward? 0 p.instructions.toList with _ | fault'
    · have hordered : Clean Forward p.numbered := by
        refine clean_iff.mpr fun fault hfault => ?_
        rw [firstForward?_eq_some_iff.mpr hfault] at hforward
        cases hforward
      have hfits : Fits (Misuses v) p.numbered (signalsFrom v #[] p.instructions.toList) :=
        signalsFrom_fits hordered
      have hmisuse : FaultOf v p fault ↔ First (Misuses v) p.numbered fault := by
        refine ⟨fun hfault => ?_, .misuse hordered⟩
        cases hfault with
        | empty h => exact absurd h hsize
        | forward h => exact absurd hordered h.not_clean
        | misuse _ h => exact h
      rw [hmisuse, ← hfits.error_iff fun _ _ _ => Misuses.unique]
      dsimp only
      rcases hsignals : signalsFrom v #[] p.instructions.toList with fault' | signals
      · simp
      · -- there is an instruction, so there is a last signal
        have hlast : signals.back? ≠ none := by
          have hcount := (signalsFrom_keeps hsignals).1
          rw [Array.length_toList, Array.size_empty, Nat.zero_add] at hcount
          rw [Array.back?_eq_getElem?, ne_eq, Array.getElem?_eq_none_iff, hcount]
          have : p.instructions.size ≠ 0 := hsize
          omega
        rcases hback : signals.back? with _ | x
        · exact absurd hback hlast
        · dsimp only
          rw [hback]
          simp
    · have hfirst := firstForward?_eq_some_iff.mp hforward
      constructor
      · rintro ⟨⟩
        exact .forward hfirst
      · intro hfault
        cases hfault with
        | empty h => exact absurd h hsize
        | forward h => rw [First.unique h hfirst fun _ _ _ => Forward.unique]
        | misuse hordered => exact absurd hordered hfirst.not_clean

/-- An operand that does not precede its instruction hides an unknown name in front of it. -/
example (v : Vocabulary) : eval ⟨#[.reference "nope", .apply "neg" [1]]⟩ v =
    .error (.forwardOperand 1 1) := rfl

/-- Evaluation succeeds exactly if a program has no fault. -/
theorem exists_eval_iff (v : Vocabulary) (p : Program) :
    (∃ x, p.eval v = .ok x) ↔ ∀ fault, ¬ FaultOf v p fault := by
  simp only [← eval_error_iff]
  rcases p.eval v with fault | x <;> simp

end Program

end SignalLab
