import Mathlib.Logic.Relation
import SignalLab.Proofs.Program.Precedence

/-!
# What a program means

The operands of instructions make a graph of them. `Means` says what an instruction stands for in
this graph, without an order in which the instructions are evaluated: a literal for its number, a
reference for the signal of its name, an application for what its function makes of what its
operands stand for.

An instruction stands for one signal at most (`Means.unique`), and for the same one in all programs
that have the instructions it reaches through operands in common (`Means.congr`). A program that is
evaluated without a fault has the meaning of its last instruction. What other instructions are makes
no difference, although they have to be free of faults as well (`eval_exact`).
-/

namespace SignalLab.Program

/-- An instruction has another one among its operands. -/
def Uses (p : Program) (index operand : Nat) : Prop :=
  ∃ i, p.instructions[index]? = some i ∧ operand ∈ i.operands

/-- An instruction is reached from another one through operands. -/
def Reaches (p : Program) : Nat → Nat → Prop := Relation.ReflTransGen (Uses p)

/-- What an instruction stands for. -/
inductive Means (v : Vocabulary) (p : Program) : Nat → Signal → Prop
  | literal {index : Nat} {value : Float} (h : p.instructions[index]? = some (.literal value)) :
      Means v p index (Series.constant value)
  | reference {index : Nat} {name : String} {x : Signal}
      (h : p.instructions[index]? = some (.reference name)) (hname : v.signal? name = some x) :
      Means v p index x
  | apply {index : Nat} {name : String} {operands : List Nat} {operation : Operation}
      {xs : List Signal} {x : Signal} (h : p.instructions[index]? = some (.apply name operands))
      (hname : v.operation? name = some operation) (hlength : operands.length = xs.length)
      (hoperands : ∀ operand y, (operand, y) ∈ operands.zip xs → Means v p operand y)
      (hx : operation.result? xs = some x) : Means v p index x

variable {v : Vocabulary} {p q : Program} {index : Nat} {x y : Signal}

/-! ## One instruction -/

theorem means_literal_iff {value : Float} (h : p.instructions[index]? = some (.literal value)) :
    Means v p index x ↔ x = Series.constant value := by
  constructor
  · intro hx
    cases hx <;> simp_all
  · rintro rfl
    exact .literal h

theorem means_reference_iff {name : String} (h : p.instructions[index]? = some (.reference name)) :
    Means v p index x ↔ v.signal? name = some x := by
  constructor
  · intro hx
    cases hx <;> simp_all
  · exact .reference h

theorem means_apply_iff {name : String} {operands : List Nat}
    (h : p.instructions[index]? = some (.apply name operands)) :
    Means v p index x ↔ ∃ operation xs, v.operation? name = some operation ∧
      List.Forall₂ (Means v p) operands xs ∧ operation.result? xs = some x := by
  constructor
  · intro hx
    cases hx with
    | literal h' => rw [h] at h'; cases h'
    | reference h' => rw [h] at h'; cases h'
    | apply h' hname hlength hoperands hresult =>
      rw [h] at h'
      cases h'
      exact ⟨_, _, hname, List.forall₂_iff_zip.mpr ⟨hlength, hoperands _ _⟩, hresult⟩
  · rintro ⟨operation, xs, hname, hoperands, hresult⟩
    obtain ⟨hlength, hzip⟩ := List.forall₂_iff_zip.mp hoperands
    exact .apply h hname hlength (fun _ _ => hzip) hresult

/-! ## The graph -/

theorem eq_of_forall₂ {α β : Type} {R S : α → β → Prop} {as : List α} {bs cs : List β}
    (h : List.Forall₂ R as bs) (h' : List.Forall₂ S as cs)
    (hunique : ∀ a b c, R a b → S a c → b = c) : bs = cs := by
  induction h generalizing cs with
  | nil =>
    cases h'
    rfl
  | cons hhead _ ih =>
    cases h' with
    | cons hhead' htail' => rw [hunique _ _ _ hhead hhead', ih htail']

/-- **An instruction stands for one signal**, if for any. -/
theorem Means.unique (h : Means v p index x) (h' : Means v p index y) : x = y := by
  induction h generalizing y with
  | literal h => exact ((means_literal_iff h).mp h').symm
  | reference h hname => exact Option.some.inj (hname.symm.trans ((means_reference_iff h).mp h'))
  | apply h hname hlength _ hx ih =>
    obtain ⟨operation, ys, hname', hoperands, hy⟩ := (means_apply_iff h).mp h'
    rw [hname] at hname'
    cases hname'
    -- operand by operand the two applications are made from the same signals
    have hsame := eq_of_forall₂ (List.forall₂_iff_zip.mpr ⟨hlength, ih _ _⟩) hoperands
      fun _ _ _ hunique hmeans => hunique hmeans
    rw [hsame] at hx
    exact Option.some.inj (hx.symm.trans hy)

/-- What an instruction stands for depends only on the instructions that it reaches. -/
theorem Means.congr (h : Means v p index x)
    (hsame : ∀ other, Reaches p index other → q.instructions[other]? = p.instructions[other]?) :
    Means v q index x := by
  induction h with
  | literal h => exact .literal ((hsame _ .refl).trans h)
  | reference h hname => exact .reference ((hsame _ .refl).trans h) hname
  | apply h hname hlength _ hx ih =>
    refine .apply ((hsame _ .refl).trans h) hname hlength (fun operand y hmem => ?_) hx
    refine ih operand y hmem fun other hother => hsame other ?_
    exact .head ⟨_, h, (List.of_mem_zip hmem).1⟩ hother

/-! ## Evaluation -/

/-- **The signals that the pass finds** are what the instructions stand for. -/
theorem Runs.means {xs : Array Signal} (h : Runs v p xs) {index : Nat} {x : Signal}
    (hx : xs[index]? = some x) : Means v p index x := by
  induction index using Nat.strongRecOn generalizing x with
  | ind index ih =>
    have hlt : index < p.instructions.size := by
      rw [show p.instructions.size = xs.size from h.size_eq.symm]
      exact (Array.getElem?_eq_some_iff.mp hx).1
    obtain ⟨i, hi⟩ : ∃ i, p.instructions[index]? = some i := ⟨_, Array.getElem?_eq_getElem hlt⟩
    have hlist := hi
    rw [← Array.getElem?_toList] at hlist
    have hoperands := operands_lt_of_ordered h.ordered hlist
    obtain ⟨y, hy, hnext⟩ := nextSignal_of_signalsFrom h.signals hlist
    rw [Array.size_empty, Nat.zero_add, hx] at hy
    cases hy
    rcases i with value | name | ⟨name, operands⟩
    · rw [means_literal_iff hi]
      exact (Except.ok.inj hnext).symm
    · rw [means_reference_iff hi]
      exact nextSignal_reference_iff.mp hnext
    · rw [means_apply_iff hi]
      obtain ⟨operation, ys, hname, hat, hresult⟩ := nextSignal_apply_iff.mp hnext
      refine ⟨operation, ys, hname, ?_, hresult⟩
      -- the operands come before, where every signal is a meaning already
      obtain ⟨hlength, hzip⟩ := List.forall₂_iff_zip.mp hat
      refine List.forall₂_iff_zip.mpr ⟨hlength, fun {operand z} hmem => ih operand ?_ (hzip hmem)⟩
      have := hoperands operand (List.of_mem_zip hmem).1
      rwa [Nat.zero_add] at this

/-- A program is evaluated to what its last instruction stands for. -/
theorem means_of_eval (h : p.eval v = .ok x) : Means v p (p.size - 1) x := by
  unfold eval at h
  split at h
  · cases h
  · next hfault =>
    split at h
    · cases h
    · next xs hsignals =>
      split at h
      · cases h
      · next y hback =>
        cases h
        unfold fault? at hfault
        split at hfault
        · cases hfault
        · have hruns : Runs v p xs := ⟨hfault, hsignals⟩
          rw [Array.back?_eq_getElem?, hruns.size_eq] at hback
          exact hruns.means hback

/-- **Evaluation of any list of instructions, with any vocabulary.** It answers with the fault of
the program and otherwise succeeds. On its way it finds every signal it asks for. What it succeeds
with is the meaning of the last instruction in the graph of operands, so that instructions which are
not reached from there may be any others. -/
theorem eval_exact (v : Vocabulary) (p : Program) :
    (∀ fault, p.eval v = .error fault ↔ FaultOf v p fault) ∧
    ((∃ x, p.eval v = .ok x) ↔ ∀ fault, ¬ FaultOf v p fault) ∧
    (∀ before i after signals, Clean Forward p.numbered →
      p.instructions.toList = before ++ i :: after → signalsFrom v #[] before = .ok signals →
        InRange v signals i) ∧
    (∀ x, p.eval v = .ok x → ∀ y, Means v p (p.size - 1) y ↔ y = x) ∧
    (∀ (q : Program) (x y : Signal), q.size = p.size →
      (∀ index, Reaches p (p.size - 1) index → q.instructions[index]? = p.instructions[index]?) →
        p.eval v = .ok x → q.eval v = .ok y → y = x) := by
  refine ⟨eval_error_iff v p, exists_eval_iff v p, ?_, ?_, ?_⟩
  · intro before i after signals hordered hsplit
    rw [numbered, hsplit] at hordered
    exact inRange_of_ordered hordered
  · intro x hx y
    constructor
    · exact fun hy => hy.unique (means_of_eval hx)
    · rintro rfl
      exact means_of_eval hx
  · intro q x y hsize hsame hx hy
    have hmeans := means_of_eval hy
    rw [hsize] at hmeans
    exact hmeans.unique ((means_of_eval hx).congr hsame)

end SignalLab.Program
