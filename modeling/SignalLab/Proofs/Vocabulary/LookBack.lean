import Mathlib.Data.List.Forall2
import SignalLab.Proofs.Series.Window
import SignalLab.Proofs.Vocabulary.Binding

/-!
# How far the functions of the vocabulary look back

An operation looks back by `k` if its result at an offset is decided by its arguments at that offset
and at the `k` samples behind it. In particular it never looks at a newer sample. The functions of
the arithmetic and of the logical group look back by nothing and those of the rolling group by at
most `maxWindow`, whatever the lengths of their windows are.

`LooksBack` compares two lists of arguments at two offsets. With one offset for both it says what a
result depends on; with two it says that an operation treats all offsets alike.
-/

namespace SignalLab

/-! ## Operations -/

namespace Operation

/-- Arguments that agree at two offsets and on the `k` samples behind them give results that agree
at the two offsets. -/
def LooksBack (k : Nat) (operation : Operation) : Prop :=
  ∀ ⦃xs ys : List Signal⦄ ⦃x y : Signal⦄ ⦃s t : Offset⦄,
    List.Forall₂ (fun a b => Series.AgreeBehind k a s b t) xs ys →
      operation.result? xs = some x → operation.result? ys = some y → x s = y t

variable {k : Nat}

theorem LooksBack.mono {operation : Operation} (h : LooksBack k operation) {l : Nat} (hkl : k ≤ l) :
    LooksBack l operation := by
  intro xs ys x y s t hargs
  exact h (hargs.imp fun _ _ hagree => hagree.mono hkl)

theorem result?_unary {f : Signal → Signal} {xs : List Signal} {u : Signal} :
    (unary f).result? xs = some u ↔ ∃ x, xs = [x] ∧ f x = u := by
  rcases xs with _ | ⟨x, _ | ⟨y, rest⟩⟩ <;> simp [result?]

theorem result?_binary {f : Signal → Signal → Signal} {xs : List Signal} {u : Signal} :
    (binary f).result? xs = some u ↔ ∃ x x', xs = [x, x'] ∧ f x x' = u := by
  rcases xs with _ | ⟨x, _ | ⟨x', _ | ⟨y, rest⟩⟩⟩ <;> simp [result?]

theorem result?_ternary {f : Signal → Signal → Signal → Signal} {xs : List Signal} {u : Signal} :
    (ternary f).result? xs = some u ↔ ∃ x x' x'', xs = [x, x', x''] ∧ f x x' x'' = u := by
  rcases xs with _ | ⟨x, _ | ⟨x', _ | ⟨x'', _ | ⟨y, rest⟩⟩⟩⟩ <;> simp [result?]

theorem looksBack_unary {f : Signal → Signal}
    (h : ∀ {x y : Signal} {s t : Offset}, Series.AgreeBehind k x s y t → f x s = f y t) :
    LooksBack k (.unary f) := by
  intro xs ys u v s t hargs hu hv
  obtain ⟨x, rfl, rfl⟩ := result?_unary.mp hu
  obtain ⟨y, rfl, rfl⟩ := result?_unary.mp hv
  rw [List.forall₂_cons] at hargs
  exact h hargs.1

theorem looksBack_binary {f : Signal → Signal → Signal}
    (h : ∀ {x x' y y' : Signal} {s t : Offset}, Series.AgreeBehind k x s y t →
      Series.AgreeBehind k x' s y' t → f x x' s = f y y' t) :
    LooksBack k (.binary f) := by
  intro xs ys u v s t hargs hu hv
  obtain ⟨x, x', rfl, rfl⟩ := result?_binary.mp hu
  obtain ⟨y, y', rfl, rfl⟩ := result?_binary.mp hv
  rw [List.forall₂_cons, List.forall₂_cons] at hargs
  exact h hargs.1 hargs.2.1

theorem looksBack_ternary {f : Signal → Signal → Signal → Signal}
    (h : ∀ {x x' x'' y y' y'' : Signal} {s t : Offset}, Series.AgreeBehind k x s y t →
      Series.AgreeBehind k x' s y' t → Series.AgreeBehind k x'' s y'' t →
      f x x' x'' s = f y y' y'' t) :
    LooksBack k (.ternary f) := by
  intro xs ys u v s t hargs hu hv
  obtain ⟨x, x', x'', rfl, rfl⟩ := result?_ternary.mp hu
  obtain ⟨y, y', y'', rfl, rfl⟩ := result?_ternary.mp hv
  rw [List.forall₂_cons, List.forall₂_cons, List.forall₂_cons] at hargs
  exact h hargs.1 hargs.2.1 hargs.2.2.1

@[simp] theorem looksBack_pointwise (f : Float → Float) : LooksBack 0 (pointwise f) :=
  looksBack_unary fun hx => by rw [hx.here]

@[simp] theorem looksBack_pointwise2 (f : Float → Float → Float) : LooksBack 0 (pointwise2 f) :=
  looksBack_binary fun hx hy => by rw [hx.here, hy.here]

@[simp] theorem looksBack_pointwise3 (f : Float → Float → Float → Float) :
    LooksBack 0 (pointwise3 f) :=
  looksBack_ternary fun hx hy hz => by rw [hx.here, hy.here, hz.here]

end Operation

/-! ## The three groups -/

/-- The operation of an entry, if it has one, looks back by `k`. -/
def Entry.LooksBack (k : Nat) (e : Entry) : Prop :=
  ∀ operation, e.operation? = some operation → operation.LooksBack k

namespace Entry

variable {k : Nat}

@[simp] theorem looksBack_ofOperation {category : Category} {operation : Operation} {doc : String} :
    (ofOperation category operation doc).LooksBack k ↔ operation.LooksBack k := by
  constructor
  · exact fun h => h operation rfl
  · intro h other hother
    rw [← Option.some.inj hother]
    exact h

/-- The names of the arguments do not matter. -/
@[simp] theorem looksBack_withParameters {e : Entry} {names : List String} :
    (e.withParameters names).LooksBack k ↔ e.LooksBack k := by
  rcases e with ⟨_ | _, doc, category⟩ <;> rfl

end Entry

namespace Arithmetic

theorem looksBack_entries : ∀ p ∈ entries, p.2.LooksBack 0 := by
  simp [entries, entry]

end Arithmetic

namespace Logic

/-- Of the two branches only the one that is taken is read, and both agree. -/
theorem looksBack_select : Operation.LooksBack 0 (.ternary select) :=
  Operation.looksBack_ternary fun hc ha hb => by
    unfold select
    rw [hc.here, ha.here, hb.here]

theorem looksBack_entries : ∀ p ∈ entries, p.2.LooksBack 0 := by
  simp [entries, entry, comparing, looksBack_select]

end Logic

namespace Rolling

/-- The names of this group. -/
def names : List String := entries.map (·.1)

theorem looksBack_lag : Operation.LooksBack maxWindow (.binary lag) :=
  Operation.looksBack_binary fun hx hn => by
    unfold lag
    rw [hn.here]
    exact hx _ (windowLength_le (Nat.zero_le _) _)

theorem looksBack_difference : Operation.LooksBack maxWindow (.binary difference) :=
  Operation.looksBack_binary fun {x _ y n' s t} hx hn => by
    have hback := hx (windowLength (n' t) 0) (windowLength_le (Nat.zero_le _) _)
    unfold difference
    rw [hn.here, hx.here, hback]

/-- A window of a computed length ends at the offset and holds no more than `maxWindow` samples. -/
theorem looksBack_windowed {aggregate : Signal → Offset → Nat → Float}
    (h : Window.Local aggregate) : Operation.LooksBack maxWindow (.binary (windowed aggregate)) :=
  Operation.looksBack_binary fun {x _ y n' s t} hx hn => by
    have hleast : 1 ≤ windowLength (n' t) 1 := le_windowLength _ _
    have hmost : windowLength (n' t) 1 ≤ maxWindow := windowLength_le (by decide) _
    obtain ⟨k, hk⟩ := Nat.exists_eq_add_of_le' hleast
    unfold windowed
    rw [hn.here, hk]
    exact h (hx.mono (by omega))

theorem looksBack_sincePrevious (f : Float → Float → Float) :
    Operation.LooksBack maxWindow (.unary (sincePrevious f)) :=
  Operation.looksBack_unary fun hx => by
    unfold sincePrevious
    rw [hx.here, hx 1 (by decide)]

theorem looksBack_entries : ∀ p ∈ entries, p.2.LooksBack maxWindow := by
  simp [entries, windowEntry, signalEntry, looksBack_lag, looksBack_difference,
    looksBack_windowed, looksBack_sincePrevious, Window.local_sum, Window.local_mean,
    Window.local_deviation, Window.local_least, Window.local_greatest, Window.local_exponential,
    Window.local_score]

end Rolling

/-! ## Names of bound vocabularies -/

/-- By how much the function of a name looks back: only the rolling group looks back at all. -/
def lookBack (name : String) : Nat := if name ∈ Rolling.names then maxWindow else 0

/-- **The functions of a vocabulary look back by at most `lookBack`.** -/
theorem Vocabulary.looksBack_operation? {draws : Signal} {markets : List Feeds} {feeds : Feeds}
    {name : String} {operation : Operation}
    (h : ((bound draws markets).bind feeds).operation? name = some operation) :
    operation.LooksBack (lookBack name) := by
  rw [operation?_bind_bound] at h
  obtain ⟨entry, hentry, hop⟩ := Option.bind_eq_some_iff.mp h
  have hmem := mem_of_lookup hentry
  rw [functionEntries, List.mem_append, List.mem_append] at hmem
  rcases hmem with (harithmetic | hlogic) | hrolling
  · exact (Arithmetic.looksBack_entries _ harithmetic operation hop).mono (Nat.zero_le _)
  · exact (Logic.looksBack_entries _ hlogic operation hop).mono (Nat.zero_le _)
  · have hname : name ∈ Rolling.names := List.mem_map_of_mem hrolling
    rw [lookBack, if_pos hname]
    exact Rolling.looksBack_entries _ hrolling operation hop

end SignalLab
