import Mathlib.Data.List.Forall2
import SignalLab.Program.Evaluation
import SignalLab.Program.Lowering
import SignalLab.Proofs.Expr.Meaning

/-!
# Lowering keeps the meaning of an expression

A lowered program is evaluated by one pass from the front. While an expression is lowered, the
instructions so far have the signals that this pass gives them, and every index in scope is that of
the signal which its name means. `Runs` and `Tracks` say so; each step of lowering keeps both, and
the index it answers with is that of the meaning of the expression (`lowerInto_runs`).

The pass never looks at an instruction again, so what it found for an instruction still holds when
more are emitted behind it. This is also why the last step may emit an instruction once more.
-/

namespace SignalLab.Program

/-! ## Signals of earlier instructions -/

/-- Signals that have been found stay where they are. -/
def Extends (xs ys : Array Signal) : Prop :=
  ∀ (i : Nat) (x : Signal), xs[i]? = some x → ys[i]? = some x

theorem Extends.refl (xs : Array Signal) : Extends xs xs := fun _ _ h => h

theorem Extends.trans {xs ys zs : Array Signal} (h : Extends xs ys) (h' : Extends ys zs) :
    Extends xs zs := fun i x hi => h' i x (h i x hi)

theorem Extends.push (xs : Array Signal) (x : Signal) : Extends xs (xs.push x) := by
  intro i y hi
  have hlt : i < xs.size := (Array.getElem?_eq_some_iff.mp hi).1
  rw [Array.getElem?_push, if_neg (by omega), hi]

/-- The signals `ys` stand at the given indices. -/
def At (xs : Array Signal) (indices : List Nat) (ys : List Signal) : Prop :=
  List.Forall₂ (fun i y => xs[i]? = some y) indices ys

theorem At.mono {xs xs' : Array Signal} (h : Extends xs xs') {indices : List Nat} {ys : List Signal}
    (hat : At xs indices ys) : At xs' indices ys :=
  List.Forall₂.imp (fun i y hi => h i y hi) hat

theorem operandSignals_eq_ok {index : Nat} {xs : Array Signal} {indices : List Nat}
    {ys : List Signal} : operandSignals index xs indices = .ok ys ↔ At xs indices ys := by
  induction indices generalizing ys with
  | nil =>
    constructor
    · intro h
      rw [← Except.ok.inj h]
      exact List.Forall₂.nil
    · rintro ⟨⟩
      rfl
  | cons operand rest ih =>
    rw [operandSignals]
    rcases hx : xs[operand]? with _ | x
    · -- an operand without a signal is a fault, and no signal stands at its index
      refine ⟨fun h => by simp at h, ?_⟩
      rintro ⟨⟩
      next hhead _ => simp [hx] at hhead
    · dsimp only
      constructor
      · intro h
        rcases hrest : operandSignals index xs rest with fault | zs
        · simp [hrest, Except.map] at h
        · rw [hrest] at h
          rw [← Except.ok.inj h]
          exact List.Forall₂.cons hx (ih.mp hrest)
      · rintro ⟨⟩
        next hhead htail =>
          rw [ih.mpr htail, Option.some.inj (hx.symm.trans hhead)]
          rfl

/-! ## One instruction -/

variable {w : Vocabulary} {xs ys : Array Signal}

/-- A reference stands for the signal of its name. -/
theorem nextSignal_reference_iff {name : String} {x : Signal} :
    nextSignal w xs (.reference name) = .ok x ↔ w.signal? name = some x := by
  rw [nextSignal, Vocabulary.signal?_eq_some]
  rcases w.meaning? name with _ | _ | _ <;> simp

/-- An application stands for what its function makes of the signals at its operands. -/
theorem nextSignal_apply_iff {name : String} {indices : List Nat} {x : Signal} :
    nextSignal w xs (.apply name indices) = .ok x ↔ ∃ operation operands,
      w.operation? name = some operation ∧ At xs indices operands ∧
        operation.result? operands = some x := by
  simp only [Vocabulary.operation?_eq_some, ← @operandSignals_eq_ok xs.size]
  rw [nextSignal]
  rcases w.meaning? name with _ | _ | ⟨operation, parameters⟩
  · simp
  · simp
  · rcases operandSignals xs.size xs indices with fault | operands
    · simp
    · rcases hx : operation.result? operands with _ | y <;> simp [hx]

/-- What an instruction stands for does not change when more signals are found. -/
theorem nextSignal_mono (h : Extends xs ys) {i : Instruction} {x : Signal}
    (hx : nextSignal w xs i = .ok x) : nextSignal w ys i = .ok x := by
  rcases i with value | name | ⟨name, indices⟩
  · exact hx
  · exact nextSignal_reference_iff.mpr (nextSignal_reference_iff.mp hx)
  · obtain ⟨operation, operands, hname, hat, hresult⟩ := nextSignal_apply_iff.mp hx
    exact nextSignal_apply_iff.mpr ⟨operation, operands, hname, hat.mono h, hresult⟩

/-! ## The pass over all instructions -/

theorem firstForward?_append (k : Nat) (before after : List Instruction) :
    firstForward? k (before ++ after) =
      (firstForward? k before).or (firstForward? (k + before.length) after) := by
  induction before generalizing k with
  | nil => rfl
  | cons i before ih =>
    rw [List.cons_append, firstForward?, firstForward?, ih, List.length_cons, Option.or_assoc,
      Nat.add_assoc, Nat.add_comm 1]

/-- An instruction is in order if its operands precede it. -/
theorem forwardOperand?_eq_none {k : Nat} {i : Instruction} :
    forwardOperand? k i = none ↔ ∀ operand ∈ i.operands, operand < k := by
  simp [forwardOperand?]

/-- In an ordered list the operands of every instruction precede it. -/
theorem operands_lt_of_ordered {k : Nat} {instructions : List Instruction}
    (h : firstForward? k instructions = none) {j : Nat} {i : Instruction}
    (hi : instructions[j]? = some i) : ∀ operand ∈ i.operands, operand < k + j := by
  induction instructions generalizing k j with
  | nil => simp at hi
  | cons head rest ih =>
    rw [firstForward?, Option.or_eq_none_iff] at h
    rcases j with _ | j
    · rw [← Option.some.inj hi]
      exact forwardOperand?_eq_none.mp h.1
    · have hlt := ih h.2 hi
      intro operand hoperand
      have := hlt operand hoperand
      omega

theorem signalsFrom_append {before : List Instruction} (h : signalsFrom w xs before = .ok ys)
    (after : List Instruction) :
    signalsFrom w xs (before ++ after) = signalsFrom w ys after := by
  induction before generalizing xs with
  | nil =>
    rw [← Except.ok.inj h]
    rfl
  | cons i before ih =>
    rw [signalsFrom] at h
    rw [List.cons_append, signalsFrom]
    split at h
    · simp at h
    · next x hx => exact ih h

/-- The pass finds one signal for each instruction and keeps those it starts from. -/
theorem signalsFrom_keeps {instructions : List Instruction}
    (h : signalsFrom w xs instructions = .ok ys) :
    ys.size = xs.size + instructions.length ∧ Extends xs ys := by
  induction instructions generalizing xs with
  | nil =>
    rw [← Except.ok.inj h]
    exact ⟨rfl, Extends.refl _⟩
  | cons i rest ih =>
    rw [signalsFrom] at h
    split at h
    · simp at h
    · next x hx =>
      obtain ⟨hsize, hext⟩ := ih h
      refine ⟨?_, (Extends.push xs x).trans hext⟩
      rw [hsize, Array.size_push, List.length_cons]
      omega

/-- **The signal found for an instruction** is what the instruction stands for among all signals. -/
theorem nextSignal_of_signalsFrom {instructions : List Instruction}
    (h : signalsFrom w xs instructions = .ok ys) {j : Nat} {i : Instruction}
    (hi : instructions[j]? = some i) :
    ∃ x, ys[xs.size + j]? = some x ∧ nextSignal w ys i = .ok x := by
  induction instructions generalizing xs j with
  | nil => simp at hi
  | cons head rest ih =>
    rw [signalsFrom] at h
    split at h
    · simp at h
    · next x hx =>
      have hext := (signalsFrom_keeps h).2
      rcases j with _ | j
      · -- the signal was found before those behind it were, and it has not changed since
        have hmono := nextSignal_mono ((Extends.push xs x).trans hext) hx
        rw [← Option.some.inj hi]
        exact ⟨x, hext xs.size x Array.getElem?_push_size, hmono⟩
      · obtain ⟨y, hy, hnext⟩ := ih h hi
        rw [Array.size_push, Nat.add_assoc, Nat.add_comm 1] at hy
        exact ⟨y, hy, hnext⟩

/-! ## Programs that run -/

/-- A program runs with the given signals: operands precede the instructions that use them, and the
pass finds these signals. -/
structure Runs (w : Vocabulary) (p : Program) (xs : Array Signal) : Prop where
  ordered : firstForward? 0 p.instructions.toList = none
  signals : signalsFrom w #[] p.instructions.toList = .ok xs

theorem Runs.empty (w : Vocabulary) : Runs w Program.empty #[] := ⟨rfl, rfl⟩

variable {p : Program}

theorem Runs.size_eq (h : Runs w p xs) : xs.size = p.size := by
  rw [(signalsFrom_keeps h.signals).1, Array.length_toList]
  exact Nat.zero_add _

/-- Emitting an instruction adds its signal. -/
theorem Runs.push (h : Runs w p xs) {i : Instruction} {x : Signal}
    (hlt : ∀ operand ∈ i.operands, operand < p.size) (hx : nextSignal w xs i = .ok x) :
    Runs w (p.push i) (xs.push x) := by
  refine ⟨?_, ?_⟩
  · rw [Program.push, Array.toList_push, firstForward?_append, h.ordered, Array.length_toList]
    simp only [Option.none_or, firstForward?, Option.or_none]
    rw [Nat.zero_add]
    exact forwardOperand?_eq_none.mpr hlt
  · rw [Program.push, Array.toList_push, signalsFrom_append h.signals, signalsFrom, hx]
    rfl

/-- The new instruction's signal stands at the index that was the size of the program. -/
theorem Runs.getElem?_push (h : Runs w p xs) (x : Signal) : (xs.push x)[p.size]? = some x := by
  rw [← h.size_eq, Array.getElem?_push_size]

theorem At.lt_size (h : Runs w p xs) {indices : List Nat} {operands : List Signal}
    (hat : At xs indices operands) : ∀ i ∈ indices, i < p.size := by
  intro i hi
  induction hat with
  | nil => simp at hi
  | cons hhead _ ih =>
    rcases List.mem_cons.mp hi with rfl | hi
    · rw [← h.size_eq]
      exact (Array.getElem?_eq_some_iff.mp hhead).1
    · exact ih hi

/-! ## Names in scope -/

/-- Every index in scope is that of the signal which its name means. -/
def Tracks (w : Vocabulary) (env : Environment) (scope : Scope) (xs : Array Signal) : Prop :=
  ∀ (name : String) (i : Nat), scope.lookup name = some i →
    ∃ x, xs[i]? = some x ∧ env.read w name = some x

variable {env : Environment} {scope : Scope}

theorem Tracks.mono (h : Tracks w env scope xs) (hext : Extends xs ys) : Tracks w env scope ys := by
  intro name i hi
  obtain ⟨x, hx, hread⟩ := h name i hi
  exact ⟨x, hext i x hx, hread⟩

/-- A binding brings its name into scope and hides what the name meant before. -/
theorem Tracks.bind (h : Tracks w env scope xs) {i : Nat} {x : Signal} (hx : xs[i]? = some x)
    (name : String) : Tracks w ((name, x) :: env) ((name, i) :: scope) xs := by
  intro other j hj
  rw [lookup_cons_pair] at hj
  rw [Environment.read_cons]
  by_cases hother : other = name
  · rw [if_pos hother] at hj ⊢
    rw [← Option.some.inj hj]
    exact ⟨x, hx, rfl⟩
  · rw [if_neg hother] at hj ⊢
    exact h other j hj

/-- Emitting a reference brings the signal of its name into scope. -/
theorem Tracks.emit (hruns : Runs w p xs) (h : Tracks w [] scope xs) {name : String} {x : Signal}
    (hx : w.signal? name = some x) : Tracks w [] ((name, p.size) :: scope) (xs.push x) := by
  intro other i hi
  rw [lookup_cons_pair] at hi
  by_cases hother : other = name
  · rw [if_pos hother] at hi
    rw [← Option.some.inj hi]
    exact ⟨x, hruns.getElem?_push x, hother ▸ hx⟩
  · rw [if_neg hother] at hi
    exact h.mono (Extends.push xs x) other i hi

/-- Emits one more reference. -/
def emitReference (state : Program × Scope) (name : String) : Program × Scope :=
  (state.1.push (.reference name), (name, state.1.size) :: state.2)

theorem emitReferences_eq_foldl (names : List String) :
    emitReferences names = names.foldl emitReference (Program.empty, []) :=
  rfl

/-- Emitting more references keeps a program running and the names in scope tracked. -/
theorem foldl_emitReference_runs {names : List String}
    (h : ∀ name ∈ names, ∃ x, w.signal? name = some x) (hruns : Runs w p xs)
    (htracks : Tracks w [] scope xs) :
    ∃ ys, Runs w (names.foldl emitReference (p, scope)).1 ys ∧
      Tracks w [] (names.foldl emitReference (p, scope)).2 ys := by
  induction names generalizing p scope xs with
  | nil => exact ⟨xs, hruns, htracks⟩
  | cons name rest ih =>
    obtain ⟨x, hx⟩ := h name List.mem_cons_self
    have hpush : Runs w (p.push (.reference name)) (xs.push x) :=
      hruns.push (by simp [Instruction.operands]) (nextSignal_reference_iff.mpr hx)
    exact ih (fun other hother => h other (List.mem_cons_of_mem _ hother)) hpush
      (htracks.emit hruns hx)

/-- The references that are emitted first run, and their names are in scope. -/
theorem emitReferences_runs {names : List String}
    (h : ∀ name ∈ names, ∃ x, w.signal? name = some x) :
    ∃ xs, Runs w (emitReferences names).1 xs ∧ Tracks w [] (emitReferences names).2 xs := by
  rw [emitReferences_eq_foldl]
  exact foldl_emitReference_runs h (Runs.empty w) fun _ _ hi => by simp at hi

/-! ## Lowering -/

/-- An application is accepted exactly if its name is a function of as many arguments. -/
theorem applicationFault?_eq_none {v : Vocabulary} {span : Span} {name : String} {got : Nat} :
    applicationFault? v span name got = none ↔
      ∃ entry, v.find? name = some entry ∧ entry.role = .function ∧ got = entry.arity := by
  rw [applicationFault?]
  rcases v.find? name with _ | entry <;> simp

mutual

/-- **Lowering an expression** keeps a program running and names in scope tracked, and its index is
that of the meaning of the expression. -/
theorem lowerInto_runs {v w : Vocabulary} (hshape : v.SameShape w) : ∀ (e : Expr)
    {env : Environment} {scope : Scope} {p p' : Program} {xs : Array Signal} {i : Nat},
    Runs w p xs → Tracks w env scope xs → lowerInto v scope p e = .ok (p', i) →
    ∃ ys x, Runs w p' ys ∧ Extends xs ys ∧ ys[i]? = some x ∧ e.meaning? w env = some x
  | .literal _ value, env, scope, p, p', xs, i, hruns, _, h => by
    rw [lowerInto] at h
    cases h
    refine ⟨xs.push (Series.constant value), Series.constant value, ?_, Extends.push xs _,
      hruns.getElem?_push _, by rw [Expr.meaning?]⟩
    exact hruns.push (by simp [Instruction.operands]) rfl
  | .reference span name, env, scope, p, p', xs, i, hruns, htracks, h => by
    rw [lowerInto] at h
    split at h
    · simp at h
    · next index hindex =>
      cases h
      obtain ⟨x, hx, hread⟩ := htracks name _ hindex
      exact ⟨xs, x, hruns, Extends.refl xs, hx, by rw [Expr.meaning?, hread]⟩
  | .application span name arguments, env, scope, p, p', xs, i, hruns, htracks, h => by
    rw [lowerInto] at h
    split at h
    · simp at h
    · next hfault =>
      obtain ⟨entry, hfind, hrole, harity⟩ := applicationFault?_eq_none.mp hfault
      obtain ⟨operation, hname, hop⟩ := hshape.operation? hfind hrole
      split at h
      · simp at h
      · next q operands hall =>
        cases h
        -- the arguments come first, so all operands precede the application and have signals
        obtain ⟨ys, zs, hruns', hext, hat, hmeanings⟩ :=
          lowerAll_runs hshape arguments hruns htracks hall
        have hlength : zs.length = operation.arity := by
          rw [Expr.length_of_meanings? hmeanings, harity, hop]
        obtain ⟨x, hx⟩ := Option.isSome_iff_exists.mp ((operation.result?_isSome zs).mpr hlength)
        refine ⟨ys.push x, x, ?_, hext.trans (Extends.push ys x), hruns'.getElem?_push x, ?_⟩
        · exact hruns'.push (hat.lt_size hruns')
            (nextSignal_apply_iff.mpr ⟨operation, zs, hname, hat, hx⟩)
        · rw [Expr.meaning?, hname, hmeanings]
          exact hx
  | .binding span name value body, env, scope, p, p', xs, i, hruns, htracks, h => by
    rw [lowerInto] at h
    split at h
    · simp at h
    · next q index hvalue =>
      obtain ⟨ys, x, hruns', hext, hx, hmeaning⟩ := lowerInto_runs hshape value hruns htracks hvalue
      -- what was in scope is still tracked, because signals that were found stay where they are
      obtain ⟨zs, y, hruns'', hext', hy, hmeaning'⟩ :=
        lowerInto_runs hshape body hruns' ((htracks.mono hext).bind hx name) h
      refine ⟨zs, y, hruns'', hext.trans hext', hy, ?_⟩
      rw [Expr.meaning?, hmeaning]
      exact hmeaning'

/-- Lowering several expressions does the same for each of them. -/
theorem lowerAll_runs {v w : Vocabulary} (hshape : v.SameShape w) : ∀ (es : List Expr)
    {env : Environment} {scope : Scope} {p p' : Program} {xs : Array Signal} {indices : List Nat},
    Runs w p xs → Tracks w env scope xs → lowerAll v scope p es = .ok (p', indices) →
    ∃ ys zs, Runs w p' ys ∧ Extends xs ys ∧ At ys indices zs ∧ Expr.meanings? w env es = some zs
  | [], env, scope, p, p', xs, indices, hruns, _, h => by
    rw [lowerAll] at h
    cases h
    exact ⟨xs, [], hruns, Extends.refl xs, List.Forall₂.nil, by rw [Expr.meanings?]⟩
  | e :: rest, env, scope, p, p', xs, indices, hruns, htracks, h => by
    rw [lowerAll] at h
    split at h
    · simp at h
    · next q index he =>
      split at h
      · simp at h
      · next r more hrest =>
        cases h
        obtain ⟨ys, x, hruns', hext, hx, hmeaning⟩ := lowerInto_runs hshape e hruns htracks he
        obtain ⟨zs, us, hruns'', hext', hat, hmeanings⟩ :=
          lowerAll_runs hshape rest hruns' (htracks.mono hext) hrest
        refine ⟨zs, x :: us, hruns'', hext.trans hext', ?_, ?_⟩
        · -- the signal of the first has not moved while the others were emitted
          exact List.Forall₂.cons (hext' index x hx) hat
        · rw [Expr.meanings?, hmeaning, hmeanings]

end

/-! ## Whole programs -/

/-- A program that runs is evaluated to the signal of its last instruction. -/
theorem Runs.eval_eq (h : Runs w p xs) {x : Signal} (hx : xs.back? = some x) :
    p.fault? = none ∧ p.eval w = .ok x := by
  have hfault : p.fault? = none := by
    have hsize : p.size ≠ 0 := by
      rw [← h.size_eq]
      intro hzero
      rw [Array.eq_empty_of_size_eq_zero hzero] at hx
      simp at hx
    rw [fault?, if_neg hsize]
    exact h.ordered
  refine ⟨hfault, ?_⟩
  rw [eval, hfault]
  dsimp only
  rw [h.signals]
  dsimp only
  rw [hx]

/-- Making an instruction the last one makes its signal the last one. -/
theorem Runs.endWith {w : Vocabulary} {p : Program} {xs : Array Signal} (h : Runs w p xs) {i : Nat}
    {x : Signal} (hx : xs[i]? = some x) :
    ∃ ys, Runs w (p.endWith i) ys ∧ ys.back? = some x := by
  have hlt : i < p.size := by
    rw [← h.size_eq]
    exact (Array.getElem?_eq_some_iff.mp hx).1
  unfold Program.endWith
  split
  · next hlast =>
    refine ⟨xs, h, ?_⟩
    rw [Array.back?_eq_getElem?, h.size_eq, ← hlast]
    exact hx
  · split
    · next instruction hi =>
      -- emitted once more, the instruction stands for what it stood for the first time
      rw [← Array.getElem?_toList] at hi
      obtain ⟨y, hy, hnext⟩ := nextSignal_of_signalsFrom h.signals hi
      rw [show (#[] : Array Signal).size + i = i from Nat.zero_add i, hx] at hy
      cases hy
      refine ⟨xs.push x, h.push ?_ hnext, Array.back?_push⟩
      intro operand hoperand
      have := operands_lt_of_ordered h.ordered hi operand hoperand
      omega
    · next hnone =>
      rw [Program.size] at hlt
      rw [Array.getElem?_eq_none_iff] at hnone
      omega

/-- **A lowered program is evaluated to the meaning of its expression**, with every vocabulary of
the shape of the one it was lowered with. -/
theorem eval_of_ofExpr {v w : Vocabulary} (hshape : v.SameShape w) (hnames : w.table.names.Nodup)
    {e : Expr} {p : Program} (h : ofExpr v e = .ok p) :
    p.fault? = none ∧ ∃ x, p.eval w = .ok x ∧ e.meaning? w [] = some x := by
  obtain ⟨xs, hruns, htracks⟩ := emitReferences_runs fun name hname =>
    hshape.signal? hnames hname
  rw [ofExpr] at h
  dsimp only at h
  split at h
  · simp at h
  · next q i hlower =>
    cases h
    obtain ⟨ys, x, hruns', -, hx, hmeaning⟩ := lowerInto_runs hshape e hruns htracks hlower
    obtain ⟨zs, hruns'', hback⟩ := hruns'.endWith hx
    obtain ⟨hfault, heval⟩ := hruns''.eval_eq hback
    exact ⟨hfault, x, heval, hmeaning⟩

/-- **Lowering and evaluation keep the meaning of every expression.** Whatever markets have been
bound to the vocabulary an expression is lowered with, its program is well-formed, and over any
market it is evaluated without a fault to the signal that the expression means. -/
theorem eval_bind_of_ofExpr_bound (draws : Signal) (markets : List Feeds) (feeds : Feeds) (e : Expr)
    (p : Program) (h : ofExpr (Vocabulary.bound draws markets) e = .ok p) :
    p.fault? = none ∧
      ∃ x, p.eval ((Vocabulary.bound draws markets).bind feeds) = .ok x ∧
        e.meaning? ((Vocabulary.bound draws markets).bind feeds) [] = some x := by
  have hnames := Vocabulary.nodup_names_bound draws markets
  have hshape := (Vocabulary.SameShape.bind hnames feeds).symm
  refine eval_of_ofExpr hshape ?_ h
  rw [Vocabulary.table_bind]
  exact hnames

/-- The expression `let price = neg close in let add = price in add price add`: the inner bindings
hide an input and the name of a function, and the function is still applied. -/
def hidingNames : Expr :=
  .binding ⟨0, 57⟩ "price" (.application ⟨12, 21⟩ "neg" [.reference ⟨16, 21⟩ "close"])
    (.binding ⟨25, 57⟩ "add" (.reference ⟨35, 40⟩ "price")
      (.application ⟨44, 57⟩ "add" [.reference ⟨48, 53⟩ "price", .reference ⟨54, 57⟩ "add"]))

theorem eval_bind_hidingNames :
    let v := Vocabulary.bound (Series.constant 0.5) [Feeds.zeros]
    let p : Program := ⟨#[.reference "price", .reference "volume", .reference "open",
      .reference "close", .reference "high", .reference "low", .reference "time",
      .reference "random", .reference "pi", .reference "e", .apply "neg" [3], .apply "add" [10, 10]]⟩
    let feeds := Feeds.same (Series.constant 2.0)
    ofExpr v hidingNames = .ok p ∧ p.fault? = none ∧
      ∃ x, p.eval (v.bind feeds) = .ok x ∧ hidingNames.meaning? (v.bind feeds) [] = some x := by
  intro v p feeds
  have h : ofExpr v hidingNames = .ok p := by decide +kernel
  exact ⟨h, eval_bind_of_ofExpr_bound (Series.constant 0.5) [Feeds.zeros] feeds hidingNames p h⟩

/-! ## What lowering looks at -/

theorem applicationFault?_congr {v w : Vocabulary} (hshape : v.SameShape w) (span : Span)
    (name : String) (got : Nat) :
    applicationFault? v span name got = applicationFault? w span name got := by
  have hrole := hshape.role name
  have harity := hshape.arity name
  rw [applicationFault?, applicationFault?]
  rcases hv : v.find? name with _ | entry
  · rw [hv, Option.map_none] at hrole
    rw [Option.map_eq_none_iff.mp hrole.symm]
  · rw [hv, Option.map_some] at hrole harity
    obtain ⟨other, hother, hotherRole⟩ := Option.map_eq_some_iff.mp hrole.symm
    rw [hother, Option.map_some] at harity
    rw [hother]
    dsimp only
    rw [hotherRole, Option.some.inj harity]

mutual

/-- Lowering looks at the roles of names and their numbers of arguments, not at what they stand
for. -/
theorem lowerInto_congr {v w : Vocabulary} (hshape : v.SameShape w) (scope : Scope) (p : Program) :
    ∀ e : Expr, lowerInto v scope p e = lowerInto w scope p e
  | .literal _ _ => by rw [lowerInto, lowerInto]
  | .reference _ _ => by rw [lowerInto, lowerInto]
  | .application span name arguments => by
    rw [lowerInto, lowerInto, applicationFault?_congr hshape,
      lowerAll_congr hshape scope p arguments]
  | .binding _ name value body => by
    rw [lowerInto, lowerInto, lowerInto_congr hshape scope p value]
    rcases lowerInto w scope p value with d | lowered
    · rfl
    · exact lowerInto_congr hshape _ _ body

theorem lowerAll_congr {v w : Vocabulary} (hshape : v.SameShape w) (scope : Scope) (p : Program) :
    ∀ es : List Expr, lowerAll v scope p es = lowerAll w scope p es
  | [] => by rw [lowerAll, lowerAll]
  | e :: rest => by
    rw [lowerAll, lowerAll, lowerInto_congr hshape scope p e]
    rcases lowerInto w scope p e with d | lowered
    · rfl
    · dsimp only
      rw [lowerAll_congr hshape scope lowered.1 rest]

end

/-- Vocabularies of one shape lower an expression to the same program, or find the same fault. -/
theorem ofExpr_congr {v w : Vocabulary} (hshape : v.SameShape w) (e : Expr) :
    ofExpr v e = ofExpr w e := by
  rw [ofExpr, ofExpr, hshape.references]
  simp only [lowerInto_congr hshape]

end SignalLab.Program
