import SignalLab.Proofs.Vocabulary.Table
import SignalLab.Vocabulary

/-!
# What binding a market changes

Binding a market replaces the signals of the six inputs and leaves everything else of a vocabulary
as it was: `find?_bind` says so for every look-up. Two vocabularies of one shape resolve names
alike, and a vocabulary has the shape of all that are bound from it (`SameShape.bind`).

`Vocabulary.bound` are the vocabularies a program can meet: the standard one with any markets bound
to it, one after the other. What their references stand for is said in one equation,
`signal?_bind_bound`.
-/

namespace SignalLab

namespace Entry

@[simp] theorem role_rebind (e : Entry) (x : Signal) : (e.rebind x).role = e.role := by
  rcases e with ⟨_ | _, doc, category⟩ <;> rfl

@[simp] theorem arity_rebind (e : Entry) (x : Signal) : (e.rebind x).arity = e.arity := by
  rcases e with ⟨_ | _, doc, category⟩ <;> rfl

@[simp] theorem rebind_rebind (e : Entry) (x y : Signal) : (e.rebind x).rebind y = e.rebind y := by
  rcases e with ⟨_ | _, doc, category⟩ <;> rfl

theorem rebind_of_function {e : Entry} (h : e.role = .function) (x : Signal) : e.rebind x = e := by
  rcases e with ⟨_ | _, doc, category⟩
  · simp [role] at h
  · rfl

/-- The signal of an entry that is a reference. -/
def signal? (e : Entry) : Option Signal :=
  match e.meaning with
  | .reference x => some x
  | .function .. => none

/-- The operation of an entry that is a function. -/
def operation? (e : Entry) : Option Operation :=
  match e.meaning with
  | .reference _ => none
  | .function operation _ => some operation

theorem signal?_of_role {e : Entry} (h : e.role = .reference) : ∃ x, e.signal? = some x := by
  rcases e with ⟨x | _, doc, category⟩
  · exact ⟨x, rfl⟩
  · simp [role] at h

theorem signal?_of_function {e : Entry} (h : e.role = .function) : e.signal? = none := by
  rcases e with ⟨_ | _, doc, category⟩
  · simp [role] at h
  · rfl

theorem operation?_of_role {e : Entry} (h : e.role = .function) :
    ∃ operation, e.operation? = some operation ∧ operation.arity = e.arity := by
  rcases e with ⟨_ | ⟨operation, parameters⟩, doc, category⟩
  · simp [role] at h
  · exact ⟨operation, rfl, rfl⟩

theorem operation?_of_reference {e : Entry} (h : e.role = .reference) : e.operation? = none := by
  rcases e with ⟨_ | _, doc, category⟩
  · rfl
  · simp [role] at h

/-- An entry with the signal laid over it, if there is one. -/
def rebind? (e : Entry) (x : Option Signal) : Entry := x.elim e e.rebind

@[simp] theorem rebind?_some (e : Entry) (x : Signal) : e.rebind? (some x) = e.rebind x := rfl

@[simp] theorem role_rebind? (e : Entry) (x : Option Signal) : (e.rebind? x).role = e.role := by
  rcases x with _ | x
  · rfl
  · exact role_rebind e x

@[simp] theorem arity_rebind? (e : Entry) (x : Option Signal) : (e.rebind? x).arity = e.arity := by
  rcases x with _ | x
  · rfl
  · exact arity_rebind e x

theorem rebind?_of_function {e : Entry} (h : e.role = .function) (x : Option Signal) :
    e.rebind? x = e := by
  rcases x with _ | x
  · rfl
  · exact rebind_of_function h x

end Entry

namespace Vocabulary

/-! ## Laying signals over names -/

/-- Laying a signal over a name rebinds its entry; a function stays as it is. -/
theorem find?_overlaySignal (v : Vocabulary) (name : String) (x : Signal) (other : String) :
    (v.overlaySignal name x).find? other =
      if other = name then (v.find? name).map (·.rebind x) else v.find? other := by
  unfold overlaySignal
  rcases hfind : v.find? name with _ | entry
  · by_cases h : other = name
    · simpa [h] using hfind
    · simp [h]
  · dsimp only
    split
    · by_cases h : other = name
      · simp [find?, Table.find?_insert, h]
      · simp [find?, Table.find?_insert, h]
    · -- nothing is laid over a function, and rebinding it would change nothing either
      next hrole =>
      by_cases h : other = name
      · simpa [h, Entry.rebind_of_function hrole] using hfind
      · simp [h]

/-- Laying signals over distinct names rebinds each of their entries. -/
theorem find?_foldl_overlaySignal (named : List (String × Signal)) (h : (named.map (·.1)).Nodup)
    (v : Vocabulary) (other : String) :
    (named.foldl (fun v (name, x) => v.overlaySignal name x) v).find? other =
      (v.find? other).map (·.rebind? (named.lookup other)) := by
  induction named generalizing v with
  | nil => exact Option.map_id'.symm
  | cons head named ih =>
    -- the name of the first signal is not among the others, so nothing is laid over it again
    rw [List.map_cons, List.nodup_cons] at h
    rw [List.foldl_cons, ih h.2, find?_overlaySignal, lookup_cons_pair]
    by_cases hother : other = head.1
    · rw [if_pos hother, if_pos hother, hother, lookup_eq_none_of_not_mem h.1, Option.map_map]
      rfl
    · rw [if_neg hother, if_neg hother]

theorem names_named (feeds : Feeds) : feeds.named.map (·.1) = Feeds.names := rfl

theorem nodup_named (feeds : Feeds) : (feeds.named.map (·.1)).Nodup := by
  rw [names_named]
  decide

/-- Every input has a signal in every market. -/
theorem exists_lookup_named (feeds : Feeds) {name : String} (h : name ∈ Feeds.names) :
    ∃ x, feeds.named.lookup name = some x := by
  obtain ⟨p, hp, rfl⟩ := List.mem_map.mp (names_named feeds ▸ h)
  exact ⟨p.2, lookup_of_mem (nodup_named feeds) hp⟩

/-- **Binding a market** rebinds the entries of the inputs and leaves all others alone. -/
theorem find?_bind (v : Vocabulary) (feeds : Feeds) (name : String) :
    (v.bind feeds).find? name = (v.find? name).map (·.rebind? (feeds.named.lookup name)) :=
  find?_foldl_overlaySignal feeds.named (nodup_named feeds) v name

/-- A second market takes the place of the first. -/
theorem find?_bind_bind (v : Vocabulary) (f g : Feeds) (name : String) :
    ((v.bind f).bind g).find? name = (v.bind g).find? name := by
  rw [find?_bind, find?_bind, find?_bind, Option.map_map]
  congr 1
  funext entry
  by_cases h : name ∈ Feeds.names
  · -- both markets have a signal for every input
    obtain ⟨x, hx⟩ := exists_lookup_named f h
    obtain ⟨y, hy⟩ := exists_lookup_named g h
    rw [hx, hy]
    exact entry.rebind_rebind x y
  · have hf : f.named.lookup name = none := lookup_eq_none_of_not_mem h
    have hg : g.named.lookup name = none := lookup_eq_none_of_not_mem h
    rw [hf, hg]
    rfl

theorem table_overlaySignal (v : Vocabulary) (name : String) (x : Signal) :
    (v.overlaySignal name x).table = v.table := by
  unfold overlaySignal
  split
  · split <;> rfl
  · rfl

/-- Binding a market leaves the table alone. -/
theorem table_bind (v : Vocabulary) (feeds : Feeds) : (v.bind feeds).table = v.table := by
  unfold bind
  induction feeds.named generalizing v with
  | nil => rfl
  | cons head named ih => rw [List.foldl_cons, ih, table_overlaySignal]

/-! ## References -/

/-- The references of a vocabulary are the names of its table that are found to be references. -/
theorem references_eq_filter {v : Vocabulary} (h : v.table.names.Nodup) :
    v.references =
      v.table.names.filter fun name => (v.find? name).map Entry.role = some .reference := by
  -- the entry that the listing shows for a name is the one that a look-up finds
  have hrole : ∀ p ∈ v.table.entries,
      (v.find? p.1).map Entry.role = some ((v.overlay.find? p.1).getD p.2).role := by
    intro p hp
    rw [find?, Table.find?_of_mem h hp]
    cases v.overlay.find? p.1 <;> rfl
  rw [references, entries, List.filter_map, List.map_map, Table.names, List.filter_map]
  congr 1
  refine List.filter_congr fun p hp => ?_
  simp only [Function.comp_apply, hrole p hp, Option.some.injEq]

/-- Two vocabularies have one shape if they have the same references in the same order and each name
has the same role and takes as many arguments in both. -/
structure SameShape (v w : Vocabulary) : Prop where
  references : v.references = w.references
  role : ∀ name, (v.find? name).map Entry.role = (w.find? name).map Entry.role
  arity : ∀ name, (v.find? name).map Entry.arity = (w.find? name).map Entry.arity

theorem SameShape.symm {v w : Vocabulary} (h : SameShape v w) : SameShape w v :=
  ⟨h.references.symm, fun name => (h.role name).symm, fun name => (h.arity name).symm⟩

theorem SameShape.trans {u v w : Vocabulary} (h : SameShape u v) (h' : SameShape v w) :
    SameShape u w :=
  ⟨h.references.trans h'.references, fun name => (h.role name).trans (h'.role name),
    fun name => (h.arity name).trans (h'.arity name)⟩

/-- Laying signals over names does not change the shape of a vocabulary. -/
theorem SameShape.of_rebind? {v w : Vocabulary} (h : v.table.names.Nodup)
    (hnames : w.table.names = v.table.names)
    (hfind : ∀ name, ∃ x, w.find? name = (v.find? name).map (·.rebind? x)) : SameShape w v := by
  have hrole : ∀ name, (w.find? name).map Entry.role = (v.find? name).map Entry.role := by
    intro name
    obtain ⟨x, hx⟩ := hfind name
    rw [hx, Option.map_map]
    congr 1
    funext entry
    exact entry.role_rebind? x
  refine ⟨?_, hrole, fun name => ?_⟩
  · rw [references_eq_filter h, references_eq_filter (by rw [hnames]; exact h), hnames]
    simp only [hrole]
  · obtain ⟨x, hx⟩ := hfind name
    rw [hx, Option.map_map]
    congr 1
    funext entry
    exact entry.arity_rebind? x

/-- Binding a market does not change the shape of a vocabulary. -/
theorem SameShape.bind {v : Vocabulary} (h : v.table.names.Nodup) (feeds : Feeds) :
    SameShape (v.bind feeds) v :=
  SameShape.of_rebind? h (by rw [table_bind]) fun name => ⟨_, find?_bind v feeds name⟩

/-! ## What names stand for -/

/-- The signal of a name that is a reference. -/
def signal? (v : Vocabulary) (name : String) : Option Signal := (v.find? name).bind Entry.signal?

/-- The operation of a name that is a function. -/
def operation? (v : Vocabulary) (name : String) : Option Operation :=
  (v.find? name).bind Entry.operation?

theorem signal?_eq_some {v : Vocabulary} {name : String} {x : Signal} :
    v.signal? name = some x ↔ v.meaning? name = some (.reference x) := by
  rw [signal?, meaning?]
  rcases v.find? name with _ | ⟨_ | _, doc, category⟩ <;> simp [Entry.signal?]

theorem operation?_eq_some {v : Vocabulary} {name : String} {operation : Operation} :
    v.operation? name = some operation ↔
      ∃ parameters, v.meaning? name = some (.function operation parameters) := by
  rw [operation?, meaning?]
  rcases v.find? name with _ | ⟨_ | _, doc, category⟩ <;> simp [Entry.operation?]

/-- A reference of one vocabulary has a signal in every vocabulary of the same shape. -/
theorem SameShape.signal? {v w : Vocabulary} (h : SameShape v w) (hnames : w.table.names.Nodup)
    {name : String} (hname : name ∈ v.references) : ∃ x, w.signal? name = some x := by
  rw [h.references, references_eq_filter hnames, List.mem_filter, decide_eq_true_iff] at hname
  obtain ⟨entry, hfind, hrole⟩ := Option.map_eq_some_iff.mp hname.2
  obtain ⟨x, hx⟩ := Entry.signal?_of_role hrole
  refine ⟨x, ?_⟩
  rw [Vocabulary.signal?, hfind, Option.bind_some, hx]

/-- A function of one vocabulary is one of every vocabulary of the same shape. -/
theorem SameShape.operation? {v w : Vocabulary} (h : SameShape v w) {name : String} {entry : Entry}
    (hfind : v.find? name = some entry) (hrole : entry.role = .function) :
    ∃ operation, w.operation? name = some operation ∧ operation.arity = entry.arity := by
  have hrole' := h.role name
  have harity := h.arity name
  rw [hfind, Option.map_some] at hrole' harity
  obtain ⟨other, hother, hotherRole⟩ := Option.map_eq_some_iff.mp hrole'.symm
  rw [hother, Option.map_some] at harity
  obtain ⟨operation, hop, hopArity⟩ := Entry.operation?_of_role (hotherRole.trans hrole)
  refine ⟨operation, ?_, hopArity.trans (Option.some.inj harity).symm⟩
  rw [Vocabulary.operation?, hother, Option.bind_some, hop]

/-! ## The vocabularies that programs meet -/

/-- The standard vocabulary with markets bound to it, one after the other. -/
def bound (draws : Signal) (markets : List Feeds) : Vocabulary :=
  markets.foldl bind (standard draws)

/-- The references of the standard vocabulary. -/
def referenceEntries (draws : Signal) : List (String × Entry) :=
  inputEntries ++ constantEntries draws

/-- The functions of the standard vocabulary. -/
def functionEntries : List (String × Entry) :=
  Arithmetic.entries ++ Logic.entries ++ Rolling.entries

/-- The entries of the standard vocabulary. -/
def standardEntries (draws : Signal) : List (String × Entry) :=
  referenceEntries draws ++ functionEntries

/-- The references that no market feeds. -/
def unfed (draws : Signal) : List (String × Signal) :=
  [("time", Offset.toFloat), ("random", draws), ("pi", Series.constant piFloat),
    ("e", Series.constant eulerFloat)]

/-- No name is inserted into the standard vocabulary twice. -/
theorem nodup_standardEntries (draws : Signal) : ((standardEntries draws).map (·.1)).Nodup := by
  -- the names do not depend on the numbers drawn
  change ((standardEntries (Series.constant 0.0)).map (·.1)).Nodup
  decide

theorem table_standard (draws : Signal) : (standard draws).table = ⟨standardEntries draws⟩ := by
  have h := Table.insertAll_empty (nodup_standardEntries draws)
  simp only [standardEntries, referenceEntries, functionEntries, ← List.append_assoc] at h ⊢
  simp only [standard]
  rw [h]

theorem find?_standard (draws : Signal) (name : String) :
    (standard draws).find? name = (standardEntries draws).lookup name := by
  have htable : (standard draws).table.find? name = (standardEntries draws).lookup name := by
    rw [Table.find?_eq_lookup, table_standard]
  have hoverlay : (standard draws).overlay.find? name = none := rfl
  rw [find?, htable, hoverlay, Option.none_or]

theorem table_bound (draws : Signal) (markets : List Feeds) :
    (bound draws markets).table = ⟨standardEntries draws⟩ := by
  rw [← table_standard]
  unfold bound
  generalize standard draws = v
  induction markets generalizing v with
  | nil => rfl
  | cons feeds markets ih => rw [List.foldl_cons, ih, table_bind]

theorem nodup_names_bound (draws : Signal) (markets : List Feeds) :
    (bound draws markets).table.names.Nodup := by
  rw [table_bound]
  exact nodup_standardEntries draws

/-- Of the markets bound to the standard vocabulary only the last one is read. -/
theorem find?_bind_bound (draws : Signal) (markets : List Feeds) (feeds : Feeds) (name : String) :
    ((bound draws markets).bind feeds).find? name =
      ((standardEntries draws).lookup name).map (·.rebind? (feeds.named.lookup name)) := by
  rw [← find?_standard, ← find?_bind]
  unfold bound
  generalize standard draws = v
  induction markets generalizing v with
  | nil => rfl
  | cons market markets ih =>
    rw [List.foldl_cons, ih, find?_bind_bind]

theorem sameShape_bound (draws : Signal) (markets : List Feeds) :
    SameShape (bound draws markets) (standard draws) := by
  have h : (standard draws).table.names.Nodup := nodup_names_bound draws []
  unfold bound
  generalize standard draws = v at h
  induction markets generalizing v with
  | nil => exact ⟨rfl, fun _ => rfl, fun _ => rfl⟩
  | cons feeds markets ih =>
    exact (ih (v.bind feeds) (by rwa [table_bind])).trans (SameShape.bind h feeds)

/-- The names of the references of the standard vocabulary, in order. -/
def referenceNames : List String := Feeds.names ++ ["time", "random", "pi", "e"]

theorem role_referenceEntries (draws : Signal) :
    ∀ p ∈ referenceEntries draws, p.2.role = .reference := by
  simp [referenceEntries, inputEntries, constantEntries, Entry.ofSignal, Entry.role]

/-- Behind the references stand functions only. -/
theorem role_functionEntries : ∀ p ∈ functionEntries, p.2.role = .function := by decide

theorem lookup_standardEntries_of_not_mem {name : String} (h : name ∉ referenceNames)
    (draws : Signal) : (standardEntries draws).lookup name = functionEntries.lookup name := by
  have hnone : (referenceEntries draws).lookup name = none := lookup_eq_none_of_not_mem h
  rw [standardEntries, List.lookup_append, hnone, Option.none_or]

/-- Drawing other numbers gives `random` another signal and changes nothing else. -/
theorem find?_standard_draws (draws draws' : Signal) (name : String) :
    (standard draws').find? name =
      ((standard draws).find? name).map (·.rebind? ([("random", draws')].lookup name)) := by
  rw [find?_standard, find?_standard]
  by_cases hname : name ∈ referenceNames
  · simp only [referenceNames, Feeds.names, List.cons_append, List.nil_append, List.mem_cons,
      List.not_mem_nil, or_false] at hname
    rcases hname with rfl | rfl | rfl | rfl | rfl | rfl | rfl | rfl | rfl | rfl <;> rfl
  · have hrandom : name ∉ ["random"] := by
      intro hmem
      rw [List.mem_singleton.mp hmem] at hname
      exact hname (by decide)
    have hlookup : [("random", draws')].lookup name = none := lookup_eq_none_of_not_mem hrandom
    rw [hlookup, lookup_standardEntries_of_not_mem hname, lookup_standardEntries_of_not_mem hname]
    exact Option.map_id'.symm

/-- All vocabularies bound from the standard one have one shape, whatever numbers are drawn. -/
theorem sameShape_bound_bound (draws draws' : Signal) (markets markets' : List Feeds) :
    SameShape (bound draws markets) (bound draws' markets') := by
  have hstandard : SameShape (standard draws) (standard draws') := by
    refine SameShape.of_rebind? (nodup_names_bound draws' []) ?_ fun name =>
      ⟨_, find?_standard_draws draws' draws name⟩
    rw [table_standard, table_standard]
    rfl
  have hbound' := (sameShape_bound draws' markets').symm
  exact ((sameShape_bound draws markets).trans hstandard).trans hbound'

/-- **What references stand for**: the six inputs read the market bound last, and no other reference
depends on a market. -/
theorem signal?_bind_bound (draws : Signal) (markets : List Feeds) (feeds : Feeds) (name : String) :
    ((bound draws markets).bind feeds).signal? name =
      (feeds.named.lookup name).or ((unfed draws).lookup name) := by
  rw [signal?, find?_bind_bound]
  by_cases hname : name ∈ referenceNames
  · simp only [referenceNames, Feeds.names, List.cons_append, List.nil_append, List.mem_cons,
      List.not_mem_nil, or_false] at hname
    rcases hname with rfl | rfl | rfl | rfl | rfl | rfl | rfl | rfl | rfl | rfl <;> rfl
  · -- any other name stands for a function, if for anything
    have hfeeds : feeds.named.lookup name = none :=
      lookup_eq_none_of_not_mem fun h => hname (List.mem_append_left _ h)
    have hunfed : (unfed draws).lookup name = none :=
      lookup_eq_none_of_not_mem fun h => hname (List.mem_append_right _ h)
    rw [hfeeds, hunfed, lookup_standardEntries_of_not_mem hname]
    rcases hfind : functionEntries.lookup name with _ | entry
    · rfl
    · exact Entry.signal?_of_function (role_functionEntries _ (mem_of_lookup hfind))

/-- Of the references that no market feeds only `random` depends on the numbers drawn. -/
theorem lookup_unfed_congr (draws draws' : Signal) {name : String} (h : name ≠ "random") :
    (unfed draws).lookup name = (unfed draws').lookup name := by
  simp only [unfed, lookup_cons_pair, if_neg h]

/-- Of the references that no market feeds only `time` and `random` differ from offset to offset. -/
theorem constant_of_lookup_unfed {draws : Signal} {name : String} (htime : name ≠ "time")
    (hrandom : name ≠ "random") {x : Signal} (h : (unfed draws).lookup name = some x) :
    ∃ value, x = Series.constant value := by
  simp only [unfed, lookup_cons_pair, if_neg htime, if_neg hrandom] at h
  split at h
  · exact ⟨piFloat, (Option.some.inj h).symm⟩
  · split at h
    · exact ⟨eulerFloat, (Option.some.inj h).symm⟩
    · simp at h

/-- **What functions stand for** depends neither on a market nor on the numbers drawn. -/
theorem operation?_bind_bound (draws : Signal) (markets : List Feeds) (feeds : Feeds)
    (name : String) :
    ((bound draws markets).bind feeds).operation? name =
      (functionEntries.lookup name).bind Entry.operation? := by
  rw [operation?, find?_bind_bound]
  by_cases hname : name ∈ referenceNames
  · have hfunction : name ∉ functionEntries.map (·.1) := by
      have hdisjoint : ∀ other ∈ referenceNames, other ∉ functionEntries.map (·.1) := by decide
      exact hdisjoint name hname
    rw [lookup_eq_none_of_not_mem hfunction]
    rcases hfind : (standardEntries draws).lookup name with _ | entry
    · rfl
    · rw [standardEntries, List.lookup_append, lookup_eq_none_of_not_mem hfunction, Option.or_none]
        at hfind
      have hrole := role_referenceEntries draws _ (mem_of_lookup hfind)
      exact Entry.operation?_of_reference (by rw [Entry.role_rebind?]; exact hrole)
  · -- a market that has a signal under the name of a function does not get it there
    rw [lookup_standardEntries_of_not_mem hname]
    rcases hfind : functionEntries.lookup name with _ | entry
    · rfl
    · have hrole := role_functionEntries _ (mem_of_lookup hfind)
      rw [Option.map_some, Entry.rebind?_of_function hrole]

end Vocabulary

end SignalLab
