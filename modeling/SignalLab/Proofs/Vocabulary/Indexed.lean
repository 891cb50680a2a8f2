import Mathlib
import SignalLab.Proofs.Vocabulary.Table
import SignalLab.Vocabulary.Indexed

/-!
# What an index finds

Entries and index of a table are consistent if the index has the place of every name and nothing else
(`IndexedTable.Consistent`). An insertion keeps this up (`IndexedTable.Consistent.insert`), and does to
the entries what an insertion into a table does (`IndexedTable.Consistent.toTable_insert`). What a run
of insertions makes is then read off the table: names in the order in which they were first inserted
(`Table.names_insertAll_empty`), each with the entry that was last inserted
(`Table.find?_insertAll_empty`).
-/

namespace SignalLab

/-! ## Runs of insertions into a table -/

namespace Table

theorem insertAll_concat (t : Table) (named : List (String × Entry)) (last : String × Entry) :
    t.insertAll (named ++ [last]) = (t.insertAll named).insert last.1 last.2 := by
  rw [insertAll, List.foldl_append]
  rfl

/-- Names stand in the order in which they were first inserted. -/
theorem names_insertAll_empty (named : List (String × Entry)) :
    (empty.insertAll named).names = (named.map (·.1)).eraseDups := by
  induction named using List.reverseRecOn with
  | nil => rfl
  | append_singleton named last ih =>
    rw [insertAll_concat, names_insert, ih, List.map_append, List.eraseDups_append]
    by_cases hmem : last.1 ∈ named.map (·.1)
    · rw [if_pos (List.mem_eraseDups.mpr hmem)]
      simp [List.removeAll, hmem]
    · rw [if_neg (fun h => hmem (List.mem_eraseDups.mp h))]
      simp [List.removeAll, hmem, List.eraseDups_cons]

/-- What is found for a name is what was inserted for it last. -/
theorem find?_insertAll_empty (named : List (String × Entry)) (name : String) :
    (empty.insertAll named).find? name = named.reverse.lookup name := by
  induction named using List.reverseRecOn with
  | nil => rfl
  | append_singleton named last ih =>
    rw [insertAll_concat, find?_insert, ih, List.reverse_append, List.reverse_singleton,
      List.singleton_append, lookup_cons_pair]

/-- In a table of distinct names, a name is found at the place at which it stands. -/
theorem index?_eq_some_iff {t : Table} (hnames : t.names.Nodup) {name : String} {i : Nat} :
    t.index? name = some i ↔ t.names[i]? = some name := by
  rw [index?, List.findIdx?_eq_some_iff_getElem, List.getElem?_eq_some_iff]
  simp only [names, List.length_map, List.getElem_map, decide_eq_true_eq]
  refine exists_congr fun hi => and_iff_left_of_imp fun hat j hji hj => ?_
  have hlt : j < t.entries.length := hji.trans hi
  refine List.nodup_iff_getElem?_ne_getElem?.mp hnames j i hji (by simpa [names] using hi) ?_
  simp [names, hi, hlt, hat, hj]

end Table

/-! ## Entries and index -/

namespace IndexedTable

/-- The index has a place for a name exactly if the name stands there. -/
def Consistent (t : IndexedTable) : Prop :=
  ∀ name i, t.index[name]? = some i ↔ t.nameAt? i = some name

variable {t : IndexedTable} {name other : String} {i : Nat}

/-! ## Insertions -/

theorem nameAt?_size (t : IndexedTable) : t.nameAt? t.entries.size = none := by
  rw [nameAt?, Array.getElem?_eq_none (Nat.le_refl _)]
  rfl

theorem consistent_empty : Consistent empty := by
  intro name i
  simp [empty, nameAt?]

/-- An insertion leaves the place of every other name in the index. -/
theorem index_insert (t : IndexedTable) (name : String) (entry : Entry) (other : String) :
    (t.insert name entry).index[other]? =
      if other = name then some (t.place name) else t.index[other]? := by
  rw [IndexedTable.insert, place]
  cases hi : t.index[name]? with
  | none =>
    rw [Std.HashMap.getElem?_insert, Option.getD_none]
    simp only [beq_iff_eq, eq_comm (a := name)]
  | some i =>
    by_cases hother : other = name
    · rw [if_pos hother, hother, hi, Option.getD_some]
    · rw [if_neg hother]

/-- An insertion leaves every other place as it is. Where the index leads, the new entry stands
under the name that it was given, since this is the name of the entry that it replaces. -/
theorem Consistent.entries_insert (h : t.Consistent) (name : String) (entry : Entry) (j : Nat) :
    (t.insert name entry).entries[j]? =
      if j = t.place name then some (name, entry) else t.entries[j]? := by
  rw [IndexedTable.insert, place]
  cases hi : t.index[name]? with
  | none => simp only [Array.getElem?_push, Option.getD_none]
  | some i =>
    obtain ⟨⟨_, old⟩, hold, rfl⟩ := Option.map_eq_some_iff.mp ((h name i).mp hi)
    simp only [Array.getElem?_modify, Option.getD_some]
    by_cases hij : i = j
    · subst hij
      simp [hold]
    · rw [if_neg hij, if_neg (Ne.symm hij)]

/-- At the place of a name stands no other name. -/
theorem Consistent.nameAt?_place_ne (h : t.Consistent) (hother : other ≠ name) :
    t.nameAt? (t.place name) ≠ some other := by
  rw [place]
  cases hi : t.index[name]? with
  | none =>
    rw [Option.getD_none, nameAt?_size]
    nofun
  | some i =>
    rw [Option.getD_some, (h name i).mp hi, ne_eq, Option.some.injEq]
    exact Ne.symm hother

/-- **An insertion keeps entries and index consistent.** -/
theorem Consistent.insert (h : t.Consistent) (name : String) (entry : Entry) :
    (t.insert name entry).Consistent := by
  intro other i
  have hat : (t.insert name entry).nameAt? i =
      if i = t.place name then some name else t.nameAt? i := by
    rw [nameAt?, h.entries_insert]
    split <;> rfl
  rw [index_insert, hat]
  by_cases hother : other = name
  · subst hother
    by_cases hi : i = t.place other
    · rw [if_pos rfl, if_pos hi, hi]
      exact iff_of_true rfl rfl
    · -- a name stands nowhere but at its place
      have hnot : t.nameAt? i ≠ some other := fun hstands => hi (by
        rw [place, (h other i).mpr hstands, Option.getD_some])
      rw [if_pos rfl, if_neg hi, Option.some.injEq]
      exact iff_of_false (Ne.symm hi) hnot
  · rw [if_neg hother, h other i]
    by_cases hi : i = t.place name
    · rw [if_pos hi, Option.some.injEq, hi]
      exact iff_of_false (h.nameAt?_place_ne hother) (Ne.symm hother)
    · rw [if_neg hi]

/-- **Any insertions make a consistent table.** -/
theorem Consistent.insertAll (h : t.Consistent) (named : List (String × Entry)) :
    (t.insertAll named).Consistent := by
  induction named generalizing t with
  | nil => exact h
  | cons head named ih => exact ih (h.insert head.1 head.2)

/-! ## The table of the entries -/

/-- The name at a place, as the table has it. -/
theorem nameAt?_eq (t : IndexedTable) (i : Nat) : t.nameAt? i = t.toTable.names[i]? := by
  rw [nameAt?, Table.names, toTable, List.getElem?_map, Array.getElem?_toList]

/-- A name stands at one place. -/
theorem Consistent.nodup_names (h : t.Consistent) : t.toTable.names.Nodup := by
  rw [List.nodup_iff_getElem?_ne_getElem?]
  intro i j hij hj heq
  rw [← nameAt?_eq, ← nameAt?_eq] at heq
  obtain ⟨name, hname⟩ : ∃ name, t.nameAt? j = some name := by
    rw [nameAt?_eq]
    exact ⟨_, List.getElem?_eq_getElem hj⟩
  have hi := (h name i).mpr (heq.trans hname)
  rw [(h name j).mpr hname, Option.some.injEq] at hi
  omega

/-- The index has the places that are found by going through the entries. -/
theorem Consistent.index?_toTable (h : t.Consistent) (name : String) :
    t.toTable.index? name = t.index[name]? :=
  Option.ext fun i => by
    rw [Table.index?_eq_some_iff h.nodup_names, ← nameAt?_eq, h name i]

theorem Consistent.find?_toTable (h : t.Consistent) (name : String) :
    t.toTable.find? name = t.find? name := by
  rw [Table.find?, find?, h.index?_toTable]
  cases t.index[name]? with
  | none => rfl
  | some i => simp only [toTable, Array.getElem?_toList]

/-- **An insertion does to the entries what it does to those of a table without an index.** -/
theorem Consistent.toTable_insert (h : t.Consistent) (name : String) (entry : Entry) :
    (t.insert name entry).toTable = t.toTable.insert name entry := by
  rw [Table.insert, h.index?_toTable]
  cases hi : t.index[name]? with
  | none => simp [IndexedTable.insert, hi, toTable]
  | some i =>
    have hlt : i < t.entries.size := by
      obtain ⟨_, hat, -⟩ := Option.map_eq_some_iff.mp ((h name i).mp hi)
      exact (Array.getElem?_eq_some_iff.mp hat).1
    rw [toTable, Table.mk.injEq]
    refine List.ext_getElem? fun j => ?_
    rw [Array.getElem?_toList, h.entries_insert, place, hi, Option.getD_some, List.getElem?_set,
      toTable, Array.getElem?_toList, Array.length_toList, if_pos hlt]
    simp only [eq_comm]

theorem Consistent.toTable_insertAll (h : t.Consistent) (named : List (String × Entry)) :
    (t.insertAll named).toTable = t.toTable.insertAll named := by
  induction named generalizing t with
  | nil => rfl
  | cons head named ih =>
    have hstep := ih (h.insert head.1 head.2)
    rw [h.toTable_insert] at hstep
    exact hstep

/-- **What insertions make of the table without entries.** They make the table that is made without
an index, and look-ups through the index find what is found by going through the entries. Its names
are distinct and stand in the order in which they were first inserted. The index leads from each of
them to its place, and from nothing else anywhere. Beside a name stands what was inserted for it
last. One more insertion changes the place of its own name and no other place. -/
theorem insertAll_empty_consistent (named : List (String × Entry)) :
    let t := empty.insertAll named
    t.toTable = Table.empty.insertAll named ∧
    (∀ name, t.toTable.index? name = t.index[name]? ∧ t.toTable.find? name = t.find? name) ∧
    t.toTable.names.Nodup ∧
    t.toTable.names = (named.map (·.1)).eraseDups ∧
    (∀ name i, t.index[name]? = some i ↔ t.nameAt? i = some name) ∧
    (∀ name entry, (name, entry) ∈ t.entries ↔ named.reverse.lookup name = some entry) ∧
    ∀ name entry,
      (∀ j, (t.insert name entry).entries[j]? =
        if j = t.place name then some (name, entry) else t.entries[j]?) ∧
      ∀ other, (t.insert name entry).index[other]? =
        if other = name then some (t.place name) else t.index[other]? := by
  intro t
  have h : t.Consistent := consistent_empty.insertAll named
  have htable : t.toTable = Table.empty.insertAll named := consistent_empty.toTable_insertAll named
  refine ⟨htable, fun name => ⟨h.index?_toTable name, h.find?_toTable name⟩, h.nodup_names, ?order,
    h, fun name entry => ?last, fun name entry => ?insertion⟩
  case order => rw [htable, Table.names_insertAll_empty]
  case last =>
    rw [← Table.find?_insertAll_empty, ← htable, ← Array.mem_toList_iff]
    refine ⟨Table.find?_of_mem h.nodup_names, fun hfind => ?_⟩
    rw [Table.find?_eq_lookup] at hfind
    exact mem_of_lookup hfind
  case insertion => exact ⟨h.entries_insert name entry, t.index_insert name entry⟩

end IndexedTable

end SignalLab
