import SignalLab.Vocabulary.Table

/-!
# Look-ups in tables of entries

`Table.find?` goes through an index and `Table.insert` changes an entry in its place. Both are
brought to the form in which they are reasoned about: a look-up is `List.lookup`, and an insertion
goes down the list to the first entry of its name.

The names of a table are distinct if it was built by insertions alone, and a name then has exactly
the entry that stands beside it.
-/

namespace SignalLab

/-! ## Lists of named things -/

section

variable {β : Type}

/-- One step of `List.lookup`. -/
theorem lookup_cons_pair (head : String × β) (rest : List (String × β)) (name : String) :
    (head :: rest).lookup name = if name = head.1 then some head.2 else rest.lookup name := by
  obtain ⟨first, b⟩ := head
  rw [List.lookup_cons]
  by_cases h : name = first
  · simp [h]
  · rw [if_neg h, beq_eq_false_iff_ne.mpr h]

theorem mem_of_lookup {named : List (String × β)} {name : String} {b : β}
    (h : named.lookup name = some b) : (name, b) ∈ named := by
  rw [List.lookup_eq_some_iff] at h
  obtain ⟨before, after, heq, -⟩ := h
  rw [heq]
  simp

theorem lookup_eq_none_of_not_mem {named : List (String × β)} {name : String}
    (h : name ∉ named.map (·.1)) : named.lookup name = none := by
  rw [List.lookup_eq_none_iff]
  intro p hp
  have hne : name ≠ p.1 := fun he => h (he ▸ List.mem_map_of_mem hp)
  simpa using hne

/-- Where names are distinct, what stands beside a name is what is found for it. -/
theorem lookup_of_mem {named : List (String × β)} (hnames : (named.map (·.1)).Nodup)
    {name : String} {b : β} (h : (name, b) ∈ named) : named.lookup name = some b := by
  obtain ⟨before, after, heq⟩ := List.append_of_mem h
  rw [List.lookup_eq_some_iff]
  refine ⟨before, after, heq, fun p hp => ?_⟩
  rw [heq, List.map_append, List.map_cons, List.nodup_append] at hnames
  have hne := hnames.2.2 p.1 (List.mem_map_of_mem hp) name (by simp)
  simpa using fun he => hne he.symm

end

namespace Table

/-- The names of a table, in order. -/
def names (t : Table) : List String := t.entries.map (·.1)

theorem names_cons (head : String × Entry) (entries : List (String × Entry)) :
    names ⟨head :: entries⟩ = head.1 :: names ⟨entries⟩ := rfl

/-! ## The recursion of look-up and insertion -/

/-- A look-up through the index finds the first entry of a name. -/
theorem find?_eq_lookup (t : Table) (name : String) : t.find? name = t.entries.lookup name := by
  obtain ⟨entries⟩ := t
  induction entries with
  | nil => rfl
  | cons head entries ih =>
    rw [lookup_cons_pair]
    by_cases h : name = head.1
    · simp [find?, index?, List.findIdx?_cons, h]
    · have hne : ¬ head.1 = name := fun he => h he.symm
      rw [if_neg h, ← ih]
      simp only [find?, index?, List.findIdx?_cons, hne, decide_false]
      cases List.findIdx? (fun p => decide (p.1 = name)) entries <;> rfl

theorem insert_nil (name : String) (entry : Entry) :
    (⟨[]⟩ : Table).insert name entry = ⟨[(name, entry)]⟩ := rfl

theorem insert_cons (head : String × Entry) (entries : List (String × Entry)) (name : String)
    (entry : Entry) :
    (⟨head :: entries⟩ : Table).insert name entry =
      if head.1 = name then ⟨(name, entry) :: entries⟩
      else ⟨head :: ((⟨entries⟩ : Table).insert name entry).entries⟩ := by
  by_cases h : head.1 = name
  · simp [insert, index?, List.findIdx?_cons, h]
  · simp only [insert, index?, List.findIdx?_cons, h, decide_false, if_false]
    cases List.findIdx? (fun p => decide (p.1 = name)) entries <;> simp

/-! ## Look-ups after insertions -/

/-- An insertion changes the entry of its own name and of no other. -/
theorem find?_insert (t : Table) (name : String) (entry : Entry) (other : String) :
    (t.insert name entry).find? other = if other = name then some entry else t.find? other := by
  obtain ⟨entries⟩ := t
  simp only [find?_eq_lookup]
  induction entries with
  | nil => rw [insert_nil, lookup_cons_pair]
  | cons head entries ih =>
    rw [insert_cons, lookup_cons_pair head entries]
    by_cases hhead : head.1 = name
    · rw [if_pos hhead, lookup_cons_pair, hhead]
      by_cases hother : other = name
      · rw [if_pos hother, if_pos hother]
      · rw [if_neg hother, if_neg hother, if_neg hother]
    · rw [if_neg hhead, lookup_cons_pair, ih]
      by_cases hother : other = head.1
      · have hne : ¬ other = name := fun he => hhead (hother.symm.trans he)
        rw [if_pos hother, if_neg hne, if_pos hother]
      · rw [if_neg hother, if_neg hother]

/-- In a table of distinct names, what stands beside a name is what is found for it. -/
theorem find?_of_mem {t : Table} (hnames : t.names.Nodup) {name : String} {entry : Entry}
    (h : (name, entry) ∈ t.entries) : t.find? name = some entry := by
  rw [find?_eq_lookup]
  exact lookup_of_mem hnames h

/-! ## The names of a table -/

/-- An insertion keeps the names in order and adds its own behind them if it is new. -/
theorem names_insert (t : Table) (name : String) (entry : Entry) :
    (t.insert name entry).names = if name ∈ t.names then t.names else t.names ++ [name] := by
  obtain ⟨entries⟩ := t
  induction entries with
  | nil => rfl
  | cons head entries ih =>
    rw [insert_cons, names_cons]
    by_cases hhead : head.1 = name
    · rw [if_pos hhead, if_pos (by simp [hhead]), names_cons, hhead]
    · have hne : ¬ name = head.1 := fun he => hhead he.symm
      rw [if_neg hhead, names_cons, ih]
      by_cases hmem : name ∈ names ⟨entries⟩
      · rw [if_pos hmem, if_pos (List.mem_cons_of_mem _ hmem)]
      · rw [if_neg hmem, if_neg (by simp [hne, hmem]), List.cons_append]

/-- Distinct names that are new to a table are inserted behind it as they are. -/
theorem entries_insertAll {t : Table} {named : List (String × Entry)}
    (h : (t.names ++ named.map (·.1)).Nodup) :
    (t.insertAll named).entries = t.entries ++ named := by
  induction named generalizing t with
  | nil => simp [insertAll]
  | cons head named ih =>
    have hnew : head.1 ∉ t.names := by
      intro hmem
      exact (List.nodup_append.mp h).2.2 head.1 hmem head.1 (by simp) rfl
    have hentries : (t.insert head.1 head.2).entries = t.entries ++ [head] := by
      have hnone : t.index? head.1 = none := by
        rw [index?, List.findIdx?_eq_none_iff]
        intro p hp
        have hne : p.1 ≠ head.1 := fun he => hnew (he ▸ List.mem_map_of_mem hp)
        simpa using hne
      rw [insert, hnone]
    have hrest : ((t.insert head.1 head.2).names ++ named.map (·.1)).Nodup := by
      rw [names_insert, if_neg hnew]
      simpa using h
    rw [show t.insertAll (head :: named) = (t.insert head.1 head.2).insertAll named from rfl,
      ih hrest, hentries]
    simp

/-- Distinct names make a table as they are. -/
theorem insertAll_empty {named : List (String × Entry)} (h : (named.map (·.1)).Nodup) :
    empty.insertAll named = ⟨named⟩ := by
  have hentries := entries_insertAll (t := empty) (h : (empty.names ++ named.map (·.1)).Nodup)
  generalize empty.insertAll named = t at hentries
  obtain ⟨entries⟩ := t
  rw [show entries = named from hentries]

end Table

end SignalLab
