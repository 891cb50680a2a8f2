import Mathlib.Tactic.SplitIfs
import SignalLab.Disk

/-!
# What is written can be read back

Writing a file puts it at one location, and nothing else on the disk changes (`find?_put_of_ne`). A path
that leads somewhere leads there still, for folders stay folders and nothing goes away. So the path of
the file that has been written leads to it, and its text is what was written (`readText_put`).
-/

namespace SignalLab.Disk

variable {d : Disk} {place here there : Location} {c : Content}
  {names : List String}

/-! ## Looking up what has been put -/

/-- A location that has something other than a folder on it is not the root. -/
theorem ne_nil_of_find? (h : d.find? place ≠ some .folder) : place ≠ [] := by
  rintro rfl
  exact h rfl

theorem find?_put_self (d : Disk) (hplace : place ≠ []) (c : Content) :
    (d.put place c).find? place = some c := by
  rw [find?, if_neg (by simpa using hplace), put, List.lookup_cons_self]

/-- What stands elsewhere is left alone. -/
theorem find?_put_of_ne (d : Disk) (h : there ≠ place) (c : Content) :
    (d.put place c).find? there = d.find? there := by
  have hlookup : ∀ entries : List (Location × Content),
      (entries.filter (·.1 != place)).lookup there = entries.lookup there := by
    intro entries
    induction entries with
    | nil => rfl
    | cons entry rest ih =>
      by_cases hentry : entry.1 = place
      · have hne : (there == entry.1) = false := by simpa [hentry] using h
        rw [List.filter_cons_of_neg (by simpa using hentry), ih, List.lookup_cons, hne]
      · rw [List.filter_cons_of_pos (by simpa using hentry), List.lookup_cons, List.lookup_cons, ih]
  have hne : (there == place) = false := by simpa using h
  rw [find?, find?, put, List.lookup_cons, hne, hlookup]

/-! ## Following paths on a disk with more on it -/

/-- A disk has at least what another one has: folders stay, and nothing goes away. -/
structure Extends (e d : Disk) : Prop where
  folder : ∀ place, d.find? place = some .folder → e.find? place = some .folder
  present : ∀ place, d.find? place ≠ none → e.find? place ≠ none

/-- Putting something where no folder stands takes nothing away. -/
theorem extends_put (h : d.find? place ≠ some .folder) (c : Content) :
    (d.put place c).Extends d := by
  have hplace := ne_nil_of_find? h
  refine ⟨fun there hthere => ?_, fun there hthere => ?_⟩
  · have hne : there ≠ place := by
      rintro rfl
      exact h hthere
    rw [find?_put_of_ne d hne, hthere]
  · by_cases hsame : there = place
    · rw [hsame, find?_put_self d hplace]
      exact Option.some_ne_none c
    · rwa [find?_put_of_ne d hsame]

/-- A step leads somewhere only from a folder. -/
theorem folder_of_step {name : String} (h : d.step here name = .ok there) :
    d.find? here = some .folder := by
  unfold step at h
  split at h
  · cases h
  · cases h
  · assumption

/-- A step that leads somewhere leads there on a disk with more on it. -/
theorem Extends.step {e : Disk} (hmore : e.Extends d) {name : String}
    (h : d.step here name = .ok there) : e.step here name = .ok there := by
  have hfolder := folder_of_step h
  rw [Disk.step, hfolder] at h
  rw [Disk.step, hmore.folder here hfolder]
  dsimp only at h ⊢
  simp only [Option.isNone_iff_eq_none] at h ⊢
  split_ifs at h ⊢ with hstay hup hlong hmissing hmissing'
  · exact h
  · exact h
  · exact absurd hmissing (hmore.present _ hmissing')
  · exact h

theorem Extends.follow {e : Disk} (hmore : e.Extends d)
    (h : d.follow here names = .ok there) : e.follow here names = .ok there := by
  induction names generalizing here with
  | nil => exact h
  | cons name rest ih =>
    rw [Disk.follow] at h ⊢
    split at h
    · cases h
    · next hstep =>
      rw [hmore.step hstep]
      exact ih h

/-- Some names and then some more are followed one after the other. -/
theorem follow_append (h : d.follow here names = .ok there) (more : List String) :
    d.follow here (names ++ more) = d.follow there more := by
  induction names generalizing here with
  | nil =>
    cases h
    rfl
  | cons name rest ih =>
    rw [follow] at h
    rw [List.cons_append, follow]
    rcases hstep : d.step here name with fault | next
    · rw [hstep] at h
      cases h
    · rw [hstep] at h
      exact ih h

/-! ## Where new files go -/

/-- A name that a file can have, and that leads to it. -/
structure IsFileName (name : String) : Prop where
  ne_empty : name ≠ ""
  ne_dot : name ≠ "."
  ne_dots : name ≠ ".."
  le_longest : name.utf8ByteSize ≤ longestName

theorem step_of_isFileName {name : String} (hname : IsFileName name)
    (hfolder : d.find? here = some .folder) (hpresent : d.find? (here ++ [name]) ≠ none) :
    d.step here name = .ok (here ++ [name]) := by
  rw [step, hfolder]
  dsimp only
  rw [if_neg (not_or.mpr ⟨hname.ne_empty, hname.ne_dot⟩), if_neg hname.ne_dots,
    if_neg (Nat.not_lt.mpr hname.le_longest), if_neg (by simpa using hpresent)]

/-- A new file goes into the folder that all but the last name of its path lead to, where no folder
stands. -/
theorem locateNew_cases {working : Location} {path : String}
    (h : d.locateNew working path = .ok place) :
    pathFault? path = none ∧ d.find? place ≠ some .folder ∧
      ∃ before folder name, namesOf path = before ++ [name] ∧ IsFileName name ∧
        d.follow (startOf working path) before = .ok folder ∧
        d.find? folder = some .folder ∧ place = folder ++ [name] := by
  unfold locateNew at h
  split at h
  · cases h
  next hpath =>
  dsimp only at h
  split at h
  · cases h
  next last before hnames =>
  split at h
  · cases h
  next folder hfollow =>
  split at h
  case h_2 => cases h
  next hfolder =>
  split_ifs at h with hname hlong
  split at h
  · cases h
  next hfree =>
  cases h
  -- no empty name stands behind the last one, so it is the last of all
  obtain ⟨htrailing, hdot, hdots⟩ : ((namesOf path).reverse.takeWhile (· == "")) = [] ∧
      last ≠ "." ∧ last ≠ ".." := by
    simpa using hname
  rw [htrailing, List.length_nil, List.drop_zero] at hnames
  have hall : namesOf path = before.reverse ++ [last] := by
    rw [← List.reverse_cons, ← hnames, List.reverse_reverse]
  have hempty : last ≠ "" := by
    rintro rfl
    rw [hnames] at htrailing
    simp at htrailing
  exact ⟨hpath, fun hstands => hfree hstands, before.reverse, folder, last, hall,
    ⟨hempty, hdot, hdots, Nat.le_of_not_lt hlong⟩, hfollow, hfolder, rfl⟩

/-- The path of a new file leads to it. -/
theorem locate_put {working : Location} {path : String}
    (h : d.locateNew working path = .ok place) (c : Content) :
    (d.put place c).locate working path = .ok place := by
  obtain ⟨hpath, hfree, before, folder, name, hnames, hname, hbefore, hfolder, rfl⟩ :=
    locateNew_cases h
  have hmore := extends_put hfree c
  have hpresent : (d.put (folder ++ [name]) c).find? (folder ++ [name]) ≠ none := by
    rw [find?_put_self d (ne_nil_of_find? hfree)]
    exact Option.some_ne_none c
  rw [locate, hpath]
  dsimp only
  rw [hnames, follow_append (hmore.follow hbefore), follow,
    step_of_isFileName hname (hmore.folder folder hfolder) hpresent]
  rfl

/-! ## Texts -/

/-- A text is read back from its bytes. -/
theorem fromUTF8?_toUTF8 (text : String) : String.fromUTF8? text.toUTF8 = some text := by
  have hvalid : text.toUTF8.IsValidUTF8 := text.isValidUTF8
  rw [String.fromUTF8?, dif_pos hvalid]
  rfl

/-- Of a file that holds the bytes of a text, the text is read. -/
theorem readText_of_file {working : Location} {path text : String} (place : Location)
    (hplace : d.locate working path = .ok place)
    (hfile : d.find? place = some (.file text.toUTF8)) : d.readText working path = .ok text := by
  rw [readText, hplace]
  dsimp only
  rw [hfile]
  dsimp only
  rw [fromUTF8?_toUTF8]

/-- **What has been written to a path is read from it.** -/
theorem readText_put {working : Location} {path : String}
    (h : d.locateNew working path = .ok place) (text : String) :
    (d.put place (.file text.toUTF8)).readText working path = .ok text :=
  readText_of_file place (locate_put h _)
    (find?_put_self d (ne_nil_of_find? (locateNew_cases h).2.1) _)

end SignalLab.Disk
