import Mathlib.Data.List.Basic
import SignalLab.Disk.Path
import SignalLab.Proofs.Disk.Writing

/-!
# The entries of a folder

What a folder lists is what stands in it, each name once (`mem_namesIn_iff`, `nodup_namesIn`), and what
stands in it is found by joining its name to a path of the folder (`locate_join`), provided that the
path does not become too long. So a joined path can be read if it is that of a file, and only then.

A path of a folder may end with a slash or without one. Its names are followed up to the folder in both
cases, for an empty name behind the last slash stays where it is.
-/

namespace SignalLab.Disk

variable {d : Disk} {place here there working : Location} {folder name : String}

/-! ## What a folder lists -/

theorem find?_concat (d : Disk) (place : Location) (name : String) :
    d.find? (place ++ [name]) = d.entries.lookup (place ++ [name]) := by
  rw [find?, if_neg (by simp)]

/-- The locations directly in a folder are those of a name behind it. -/
theorem name_in_eq_some_iff :
    (if there.dropLast = place then there.getLast? else none) = some name ↔
      place ++ [name] = there := by
  rcases there.eq_nil_or_concat with rfl | ⟨before, last, rfl⟩
  · simp
  · rw [List.concat_eq_append, List.dropLast_concat, List.getLast?_concat, List.append_singleton_inj]
    constructor
    · intro h
      split_ifs at h with hbefore
      exact ⟨hbefore.symm, (Option.some.inj h).symm⟩
    · rintro ⟨rfl, rfl⟩
      rw [if_pos rfl]

/-- A folder lists what stands in it. -/
theorem mem_namesIn_iff : name ∈ d.namesIn place ↔ d.find? (place ++ [name]) ≠ none := by
  rw [namesIn, List.mem_eraseDups, List.mem_filterMap, find?_concat, ← Option.isSome_iff_ne_none,
    List.lookup_isSome_iff]
  simp only [name_in_eq_some_iff, beq_iff_eq]

theorem nodup_eraseDups {α : Type} [BEq α] [LawfulBEq α] (xs : List α) : xs.eraseDups.Nodup := by
  induction hlength : xs.length using Nat.strongRecOn generalizing xs with
  | ind n ih =>
    cases xs with
    | nil => simp
    | cons x xs =>
      have hshorter : (xs.filter fun y => !y == x).length < n := by
        rw [← hlength]
        exact Nat.lt_succ_of_le (List.length_filter_le _ _)
      rw [List.eraseDups_cons, List.nodup_cons]
      exact ⟨by simp, ih _ hshorter _ rfl⟩

/-- A folder lists no name twice. -/
theorem nodup_namesIn (d : Disk) (place : Location) : (d.namesIn place).Nodup :=
  nodup_eraseDups _

/-! ## Names along paths -/

/-- A name of something in a folder, which a path can hold. -/
structure IsEntryName (name : String) : Prop extends IsFileName name where
  no_slash : '/' ∉ name.toList
  no_nul : '\x00' ∉ name.toList

theorem isEntryName_iff : IsEntryName name ↔ (name ≠ "" ∧ name ≠ "." ∧ name ≠ ".." ∧
    name.utf8ByteSize ≤ longestName) ∧ '/' ∉ name.toList ∧ '\x00' ∉ name.toList :=
  ⟨fun h => ⟨⟨h.ne_empty, h.ne_dot, h.ne_dots, h.le_longest⟩, h.no_slash, h.no_nul⟩,
    fun ⟨⟨hempty, hdot, hdots, hlongest⟩, hslash, hnul⟩ =>
      ⟨⟨hempty, hdot, hdots, hlongest⟩, hslash, hnul⟩⟩

instance (name : String) : Decidable (IsEntryName name) := decidable_of_iff' _ isEntryName_iff

/-- The names along a path that goes on behind a slash. -/
theorem namesOf_append (path rest : String) :
    namesOf (path ++ "/" ++ rest) = namesOf path ++ namesOf rest := by
  have hslash : (path ++ "/" ++ rest).toList = path.toList ++ '/' :: rest.toList := by simp
  rw [namesOf, namesOf, namesOf, hslash, List.splitOn_append_cons_self, List.map_append]

theorem namesOf_eq_singleton (h : '/' ∉ name.toList) : namesOf name = [name] := by
  rw [namesOf, List.splitOn_eq_singleton h, List.map_singleton, String.ofList_toList]

/-- Names that lead somewhere lead through where the first of them lead to. -/
theorem exists_follow_of_append {names more : List String}
    (h : d.follow here (names ++ more) = .ok there) :
    ∃ middle, d.follow here names = .ok middle ∧ d.follow middle more = .ok there := by
  induction names generalizing here with
  | nil => exact ⟨here, rfl, h⟩
  | cons name rest ih =>
    rw [List.cons_append, follow] at h
    rw [follow]
    rcases hstep : d.step here name with fault | next
    · rw [hstep] at h
      cases h
    · rw [hstep] at h
      exact ih h

/-! ## Paths into a folder -/

theorem pathFault?_eq_none_iff {path : String} :
    pathFault? path = none ↔
      '\x00' ∉ path.toList ∧ path ≠ "" ∧ path.utf8ByteSize ≤ longestPath := by
  rw [pathFault?]
  split_ifs <;> simp_all

theorem locate_eq_ok_iff {path : String} :
    d.locate working path = .ok place ↔
      pathFault? path = none ∧ d.follow (startOf working path) (namesOf path) = .ok place := by
  rw [locate]
  rcases pathFault? path with _ | fault <;> simp

/-- A name is joined behind a slash, which the path of the folder may have already. -/
theorem join_cases (hfolder : folder ≠ "") (hname : '/' ∉ name.toList) :
    Path.join folder name = folder ++ "/" ++ name ∨
      ∃ before, folder = before ++ "/" ++ "" ∧ Path.join folder name = before ++ "/" ++ name := by
  have hrelative : Path.isAbsolute name = false := by
    rw [Path.isAbsolute, beq_eq_false_iff_ne]
    exact fun h => hname (List.mem_of_head? h)
  have hnonempty : folder.isEmpty = false := by simpa using hfolder
  rw [Path.join, hrelative, hnonempty]
  by_cases hslash : folder.toList.getLast? = some '/'
  · obtain ⟨cs, hcs⟩ := List.getLast?_eq_some_iff.mp hslash
    have hends : folder = String.ofList cs ++ "/" := by
      rw [← String.toList_inj, hcs]
      simp
    refine .inr ⟨String.ofList cs, by rw [hends, String.append_empty], ?_⟩
    simp [hends]
  · refine .inl ?_
    simp [hslash]

theorem startOf_append (hfolder : folder ≠ "") (working : Location) (rest : String) :
    startOf working (folder ++ rest) = startOf working folder := by
  obtain ⟨c, cs, hcs⟩ := List.exists_cons_of_ne_nil (String.toList_eq_nil_iff.not.mpr hfolder)
  rw [startOf, startOf, String.toList_append, hcs, List.cons_append, List.head?_cons,
    List.head?_cons]

/-- An empty name leads nowhere else. -/
theorem eq_of_step_empty (h : d.step here "" = .ok there) : here = there := by
  rw [step, folder_of_step h] at h
  exact Except.ok.inj h

/-- A name joined to a path of a folder is the last one along the path, and those before it lead to
the folder. -/
theorem exists_namesOf_join (hplace : d.locate working folder = .ok place)
    (hname : '/' ∉ name.toList) :
    ∃ before, namesOf (Path.join folder name) = before ++ [name] ∧
      d.follow (startOf working (Path.join folder name)) before = .ok place := by
  obtain ⟨hpath, hfollow⟩ := locate_eq_ok_iff.mp hplace
  obtain ⟨-, hempty, -⟩ := pathFault?_eq_none_iff.mp hpath
  rcases join_cases hempty hname with hjoin | ⟨before, hfolder, hjoin⟩
  · refine ⟨namesOf folder, ?_, ?_⟩
    · rw [hjoin, namesOf_append, namesOf_eq_singleton hname]
    · rw [hjoin, String.append_assoc, startOf_append hempty, hfollow]
  · have hstart : startOf working (Path.join folder name) = startOf working folder := by
      have hslash : before ++ "/" ≠ "" := by simp
      rw [hjoin, hfolder, startOf_append hslash, startOf_append hslash]
    rw [hfolder, namesOf_append, ← hfolder] at hfollow
    obtain ⟨middle, hbefore, hlast⟩ := exists_follow_of_append hfollow
    refine ⟨namesOf before, ?_, ?_⟩
    · rw [hjoin, namesOf_append, namesOf_eq_singleton hname]
    · -- the path of the folder has an empty name behind its slash
      have hstays : middle = place := by
        rw [namesOf_eq_singleton (by simp), follow] at hlast
        rcases hstep : d.step middle "" with fault | next
        · rw [hstep] at hlast
          cases hlast
        · rw [hstep] at hlast
          cases hlast
          exact eq_of_step_empty hstep
      rw [hstart, hbefore, hstays]

/-- **What stands in a folder is found under its name joined to a path of the folder**, unless the
path becomes too long. -/
theorem locate_join (hplace : d.locate working folder = .ok place)
    (hfolder : d.find? place = some .folder) (hname : IsEntryName name)
    (hpresent : d.find? (place ++ [name]) ≠ none)
    (hshort : (Path.join folder name).utf8ByteSize ≤ longestPath) :
    d.locate working (Path.join folder name) = .ok (place ++ [name]) := by
  obtain ⟨before, hnames, hbefore⟩ := exists_namesOf_join hplace hname.no_slash
  have hfault : pathFault? (Path.join folder name) = none := by
    obtain ⟨hnul, hempty, -⟩ := pathFault?_eq_none_iff.mp (locate_eq_ok_iff.mp hplace).1
    refine pathFault?_eq_none_iff.mpr ⟨?_, ?_, hshort⟩
    · rcases join_cases hempty hname.no_slash with hjoin | ⟨front, rfl, hjoin⟩
      · rw [hjoin]
        simp [hnul, hname.no_nul]
      · rw [hjoin]
        simpa [hname.no_nul] using hnul
    · rcases join_cases hempty hname.no_slash with hjoin | ⟨front, -, hjoin⟩
      · rw [hjoin]
        simp
      · rw [hjoin]
        simp
  rw [locate_eq_ok_iff, hnames, follow_append hbefore, follow,
    step_of_isFileName hname.toIsFileName hfolder hpresent]
  exact ⟨hfault, rfl⟩

/-- **A file in a folder is read under its name joined to a path of the folder**, and a folder in it
cannot be read. -/
theorem readText_join (hplace : d.locate working folder = .ok place)
    (hfolder : d.find? place = some .folder) (hname : IsEntryName name)
    (hshort : (Path.join folder name).utf8ByteSize ≤ longestPath) {content : Content}
    (hcontent : d.find? (place ++ [name]) = some content) :
    d.readText working (Path.join folder name) =
      match content with
      | .folder => .error .isFolder
      | .file bytes =>
        match String.fromUTF8? bytes with
        | none => .error .notText
        | some text => .ok text := by
  have hpresent : d.find? (place ++ [name]) ≠ none := by
    rw [hcontent]
    exact Option.some_ne_none _
  rw [readText, locate_join hplace hfolder hname hpresent hshort]
  cases content with
  | folder => simp only [hcontent]
  | file bytes =>
    rcases htext : String.fromUTF8? bytes with _ | text
    · simp only [hcontent, htext]
    · simp only [hcontent, htext]

end SignalLab.Disk
