import Mathlib.Data.List.Nodup
import Mathlib.Data.List.Sort
import Mathlib.Data.String.Basic
import SignalLab.Proofs.Disk.Folders
import SignalLab.Proofs.Market.Latest

/-!
# The instruments of a folder

An archive lists the names before the last dot of whatever in its folder ends in the extension, in
order and each once (`instruments_entries`). The name of an entry and the instrument determine each
other, and the path of the instrument leads back to the entry, so what is listed is there to be read.

A listing does not look at what it lists. A folder with such a name is listed as well, and a request
for its history fails, as it cannot be read (`instruments_listsFolder`).
-/

namespace SignalLab.Archive

variable {name instrument folder : String} {names : List String} {scene : Scene}
  {place : Location}

/-! ## File names -/

/-- The name of the file of an instrument. -/
def fileName (instrument : String) : String := instrument ++ "." ++ extension

/-- A name is cut at its last dot, unless that is its first character or the name is two dots. -/
theorem splitExtension_append {stem behind : String} (hbehind : '.' ∉ behind.toList) :
    Path.splitExtension (stem ++ "." ++ behind) =
      if stem.isEmpty || stem ++ "." ++ behind == ".." then (stem ++ "." ++ behind, none)
      else (stem, some behind) := by
  have hreverse : (stem ++ "." ++ behind).toList.reverse =
      behind.toList.reverse ++ '.' :: stem.toList.reverse := by
    simp
  have htake : (behind.toList.reverse ++ '.' :: stem.toList.reverse).takeWhile (· != '.') =
      behind.toList.reverse := by
    rw [List.takeWhile_append_of_pos fun c hc => ?_, List.takeWhile_cons_of_neg (by simp),
      List.append_nil]
    rw [List.mem_reverse] at hc
    exact bne_iff_ne.mpr fun h => hbehind (h ▸ hc)
  have hdrop : (behind.toList.reverse ++ '.' :: stem.toList.reverse).drop
      (behind.toList.reverse.length + 1) = stem.toList.reverse := by
    rw [← List.drop_drop, List.drop_left, List.drop_one, List.tail_cons]
  simp only [Path.splitExtension, hreverse, htake, hdrop, List.reverse_reverse,
    String.ofList_toList]
  have hempty : stem.toList.isEmpty = stem.isEmpty := by
    rw [Bool.eq_iff_iff, List.isEmpty_iff, String.toList_eq_nil_iff, String.isEmpty_iff]
  rw [hempty]

/-- A name without a dot is not cut. -/
theorem splitExtension_of_no_dot (h : '.' ∉ name.toList) : (Path.splitExtension name).2 = none := by
  have hdrop : (name.toList.reverse.drop
      ((name.toList.reverse.takeWhile (· != '.')).length + 1)) = [] := by
    rw [List.takeWhile_eq_self_iff.mpr fun c hc => ?_, List.drop_eq_nil_iff]
    · exact Nat.le_succ _
    · rw [List.mem_reverse] at hc
      exact bne_iff_ne.mpr fun hdot => h (hdot ▸ hc)
  simp [Path.splitExtension, hdrop]

theorem instrumentOf?_append {stem behind : String} (hbehind : '.' ∉ behind.toList) :
    instrumentOf? (stem ++ "." ++ behind) = some instrument ↔
      stem ≠ "" ∧ behind = extension ∧ stem = instrument := by
  rw [instrumentOf?, splitExtension_append hbehind]
  by_cases hstem : stem = ""
  · simp [hstem]
  · by_cases hdots : stem ++ "." ++ behind = ".."
    · have hextension : behind ≠ extension := by
        rintro rfl
        have hlength := congrArg String.length hdots
        have hthree : extension.length = 3 := by decide
        have htwo : "..".length = 2 := by decide
        rw [String.length_append] at hlength
        omega
      simp [hdots, hextension]
    · have hnot : (stem.isEmpty || stem ++ "." ++ behind == "..") = false := by
        simp [hstem, hdots]
      rw [if_neg (by rw [hnot]; exact Bool.false_ne_true)]
      by_cases hextension : behind = extension <;> simp [hextension, hstem]

/-- A name is that of the file of an instrument if the instrument is what stands before its last dot
and the extension is what stands behind it. -/
theorem instrumentOf?_eq_some_iff :
    instrumentOf? name = some instrument ↔ instrument ≠ "" ∧ name = fileName instrument := by
  have hcsv : '.' ∉ extension.toList := by decide
  constructor
  · intro h
    by_cases hdot : '.' ∈ name.toList
    · obtain ⟨behind, before, hreverse, hbehind⟩ :=
        List.eq_append_cons_of_mem (List.mem_reverse.mpr hdot)
      have hname : name = String.ofList before.reverse ++ "." ++ String.ofList behind.reverse := by
        rw [← String.toList_inj, ← List.reverse_inj, hreverse]
        simp
      rw [hname, instrumentOf?_append (by simpa using hbehind)] at h
      obtain ⟨hne, hextension, rfl⟩ := h
      exact ⟨hne, by rw [hname, hextension, fileName]⟩
    · have hnone := splitExtension_of_no_dot hdot
      rw [instrumentOf?] at h
      split at h
      · simp_all
      · cases h
  · rintro ⟨hne, rfl⟩
    exact (instrumentOf?_append hcsv).mpr ⟨hne, rfl, rfl⟩

/-! ## Listings -/

/-- Different files are those of different instruments. -/
theorem nodup_instrumentsOf (h : names.Nodup) : (instrumentsOf names).Nodup := by
  refine (List.mergeSort_perm _ _).nodup_iff.mpr (h.filterMap fun name name' i hi hi' => ?_)
  rw [(instrumentOf?_eq_some_iff.mp hi).2, (instrumentOf?_eq_some_iff.mp hi').2]

theorem pairwise_instrumentsOf (h : names.Nodup) : (instrumentsOf names).Pairwise (· < ·) := by
  have hsorted : (instrumentsOf names).Pairwise (· ≤ ·) := List.pairwise_mergeSort' _ _
  exact (hsorted.and (nodup_instrumentsOf h)).imp fun ⟨hle, hne⟩ => lt_of_le_of_ne hle hne

theorem mem_instrumentsOf_iff :
    instrument ∈ instrumentsOf names ↔ instrument ≠ "" ∧ fileName instrument ∈ names := by
  rw [instrumentsOf, List.mem_mergeSort, List.mem_filterMap]
  simp only [instrumentOf?_eq_some_iff]
  constructor
  · rintro ⟨name, hname, hne, rfl⟩
    exact ⟨hne, hname⟩
  · rintro ⟨hne, hname⟩
    exact ⟨_, hname, hne, rfl⟩

/-- The answer to a request for the instruments of a folder. -/
def listing (folder : String) (scene : Scene) : Except Failure (List String) :=
  ((instruments folder : StateM Scene _).run scene).1

theorem listing_eq (hplace : scene.disk.locate scene.working folder = .ok place)
    (hfolder : scene.disk.find? place = some .folder) :
    listing folder scene = .ok (instrumentsOf (scene.disk.namesIn place)) := by
  have hnames : (Host.listNames folder : StateM Scene _).run scene =
      pure (.ok (scene.disk.namesIn place), scene) := by
    change (scene.disk.listNames scene.working folder, scene) = _
    rw [Disk.listNames, hplace]
    dsimp only
    rw [hfolder]
    rfl
  rw [listing, instruments, StateT.run_bind, hnames, pure_bind]
  rfl

/-- A request whose file cannot be read is answered with the fault of the disk. -/
theorem answer_of_unreadable {r : Request} {fault : DiskFault}
    (h : scene.disk.readText scene.working (pathOf folder r.instrument) = .error fault) :
    answer folder r scene = .error (Fault.unreadable (pathOf folder r.instrument) fault).failure := by
  have hread : (Host.readText (pathOf folder r.instrument) : StateM Scene _).run scene =
      pure (.error fault, scene) := by
    rw [← h]
    rfl
  rw [answer, fetch, StateT.run_bind, hread, pure_bind]
  rfl

/-- **A folder lists the instruments that have an entry in it**, in order and each once: those names
that with the extension behind them are the name of something in the folder. A listed instrument whose
path does not become too long leads to its entry. If that is a file, it is opened, and all that can be
wrong with it is that it holds no text; if it is a folder, every request for the instrument fails. -/
theorem instruments_entries (hplace : scene.disk.locate scene.working folder = .ok place)
    (hfolder : scene.disk.find? place = some .folder)
    (hnames : ∀ name ∈ scene.disk.namesIn place, Disk.IsEntryName name) :
    ∃ listed, listing folder scene = .ok listed ∧ listed.Pairwise (· < ·) ∧
      (∀ i, i ∈ listed ↔ i ≠ "" ∧ scene.disk.find? (place ++ [fileName i]) ≠ none) ∧
      ∀ i ∈ listed, (pathOf folder i).utf8ByteSize ≤ longestPath →
        (∀ bytes, scene.disk.find? (place ++ [fileName i]) = some (.file bytes) →
          scene.disk.readText scene.working (pathOf folder i) =
            match String.fromUTF8? bytes with
            | none => .error .notText
            | some text => .ok text) ∧
        (scene.disk.find? (place ++ [fileName i]) = some .folder → ∀ limit frequency,
          answer folder ⟨i, limit, frequency⟩ scene =
            .error (Fault.unreadable (pathOf folder i) .isFolder).failure) := by
  have hmem (i : String) : i ∈ instrumentsOf (scene.disk.namesIn place) ↔
      i ≠ "" ∧ scene.disk.find? (place ++ [fileName i]) ≠ none := by
    rw [mem_instrumentsOf_iff, Disk.mem_namesIn_iff]
  refine ⟨_, listing_eq hplace hfolder, pairwise_instrumentsOf (Disk.nodup_namesIn _ _), hmem,
    fun i hi hshort => ?_⟩
  have hname : Disk.IsEntryName (fileName i) := hnames _ (mem_instrumentsOf_iff.mp hi).2
  refine ⟨fun bytes hfile => ?_, fun hinner limit frequency => answer_of_unreadable ?_⟩
  · exact Disk.readText_join hplace hfolder hname hshort hfile
  · exact Disk.readText_join hplace hfolder hname hshort hinner

/-- A folder with two files of instruments, one of them with a dot in its name, a file of nothing but
the extension, a file of another kind and a folder. -/
theorem instruments_entries_mixed :
    let text := "date,open,high,low,close,volume\n"
    let scene : Scene := ⟨⟨[(["data"], .folder), (["data", "X.Y.csv"], .file text.toUTF8),
      (["data", ".csv"], .file text.toUTF8), (["data", "A.csv.txt"], .file text.toUTF8),
      (["data", "A.csv"], .file text.toUTF8), (["data", "Z.csv"], .folder)]⟩, [], "", ""⟩
    (∃ listed, listing "data/" scene = .ok listed ∧ listed.Pairwise (· < ·) ∧ "X.Y" ∈ listed ∧
      "A.csv" ∉ listed ∧ "Z" ∈ listed) ∧
    scene.disk.readText [] (pathOf "data/" "X.Y") = .ok text ∧
    answer "data/" ⟨"Z", 10, .daily⟩ scene =
      .error (Fault.unreadable "data/Z.csv" .isFolder).failure := by
  intro text scene
  have hplace : scene.disk.locate [] "data/" = .ok ["data"] := by decide +kernel
  have hnames : ∀ name ∈ scene.disk.namesIn ["data"], Disk.IsEntryName name := by decide +kernel
  obtain ⟨listed, hlisted, hsorted, hmem, hpaths⟩ := instruments_entries hplace rfl hnames
  have hdotted : "X.Y" ∈ listed := (hmem _).mpr ⟨by decide, Option.some_ne_none _⟩
  have hinner : "Z" ∈ listed := (hmem _).mpr ⟨by decide, Option.some_ne_none _⟩
  have hother : "A.csv" ∉ listed := fun h => ((hmem _).mp h).2 rfl
  refine ⟨⟨listed, hlisted, hsorted, hdotted, hother, hinner⟩, ?_, ?_⟩
  · exact ((hpaths "X.Y" hdotted (by decide)).1 text.toUTF8 rfl).trans
      (by rw [Disk.fromUTF8?_toUTF8])
  · exact (hpaths "Z" hinner (by decide)).2 rfl 10 .daily

/-- **A folder is listed as if it were the file of an instrument**, and cannot be read. -/
theorem instruments_listsFolder :
    let scene : Scene := ⟨⟨[(["data"], .folder), (["data", "A.csv"], .file "date\n".toUTF8),
      (["data", "B.csv"], .folder)]⟩, [], "", ""⟩
    listing "data" scene = .ok ["A", "B"] ∧ scene.disk.find? ["data", "B.csv"] = some .folder ∧
      answer "data" ⟨"B", 10, .daily⟩ scene =
        .error (.data "failed to read data/B.csv: Is a directory (os error 21)") := by
  intro scene
  have hplace : scene.disk.locate [] "data" = .ok ["data"] := by decide +kernel
  have hstems : (scene.disk.namesIn ["data"]).filterMap instrumentOf? = ["A", "B"] := by
    decide +kernel
  have hread : scene.disk.readText [] (pathOf "data" "B") = .error .isFolder := by decide +kernel
  have hfailure : (Fault.unreadable "data/B.csv" .isFolder).failure =
      .data "failed to read data/B.csv: Is a directory (os error 21)" := by
    decide +kernel
  refine ⟨?_, rfl, ?_⟩
  · rw [listing_eq hplace rfl, instrumentsOf, hstems, List.mergeSort_of_pairwise (by decide)]
  · rw [← hfailure]
    exact answer_of_unreadable hread

end SignalLab.Archive
