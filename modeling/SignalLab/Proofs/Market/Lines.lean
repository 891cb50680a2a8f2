import SignalLab.Proofs.Csv.Lines
import SignalLab.Proofs.Market.Latest

/-!
# The lines that faults name

A row that is missing a column, or has a bad date or a bad number in it, is named by its number, the
header being number one. That is the number of the line on which it begins only if each row before it
stands on a line of its own (`fetch_names_row`). Empty lines are no rows, and a field in quotes may go
on over several lines; the line on which a bad row begins is behind its number by both of them
(`fetch_namesLineBefore`).

Whatever the fault is, its text says where it lies and then what is wrong (`Fault.message_eq`).
-/

namespace SignalLab.Archive

variable {fault : Fault} {fields : List String} {n : ℕ} {text : String}

/-! ## The texts of faults -/

/-- Where a fault lies: in a row, in the records, or at a path. -/
def Fault.place : Fault → String
  | .missingColumn line _ | .badDate line _ _ | .badNumber line _ _ _ => "line " ++ toString line
  | .badRecord _ => "CSV parse error"
  | .unreadable path _ => "failed to read " ++ path
  | .unlisted path _ => "failed to read directory " ++ path

/-- What is wrong there. -/
def Fault.what : Fault → String
  | .missingColumn _ column => "missing " ++ column ++ " column"
  | .badDate _ text fault => "invalid date '" ++ text ++ "': " ++ fault.message
  | .badNumber _ column text fault =>
    "invalid " ++ column ++ " value '" ++ text ++ "': " ++ fault.message
  | .badRecord fault => fault.message
  | .unreadable _ fault | .unlisted _ fault => fault.message

/-- The text of a fault says where it lies and then what is wrong. -/
theorem Fault.message_eq (fault : Fault) : fault.message = fault.place ++ ": " ++ fault.what := by
  cases fault with
  | missingColumn line column =>
    change "line " ++ toString line ++ (": " ++ "missing ") ++ column ++ " column" =
      "line " ++ toString line ++ ": " ++ ("missing " ++ column ++ " column")
    simp only [String.append_assoc]
  | badDate line text fault =>
    change "line " ++ toString line ++ (": " ++ "invalid date '") ++ text ++ "': " ++ fault.message =
      "line " ++ toString line ++ ": " ++ ("invalid date '" ++ text ++ "': " ++ fault.message)
    simp only [String.append_assoc]
  | badNumber line column text fault =>
    change "line " ++ toString line ++ (": " ++ "invalid ") ++ column ++ " value '" ++ text ++
        "': " ++ fault.message =
      "line " ++ toString line ++ ": " ++
        ("invalid " ++ column ++ " value '" ++ text ++ "': " ++ fault.message)
    simp only [String.append_assoc]
  | badRecord fault => rfl
  | unreadable path fault => rfl
  | unlisted path fault => rfl

/-- The line that a fault names. -/
def Fault.line? : Fault → Option ℕ
  | .missingColumn line _ | .badDate line _ _ | .badNumber line _ _ _ => some line
  | .unreadable .. | .badRecord _ | .unlisted .. => none

theorem Fault.place_of_line? (h : fault.line? = some n) : fault.place = "line " ++ toString n := by
  cases fault <;> cases h <;> rfl

/-- The text of a fault begins with the line that it names. -/
theorem Fault.message_of_line? (h : fault.line? = some n) :
    ∃ what, fault.message = "line " ++ toString n ++ ": " ++ what :=
  ⟨fault.what, by rw [fault.message_eq, place_of_line? h]⟩

theorem Misread.line?_eq {place : ℕ × String} (h : Misread n fields place fault) :
    fault.line? = some n := by
  cases h <;> rfl

/-! ## Rows and records -/

/-- A row is a record behind the header. -/
theorem exists_record_of_row {i : ℕ} (h : (Csv.rows text)[i]? = some (.ok fields)) :
    ∃ record, (Csv.records text)[i + 1]? = some record ∧ record.fields = fields := by
  rw [Csv.rows] at h
  split at h
  · cases h
  · next header rest hrecords =>
    rw [List.getElem?_mapIdx, Option.map_eq_some_iff] at h
    obtain ⟨record, hrecord, hrow⟩ := h
    split_ifs at hrow
    cases hrow
    exact ⟨record, by rw [hrecords, List.getElem?_cons_succ, hrecord], rfl⟩

/-- The first bad row is that record whose number is the line that its fault names. -/
theorem exists_record_of_line? (h : First Refused ((Csv.rows text).zipIdx firstLine) fault)
    (hline : fault.line? = some n) :
    ∃ i record, n = i + 1 ∧ (Csv.records text)[i]? = some record ∧
      First (Misread n record.fields) columns fault := by
  obtain ⟨before, ⟨row, line⟩, after, hsplit, -, hrefused⟩ := h
  cases hrefused with
  | length lengthFault => cases hline
  | @field fields _ _ hfirst =>
    obtain ⟨before', place, after', hcolumns, hclean, hmisread⟩ := hfirst
    have hn : line = n := Option.some.inj (hmisread.line?_eq.symm.trans hline)
    have hrow : ((Csv.rows text).zipIdx firstLine)[before.length]? = some (.ok fields, line) := by
      rw [hsplit, List.getElem?_append_right (Nat.le_refl _), Nat.sub_self,
        List.getElem?_cons_zero]
    rw [List.getElem?_zipIdx, Option.map_eq_some_iff] at hrow
    obtain ⟨row, hrow, hplace⟩ := hrow
    cases hplace
    obtain ⟨record, hrecord, rfl⟩ := exists_record_of_row hrow
    refine ⟨before.length + 1, record, ?_, hrecord, before', place, after', hcolumns, ?_, ?_⟩
    · rw [← hn, firstLine]
      omega
    · rwa [← hn]
    · rwa [← hn]

/-- There is no history if the rows of the file stop at a fault. -/
theorem historyOf_eq_error_iff {limit : ℕ} :
    historyOf text limit = .error fault ↔ barsFrom firstLine (Csv.rows text) = .error fault := by
  rw [historyOf, barsOf]
  rcases barsFrom firstLine (Csv.rows text) with fault' | bars
  · simp only [Except.map, Except.error.injEq]
  · simp only [Except.map, reduceCtorEq]

/-- The rows of a file may be seen to stop at a fault without a look at the bars in front of it. -/
theorem historyOf_of_stops
    (h : (barsFrom firstLine (Csv.rows text)).map (fun _ => ()) = .error fault) (limit : ℕ) :
    historyOf text limit = .error fault := by
  refine historyOf_eq_error_iff.mpr ?_
  rcases hbars : barsFrom firstLine (Csv.rows text) with fault' | bars
  · rw [hbars] at h
    cases h
    rfl
  · rw [hbars] at h
    cases h

/-- **A fault names the number of its row.** If a request fails because of a missing column, a bad date
or a bad number, the message begins with the line that the fault names, and that is the number of the
record at fault, the header being number one. The record begins at one place in the file, on a line
that is behind this number by the empty lines and the line ends in quotes in front of it; so the line
is named where there are none, and only there. -/
theorem fetch_names_row {folder : String} {r : Request} {scene : Scene}
    (hfile : scene.disk.readText scene.working (pathOf folder r.instrument) = .ok text)
    (hfault : historyOf text r.limit = .error fault) (hline : fault.line? = some n) :
    (∃ what, answer folder r scene = .error (.data ("line " ++ toString n ++ ": " ++ what))) ∧
    ∃ i record front, n = i + 1 ∧ (Csv.records text)[i]? = some record ∧
      First (Misread n record.fields) columns fault ∧
      Csv.Begins text i front ∧ (∀ front', Csv.Begins text i front' → front' = front) ∧
      Csv.lineEnds front + 1 = n + Csv.emptyLines text front + Csv.quotedLineEnds text front := by
  constructor
  · obtain ⟨what, hmessage⟩ := Fault.message_of_line? hline
    refine ⟨what, ?_⟩
    rw [answer_eq hfile, hfault, ← hmessage]
    rfl
  · have hfirst : First Refused ((Csv.rows text).zipIdx firstLine) fault :=
      ((fits_barsFrom firstLine _).error_iff fun _ _ _ => Refused.unique).mp
        (historyOf_eq_error_iff.mp hfault)
    obtain ⟨i, record, rfl, hrecord, hmisread⟩ := exists_record_of_line? hfirst hline
    obtain ⟨hlt, -⟩ := List.getElem?_eq_some_iff.mp hrecord
    obtain ⟨front, hbegins⟩ := Csv.exists_begins hlt
    refine ⟨i, record, front, rfl, hrecord, hmisread, hbegins, fun _ h => h.unique hbegins, ?_⟩
    rw [hbegins.lineEnds_eq]
    omega

/-- A file in which an empty line and a row over two lines stand in front of the bad row. -/
theorem fetch_names_row_behindQuotes :
    let front := "date,open,high,low,close,volume,note\r\n\r\n2024-1-2,1,2,1,1,1,\"two\nlines\"\r\n"
    let text := front ++ "2024-1-3,1,2,x,1,1,\r\n"
    let scene : Scene := ⟨⟨[(["BAD.csv"], .file text.toUTF8)]⟩, [], "", ""⟩
    (∃ what, answer "." ⟨"BAD", 10, .daily⟩ scene =
      .error (.data ("line " ++ toString 3 ++ ": " ++ what))) ∧
    Csv.Begins text 2 front.toList ∧ Csv.emptyLines text front.toList = 1 ∧
      Csv.quotedLineEnds text front.toList = 1 ∧ Csv.lineEnds front.toList + 1 = 5 := by
  intro front text scene
  have hfile : scene.disk.readText scene.working (pathOf "." "BAD") = .ok text := by
    decide +kernel
  have hstops : (barsFrom firstLine (Csv.rows text)).map (fun _ => ()) =
      .error (.badNumber 3 "low" "x" .malformed) := by
    decide +kernel
  have hbegins : Csv.Begins text 2 front.toList :=
    ⟨⟨'2', "024-1-3,1,2,x,1,1,\r\n".toList, by decide +kernel⟩, by decide +kernel,
      by decide +kernel⟩
  have hempty : Csv.emptyLines text front.toList = 1 := by decide +kernel
  have hquoted : Csv.quotedLineEnds text front.toList = 1 := by decide +kernel
  clear_value text front scene
  obtain ⟨hanswer, i, record, before, hi, -, -, -, hunique, hends⟩ :=
    fetch_names_row (r := ⟨"BAD", 10, .daily⟩) hfile (historyOf_of_stops hstops 10) rfl
  obtain rfl : i = 2 := by omega
  obtain rfl := hunique front.toList hbegins
  rw [hempty, hquoted] at hends
  exact ⟨hanswer, hbegins, hempty, hquoted, hends⟩

/-- **A fault may name a line before that of its row**: an empty line is not counted. -/
theorem fetch_namesLineBefore :
    let text := "date,open,high,low,close,volume\n\n2024-01-15,1,2,x,1,1\n"
    let front := "date,open,high,low,close,volume\n\n".toList
    let scene : Scene := ⟨⟨[(["X.csv"], .file text.toUTF8)]⟩, [], "", ""⟩
    answer "." ⟨"X", 10, .daily⟩ scene =
        .error (.data "line 2: invalid low value 'x': invalid float literal") ∧
      Csv.Begins text 1 front ∧ Csv.lineEnds front + 1 = 3 := by
  intro text front scene
  have hfile : scene.disk.readText scene.working (pathOf "." "X") = .ok text := by decide +kernel
  have hstops : (barsFrom firstLine (Csv.rows text)).map (fun _ => ()) =
      .error (.badNumber 2 "low" "x" .malformed) := by
    decide +kernel
  have hmessage : (Fault.badNumber 2 "low" "x" .malformed).message =
      "line 2: invalid low value 'x': invalid float literal" := by
    decide +kernel
  have hbegins : Csv.Begins text 1 front :=
    ⟨⟨'2', "024-01-15,1,2,x,1,1\n".toList, by decide +kernel⟩, by decide +kernel, by decide +kernel⟩
  have hends : Csv.lineEnds front + 1 = 3 := by decide +kernel
  clear_value text front scene
  refine ⟨?_, hbegins, hends⟩
  rw [answer_eq (r := ⟨"X", 10, .daily⟩) hfile, historyOf_of_stops hstops, ← hmessage]
  rfl

end SignalLab.Archive
