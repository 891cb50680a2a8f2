import Mathlib.Data.List.Forall2
import SignalLab.Market.Archive
import SignalLab.Proofs.First

/-!
# What the rows of a market file record

A row records a bar if its first six fields are a date and five numbers (`Records`), and otherwise the
first of them that is missing or unreadable is at fault (`Misread`). So a file either records one bar
for each of its rows (`barsFrom_eq_ok_iff`), or it is refused because of the first row that records
none, whatever the rows behind it are (`fits_barsFrom`).
-/

namespace SignalLab.Archive

variable {line : ℕ} {fields : List String} {b : Bar} {fault : Fault}

/-! ## Columns -/

/-- The columns that are read, by their places and names. -/
def columns : List (ℕ × String) :=
  [(0, "date"), (1, "open"), (2, "high"), (3, "low"), (4, "close"), (5, "volume")]

/-- What is wrong with the field of a column: there is none, or it is not what the column holds. -/
inductive Misread (line : ℕ) (fields : List String) : ℕ × String → Fault → Prop
  | missing {i : ℕ} {column : String} (hnone : fields[i]? = none) :
      Misread line fields (i, column) (.missingColumn line column)
  | date {column field : String} {fault : DateFault} (hfield : fields[0]? = some field)
      (hfault : Date.ofText (Text.trim field) = .error fault) :
      Misread line fields (0, column) (.badDate line (Text.trim field) fault)
  | number {i : ℕ} {column field : String} {fault : Decimal.FloatFault} (hplace : i ≠ 0)
      (hfield : fields[i]? = some field)
      (hfault : Decimal.readFloat (Text.trim field) = .error fault) :
      Misread line fields (i, column) (.badNumber line column (Text.trim field) fault)

/-- A field holds a number, perhaps between blanks. -/
def Holds (fields : List String) (i : ℕ) (x : Float) : Prop :=
  ∃ field, fields[i]? = some field ∧ Decimal.readFloat (Text.trim field) = .ok x

/-- The fields of a row are those of a bar. -/
structure Records (fields : List String) (b : Bar) : Prop where
  date : ∃ field, fields[0]? = some field ∧ Date.ofText (Text.trim field) = .ok b.date
  opening : Holds fields 1 b.opening
  high : Holds fields 2 b.high
  low : Holds fields 3 b.low
  closing : Holds fields 4 b.closing
  volume : Holds fields 5 b.volume

/-- Only one thing is wrong with a field. -/
theorem Misread.unique {place : ℕ × String} {fault fault' : Fault}
    (h : Misread line fields place fault) (h' : Misread line fields place fault') :
    fault = fault' := by
  cases h <;> cases h' <;> simp_all

/-! ## Fields -/

/-- Reads the field of a column, and says what is wrong with it. -/
def reading {ε α : Type} (line : ℕ) (fields : List String) (i : ℕ) (column : String)
    (read : String → Except ε α) (blame : String → ε → Fault) : Except Fault α :=
  fieldOf line fields i column >>= fun text => (read text).mapError (blame text)

section

variable {ε α : Type} {i : ℕ} {column : String} {read : String → Except ε α}
  {blame : String → ε → Fault}

/-- A field is missing, unreadable or read. -/
theorem reading_cases (line : ℕ) (fields : List String) (i : ℕ) (column : String)
    (read : String → Except ε α) (blame : String → ε → Fault) :
    (fields[i]? = none ∧
      reading line fields i column read blame = .error (.missingColumn line column)) ∨
    (∃ field fault, fields[i]? = some field ∧ read (Text.trim field) = .error fault ∧
      reading line fields i column read blame = .error (blame (Text.trim field) fault)) ∨
    (∃ field x, fields[i]? = some field ∧ read (Text.trim field) = .ok x ∧
      reading line fields i column read blame = .ok x) := by
  rw [reading, fieldOf]
  rcases hfield : fields[i]? with _ | field
  · exact .inl ⟨rfl, rfl⟩
  · rcases hread : read (Text.trim field) with fault | x
    · refine .inr (.inl ⟨field, fault, rfl, hread, ?_⟩)
      simp only [bind, Except.bind, hread, Except.mapError]
    · refine .inr (.inr ⟨field, x, rfl, hread, ?_⟩)
      simp only [bind, Except.bind, hread, Except.mapError]

theorem reading_eq_ok_iff {x : α} : reading line fields i column read blame = .ok x ↔
    ∃ field, fields[i]? = some field ∧ read (Text.trim field) = .ok x := by
  rcases reading_cases line fields i column read blame with
    ⟨hnone, h⟩ | ⟨field, fault, hfield, hread, h⟩ | ⟨field, y, hfield, hread, h⟩
  · simp [h, hnone]
  · simp [h, hfield, hread]
  · simp [h, hfield, hread]

end

theorem dateOf_eq_reading (line : ℕ) (fields : List String) :
    dateOf line fields = reading line fields 0 "date" Date.ofText (.badDate line) := by
  rw [dateOf, reading]
  congr 1
  funext text
  rcases Date.ofText text with fault | date
  · rfl
  · rfl

theorem numberOf_eq_reading (line : ℕ) (fields : List String) (i : ℕ) (column : String) :
    numberOf line fields i column =
      reading line fields i column Decimal.readFloat (.badNumber line column) := by
  rw [numberOf, reading]
  congr 1
  funext text
  rcases Decimal.readFloat text with fault | x
  · rfl
  · rfl

/-- The first column is a date or at fault. -/
theorem fits_dateOf (line : ℕ) (fields : List String) :
    Fits (Misread line fields) [(0, "date")] (dateOf line fields) := by
  rw [dateOf_eq_reading]
  rcases reading_cases line fields 0 "date" Date.ofText (.badDate line) with
    ⟨hnone, h⟩ | ⟨field, fault, hfield, hread, h⟩ | ⟨field, date, hfield, hread, h⟩
  · rw [h]
    exact First.here (.missing hnone) []
  · rw [h]
    exact First.here (.date hfield hread) []
  · rw [h]
    refine clean_singleton_iff.mpr fun fault hmisread => ?_
    cases hmisread with
    | missing hnone => simp_all
    | date hfield' hfault => simp_all
    | number hplace => exact hplace rfl

/-- Any other column is a number or at fault. -/
theorem fits_numberOf (line : ℕ) (fields : List String) {i : ℕ} (hplace : i ≠ 0) (column : String) :
    Fits (Misread line fields) [(i, column)] (numberOf line fields i column) := by
  rw [numberOf_eq_reading]
  rcases reading_cases line fields i column Decimal.readFloat (.badNumber line column) with
    ⟨hnone, h⟩ | ⟨field, fault, hfield, hread, h⟩ | ⟨field, x, hfield, hread, h⟩
  · rw [h]
    exact First.here (.missing hnone) []
  · rw [h]
    exact First.here (.number hplace hfield hread) []
  · rw [h]
    refine clean_singleton_iff.mpr fun fault hmisread => ?_
    cases hmisread with
    | missing hnone => simp_all
    | date => exact hplace rfl
    | number _ hfield' hfault => simp_all

theorem dateOf_eq_ok_iff {date : Date} :
    dateOf line fields = .ok date ↔
      ∃ field, fields[0]? = some field ∧ Date.ofText (Text.trim field) = .ok date := by
  rw [dateOf_eq_reading, reading_eq_ok_iff]

theorem numberOf_eq_ok_iff {i : ℕ} {column : String} {x : Float} :
    numberOf line fields i column = .ok x ↔ Holds fields i x := by
  rw [numberOf_eq_reading, reading_eq_ok_iff, Holds]

/-! ## Rows -/

/-- **The first bad field of a row decides**, in the order of the columns. -/
theorem fits_barOf (line : ℕ) (fields : List String) :
    Fits (Misread line fields) columns (barOf line fields) := by
  have hnumber {i : ℕ} (hplace : i ≠ 0) (column : String) :=
    fits_numberOf line fields hplace column
  rw [barOf]
  refine (fits_dateOf line fields).bind fun date _ => ?_
  refine (hnumber (i := 1) (by omega) "open").bind fun opening _ => ?_
  refine (hnumber (i := 2) (by omega) "high").bind fun high _ => ?_
  refine (hnumber (i := 3) (by omega) "low").bind fun low _ => ?_
  refine (hnumber (i := 4) (by omega) "close").bind fun closing _ => ?_
  refine (hnumber (i := 5) (by omega) "volume").bind fun volume _ => ?_
  exact Clean.nil

theorem barOf_eq_ok_iff : barOf line fields = .ok b ↔ Records fields b := by
  simp only [barOf, bind_eq_ok_iff, dateOf_eq_ok_iff, numberOf_eq_ok_iff]
  constructor
  · rintro ⟨date, hdate, opening, hopening, high, hhigh, low, hlow, closing, hclosing, volume,
      hvolume, ⟨⟩⟩
    exact ⟨hdate, hopening, hhigh, hlow, hclosing, hvolume⟩
  · rintro ⟨hdate, hopening, hhigh, hlow, hclosing, hvolume⟩
    exact ⟨_, hdate, _, hopening, _, hhigh, _, hlow, _, hclosing, _, hvolume, rfl⟩

/-! ## Files -/

/-- A row of a table records a bar. -/
def Recorded (row : Except Csv.LengthFault (List String)) (b : Bar) : Prop :=
  ∃ fields, row = .ok fields ∧ Records fields b

/-- What is wrong with the row that has a number: its length, or else the first bad field. -/
inductive Refused : Except Csv.LengthFault (List String) × ℕ → Fault → Prop
  | length (fault : Csv.LengthFault) (line : ℕ) : Refused (.error fault, line) (.badRecord fault)
  | field {fields : List String} {line : ℕ} {fault : Fault}
      (hfirst : First (Misread line fields) columns fault) : Refused (.ok fields, line) fault

theorem Refused.unique {row : Except Csv.LengthFault (List String) × ℕ} {fault fault' : Fault}
    (h : Refused row fault) (h' : Refused row fault') : fault = fault' := by
  cases h with
  | length => cases h'; rfl
  | field hfirst =>
    cases h' with
    | field hfirst' => exact hfirst.unique hfirst' fun _ _ _ => Misread.unique

/-- A file records one bar for each of its rows, if it records any. -/
theorem barsFrom_eq_ok_iff {rows : List (Except Csv.LengthFault (List String))} {bars : List Bar} :
    barsFrom line rows = .ok bars ↔ List.Forall₂ Recorded rows bars := by
  induction rows generalizing line bars with
  | nil =>
    rw [barsFrom, List.forall₂_nil_left_iff]
    exact ⟨fun h => by cases h; rfl, fun h => by rw [h]⟩
  | cons row rest ih =>
    rcases row with fault | fields
    · rw [barsFrom, List.forall₂_cons_left_iff]
      constructor
      · rintro ⟨⟩
      · rintro ⟨b, _, ⟨_, ⟨⟩, _⟩, _⟩
    · simp only [barsFrom, bind_eq_ok_iff, barOf_eq_ok_iff, ih, List.forall₂_cons_left_iff]
      constructor
      · rintro ⟨b, hb, bars, hbars, ⟨⟩⟩
        exact ⟨b, bars, ⟨fields, rfl, hb⟩, hbars, rfl⟩
      · rintro ⟨b, bars, ⟨_, ⟨⟩, hb⟩, hbars, rfl⟩
        exact ⟨b, hb, bars, hbars, rfl⟩

/-- What fits the columns of a row fits the row. -/
theorem fits_row {answer : Except Fault Bar} (h : Fits (Misread line fields) columns answer) :
    Fits Refused [(.ok fields, line)] answer := by
  rcases answer with fault | b
  · exact First.here (.field h) []
  · refine clean_singleton_iff.mpr fun fault hrefused => ?_
    cases hrefused with
    | field hfirst => exact hfirst.not_clean h

/-- **The first bad row of a file decides**, in the order of the file. -/
theorem fits_barsFrom (line : ℕ) (rows : List (Except Csv.LengthFault (List String))) :
    Fits Refused (rows.zipIdx line) (barsFrom line rows) := by
  induction rows generalizing line with
  | nil => exact Clean.nil
  | cons row rest ih =>
    rw [List.zipIdx_cons]
    rcases row with fault | fields
    · exact First.here (.length fault line) _
    · refine (fits_row (fits_barOf line fields)).bind fun b _ => ?_
      have hrest := (ih (line + 1)).bind (f := fun bars => .ok (b :: bars)) fun _ _ => Clean.nil
      rwa [List.append_nil] at hrest

end SignalLab.Archive
