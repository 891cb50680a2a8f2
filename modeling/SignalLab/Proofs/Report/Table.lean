import SignalLab.Proofs.Csv.Unquoted
import SignalLab.Proofs.Decimal.Plain
import SignalLab.Proofs.Report.Writing

/-!
# The table of a trial is read back

The file that is written for a trial holds all of it. It is a header and a row for each sample, of
which no field needs quotes, and each number is read back from its field: the zeros with their signs,
the infinities, the smallest numbers and what is not a number (`write_reads_back`). Columns that are
not of one length make no table, and no file is touched.
-/

namespace SignalLab

open Csv (IsUnquoted)

/-! ## Fields -/

namespace Decimal

theorem isUnquoted_toString (n : ℕ) : IsUnquoted (toString n) := fun c hc => by
  rw [toList_toString] at hc
  exact Csv.isOrdinary_of_isDigit (isDigit_toDigits c hc)

/-- The text of a number needs no quotes. -/
theorem isUnquoted_plain (x : Float) : IsUnquoted (plain x) := by
  have hothers : IsUnquoted ".-NaNinf" := by decide
  exact fun c hc => (mem_plain x c hc).elim Csv.isOrdinary_of_isDigit (hothers c)

end Decimal

/-! ## Rows -/

namespace Report

variable {prices positions equity : List Float}

/-- The names of the columns. -/
def columns : List String := ["index", "price", "position", "equity"]

/-- The fields of a row. -/
def fields (index : ℕ) (price position equity : Float) : List String :=
  [toString index, Decimal.plain price, Decimal.plain position, Decimal.plain equity]

/-- The fields of the rows of some samples, of which the first has the given index. -/
def cells (index : ℕ) : List Float → List Float → List Float → List (List String)
  | price :: prices, position :: positions, equity :: rest =>
    fields index price position equity :: cells (index + 1) prices positions rest
  | _, _, _ => []

theorem header_eq : header = Csv.line columns := by decide +kernel

theorem isRow_columns : Csv.IsRow columns := ⟨by decide, "index", _, rfl, by decide⟩

theorem isRow_fields (index : ℕ) (price position equity : Float) :
    Csv.IsRow (fields index price position equity) := by
  refine ⟨?_, toString index, _, rfl, fun h => ?_⟩
  · simp only [fields, List.forall_mem_cons, List.not_mem_nil, false_imp_iff, implies_true, and_true]
    exact ⟨Decimal.isUnquoted_toString _, Decimal.isUnquoted_plain _, Decimal.isUnquoted_plain _,
      Decimal.isUnquoted_plain _⟩
  · have hnil := congrArg String.toList h
    rw [Decimal.toList_toString] at hnil
    exact Nat.toDigits_ne_nil hnil

theorem rows_eq (index : ℕ) (prices positions equity : List Float) :
    rows index prices positions equity = (cells index prices positions equity).map Csv.line := by
  fun_induction cells index prices positions equity with
  | case1 index price prices position positions now equity ih =>
    rw [rows, List.map_cons, ih]
    rfl
  | case2 index prices positions equity hends =>
    rw [rows, List.map_nil]
    exact hends

theorem isRow_of_mem_cells (index : ℕ) (prices positions equity : List Float) :
    ∀ row ∈ cells index prices positions equity, Csv.IsRow row := by
  fun_induction cells index prices positions equity with
  | case1 index price prices position positions now equity ih =>
    exact List.forall_mem_cons.mpr ⟨isRow_fields _ _ _ _, ih⟩
  | case2 => exact fun row hrow => absurd hrow List.not_mem_nil

theorem length_rows (index : ℕ) (hpositions : positions.length = prices.length)
    (hequity : equity.length = prices.length) :
    (rows index prices positions equity).length = prices.length := by
  induction prices generalizing index positions equity with
  | nil =>
    rw [List.eq_nil_of_length_eq_zero hpositions]
    rfl
  | cons price prices ih =>
    obtain ⟨position, positions, rfl⟩ := List.exists_cons_of_length_eq_add_one hpositions
    obtain ⟨now, equity, rfl⟩ := List.exists_cons_of_length_eq_add_one hequity
    rw [rows, List.length_cons, List.length_cons,
      ih (index + 1) (Nat.succ.inj hpositions) (Nat.succ.inj hequity)]

theorem length_cells (index : ℕ) (hpositions : positions.length = prices.length)
    (hequity : equity.length = prices.length) :
    (cells index prices positions equity).length = prices.length := by
  rw [← length_rows index hpositions hequity, rows_eq, List.length_map]

/-- The row of a sample has its index and the numbers of the sample. -/
theorem getElem?_cells (index : ℕ) {i : ℕ} (hprice : i < prices.length)
    (hposition : i < positions.length) (hequity : i < equity.length) :
    (cells index prices positions equity)[i]? =
      some (fields (index + i) prices[i] positions[i] equity[i]) := by
  fun_induction cells index prices positions equity generalizing i with
  | case1 index price prices position positions now equity ih =>
    cases i with
    | zero => rfl
    | succ i =>
      rw [List.getElem?_cons_succ, ih (Nat.lt_of_succ_lt_succ hprice)
        (Nat.lt_of_succ_lt_succ hposition) (Nat.lt_of_succ_lt_succ hequity), Nat.add_right_comm]
      rfl
  | case2 index prices positions equity hends =>
    obtain ⟨price, prices, rfl⟩ := List.exists_cons_of_length_pos (Nat.zero_lt_of_lt hprice)
    obtain ⟨position, positions, rfl⟩ := List.exists_cons_of_length_pos (Nat.zero_lt_of_lt hposition)
    obtain ⟨now, equity, rfl⟩ := List.exists_cons_of_length_pos (Nat.zero_lt_of_lt hequity)
    exact (hends _ _ _ _ _ _ rfl rfl rfl).elim

/-! ## Tables -/

/-- The text of a table is read as its header and its rows. -/
theorem fields_records_table (prices positions equity : List Float) :
    (Csv.records (header ++ String.join (rows 0 prices positions equity))).map Csv.Record.fields =
      columns :: cells 0 prices positions equity := by
  have hrows : ∀ row ∈ columns :: cells 0 prices positions equity, Csv.IsRow row :=
    List.forall_mem_cons.mpr ⟨isRow_columns, isRow_of_mem_cells _ _ _ _⟩
  have hrecords := Csv.fields_records_lines hrows
  rwa [List.map_cons, String.join_cons, ← header_eq, ← rows_eq] at hrecords

/-- A text is read as the table of some columns: as the header and one row for each sample, which has
the number of the sample and three fields from which its price, its position and its equity are read
back. -/
def ReadsAs (text : String) (prices positions equity : List Float) : Prop :=
  ∃ rows, (Csv.records text).map Csv.Record.fields = columns :: rows ∧
    rows.length = prices.length ∧
    ∀ i (_ : i < prices.length) (_ : i < positions.length) (_ : i < equity.length),
      ∃ price position now, rows[i]? = some [toString i, price, position, now] ∧
        Decimal.readFloat price = .ok prices[i] ∧
        Decimal.readFloat position = .ok positions[i] ∧
        Decimal.readFloat now = .ok equity[i]

/-- Columns of one length make a table. -/
theorem table_of_equal (hpositions : positions.length = prices.length)
    (hequity : equity.length = prices.length) :
    table prices positions equity =
      .ok (header ++ String.join (rows 0 prices positions equity)) := by
  simp only [table]
  rw [if_neg (by simp [hpositions, hequity])]

/-- **A table is read back.** -/
theorem readsAs_table (hpositions : positions.length = prices.length)
    (hequity : equity.length = prices.length) :
    ReadsAs (header ++ String.join (rows 0 prices positions equity)) prices positions equity := by
  refine ⟨_, fields_records_table _ _ _, length_cells 0 hpositions hequity,
    fun i hprice hposition hnow => ?_⟩
  refine ⟨_, _, _, ?_, Decimal.readFloat_plain _, Decimal.readFloat_plain _,
    Decimal.readFloat_plain _⟩
  rw [getElem?_cells 0 hprice hposition hnow, Nat.zero_add]
  rfl

/-- Columns of different lengths make no table. -/
theorem write_of_unequal (h : ¬ (positions.length = prices.length ∧ equity.length = prices.length))
    (path : String) (scene : Scene) : ∃ reason,
    (write prices positions equity path : StateM Scene _).run scene =
      (.error (.report reason), scene) := by
  have hlengths : prices.length ≠ equity.length ∨ positions.length ≠ equity.length := by omega
  rw [write, table, if_pos hlengths]
  exact ⟨_, rfl⟩

/-- **What is written is read back.** If there are as many prices as positions and points of the
equity, and the path can be opened, then the file at the path is changed and nothing else. It is read
as the header and one row for each sample, which has the number of the sample and three fields from
which its price, its position and its equity are read back. If there are not as many, the request
fails, and all files stay as they are. The scene is one that keeps all that is written to it; what is
left where some of it is refused is told by `run_write`. -/
theorem write_reads_back (prices positions equity : List Float) (path : String) (scene : Scene) :
    let r := (write prices positions equity path : StateM Scene _).run scene
    (positions.length = prices.length → equity.length = prices.length →
      ∀ place, scene.disk.locateNew scene.working path = .ok place →
        r.1 = .ok () ∧
        (∀ other, other ≠ place → r.2.disk.find? other = scene.disk.find? other) ∧
        ∃ text rows, r.2.disk.readText r.2.working path = .ok text ∧
          (Csv.records text).map Csv.Record.fields = columns :: rows ∧
          rows.length = prices.length ∧
          ∀ i (_ : i < prices.length) (_ : i < positions.length) (_ : i < equity.length),
            ∃ price position now, rows[i]? = some [toString i, price, position, now] ∧
              Decimal.readFloat price = .ok prices[i] ∧
              Decimal.readFloat position = .ok positions[i] ∧
              Decimal.readFloat now = .ok equity[i]) ∧
    (¬ (positions.length = prices.length ∧ equity.length = prices.length) →
      ∃ reason, r = (.error (.report reason), scene)) := by
  intro r
  refine ⟨fun hpositions hequity place hplace => ?_, fun h => write_of_unequal h path scene⟩
  have hrun := run_write (table_of_equal hpositions hequity) path scene
  rw [hplace] at hrun
  have hr : r = _ := hrun
  rw [hr]
  exact ⟨rfl, fun other hother => Disk.find?_put_of_ne _ hother _, _,
    (readsAs_table hpositions hequity).imp fun _ h => ⟨Disk.readText_put hplace _, h⟩⟩

/-- Numbers of every kind in the columns of two samples, and a table that lacks a column. -/
theorem write_reads_back_extremes :
    let prices := [-0.0, Float.ofBits 1]
    let positions := [1.0 / 0.0, -1.0]
    let equity := [0.0 / 0.0, 0.1]
    let scene : Scene := ⟨⟨[(["old"], .file "text".toUTF8)]⟩, [], "", ""⟩
    let r := (write prices positions equity "new" : StateM Scene _).run scene
    (r.1 = .ok () ∧ r.2.disk.find? ["old"] = some (.file "text".toUTF8) ∧
      ∃ text rows, r.2.disk.readText r.2.working "new" = .ok text ∧
        (Csv.records text).map Csv.Record.fields = columns :: rows ∧ rows.length = 2 ∧
        (∃ price position now, rows[0]? = some ["0", price, position, now] ∧
          Decimal.readFloat price = .ok (-0.0) ∧ Decimal.readFloat position = .ok (1.0 / 0.0) ∧
          Decimal.readFloat now = .ok (0.0 / 0.0)) ∧
        ∃ price position now, rows[1]? = some ["1", price, position, now] ∧
          Decimal.readFloat price = .ok (Float.ofBits 1) ∧
          Decimal.readFloat position = .ok (-1.0) ∧ Decimal.readFloat now = .ok 0.1) ∧
    ∃ reason, (write prices positions [] "old" : StateM Scene _).run scene =
      (.error (.report reason), scene) := by
  intro prices positions equity scene
  obtain ⟨hwritten, hothers, text, rows, hread, hrecords, hlength, hrows⟩ :=
    (write_reads_back prices positions equity "new" scene).1 rfl rfl ["new"] (by rfl)
  have hfirst := hrows 0 (by decide) (by decide) (by decide)
  have hsecond := hrows 1 (by decide) (by decide) (by decide)
  refine ⟨⟨hwritten, hothers ["old"] (by decide), text, rows, hread, hrecords, hlength, hfirst,
    hsecond⟩, ?_⟩
  exact (write_reads_back prices positions [] "old" scene).2 (by decide)

end Report

end SignalLab
