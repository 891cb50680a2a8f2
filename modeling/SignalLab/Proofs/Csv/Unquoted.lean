import Mathlib.Data.List.Basic
import SignalLab.Csv

/-!
# Records without quotes

A field that holds no comma, no quote and no line end stands for itself. Records of such fields, one a
line, are read back as they have been written (`fields_records_lines`).
-/

namespace SignalLab.Csv

/-- A character that stands for itself, wherever it stands. -/
def IsOrdinary (c : Char) : Prop :=
  c ≠ ',' ∧ c ≠ '"' ∧ Reader.isLineEnd c = false ∧ c ≠ '\ufeff'

instance (c : Char) : Decidable (IsOrdinary c) := inferInstanceAs (Decidable (_ ∧ _))

theorem isOrdinary_of_isDigit {c : Char} (h : c.isDigit = true) : IsOrdinary c := by
  have hne (c' : Char) (h' : c'.isDigit = false) : c ≠ c' := by
    rintro rfl
    exact Bool.false_ne_true (h'.symm.trans h)
  refine ⟨hne _ rfl, hne _ rfl, ?_, hne _ rfl⟩
  rw [Reader.isLineEnd, beq_eq_false_iff_ne.mpr (hne _ rfl), beq_eq_false_iff_ne.mpr (hne _ rfl)]
  rfl

/-- A field that needs no quotes. -/
def IsUnquoted (field : String) : Prop := ∀ c ∈ field.toList, IsOrdinary c

instance (field : String) : Decidable (IsUnquoted field) :=
  List.decidableBAll IsOrdinary field.toList

/-- The line of a record. -/
def line (fields : List String) : String := ",".intercalate fields ++ "\n"

/-! ## The reader -/

namespace Reader

variable {r : Reader} {c : Char} {field cs : List Char} {fields : List String}
  {done : List (List String)}

/-- A reader before a record, and the records that it has read. -/
structure Between (r : Reader) (done : List (List String)) : Prop where
  mode : r.mode = .between
  field : r.field = []
  fields : r.fields = []
  records : r.records.map Record.fields = done

/-- A reader in a field without quotes, and what it has read of the field and the record. -/
structure Within (r : Reader) (field : List Char) (fields : List String)
    (done : List (List String)) : Prop where
  mode : r.mode = .fieldStart ∨ r.mode = .plain
  field : r.field = field
  fields : r.fields = fields
  records : r.records.map Record.fields = done

/-- In such a field, any character but a quote is read as one outside of quotes. -/
theorem Within.read_eq (h : Within r field fields done) (hc : c ≠ '"') :
    r.read c = { r with position := r.position.after c }.unquoted c := by
  rcases h.mode with hmode | hmode
  · simp [read, hmode, firstChar, hc]
  · simp [read, hmode]

theorem unquoted_of_isOrdinary (hc : IsOrdinary c) : r.unquoted c = r.addChar c .plain := by
  obtain ⟨hcomma, -, hend, -⟩ := hc
  rw [unquoted, if_neg hcomma, hend]
  rfl

/-- A record begins with its first character. -/
theorem Between.begin (h : Between r done) (hc : IsOrdinary c) : Within (r.read c) [c] [] done := by
  have hread : r.read c = { r with position := r.position.after c }.addChar c .plain := by
    rw [← unquoted_of_isOrdinary hc]
    simp [read, h.mode, firstChar, hc.2.1, hc.2.2.1]
  rw [hread]
  exact ⟨.inr rfl, congrArg _ h.field, h.fields, h.records⟩

theorem Within.char (h : Within r field fields done) (hc : IsOrdinary c) :
    Within (r.read c) (c :: field) fields done := by
  rw [h.read_eq hc.2.1, unquoted_of_isOrdinary hc]
  exact ⟨.inr rfl, congrArg _ h.field, h.fields, h.records⟩

theorem Within.chars (h : Within r field fields done) (hcs : ∀ c ∈ cs, IsOrdinary c) :
    Within (cs.foldl read r) (cs.reverse ++ field) fields done := by
  induction cs generalizing r field with
  | nil => exact h
  | cons c cs ih =>
    rw [List.forall_mem_cons] at hcs
    rw [List.foldl_cons, List.reverse_cons, List.append_assoc]
    exact ih (h.char hcs.1) hcs.2

theorem Within.comma (h : Within r field fields done) :
    Within (r.read ',') [] (String.ofList field.reverse :: fields) done := by
  rw [h.read_eq (by decide), unquoted, if_pos rfl]
  refine ⟨.inl rfl, rfl, ?_, h.records⟩
  change String.ofList r.field.reverse :: r.fields = _
  rw [h.field, h.fields]

theorem Within.lineEnd (h : Within r field fields done) :
    Between (r.read '\n') ((String.ofList field.reverse :: fields).reverse :: done) := by
  rw [h.read_eq (by decide), unquoted, if_neg (by decide), if_pos (by decide)]
  refine ⟨rfl, rfl, rfl, ?_⟩
  change (String.ofList r.field.reverse :: r.fields).reverse :: r.records.map Record.fields = _
  rw [h.field, h.fields, h.records]

end Reader

/-! ## Lines -/

/-- What follows of a line from the characters of a field on. -/
def restOfLine (cs : List Char) : List String → List Char
  | [] => cs ++ ['\n']
  | field :: fields => cs ++ ',' :: restOfLine field.toList fields

theorem toList_line (first : String) (others : List String) :
    (line (first :: others)).toList = restOfLine first.toList others := by
  induction others generalizing first with
  | nil => rw [line, String.intercalate_singleton, String.toList_append]; rfl
  | cons second others ih =>
    rw [line, String.intercalate_cons_cons, String.append_assoc, ← line, String.toList_append,
      String.toList_append, ih, List.append_assoc]
    rfl

namespace Reader

variable {r : Reader} {field cs : List Char} {fields others : List String}
  {done : List (List String)}

/-- The rest of a line ends the record. -/
theorem Within.restOfLine (h : Within r field fields done) (hcs : ∀ c ∈ cs, IsOrdinary c)
    (hothers : ∀ f ∈ others, IsUnquoted f) :
    Between ((restOfLine cs others).foldl read r)
      ((fields.reverse ++ String.ofList (field.reverse ++ cs) :: others) :: done) := by
  have hfield := h.chars hcs
  induction others generalizing r field fields cs with
  | nil =>
    have hline := hfield.lineEnd
    rw [List.reverse_append, List.reverse_reverse, List.reverse_cons] at hline
    rw [Csv.restOfLine, List.foldl_append]
    exact hline
  | cons next others ih =>
    rw [List.forall_mem_cons] at hothers
    have hnext := hfield.comma
    have hline := ih hnext hothers.1 hothers.2 (hnext.chars hothers.1)
    rw [List.reverse_append, List.reverse_reverse, List.reverse_cons, List.append_assoc,
      List.reverse_nil, List.nil_append, String.ofList_toList] at hline
    rw [Csv.restOfLine, List.foldl_append, List.foldl_cons]
    exact hline

end Reader

/-- A record that can be written without quotes. Its first field is not empty, for a record of one
empty field would be an empty line. -/
structure IsRow (fields : List String) : Prop where
  unquoted : ∀ f ∈ fields, IsUnquoted f
  begins : ∃ first others, fields = first :: others ∧ first ≠ ""

theorem IsRow.exists_toList_line {fields : List String} (h : IsRow fields) :
    ∃ c cs others, (line fields).toList = c :: restOfLine cs others ∧ IsOrdinary c ∧
      (∀ c ∈ cs, IsOrdinary c) ∧ (∀ f ∈ others, IsUnquoted f) ∧
      fields = String.ofList (c :: cs) :: others := by
  obtain ⟨hunquoted, first, others, rfl, hne⟩ := h
  rw [List.forall_mem_cons] at hunquoted
  obtain ⟨c, cs, hcs⟩ := List.exists_cons_of_ne_nil (mt String.toList_eq_nil_iff.mp hne)
  have hfirst := hunquoted.1
  rw [IsUnquoted, hcs, List.forall_mem_cons] at hfirst
  refine ⟨c, cs, others, ?_, hfirst.1, hfirst.2, hunquoted.2, ?_⟩
  · rw [toList_line, hcs]
    cases others <;> rfl
  · rw [← hcs, String.ofList_toList]

namespace Reader

variable {r : Reader} {done : List (List String)}

/-- A line is one record. -/
theorem Between.line {fields : List String} (h : Between r done) (hrow : IsRow fields) :
    Between ((line fields).toList.foldl read r) (fields :: done) := by
  obtain ⟨c, cs, others, htext, hc, hcs, hothers, rfl⟩ := hrow.exists_toList_line
  rw [htext, List.foldl_cons]
  exact (h.begin hc).restOfLine hcs hothers

theorem Between.lines {rows : List (List String)} (h : Between r done)
    (hrows : ∀ row ∈ rows, IsRow row) :
    Between ((rows.flatMap fun row => (Csv.line row).toList).foldl read r)
      (rows.reverse ++ done) := by
  induction rows generalizing r done with
  | nil => exact h
  | cons row rows ih =>
    rw [List.forall_mem_cons] at hrows
    rw [List.flatMap_cons, List.foldl_append, List.reverse_cons, List.append_assoc]
    exact ih (h.line hrows.1) hrows.2

theorem Between.finish (h : Between r done) : r.finish.map Record.fields = done.reverse := by
  rw [Reader.finish, h.mode]
  dsimp only
  rw [List.map_reverse, h.records]

end Reader

/-- **Records without quotes are read back from their lines.** -/
theorem fields_records_lines {rows : List (List String)} (h : ∀ row ∈ rows, IsRow row) :
    (records (String.join (rows.map line))).map Record.fields = rows := by
  have htext : (String.join (rows.map line)).toList =
      rows.flatMap fun row => (line row).toList := by
    rw [String.toList_join, List.flatMap_map]
  have hread : Reader.Between (Reader.initial ⟨0, 1⟩) [] := ⟨rfl, rfl, rfl, rfl⟩
  rw [records, htext]
  split
  · next rest hmark =>
    -- no record begins with a byte order mark
    exfalso
    cases rows with
    | nil => cases hmark
    | cons row rows =>
      obtain ⟨c, cs, others, hline, hc, -⟩ := (h row List.mem_cons_self).exists_toList_line
      rw [List.flatMap_cons, hline] at hmark
      exact hc.2.2.2 (List.cons.inj hmark).1
  · rw [(hread.lines h).finish, List.append_nil, List.reverse_reverse]

end SignalLab.Csv
