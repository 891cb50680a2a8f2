import Mathlib.Data.List.Basic
import SignalLab.Csv

/-!
# The lines on which records begin

A record begins at the first character that is no line end and is not part of the record before it
(`Begins`). Every record of a text begins somewhere (`exists_begins`) and nowhere else
(`Begins.unique`).

The number of a record is not that of its line. A line end ends a record, or it is skipped because the
line is empty, or it belongs to a field in quotes. Of the line ends in front of a record only those of
the first kind are counted by the records, and the line is behind by the others (`Begins.lineEnds_eq`).
-/

namespace SignalLab.Csv

/-! ## Steps of the reader -/

namespace Reader

variable {r : Reader} {c : Char}

/-- The number of records that have begun. -/
def begun (r : Reader) : ℕ := r.records.length + if r.mode = .between then 0 else 1

/-- What one character does: it is skipped, it begins a record, it ends one, or it goes on with one. -/
inductive Step (r : Reader) (c : Char) : Prop
  | skips (hmode : r.mode = .between) (hend : isLineEnd c = true)
      (hmode' : (r.read c).mode = .between) (hrecords : (r.read c).records = r.records)
  | begins (hmode : r.mode = .between) (hend : isLineEnd c = false)
      (hmode' : (r.read c).mode ≠ .between) (hrecords : (r.read c).records = r.records)
  | ends (hmode : r.mode ≠ .between) (hquoted : r.mode ≠ .quoted) (hend : isLineEnd c = true)
      (hmode' : (r.read c).mode = .between)
      (hrecords : (r.read c).records.length = r.records.length + 1)
  | goesOn (hmode : r.mode ≠ .between) (hend : isLineEnd c = true → r.mode = .quoted)
      (hmode' : (r.read c).mode ≠ .between) (hrecords : (r.read c).records = r.records)

/-- Outside of quotes a line end ends the record, and anything else does not. -/
theorem unquoted_cases (r : Reader) (c : Char) :
    if isLineEnd c then (r.unquoted c).mode = .between ∧
      (r.unquoted c).records.length = r.records.length + 1
    else (r.unquoted c).mode ≠ .between ∧ (r.unquoted c).records = r.records := by
  rw [unquoted]
  by_cases hcomma : c = ','
  · subst hcomma
    rw [if_neg (by decide), if_pos rfl]
    exact ⟨by simp [endField], rfl⟩
  · by_cases hend : isLineEnd c = true
    · rw [if_pos hend, if_neg hcomma, if_pos hend]
      exact ⟨rfl, rfl⟩
    · rw [if_neg hend, if_neg hcomma, if_neg hend]
      exact ⟨by simp [addChar], rfl⟩

theorem firstChar_cases (r : Reader) (c : Char) :
    if isLineEnd c then (r.firstChar c).mode = .between ∧
      (r.firstChar c).records.length = r.records.length + 1
    else (r.firstChar c).mode ≠ .between ∧ (r.firstChar c).records = r.records := by
  rw [firstChar]
  by_cases hquote : c = '"'
  · subst hquote
    rw [if_neg (by decide), if_pos rfl]
    exact ⟨by simp, rfl⟩
  · rw [if_neg hquote]
    exact unquoted_cases r c

/-- Outside of quotes, a character behind the beginning of a record ends it or goes on with it. -/
theorem Step.of_open (hmode : r.mode ≠ .between) (hquoted : r.mode ≠ .quoted)
    (h : if isLineEnd c then (r.read c).mode = .between ∧
        (r.read c).records.length = r.records.length + 1
      else (r.read c).mode ≠ .between ∧ (r.read c).records = r.records) : Step r c := by
  by_cases hend : isLineEnd c = true
  · rw [if_pos hend] at h
    exact .ends hmode hquoted hend h.1 h.2
  · rw [if_neg hend] at h
    exact .goesOn hmode (fun h => absurd h hend) h.1 h.2

theorem step (r : Reader) (c : Char) : Step r c := by
  have hfirst := firstChar_cases { r with position := r.position.after c } c
  have hunquoted := unquoted_cases { r with position := r.position.after c } c
  match hmode : r.mode with
  | .between =>
    by_cases hend : isLineEnd c = true
    · refine .skips hmode hend ?_ ?_ <;> simp [read, hmode, hend]
    · rw [if_neg hend] at hfirst
      rw [Bool.not_eq_true] at hend
      refine .begins hmode hend ?_ ?_
      · simpa [read, hmode, hend] using hfirst.1
      · simpa [read, hmode, hend] using hfirst.2
  | .fieldStart =>
    refine .of_open (by simp [hmode]) (by simp [hmode]) ?_
    simpa only [read, hmode] using hfirst
  | .plain =>
    refine .of_open (by simp [hmode]) (by simp [hmode]) ?_
    simpa only [read, hmode] using hunquoted
  | .quoted =>
    refine .goesOn (by simp [hmode]) (fun _ => hmode) ?_ ?_
    · by_cases hquote : c = '"' <;> simp [read, hmode, hquote, addChar]
    · by_cases hquote : c = '"' <;> simp [read, hmode, hquote, addChar]
  | .quoteSeen =>
    by_cases hquote : c = '"'
    · subst hquote
      refine .goesOn (by simp [hmode]) (fun h => absurd h (by decide)) ?_ ?_ <;>
        simp [read, hmode, addChar]
    · refine .of_open (by simp [hmode]) (by simp [hmode]) ?_
      simpa only [read, hmode, if_neg hquote] using hunquoted

/-- A record begins with each character that stands between records and is no line end, and records
begin with no other characters. -/
theorem begun_read (r : Reader) (c : Char) :
    (r.read c).begun = r.begun + if r.mode = .between ∧ isLineEnd c = false then 1 else 0 := by
  rcases step r c with ⟨hmode, hend, hmode', hrecords⟩ | ⟨hmode, hend, hmode', hrecords⟩ |
    ⟨hmode, -, hend, hmode', hrecords⟩ | ⟨hmode, -, hmode', hrecords⟩
  · simp [begun, hmode, hmode', hend, hrecords]
  · simp [begun, hmode, hmode', hend, hrecords]
  · simp [begun, hmode, hmode', hrecords]
  · simp [begun, hmode, hmode', hrecords]

theorem length_finish (r : Reader) : r.finish.length = r.begun := by
  rw [finish, begun]
  rcases hmode : r.mode with _ | _ | _ | _ | _ <;> simp [endField, endRecord]

/-- Records that have begun have begun. -/
theorem begun_le_foldl (r : Reader) (cs : List Char) : r.begun ≤ (cs.foldl read r).begun := by
  induction cs generalizing r with
  | nil => exact Nat.le_refl _
  | cons c cs ih =>
    rw [List.foldl_cons]
    have hread := begun_read r c
    have hlater := ih (r.read c)
    omega

/-- A record that begins in a part of a text begins at one of its characters. -/
theorem exists_front_of_lt_begun (r : Reader) (cs : List Char) {i : ℕ} (hleast : r.begun ≤ i)
    (hlt : i < (cs.foldl read r).begun) :
    ∃ front c rest, cs = front ++ c :: rest ∧ isLineEnd c = false ∧
      (front.foldl read r).mode = .between ∧ (front.foldl read r).begun = i := by
  induction cs generalizing r with
  | nil => exact absurd hlt (Nat.not_lt.mpr hleast)
  | cons c cs ih =>
    have hread := begun_read r c
    by_cases hlater : (r.read c).begun ≤ i
    · obtain ⟨front, c', rest, rfl, hend, hmode, hbegun⟩ := ih (r.read c) hlater hlt
      exact ⟨c :: front, c', rest, rfl, hend, hmode, hbegun⟩
    · by_cases hbegins : r.mode = .between ∧ isLineEnd c = false
      · rw [if_pos hbegins] at hread
        exact ⟨[], c, cs, rfl, hbegins.2, hbegins.1, by rw [List.foldl_nil]; omega⟩
      · rw [if_neg hbegins] at hread
        omega

end Reader

/-! ## Where records begin -/

/-- The characters of a text behind a byte order mark. -/
def body (text : String) : List Char :=
  match text.toList with
  | '\ufeff' :: rest => rest
  | cs => cs

/-- The place at which the first record is looked for. -/
def origin (text : String) : Position :=
  match text.toList with
  | '\ufeff' :: _ => ⟨'\ufeff'.utf8Size, 1⟩
  | _ => ⟨0, 1⟩

/-- The reader behind the first characters of a text. -/
def readerBehind (text : String) (front : List Char) : Reader :=
  front.foldl Reader.read (.initial (origin text))

theorem records_eq (text : String) : records text = (readerBehind text (body text)).finish := by
  rw [records, readerBehind, body, origin]
  rcases text.toList with _ | ⟨c, rest⟩
  · rfl
  · by_cases hmark : c = '\ufeff'
    · subst hmark
      rfl
    · simp [hmark]

/-- The record with a number begins behind the given characters: a character that is no line end
follows, and so many records stand before it. -/
structure Begins (text : String) (i : ℕ) (front : List Char) : Prop where
  follows : ∃ c rest, body text = front ++ c :: rest ∧ Reader.isLineEnd c = false
  between : (readerBehind text front).mode = .between
  number : (readerBehind text front).records.length = i

variable {text : String} {i : ℕ} {front front' : List Char}

theorem Begins.begun_eq (h : Begins text i front) : (readerBehind text front).begun = i := by
  rw [Reader.begun, h.between, if_pos rfl, h.number, Nat.add_zero]

/-- Every record begins somewhere. -/
theorem exists_begins (h : i < (records text).length) : ∃ front, Begins text i front := by
  rw [records_eq, Reader.length_finish] at h
  obtain ⟨front, c, rest, hbody, hend, hmode, hbegun⟩ :=
    Reader.exists_front_of_lt_begun _ _ (Nat.zero_le i) h
  refine ⟨front, ⟨c, rest, hbody, hend⟩, hmode, ?_⟩
  rwa [Reader.begun, hmode, if_pos rfl, Nat.add_zero] at hbegun

/-- No record begins a second time further behind. -/
theorem Begins.not_behind (h : Begins text i front) {c : Char} {more : List Char}
    (h' : Begins text i (front ++ c :: more)) : False := by
  obtain ⟨c', rest, hbody, hend⟩ := h.follows
  obtain ⟨c'', rest', hbody', -⟩ := h'.follows
  have hsame : c = c' := by
    have hbehind := hbody'.symm.trans hbody
    rw [List.append_assoc, List.append_cancel_left_eq, List.cons_append] at hbehind
    exact (List.cons.inj hbehind).1
  subst hsame
  have hbegun : ((readerBehind text front).read c).begun = i + 1 := by
    rw [Reader.begun_read, h.begun_eq, if_pos ⟨h.between, hend⟩]
  have hlater := Reader.begun_le_foldl ((readerBehind text front).read c) more
  have hagain : (more.foldl Reader.read ((readerBehind text front).read c)).begun = i := by
    rw [← h'.begun_eq, readerBehind, readerBehind, List.foldl_append, List.foldl_cons]
  omega

/-- A record begins at one place. -/
theorem Begins.unique (h : Begins text i front) (h' : Begins text i front') : front = front' := by
  obtain ⟨c, rest, hbody, -⟩ := h.follows
  obtain ⟨c', rest', hbody', -⟩ := h'.follows
  rcases List.append_eq_append_iff.mp (hbody.symm.trans hbody') with
    ⟨more, rfl, hmore⟩ | ⟨more, rfl, hmore⟩
  · rcases more with _ | ⟨next, more⟩
    · rw [List.append_nil]
    · exact (h.not_behind h').elim
  · rcases more with _ | ⟨next, more⟩
    · rw [List.append_nil]
    · exact (h'.not_behind h).elim

/-! ## Line ends -/

/-- Whether a character ends a line, given whether a carriage return stands in front of it: a line
feed behind one belongs to the same line end. -/
def endsLine (behindReturn : Bool) (c : Char) : Bool :=
  Reader.isLineEnd c && !(behindReturn && c == '\n')

/-- The number of line ends in a part of a text. -/
def lineEndsFrom (behindReturn : Bool) : List Char → ℕ
  | [] => 0
  | c :: cs => (if endsLine behindReturn c then 1 else 0) + lineEndsFrom (c == '\r') cs

/-- The number of line ends that a reader meets in the given mode. -/
def lineEndsIn (mode : Mode) (r : Reader) (behindReturn : Bool) : List Char → ℕ
  | [] => 0
  | c :: cs => (if endsLine behindReturn c ∧ r.mode = mode then 1 else 0)
      + lineEndsIn mode (r.read c) (c == '\r') cs

/-- The number of line ends. -/
def lineEnds (front : List Char) : ℕ := lineEndsFrom false front

/-- The number of line ends of empty lines, which stand between records. -/
def emptyLines (text : String) (front : List Char) : ℕ :=
  lineEndsIn .between (.initial (origin text)) false front

/-- The number of line ends in fields in quotes. -/
def quotedLineEnds (text : String) (front : List Char) : ℕ :=
  lineEndsIn .quoted (.initial (origin text)) false front

/-- Behind a carriage return a reader is between records or in quotes. -/
theorem Reader.mode_read_return (r : Reader) :
    (r.read '\r').mode = .between ∨ (r.read '\r').mode = .quoted := by
  rcases step r '\r' with ⟨-, -, h, -⟩ | ⟨-, hend, -, -⟩ | ⟨-, -, -, h, -⟩ | ⟨-, hend, -, -⟩
  · exact .inl h
  · exact absurd hend (by decide)
  · exact .inl h
  · have hmode : r.mode = .quoted := hend rfl
    refine .inr ?_
    simp [read, hmode, addChar]

/-- **Every line end ends a record, or is that of an empty line, or stands in quotes.** -/
theorem lineEndsFrom_add (r : Reader) (behindReturn : Bool) (cs : List Char)
    (hreturn : behindReturn = true → r.mode = .between ∨ r.mode = .quoted) :
    lineEndsFrom behindReturn cs + r.records.length = (cs.foldl Reader.read r).records.length +
      lineEndsIn .between r behindReturn cs + lineEndsIn .quoted r behindReturn cs := by
  induction cs generalizing r behindReturn with
  | nil => simp [lineEndsFrom, lineEndsIn]
  | cons c cs ih =>
    have hread : (c == '\r') = true → (r.read c).mode = .between ∨ (r.read c).mode = .quoted := by
      intro hc
      rw [beq_iff_eq.mp hc]
      exact r.mode_read_return
    have hrest := ih (r.read c) (c == '\r') hread
    rw [lineEndsFrom, lineEndsIn, lineEndsIn, List.foldl_cons]
    rcases Reader.step r c with ⟨hmode, -, -, hrecords⟩ | ⟨hmode, hend, -, hrecords⟩ |
      ⟨hmode, hquoted, hend, -, hrecords⟩ | ⟨hmode, hend, -, hrecords⟩
    · by_cases hline : endsLine behindReturn c = true
      · rw [hrecords] at hrest
        rw [if_pos hline, if_pos ⟨hline, hmode⟩, if_neg (by simp [hmode])]
        omega
      · rw [hrecords] at hrest
        rw [if_neg hline, if_neg (hline ∘ And.left), if_neg (hline ∘ And.left)]
        omega
    · have hline : endsLine behindReturn c = false := by rw [endsLine, hend, Bool.false_and]
      rw [hrecords] at hrest
      rw [if_neg (by simp [hline]), if_neg (by simp [hline]), if_neg (by simp [hline])]
      omega
    · -- a reader that ends a record does not stand behind a carriage return
      have hnoReturn : behindReturn = false := by
        by_contra h
        rcases hreturn (by simpa using h) with h | h
        · exact hmode h
        · exact hquoted h
      have hline : endsLine behindReturn c = true := by rw [endsLine, hend, hnoReturn]; rfl
      rw [if_pos hline, if_neg (hmode ∘ And.right), if_neg (hquoted ∘ And.right)]
      omega
    · by_cases hline : endsLine behindReturn c = true
      · have hquoted : r.mode = .quoted := hend (Bool.and_eq_true_iff.mp hline).1
        rw [hrecords] at hrest
        rw [if_pos hline, if_neg (hmode ∘ And.right), if_pos ⟨hline, hquoted⟩]
        omega
      · rw [hrecords] at hrest
        rw [if_neg hline, if_neg (hline ∘ And.left), if_neg (hline ∘ And.left)]
        omega

/-- **The line of a record is behind its number** by the empty lines and the line ends in quotes in
front of it. -/
theorem Begins.lineEnds_eq (h : Begins text i front) :
    lineEnds front = i + emptyLines text front + quotedLineEnds text front := by
  have hsplit := lineEndsFrom_add (.initial (origin text)) false front (by simp)
  change lineEnds front + 0 = _ + emptyLines text front + quotedLineEnds text front at hsplit
  have hnumber := h.number
  rw [readerBehind] at hnumber
  omega

end SignalLab.Csv
