/-!
# Comma-separated records

A text of records has one record a line, whose fields are separated by commas. A field that begins with
a quote runs to the next quote that stands alone, and commas and line ends within belong to it; two
quotes stand for one. What follows the closing quote up to the next comma is added as it is. Empty
lines are no records. A byte order mark at the front of the text is passed over.

## Places

The place of a record is where the reading of the one before it ended, in bytes and in lines. A line
ends at a line feed, a carriage return or both. The reading of a record ends with the first of the two,
so after a carriage return the line feed is counted to the next record.

## The reader

The reader goes through the text once, one character at a time. It keeps what it is in, the field and
the fields read so far, and the records.

## What is assumed

Records are split by the package `csv`, which is not part of this repository. That it goes by the rules
above is assumed of it: which lines are records, what quotes do, and what the place of a record is.
What is proved about archives and reports is proved of a reader that keeps to them.
-/

namespace SignalLab.Csv

/-! ## Records -/

/-- A place in a text: bytes from its start, and the number of its line. -/
structure Position where
  byte : Nat
  line : Nat
  deriving DecidableEq, Repr

/-- The place after one more character. -/
def Position.after (p : Position) (c : Char) : Position :=
  ⟨p.byte + c.utf8Size, if c = '\n' then p.line + 1 else p.line⟩

/-- The fields of a record and its place. -/
structure Record where
  fields : List String
  position : Position
  deriving DecidableEq, Repr

/-! ## The reader -/

/-- What the reader is in. -/
inductive Mode
  /-- Before a record. -/
  | between
  /-- Before a field. -/
  | fieldStart
  /-- In a field without quotes, or behind the closing quote of one. -/
  | plain
  /-- In quotes. -/
  | quoted
  /-- Behind a quote within quotes, which may be the closing one. -/
  | quoteSeen
  deriving DecidableEq, Repr

/-- What the reader knows. Field, fields and records are kept with the latest first. -/
structure Reader where
  mode : Mode
  field : List Char
  fields : List String
  records : List Record
  /-- Where the reader is. -/
  position : Position
  /-- Where the present record began. -/
  start : Position

namespace Reader

/-- The reader at the front of a text. -/
def initial (position : Position) : Reader := ⟨.between, [], [], [], position, position⟩

/-- Adds a character to the field. -/
def addChar (r : Reader) (c : Char) (mode : Mode) : Reader :=
  { r with field := c :: r.field, mode := mode }

/-- Ends the field. -/
def endField (r : Reader) : Reader :=
  { r with fields := String.ofList r.field.reverse :: r.fields, field := [], mode := .fieldStart }

/-- Ends the record, whose last field has been ended. -/
def endRecord (r : Reader) : Reader :=
  { r with
    records := ⟨r.fields.reverse, r.start⟩ :: r.records
    fields := []
    start := r.position
    mode := .between }

/-- Whether a character ends lines. -/
def isLineEnd (c : Char) : Bool := c == '\n' || c == '\r'

/-- A character outside of quotes. -/
def unquoted (r : Reader) (c : Char) : Reader :=
  if c = ',' then r.endField
  else if isLineEnd c then r.endField.endRecord
  else r.addChar c .plain

/-- The first character of a field. -/
def firstChar (r : Reader) (c : Char) : Reader :=
  if c = '"' then { r with mode := .quoted } else r.unquoted c

/-- Reads one character. -/
def read (r : Reader) (c : Char) : Reader :=
  let r := { r with position := r.position.after c }
  match r.mode with
  | .between => if isLineEnd c then r else r.firstChar c
  | .fieldStart => r.firstChar c
  | .plain => r.unquoted c
  | .quoted => if c = '"' then { r with mode := .quoteSeen } else r.addChar c .quoted
  | .quoteSeen => if c = '"' then r.addChar c .quoted else r.unquoted c

/-- The records at the end of the text; a record that no line end ends is one too. -/
def finish (r : Reader) : List Record :=
  match r.mode with
  | .between => r.records.reverse
  | _ => r.endField.endRecord.records.reverse

end Reader

/-- The records of a text. -/
def records (text : String) : List Record :=
  match text.toList with
  | '\ufeff' :: rest => (rest.foldl Reader.read (Reader.initial ⟨'\ufeff'.utf8Size, 1⟩)).finish
  | cs => (cs.foldl Reader.read (Reader.initial ⟨0, 1⟩)).finish

/-! ## Tables with a header -/

/-- A record with another number of fields than the header. -/
structure LengthFault where
  /-- The number of the record, the header being number zero. -/
  index : Nat
  position : Position
  expected : Nat
  actual : Nat
  deriving DecidableEq, Repr

/-- The text of the fault. -/
def LengthFault.message (f : LengthFault) : String :=
  let index := f.index
  let line := f.position.line
  let byte := f.position.byte
  let actual := f.actual
  let expected := f.expected
  s!"CSV error: record {index} (line: {line}, byte: {byte}): found record with {actual} fields"
    ++ s!", but the previous record has {expected} fields"

/-- The records behind the header, each with as many fields as it, or at fault. -/
def rows (text : String) : List (Except LengthFault (List String)) :=
  match records text with
  | [] => []
  | header :: rest =>
    rest.mapIdx fun i r =>
      if r.fields.length = header.fields.length then .ok r.fields
      else .error ⟨i + 1, r.position, header.fields.length, r.fields.length⟩

end SignalLab.Csv
