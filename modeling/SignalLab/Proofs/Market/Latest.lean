import Mathlib.Data.List.DropRight
import Mathlib.Data.List.Nodup
import Mathlib.Data.List.Perm.Basic
import SignalLab.Disk
import SignalLab.Proofs.Market.Rows

/-!
# The latest rows of a market file

The history of an instrument holds the latest rows of its file (`fetch_latest`). The rows are put in
order of their dates, rows of one date staying in the order of the file (`InOrder`), and the history is
the last part of that list. If the dates are distinct there is only one such order (`InOrder.eq_of_perm`),
so the order of the file does not matter. A bad row is reported wherever it stands, also where its date
would have put it before the rows that are wanted.
-/

namespace SignalLab

/-! ## The order of dates -/

namespace Date

variable {a b c : Date}

/-- Dates are compared by their years, then by their months, then by their days. -/
theorem le_iff : a.le b ↔ a.year < b.year ∨
    a.year = b.year ∧ (a.month < b.month ∨ a.month = b.month ∧ a.day ≤ b.day) := by
  simp [le]

theorem le_trans (hab : a.le b) (hbc : b.le c) : a.le c := by
  rw [le_iff] at *
  omega

theorem le_total (a b : Date) : a.le b || b.le a := by
  rw [Bool.or_eq_true, le_iff, le_iff]
  omega

theorem le_refl (a : Date) : a.le a := by
  simpa using le_total a a

theorem le_antisymm (hab : a.le b) (hba : b.le a) : a = b := by
  rw [le_iff] at hab hba
  have hparts : a.year = b.year ∧ a.month = b.month ∧ a.day = b.day := by omega
  rcases a with ⟨year, month, day⟩
  rcases b with ⟨year', month', day'⟩
  obtain ⟨rfl, rfl, rfl⟩ := hparts
  rfl

end Date

namespace Archive

variable {bars bars' sorted sorted' : List Bar} {limit : ℕ} {text : String} {fault : Fault}

/-! ## Bars in order -/

/-- A list has the bars of another one in order of their dates, bars of one date in the order of the
other list. -/
structure InOrder (bars sorted : List Bar) : Prop where
  dates : sorted.Pairwise fun a b => a.date.le b.date
  perm : sorted.Perm bars
  ties : ∀ date, sorted.filter (·.date = date) = bars.filter (·.date = date)

theorem bar_le_trans (a b c : Bar) (hab : a.date.le b.date) (hbc : b.date.le c.date) :
    a.date.le c.date :=
  Date.le_trans hab hbc

theorem bar_le_total (a b : Bar) : a.date.le b.date || b.date.le a.date :=
  Date.le_total a.date b.date

/-- The bars of one date stay in their order when bars are sorted. -/
theorem filter_mergeSort (bars : List Bar) (date : Date) :
    (bars.mergeSort fun a b => a.date.le b.date).filter (·.date = date) =
      bars.filter (·.date = date) := by
  have hties : (bars.filter (·.date = date)).Pairwise fun a b => a.date.le b.date := by
    refine List.pairwise_of_forall_mem_list fun a ha b hb => ?_
    have hsame : a.date = b.date := by simp_all
    rw [hsame]
    exact b.date.le_refl
  have hsublist := List.sublist_mergeSort bar_le_trans bar_le_total hties List.filter_sublist
  -- the bars of the date are a sublist of those of the sorted list, and there are as many of them
  have hties' := hsublist.filter (·.date = date)
  rw [List.filter_filter] at hties'
  simp only [Bool.and_self] at hties'
  refine (hties'.eq_of_length ?_).symm
  exact ((List.mergeSort_perm _ _).filter _).length_eq.symm

theorem inOrder_mergeSort (bars : List Bar) :
    InOrder bars (bars.mergeSort fun a b => a.date.le b.date) where
  dates := List.pairwise_mergeSort bar_le_trans bar_le_total bars
  perm := List.mergeSort_perm _ _
  ties := filter_mergeSort bars

/-- **There is one order of bars whose dates are distinct**, whichever order they come in. -/
theorem InOrder.eq_of_perm (h : InOrder bars sorted) (h' : InOrder bars' sorted')
    (hperm : bars'.Perm bars) (hdates : (bars.map Bar.date).Nodup) : sorted' = sorted := by
  have hsorted : sorted'.Perm sorted := (h'.perm.trans hperm).trans h.perm.symm
  refine List.Perm.eq_of_pairwise (fun a b ha hb hab hba => ?_) h'.dates h.dates hsorted
  have ha' : a ∈ bars := h.perm.mem_iff.mp (hsorted.mem_iff.mp ha)
  have hb' : b ∈ bars := h.perm.mem_iff.mp hb
  exact List.inj_on_of_nodup_map hdates ha' hb' (Date.le_antisymm hab hba)

/-! ## Columns of bars -/

/-- The six columns of a history are those of some bars, the price being the typical price. -/
structure HasColumns (h : History) (bars : List Bar) : Prop where
  price : (h.column Sample.price).toList = bars.map Bar.typicalPrice
  volume : (h.column Sample.volume).toList = bars.map Bar.volume
  opening : (h.column Sample.opening).toList = bars.map Bar.opening
  closing : (h.column Sample.closing).toList = bars.map Bar.closing
  high : (h.column Sample.high).toList = bars.map Bar.high
  low : (h.column Sample.low).toList = bars.map Bar.low

theorem toList_column_ofBars (bars : List Bar) (part : Sample Float → Float) :
    ((History.ofBars bars).column part).toList = bars.map fun b => part b.sample := by
  simp [History.ofBars, History.column]

theorem hasColumns_ofBars (bars : List Bar) : HasColumns (.ofBars bars) bars where
  price := toList_column_ofBars bars _
  volume := toList_column_ofBars bars _
  opening := toList_column_ofBars bars _
  closing := toList_column_ofBars bars _
  high := toList_column_ofBars bars _
  low := toList_column_ofBars bars _

theorem size_column_ofBars (bars : List Bar) (part : Sample Float → Float) :
    ((History.ofBars bars).column part).size = bars.length := by
  rw [← Array.length_toList, toList_column_ofBars, List.length_map]

theorem length_rtake {α : Type} (xs : List α) (limit : ℕ) :
    (xs.rtake limit).length = min limit xs.length := by
  rw [List.rtake, List.length_drop]
  omega

/-- Fewer of the last elements are the last of more of them. -/
theorem rtake_suffix {α : Type} (xs : List α) {limit limit' : ℕ} (h : limit ≤ limit') :
    xs.rtake limit <:+ xs.rtake limit' :=
  List.drop_suffix_drop_left xs (by omega)

/-! ## The history in a text -/

theorem historyOf_of_recorded (h : List.Forall₂ Recorded (Csv.rows text) bars) (limit : ℕ) :
    historyOf text limit =
      .ok (.ofBars ((bars.mergeSort fun a b => a.date.le b.date).rtake limit)) := by
  rw [historyOf, barsOf, barsFrom_eq_ok_iff.mpr h]
  rfl

theorem historyOf_of_refused (h : First Refused ((Csv.rows text).zipIdx firstLine) fault)
    (limit : ℕ) : historyOf text limit = .error fault := by
  have hbars : barsFrom firstLine (Csv.rows text) = .error fault :=
    ((fits_barsFrom firstLine _).error_iff fun _ _ _ => Refused.unique).mpr h
  rw [historyOf, barsOf, hbars]
  rfl

/-! ## What a fetch answers -/

/-- The answer to a request for the history of an instrument. -/
def answer (folder : String) (r : Request) (scene : Scene) : Except Failure History :=
  ((fetch folder r : StateM Scene _).run scene).1

variable {folder folder' : String} {r r' : Request} {scene scene' : Scene} {text' : String}

/-- The answer is the history in the text of the file. -/
theorem answer_eq
    (hfile : scene.disk.readText scene.working (pathOf folder r.instrument) = .ok text) :
    answer folder r scene = (historyOf text r.limit).mapError Fault.failure := by
  have hread : (Host.readText (pathOf folder r.instrument) : StateM Scene _).run scene =
      pure (.ok text, scene) := by
    rw [← hfile]
    rfl
  rw [answer, fetch, StateT.run_bind, hread, pure_bind]
  rcases hhistory : historyOf text r.limit with fault | h
  · simp only [hhistory]
    rfl
  · simp only [hhistory]
    rfl

theorem answer_of_recorded
    (hfile : scene.disk.readText scene.working (pathOf folder r.instrument) = .ok text)
    (hbars : List.Forall₂ Recorded (Csv.rows text) bars) :
    answer folder r scene =
      .ok (.ofBars ((bars.mergeSort fun a b => a.date.le b.date).rtake r.limit)) := by
  rw [answer_eq hfile, historyOf_of_recorded hbars]
  rfl

theorem answer_of_refused
    (hfile : scene.disk.readText scene.working (pathOf folder r.instrument) = .ok text)
    (hfault : First Refused ((Csv.rows text).zipIdx firstLine) fault) :
    answer folder r scene = .error fault.failure := by
  rw [answer_eq hfile, historyOf_of_refused hfault]
  rfl

/-- Files with the same rows of distinct dates are answered alike. -/
theorem answer_eq_of_perm
    (hfile : scene.disk.readText scene.working (pathOf folder r.instrument) = .ok text)
    (hfile' : scene'.disk.readText scene'.working (pathOf folder' r'.instrument) = .ok text')
    (hbars : List.Forall₂ Recorded (Csv.rows text) bars) (hdates : (bars.map Bar.date).Nodup)
    (hrows : (Csv.rows text').Perm (Csv.rows text)) (hlimit : r'.limit = r.limit) :
    answer folder' r' scene' = answer folder r scene := by
  obtain ⟨bars', hbars', hperm⟩ := List.perm_comp_forall₂ hrows hbars
  rw [answer_of_recorded hfile hbars, answer_of_recorded hfile' hbars', hlimit,
    (inOrder_mergeSort bars).eq_of_perm (inOrder_mergeSort bars') hperm hdates]

/-- Every file records one bar for each of its rows or has a first row that it is refused for. -/
theorem recorded_or_refused (text : String) :
    (∃ bars, List.Forall₂ Recorded (Csv.rows text) bars) ∨
      ∃ fault, First Refused ((Csv.rows text).zipIdx firstLine) fault := by
  have hfits := fits_barsFrom firstLine (Csv.rows text)
  rcases hbars : barsFrom firstLine (Csv.rows text) with fault | bars
  · rw [hbars] at hfits
    exact .inr ⟨fault, hfits⟩
  · exact .inl ⟨bars, barsFrom_eq_ok_iff.mp hbars⟩

end Archive

end SignalLab
