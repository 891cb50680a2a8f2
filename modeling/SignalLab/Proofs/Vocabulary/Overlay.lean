import SignalLab.Proofs.Program.Simulation
import SignalLab.Vocabulary.Help

/-!
# Markets are laid over a vocabulary

However many markets have been bound to the standard vocabulary, it is the standard one with the last
of them laid over its inputs (`overlays_bound`). A vocabulary is read in two ways, name by name and as
a list, and both go through the overlay: `find?_of_mem_entries` says that they read the same.

Evaluation looks at what names stand for, and lowering not even at that. So the markets bound before
the last one leave no trace in what a program is evaluated to, and no market leaves any in a program.
-/

namespace SignalLab

/-! ## What is said about an entry -/

/-- All of an entry but the signal or the operation that it stands for. -/
structure Outline where
  role : Role
  arity : Nat
  parameters : List String
  doc : String
  category : Category
  deriving DecidableEq

namespace Entry

/-- What is said about an entry. -/
def outline (e : Entry) : Outline := ⟨e.role, e.arity, e.parameters, e.doc, e.category⟩

@[simp] theorem outline_rebind (e : Entry) (x : Signal) : (e.rebind x).outline = e.outline := by
  rcases e with ⟨_ | _, doc, category⟩ <;> rfl

@[simp] theorem outline_rebind? (e : Entry) (x : Option Signal) :
    (e.rebind? x).outline = e.outline := by
  rcases x with _ | x
  · rfl
  · exact outline_rebind e x

theorem signal?_rebind {e : Entry} (h : e.role = .reference) (x : Signal) :
    (e.rebind x).signal? = some x := by
  rcases e with ⟨_ | _, doc, category⟩
  · rfl
  · simp [role] at h

end Entry

namespace Vocabulary

variable {v w : Vocabulary}

/-! ## Reading a vocabulary as a list -/

/-- The listing shows for every name the entry that is found for it. -/
theorem find?_of_mem_entries (h : v.table.names.Nodup) {p : String × Entry} (hp : p ∈ v.entries) :
    v.find? p.1 = some p.2 := by
  obtain ⟨q, hq, rfl⟩ := List.mem_map.mp hp
  rw [find?, Table.find?_of_mem h hq]
  dsimp only
  cases v.overlay.find? q.1 <;> rfl

/-- A vocabulary lists the names of its table. -/
theorem names_entries (v : Vocabulary) : v.entries.map (·.1) = v.table.names := by
  rw [entries, List.map_map]
  rfl

/-- Vocabularies with the same names list what they find alike, as far as a function of entries can
tell. -/
theorem entries_congr {β : Type} (f : Entry → β) (hv : v.table.names.Nodup)
    (hnames : v.table.names = w.table.names)
    (hfind : ∀ name, (v.find? name).map f = (w.find? name).map f) :
    (v.entries.map fun p => (p.1, f p.2)) = w.entries.map fun p => (p.1, f p.2) := by
  -- both lists show for every name what is found for it
  have hlisted : ∀ u : Vocabulary, u.table.names.Nodup →
      (u.entries.map fun p => (p.1, some (f p.2))) =
        u.table.names.map fun name => (name, (u.find? name).map f) := by
    intro u hu
    rw [← names_entries, List.map_map]
    refine List.map_congr_left fun p hp => ?_
    rw [Function.comp_apply, find?_of_mem_entries hu hp, Option.map_some]
  have hsome : (v.entries.map fun p => (p.1, some (f p.2))) =
      w.entries.map fun p => (p.1, some (f p.2)) := by
    rw [hlisted v hv, hlisted w (hnames ▸ hv), hnames]
    simp only [hfind]
  have hinjective : Function.Injective fun p : String × β => (p.1, some p.2) := by
    rintro ⟨name, b⟩ ⟨name', b'⟩ h
    simpa using h
  refine List.map_injective_iff.mpr hinjective ?_
  rw [List.map_map, List.map_map]
  exact hsome

/-- The documentation of a vocabulary is a part of its outlines. -/
theorem docs_eq_of_outlines
    (h : (v.entries.map fun p => (p.1, p.2.outline)) = w.entries.map fun p => (p.1, p.2.outline)) :
    v.docs = w.docs := by
  have hdocs : ∀ u : Vocabulary, u.docs = (u.entries.map fun p => (p.1, p.2.outline)).map
      fun q => ⟨q.1, q.2.arity, q.2.parameters, q.2.doc, q.2.category⟩ := by
    intro u
    rw [docs, List.map_map]
    rfl
  rw [hdocs v, hdocs w, h]

/-! ## The market bound last -/

/-- The market that was bound last; before any is bound, all inputs are zero. -/
def latest (markets : List Feeds) : Feeds := markets.getLast?.getD Feeds.zeros

/-- The inputs of the standard vocabulary are zero. -/
theorem find?_standard_zeros (draws : Signal) (name : String) :
    (standard draws).find? name =
      ((standard draws).find? name).map (·.rebind? (Feeds.zeros.named.lookup name)) := by
  by_cases hname : name ∈ Feeds.names
  · rw [find?_standard]
    simp only [Feeds.names, List.mem_cons, List.not_mem_nil, or_false] at hname
    rcases hname with rfl | rfl | rfl | rfl | rfl | rfl <;> rfl
  · have hnone : Feeds.zeros.named.lookup name = none := lookup_eq_none_of_not_mem hname
    rw [hnone]
    exact Option.map_id'.symm

/-- **What is found in a vocabulary with markets bound to it** is the standard entry with the market
bound last laid over it. -/
theorem find?_bound (draws : Signal) (markets : List Feeds) (name : String) :
    (bound draws markets).find? name =
      ((standard draws).find? name).map (·.rebind? ((latest markets).named.lookup name)) := by
  rcases List.eq_nil_or_concat markets with rfl | ⟨before, last, rfl⟩
  · exact find?_standard_zeros draws name
  · rw [List.concat_eq_append]
    have hbound : bound draws (before ++ [last]) = (bound draws before).bind last := by
      rw [bound, List.foldl_append]
      rfl
    have hlatest : latest (before ++ [last]) = last := by
      rw [latest, List.getLast?_concat]
      rfl
    rw [hbound, hlatest, find?_bind_bound, find?_standard]

/-! ## Overlays -/

/-- A vocabulary is another one with a market laid over its inputs, and nothing else is changed. -/
structure Overlays (v base : Vocabulary) (market : Feeds) : Prop where
  /-- The names stand in the same order, and the same is said about each. -/
  outlines : (v.entries.map fun p => (p.1, p.2.outline)) = base.entries.map fun p =>
    (p.1, p.2.outline)
  docs : v.docs = base.docs
  /-- The same is said about a name where it is looked up. -/
  outline? : ∀ name, (v.find? name).map Entry.outline = (base.find? name).map Entry.outline
  /-- What is listed is what is found. -/
  listed : ∀ p ∈ v.entries, v.find? p.1 = some p.2
  inputs : ∀ p ∈ market.named, v.signal? p.1 = some p.2
  others : ∀ name, name ∉ Feeds.names → v.find? name = base.find? name

theorem overlays_bound (draws : Signal) (markets : List Feeds) :
    Overlays (bound draws markets) (standard draws) (latest markets) := by
  have hnames := nodup_names_bound draws markets
  have hsame : (bound draws markets).table.names = (standard draws).table.names := by
    rw [table_bound, table_standard]
  have houtline : ∀ name, ((bound draws markets).find? name).map Entry.outline =
      ((standard draws).find? name).map Entry.outline := by
    intro name
    rw [find?_bound, Option.map_map]
    congr 1
    funext e
    exact e.outline_rebind? _
  have houtlines := entries_congr Entry.outline hnames hsame houtline
  refine ⟨houtlines, docs_eq_of_outlines houtlines, houtline,
    fun p hp => find?_of_mem_entries hnames hp, fun p hp => ?_, fun name hname => ?_⟩
  · have hlookup := lookup_of_mem (nodup_named (latest markets)) hp
    have hinput : p.1 ∈ Feeds.names := List.mem_map_of_mem hp
    -- every input is a reference of the standard vocabulary
    obtain ⟨e, hfind, hrole⟩ : ∃ e, (standard draws).find? p.1 = some e ∧ e.role = .reference := by
      rw [find?_standard]
      generalize p.1 = name at hinput
      simp only [Feeds.names, List.mem_cons, List.not_mem_nil, or_false] at hinput
      rcases hinput with rfl | rfl | rfl | rfl | rfl | rfl <;> exact ⟨_, rfl, rfl⟩
    rw [signal?, find?_bound, hfind, hlookup, Option.map_some, Option.bind_some,
      Entry.rebind?_some, Entry.signal?_rebind hrole]
  · have hnone : (latest markets).named.lookup name = none := lookup_eq_none_of_not_mem hname
    rw [find?_bound, hnone]
    exact Option.map_id'

end Vocabulary

/-! ## What evaluation looks at -/

namespace Program

variable {v w : Vocabulary}

theorem nextSignal_congr (h : ∀ name, v.meaning? name = w.meaning? name) (signals : Array Signal)
    (i : Instruction) : nextSignal v signals i = nextSignal w signals i := by
  cases i with
  | literal value => rfl
  | reference name => rw [nextSignal, nextSignal, h]
  | apply name operands => rw [nextSignal, nextSignal, h]

theorem signalsFrom_congr (h : ∀ name, v.meaning? name = w.meaning? name)
    (instructions : List Instruction) (signals : Array Signal) :
    signalsFrom v signals instructions = signalsFrom w signals instructions := by
  induction instructions generalizing signals with
  | nil => rfl
  | cons i rest ih =>
    rw [signalsFrom, signalsFrom, nextSignal_congr h]
    rcases nextSignal w signals i with fault | x
    · rfl
    · exact ih (signals.push x)

/-- Evaluation looks at what names stand for and at nothing else. -/
theorem eval_congr (h : ∀ name, v.meaning? name = w.meaning? name) (p : Program) :
    p.eval v = p.eval w := by
  rw [eval, eval, signalsFrom_congr h]

end Program

/-! ## Vocabularies with markets bound to them -/

namespace Vocabulary

/-- A second market takes the place of all that were bound before, name by name. -/
theorem find?_bind_bind_bound (draws : Signal) (markets : List Feeds) (f g : Feeds)
    (name : String) :
    (((bound draws markets).bind f).bind g).find? name = ((standard draws).bind g).find? name := by
  rw [find?_bind_bind, find?_bind_bound, find?_bind, find?_standard]

/-- It does so in the listing, too. -/
theorem entries_bind_bind_bound (draws : Signal) (markets : List Feeds) (f g : Feeds) :
    (((bound draws markets).bind f).bind g).entries = ((standard draws).bind g).entries := by
  have hsame : (((bound draws markets).bind f).bind g).table.names =
      ((standard draws).bind g).table.names := by
    rw [table_bind, table_bind, table_bind, table_bound, table_standard]
  have hnames : (((bound draws markets).bind f).bind g).table.names.Nodup := by
    rw [table_bind, table_bind]
    exact nodup_names_bound draws markets
  have hentries := entries_congr id hnames hsame fun name => by
    rw [find?_bind_bind_bound]
  simpa using hentries

example : (bound (Series.constant 0.5) [Feeds.zeros, Feeds.same Offset.toFloat]).signal? "close" =
    some Offset.toFloat :=
  (overlays_bound _ _).inputs ("close", _) (.tail _ (.tail _ (.tail _ (.head _))))

end Vocabulary

end SignalLab
