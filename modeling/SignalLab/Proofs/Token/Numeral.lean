import Mathlib
import SignalLab.Proofs.Token.Piece

/-!
# The form of numerals

A numeral has the form

    sign? digit* ( . digit* )? ( [eE] sign? digit* )?

(`numeralForm`), and what is cut off the front of a text is the longest part that has it
(`longest_numeral`). The form lets digits be absent where a number needs them: a text of this form
writes no number if there is no digit before its exponent, or none in it
(`readFloatChars_error_iff`).

## Shape of the argument

Each stage of the scan takes the longest part in a language of its own. Two stages after each other
take the longest part in the product of their languages if no text of the second begins with a
character of the first: what is left to the second could not have been taken by the first
(`longest_andThen`).
-/

namespace SignalLab

open scoped Computability

/-! ## Languages of characters -/

/-- The texts of a single character of a class. -/
def oneOf (p : Char → Bool) : Language Char := {cs | ∃ c, p c = true ∧ cs = [c]}

/-- The texts of a language, and the empty text. -/
def optionally (L : Language Char) : Language Char := 1 + L

variable {p q : Char → Bool} {L M : Language Char} {cs text : List Char}

theorem mem_oneOf : cs ∈ oneOf p ↔ ∃ c, p c = true ∧ cs = [c] := Iff.rfl

theorem mem_optionally : cs ∈ optionally L ↔ cs = [] ∨ cs ∈ L := by
  rw [optionally, Language.mem_add, Language.mem_one]

theorem nil_mem_optionally (L : Language Char) : [] ∈ optionally L := mem_optionally.mpr (.inl rfl)

theorem mem_kstar_oneOf : cs ∈ (oneOf p)∗ ↔ ∀ c ∈ cs, p c = true := by
  rw [Language.mem_kstar]
  constructor
  · rintro ⟨texts, rfl, htexts⟩ c hc
    obtain ⟨text, htext, hc⟩ := List.mem_flatten.mp hc
    obtain ⟨d, hd, rfl⟩ := htexts text htext
    rwa [List.mem_singleton.mp hc]
  · intro h
    refine ⟨cs.map fun c => [c], ?_, fun text htext => ?_⟩
    · rw [← List.flatMap_def, List.flatMap_singleton']
    · obtain ⟨c, hc, rfl⟩ := List.mem_map.mp htext
      exact ⟨c, h c hc, rfl⟩

/-- A language whose texts consist of characters of a class. -/
def Within (p : Char → Bool) (L : Language Char) : Prop := ∀ cs ∈ L, ∀ c ∈ cs, p c = true

/-- A language whose texts begin with characters of a class, if they are not empty. -/
def Starts (p : Char → Bool) (L : Language Char) : Prop := ∀ c cs, c :: cs ∈ L → p c = true

theorem Within.starts (h : Within p L) : Starts p L := fun c _ hc => h _ hc c List.mem_cons_self

theorem Starts.mono (h : Starts p L) (hpq : ∀ c, p c = true → q c = true) : Starts q L :=
  fun c cs hc => hpq c (h c cs hc)

theorem within_oneOf (hpq : ∀ c, p c = true → q c = true) : Within q (oneOf p) := by
  rintro _ ⟨c, hc, rfl⟩ d hd
  rw [List.mem_singleton.mp hd]
  exact hpq c hc

theorem within_kstar (hpq : ∀ c, p c = true → q c = true) : Within q (oneOf p)∗ :=
  fun _ hcs c hc => hpq c (mem_kstar_oneOf.mp hcs c hc)

theorem Within.optionally (h : Within p L) : Within p (optionally L) := by
  intro cs hcs c hc
  rcases mem_optionally.mp hcs with rfl | hcs
  · cases hc
  · exact h cs hcs c hc

theorem Within.mul (hL : Within p L) (hM : Within p M) : Within p (L * M) := by
  intro cs hcs c hc
  obtain ⟨front, hfront, back, hback, rfl⟩ := Language.mem_mul.mp hcs
  rcases List.mem_append.mp hc with hc | hc
  · exact hL front hfront c hc
  · exact hM back hback c hc

theorem Starts.optionally (h : Starts p L) : Starts p (optionally L) := by
  intro c cs hcs
  rcases mem_optionally.mp hcs with hnil | hcs
  · cases hnil
  · exact h c cs hcs

theorem starts_oneOf_mul (p : Char → Bool) (L : Language Char) : Starts p (oneOf p * L) := by
  intro c cs hcs
  obtain ⟨_, ⟨d, hd, rfl⟩, back, -, heq⟩ := Language.mem_mul.mp hcs
  obtain ⟨rfl, -⟩ := List.cons.inj heq
  exact hd

theorem Starts.mul (hL : Starts p L) (hM : Starts p M) : Starts p (L * M) := by
  intro c cs hcs
  obtain ⟨front, hfront, back, hback, heq⟩ := Language.mem_mul.mp hcs
  rcases front with _ | ⟨d, front⟩
  · exact hM c cs (heq ▸ hback)
  · obtain ⟨rfl, -⟩ := List.cons.inj heq
    exact hL d front hfront

/-! ## Longest parts -/

/-- A text is the longest in a language that stands at the front of another. -/
structure Longest (L : Language Char) (cs text : List Char) : Prop where
  mem : text ∈ L
  begins : text <+: cs
  longest : ∀ t ∈ L, t <+: cs → t <+: text

theorem Longest.eq {text' : List Char} (h : Longest L cs text) (h' : Longest L cs text') :
    text = text' :=
  List.IsPrefix.eq_of_length_le (h'.longest text h.mem h.begins)
    (h.longest text' h'.mem h'.begins).length_le

theorem longest_takeWhile (p : Char → Bool) (cs : List Char) :
    Longest (oneOf p)∗ cs (cs.takeWhile p) where
  mem := mem_kstar_oneOf.mpr fun _ hc => List.mem_takeWhile_imp hc
  begins := List.takeWhile_prefix p
  longest := by
    rintro t ht ⟨rest, rfl⟩
    rw [List.takeWhile_append_of_pos (mem_kstar_oneOf.mp ht)]
    exact List.prefix_append _ _

/-- A mark and what a stage takes behind it, or nothing where there is no mark. -/
def afterMark (p : Char → Bool) (f : List Char → List Char) : List Char → List Char
  | [] => []
  | c :: rest => if p c then c :: f rest else []

theorem longest_afterMark {f : List Char → List Char} (h : ∀ cs, Longest L cs (f cs))
    (p : Char → Bool) (cs : List Char) :
    Longest (optionally (oneOf p * L)) cs (afterMark p f cs) := by
  rcases cs with _ | ⟨c, rest⟩
  · exact ⟨nil_mem_optionally _, List.nil_prefix, fun t _ ht => ht⟩
  · by_cases hc : p c
    · rw [afterMark, if_pos hc]
      refine ⟨mem_optionally.mpr (.inr ?_), ?_, fun t ht hbegins => ?_⟩
      · exact Language.append_mem_mul (mem_oneOf.mpr ⟨c, hc, rfl⟩) (h rest).mem
      · exact List.cons_prefix_cons.mpr ⟨rfl, (h rest).begins⟩
      · rcases mem_optionally.mp ht with rfl | ht
        · exact List.nil_prefix
        · obtain ⟨_, ⟨d, -, rfl⟩, back, hback, rfl⟩ := Language.mem_mul.mp ht
          rw [List.singleton_append, List.cons_prefix_cons] at hbegins ⊢
          exact ⟨hbegins.1, (h rest).longest back hback hbegins.2⟩
    · rw [afterMark, if_neg hc]
      refine ⟨nil_mem_optionally _, List.nil_prefix, fun t ht hbegins => ?_⟩
      rcases t with _ | ⟨d, t⟩
      · exact List.nil_prefix
      · -- a text with a mark in front would begin with this character
        obtain ⟨rfl, -⟩ := List.cons_prefix_cons.mp hbegins
        exact absurd ((starts_oneOf_mul p L).optionally d t ht) hc

theorem splitOne_eq_afterMark (p : Char → Bool) (cs : List Char) :
    (splitOne p cs).1 = afterMark p (fun _ => []) cs := by
  rcases cs with _ | ⟨c, rest⟩
  · rfl
  · rw [splitOne, afterMark]
    split <;> rfl

theorem longest_splitOne (p : Char → Bool) (cs : List Char) :
    Longest (optionally (oneOf p)) cs (splitOne p cs).1 := by
  have hnone : ∀ cs, Longest 1 cs ((fun _ => []) cs : List Char) := fun cs =>
    ⟨Language.nil_mem_one, List.nil_prefix, fun t ht _ => by rw [(Language.mem_one t).mp ht]⟩
  have h := longest_afterMark hnone p cs
  rwa [mul_one, ← splitOne_eq_afterMark] at h

theorem longest_andThen {f g : List Char → List Char} (hf : ∀ cs, Longest L cs (f cs))
    (hwithin : Within p L) (hg : ∀ cs, Longest M cs (g cs)) (hstarts : Starts (!p ·) M)
    (cs : List Char) : Longest (L * M) cs (andThen f g cs) := by
  obtain ⟨rest, hrest⟩ := (hf cs).begins
  rw [andThen_of_append hrest]
  refine ⟨Language.append_mem_mul (hf cs).mem (hg rest).mem, ?_, fun t ht hbegins => ?_⟩
  · have hback := (List.prefix_append_right_inj (f cs)).mpr (hg rest).begins
    rwa [hrest] at hback
  · obtain ⟨front, hfront, back, hback, rfl⟩ := Language.mem_mul.mp ht
    obtain ⟨more, hmore⟩ := (hf cs).longest front hfront ((List.prefix_append _ _).trans hbegins)
    rw [← hrest, ← hmore, List.append_assoc, List.prefix_append_right_inj] at hbegins
    rw [← hmore, List.append_assoc, List.prefix_append_right_inj]
    rcases more with _ | ⟨c, more⟩
    · exact (hg rest).longest back hback hbegins
    · rcases back with _ | ⟨d, back⟩
      · exact List.nil_prefix
      · -- the first stage took the character that the second part begins with
        obtain ⟨rfl, -⟩ := List.cons_prefix_cons.mp hbegins
        have hin : p d = true := hwithin _ (hf cs).mem d (by rw [← hmore]; simp)
        have hout : (!p d) = true := hstarts d back hback
        rw [hin] at hout
        cases hout

/-! ## The form of a numeral -/

/-- A point and digits. -/
def fractionForm : Language Char := oneOf (· == '.') * (oneOf Char.isDigit)∗

/-- A mark, an optional sign and digits. -/
def exponentForm : Language Char :=
  oneOf isExponentMark * (optionally (oneOf Decimal.isSign) * (oneOf Char.isDigit)∗)

/-- An optional sign, digits, an optional point with digits and an optional exponent. -/
def numeralForm : Language Char :=
  optionally (oneOf Decimal.isSign) *
    ((oneOf Char.isDigit)∗ * (optionally fractionForm * optionally exponentForm))

/-- The characters that a numeral can have behind its sign and its first digits. -/
def endsDigits (c : Char) : Bool := c == '.' || isExponentMark c

theorem not_isDigit_of_endsDigits {c : Char} (h : endsDigits c = true) : (!c.isDigit) = true := by
  simp only [endsDigits, isExponentMark, Bool.or_eq_true, beq_iff_eq] at h
  rcases h with rfl | rfl | rfl <;> decide

theorem not_isSign_of_endsDigits {c : Char} (h : endsDigits c = true) :
    (!Decimal.isSign c) = true := by
  simp only [endsDigits, isExponentMark, Bool.or_eq_true, beq_iff_eq] at h
  rcases h with rfl | rfl | rfl <;> decide

theorem not_isSign_of_isDigit {c : Char} (h : c.isDigit = true) : (!Decimal.isSign c) = true := by
  by_contra hsign
  simp only [Decimal.isSign, Bool.not_eq_true', Bool.not_eq_false, Bool.or_eq_true,
    beq_iff_eq] at hsign
  rcases hsign with rfl | rfl <;> exact absurd h (by decide)

theorem within_sign : Within Decimal.isSign (optionally (oneOf Decimal.isSign)) :=
  (within_oneOf fun _ h => h).optionally

theorem starts_exponentForm : Starts isExponentMark (optionally exponentForm) :=
  (starts_oneOf_mul _ _).optionally

theorem starts_behindDigits :
    Starts endsDigits (optionally fractionForm * optionally exponentForm) := by
  refine Starts.mul ?_ ?_
  · exact ((starts_oneOf_mul _ _).mono fun c hc => by simp [endsDigits, hc]).optionally
  · exact starts_exponentForm.mono fun c hc => by simp [endsDigits, hc]

theorem starts_behindSign : Starts (!Decimal.isSign ·)
    ((oneOf Char.isDigit)∗ * (optionally fractionForm * optionally exponentForm)) :=
  (within_kstar fun _ => not_isSign_of_isDigit).starts.mul
    (starts_behindDigits.mono fun _ => not_isSign_of_endsDigits)

/-! ## Cutting a numeral off -/

theorem exponentPart_eq_afterMark : exponentPart = afterMark isExponentMark
    (andThen (fun cs => (splitOne Decimal.isSign cs).1) (List.takeWhile Char.isDigit)) := by
  funext cs
  rcases cs with _ | ⟨c, cs⟩
  · rfl
  · exact exponentPart_cons c cs

theorem longest_exponentPart (cs : List Char) :
    Longest (optionally exponentForm) cs (exponentPart cs) := by
  have hmagnitude := longest_andThen (longest_splitOne Decimal.isSign) within_sign
    (longest_takeWhile Char.isDigit) (within_kstar fun _ => not_isSign_of_isDigit).starts
  rw [exponentPart_eq_afterMark]
  exact longest_afterMark hmagnitude _ cs

/-- Without a point there are no digits behind it, as the digits before it were all taken. -/
theorem andThen_point_eq {f : List Char → List Char} {cs : List Char}
    (h : ∀ c ∈ cs.head?, c.isDigit = false) :
    andThen (fun cs => (splitOne (· == '.') cs).1) (andThen (List.takeWhile Char.isDigit) f) cs =
      andThen (afterMark (· == '.') (List.takeWhile Char.isDigit)) f cs := by
  rcases cs with _ | ⟨c, rest⟩
  · rfl
  · have hc : c.isDigit = false := h c rfl
    by_cases hpoint : c == '.'
    · simp [andThen, splitOne, afterMark, hpoint]
    · simp [andThen, splitOne, afterMark, hpoint, hc]

theorem numeral_eq_andThen (cs : List Char) :
    numeral cs =
      andThen (fun cs => (splitOne Decimal.isSign cs).1) (andThen (List.takeWhile Char.isDigit)
        (andThen (afterMark (· == '.') (List.takeWhile Char.isDigit)) exponentPart)) cs := by
  have hdigits : ∀ cs, andThen (List.takeWhile Char.isDigit)
      (andThen (fun cs => (splitOne (· == '.') cs).1)
        (andThen (List.takeWhile Char.isDigit) exponentPart)) cs =
      andThen (List.takeWhile Char.isDigit)
        (andThen (afterMark (· == '.') (List.takeWhile Char.isDigit)) exponentPart) cs := by
    intro cs
    have hpoint := andThen_point_eq (f := exponentPart) (head?_dropWhile_stop Char.isDigit cs)
    rw [andThen, drop_length_takeWhile, hpoint, ← drop_length_takeWhile]
    rfl
  rw [numeral_eq, andThen, hdigits]
  rfl

/-- **The numeral at the front of a text** is the longest part of this form. -/
theorem longest_numeral (cs : List Char) : Longest numeralForm cs (numeral cs) := by
  have hfraction : ∀ cs, Longest (optionally fractionForm) cs
      (afterMark (· == '.') (List.takeWhile Char.isDigit) cs) :=
    longest_afterMark (longest_takeWhile _) _
  have hwithin : Within (fun c => c == '.' || c.isDigit) (optionally fractionForm) :=
    Within.optionally <| Within.mul (within_oneOf fun c hc => by rw [hc, Bool.true_or])
      (within_kstar fun c hc => by rw [hc, Bool.or_true])
  have hstarts : Starts (fun c => !(c == '.' || c.isDigit)) (optionally exponentForm) := by
    refine starts_exponentForm.mono fun c hc => ?_
    simp only [isExponentMark, Bool.or_eq_true, beq_iff_eq] at hc
    rcases hc with rfl | rfl <;> decide
  have hdigits := longest_andThen (longest_takeWhile Char.isDigit) (within_kstar fun _ h => h)
    (longest_andThen hfraction hwithin longest_exponentPart hstarts)
    (starts_behindDigits.mono fun _ => not_isDigit_of_endsDigits)
  rw [numeral_eq_andThen]
  exact longest_andThen (longest_splitOne _) within_sign hdigits starts_behindSign cs

/-! ## Numerals that write no number -/

/-- Numerals without a digit before their exponent. -/
def digitlessForm : Language Char :=
  optionally (oneOf Decimal.isSign) * (optionally (oneOf (· == '.')) * optionally exponentForm)

/-- Numerals without a digit in the exponent that their mark begins. -/
def openForm : Language Char :=
  optionally (oneOf Decimal.isSign) * ((oneOf Char.isDigit)∗ *
    (optionally fractionForm * (oneOf isExponentMark * optionally (oneOf Decimal.isSign))))

/-- The characters of numerals. -/
def isNumeralPart (c : Char) : Bool := Decimal.isSign c || c.isDigit || endsDigits c

theorem within_numeralForm : Within isNumeralPart numeralForm := by
  have hsign : Within isNumeralPart (optionally (oneOf Decimal.isSign)) :=
    (within_oneOf fun c hc => by simp [isNumeralPart, hc]).optionally
  have hdigits : Within isNumeralPart (oneOf Char.isDigit)∗ :=
    within_kstar fun c hc => by simp [isNumeralPart, hc]
  have hpoint : Within isNumeralPart (oneOf (· == '.')) :=
    within_oneOf fun c hc => by simp [isNumeralPart, endsDigits, hc]
  have hmark : Within isNumeralPart (oneOf isExponentMark) :=
    within_oneOf fun c hc => by simp [isNumeralPart, endsDigits, hc]
  exact hsign.mul (hdigits.mul ((hpoint.mul hdigits).optionally.mul
    (hmark.mul (hsign.mul hdigits)).optionally))

theorem toLower_of_isDigit {c : Char} (h : c.isDigit = true) : c.toLower = c := by
  have hupper : ¬ (c.val ≥ 'A'.val ∧ c.val ≤ 'Z'.val) := by
    have hnine : '9'.val.toNat = 57 := rfl
    have hA : 'A'.val.toNat = 65 := rfl
    simp only [Char.isDigit, Bool.and_eq_true, decide_eq_true_eq, ge_iff_le,
      UInt32.le_iff_toNat_le] at h ⊢
    omega
  rw [Char.toLower, dif_neg hupper]

theorem toLower_ne_of_isNumeralPart {c : Char} (h : isNumeralPart c = true) : c.toLower ≠ 'n' := by
  simp only [isNumeralPart, Decimal.isSign, endsDigits, isExponentMark, Bool.or_eq_true,
    beq_iff_eq] at h
  rcases h with ((rfl | rfl) | hdigit) | (rfl | rfl | rfl)
  · decide
  · decide
  · rw [toLower_of_isDigit hdigit]
    rintro rfl
    exact absurd hdigit (by decide)
  · decide
  · decide
  · decide

/-- The words that stand for numbers have a letter that is in no numeral. -/
theorem readWord?_eq_none (h : ∀ c ∈ cs, isNumeralPart c = true) : Decimal.readWord? cs = none := by
  have hletter : 'n' ∉ cs.map Char.toLower := by
    intro hmem
    obtain ⟨c, hc, hlower⟩ := List.mem_map.mp hmem
    exact toLower_ne_of_isNumeralPart (h c hc) hlower
  have hne : ∀ word : String, 'n' ∈ word.toList → String.ofList (cs.map Char.toLower) ≠ word := by
    rintro word hword rfl
    rw [String.toList_ofList] at hword
    exact hletter hword
  unfold Decimal.readWord?
  split
  · next heq => exact absurd heq (hne _ (by decide))
  · next heq => exact absurd heq (hne _ (by decide))
  · next heq => exact absurd heq (hne _ (by decide))
  · rfl

/-- The sign of a numeral is split off, and nothing else. -/
theorem splitSign_append {sign rest : List Char} (hsign : sign ∈ optionally (oneOf Decimal.isSign))
    (hrest : ∀ c ∈ rest.head?, Decimal.isSign c = false) :
    (Decimal.splitSign (sign ++ rest)).2 = rest := by
  rcases mem_optionally.mp hsign with rfl | ⟨c, hc, rfl⟩
  · rw [List.nil_append]
    unfold Decimal.splitSign
    split
    · exact absurd (hrest '+' rfl) (by decide)
    · exact absurd (hrest '-' rfl) (by decide)
    · rfl
  · simp only [Decimal.isSign, Bool.or_eq_true, beq_iff_eq] at hc
    rcases hc with rfl | rfl <;> rfl

/-- No text of a language begins with a character that begins none. -/
theorem Starts.forall_head? (h : Starts (!p ·) L) (hcs : cs ∈ L) : ∀ c ∈ cs.head?, p c = false := by
  intro c hc
  obtain ⟨rest, rfl⟩ := List.head?_eq_some_iff.mp hc
  have hout : (!p c) = true := h c rest hcs
  rwa [Bool.not_eq_true'] at hout

theorem starts_digits : Starts (!Decimal.isSign ·) (oneOf Char.isDigit)∗ :=
  (within_kstar fun _ => not_isSign_of_isDigit).starts

/-- An exponent is readable unless its mark begins no digits. -/
theorem readExponent?_eq_none (h : cs ∈ optionally exponentForm) :
    Decimal.readExponent? cs = none ↔
      cs ∈ oneOf isExponentMark * optionally (oneOf Decimal.isSign) := by
  rcases mem_optionally.mp h with rfl | h
  · refine iff_of_false (by simp [Decimal.readExponent?]) fun hmem => ?_
    obtain ⟨_, ⟨c, -, rfl⟩, back, -, heq⟩ := Language.mem_mul.mp hmem
    cases heq
  · obtain ⟨_, ⟨c, hc, rfl⟩, back, hback, rfl⟩ := Language.mem_mul.mp h
    obtain ⟨sign, hsign, digits, hdigits, rfl⟩ := Language.mem_mul.mp hback
    have hsplit := splitSign_append hsign (starts_digits.forall_head? hdigits)
    have hall : digits.all Char.isDigit = true := List.all_eq_true.mpr (mem_kstar_oneOf.mp hdigits)
    have hread : Decimal.readExponent? ([c] ++ (sign ++ digits)) = none ↔ digits = [] := by
      have hmark : (c == 'e' || c == 'E') = true := hc
      rw [List.singleton_append, Decimal.readExponent?, if_pos hmark]
      dsimp only
      rw [hsplit, hall]
      rcases digits with _ | ⟨d, digits⟩ <;> simp
    rw [hread]
    constructor
    · rintro rfl
      rw [List.append_nil]
      exact Language.append_mem_mul (mem_oneOf.mpr ⟨c, hc, rfl⟩) hsign
    · intro hmem
      obtain ⟨_, ⟨m, -, rfl⟩, sign', hsign', heq⟩ := Language.mem_mul.mp hmem
      obtain ⟨-, rfl⟩ := List.cons.inj heq
      -- a digit would be a sign
      refine List.eq_nil_iff_forall_not_mem.mpr fun d hd => ?_
      have hout := not_isSign_of_isDigit (mem_kstar_oneOf.mp hdigits d hd)
      rw [within_sign _ hsign' d (List.mem_append_right sign hd)] at hout
      cases hout

theorem dropWhile_append_stop {front rest : List Char} (hfront : ∀ c ∈ front, p c = true)
    (hrest : ∀ c ∈ rest.head?, p c = false) : (front ++ rest).dropWhile p = rest := by
  rw [← drop_length_takeWhile, takeWhile_append_stop hfront hrest, List.drop_left]

variable {sign whole digits fraction exponent : List Char}

theorem readMagnitude?_point (hwhole : ∀ c ∈ whole, c.isDigit = true)
    (hdigits : ∀ c ∈ digits, c.isDigit = true) (hexponent : ∀ c ∈ exponent.head?, c.isDigit = false) :
    Decimal.readMagnitude? (whole ++ '.' :: (digits ++ exponent)) =
      if whole.isEmpty && digits.isEmpty then none
      else (Decimal.readExponent? exponent).map fun e =>
        Decimal.nearest (Decimal.ofDigits (whole ++ digits)) (e - digits.length) := by
  have hpoint : ∀ c ∈ ('.' :: (digits ++ exponent)).head?, c.isDigit = false := by
    rintro c ⟨⟩
    rfl
  simp only [Decimal.readMagnitude?, takeWhile_append_stop hwhole hpoint,
    dropWhile_append_stop hwhole hpoint, takeWhile_append_stop hdigits hexponent,
    dropWhile_append_stop hdigits hexponent]

theorem readMagnitude?_noPoint (hwhole : ∀ c ∈ whole, c.isDigit = true)
    (hexponent : ∀ c ∈ exponent.head?, isExponentMark c = true) :
    Decimal.readMagnitude? (whole ++ exponent) =
      if whole.isEmpty then none
      else (Decimal.readExponent? exponent).map fun e =>
        Decimal.nearest (Decimal.ofDigits whole) e := by
  have hends : ∀ c ∈ exponent.head?, c.isDigit = false := fun c hc => by
    have := not_isDigit_of_endsDigits (c := c) (by simp [endsDigits, hexponent c hc])
    rwa [Bool.not_eq_true'] at this
  -- by this fact the reader takes no fraction
  have hpoint : ∀ rest, exponent ≠ '.' :: rest := by
    rintro rest rfl
    exact absurd (hexponent '.' rfl) (by decide)
  simp only [Decimal.readMagnitude?, takeWhile_append_stop hwhole hends,
    dropWhile_append_stop hwhole hends]
  simp

/-- What a point and an exponent leave of an unsigned numeral decides whether it can be read. -/
theorem readMagnitude?_eq_none (hwhole : whole ∈ (oneOf Char.isDigit)∗)
    (hfraction : fraction ∈ optionally fractionForm)
    (hexponent : exponent ∈ optionally exponentForm) :
    Decimal.readMagnitude? (whole ++ (fraction ++ exponent)) = none ↔
      whole = [] ∧ fraction ∈ optionally (oneOf (· == '.')) ∨
        exponent ∈ oneOf isExponentMark * optionally (oneOf Decimal.isSign) := by
  have hdigits := mem_kstar_oneOf.mp hwhole
  rw [← readExponent?_eq_none hexponent]
  rcases mem_optionally.mp hfraction with rfl | hpoint
  · have hmark : ∀ c ∈ exponent.head?, isExponentMark c = true := by
      intro c hc
      obtain ⟨rest, rfl⟩ := List.head?_eq_some_iff.mp hc
      exact starts_exponentForm c rest hexponent
    have hnil := nil_mem_optionally (oneOf (· == '.'))
    rw [List.nil_append, readMagnitude?_noPoint hdigits hmark]
    rcases whole with _ | ⟨d, whole⟩ <;> simp [hnil]
  · obtain ⟨_, ⟨c, hc, rfl⟩, digits, hbehind, rfl⟩ := Language.mem_mul.mp hpoint
    obtain rfl : c = '.' := beq_iff_eq.mp hc
    have hstop : ∀ c ∈ exponent.head?, c.isDigit = false :=
      (starts_exponentForm.mono fun c hc =>
        not_isDigit_of_endsDigits (by simp [endsDigits, hc])).forall_head? hexponent
    have hbare : ['.'] ++ digits ∈ optionally (oneOf (· == '.')) ↔ digits = [] := by
      rw [mem_optionally, mem_oneOf]
      rcases digits with _ | ⟨d, digits⟩ <;> simp
    rw [hbare, List.append_assoc, List.singleton_append,
      readMagnitude?_point hdigits (mem_kstar_oneOf.mp hbehind) hstop]
    rcases whole with _ | ⟨d, whole⟩ <;> rcases digits with _ | ⟨d', digits⟩ <;> simp

/-- A text without digits where it needs them is read as no number, and any other numeral as one. -/
theorem readFloatChars_parts (hsign : sign ∈ optionally (oneOf Decimal.isSign))
    (hwhole : whole ∈ (oneOf Char.isDigit)∗) (hfraction : fraction ∈ optionally fractionForm)
    (hexponent : exponent ∈ optionally exponentForm) :
    (∃ fault, Decimal.readFloatChars (sign ++ (whole ++ (fraction ++ exponent))) = .error fault) ↔
      whole = [] ∧ fraction ∈ optionally (oneOf (· == '.')) ∨
        exponent ∈ oneOf isExponentMark * optionally (oneOf Decimal.isSign) := by
  have hunsigned : whole ++ (fraction ++ exponent) ∈
      (oneOf Char.isDigit)∗ * (optionally fractionForm * optionally exponentForm) :=
    Language.append_mem_mul hwhole (Language.append_mem_mul hfraction hexponent)
  have hsplit := splitSign_append hsign (starts_behindSign.forall_head? hunsigned)
  have hword : Decimal.readWord? (whole ++ (fraction ++ exponent)) = none :=
    readWord?_eq_none fun c hc => within_numeralForm _
      (Language.append_mem_mul hsign hunsigned) c (List.mem_append_right sign hc)
  rw [← readMagnitude?_eq_none hwhole hfraction hexponent]
  unfold Decimal.readFloatChars
  split
  · next hempty =>
    simp only [List.isEmpty_iff, List.append_eq_nil_iff] at hempty
    obtain ⟨-, rfl, rfl, rfl⟩ := hempty
    exact iff_of_true ⟨_, rfl⟩ rfl
  · dsimp only
    rw [hsplit, hword, Option.or_none]
    rcases Decimal.readMagnitude? (whole ++ (fraction ++ exponent)) with _ | x <;> simp

theorem fraction_of_point (h : cs ∈ optionally (oneOf (· == '.'))) :
    cs ∈ optionally fractionForm := by
  refine mem_optionally.mpr ((mem_optionally.mp h).imp_right fun hpoint => ?_)
  have hnone := Language.append_mem_mul hpoint (Language.nil_mem_kstar (oneOf Char.isDigit))
  rwa [List.append_nil] at hnone

theorem exponent_of_mark (h : cs ∈ oneOf isExponentMark * optionally (oneOf Decimal.isSign)) :
    cs ∈ optionally exponentForm := by
  have hnone := Language.append_mem_mul h (Language.nil_mem_kstar (oneOf Char.isDigit))
  rw [List.append_nil, mul_assoc] at hnone
  exact mem_optionally.mpr (.inr hnone)

/-- **A numeral writes no number** exactly if it has no digit before its exponent, or a mark of an
exponent without a digit. -/
theorem readFloatChars_error_iff (h : text ∈ numeralForm) :
    (∃ fault, Decimal.readFloatChars text = .error fault) ↔
      text ∈ digitlessForm ∨ text ∈ openForm := by
  constructor
  · intro hfault
    obtain ⟨sign, hsign, unsigned, hunsigned, rfl⟩ := Language.mem_mul.mp h
    obtain ⟨whole, hwhole, behind, hbehind, rfl⟩ := Language.mem_mul.mp hunsigned
    obtain ⟨fraction, hfraction, exponent, hexponent, rfl⟩ := Language.mem_mul.mp hbehind
    rcases (readFloatChars_parts hsign hwhole hfraction hexponent).mp hfault with
      ⟨rfl, hpoint⟩ | hopen
    · rw [List.nil_append]
      exact .inl (Language.append_mem_mul hsign (Language.append_mem_mul hpoint hexponent))
    · exact .inr (Language.append_mem_mul hsign (Language.append_mem_mul hwhole
        (Language.append_mem_mul hfraction hopen)))
  · rintro (hdigitless | hopen)
    · obtain ⟨sign, hsign, unsigned, hunsigned, rfl⟩ := Language.mem_mul.mp hdigitless
      obtain ⟨point, hpoint, exponent, hexponent, rfl⟩ := Language.mem_mul.mp hunsigned
      have hparts := readFloatChars_parts hsign (Language.nil_mem_kstar _)
        (fraction_of_point hpoint) hexponent
      exact hparts.mpr (.inl ⟨rfl, hpoint⟩)
    · obtain ⟨sign, hsign, unsigned, hunsigned, rfl⟩ := Language.mem_mul.mp hopen
      obtain ⟨whole, hwhole, behind, hbehind, rfl⟩ := Language.mem_mul.mp hunsigned
      obtain ⟨fraction, hfraction, exponent, hexponent, rfl⟩ := Language.mem_mul.mp hbehind
      have hparts := readFloatChars_parts hsign hwhole hfraction (exponent_of_mark hexponent)
      exact hparts.mpr (.inr hexponent)

end SignalLab
