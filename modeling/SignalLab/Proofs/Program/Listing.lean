import SignalLab.Program
import SignalLab.Proofs.Decimal.Plain
import SignalLab.Proofs.Token.Piece

/-!
# Listings tell programs apart

Two programs with the same listing are the same program, provided that the names in them are words
(`Program.listing_injective`). A name may be that of a kind of instruction, and then it is still told
apart from it.

## Shape of the argument

Each part of a listing ends at a character that the part cannot have: a line at its line end, a name
at the space before an operand, and an operand at the space before the next one. So two equal texts are
equal part by part. A number is read back from its plain text, the sign of zero included.
-/

namespace SignalLab

namespace Instruction

/-- The name that an instruction uses. -/
def name? : Instruction → Option String
  | .literal _ => none
  | .reference name | .apply name _ => some name

/-- The name that an instruction uses, if any, is a word. -/
def Spelled (i : Instruction) : Prop := ∀ name ∈ i.name?, isWord name.toList = true

/-! ## Operands -/

/-- The operands of an application as they are listed. -/
def operandsText (operands : List Nat) : List Char :=
  operands.flatMap fun operand => ' ' :: '%' :: Nat.toDigits 10 operand

theorem toList_operands (operands : List Nat) :
    (String.join (operands.map fun operand => " %" ++ toString operand)).toList =
      operandsText operands := by
  rw [String.toList_join, List.flatMap_map, operandsText]
  refine List.flatMap_congr fun operand _ => ?_
  rw [String.toList_append, Decimal.toList_toString]
  rfl

/-- An operand ends where the next one begins. -/
theorem head?_operandsText (operands : List Nat) : ∀ c ∈ (operandsText operands).head?, c = ' ' := by
  cases operands with
  | nil => simp [operandsText]
  | cons operand operands => simp [operandsText]

theorem operandsText_injective : ∀ {ks ls : List Nat}, operandsText ks = operandsText ls → ks = ls
  | [], [], _ => rfl
  | [], l :: ls, h => by simp [operandsText] at h
  | k :: ks, [], h => by simp [operandsText] at h
  | k :: ks, l :: ls, h => by
    have hdigits : Nat.toDigits 10 k ++ operandsText ks = Nat.toDigits 10 l ++ operandsText ls := by
      simpa [operandsText] using h
    have hends (operands : List Nat) :
        ∀ c ∈ (operandsText operands).head?, Char.isDigit c = false := fun c hc => by
      rw [head?_operandsText operands c hc]
      rfl
    obtain ⟨hk, hks⟩ := eq_of_append_stop Decimal.isDigit_toDigits (hends ks)
      Decimal.isDigit_toDigits (hends ls) hdigits
    have hkl : k = l := by
      rw [← Decimal.ofDigits_toDigits k, hk, Decimal.ofDigits_toDigits]
    rw [hkl, operandsText_injective hks]

/-! ## Instructions -/

theorem toList_text_literal (value : Float) :
    (literal value).text.toList = "literal ".toList ++ (Decimal.plain value).toList :=
  String.toList_append

theorem toList_text_reference (name : String) :
    (reference name).text.toList = "reference ".toList ++ name.toList :=
  String.toList_append

theorem toList_text_apply (name : String) (operands : List Nat) :
    (apply name operands).text.toList =
      "apply ".toList ++ (name.toList ++ operandsText operands) := by
  rw [text, String.toList_append, String.toList_append, toList_operands, List.append_assoc]

/-- The text of an instruction is a single line. -/
theorem lineEnd_notMem_text {i : Instruction} (hi : i.Spelled) : '\n' ∉ i.text.toList := by
  have hword {name : String} (h : isWord name.toList = true) : '\n' ∉ name.toList := fun hc =>
    absurd (isWordPart_of_isWord h _ hc) (by decide)
  cases i with
  | literal value =>
    rw [toList_text_literal, List.mem_append, not_or]
    refine ⟨by decide, fun hc => ?_⟩
    rcases Decimal.mem_plain value _ hc with hdigit | hother
    · exact absurd hdigit (by decide)
    · exact absurd hother (by decide)
  | reference name =>
    rw [toList_text_reference, List.mem_append, not_or]
    exact ⟨by decide, hword (hi name rfl)⟩
  | apply name operands =>
    rw [toList_text_apply, List.mem_append, List.mem_append, not_or, not_or]
    refine ⟨by decide, hword (hi name rfl), fun hc => ?_⟩
    obtain ⟨operand, -, hc⟩ := List.mem_flatMap.mp hc
    have hdigits : '\n' ∈ Nat.toDigits 10 operand := by simpa using hc
    exact absurd (Decimal.isDigit_toDigits _ hdigits) (by decide)

/-- The text of an instruction tells it: the first letter which kind it is, and then each part. -/
theorem text_injective {i j : Instruction} (hi : i.Spelled) (hj : j.Spelled)
    (h : i.text.toList = j.text.toList) : i = j := by
  rcases i with v | n | ⟨n, ks⟩ <;> rcases j with w | m | ⟨m, ls⟩ <;>
    simp only [toList_text_literal, toList_text_reference, toList_text_apply] at h
  case literal.literal =>
    rw [Decimal.plain_injective (String.toList_injective (List.append_cancel_left h))]
  case reference.reference =>
    rw [String.toList_injective (List.append_cancel_left h)]
  case apply.apply =>
    have hends (operands : List Nat) :
        ∀ c ∈ (operandsText operands).head?, isWordPart c = false := fun c hc => by
      rw [head?_operandsText operands c hc]
      rfl
    obtain ⟨hname, hoperands⟩ := eq_of_append_stop (isWordPart_of_isWord (hi n rfl)) (hends ks)
      (isWordPart_of_isWord (hj m rfl)) (hends ls) (List.append_cancel_left h)
    rw [String.toList_injective hname, operandsText_injective hoperands]
  all_goals cases h

end Instruction

/-! ## Programs -/

namespace Program

/-- The lines of some instructions, of which the first has the given index. -/
def linesText (index : Nat) : List Instruction → List Char
  | [] => []
  | i :: rest =>
    ("%" ++ toString index ++ " = ").toList ++ (i.text.toList ++ '\n' :: linesText (index + 1) rest)

theorem toList_listing (p : Program) : p.listing.toList = linesText 0 p.instructions.toList := by
  have hlines (is : List Instruction) : ∀ index : Nat,
      (String.join <| is.mapIdx fun n i =>
        "%" ++ toString (n + index) ++ " = " ++ i.text ++ "\n").toList = linesText index is := by
    induction is with
    | nil => exact fun _ => rfl
    | cons i rest ih =>
      intro index
      rw [List.mapIdx_cons, String.join_cons, String.toList_append, linesText, ← ih (index + 1)]
      simp only [String.toList_append, List.append_assoc, Nat.zero_add, Nat.add_assoc,
        Nat.add_comm 1 index]
      rfl
  exact hlines _ 0

theorem linesText_injective : ∀ {is js : List Instruction} (index : Nat),
    (∀ i ∈ is, i.Spelled) → (∀ j ∈ js, j.Spelled) → linesText index is = linesText index js → is = js
  | [], [], _, _, _, _ => rfl
  | [], j :: js, index, _, _, h => by simp [linesText] at h
  | i :: is, [], index, _, _, h => by simp [linesText] at h
  | i :: is, j :: js, index, his, hjs, h => by
    rw [List.forall_mem_cons] at his hjs
    rw [linesText, linesText] at h
    have hline {i : Instruction} (hi : i.Spelled) : ∀ c ∈ i.text.toList, (c != '\n') = true :=
      fun c hc => bne_iff_ne.mpr fun heq => Instruction.lineEnd_notMem_text hi (heq ▸ hc)
    have hends (rest : List Char) : ∀ c ∈ ('\n' :: rest).head?, (c != '\n') = false := by simp
    obtain ⟨htext, hrest⟩ := eq_of_append_stop (hline his.1) (hends _) (hline hjs.1) (hends _)
      (List.append_cancel_left h)
    rw [Instruction.text_injective his.1 hjs.1 htext,
      linesText_injective (index + 1) his.2 hjs.2 (List.cons.inj hrest).2]

/-- **Programs with the same listing are the same**, instruction by instruction, if the names that
they use are words. -/
theorem listing_injective {p q : Program} (hp : ∀ i ∈ p.instructions, i.Spelled)
    (hq : ∀ i ∈ q.instructions, i.Spelled) (h : p.listing = q.listing) : p = q := by
  have htext : linesText 0 p.instructions.toList = linesText 0 q.instructions.toList := by
    rw [← toList_listing, h, toList_listing]
  have hlist := linesText_injective 0 (fun i hi => hp i (Array.mem_toList_iff.mp hi))
    (fun j hj => hq j (Array.mem_toList_iff.mp hj)) htext
  cases p
  cases q
  exact congrArg Program.mk (Array.toList_inj.mp hlist)

/-- A name may be that of a kind of instruction, and what is not a number has one text, however it
comes about. -/
theorem listing_injective_keywordNames :
    (⟨#[.literal (0.0 / 0.0), .reference "literal", .apply "apply" [0, 1]]⟩ : Program).listing =
        "%0 = literal NaN\n%1 = reference literal\n%2 = apply apply %0 %1\n" ∧
      (⟨#[.literal (0.0 / 0.0), .reference "literal", .apply "apply" [0, 1]]⟩ : Program) =
        ⟨#[.literal (1.0 / 0.0 - 1.0 / 0.0), .reference "literal", .apply "apply" [0, 1]]⟩ := by
  have hspelled (value : Float) :
      ∀ i ∈ (#[.literal value, .reference "literal", .apply "apply" [0, 1]] : Array Instruction),
        i.Spelled := by
    have hwords : isWord "literal".toList = true ∧ isWord "apply".toList = true := by decide
    simpa [Instruction.Spelled, Instruction.name?] using hwords
  exact ⟨rfl, listing_injective (hspelled _) (hspelled _) rfl⟩

end Program

end SignalLab
