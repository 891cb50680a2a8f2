import SignalLab.Proofs.Expr.Paths
import SignalLab.Proofs.Program.Acceptance

/-!
# Which instructions are emitted

A lowered program is the references of the vocabulary, then one instruction for each number and each
application of the expression, in postorder, and then the instruction of the root once more unless it
is the last one already (`ofExpr_emits_postorder`).

Names and bindings have no instructions of their own. Which instruction stands for a node is told by
`IndexOf`, without lowering: a number or an application has one of its own, a binding has that of its
body, a name has that of the value it is bound to or of the reference it is.

## Shape of the argument

While the part at some path is lowered, the paths below it are next in the postorder of the whole
expression (`Next`), and the names in scope are those that mean something at the path (`ScopeAt`). The
part adds one instruction for each of its own paths (`Emits`), so what is behind it is next then.
-/

namespace SignalLab

namespace Expr

/-- A binding of a name around a node: the node lies in its body. -/
structure BindsAround (e : Expr) (name : String) (path binder : Path) : Prop where
  inBody : binder ++ [1] <+: path
  node : ∃ span value body, e.at? binder = some (.binding span name value body)

/-- The binding that a name means at a node: the innermost one around it. -/
structure Binds (e : Expr) (name : String) (path binder : Path) : Prop where
  around : e.BindsAround name path binder
  innermost : ∀ other, e.BindsAround name path other → other.length ≤ binder.length

variable {e node : Expr} {name : String} {path binder binder' : Path} {k : ℕ}

theorem Binds.unique (h : e.Binds name path binder) (h' : e.Binds name path binder') :
    binder = binder' := by
  have hlength := Nat.le_antisymm (h'.innermost _ h.around) (h.innermost _ h'.around)
  have hbegins : binder ++ [1] <+: binder' ++ [1] := by
    refine List.prefix_of_prefix_length_le h.around.inBody h'.around.inBody ?_
    simp [hlength]
  exact List.append_cancel_right (hbegins.eq_of_length (by simp [hlength]))

/-- What is around a node is around its parts. Only the body of a binding has one more around it. -/
theorem bindsAround_concat_iff (hnode : e.at? path = some node) :
    e.BindsAround name (path ++ [k]) binder ↔ e.BindsAround name path binder ∨
      binder = path ∧ k = 1 ∧ ∃ span value body, node = .binding span name value body := by
  constructor
  · rintro ⟨hin, hbinder⟩
    rcases List.prefix_concat_iff.mp hin with heq | hin
    · obtain ⟨rfl, hk⟩ := List.append_inj' heq rfl
      rw [hnode] at hbinder
      refine .inr ⟨rfl, ?_, ?_⟩
      · rw [List.cons.injEq] at hk
        exact hk.1.symm
      · obtain ⟨span, value, body, hbinding⟩ := hbinder
        exact ⟨span, value, body, Option.some.inj hbinding⟩
    · exact .inl ⟨hin, hbinder⟩
  · rintro (⟨hin, hbinder⟩ | ⟨rfl, rfl, span, value, body, rfl⟩)
    · exact ⟨hin.trans (List.prefix_append _ _), hbinder⟩
    · exact ⟨List.prefix_rfl, span, value, body, hnode⟩

end Expr

namespace Program

open SignalLab.Expr (Path InPostorder BindsAround Binds isLiteral isApplication)
open Vocabulary (bound)

/-! ## What stands for a node -/

/-- The index of the instruction that stands for a node, where the instructions of the references come
first and those of the given paths behind them. -/
inductive IndexOf (references : List String) (e : Expr) (paths : List Path) : Path → ℕ → Prop
  | computed {path : Path} {k : ℕ} (hpath : paths[k]? = some path) :
      IndexOf references e paths path (references.length + k)
  | body {path : Path} {span : Span} {name : String} {value body : Expr} {i : ℕ}
      (hnode : e.at? path = some (.binding span name value body))
      (hbody : IndexOf references e paths (path ++ [1]) i) : IndexOf references e paths path i
  | value {path binder : Path} {span : Span} {name : String} {i : ℕ}
      (hnode : e.at? path = some (.reference span name)) (hbinds : e.Binds name path binder)
      (hvalue : IndexOf references e paths (binder ++ [0]) i) : IndexOf references e paths path i
  | free {path : Path} {span : Span} {name : String} {i : ℕ}
      (hnode : e.at? path = some (.reference span name))
      (hfree : ∀ binder, ¬ e.BindsAround name path binder)
      (hname : references[i]? = some name) : IndexOf references e paths path i

/-- The instruction of a number or an application. -/
inductive InstructionOf (references : List String) (e : Expr) (paths : List Path) :
    Path → Instruction → Prop
  | literal {path : Path} {span : Span} {value : Float}
      (hnode : e.at? path = some (.literal span value)) :
      InstructionOf references e paths path (.literal value)
  | apply {path : Path} {span : Span} {name : String} {arguments : List Expr} {operands : List ℕ}
      (hnode : e.at? path = some (.application span name arguments))
      (hlength : operands.length = arguments.length)
      (hoperands : ∀ k i, operands[k]? = some i → IndexOf references e paths (path ++ [k]) i) :
      InstructionOf references e paths path (.apply name operands)

variable {v : Vocabulary} {references : List String} {e node : Expr} {paths : List Path}
  {path : Path} {name : String} {scope : Scope} {p q r : Program} {i j k : ℕ}

theorem eq_of_getElem? {α : Type} {xs : List α} {x : α} (hxs : xs.Nodup) (h : xs[i]? = some x)
    (h' : xs[j]? = some x) : i = j :=
  (List.getElem?_inj (List.getElem?_eq_some_iff.mp h).1 hxs).mp (h.trans h'.symm)

/-- **One instruction stands for a node**, if names are not declared twice. -/
theorem IndexOf.unique (hpaths : InPostorder e paths) (hreferences : references.Nodup)
    (h : IndexOf references e paths path i) (h' : IndexOf references e paths path j) : i = j := by
  -- names and bindings are not among the paths
  have hcomputed {path : Path} {k : ℕ} {node : Expr} (hpath : paths[k]? = some path)
      (hnode : e.at? path = some node) : node.isComputed = true := by
    obtain ⟨other, hother, hcomputed⟩ := (hpaths.mem_iff path).mp (List.mem_of_getElem? hpath)
    rw [hnode, Option.some.injEq] at hother
    rw [hother]
    exact hcomputed
  induction h generalizing j with
  | computed hpath =>
    cases h' with
    | computed hpath' => rw [eq_of_getElem? hpaths.nodup hpath hpath']
    | body hnode => exact absurd (hcomputed hpath hnode) Bool.false_ne_true
    | value hnode => exact absurd (hcomputed hpath hnode) Bool.false_ne_true
    | free hnode => exact absurd (hcomputed hpath hnode) Bool.false_ne_true
  | body hnode _ ih =>
    cases h' with
    | computed hpath' => exact absurd (hcomputed hpath' hnode) Bool.false_ne_true
    | body _ hbody' => exact ih hbody'
    | value hnode' => rw [hnode] at hnode'; cases hnode'
    | free hnode' => rw [hnode] at hnode'; cases hnode'
  | value hnode hbinds _ ih =>
    cases h' with
    | computed hpath' => exact absurd (hcomputed hpath' hnode) Bool.false_ne_true
    | body hnode' => rw [hnode] at hnode'; cases hnode'
    | value hnode' hbinds' hvalue' =>
      rw [hnode] at hnode'
      cases hnode'
      rw [← hbinds.unique hbinds'] at hvalue'
      exact ih hvalue'
    | free hnode' hfree' =>
      rw [hnode] at hnode'
      cases hnode'
      exact absurd hbinds.around (hfree' _)
  | free hnode hfree hname =>
    cases h' with
    | computed hpath' => exact absurd (hcomputed hpath' hnode) Bool.false_ne_true
    | body hnode' => rw [hnode] at hnode'; cases hnode'
    | value hnode' hbinds' =>
      rw [hnode] at hnode'
      cases hnode'
      exact absurd hbinds'.around (hfree _)
    | free hnode' _ hname' =>
      rw [hnode] at hnode'
      cases hnode'
      exact eq_of_getElem? hreferences hname hname'

theorem IndexOf.lt (h : IndexOf references e paths path i) : i < references.length + paths.length := by
  induction h with
  | computed hpath => exact Nat.add_lt_add_left (List.getElem?_eq_some_iff.mp hpath).1 _
  | body _ _ ih => exact ih
  | value _ _ _ ih => exact ih
  | free _ _ hname => exact Nat.lt_add_right _ (List.getElem?_eq_some_iff.mp hname).1

/-! ## Names in scope -/

/-- The instruction that a name stands for at a path. -/
inductive NameAt (references : List String) (e : Expr) (paths : List Path) (path : Path)
    (name : String) (i : ℕ) : Prop
  | value {binder : Path} (hbinds : e.Binds name path binder)
      (hvalue : IndexOf references e paths (binder ++ [0]) i)
  | free (hfree : ∀ binder, ¬ e.BindsAround name path binder) (hname : references[i]? = some name)

/-- The names in scope are those that stand for something at a path. -/
def ScopeAt (references : List String) (e : Expr) (paths : List Path) (path : Path)
    (scope : Scope) : Prop :=
  ∀ name i, scope.lookup name = some i → NameAt references e paths path name i

theorem NameAt.indexOf (h : NameAt references e paths path name i) {span : Span}
    (hnode : e.at? path = some (.reference span name)) : IndexOf references e paths path i := by
  cases h with
  | value hbinds hvalue => exact .value hnode hbinds hvalue
  | free hfree hname => exact .free hnode hfree hname

/-- A name means the same wherever the same bindings of it are around. -/
theorem NameAt.congr {path' : Path} (h : NameAt references e paths path name i)
    (hsame : ∀ binder, e.BindsAround name path' binder ↔ e.BindsAround name path binder) :
    NameAt references e paths path' name i := by
  cases h with
  | value hbinds hvalue =>
    refine .value ⟨(hsame _).mpr hbinds.around, fun other hother => ?_⟩ hvalue
    exact hbinds.innermost other ((hsame other).mp hother)
  | free hfree hname => exact .free (fun binder => (hsame binder).not.mpr (hfree binder)) hname

/-- Scopes are handed on to all parts of a node but the body of a binding. -/
theorem ScopeAt.part (h : ScopeAt references e paths path scope) (hnode : e.at? path = some node)
    (hpart : k = 1 → ∀ span name value body, node ≠ .binding span name value body) :
    ScopeAt references e paths (path ++ [k]) scope := by
  intro name i hi
  refine (h name i hi).congr fun binder => ?_
  rw [Expr.bindsAround_concat_iff hnode]
  refine or_iff_left ?_
  rintro ⟨-, hk, span, value, body, heq⟩
  exact hpart hk span name value body heq

/-- In its body a binding brings its name into scope, which hides what the name meant before. -/
theorem ScopeAt.body (h : ScopeAt references e paths path scope) {span : Span} {value body : Expr}
    (hnode : e.at? path = some (.binding span name value body))
    (hvalue : IndexOf references e paths (path ++ [0]) i) :
    ScopeAt references e paths (path ++ [1]) ((name, i) :: scope) := by
  intro other j hj
  rw [lookup_cons_pair] at hj
  by_cases hother : other = name
  · rw [if_pos hother, Option.some.injEq] at hj
    subst hother hj
    refine .value ⟨(Expr.bindsAround_concat_iff hnode).mpr (.inr ⟨rfl, rfl, _, _, _, rfl⟩), ?_⟩ hvalue
    rintro binder hbinder
    rcases (Expr.bindsAround_concat_iff hnode).mp hbinder with hbinder | ⟨rfl, -⟩
    · have hlength := hbinder.inBody.length_le
      rw [List.length_append] at hlength
      omega
    · exact Nat.le_refl _
  · rw [if_neg hother] at hj
    refine (h other j hj).congr fun binder => ?_
    rw [Expr.bindsAround_concat_iff hnode]
    refine or_iff_left ?_
    rintro ⟨-, -, _, _, _, heq⟩
    cases heq
    exact hother rfl

/-! ## Instructions that are added -/

/-- The paths that come next, of those that are gone through in order. -/
def Next (references : List String) (paths : List Path) (p : Program) (here : List Path) : Prop :=
  ∃ before after, paths = before ++ here ++ after ∧ p.size = references.length + before.length

/-- From one program to another an instruction is added for each of some paths. -/
def Emits (references : List String) (e : Expr) (paths : List Path) (p q : Program)
    (here : List Path) : Prop :=
  ∃ instructions, q.instructions.toList = p.instructions.toList ++ instructions ∧
    List.Forall₂ (InstructionOf references e paths) here instructions

variable {here there : List Path}

theorem Emits.size_eq (h : Emits references e paths p q here) : q.size = p.size + here.length := by
  obtain ⟨instructions, hq, hinstructions⟩ := h
  rw [Program.size, Program.size, ← Array.length_toList, hq, List.length_append,
    Array.length_toList, hinstructions.length_eq]

theorem Emits.nil (p : Program) : Emits references e paths p p [] :=
  ⟨[], (List.append_nil _).symm, .nil⟩

theorem Emits.append (h : Emits references e paths p q here) (h' : Emits references e paths q r there) :
    Emits references e paths p r (here ++ there) := by
  obtain ⟨instructions, hq, hinstructions⟩ := h
  obtain ⟨instructions', hr, hinstructions'⟩ := h'
  exact ⟨instructions ++ instructions', by rw [hr, hq, List.append_assoc],
    List.rel_append hinstructions hinstructions'⟩

theorem Emits.push {instruction : Instruction}
    (h : InstructionOf references e paths path instruction) (p : Program) :
    Emits references e paths p (p.push instruction) [path] :=
  ⟨[instruction], Array.toList_push, .cons h .nil⟩

theorem Next.left (h : Next references paths p (here ++ there)) : Next references paths p here := by
  obtain ⟨before, after, hpaths, hsize⟩ := h
  exact ⟨before, there ++ after, by rw [hpaths]; simp only [List.append_assoc], hsize⟩

theorem Next.right (h : Next references paths p (here ++ there))
    (hemits : Emits references e paths p q here) : Next references paths q there := by
  obtain ⟨before, after, hpaths, hsize⟩ := h
  refine ⟨before ++ here, after, by rw [hpaths]; simp only [List.append_assoc], ?_⟩
  rw [hemits.size_eq, hsize, List.length_append, Nat.add_assoc]

/-- The next instruction stands for the node at the next path. -/
theorem Next.indexOf (h : Next references paths p [path]) : IndexOf references e paths path p.size := by
  obtain ⟨before, after, hpaths, hsize⟩ := h
  rw [hsize]
  refine .computed ?_
  rw [hpaths, List.append_assoc, List.getElem?_append_right (Nat.le_refl _), Nat.sub_self]
  rfl

/-! ## Lowering -/

theorem map_map_cons (path : Path) (k : ℕ) (paths : List Path) :
    (paths.map (k :: ·)).map (path ++ ·) = paths.map (path ++ [k] ++ ·) := by
  simp

mutual

/-- **Lowering a part of an expression** adds an instruction for each number and application in it,
and its index is that of the instruction that stands for the part. -/
theorem lowerInto_emits : ∀ (part : Expr) {path : Path} {scope : Scope} {p q : Program} {i : ℕ},
    e.at? path = some part → ScopeAt references e paths path scope →
    Next references paths p (part.postorder.map (path ++ ·)) →
    lowerInto v scope p part = .ok (q, i) →
    Emits references e paths p q (part.postorder.map (path ++ ·)) ∧
      IndexOf references e paths path i
  | .literal span value, path, scope, p, q, i, hpart, _, hnext, h => by
    rw [lowerInto] at h
    cases h
    rw [Expr.postorder, List.map_singleton, List.append_nil] at hnext ⊢
    exact ⟨.push (.literal hpart) p, hnext.indexOf⟩
  | .reference span name, path, scope, p, q, i, hpart, hscope, _, h => by
    rw [lowerInto] at h
    split at h
    · cases h
    · next index hindex =>
      cases h
      rw [Expr.postorder]
      exact ⟨.nil p, (hscope name i hindex).indexOf hpart⟩
  | .application span name arguments, path, scope, p, q, i, hpart, hscope, hnext, h => by
    rw [lowerInto] at h
    split at h
    · cases h
    · split at h
      · cases h
      · next q operands hall =>
        cases h
        rw [Expr.postorder, List.map_append, List.map_singleton, List.append_nil] at hnext ⊢
        have hparts (k : ℕ) : e.at? (path ++ [k]) = arguments[k]? := Expr.at?_concat hpart k
        have hscopes (k : ℕ) : ScopeAt references e paths (path ++ [k]) scope :=
          hscope.part hpart fun _ _ _ _ _ => Expr.noConfusion
        obtain ⟨hemits, hlength, hoperands⟩ := lowerAll_emits arguments (k := 0)
          (fun k => by rw [Nat.zero_add]; exact hparts k) hscopes hnext.left hall
        refine ⟨hemits.append (.push (.apply hpart hlength fun k i hi => ?_) q),
          (hnext.right hemits).indexOf⟩
        have hindex := hoperands k i hi
        rwa [Nat.zero_add] at hindex
  | .binding span name value body, path, scope, p, q, i, hpart, hscope, hnext, h => by
    rw [lowerInto] at h
    split at h
    · cases h
    · next q' index hvalue =>
      rw [Expr.postorder, List.map_append, map_map_cons, map_map_cons] at hnext ⊢
      obtain ⟨hemits, hindex⟩ := lowerInto_emits value (Expr.at?_concat hpart 0)
        (hscope.part hpart nofun) hnext.left hvalue
      -- the body is lowered with the value in scope, behind the instructions of the value
      obtain ⟨hemits', hindex'⟩ := lowerInto_emits body (Expr.at?_concat hpart 1)
        (hscope.body hpart hindex) (hnext.right hemits) h
      exact ⟨hemits.append hemits', .body hpart hindex'⟩

/-- The same for several parts, which stand one behind the other below a node. -/
theorem lowerAll_emits : ∀ (parts : List Expr) {path : Path} {scope : Scope} {p q : Program}
    {k : ℕ} {indices : List ℕ},
    (∀ m, e.at? (path ++ [k + m]) = parts[m]?) →
    (∀ m, ScopeAt references e paths (path ++ [m]) scope) →
    Next references paths p ((Expr.postorderAll k parts).map (path ++ ·)) →
    lowerAll v scope p parts = .ok (q, indices) →
    Emits references e paths p q ((Expr.postorderAll k parts).map (path ++ ·)) ∧
      indices.length = parts.length ∧
      ∀ m i, indices[m]? = some i → IndexOf references e paths (path ++ [k + m]) i
  | [], path, scope, p, q, k, indices, _, _, _, h => by
    rw [lowerAll] at h
    cases h
    rw [Expr.postorderAll]
    exact ⟨.nil p, rfl, nofun⟩
  | part :: parts, path, scope, p, q, k, indices, hparts, hscopes, hnext, h => by
    rw [lowerAll] at h
    split at h
    · cases h
    · next q' index hpart =>
      split at h
      · cases h
      · next r more hrest =>
        cases h
        rw [Expr.postorderAll, List.map_append, map_map_cons] at hnext ⊢
        obtain ⟨hemits, hindex⟩ := lowerInto_emits part (hparts 0) (hscopes k) hnext.left hpart
        obtain ⟨hemits', hlength, hindices⟩ := lowerAll_emits parts
          (fun m => by rw [Nat.add_assoc, Nat.add_comm 1, hparts]; rfl) hscopes
          (hnext.right hemits) hrest
        refine ⟨hemits.append hemits', by rw [List.length_cons, hlength, List.length_cons], ?_⟩
        rintro (_ | m) i hi
        · rw [List.getElem?_cons_zero, Option.some.injEq] at hi
          exact hi ▸ hindex
        · have hlater := hindices m i hi
          rwa [Nat.add_assoc, Nat.add_comm 1] at hlater

end

/-! ## Whole programs -/

theorem foldl_emitReference_instructions (names : List String) (p : Program) (scope : Scope) :
    (names.foldl emitReference (p, scope)).1.instructions.toList =
      p.instructions.toList ++ names.map .reference := by
  induction names generalizing p scope with
  | nil => rw [List.foldl_nil, List.map_nil, List.append_nil]
  | cons name names ih =>
    rw [List.foldl_cons, emitReference, ih, Program.push, Array.toList_push, List.append_assoc]
    rfl

/-- A name that is found after references were emitted was found before or is one of them. -/
theorem lookup_foldl_emitReference {names : List String}
    (h : (names.foldl emitReference (p, scope)).2.lookup name = some i) :
    scope.lookup name = some i ∨ ∃ k, names[k]? = some name ∧ i = p.size + k := by
  induction names generalizing p scope with
  | nil => exact .inl h
  | cons first names ih =>
    have hsize : (p.push (.reference first)).size = p.size + 1 := Array.size_push _
    rcases ih h with hscope | ⟨k, hk, rfl⟩
    · rw [lookup_cons_pair] at hscope
      by_cases hfirst : name = first
      · rw [if_pos hfirst, Option.some.injEq] at hscope
        exact .inr ⟨0, by rw [hfirst]; rfl, hscope.symm⟩
      · rw [if_neg hfirst] at hscope
        exact .inl hscope
    · refine .inr ⟨k + 1, hk, ?_⟩
      change (p.push (.reference first)).size + k = _
      omega

/-- Where an expression is lowered, its references are in scope. -/
theorem scopeAt_emitReferences (references : List String) (e : Expr) (paths : List Path) :
    ScopeAt references e paths [] (emitReferences references).2 := by
  intro name i hi
  rw [emitReferences_eq_foldl] at hi
  rcases lookup_foldl_emitReference hi with hnone | ⟨k, hk, rfl⟩
  · cases hnone
  · refine .free (fun binder hbinder => ?_) ?_
    · exact List.append_ne_nil_of_right_ne_nil _ (List.cons_ne_nil _ _)
        (List.prefix_nil.mp hbinder.inBody)
    · rw [← hk]
      exact congrArg _ (Nat.zero_add k)

/-- The last instruction is the given one, which is added if it is not the last one already. -/
theorem endWith_instructions (h : i < p.size) : ∃ again,
    (p.endWith i).instructions.toList = p.instructions.toList ++ again ∧
      if i + 1 = p.size then again = []
      else ∃ instruction, p.instructions.toList[i]? = some instruction ∧ again = [instruction] := by
  rw [endWith]
  split
  · exact ⟨[], (List.append_nil _).symm, rfl⟩
  · rw [Array.getElem?_eq_getElem h]
    refine ⟨[p.instructions[i]], Array.toList_push, p.instructions[i], ?_, rfl⟩
    rw [Array.getElem?_toList, Array.getElem?_eq_getElem h]

theorem nodup_references_bound (draws : Signal) (markets : List Feeds) :
    (bound draws markets).references.Nodup := by
  rw [Vocabulary.references_bound]
  decide

/-- A program is laid out as the references, the instructions of the given paths, which are those to
all numbers and applications in postorder, and the instruction of the root once more unless it is the
last one. -/
structure LaidOut (references : List String) (e : Expr) (p : Program) (paths : List Path)
    (computed : List Instruction) (root : ℕ) (again : List Instruction) : Prop where
  inPostorder : InPostorder e paths
  emitted : List.Forall₂ (InstructionOf references e paths) paths computed
  indexOf_root : IndexOf references e paths [] root
  repeated : if root + 1 = references.length + computed.length then again = []
    else ∃ instruction, (references.map Instruction.reference ++ computed)[root]? =
      some instruction ∧ again = [instruction]
  instructions : p.instructions.toList = references.map .reference ++ computed ++ again

/-- **Every number and every application is emitted once, in postorder.** With the standard vocabulary,
whatever markets have been bound to it, a lowered program is the references in the order in which they
are declared, then the instructions of all numbers and applications of the expression, and then that of
the root once more exactly if it is not the last one already. The operands of an application are the
instructions that stand for its arguments, and no other instruction stands for them. -/
theorem ofExpr_emits_postorder (draws : Signal) (markets : List Feeds) (e : Expr) (p : Program)
    (h : ofExpr (bound draws markets) e = .ok p) :
    let references := (bound draws markets).references
    ∃ paths computed root again, LaidOut references e p paths computed root again ∧
      (∀ path i j, IndexOf references e paths path i → IndexOf references e paths path j → i = j) ∧
      p.size = references.length + e.nodes.countP isLiteral + e.nodes.countP isApplication +
        again.length := by
  intro references
  have hpaths := Expr.inPostorder_postorder e
  have hreferences : (emitReferences references).1.instructions.toList =
      references.map .reference := foldl_emitReference_instructions references Program.empty []
  have hsize : (emitReferences references).1.size = references.length := by
    rw [Program.size, ← Array.length_toList, hreferences, List.length_map]
  rw [ofExpr] at h
  dsimp only at h
  split at h
  · cases h
  · next q root hlower =>
    cases h
    have hall : e.postorder.map ([] ++ ·) = e.postorder := List.map_id' _
    obtain ⟨hemits, hroot⟩ := lowerInto_emits e (Expr.at?_nil e)
      (scopeAt_emitReferences references e e.postorder)
      ⟨[], [], by rw [hall, List.append_nil, List.nil_append], hsize⟩ hlower
    rw [hall] at hemits
    have hqsize := hemits.size_eq
    obtain ⟨computed, hq, hcomputed⟩ := hemits
    rw [hreferences] at hq
    rw [hsize] at hqsize
    obtain ⟨again, hagain, hcopy⟩ :=
      endWith_instructions (p := q) (i := root) (by rw [hqsize]; exact hroot.lt)
    rw [hq] at hagain hcopy
    rw [hqsize, hcomputed.length_eq] at hcopy
    refine ⟨e.postorder, computed, root, again, ⟨hpaths, hcomputed, hroot, hcopy, hagain⟩,
      fun _ _ _ => IndexOf.unique hpaths (nodup_references_bound draws markets), ?_⟩
    rw [Program.size, ← Array.length_toList, hagain, List.length_append, List.length_append,
      List.length_map, ← hcomputed.length_eq, Expr.length_postorder, ← Nat.add_assoc]

/-- The expression `let x = neg close in let y = add x 1 in x`: what it names is not emitted last. -/
def namingEarlier : Expr :=
  .binding ⟨0, 40⟩ "x" (.application ⟨8, 17⟩ "neg" [.reference ⟨12, 17⟩ "close"])
    (.binding ⟨21, 40⟩ "y"
      (.application ⟨29, 36⟩ "add" [.reference ⟨33, 34⟩ "x", .literal ⟨35, 36⟩ 1.0])
      (.reference ⟨39, 40⟩ "x"))

theorem ofExpr_emits_postorder_namingEarlier :
    let v := bound (Series.constant 0.5) [Feeds.zeros]
    let p : Program := ⟨#[.reference "price", .reference "volume", .reference "open",
      .reference "close", .reference "high", .reference "low", .reference "time",
      .reference "random", .reference "pi", .reference "e", .apply "neg" [3], .literal 1.0,
      .apply "add" [10, 11], .apply "neg" [3]]⟩
    ofExpr v namingEarlier = .ok p ∧ ∃ paths computed root again,
      LaidOut v.references namingEarlier p paths computed root again ∧
      p.size = v.references.length + 1 + 2 + again.length := by
  intro v p
  have h : ofExpr v namingEarlier = .ok p := by decide +kernel
  obtain ⟨paths, computed, root, again, hlaid, -, hsize⟩ :=
    ofExpr_emits_postorder (Series.constant 0.5) [Feeds.zeros] namingEarlier p h
  exact ⟨h, paths, computed, root, again, hlaid, hsize⟩

end Program

end SignalLab
