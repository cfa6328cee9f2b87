import FormulaEditor.Proofs.Decimal
import FormulaEditor.Proofs.Formula.Degrees
import FormulaEditor.Proofs.Tree.Inlay

/-!
# Roots which are put into a tree

There are no roots but square roots in a tree. A formula which a text denotes is put in wherever
there is a place for it, unless it has another root, and nothing else about it can be wrong
(`Tree.Reachable.typeset_of_ofText`). Whether a root is square is found out from its degree as a
decimal number, so that degrees which round to two pass for two
(`Tree.Reachable.typeset_root_of_literal`).
-/

set_option autoImplicit false

namespace FormulaEditor.Tree

variable {tree : Tree} {expression anchor : NodeId} {items : List NodeId} {formula : Formula}

/-- A formula is put in behind a symbol of an expression if and only if it can be typeset. -/
theorem WellFormed.exists_run_typeset_iff (h : tree.WellFormed)
    (hitems : tree.items expression = .ok items) (hanchor : anchor ∈ items) :
    (∃ last grown, (typeset anchor formula).run tree = .ok last grown) ↔
      formula.typesettable = .ok () := by
  constructor
  · rintro ⟨last, grown, hrun⟩
    cases hformula : formula.typesettable with
    | ok _ => rfl
    | error fault =>
      rw [run_typeset_of_error hformula] at hrun
      cases hrun
  · intro hformula
    obtain ⟨run, last, grown, hrun, -⟩ := h.inlaid_of_typeset hitems hanchor hformula
    exact ⟨last, grown, hrun⟩

/-- What can be typeset is created behind a symbol of an expression without a failure. -/
theorem WellFormed.exists_run_emit (h : tree.WellFormed)
    (hitems : tree.items expression = .ok items) (hanchor : anchor ∈ items)
    (hformula : formula.typesettable = .ok ()) :
    ∃ last grown, (emit formula anchor).run tree = .ok last grown := by
  obtain ⟨owner, hexpression⟩ := items_eq_ok_iff.mp hitems
  obtain ⟨front, back, rfl⟩ := List.append_of_mem hanchor
  obtain ⟨run, grown, hrun, -⟩ :=
    places formula.typeset tree expression anchor owner front back h hexpression
  rw [emits (Formula.typesettable_of_eq_ok hformula) anchor]
  exact ⟨_, grown, hrun⟩

/-- A formula which a text denotes is put in behind every symbol of every expression if it has
square roots only, and otherwise it is refused for a root, which is all that it can be refused for.
What is not refused is created without a failure, and each of its letters is typed as itself. -/
theorem Reachable.typeset_of_ofText (h : tree.Reachable) {text : String}
    (htext : Formula.ofText text = .ok formula) (hitems : tree.items expression = .ok items)
    (hanchor : anchor ∈ items) :
    ((∃ last grown, (typeset anchor formula).run tree = .ok last grown) ↔
      formula.SquareRootsOnly) ∧
    (¬ formula.SquareRootsOnly →
      (typeset anchor formula).run tree = .error (.invalidValue .notSquareRoot) tree) ∧
    (∀ fault, formula.typesettable = .error fault → fault = .notSquareRoot) ∧
    (formula.typesettable = .ok () →
      ∃ last grown, (emit formula anchor).run tree = .ok last grown) ∧
    ∀ letter, Formula.PartOf (.identifier letter) formula →
      Stroke.ofChar letter = .ok (.atom letter) := by
  have hread := Formula.readable_of_ofText htext
  refine ⟨?_, fun hroots => ?_, fun fault hfault => ?_, fun hformula => ?_, fun letter hpart => ?_⟩
  · rw [h.wellFormed.exists_run_typeset_iff hitems hanchor, hread.typesettable_iff]
  · refine run_typeset_of_error (hread.typesettable_cases.resolve_left ?_) anchor tree
    rwa [hread.typesettable_iff]
  · obtain hok | hroot := hread.typesettable_cases
    · rw [hfault] at hok
      cases hok
    · rw [hfault] at hroot
      exact Except.error.inj hroot
  · exact h.wellFormed.exists_run_emit hitems hanchor hformula
  · cases hread.spelled.of_partOf hpart with
    | identifier hletter => exact Stroke.ofChar_of_isAlphabetic hletter

/-- A square root of a negated cubic root is read from its text, and refused in a numerator. -/
theorem typeset_of_ofText_cubic :
    let text := "apply(root, degree(cn(2.0)), apply(minus, apply(root, degree(cn(3)), ci(x))))"
    let formula : Formula := .apply .root [.degree (.number "2.0"),
      .apply .minus [.apply .root [.degree (.number "3"), .identifier 'x']]]
    let tree := empty.run [.create .fraction, .insertAfter 1 2]
    tree.Reachable ∧ Formula.ofText text = .ok formula ∧ tree.items 3 = .ok [4] ∧
      ¬ formula.SquareRootsOnly ∧
      (typeset 4 formula).run tree = .error (.invalidValue .notSquareRoot) tree := by
  intro text formula tree
  have hreach : tree.Reachable := reachable_run _
  have hinner : Formula.Spelled (.apply .root [.degree (.number "3"), .identifier 'x']) :=
    .apply _ (List.forall_mem_cons.mpr ⟨.degree (.number rfl),
      List.forall_mem_singleton.mpr (.identifier rfl)⟩)
  have hspelled : formula.Spelled :=
    .apply _ (List.forall_mem_cons.mpr ⟨.degree (.number rfl), List.forall_mem_singleton.mpr
      (.apply _ (List.forall_mem_singleton.mpr hinner))⟩)
  have hcompact : formula.compact = text := by decide +kernel
  have htext : Formula.ofText text = .ok formula := by
    rw [← hcompact]
    exact Formula.ofText_compact hspelled rfl
  have hitems : tree.items 3 = .ok [4] := rfl
  have hcubic : ¬ formula.SquareRootsOnly := by
    intro hsquare
    have hthree := hsquare [.degree (.number "3"), .identifier 'x']
      (.operand (List.mem_cons_of_mem _ List.mem_cons_self) (.operand List.mem_cons_self .refl))
      (.number "3") List.mem_cons_self
    exact absurd hthree (by decide)
  exact ⟨hreach, htext, hitems, hcubic,
    (hreach.typeset_of_ofText htext hitems (List.mem_singleton_self 4)).2.1 hcubic⟩

/-- A root of a radicand which can be typeset is put in behind every symbol of every expression if
its degree is a numeral which rounds to two at the twenty-eighth place, and otherwise it is refused.
Of the numerals with no more places, only those of value two round to two. -/
theorem Reachable.typeset_root_of_literal (h : tree.Reachable)
    (hitems : tree.items expression = .ok items) (hanchor : anchor ∈ items) {text : String}
    (hliteral : isNumberLiteral text = true) {radicand : Formula}
    (hradicand : radicand.typesettable = .ok ()) :
    let root : Formula := .apply .root [.degree (.number text), radicand]
    let value := Literal.value text.toList
    ((∃ last grown, (typeset anchor root).run tree = .ok last grown) ↔
      2 - 5 / 10 ^ 29 ≤ value ∧ value < 2 + 5 / 10 ^ 29) ∧
    (¬(2 - 5 / 10 ^ 29 ≤ value ∧ value < 2 + 5 / 10 ^ 29) →
      (typeset anchor root).run tree = .error (.invalidValue .notSquareRoot) tree) ∧
    ((Literal.places text.toList).length ≤ Decimal.maxScale →
      ((∃ last grown, (typeset anchor root).run tree = .ok last grown) ↔ value = 2)) := by
  intro root value
  have hroot : root.typesettable =
      if (Decimal.ofText? text).any (·.hasValue 2) then .ok () else .error .notSquareRoot := by
    rw [Formula.typesettable, hradicand]
    rfl
  have hdegree := Decimal.any_hasValue_two_iff hliteral
  have htypesettable : root.typesettable = .ok () ↔
      2 - 5 / 10 ^ 29 ≤ value ∧ value < 2 + 5 / 10 ^ 29 := by
    rw [hroot, ← hdegree]
    cases (Decimal.ofText? text).any (·.hasValue 2) <;> simp
  have hruns := (h.wellFormed.exists_run_typeset_iff hitems hanchor).trans htypesettable
  refine ⟨hruns, fun hfar => ?_, fun hplaces => ?_⟩
  · refine run_typeset_of_error ?_ anchor tree
    rw [hroot, if_neg (hdegree.not.mpr hfar)]
  · rw [hruns, Decimal.near_two_iff hplaces]

/-- A degree which is too far below two, at the twenty-ninth place, is refused behind a bracket. -/
theorem typeset_root_of_literal_below :
    let text := "1.99999999999999999999999999994"
    let radicand : Formula := .apply .plus [.identifier 'x', .number "1"]
    let root : Formula := .apply .root [.degree (.number text), radicand]
    let tree := empty.run [.create (.bracket .opening), .insertAfter 1 2]
    tree.Reachable ∧ tree.items 0 = .ok [1, 2] ∧ isNumberLiteral text = true ∧
      radicand.typesettable = .ok () ∧ Literal.value text.toList = 2 - 6 / 10 ^ 29 ∧
      (typeset 2 root).run tree = .error (.invalidValue .notSquareRoot) tree := by
  intro text radicand root tree
  have hreach : tree.Reachable := reachable_run _
  have hitems : tree.items 0 = .ok [1, 2] := rfl
  have hliteral : isNumberLiteral text = true := by decide +kernel
  have hradicand : radicand.typesettable = .ok () := rfl
  have hvalue : Literal.value text.toList = 2 - 6 / 10 ^ 29 := by decide +kernel
  have hfar : ¬(2 - 5 / 10 ^ 29 ≤ Literal.value text.toList ∧
      Literal.value text.toList < 2 + 5 / 10 ^ 29) := by
    rw [hvalue]
    norm_num
  have hmem : 2 ∈ [1, 2] := by decide
  exact ⟨hreach, hitems, hliteral, hradicand, hvalue,
    (hreach.typeset_root_of_literal hitems hmem hliteral hradicand).2.1 hfar⟩

/-- A degree above two, which differs from two only at the twenty-ninth place, is taken for two. -/
theorem typeset_root_of_degree_above_two :
    let text := "2.00000000000000000000000000001"
    isNumberLiteral text = true ∧ Literal.value text.toList ≠ 2 ∧
      ∃ last grown, (typeset Editor.home
        (.apply .root [.degree (.number text), .identifier 'x'])).run empty = .ok last grown := by
  intro text
  have hvalue : Literal.value text.toList ≠ 2 := by decide +kernel
  have hroot : Formula.typesettable (.apply .root [.degree (.number text), .identifier 'x']) =
      .ok () := by decide +kernel
  have hitems : empty.items root = .ok [Editor.home] := items_of_node? (node?_empty root)
  exact ⟨by decide +kernel, hvalue, (wellFormed_empty.exists_run_typeset_iff hitems
    (List.mem_singleton_self _)).mpr hroot⟩

end FormulaEditor.Tree
