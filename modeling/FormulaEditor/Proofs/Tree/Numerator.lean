import FormulaEditor.Proofs.Tree.Neighbours
import FormulaEditor.Tree.Numerator

/-!
# Filling numerators

The symbols which a new fraction takes into its numerator stand before it in the same expression
(`Tree.Collectable`). Moving one of them leaves the others where they are, so all moves succeed
(`Tree.Collectable.run_forM`), and the only questions at which filling a numerator can fail are asked
before the first move (`Tree.WellFormed.run_fillNumerator`).
-/

set_option autoImplicit false

namespace FormulaEditor.Tree

variable {tree : Tree} {start fraction expression : NodeId} {run : List NodeId}

/-- Symbols which can be moved one by one behind the start of the numerator of a fraction: they stand
in the same expression as the fraction. -/
structure Collectable (tree : Tree) (start fraction expression : NodeId) (run : List NodeId) :
    Prop where
  nodup : run.Nodup
  slot : ∃ numerator, tree.node? start = some ⟨some numerator, .symbol .start⟩ ∧
    tree.parent? numerator = some fraction
  place : tree.parent? fraction = some expression
  items : ∀ id ∈ run, id ≠ fraction ∧ ∃ symbol, symbol ≠ .start ∧
    tree.node? id = some ⟨some expression, .symbol symbol⟩

namespace Collectable

/-- The first symbol can be moved, and then still the others. -/
theorem step (h : tree.WellFormed) {id : NodeId}
    (hrun : tree.Collectable start fraction expression (id :: run)) :
    ∃ numerator, tree.destination start id = .ok numerator ∧
      (tree.moveAfter start id numerator).Collectable start fraction expression run := by
  obtain ⟨numerator, hstart, hnumerator⟩ := hrun.slot
  obtain ⟨hne, symbol, hsymbol, hid⟩ := hrun.items id List.mem_cons_self
  obtain ⟨owner, items, hslot, -⟩ := h.listed hstart
  have hstartNe : start ≠ id := by
    rintro rfl
    rw [hstart] at hid
    cases hid
    exact hsymbol rfl
  have hnumeratorNe : numerator ≠ id := by
    rintro rfl
    rw [hslot] at hid
    cases hid
  -- the way up from the start leads through the fraction to the expression in which the symbol is
  have houtside : ¬ tree.Inside start id := by
    intro hinside
    have hground := h.grounded (isLive_iff.mpr ⟨_, hid⟩)
    refine hground.acyclic (parent?_of_node? hid) ?_
    have hslotInside := hinside.above hstartNe (parent?_of_node? hstart)
    exact (hslotInside.above hnumeratorNe hnumerator).above hne.symm hrun.place
  have hdest : tree.destination start id = .ok numerator := by
    refine destination_eq_ok_iff.mpr ⟨checkMovable_eq_ok_iff.mpr ⟨_, _, hid, hsymbol⟩,
      isSymbol_of_node? hstart, ?_, h.exists_position hstart⟩
    rw [Bool.eq_false_iff, ne_eq, h.contains_iff]
    exact houtside
  obtain ⟨hmoved, -, -⟩ := h.moved_moveAfter hdest
  obtain ⟨hfresh, hnodup⟩ := List.nodup_cons.mp hrun.nodup
  refine ⟨numerator, hdest, hnodup, ⟨numerator, hmoved.node?_symbol hstartNe hstart, ?_⟩, ?_, ?_⟩
  · rw [hmoved.parent?_eq hnumeratorNe, hnumerator]
  · rw [hmoved.parent?_eq hne.symm, hrun.place]
  · intro other hother
    obtain ⟨hotherNe, s, hs, hnode⟩ := hrun.items other (List.mem_cons_of_mem _ hother)
    have hotherNe' : other ≠ id := by
      rintro rfl
      exact hfresh hother
    exact ⟨hotherNe, s, hs, hmoved.node?_symbol hotherNe' hnode⟩

/-- All of the symbols are moved, and every symbol stays what it is. -/
theorem run_forM (h : tree.WellFormed) (hrun : tree.Collectable start fraction expression run) :
    ∃ grown, (run.forM (insertAfter start)).run tree = .ok () grown ∧ grown.WellFormed ∧
      ∀ id symbol, tree.symbol id = .ok symbol → grown.symbol id = .ok symbol := by
  induction run generalizing tree with
  | nil => exact ⟨tree, rfl, h, fun _ _ hid => hid⟩
  | cons id run ih =>
    obtain ⟨numerator, hdest, hrest⟩ := hrun.step h
    obtain ⟨grown, hgrown, hwellFormed, hsymbols⟩ := ih (h.moveAfter hdest) hrest
    refine ⟨grown, ?_, hwellFormed, fun y symbol hy => hsymbols y symbol ?_⟩
    · show ((insertAfter start id >>= fun _ => run.forM (insertAfter start)).run tree) = _
      rw [EStateM.run_bind, h.run_insertAfter, hdest]
      exact hgrown
    · obtain ⟨hmoved, -, -⟩ := h.moved_moveAfter hdest
      exact symbol_eq_ok_iff.mpr (hmoved.symbol_iff.mpr (symbol_eq_ok_iff.mp hy))

/-- The order in which symbols are moved does not matter for whether they can be moved. -/
theorem reverse (h : tree.Collectable start fraction expression run) :
    tree.Collectable start fraction expression run.reverse where
  nodup := List.nodup_reverse.mpr h.nodup
  slot := h.slot
  place := h.place
  items id hid := h.items id (List.mem_reverse.mp hid)

end Collectable

namespace WellFormed

/-- The characters of symbols of an expression can be read. -/
theorem exists_precis (h : tree.WellFormed) {owner : Option NodeId} {items symbols : List NodeId}
    (hexpression : tree.node? expression = some ⟨owner, .expression items⟩)
    (hsymbols : ∀ id ∈ symbols, id ∈ items) :
    ∃ precis, symbols.mapM
      (fun item => return (← tree.symbol item).precis : NodeId → Except Error Char) =
        .ok precis := by
  refine exists_mapM_eq_ok fun id hid => ?_
  obtain ⟨symbol, hsymbol⟩ := h.node?_of_mem hexpression (hsymbols id hid)
  exact ⟨symbol.precis, by rw [symbol_of_node? hsymbol]; rfl⟩

/-- A fraction which stands in an expression can take symbols which stand before it there. -/
theorem exists_numeratorRun (h : tree.WellFormed) {id numerator denominator : NodeId}
    (hid : tree.node? id = some ⟨some expression, .symbol (.fraction numerator denominator)⟩) :
    ∃ run start, tree.numeratorRun id = .ok (run, start) ∧
      tree.Collectable start id expression run := by
  obtain ⟨owner, front, back, hexpression, hposition⟩ := h.exists_split hid
  obtain ⟨items, hnumerator⟩ := (h.slots hid).2 numerator List.mem_cons_self
  obtain ⟨start, hfirst, hstart⟩ := h.exists_first hnumerator
  have htake : (front ++ id :: back).take front.length = front := List.take_left
  obtain ⟨precis, hprecis⟩ := h.exists_precis hexpression fun item hitem =>
    List.mem_append_left (id :: back) (List.mem_of_mem_drop (i := 1) hitem)
  refine ⟨(front.drop 1).drop ((front.drop 1).length - Numerator.runLength precis.reverse), start,
    ?_, ?_⟩
  · simp only [numeratorRun, symbol_of_node? hid, bind, Except.bind, hposition,
      items_of_node? hexpression, htake, hfirst] at hprecis ⊢
    rw [hprecis]
    rfl
  · obtain ⟨hnodup, first, others, hitems, -, hothers⟩ := h.lists hexpression
    obtain ⟨hnodupFront, -, hdisjoint⟩ := List.nodup_append.mp hnodup
    refine ⟨hnodupFront.drop.drop, ⟨numerator, hstart, parent?_of_node? hnumerator⟩,
      parent?_of_node? hid, fun item hitem => ?_⟩
    have hdrop := List.mem_of_mem_drop hitem
    have hfront := List.mem_of_mem_drop hdrop
    refine ⟨hdisjoint item hfront id List.mem_cons_self, hothers item ?_⟩
    -- the start is dropped, so the symbol is one after the start
    cases front with
    | nil => cases hfront
    | cons item front =>
      cases hitems
      exact List.mem_append_left _ hdrop

/-- Filling a numerator fails before the first move or not at all. -/
theorem run_fillNumerator (h : tree.WellFormed) (id : NodeId) :
    (∃ e, (fillNumerator id).run tree = .error e tree ∧ tree.numeratorRun id = .error e) ∨
      ∃ answer grown, (fillNumerator id).run tree = .ok answer grown ∧ grown.WellFormed ∧
        ∀ y symbol, tree.symbol y = .ok symbol → grown.symbol y = .ok symbol := by
  rw [fillNumerator, EStateM.run_bind, Edit.run_look]
  cases hrun : tree.numeratorRun id with
  | error e => exact Or.inl ⟨e, rfl, rfl⟩
  | ok found =>
    obtain ⟨expression, numerator, denominator, hid⟩ : ∃ expression numerator denominator,
        tree.node? id = some ⟨some expression, .symbol (.fraction numerator denominator)⟩ := by
      rw [numeratorRun] at hrun
      cases hsymbol : tree.symbol id with
      | error e =>
        rw [hsymbol] at hrun
        cases hrun
      | ok symbol =>
        rw [hsymbol] at hrun
        cases symbol with
        | fraction numerator denominator =>
          cases hposition : tree.position id with
          | error e =>
            simp [bind, Except.bind, hposition] at hrun
          | ok place =>
            obtain ⟨s, hid⟩ := h.node?_of_position hposition
            rw [symbol_of_node? hid] at hsymbol
            cases hsymbol
            exact ⟨_, _, _, hid⟩
        | _ => cases hrun
    obtain ⟨run, start, hfound, hcollectable⟩ := h.exists_numeratorRun hid
    rw [hrun] at hfound
    cases hfound
    obtain ⟨grown, hgrown, hwellFormed, hsymbols⟩ := hcollectable.reverse.run_forM h
    refine Or.inr ⟨!run.isEmpty, grown, ?_, hwellFormed, hsymbols⟩
    show ((run.reverse.forM (insertAfter start) >>= fun _ => pure (!run.isEmpty)).run tree) = _
    rw [EStateM.run_bind, hgrown]
    rfl

end WellFormed

end FormulaEditor.Tree
