import FormulaEditor.Proofs.Tree.Neighbours
import FormulaEditor.Tree.Navigation

/-!
# Moves of the cursor

In a whole tree a cursor on a symbol can move in every direction, and lands on a symbol
(`Tree.Whole.exists_navigate`).
-/

set_option autoImplicit false

namespace FormulaEditor

/-- What is opposite to a slot of a symbol is a slot of it. -/
theorem Symbol.mem_slots_of_opposite? {direction : Direction} {slot opposite : NodeId}
    {symbol : Symbol} (h : symbol.opposite? direction slot = some opposite) :
    opposite ∈ symbol.slots := by
  cases symbol with
  | fraction numerator denominator =>
    cases direction <;> simp_all [Symbol.opposite?, Symbol.slots]
  | _ => cases h

namespace Tree

variable {tree : Tree} {id expression cursor : NodeId} {owner : Option NodeId}
  {symbol : Symbol} {items : List NodeId}

namespace WellFormed

/-- A symbol has no slots, or an expression as its first one. -/
theorem slots_cases (h : tree.WellFormed) (hid : tree.symbol id = .ok symbol) :
    symbol.slots = [] ∨ ∃ slot slots items, symbol.slots = slot :: slots ∧
      tree.node? slot = some ⟨some id, .expression items⟩ := by
  obtain ⟨parent, hnode⟩ := symbol_eq_ok_iff.mp hid
  have hslots := (h.slots hnode).2
  cases hlist : symbol.slots with
  | nil => exact Or.inl rfl
  | cons slot slots =>
    obtain ⟨items, hslot⟩ := hslots slot (hlist ▸ List.mem_cons_self)
    exact Or.inr ⟨slot, slots, items, rfl, hslot⟩

/-- A cursor which comes from the left lands on a symbol. -/
theorem exists_landingRightward (h : tree.WellFormed) (hid : tree.IsSymbol id) :
    ∃ next, tree.landingRightward id = .ok next ∧ tree.IsSymbol next := by
  obtain ⟨symbol, hsymbol⟩ := hid
  simp only [landingRightward, hsymbol, bind, Except.bind]
  rcases h.slots_cases hsymbol with hslots | ⟨slot, slots, items, hslots, hslot⟩
  · rw [hslots]
    exact ⟨id, rfl, symbol, hsymbol⟩
  · obtain ⟨start, hfirst, hstart⟩ := h.exists_first hslot
    rw [hslots]
    exact ⟨start, hfirst, isSymbol_of_node? hstart⟩

/-- A cursor which comes from the right lands on a symbol. -/
theorem exists_landingLeftward (h : tree.WellFormed) (hid : tree.IsSymbol id) :
    ∃ next, tree.landingLeftward id = .ok next ∧ tree.IsSymbol next := by
  obtain ⟨symbol, hsymbol⟩ := hid
  simp only [landingLeftward, hsymbol, bind, Except.bind]
  rcases h.slots_cases hsymbol with hslots | ⟨slot, slots, items, hslots, hslot⟩
  · rw [hslots]
    exact ⟨id, rfl, symbol, hsymbol⟩
  · rw [hslots]
    exact h.exists_last hslot

/-- The way up from an expression leads through owners and their expressions by turns. -/
theorem ancestors_expression (h : tree.WellFormed)
    (hnode : tree.node? expression = some ⟨owner, .expression items⟩) :
    tree.ancestors expression = [expression] ∨
      ∃ id parent symbol, tree.node? id = some ⟨parent, .symbol symbol⟩ ∧
        tree.ancestors expression = expression :: id :: match parent with
          | none => []
          | some above => tree.ancestors above := by
  rw [h.ancestors_eq, parent?_of_node? hnode]
  cases owner with
  | none => exact Or.inl rfl
  | some id =>
    obtain ⟨parent, symbol, hid, -⟩ := h.slot_of_parent hnode
    have hup := h.ancestors_eq id
    rw [parent?_of_node? hid] at hup
    exact Or.inr ⟨id, parent, symbol, hid, congrArg (expression :: ·) hup⟩

/-- The search for a slot to leave has an answer, and what it finds is an expression. -/
theorem exists_crossing (h : tree.WellFormed) (direction : Direction)
    (hnode : tree.node? expression = some ⟨owner, .expression items⟩) :
    ∃ answer, tree.crossing direction (tree.ancestors expression) = .ok answer ∧
      ∀ slot ∈ answer, ∃ owner items, tree.node? slot = some ⟨owner, .expression items⟩ := by
  -- the way up from the expression above is two steps shorter
  induction hlength : (tree.ancestors expression).length using Nat.strong_induction_on
    generalizing expression owner items with
  | _ n ih =>
    rcases h.ancestors_expression hnode with hways | ⟨id, parent, symbol, hid, hways⟩
    · exact ⟨none, by rw [hways]; rfl, nofun⟩
    · rw [hways] at hlength ⊢
      simp only [crossing, symbol_of_node? hid, bind, Except.bind]
      cases hopposite : symbol.opposite? direction expression with
      | some opposite =>
        refine ⟨some opposite, rfl, ?_⟩
        rintro _ ⟨⟩
        obtain ⟨items, hslot⟩ := (h.slots hid).2 _ (Symbol.mem_slots_of_opposite? hopposite)
        exact ⟨_, items, hslot⟩
      | none =>
        cases parent with
        | none => exact ⟨none, rfl, nofun⟩
        | some above =>
          obtain ⟨owner, items, habove, -⟩ := h.listed hid
          exact ih _ (by simp only [List.length_cons] at hlength; omega) habove rfl

end WellFormed

namespace Whole

/-- In a whole tree every symbol can be left to the right, for a symbol. -/
theorem exists_moveRight (h : tree.Whole) (hcursor : tree.IsSymbol cursor) :
    ∃ id, tree.moveRight cursor = .ok id ∧ tree.IsSymbol id := by
  obtain ⟨symbol, hsymbol⟩ := hcursor
  obtain ⟨expression, hnode⟩ := h.exists_parent hsymbol
  obtain ⟨answer, hright, hnext⟩ := h.wellFormed.exists_rightNeighbour hnode
  simp only [moveRight, hright, bind, Except.bind]
  cases answer with
  | some next => exact h.wellFormed.exists_landingRightward (hnext next rfl)
  | none =>
    obtain ⟨owner, front, back, hexpression, hposition⟩ := h.wellFormed.exists_split hnode
    refine ⟨owner.getD cursor, ?_, ?_⟩
    · simp only [hposition, parent_of_node? hexpression]
      rfl
    · cases owner with
      | none => exact ⟨symbol, hsymbol⟩
      | some id =>
        obtain ⟨parent, s, hid, -⟩ := h.wellFormed.slot_of_parent hexpression
        exact isSymbol_of_node? hid

/-- In a whole tree every symbol can be left to the left, for a symbol. -/
theorem exists_moveLeft (h : tree.Whole) (hcursor : tree.IsSymbol cursor) :
    ∃ id, tree.moveLeft cursor = .ok id ∧ tree.IsSymbol id := by
  obtain ⟨symbol, hsymbol⟩ := hcursor
  obtain ⟨expression, hnode⟩ := h.exists_parent hsymbol
  simp only [moveLeft, hsymbol, bind, Except.bind]
  split
  · exact h.wellFormed.exists_landingLeftward ⟨symbol, hsymbol⟩
  · obtain ⟨answer, hleft, -, hprevious⟩ := h.wellFormed.exists_leftNeighbour hnode
    rw [hleft]
    cases answer with
    | some previous =>
      obtain ⟨-, s, hs⟩ := hprevious previous rfl
      exact ⟨previous, rfl, isSymbol_of_node? hs⟩
    | none =>
      obtain ⟨owner, front, back, hexpression, hposition⟩ := h.wellFormed.exists_split hnode
      simp only [hposition, parent_of_node? hexpression]
      cases owner with
      | none => exact ⟨cursor, rfl, symbol, hsymbol⟩
      | some id =>
        obtain ⟨parent, s, hid, -⟩ := h.wellFormed.slot_of_parent hexpression
        obtain ⟨above, hid⟩ := h.exists_parent (symbol_of_node? hid)
        obtain ⟨answer, hleft, -, hprevious⟩ := h.wellFormed.exists_leftNeighbour hid
        refine ⟨answer.getD cursor, by simp only [hleft]; rfl, ?_⟩
        cases answer with
        | none => exact ⟨symbol, hsymbol⟩
        | some previous =>
          obtain ⟨-, s, hs⟩ := hprevious previous rfl
          exact isSymbol_of_node? hs

/-- In a whole tree every symbol can be left up or down, for a symbol. -/
theorem exists_moveAcross (h : tree.Whole) (hcursor : tree.IsSymbol cursor)
    (direction : Direction) :
    ∃ id, tree.moveAcross cursor direction = .ok id ∧ tree.IsSymbol id := by
  obtain ⟨symbol, hsymbol⟩ := hcursor
  obtain ⟨expression, hnode⟩ := h.exists_parent hsymbol
  obtain ⟨owner, items, hexpression, -⟩ := h.wellFormed.listed hnode
  obtain ⟨answer, hcrossing, hslot⟩ := h.wellFormed.exists_crossing direction hexpression
  have hways : (tree.ancestors cursor).drop 1 = tree.ancestors expression := by
    rw [h.wellFormed.ancestors_eq, parent?_of_node? hnode]
    rfl
  simp only [moveAcross, parent_of_node? hnode, hways, hcrossing, bind, Except.bind,
    Option.isNone_some, Bool.false_eq_true, if_false, pure, Except.pure]
  cases answer with
  | none => exact ⟨cursor, rfl, symbol, hsymbol⟩
  | some slot =>
    obtain ⟨owner, items, hslotNode⟩ := hslot slot rfl
    obtain ⟨start, hfirst, hstart⟩ := h.wellFormed.exists_first hslotNode
    exact ⟨start, hfirst, isSymbol_of_node? hstart⟩

/-- A cursor on a symbol of a whole tree can move in every direction, and lands on a symbol. -/
theorem exists_navigate (h : tree.Whole) (hcursor : tree.IsSymbol cursor) (direction : Direction) :
    ∃ id, tree.navigate cursor direction = .ok id ∧ tree.IsSymbol id := by
  cases direction with
  | left => exact h.exists_moveLeft hcursor
  | right => exact h.exists_moveRight hcursor
  | up => exact h.exists_moveAcross hcursor .up
  | down => exact h.exists_moveAcross hcursor .down

end Whole

end Tree

end FormulaEditor
