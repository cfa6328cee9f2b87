import FormulaEditor.Proofs.Tree.Navigation
import FormulaEditor.Proofs.Tree.Order

/-!
# Moves to the right and to the left

What a move to the right does is one of four things, and so is what a move to the left does
(`Tree.StepsRight`, `Tree.StepsLeft`): the cursor goes on to the symbol next to it, into the first
slot of a composite symbol, out of a slot past its owner, or it stays at the end of the root. All
other statements about these moves follow from the lists which the steps are about.

A step is taken back by a step the other way, except that a denominator is left at its ends but never
entered there (`Tree.Reachable.sideways_undone`).
-/

set_option autoImplicit false

namespace FormulaEditor.Tree

/-- The symbol to which a sequence of moves leads. -/
def follow (tree : Tree) (moves : List Direction) (cursor : NodeId) : Except Error NodeId :=
  moves.foldlM tree.navigate cursor

/-- No moves lead nowhere else. -/
@[simp] theorem follow_nil (tree : Tree) (cursor : NodeId) : tree.follow [] cursor = .ok cursor :=
  rfl

/-- The first of several moves is made before the others. -/
theorem follow_cons {tree : Tree} {cursor next : NodeId} {direction : Direction}
    (h : tree.navigate cursor direction = .ok next) (moves : List Direction) :
    tree.follow (direction :: moves) cursor = tree.follow moves next := by
  simp [follow, h, bind, Except.bind]

/-- What a move to the right does. -/
inductive StepsRight (tree : Tree) (cursor : NodeId) : NodeId → Prop
  /-- A symbol without slots is landed on. -/
  | next {expression next : NodeId} {owner : Option NodeId} {front back : List NodeId}
      {symbol : Symbol}
      (list : tree.node? expression =
        some ⟨owner, .expression (front ++ cursor :: next :: back)⟩)
      (symbol_eq : tree.symbol next = .ok symbol) (plain : symbol.slots = []) :
      StepsRight tree cursor next
  /-- A symbol with slots is entered at the start of the first one. -/
  | into {expression id slot start : NodeId} {owner : Option NodeId}
      {front back slots items : List NodeId} {symbol : Symbol}
      (list : tree.node? expression = some ⟨owner, .expression (front ++ cursor :: id :: back)⟩)
      (symbol_eq : tree.symbol id = .ok symbol) (slots_eq : symbol.slots = slot :: slots)
      (slot_eq : tree.node? slot = some ⟨some id, .expression (start :: items)⟩) :
      StepsRight tree cursor start
  /-- A slot is left at its end, past its owner. -/
  | out {expression owner : NodeId} {front : List NodeId}
      (list : tree.node? expression = some ⟨some owner, .expression (front ++ [cursor])⟩) :
      StepsRight tree cursor owner
  /-- The root is not left. -/
  | stay {front : List NodeId}
      (list : tree.node? root = some ⟨none, .expression (front ++ [cursor])⟩) :
      StepsRight tree cursor cursor

/-- What a move to the left does. -/
inductive StepsLeft (tree : Tree) (cursor : NodeId) : NodeId → Prop
  /-- A symbol with slots is entered at the end of the first one. -/
  | into {slot last : NodeId} {slots front : List NodeId} {symbol : Symbol}
      (symbol_eq : tree.symbol cursor = .ok symbol) (slots_eq : symbol.slots = slot :: slots)
      (slot_eq : tree.node? slot = some ⟨some cursor, .expression (front ++ [last])⟩) :
      StepsLeft tree cursor last
  /-- A symbol without slots is passed. -/
  | previous {expression previous : NodeId} {owner : Option NodeId} {front back : List NodeId}
      {symbol : Symbol}
      (list : tree.node? expression =
        some ⟨owner, .expression (front ++ previous :: cursor :: back)⟩)
      (symbol_eq : tree.symbol cursor = .ok symbol) (plain : symbol.slots = []) :
      StepsLeft tree cursor previous
  /-- A slot is left at its start, to before its owner. -/
  | out {expression id outer previous : NodeId} {owner : Option NodeId}
      {front back items : List NodeId}
      (list : tree.node? expression = some ⟨some id, .expression (cursor :: items)⟩)
      (outer_eq : tree.node? outer =
        some ⟨owner, .expression (front ++ previous :: id :: back)⟩) :
      StepsLeft tree cursor previous
  /-- The root is not left. -/
  | stay {items : List NodeId}
      (list : tree.node? root = some ⟨none, .expression (cursor :: items)⟩) :
      StepsLeft tree cursor cursor

variable {tree : Tree} {u v id expression slot start : NodeId} {owner : Option NodeId}
  {symbol : Symbol} {items front back : List NodeId}

/-! ## Lists and their ends -/

/-- An expression begins with the first symbol of its list. -/
theorem first_of_list
    (hnode : tree.node? expression = some ⟨owner, .expression (start :: items)⟩) :
    tree.first expression = .ok start := by
  simp [first, items_of_node? hnode, bind, Except.bind, pure, Except.pure]

/-- What an expression begins with is the first symbol of its list. -/
theorem first_eq_ok_iff :
    tree.first expression = .ok start ↔
      ∃ owner items, tree.node? expression = some ⟨owner, .expression (start :: items)⟩ := by
  refine ⟨fun h => ?_, fun ⟨owner, items, hnode⟩ => first_of_list hnode⟩
  unfold first at h
  cases hitems : tree.items expression with
  | error e => simp [hitems, bind, Except.bind] at h
  | ok items =>
    obtain ⟨owner, hnode⟩ := items_eq_ok_iff.mp hitems
    cases items with
    | nil => simp [hitems, bind, Except.bind] at h
    | cons item items =>
      simp only [hitems, bind, Except.bind, List.head?_cons, pure, Except.pure,
        Except.ok.injEq] at h
      exact ⟨owner, items, h ▸ hnode⟩

/-- The list of an expression begins with its first symbol. -/
theorem eq_cons_of_first (hnode : tree.node? expression = some ⟨owner, .expression items⟩)
    (hfirst : tree.first expression = .ok start) : ∃ others, items = start :: others := by
  obtain ⟨_, others, hlist⟩ := first_eq_ok_iff.mp hfirst
  rw [hnode] at hlist
  cases hlist
  exact ⟨others, rfl⟩

/-- An expression ends with the last symbol of its list. -/
theorem last_of_list (hnode : tree.node? expression = some ⟨owner, .expression (front ++ [u])⟩) :
    tree.last expression = .ok u :=
  last_eq_ok_iff.mpr ⟨_, items_of_node? hnode, by simp⟩

/-- The list of an expression ends with its last symbol. -/
theorem eq_concat_of_last (hnode : tree.node? expression = some ⟨owner, .expression items⟩)
    (hlast : tree.last expression = .ok u) : ∃ front, items = front ++ [u] := by
  obtain ⟨found, hitems, hu⟩ := last_eq_ok_iff.mp hlast
  obtain rfl := Except.ok.inj ((items_of_node? hnode).symm.trans hitems)
  exact List.getLast?_eq_some_iff.mp hu

namespace WellFormed

/-- The list of an expression has a last symbol. -/
theorem exists_concat (h : tree.WellFormed)
    (hnode : tree.node? expression = some ⟨owner, .expression items⟩) :
    ∃ front last, items = front ++ [last] := by
  obtain ⟨last, hlast, -⟩ := h.exists_last hnode
  obtain ⟨front, hitems⟩ := eq_concat_of_last hnode hlast
  exact ⟨front, last, hitems⟩

/-- What is first in an expression is its start, which owns nothing. -/
theorem start_of_list (h : tree.WellFormed)
    (hnode : tree.node? expression = some ⟨owner, .expression (u :: items)⟩) :
    tree.symbol u = .ok .start := by
  obtain ⟨first, others, heq, hfirst, -⟩ := (h.lists hnode).start
  cases heq
  exact symbol_of_node? hfirst

/-- To the left of a symbol is what stands directly before it in its expression. -/
theorem leftNeighbour_eq (h : tree.WellFormed)
    (hnode : tree.node? expression = some ⟨owner, .expression (front ++ u :: back)⟩) :
    tree.leftNeighbour u = .ok front.getLast? := by
  obtain ⟨symbol, hu⟩ := h.node?_of_mem hnode (List.mem_append_right front List.mem_cons_self)
  exact leftNeighbour_of_split hnode (h.position_of_split hu hnode)

/-- To the right of a symbol is what stands directly behind it in its expression. -/
theorem rightNeighbour_eq (h : tree.WellFormed)
    (hnode : tree.node? expression = some ⟨owner, .expression (front ++ u :: back)⟩) :
    tree.rightNeighbour u = .ok back.head? := by
  obtain ⟨symbol, hu⟩ := h.node?_of_mem hnode (List.mem_append_right front List.mem_cons_self)
  exact rightNeighbour_of_split hnode (h.position_of_split hu hnode)

/-- The position of a symbol is the number of symbols before it. -/
theorem position_eq (h : tree.WellFormed)
    (hnode : tree.node? expression = some ⟨owner, .expression (front ++ u :: back)⟩) :
    tree.position u = .ok (expression, front.length) := by
  obtain ⟨symbol, hu⟩ := h.node?_of_mem hnode (List.mem_append_right front List.mem_cons_self)
  exact h.position_of_split hu hnode

/-- A symbol which can be reached from the root stands in an expression. -/
theorem exists_node?_of_reachable (h : tree.WellFormed) (hu : tree.IsSymbol u)
    (hreach : tree.isReachable u = true) :
    ∃ expression symbol, tree.node? u = some ⟨some expression, .symbol symbol⟩ ∧
      tree.Inside u Tree.root := by
  obtain ⟨symbol, hsymbol⟩ := hu
  obtain ⟨owner, hnode⟩ := symbol_eq_ok_iff.mp hsymbol
  rw [isReachable, Bool.and_eq_true, h.contains_iff] at hreach
  obtain ⟨expression, rfl, -⟩ := h.exists_parent_of_inside hnode hreach.2
  exact ⟨expression, symbol, hnode, hreach.2⟩

/-- Before the owner of an expression inside the root there stands a symbol. -/
theorem exists_before_owner (h : tree.WellFormed)
    (hnode : tree.node? expression = some ⟨some id, .expression items⟩)
    (hinside : tree.Inside expression Tree.root) :
    ∃ outer owner front previous back, tree.Inside outer Tree.root ∧
      tree.node? outer = some ⟨owner, .expression (front ++ previous :: id :: back)⟩ := by
  obtain ⟨parent, symbol, hid, hmem⟩ := h.slot_of_parent hnode
  have hup := (h.inside_root_iff (parent?_of_node? hnode)).mp hinside
  obtain ⟨outer, rfl, houterUp⟩ := h.exists_parent_of_inside hid hup
  obtain ⟨owner, front, back, houter, -⟩ := h.exists_split hid
  obtain rfl | ⟨front, previous, rfl⟩ := List.eq_nil_or_concat' front
  · -- the owner would be a start, which has no slots
    have hstart := h.start_of_list houter
    rw [symbol_of_node? hid] at hstart
    cases hstart
    cases hmem
  · rw [List.append_assoc] at houter
    exact ⟨outer, owner, front, previous, back, houterUp, houter⟩

end WellFormed

/-! ## Steps are what the moves do -/

/-- A move to the right takes the step. -/
theorem StepsRight.navigate_eq (hstep : tree.StepsRight u v) (h : tree.WellFormed) :
    tree.navigate u .right = .ok v := by
  show tree.moveRight u = .ok v
  cases hstep with
  | next list symbol_eq plain =>
    simp [moveRight, h.rightNeighbour_eq list, landingRightward, symbol_eq, plain, bind,
      Except.bind, pure, Except.pure]
  | into list symbol_eq slots_eq slot_eq =>
    simp [moveRight, h.rightNeighbour_eq list, landingRightward, symbol_eq, slots_eq,
      first_of_list slot_eq, bind, Except.bind]
  | out list =>
    simp [moveRight, h.rightNeighbour_eq list, h.position_eq list, parent_of_node? list, bind,
      Except.bind, pure, Except.pure]
  | stay list =>
    simp [moveRight, h.rightNeighbour_eq list, h.position_eq list, parent_of_node? list, bind,
      Except.bind, pure, Except.pure]

/-- A move to the left takes the step. -/
theorem StepsLeft.navigate_eq (hstep : tree.StepsLeft u v) (h : tree.WellFormed) :
    tree.navigate u .left = .ok v := by
  show tree.moveLeft u = .ok v
  cases hstep with
  | into symbol_eq slots_eq slot_eq =>
    simp [moveLeft, landingLeftward, symbol_eq, Symbol.isComposite, slots_eq,
      last_of_list slot_eq, bind, Except.bind]
  | previous list symbol_eq plain =>
    rw [List.append_cons] at list
    simp [moveLeft, symbol_eq, Symbol.isComposite, plain, h.leftNeighbour_eq list, bind,
      Except.bind, pure, Except.pure]
  | out list outer_eq =>
    rw [List.append_cons] at outer_eq
    rw [← List.nil_append (u :: _)] at list
    simp [moveLeft, h.start_of_list list, Symbol.isComposite, Symbol.slots,
      h.leftNeighbour_eq list, h.position_eq list, parent_of_node? list,
      h.leftNeighbour_eq outer_eq, bind, Except.bind, pure, Except.pure]
  | stay list =>
    rw [← List.nil_append (u :: _)] at list
    simp [moveLeft, h.start_of_list list, Symbol.isComposite, Symbol.slots,
      h.leftNeighbour_eq list, h.position_eq list, parent_of_node? list, bind, Except.bind,
      pure, Except.pure]

namespace WellFormed

/-- From every symbol which stands in an expression there is a step to the right. -/
theorem exists_stepsRight (h : tree.WellFormed)
    (hu : tree.node? u = some ⟨some expression, .symbol symbol⟩) : ∃ v, tree.StepsRight u v := by
  obtain ⟨owner, front, back, hnode, -⟩ := h.exists_split hu
  cases back with
  | nil =>
    cases owner with
    | none =>
      obtain rfl := h.eq_root_of_orphan hnode
      exact ⟨u, .stay hnode⟩
    | some id => exact ⟨id, .out hnode⟩
  | cons next back =>
    have hmem : next ∈ front ++ u :: next :: back := by simp
    obtain ⟨found, hnext⟩ := h.node?_of_mem hnode hmem
    have hsymbol := symbol_of_node? hnext
    obtain hplain | ⟨slot, slots, items, hslots, hslot⟩ := h.slots_cases hsymbol
    · exact ⟨next, .next hnode hsymbol hplain⟩
    · obtain ⟨start, others, rfl, -, -⟩ := (h.lists hslot).start
      exact ⟨start, .into hnode hsymbol hslots hslot⟩

/-- From every symbol inside the root there is a step to the left. -/
theorem exists_stepsLeft (h : tree.WellFormed)
    (hu : tree.node? u = some ⟨some expression, .symbol symbol⟩)
    (hinside : tree.Inside u Tree.root) : ∃ v, tree.StepsLeft u v := by
  have hsymbol := symbol_of_node? hu
  obtain hplain | ⟨slot, slots, items, hslots, hslot⟩ := h.slots_cases hsymbol
  · obtain ⟨owner, front, back, hnode, -⟩ := h.exists_split hu
    obtain rfl | ⟨front, previous, rfl⟩ := List.eq_nil_or_concat' front
    · cases owner with
      | none =>
        obtain rfl := h.eq_root_of_orphan hnode
        exact ⟨u, .stay hnode⟩
      | some id =>
        obtain ⟨_, ⟨⟩, hup⟩ := h.exists_parent_of_inside hu hinside
        obtain ⟨outer, owner, front, previous, back', -, houter⟩ := h.exists_before_owner hnode hup
        exact ⟨previous, .out hnode houter⟩
    · rw [List.append_assoc] at hnode
      exact ⟨previous, .previous hnode hsymbol hplain⟩
  · obtain ⟨front, last, rfl⟩ := h.exists_concat hslot
    exact ⟨last, .into hsymbol hslots hslot⟩

end WellFormed

/-! ## Steps which are taken back -/

/-- A symbol is at an end of the denominator of the fraction which has the given numerator. -/
def EndsDenominator (tree : Tree) (edge : Tree → NodeId → Except Error NodeId) (id : NodeId)
    (numerator : NodeId) : Prop :=
  ∃ fraction denominator, tree.symbol fraction = .ok (.fraction numerator denominator) ∧
    edge tree denominator = .ok id

/-- An expression with an owner is its first slot or a denominator. -/
theorem WellFormed.slot_cases (h : tree.WellFormed)
    (hnode : tree.node? expression = some ⟨some id, .expression items⟩) :
    ∃ symbol, tree.symbol id = .ok symbol ∧
      ((∃ slots, symbol.slots = expression :: slots) ∨
        ∃ numerator, symbol = .fraction numerator expression) := by
  obtain ⟨parent, symbol, hid, hmem⟩ := h.slot_of_parent hnode
  refine ⟨symbol, symbol_of_node? hid, ?_⟩
  cases symbol <;> simp_all [Symbol.slots, eq_comm]

/-- A step to the right is taken back by one to the left, unless it stays or leaves a denominator.
-/
theorem StepsRight.undone (hstep : tree.StepsRight u v) (h : tree.WellFormed) :
    tree.StepsLeft v u ∨ (v = u ∧ tree.last root = .ok u) ∨
      ∃ numerator, tree.EndsDenominator Tree.last u numerator := by
  cases hstep with
  | next list symbol_eq plain => exact .inl (.previous list symbol_eq plain)
  | into list symbol_eq slots_eq slot_eq => exact .inl (.out slot_eq list)
  | stay list => exact .inr (.inl ⟨rfl, last_of_list list⟩)
  | out list =>
    obtain ⟨symbol, hsymbol, ⟨slots, hslots⟩ | ⟨numerator, rfl⟩⟩ := h.slot_cases list
    · exact .inl (.into hsymbol hslots list)
    · exact .inr (.inr ⟨numerator, v, _, hsymbol, last_of_list list⟩)

/-- A step to the left is taken back by one to the right, unless it stays or leaves a denominator.
-/
theorem StepsLeft.undone (hstep : tree.StepsLeft u v) (h : tree.WellFormed) :
    tree.StepsRight v u ∨ (v = u ∧ tree.first root = .ok u) ∨
      ∃ numerator, tree.EndsDenominator Tree.first u numerator := by
  cases hstep with
  | into symbol_eq slots_eq slot_eq => exact .inl (.out slot_eq)
  | previous list symbol_eq plain => exact .inl (.next list symbol_eq plain)
  | stay list => exact .inr (.inl ⟨rfl, first_of_list list⟩)
  | @out expression id _ _ _ _ _ _ list outer_eq =>
    obtain ⟨symbol, hsymbol, ⟨slots, hslots⟩ | ⟨numerator, rfl⟩⟩ := h.slot_cases list
    · exact .inl (.into outer_eq hsymbol hslots list)
    · exact .inr (.inr ⟨numerator, id, _, hsymbol, first_of_list list⟩)

/-- A step to the right which leads nowhere is made at the end of the root. -/
theorem StepsRight.last_of_self (hstep : tree.StepsRight u u) (h : tree.WellFormed) :
    tree.last root = .ok u := by
  cases hstep with
  | next list symbol_eq plain =>
    have hnodup := (h.lists list).nodup
    simp [List.nodup_append] at hnodup
  | into list symbol_eq slots_eq slot_eq =>
    -- the slot would be the expression in which its own owner stands
    have hslot := h.parent?_of_mem slot_eq List.mem_cons_self
    obtain rfl := Option.some.inj (hslot.symm.trans (h.parent?_of_mem list (by simp)))
    exact absurd (Inside.of_parent (h.parent?_of_mem list (by simp)))
      (h.not_inside_of_parent (parent?_of_node? slot_eq))
  | out list =>
    exact absurd (Inside.of_parent (h.parent?_of_mem list (by simp)))
      (h.not_inside_of_parent (parent?_of_node? list))
  | stay list => exact last_of_list list

/-- A step to the left which leads nowhere is made at the start of the root. -/
theorem StepsLeft.first_of_self (hstep : tree.StepsLeft u u) (h : tree.WellFormed) :
    tree.first root = .ok u := by
  cases hstep with
  | into symbol_eq slots_eq slot_eq =>
    exact absurd (Inside.of_parent (h.parent?_of_mem slot_eq (by simp)))
      (h.not_inside_of_parent (parent?_of_node? slot_eq))
  | previous list symbol_eq plain =>
    have hnodup := (h.lists list).nodup
    simp [List.nodup_append] at hnodup
  | out list outer_eq =>
    have hlist := h.parent?_of_mem list List.mem_cons_self
    obtain rfl := Option.some.inj (hlist.symm.trans (h.parent?_of_mem outer_eq (by simp)))
    exact absurd (Inside.of_parent (h.parent?_of_mem outer_eq (by simp)))
      (h.not_inside_of_parent (parent?_of_node? list))
  | stay list => exact first_of_list list

namespace WellFormed

/-- The two slots of a fraction are expressions, and nothing stands in both. -/
theorem slots_of_fraction {fraction numerator denominator : NodeId} (h : tree.WellFormed)
    (hfraction : tree.symbol fraction = .ok (.fraction numerator denominator)) :
    (∃ items, tree.node? numerator = some ⟨some fraction, .expression items⟩) ∧
      (∃ items, tree.node? denominator = some ⟨some fraction, .expression items⟩) ∧
      ∀ {w u}, tree.parent? w = some numerator → tree.parent? u = some denominator → w ≠ u := by
  obtain ⟨parent, hnode⟩ := symbol_eq_ok_iff.mp hfraction
  obtain ⟨hnodup, hslots⟩ := h.slots hnode
  refine ⟨hslots numerator (by simp [Symbol.slots]), hslots denominator (by simp [Symbol.slots]),
    ?_⟩
  rintro w _ htop hbottom rfl
  simp [Symbol.slots, Option.some.inj (htop.symm.trans hbottom)] at hnodup

/-- From the end of a denominator the way back leads to the end of the numerator. -/
theorem right_left_of_ends {numerator : NodeId} (h : tree.WellFormed)
    (hends : tree.EndsDenominator Tree.last u numerator) :
    ∃ w, tree.last numerator = .ok w ∧ w ≠ u ∧ tree.follow [.right, .left] u = .ok w := by
  obtain ⟨fraction, denominator, hfraction, hlast⟩ := hends
  obtain ⟨⟨items, htop⟩, ⟨items', hbottom⟩, hne⟩ := h.slots_of_fraction hfraction
  obtain ⟨front, w, rfl⟩ := h.exists_concat htop
  obtain ⟨front', rfl⟩ := eq_concat_of_last hbottom hlast
  have hright : tree.StepsRight u fraction := .out hbottom
  have hleft : tree.StepsLeft fraction w := .into hfraction rfl htop
  refine ⟨w, last_of_list htop,
    hne (h.parent?_of_mem htop (by simp)) (h.parent?_of_mem hbottom (by simp)), ?_⟩
  rw [follow_cons (hright.navigate_eq h), follow_cons (hleft.navigate_eq h), follow_nil]

/-- From the start of a denominator the way back leads to the start of the numerator. -/
theorem left_right_of_ends {numerator : NodeId} (h : tree.WellFormed)
    (hinside : tree.Inside u Tree.root) (hends : tree.EndsDenominator Tree.first u numerator) :
    ∃ w, tree.first numerator = .ok w ∧ w ≠ u ∧ tree.follow [.left, .right] u = .ok w := by
  obtain ⟨fraction, denominator, hfraction, hfirst⟩ := hends
  obtain ⟨⟨items, htop⟩, ⟨items', hbottom⟩, hne⟩ := h.slots_of_fraction hfraction
  obtain ⟨w, others, rfl, -, -⟩ := (h.lists htop).start
  obtain ⟨others', rfl⟩ := eq_cons_of_first hbottom hfirst
  have hu := h.parent?_of_mem hbottom List.mem_cons_self
  obtain ⟨outer, owner, front, previous, back, -, houter⟩ :=
    h.exists_before_owner hbottom ((h.inside_root_iff hu).mp hinside)
  have hleft : tree.StepsLeft u previous := .out hbottom houter
  have hright : tree.StepsRight previous w := .into houter hfraction rfl htop
  refine ⟨w, first_of_list htop, hne (h.parent?_of_mem htop List.mem_cons_self) hu, ?_⟩
  rw [follow_cons (hleft.navigate_eq h), follow_cons (hright.navigate_eq h), follow_nil]

/-- A move to the right, except from the end of the root, is taken back by a move to the left unless
it leaves a denominator at its end. -/
theorem right_left_iff (h : tree.WellFormed)
    (hu : tree.node? u = some ⟨some expression, .symbol symbol⟩)
    (hlast : tree.last Tree.root ≠ .ok u) :
    tree.follow [.right, .left] u = .ok u ↔
      ∀ numerator, ¬tree.EndsDenominator Tree.last u numerator := by
  constructor
  · intro hback numerator hends
    obtain ⟨w, -, hne, hfollow⟩ := h.right_left_of_ends hends
    rw [hfollow] at hback
    exact hne (Except.ok.inj hback)
  · intro hends
    obtain ⟨v, hright⟩ := h.exists_stepsRight hu
    obtain hleft | ⟨-, hend⟩ | ⟨numerator, hend⟩ := hright.undone h
    · rw [follow_cons (hright.navigate_eq h), follow_cons (hleft.navigate_eq h), follow_nil]
    · exact absurd hend hlast
    · exact absurd hend (hends numerator)

/-- A move to the left, except from the start of the root, is taken back by a move to the right
unless it leaves a denominator at its start. -/
theorem left_right_iff (h : tree.WellFormed)
    (hu : tree.node? u = some ⟨some expression, .symbol symbol⟩)
    (hinside : tree.Inside u Tree.root) (hfirst : tree.first Tree.root ≠ .ok u) :
    tree.follow [.left, .right] u = .ok u ↔
      ∀ numerator, ¬tree.EndsDenominator Tree.first u numerator := by
  constructor
  · intro hback numerator hends
    obtain ⟨w, -, hne, hfollow⟩ := h.left_right_of_ends hinside hends
    rw [hfollow] at hback
    exact hne (Except.ok.inj hback)
  · intro hends
    obtain ⟨v, hleft⟩ := h.exists_stepsLeft hu hinside
    obtain hright | ⟨-, hend⟩ | ⟨numerator, hend⟩ := hleft.undone h
    · rw [follow_cons (hleft.navigate_eq h), follow_cons (hright.navigate_eq h), follow_nil]
    · exact absurd hend hfirst
    · exact absurd hend (hends numerator)

/-- A move to the right leads nowhere else only at the end of the root. -/
theorem navigate_right_eq_self_iff (h : tree.WellFormed)
    (hu : tree.node? u = some ⟨some expression, .symbol symbol⟩) :
    tree.navigate u .right = .ok u ↔ tree.last Tree.root = .ok u := by
  constructor
  · intro hstay
    obtain ⟨v, hright⟩ := h.exists_stepsRight hu
    rw [hright.navigate_eq h, Except.ok.injEq] at hstay
    exact (hstay ▸ hright).last_of_self h
  · intro hlast
    obtain ⟨items, hroot⟩ := h.root
    obtain ⟨front, rfl⟩ := eq_concat_of_last hroot hlast
    exact (StepsRight.stay hroot).navigate_eq h

/-- A move to the left leads nowhere else only at the start of the root. -/
theorem navigate_left_eq_self_iff (h : tree.WellFormed)
    (hu : tree.node? u = some ⟨some expression, .symbol symbol⟩)
    (hinside : tree.Inside u Tree.root) :
    tree.navigate u .left = .ok u ↔ tree.first Tree.root = .ok u := by
  constructor
  · intro hstay
    obtain ⟨v, hleft⟩ := h.exists_stepsLeft hu hinside
    rw [hleft.navigate_eq h, Except.ok.injEq] at hstay
    exact (hstay ▸ hleft).first_of_self h
  · intro hfirst
    obtain ⟨items, hroot⟩ := h.root
    obtain ⟨others, rfl⟩ := eq_cons_of_first hroot hfirst
    exact (StepsLeft.stay hroot).navigate_eq h

end WellFormed

/-- A move to the right and one to the left undo each other, in both orders, for every symbol which
can be reached from the root: unless the symbol is at the end of the root, where the first of the
two moves has nowhere to go, or at the end of a denominator, from which they lead to the same end of
the numerator. Only the ends of the root are not left. -/
theorem Reachable.sideways_undone (h : tree.Reachable) (hu : tree.IsSymbol u)
    (hreach : tree.isReachable u = true) :
    (tree.last root ≠ .ok u →
      (tree.follow [.right, .left] u = .ok u ↔
        ∀ numerator, ¬tree.EndsDenominator Tree.last u numerator) ∧
      ∀ numerator, tree.EndsDenominator Tree.last u numerator →
        ∃ w, tree.last numerator = .ok w ∧ tree.follow [.right, .left] u = .ok w) ∧
    (tree.first root ≠ .ok u →
      (tree.follow [.left, .right] u = .ok u ↔
        ∀ numerator, ¬tree.EndsDenominator Tree.first u numerator) ∧
      ∀ numerator, tree.EndsDenominator Tree.first u numerator →
        ∃ w, tree.first numerator = .ok w ∧ tree.follow [.left, .right] u = .ok w) ∧
    (tree.navigate u .right = .ok u ↔ tree.last root = .ok u) ∧
    (tree.navigate u .left = .ok u ↔ tree.first root = .ok u) := by
  have htree := h.wellFormed
  obtain ⟨expression, symbol, hnode, hinside⟩ := htree.exists_node?_of_reachable hu hreach
  refine ⟨fun hlast => ⟨htree.right_left_iff hnode hlast, fun numerator hends => ?_⟩,
    fun hfirst => ⟨htree.left_right_iff hnode hinside hfirst, fun numerator hends => ?_⟩,
    htree.navigate_right_eq_self_iff hnode, htree.navigate_left_eq_self_iff hnode hinside⟩
  · obtain ⟨w, hw, -, hfollow⟩ := htree.right_left_of_ends hends
    exact ⟨w, hw, hfollow⟩
  · obtain ⟨w, hw, -, hfollow⟩ := htree.left_right_of_ends hinside hends
    exact ⟨w, hw, hfollow⟩

/-- Out of `b` under `a` and back, the cursor comes to `a`, while from the fraction it comes back. -/
theorem sideways_undone_at_fraction :
    let tree := empty.run [.create .fraction, .insertAfter 1 2, .create (.atom 'a'),
      .insertAfter 4 7, .create (.atom 'b'), .insertAfter 6 8, .create (.atom 'c'),
      .insertAfter 2 9]
    tree.Reachable ∧ tree.EndsDenominator Tree.last 8 3 ∧
      tree.follow [.right, .left] 8 = .ok 7 ∧ tree.follow [.left, .right] 2 = .ok 2 := by
  intro tree
  have hreach : tree.Reachable := reachable_run _
  have hends : tree.EndsDenominator Tree.last 8 3 := ⟨2, 5, rfl, rfl⟩
  have hbottom : tree.last root ≠ .ok 8 := by decide +kernel
  have hfraction : tree.first root ≠ .ok 2 := by decide +kernel
  obtain ⟨w, hw, hfollow⟩ :=
    ((hreach.sideways_undone ⟨_, rfl⟩ (by decide +kernel)).1 hbottom).2 3 hends
  have htop : tree.last 3 = .ok 7 := rfl
  rw [htop, Except.ok.injEq] at hw
  subst hw
  have hsymbol : tree.symbol 2 = .ok (.fraction 3 5) := rfl
  have hplain : ∀ numerator, ¬tree.EndsDenominator Tree.first 2 numerator := by
    rintro numerator ⟨fraction, denominator, -, hfirst⟩
    obtain ⟨owner, items, hlist⟩ := first_eq_ok_iff.mp hfirst
    have hstart := hreach.wellFormed.start_of_list hlist
    rw [hsymbol] at hstart
    cases hstart
  exact ⟨hreach, hends, hfollow,
    ((hreach.sideways_undone ⟨_, hsymbol⟩ (by decide +kernel)).2.1 hfraction).1.mpr hplain⟩

end FormulaEditor.Tree
