import FormulaEditor.Proofs.Tree.Sideways

/-!
# Moves up and down

A fraction can take a move down from whatever is inside its numerator, and a move up from whatever is
inside its denominator (`Tree.Takes`). What can take a move from an expression is the owner of the
expression, or it can take the move from the expression above already (`Tree.WellFormed.takes_iff`).
So the search upwards meets the innermost fraction first, and its other slot is where the cursor goes
(`Tree.Reachable.across_by_innermost`).
-/

set_option autoImplicit false

namespace FormulaEditor

/-- The direction of the move back. -/
def Direction.opposite : Direction → Direction
  | left => right
  | right => left
  | up => down
  | down => up

namespace Tree

/-- A fraction can take a move up or down: the symbol which moves is inside the slot to leave. -/
inductive Takes (tree : Tree) (id : NodeId) :
    Direction → (fraction leaving arriving : NodeId) → Prop
  | down {fraction numerator denominator : NodeId}
      (symbol_eq : tree.symbol fraction = .ok (.fraction numerator denominator))
      (contains : tree.contains numerator id = true) :
      Takes tree id .down fraction numerator denominator
  | up {fraction numerator denominator : NodeId}
      (symbol_eq : tree.symbol fraction = .ok (.fraction numerator denominator))
      (contains : tree.contains denominator id = true) :
      Takes tree id .up fraction denominator numerator

/-- The innermost fraction which can take a move is inside all which can take it. -/
structure InnermostTaking (tree : Tree) (id : NodeId) (direction : Direction)
    (fraction leaving arriving : NodeId) : Prop where
  takes : tree.Takes id direction fraction leaving arriving
  inside : ∀ {other leaving' arriving' : NodeId},
    tree.Takes id direction other leaving' arriving' → tree.contains other fraction = true

variable {tree : Tree} {id expression fraction leaving arriving : NodeId} {direction : Direction}
  {owner parent : Option NodeId} {symbol : Symbol} {items : List NodeId}

/-- Up and down are the moves across. -/
theorem navigate_eq_moveAcross (hdirection : direction ∈ [Direction.up, .down]) :
    tree.navigate id direction = tree.moveAcross id direction := by
  cases direction with
  | up => rfl
  | down => rfl
  | left => simp at hdirection
  | right => simp at hdirection

/-- A fraction takes a cursor across if the slot in which the cursor is has an opposite one. -/
theorem takes_iff_opposite? :
    tree.Takes id direction fraction leaving arriving ↔ ∃ symbol,
      tree.symbol fraction = .ok symbol ∧ symbol.opposite? direction leaving = some arriving ∧
        tree.contains leaving id = true := by
  constructor
  · rintro (⟨symbol_eq, contains⟩ | ⟨symbol_eq, contains⟩)
    · exact ⟨_, symbol_eq, by simp [Symbol.opposite?], contains⟩
    · exact ⟨_, symbol_eq, by simp [Symbol.opposite?], contains⟩
  · rintro ⟨symbol, symbol_eq, hopposite, contains⟩
    cases symbol with
    | fraction numerator denominator =>
      cases direction with
      | down =>
        obtain ⟨rfl, rfl⟩ : leaving = numerator ∧ denominator = arriving := by
          simpa [Symbol.opposite?] using hopposite
        exact .down symbol_eq contains
      | up =>
        obtain ⟨rfl, rfl⟩ : leaving = denominator ∧ numerator = arriving := by
          simpa [Symbol.opposite?] using hopposite
        exact .up symbol_eq contains
      | left => cases hopposite
      | right => cases hopposite
    | _ => cases hopposite

/-- What can be left for its opposite is a slot. -/
theorem mem_slots_of_leaving {slot opposite : NodeId}
    (h : symbol.opposite? direction slot = some opposite) : slot ∈ symbol.slots := by
  cases symbol with
  | fraction numerator denominator =>
    cases direction <;> simp_all [Symbol.opposite?, Symbol.slots]
  | _ => cases h

namespace Takes

/-- The slots between which a fraction takes a cursor are its own, and the cursor is inside the one
which it leaves. -/
theorem leaving_eq (htakes : tree.Takes id direction fraction leaving arriving)
    (h : tree.WellFormed) :
    (∃ items, tree.node? leaving = some ⟨some fraction, .expression items⟩) ∧
      (∃ items, tree.node? arriving = some ⟨some fraction, .expression items⟩) ∧
        tree.Inside id leaving := by
  obtain ⟨symbol, hsymbol, hopposite, hcontains⟩ := takes_iff_opposite?.mp htakes
  obtain ⟨parent, hnode⟩ := symbol_eq_ok_iff.mp hsymbol
  have hslots := (h.slots hnode).2
  exact ⟨hslots _ (mem_slots_of_leaving hopposite),
    hslots _ (Symbol.mem_slots_of_opposite? hopposite), (h.contains_iff _ _).mp hcontains⟩

/-- What takes the move back is the fraction which took the move. -/
theorem back (htakes : tree.Takes id direction fraction leaving arriving)
    {symbol : Symbol} (hsymbol : tree.symbol fraction = .ok symbol) :
    symbol.opposite? direction.opposite arriving = some leaving := by
  cases htakes with
  | down symbol_eq =>
    obtain rfl := Except.ok.inj (symbol_eq.symm.trans hsymbol)
    simp [Symbol.opposite?, Direction.opposite]
  | up symbol_eq =>
    obtain rfl := Except.ok.inj (symbol_eq.symm.trans hsymbol)
    simp [Symbol.opposite?, Direction.opposite]

end Takes

namespace WellFormed

/-- From a node without a parent no move up or down is taken. -/
theorem not_takes_of_orphan (h : tree.WellFormed) (horphan : tree.parent? id = none) :
    ¬tree.Takes id direction fraction leaving arriving := by
  intro htakes
  obtain ⟨⟨items, hleaving⟩, -, hinside⟩ := htakes.leaving_eq h
  obtain rfl := hinside.eq_of_orphan horphan
  simp [parent?_of_node? hleaving] at horphan

/-- What takes a move from a node which is not the slot to leave takes it from the parent. -/
theorem takes_iff_of_ne (h : tree.WellFormed) (hparent : tree.parent? id = some expression)
    (hne : ∀ symbol, tree.symbol fraction = .ok symbol →
      symbol.opposite? direction leaving = some arriving → id ≠ leaving) :
    tree.Takes id direction fraction leaving arriving ↔
      tree.Takes expression direction fraction leaving arriving := by
  simp only [takes_iff_opposite?, h.contains_iff]
  refine exists_congr fun symbol => and_congr_right fun hsymbol =>
    and_congr_right fun hopposite => ?_
  constructor
  · intro hinside
    exact hinside.above (hne symbol hsymbol hopposite) hparent
  · exact Inside.child hparent

/-- What takes a move from a symbol takes it from the expression in which the symbol stands. -/
theorem takes_iff_of_symbol (h : tree.WellFormed)
    (hid : tree.node? id = some ⟨some expression, .symbol symbol⟩) :
    tree.Takes id direction fraction leaving arriving ↔
      tree.Takes expression direction fraction leaving arriving := by
  refine h.takes_iff_of_ne (parent?_of_node? hid) ?_
  rintro found hfound hopposite rfl
  obtain ⟨parent, hnode⟩ := symbol_eq_ok_iff.mp hfound
  obtain ⟨items, hslot⟩ := (h.slots hnode).2 _ (mem_slots_of_leaving hopposite)
  rw [hid] at hslot
  cases hslot

/-- What takes a move from an expression is its owner, or takes it from the owner. -/
theorem takes_iff (h : tree.WellFormed)
    (hnode : tree.node? expression = some ⟨some id, .expression items⟩)
    (hid : tree.node? id = some ⟨parent, .symbol symbol⟩) :
    tree.Takes expression direction fraction leaving arriving ↔
      (fraction = id ∧ leaving = expression ∧
        symbol.opposite? direction expression = some arriving) ∨
      tree.Takes id direction fraction leaving arriving := by
  have hparent := parent?_of_node? hnode
  constructor
  · intro htakes
    by_cases hleaving : expression = leaving
    · left
      subst hleaving
      obtain ⟨found, hfound, hopposite, -⟩ := takes_iff_opposite?.mp htakes
      obtain ⟨⟨_, hslot⟩, -, -⟩ := htakes.leaving_eq h
      obtain rfl := Option.some.inj (hparent.symm.trans (parent?_of_node? hslot))
      obtain rfl := Except.ok.inj (hfound.symm.trans (symbol_of_node? hid))
      exact ⟨rfl, rfl, hopposite⟩
    · exact .inr ((h.takes_iff_of_ne hparent fun _ _ _ => hleaving).mp htakes)
  · rintro (⟨rfl, rfl, hopposite⟩ | htakes)
    · exact takes_iff_opposite?.mpr ⟨symbol, symbol_of_node? hid, hopposite,
        (h.contains_iff _ _).mpr (Inside.refl _)⟩
    · obtain ⟨found, hfound, hopposite, hcontains⟩ := takes_iff_opposite?.mp htakes
      exact takes_iff_opposite?.mpr ⟨found, hfound, hopposite,
        (h.contains_iff _ _).mpr (Inside.child hparent ((h.contains_iff _ _).mp hcontains))⟩

/-- The owner of an expression which can be left for its other slot is the innermost fraction. -/
theorem innermostTaking_of_owner (h : tree.WellFormed)
    (hnode : tree.node? expression = some ⟨some id, .expression items⟩)
    (hid : tree.node? id = some ⟨parent, .symbol symbol⟩)
    (hopposite : symbol.opposite? direction expression = some arriving) :
    tree.InnermostTaking expression direction id expression arriving where
  takes := (h.takes_iff hnode hid).mpr (.inl ⟨rfl, rfl, hopposite⟩)
  inside htakes := by
    rw [h.contains_iff]
    obtain ⟨rfl, -, -⟩ | habove := (h.takes_iff hnode hid).mp htakes
    · exact Inside.refl _
    · obtain ⟨⟨_, hleaving⟩, -, hinside⟩ := habove.leaving_eq h
      exact hinside.parent (parent?_of_node? hleaving)

/-- Between a symbol and its expression there is nothing which takes a cursor across. -/
theorem innermostTaking_iff_of_symbol (h : tree.WellFormed)
    (hid : tree.node? id = some ⟨some expression, .symbol symbol⟩) :
    tree.InnermostTaking id direction fraction leaving arriving ↔
      tree.InnermostTaking expression direction fraction leaving arriving := by
  constructor
  · rintro ⟨takes, inside⟩
    exact ⟨(h.takes_iff_of_symbol hid).mp takes,
      fun htakes => inside ((h.takes_iff_of_symbol hid).mpr htakes)⟩
  · rintro ⟨takes, inside⟩
    exact ⟨(h.takes_iff_of_symbol hid).mpr takes,
      fun htakes => inside ((h.takes_iff_of_symbol hid).mp htakes)⟩

/-- The search upwards finds the other slot of the innermost fraction which takes the move, or
nothing if none takes it. -/
theorem crossing_cases (h : tree.WellFormed) (direction : Direction)
    (hnode : tree.node? expression = some ⟨owner, .expression items⟩) :
    (∃ fraction leaving arriving,
      tree.InnermostTaking expression direction fraction leaving arriving ∧
        tree.crossing direction (tree.ancestors expression) = .ok (some arriving)) ∨
    ((∀ fraction leaving arriving, ¬tree.Takes expression direction fraction leaving arriving) ∧
      tree.crossing direction (tree.ancestors expression) = .ok none) := by
  -- the way up from the expression above is two steps shorter
  induction hlength : (tree.ancestors expression).length using Nat.strong_induction_on
    generalizing expression owner items with
  | _ n ih =>
    have hways := h.ancestors_eq expression
    rw [parent?_of_node? hnode] at hways
    cases owner with
    | none =>
      refine .inr ⟨fun _ _ _ => h.not_takes_of_orphan (parent?_of_node? hnode), ?_⟩
      simp [hways, crossing, pure, Except.pure]
    | some id =>
      obtain ⟨parent, symbol, hid, hmem⟩ := h.slot_of_parent hnode
      simp only [h.ancestors_eq id, parent?_of_node? hid] at hways
      rw [hways] at hlength ⊢
      simp only [crossing, symbol_of_node? hid, bind, Except.bind]
      cases hopposite : symbol.opposite? direction expression with
      | some arriving =>
        exact .inl ⟨id, expression, arriving, h.innermostTaking_of_owner hnode hid hopposite, rfl⟩
      | none =>
        have hiff : ∀ {fraction leaving arriving},
            tree.Takes expression direction fraction leaving arriving ↔
              tree.Takes id direction fraction leaving arriving := by
          intro fraction leaving arriving
          rw [h.takes_iff hnode hid, hopposite]
          simp
        cases parent with
        | none =>
          refine .inr ⟨fun _ _ _ => ?_, rfl⟩
          rw [hiff]
          exact h.not_takes_of_orphan (parent?_of_node? hid)
        | some above =>
          obtain ⟨owner, items, habove, -⟩ := h.listed hid
          simp only [List.length_cons] at hlength
          obtain ⟨fraction, leaving, arriving, hinnermost, hcrossing⟩ | ⟨hnone, hcrossing⟩ :=
            ih _ (by omega) habove rfl
          · refine .inl ⟨fraction, leaving, arriving, ⟨?_, fun htakes => ?_⟩, hcrossing⟩
            · exact hiff.mpr ((h.takes_iff_of_symbol hid).mpr hinnermost.takes)
            · exact hinnermost.inside ((h.takes_iff_of_symbol hid).mp (hiff.mp htakes))
          · refine .inr ⟨fun _ _ _ => ?_, hcrossing⟩
            rw [hiff, h.takes_iff_of_symbol hid]
            exact hnone _ _ _

/-- Only one fraction is the innermost one. -/
theorem innermostTaking_unique (h : tree.WellFormed) {other leaving' arriving' : NodeId}
    (hfirst : tree.InnermostTaking id direction fraction leaving arriving)
    (hsecond : tree.InnermostTaking id direction other leaving' arriving') :
    leaving = leaving' ∧ arriving = arriving' := by
  have hdown := (h.contains_iff _ _).mp (hfirst.inside hsecond.takes)
  have hup := (h.contains_iff _ _).mp (hsecond.inside hfirst.takes)
  obtain rfl | ⟨parent, hparent, hback⟩ := inside_iff.mp hup
  · cases hfirst.takes with
    | down symbol_eq => cases hsecond.takes with
      | down symbol_eq' => simpa using symbol_eq.symm.trans symbol_eq'
    | up symbol_eq => cases hsecond.takes with
      | up symbol_eq' => simpa [and_comm] using symbol_eq.symm.trans symbol_eq'
  · exact absurd (hback.trans hdown) (h.not_inside_of_parent hparent)

/-- A move which the search upwards finds nothing for leads nowhere. -/
theorem moveAcross_of_none (h : tree.WellFormed)
    (hid : tree.node? id = some ⟨some expression, .symbol symbol⟩)
    (hcrossing : tree.crossing direction (tree.ancestors expression) = .ok none) :
    tree.moveAcross id direction = .ok id := by
  have hways := h.ancestors_eq id
  rw [parent?_of_node? hid] at hways
  simp [moveAcross, parent_of_node? hid, hways, hcrossing, bind, Except.bind, pure, Except.pure]

/-- A move leads to the start of the slot which the search upwards finds. -/
theorem moveAcross_of_some (h : tree.WellFormed)
    (hid : tree.node? id = some ⟨some expression, .symbol symbol⟩)
    (hcrossing : tree.crossing direction (tree.ancestors expression) = .ok (some arriving)) :
    tree.moveAcross id direction = tree.first arriving := by
  have hways := h.ancestors_eq id
  rw [parent?_of_node? hid] at hways
  simp [moveAcross, parent_of_node? hid, hways, hcrossing, bind, Except.bind]

/-- The innermost fraction takes the move. -/
theorem moveAcross_of_innermost (h : tree.WellFormed)
    (hid : tree.node? id = some ⟨some expression, .symbol symbol⟩)
    (hinnermost : tree.InnermostTaking id direction fraction leaving arriving) :
    tree.moveAcross id direction = tree.first arriving := by
  rw [h.innermostTaking_iff_of_symbol hid] at hinnermost
  obtain ⟨owner, items, hnode, -⟩ := h.listed hid
  obtain ⟨other, leaving', arriving', hother, hcrossing⟩ | ⟨hnone, -⟩ :=
    h.crossing_cases direction hnode
  · obtain ⟨-, rfl⟩ := h.innermostTaking_unique hinnermost hother
    exact h.moveAcross_of_some hid hcrossing
  · exact absurd hinnermost.takes (hnone _ _ _)

/-- The fraction which took a move is the innermost one which takes the move back. -/
theorem innermostTaking_back (h : tree.WellFormed)
    (htakes : tree.Takes id direction fraction leaving arriving) {start : NodeId}
    (hstart : tree.node? start = some ⟨some arriving, .symbol symbol⟩) :
    tree.InnermostTaking start direction.opposite fraction arriving leaving := by
  obtain ⟨found, hfound, -, -⟩ := takes_iff_opposite?.mp htakes
  obtain ⟨parent, hfraction⟩ := symbol_eq_ok_iff.mp hfound
  obtain ⟨-, ⟨items, harriving⟩, -⟩ := htakes.leaving_eq h
  rw [h.innermostTaking_iff_of_symbol hstart]
  exact h.innermostTaking_of_owner harriving hfraction (htakes.back hfound)

end WellFormed

/-- A move down leads to the start of the denominator of the innermost fraction which has the symbol
in its numerator, and a move up to the start of the numerator of the innermost one which has it in
its denominator. Where there is none the cursor stays. From where the cursor arrives, the move back
leads to the start of the slot which was left. -/
theorem Reachable.across_by_innermost (h : tree.Reachable)
    (hid : tree.node? id = some ⟨some expression, .symbol symbol⟩)
    (hdirection : direction ∈ [Direction.up, .down]) :
    ((∃ fraction leaving arriving, tree.Takes id direction fraction leaving arriving) →
      ∃ fraction leaving arriving, tree.InnermostTaking id direction fraction leaving arriving) ∧
    (∀ fraction leaving arriving, tree.InnermostTaking id direction fraction leaving arriving →
      ∃ start back, tree.first arriving = .ok start ∧ tree.navigate id direction = .ok start ∧
        tree.first leaving = .ok back ∧ tree.navigate start direction.opposite = .ok back) ∧
    ((∀ fraction leaving arriving, ¬tree.Takes id direction fraction leaving arriving) →
      tree.navigate id direction = .ok id) := by
  have htree := h.wellFormed
  obtain ⟨owner, items, hnode, -⟩ := htree.listed hid
  have hopposite : direction.opposite ∈ [Direction.up, .down] := by
    cases direction <;> simp_all [Direction.opposite]
  have hcases := htree.crossing_cases direction hnode
  rw [navigate_eq_moveAcross hdirection]
  refine ⟨?_, fun fraction leaving arriving hinnermost => ?_, fun hnone => ?_⟩
  · rintro ⟨fraction, leaving, arriving, htakes⟩
    obtain ⟨fraction, leaving, arriving, hinnermost, -⟩ | ⟨hnone, -⟩ := hcases
    · exact ⟨fraction, leaving, arriving, (htree.innermostTaking_iff_of_symbol hid).mpr hinnermost⟩
    · exact absurd ((htree.takes_iff_of_symbol hid).mp htakes) (hnone _ _ _)
  · obtain ⟨⟨_, hleaving⟩, ⟨_, harriving⟩, -⟩ := hinnermost.takes.leaving_eq htree
    obtain ⟨start, hfirst, hstart⟩ := htree.exists_first harriving
    obtain ⟨back, hback, -⟩ := htree.exists_first hleaving
    have hreturn := htree.innermostTaking_back hinnermost.takes hstart
    refine ⟨start, back, hfirst, ?_, hback, ?_⟩
    · rw [htree.moveAcross_of_innermost hid hinnermost, hfirst]
    · rw [navigate_eq_moveAcross hopposite, htree.moveAcross_of_innermost hstart hreturn, hback]
  · obtain ⟨_, _, _, hinnermost, -⟩ | ⟨-, hcrossing⟩ := hcases
    · exact absurd ((htree.takes_iff_of_symbol hid).mpr hinnermost.takes) (hnone _ _ _)
    · exact htree.moveAcross_of_none hid hcrossing

/-- A move down from the denominator of a fraction in a numerator leads to the denominator of the
outer fraction: the inner one has the cursor on the wrong side. -/
theorem across_out_of_denominator :
    let tree := empty.run [.create .fraction, .insertAfter 1 2, .create .fraction,
      .insertAfter 4 7, .create (.atom 'x'), .insertAfter 11 12]
    tree.Reachable ∧ tree.navigate 12 .down = .ok 6 ∧ tree.navigate 6 .up = .ok 4 ∧
      ∃ fraction leaving arriving, tree.InnermostTaking 12 .down fraction leaving arriving ∧
        tree.first arriving = .ok 6 ∧ tree.first leaving = .ok 4 := by
  intro tree
  have hreach : tree.Reachable := reachable_run _
  have hid : tree.node? 12 = some ⟨some 10, .symbol (.atom 'x')⟩ := rfl
  have hdown : tree.navigate 12 .down = .ok 6 := rfl
  have hup : tree.navigate 6 .up = .ok 4 := rfl
  have htakes : tree.Takes 12 .down 2 3 5 := .down rfl (by decide +kernel)
  have hvertical : Direction.down ∈ [Direction.up, .down] := by simp
  obtain ⟨hexists, hlands, -⟩ := hreach.across_by_innermost hid hvertical
  obtain ⟨fraction, leaving, arriving, hinnermost⟩ := hexists ⟨2, 3, 5, htakes⟩
  obtain ⟨start, back, hfirst, hstart, hback, hreturn⟩ := hlands _ _ _ hinnermost
  obtain rfl : 6 = start := by simpa [hdown] using hstart
  obtain rfl : 4 = back := by
    rw [Direction.opposite, hup] at hreturn
    exact Except.ok.inj hreturn
  exact ⟨hreach, hdown, hup, fraction, leaving, arriving, hinnermost, hfirst, hback⟩

end Tree

end FormulaEditor
