import FormulaEditor.Proofs.Tree.Crossing
import FormulaEditor.Proofs.Tree.Traversal

/-!
# Where a cursor can get to

Moves to the left lead to the start of the root from everywhere, so it is enough to get from there to
everywhere else. Before the owner of a slot there stands a symbol, from which a move to the right
enters the first slot; a denominator is entered by a move down from the start of the numerator
(`Tree.WellFormed.leads_to_slot`). Going on like this a cursor gets into slots of any depth
(`Tree.Reachable.roams`).

The moves down cannot be dispensed with: moves to the right and to the left lead into no denominator
(`Tree.WellFormed.sideways_stays_out`).
-/

set_option autoImplicit false

namespace FormulaEditor.Tree

variable {tree : Tree} {u v id expression slot start outer previous fraction numerator
  denominator : NodeId} {direction : Direction} {owner above : Option NodeId} {symbol : Symbol}
  {items others slots front back : List NodeId}

/-! ## Into the slots -/

namespace WellFormed

/-- From the symbol before the owner of a slot a cursor gets to the start of the slot. -/
theorem leads_to_slot (h : tree.WellFormed)
    (hslot : tree.node? slot = some ⟨some id, .expression (start :: items)⟩)
    (houter : tree.node? outer = some ⟨owner, .expression (front ++ previous :: id :: back)⟩) :
    tree.Leads [.right, .down] previous start := by
  obtain ⟨symbol, hid, ⟨slots, hslots⟩ | ⟨numerator, rfl⟩⟩ := h.slot_cases hslot
  · have hinto : tree.StepsRight previous start := .into houter hid hslots hslot
    exact .head (hinto.navigate_eq h) (by simp) (.refl start)
  · obtain ⟨⟨items, hnumerator⟩, -, -⟩ := h.slots_of_fraction hid
    obtain ⟨first, others, rfl, hfirst, -⟩ := (h.lists hnumerator).start
    have hinto : tree.StepsRight previous first := .into houter hid rfl hnumerator
    have hbelow : tree.Takes start .up id slot numerator := by
      refine .up hid ((h.contains_iff _ _).mpr (Inside.of_parent ?_))
      exact h.parent?_of_mem hslot List.mem_cons_self
    have hbar : tree.InnermostTaking first .down id numerator slot :=
      h.innermostTaking_back hbelow hfirst
    have hdown : tree.navigate first .down = .ok start := by
      rw [navigate_eq_moveAcross (by simp), h.moveAcross_of_innermost hfirst hbar,
        first_of_list hslot]
    exact .head (hinto.navigate_eq h) (by simp) (.head hdown (by simp) (.refl start))

/-- From the start of the root a cursor gets to everything in the root. -/
theorem leads_from_start_of_root (h : tree.WellFormed) (hstart : tree.first Tree.root = .ok start)
    (hu : tree.IsSymbol u) (hreach : tree.isReachable u = true) :
    tree.Leads [.right, .down] start u := by
  have hright : [Direction.right] ⊆ [.right, .down] := by simp
  refine h.symbol_induction (motive := fun u => tree.Leads [.right, .down] start u)
    (fun {items u} hroot hmem => ?_)
    (fun {slot id outer previous _ items _ _ u} hslot houter ih hmem => ?_) hu hreach
  · obtain ⟨others, rfl⟩ := eq_cons_of_first hroot hstart
    exact (h.leads_from_start hroot hmem).mono hright
  · obtain ⟨first, others, rfl, -, -⟩ := (h.lists hslot).start
    have hbefore := ih previous (by simp)
    have hwithin := (h.leads_from_start hslot hmem).mono hright
    exact hbefore.trans ((h.leads_to_slot hslot houter).trans hwithin)

end WellFormed

/-! ## Into no denominator -/

namespace WellFormed

/-- A symbol is inside an expression exactly if the expression in which it stands is. -/
theorem inside_iff_of_mem (h : tree.WellFormed)
    (houter : tree.node? outer = some ⟨above, .expression others⟩)
    (hnode : tree.node? expression = some ⟨owner, .expression items⟩) (hu : u ∈ items) :
    tree.Inside u outer ↔ tree.Inside expression outer := by
  have hparent := h.parent?_of_mem hnode hu
  refine ⟨fun hinside => hinside.above ?_ hparent, Inside.child hparent⟩
  rintro rfl
  obtain ⟨symbol, hsymbol⟩ := h.node?_of_mem hnode hu
  rw [houter] at hsymbol
  cases hsymbol

/-- What an expression lists are symbols. -/
theorem isSymbol_of_mem (h : tree.WellFormed)
    (hnode : tree.node? expression = some ⟨owner, .expression items⟩) (hu : u ∈ items) :
    tree.IsSymbol u := by
  obtain ⟨symbol, hsymbol⟩ := h.node?_of_mem hnode hu
  exact isSymbol_of_node? hsymbol

/-- A first slot is no denominator, so it is inside one only if its owner is. -/
theorem inside_of_first_slot (h : tree.WellFormed)
    (hfraction : tree.symbol fraction = .ok (.fraction numerator denominator))
    (hid : tree.symbol id = .ok symbol) (hslots : symbol.slots = slot :: slots)
    (hslot : tree.node? slot = some ⟨some id, .expression items⟩)
    (hinside : tree.Inside slot denominator) : tree.Inside id denominator := by
  have hparent := parent?_of_node? hslot
  refine hinside.above ?_ hparent
  rintro rfl
  obtain ⟨-, ⟨_, hbottom⟩, -⟩ := h.slots_of_fraction hfraction
  obtain rfl := Option.some.inj (hparent.symm.trans (parent?_of_node? hbottom))
  obtain rfl := Except.ok.inj (hfraction.symm.trans hid)
  obtain ⟨parent, hnode⟩ := symbol_eq_ok_iff.mp hid
  have hnodup := (h.slots hnode).1
  obtain ⟨rfl, -⟩ : numerator = slot ∧ _ := by simpa [Symbol.slots] using hslots
  simp [Symbol.slots] at hnodup

end WellFormed

/-- No step to the right leads into a denominator. -/
theorem StepsRight.stays_out (hstep : tree.StepsRight u v) (h : tree.WellFormed)
    (hfraction : tree.symbol fraction = .ok (.fraction numerator denominator)) :
    tree.Inside v denominator → tree.Inside u denominator := by
  obtain ⟨-, ⟨_, hbottom⟩, -⟩ := h.slots_of_fraction hfraction
  intro hv
  cases hstep with
  | next list symbol_eq plain =>
    rw [h.inside_iff_of_mem hbottom list (by simp)] at hv ⊢
    exact hv
  | into list symbol_eq slots_eq slot_eq =>
    rw [h.inside_iff_of_mem hbottom slot_eq (by simp)] at hv
    have hid := h.inside_of_first_slot hfraction symbol_eq slots_eq slot_eq hv
    rw [h.inside_iff_of_mem hbottom list (by simp)] at hid ⊢
    exact hid
  | out list =>
    rw [h.inside_iff_of_mem hbottom list (by simp)]
    exact Inside.child (parent?_of_node? list) hv
  | stay list => exact hv

/-- No step to the left leads into a denominator. -/
theorem StepsLeft.stays_out (hstep : tree.StepsLeft u v) (h : tree.WellFormed)
    (hfraction : tree.symbol fraction = .ok (.fraction numerator denominator)) :
    tree.Inside v denominator → tree.Inside u denominator := by
  obtain ⟨-, ⟨_, hbottom⟩, -⟩ := h.slots_of_fraction hfraction
  intro hv
  cases hstep with
  | into symbol_eq slots_eq slot_eq =>
    rw [h.inside_iff_of_mem hbottom slot_eq (by simp)] at hv
    exact h.inside_of_first_slot hfraction symbol_eq slots_eq slot_eq hv
  | previous list symbol_eq plain =>
    rw [h.inside_iff_of_mem hbottom list (by simp)] at hv ⊢
    exact hv
  | @out _ id _ _ _ _ _ _ list outer_eq =>
    rw [h.inside_iff_of_mem hbottom outer_eq (by simp)] at hv
    have hid : tree.Inside id denominator :=
      (h.inside_iff_of_mem hbottom outer_eq (by simp)).mpr hv
    rw [h.inside_iff_of_mem hbottom list (by simp)]
    exact Inside.child (parent?_of_node? list) hid
  | stay list => exact hv

/-- Steps to the right do not lead out of the root. -/
theorem StepsRight.inside_root (hstep : tree.StepsRight u v) (h : tree.WellFormed)
    (hu : tree.Inside u root) : tree.Inside v root := by
  cases hstep with
  | next list symbol_eq plain =>
    rw [h.inside_root_iff (h.parent?_of_mem list (by simp))] at hu ⊢
    exact hu
  | into list symbol_eq slots_eq slot_eq =>
    rw [h.inside_root_iff (h.parent?_of_mem list (by simp))] at hu
    rw [h.inside_root_iff (h.parent?_of_mem slot_eq (by simp)),
      h.inside_root_iff (parent?_of_node? slot_eq),
      h.inside_root_iff (h.parent?_of_mem list (by simp))]
    exact hu
  | out list =>
    rw [h.inside_root_iff (h.parent?_of_mem list (by simp)),
      h.inside_root_iff (parent?_of_node? list)] at hu
    exact hu
  | stay list => exact hu

/-- Steps to the left do not lead out of the root. -/
theorem StepsLeft.inside_root (hstep : tree.StepsLeft u v) (h : tree.WellFormed)
    (hu : tree.Inside u root) : tree.Inside v root := by
  cases hstep with
  | into symbol_eq slots_eq slot_eq =>
    rw [h.inside_root_iff (h.parent?_of_mem slot_eq (by simp)),
      h.inside_root_iff (parent?_of_node? slot_eq)]
    exact hu
  | previous list symbol_eq plain =>
    rw [h.inside_root_iff (h.parent?_of_mem list (by simp))] at hu ⊢
    exact hu
  | out list outer_eq =>
    rw [h.inside_root_iff (h.parent?_of_mem list (by simp)),
      h.inside_root_iff (parent?_of_node? list),
      h.inside_root_iff (h.parent?_of_mem outer_eq (by simp))] at hu
    rw [h.inside_root_iff (h.parent?_of_mem outer_eq (by simp))]
    exact hu
  | stay list => exact hu

/-- A move to the right leads to a symbol. -/
theorem StepsRight.isSymbol (hstep : tree.StepsRight u v) (h : tree.WellFormed) :
    tree.IsSymbol v := by
  cases hstep with
  | next list => exact h.isSymbol_of_mem list (by simp)
  | into list symbol_eq slots_eq slot_eq => exact h.isSymbol_of_mem slot_eq (by simp)
  | out list =>
    obtain ⟨_, _, hid, -⟩ := h.slot_of_parent list
    exact isSymbol_of_node? hid
  | stay list => exact h.isSymbol_of_mem list (by simp)

/-- A move to the left leads to a symbol. -/
theorem StepsLeft.isSymbol (hstep : tree.StepsLeft u v) (h : tree.WellFormed) :
    tree.IsSymbol v := by
  cases hstep with
  | into symbol_eq slots_eq slot_eq => exact h.isSymbol_of_mem slot_eq (by simp)
  | previous list => exact h.isSymbol_of_mem list (by simp)
  | out list outer_eq => exact h.isSymbol_of_mem outer_eq (by simp)
  | stay list => exact h.isSymbol_of_mem list (by simp)

namespace WellFormed

/-- A move to the right or to the left leads from a symbol inside the root to such a symbol, and into
no denominator. -/
theorem sideways_stays_out (h : tree.WellFormed)
    (hfraction : tree.symbol fraction = .ok (.fraction numerator denominator))
    (hu : tree.IsSymbol u) (hinside : tree.Inside u Tree.root)
    (hdirection : direction ∈ [Direction.left, .right]) :
    ∃ v, tree.navigate u direction = .ok v ∧ tree.IsSymbol v ∧ tree.Inside v Tree.root ∧
      (tree.Inside v denominator → tree.Inside u denominator) := by
  obtain ⟨symbol, hsymbol⟩ := hu
  obtain ⟨owner, hnode⟩ := symbol_eq_ok_iff.mp hsymbol
  obtain ⟨expression, rfl, -⟩ := h.exists_parent_of_inside hnode hinside
  obtain rfl | rfl : direction = .left ∨ direction = .right := by simpa using hdirection
  · obtain ⟨v, hstep⟩ := h.exists_stepsLeft hnode hinside
    exact ⟨v, hstep.navigate_eq h, hstep.isSymbol h, hstep.inside_root h hinside,
      hstep.stays_out h hfraction⟩
  · obtain ⟨v, hstep⟩ := h.exists_stepsRight hnode
    exact ⟨v, hstep.navigate_eq h, hstep.isSymbol h, hstep.inside_root h hinside,
      hstep.stays_out h hfraction⟩

/-- No moves to the right and to the left lead into a denominator. -/
theorem leads_stays_out (h : tree.WellFormed)
    (hfraction : tree.symbol fraction = .ok (.fraction numerator denominator))
    (hu : tree.IsSymbol u) (hinside : tree.Inside u Tree.root)
    (hleads : tree.Leads [.left, .right] u v) (hv : tree.Inside v denominator) :
    tree.Inside u denominator := by
  obtain ⟨moves, hsub, hfollow⟩ := hleads
  induction moves generalizing u with
  | nil =>
    rw [follow_nil, Except.ok.injEq] at hfollow
    exact hfollow ▸ hv
  | cons direction moves ih =>
    rw [List.cons_subset] at hsub
    obtain ⟨next, hnext, hsymbol, hup, hback⟩ := h.sideways_stays_out hfraction hu hinside hsub.1
    rw [follow_cons hnext] at hfollow
    exact hback (ih hsymbol hup hsub.2 hfollow)

end WellFormed

/-- Moves to the left, to the right and down lead from every symbol which can be reached from the
root to every other one. So they lead into every denominator, while moves to the left and to the
right do not lead into any. -/
theorem Reachable.roams (h : tree.Reachable) (hu : tree.IsSymbol u)
    (hreach : tree.isReachable u = true) :
    (∀ w, tree.IsSymbol w → tree.isReachable w = true →
      tree.Leads [.left, .right, .down] u w) ∧
    ∀ fraction numerator denominator,
      tree.symbol fraction = .ok (.fraction numerator denominator) →
      tree.isReachable fraction = true →
      (∃ start, tree.first denominator = .ok start ∧
        tree.Leads [.left, .right, .down] u start) ∧
      ∀ v, tree.Leads [.left, .right] u v → tree.contains denominator v = true →
        tree.contains denominator u = true := by
  have htree := h.wellFormed
  obtain ⟨items, hroot⟩ := htree.root
  obtain ⟨start, hstart, -⟩ := htree.exists_first hroot
  have hback : tree.Leads [.left, .right, .down] u start :=
    (htree.leads_to_start_of_root hstart hu hreach).mono (by simp)
  have hroams : ∀ w, tree.IsSymbol w → tree.isReachable w = true →
      tree.Leads [.left, .right, .down] u w := by
    intro w hw hwreach
    exact hback.trans ((htree.leads_from_start_of_root hstart hw hwreach).mono (by simp))
  refine ⟨hroams, fun fraction numerator denominator hfraction hfreach => ⟨?_, ?_⟩⟩
  · obtain ⟨-, ⟨_, hbottom⟩, -⟩ := htree.slots_of_fraction hfraction
    obtain ⟨first, hfirst, hnode⟩ := htree.exists_first hbottom
    refine ⟨first, hfirst, hroams first (isSymbol_of_node? hnode) ?_⟩
    rw [isReachable, Bool.and_eq_true, htree.contains_iff] at hfreach ⊢
    exact ⟨isLive_iff.mpr ⟨_, hnode⟩,
      Inside.child (parent?_of_node? hnode) (Inside.child (parent?_of_node? hbottom) hfreach.2)⟩
  · intro v hleads hv
    obtain ⟨_, _, -, hinside⟩ := htree.exists_node?_of_reachable hu hreach
    rw [htree.contains_iff] at hv ⊢
    exact htree.leads_stays_out hfraction hu hinside hleads hv

/-- The cursor gets from the start of the root into a denominator in a denominator, but not by moves
to the left and to the right. -/
theorem roams_into_nested_denominator :
    let tree := empty.run [.create .fraction, .insertAfter 1 2, .create .fraction,
      .insertAfter 6 7, .create (.atom 'x'), .insertAfter 11 12]
    tree.Reachable ∧ tree.contains 5 12 = true ∧ tree.contains 10 12 = true ∧
      tree.Leads [.left, .right, .down] 1 12 ∧ ¬tree.Leads [.left, .right] 1 12 := by
  intro tree
  have hreach : tree.Reachable := reachable_run _
  have houter : tree.contains 5 12 = true := by decide +kernel
  have hinner : tree.contains 10 12 = true := by decide +kernel
  have hstart : tree.IsSymbol 1 := ⟨_, rfl⟩
  obtain ⟨hroams, hfractions⟩ := hreach.roams hstart (by decide +kernel)
  have hleads := hroams 12 ⟨_, rfl⟩ (by decide +kernel)
  obtain ⟨-, hstays⟩ := hfractions 7 8 10 rfl (by decide +kernel)
  refine ⟨hreach, houter, hinner, hleads, fun hsideways => ?_⟩
  have hinside : tree.contains 10 1 = true := hstays 12 hsideways hinner
  have houtside : tree.contains 10 1 = false := by decide +kernel
  simp [houtside] at hinside

end FormulaEditor.Tree
