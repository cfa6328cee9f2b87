import FormulaEditor.Proofs.Lists
import FormulaEditor.Proofs.Naming
import FormulaEditor.Proofs.Tree.Gathering
import FormulaEditor.Proofs.Tree.Order

/-!
# Trees which grow

A tree grows into another one if symbols are added to it and nothing which it has is lost
(`Tree.GrowsInto`): everything stays inside and left of what it was inside and left of. Then what is
found from a node is part of what is found from it afterwards, in the same order
(`Tree.GrowsInto.sublist_inner`). Making a symbol, putting it in, and so typesetting a formula make
a tree grow. Filling the numerator of a fraction does not, since it puts symbols behind the fraction
which were before it. But the fraction is new, and a tree without it grows into the one in which it
has been filled (`Tree.WellFormed.growsInto_of_fraction`).
-/

set_option autoImplicit false

namespace FormulaEditor.Tree

open Edit

/-- A tree grows into another one. -/
structure GrowsInto (tree other : Tree) : Prop where
  nextId_le : tree.nextId ≤ other.nextId
  /-- Every name which has been given since is live, and every one which was live still is. -/
  isLive_iff {y : NodeId} :
    other.isLive y = true ↔ tree.isLive y = true ∨ tree.nextId ≤ y ∧ y < other.nextId
  symbol {y : NodeId} {s : Symbol} : tree.symbol y = .ok s → other.symbol y = .ok s
  parent {y above : NodeId} : tree.parent? y = some above → other.Inside y above
  beside {first second : NodeId} : tree.Beside first second → other.LeftOf first second

variable {tree middle other made grown : Tree} {id x y anchor expression numerator top : NodeId}
  {owner : Option NodeId} {symbol : Symbol} {stroke : Stroke} {front run back items : List NodeId}

/-- Of two nodes side by side the first one is left of the second one. -/
theorem LeftOf.of_beside (h : tree.Beside x y) : tree.LeftOf x y :=
  ⟨x, y, h, Inside.refl x, Inside.refl y⟩

/-- What is live if no name has been given. -/
theorem isLive_iff_of_nextId_eq (hnextId : other.nextId = tree.nextId)
    (hlive : other.isLive y = tree.isLive y) :
    other.isLive y = true ↔ tree.isLive y = true ∨ tree.nextId ≤ y ∧ y < other.nextId := by
  rw [hlive, hnextId]
  exact (or_iff_left fun ⟨hle, hlt⟩ => absurd hlt (Nat.not_lt_of_le hle)).symm

namespace GrowsInto

/-- Every tree grows into itself. -/
theorem refl (tree : Tree) : tree.GrowsInto tree where
  nextId_le := Nat.le_refl _
  isLive_iff := isLive_iff_of_nextId_eq rfl rfl
  symbol hs := hs
  parent := .of_parent
  beside := .of_beside

/-- What is inside a node stays inside it while a tree grows. -/
theorem inside (h : tree.GrowsInto other) (hinside : tree.Inside x y) : other.Inside x y := by
  induction hinside with
  | refl => exact Inside.refl x
  | tail _ hparent ih => exact ih.trans (h.parent hparent)

/-- What is left of a node stays left of it while a tree grows. -/
theorem leftOf (h : tree.GrowsInto other) (hleft : tree.LeftOf x y) : other.LeftOf x y := by
  obtain ⟨a, b, hbeside, hxa, hyb⟩ := hleft
  obtain ⟨a', b', hbeside', ha, hb⟩ := h.beside hbeside
  exact ⟨a', b', hbeside', (h.inside hxa).trans ha, (h.inside hyb).trans hb⟩

/-- What precedes a node goes on to precede it while a tree grows. -/
theorem precedes (h : tree.GrowsInto other) (hprecedes : tree.Precedes x y) :
    other.Precedes x y :=
  hprecedes.imp (fun ⟨hinside, hne⟩ => ⟨h.inside hinside, hne⟩) h.leftOf

/-- A tree which grows step by step grows. -/
theorem trans (h : tree.GrowsInto middle) (h' : middle.GrowsInto other) :
    tree.GrowsInto other where
  nextId_le := h.nextId_le.trans h'.nextId_le
  isLive_iff := by
    intro y
    have hnames : ∀ a b c n : Nat, a ≤ b → b ≤ c →
        (a ≤ n ∧ n < b ∨ b ≤ n ∧ n < c ↔ a ≤ n ∧ n < c) := by omega
    rw [h'.isLive_iff, h.isLive_iff, or_assoc, hnames _ _ _ _ h.nextId_le h'.nextId_le]
  symbol hs := h'.symbol (h.symbol hs)
  parent hparent := h'.inside (h.parent hparent)
  beside hbeside := h'.leftOf (h.beside hbeside)

/-- A node which is live afterwards is old, or it has a name which had not been given. -/
theorem isLive_of_lt (h : tree.GrowsInto other) (hlive : other.isLive y = true)
    (hgiven : y < tree.nextId) : tree.isLive y = true :=
  (h.isLive_iff.mp hlive).resolve_right fun hnew => Nat.not_le_of_lt hgiven hnew.1

/-- If all nodes but one are spared, every other name which has been given denotes the node which it
did, or none. -/
theorem node?_of_lt (h : tree.GrowsInto other) (hspares : Spares tree other expression)
    (hgiven : y < tree.nextId) (hne : y ≠ expression) : other.node? y = tree.node? y := by
  cases hnode : tree.node? y with
  | some node => exact hspares y node hne hnode
  | none =>
    by_contra hsome
    have hlive := h.isLive_of_lt (Option.isSome_iff_ne_none.mpr hsome) hgiven
    rw [isLive, hnode] at hlive
    cases hlive

/-- What is found from a node is found from it later, in the same order. -/
theorem sublist_inner (h : tree.GrowsInto other) (htree : tree.WellFormed)
    (hother : other.WellFormed) (hlive : tree.isLive id = true) :
    (tree.inner id).Sublist (other.inner id) := by
  have hlive' := h.isLive_iff.mpr (.inl hlive)
  have hmem : ∀ x ∈ tree.inner id, x ∈ other.inner id := by
    intro x hx
    obtain ⟨hxLive, hinside⟩ := (htree.mem_inner_iff hlive).mp hx
    exact (hother.mem_inner_iff hlive').mpr ⟨h.isLive_iff.mpr (.inl hxLive), h.inside hinside⟩
  refine sublist_of_pairs (hother.nodup_inner hlive') hmem fun x y hsub => ?_
  obtain ⟨hx, hy, hprecedes⟩ := (htree.sublist_inner_iff hlive).mp hsub
  exact (hother.sublist_inner_iff hlive').mpr ⟨hmem x hx, hmem y hy, h.precedes hprecedes⟩

end GrowsInto

/-! ## Adding a symbol -/

/-- Making a node lets a tree grow. -/
theorem growsInto_push (tree : Tree) (node : Node) : tree.GrowsInto (tree.push node) := by
  have hkept : ∀ {y found}, tree.node? y = some found → (tree.push node).node? y = some found :=
    fun hy => (node?_push_iff node _ _).mpr (.inl hy)
  constructor
  case nextId_le =>
    rw [nextId_push]
    exact Nat.le_succ _
  case isLive_iff =>
    intro y
    have hnew : y = tree.nextId ↔ tree.nextId ≤ y ∧ y < tree.nextId + 1 := by
      rw [Nat.lt_succ_iff, ← le_antisymm_iff, eq_comm]
    rw [isLive_iff, isLive_iff, nextId_push, ← hnew]
    simp only [node?_push_iff, exists_or, exists_and_left, exists_eq, and_true]
  case symbol =>
    intro y s hs
    obtain ⟨parent, hy⟩ := symbol_eq_ok_iff.mp hs
    exact symbol_of_node? (hkept hy)
  case parent =>
    intro y above hparent
    obtain ⟨kind, hy⟩ := node?_of_parent? hparent
    exact .of_parent (parent?_of_node? (hkept hy))
  case beside =>
    rintro first second ⟨z, found, hz, hsub⟩
    exact .of_beside ⟨z, found, hkept hz, hsub⟩

/-- A tree grows when a symbol is made, although that stands nowhere yet. -/
theorem growsInto_pushSymbol (tree : Tree) (stroke : Stroke) :
    tree.GrowsInto (tree.pushSymbol stroke) := by
  have hslots : ∀ (slots : List NodeId) (owner : Option NodeId) (grown : Tree),
      grown.GrowsInto (slots.foldl (fun grown _ => grown.pushExpression owner) grown) := by
    intro slots owner
    induction slots with
    | nil => exact .refl
    | cons slot slots ih =>
      exact fun grown => ((growsInto_push _ _).trans (growsInto_push _ _)).trans (ih _)
  exact (growsInto_push _ _).trans (hslots _ _ _)

/-- When a symbol is put into a list, nothing of the list changes its order. -/
theorem sublist_spliceAfter (hanchor : anchor ∈ items) :
    items.Sublist (spliceAfter anchor id items) := by
  obtain ⟨front, back, rfl, hfront⟩ := List.eq_append_cons_of_mem hanchor
  rw [spliceAfter_append hfront]
  exact ((List.sublist_cons_self id back).cons_cons anchor).append_left front

/-- A tree grows when a symbol which stands nowhere is put in. -/
theorem WellFormed.growsInto_moveAfter (h : tree.WellFormed)
    (hid : tree.node? id = some ⟨none, .symbol symbol⟩)
    (hdest : tree.destination anchor id = .ok expression) :
    tree.GrowsInto (tree.moveAfter anchor id expression) := by
  obtain ⟨_, owner, items, -, -, -, -, hexpression, hanchor, -⟩ := h.landing hdest
  have hreleased : tree.released id = tree := by
    rw [Tree.released, parent?_of_node? hid]
  rw [Tree.moveAfter, hreleased]
  rw [hreleased] at hexpression
  have hview := relisting_attach hid hexpression hanchor
  constructor
  case nextId_le => rw [nextId_attach]
  case isLive_iff => exact isLive_iff_of_nextId_eq (nextId_attach _ _ _ _) (hview.isLive_eq _)
  case symbol =>
    intro y s hs
    exact symbol_eq_ok_iff.mpr (hview.exists_symbol_iff.mpr (symbol_eq_ok_iff.mp hs))
  case parent =>
    intro y above hparent
    have hne : y ≠ id := by
      rintro rfl
      rw [parent?_of_node? hid] at hparent
      cases hparent
    exact .of_parent ((hview.parent?_eq hne).trans hparent)
  case beside =>
    rintro first second ⟨z, node, hz, hsub⟩
    by_cases hzid : z = id
    · rw [hzid, hid] at hz
      cases hz
      exact .of_beside ⟨id, _, hview.node?_moved, hsub⟩
    by_cases hzexpression : z = expression
    · rw [hzexpression, hexpression] at hz
      cases hz
      exact .of_beside ⟨_, _, hview.node?_listing, hsub.trans (sublist_spliceAfter hanchor)⟩
    · exact .of_beside ⟨z, node, (hview.node?_rest hzid hzexpression).trans hz, hsub⟩

/-- Adding a symbol lets a well-formed tree grow. -/
theorem WellFormed.growsInto_of_run_add (h : tree.WellFormed)
    (hrun : (add anchor stroke).run tree = .ok id grown) :
    grown.WellFormed ∧ tree.GrowsInto grown := by
  obtain ⟨-, expression, hdest, rfl⟩ := h.of_run_add hrun
  have hpushed := h.pushSymbol stroke
  exact ⟨hpushed.moveAfter hdest, (growsInto_pushSymbol tree stroke).trans
    (hpushed.growsInto_moveAfter node?_pushSymbol_self hdest)⟩

/-- Typesetting a formula lets a well-formed tree grow. -/
theorem WellFormed.growsInto_of_run_typeset (h : tree.WellFormed) {last : NodeId}
    {formula : Formula} (hrun : (typeset anchor formula).run tree = .ok last grown) :
    tree.GrowsInto grown := by
  have hadd : ∀ anchor stroke,
      Restores (fun later => later.WellFormed ∧ tree.GrowsInto later) (add anchor stroke) := by
    intro anchor stroke middle id grown hmiddle hrun
    obtain ⟨hgrown, hgrows⟩ := hmiddle.1.growsInto_of_run_add hrun
    exact ⟨hgrown, hmiddle.2.trans hgrows⟩
  exact ((composes_restores _).typeset hadd anchor formula tree last grown ⟨h, .refl tree⟩ hrun).2

/-! ## Adding a fraction with a numerator -/

/-- A run of symbols has been raised into the numerator of a new fraction, which stands where they
stood. Nothing else which there was has changed. -/
structure Raised (tree grown : Tree) (expression id numerator : NodeId)
    (front run back : List NodeId) : Prop where
  listing : ∃ owner, tree.node? expression = some ⟨owner, .expression (front ++ (run ++ back))⟩ ∧
    grown.node? expression = some ⟨owner, .expression (front ++ id :: back)⟩
  fraction : grown.parent? id = some expression
  filled : ∃ top, grown.node? numerator = some ⟨some id, .expression (top :: run)⟩
  moved : ∀ y ∈ run, grown.node? y = (tree.node? y).map (.withParent (some numerator))
  rest : ∀ y node, y ∉ run → y ≠ expression → tree.node? y = some node →
    grown.node? y = some node

namespace Raised

variable (h : tree.WellFormed) (hraised : Raised tree grown expression id numerator front run back)

include h hraised

/-- The symbols which have been raised are what they were, inside the fraction. -/
theorem node?_of_mem (hy : y ∈ run) : ∃ symbol,
    tree.node? y = some ⟨some expression, .symbol symbol⟩ ∧
    grown.node? y = some ⟨some numerator, .symbol symbol⟩ ∧ grown.Inside y id := by
  obtain ⟨owner, hexpression, -⟩ := hraised.listing
  obtain ⟨top, hfilled⟩ := hraised.filled
  obtain ⟨symbol, hnode⟩ := h.node?_of_mem hexpression
    (List.mem_append_right front (List.mem_append_left back hy))
  have hmoved := hraised.moved y hy
  rw [hnode] at hmoved
  exact ⟨symbol, hnode, hmoved,
    Inside.child (parent?_of_node? hmoved) (.of_parent (parent?_of_node? hfilled))⟩

/-- What has been raised is the symbol which it was, and so is everything else. -/
theorem symbol_eq {s : Symbol} (hs : tree.symbol y = .ok s) : grown.symbol y = .ok s := by
  by_cases hmem : y ∈ run
  · obtain ⟨symbol, hnode, hmoved, -⟩ := hraised.node?_of_mem h hmem
    rw [symbol_of_node? hnode] at hs
    rw [symbol_of_node? hmoved, hs]
  · obtain ⟨parent, hy⟩ := symbol_eq_ok_iff.mp hs
    refine symbol_of_node? (hraised.rest y _ hmem ?_ hy)
    rintro rfl
    obtain ⟨owner, hexpression, -⟩ := hraised.listing
    rw [hexpression] at hy
    cases hy

/-- What had a parent is inside it still, even if a fraction has come in between. -/
theorem inside_of_parent {above : NodeId} (hparent : tree.parent? y = some above) :
    grown.Inside y above := by
  obtain ⟨owner, hexpression, hlisting⟩ := hraised.listing
  by_cases hmem : y ∈ run
  · -- the numerator and the fraction have come between the symbol and the expression
    obtain ⟨symbol, hnode, -, hinside⟩ := hraised.node?_of_mem h hmem
    rw [parent?_of_node? hnode] at hparent
    cases hparent
    exact hinside.trans (.of_parent hraised.fraction)
  by_cases hy : y = expression
  · rw [hy, parent?_of_node? hexpression] at hparent
    rw [hy]
    exact .of_parent ((parent?_of_node? hlisting).trans hparent)
  · obtain ⟨kind, hnode⟩ := node?_of_parent? hparent
    exact .of_parent (parent?_of_node? (hraised.rest y _ hmem hy hnode))

/-- The symbols of the expression keep their order: those which have been raised keep it in the
numerator, and to the others the fraction is where they were. -/
theorem leftOf_of_sublist (hsub : [x, y].Sublist (front ++ (run ++ back))) : grown.LeftOf x y := by
  obtain ⟨owner, -, hlisting⟩ := hraised.listing
  obtain ⟨top, hfilled⟩ := hraised.filled
  have hbeside : ∀ {x y}, [x, y].Sublist front ∨ x ∈ front ∧ y ∈ id :: back ∨
      [x, y].Sublist (id :: back) → grown.Beside x y :=
    fun hsub => ⟨expression, _, hlisting, pair_sublist_append.mpr hsub⟩
  have hinside : ∀ {y}, y ∈ run → grown.Inside y id := fun hy =>
    (hraised.node?_of_mem h hy).choose_spec.2.2
  obtain hfront | ⟨hx, hy⟩ | hsub := pair_sublist_append.mp hsub
  · exact .of_beside (hbeside (.inl hfront))
  · obtain hy | hy := List.mem_append.mp hy
    · exact ⟨x, id, hbeside (.inr (.inl ⟨hx, List.mem_cons_self⟩)), Inside.refl x, hinside hy⟩
    · exact .of_beside (hbeside (.inr (.inl ⟨hx, List.mem_cons_of_mem id hy⟩)))
  obtain hrun | ⟨hx, hy⟩ | hback := pair_sublist_append.mp hsub
  · exact .of_beside ⟨numerator, _, hfilled, hrun.cons top⟩
  · exact ⟨id, y, hbeside (.inr (.inr ((List.singleton_sublist.mpr hy).cons_cons id))), hinside hx,
      Inside.refl y⟩
  · exact .of_beside (hbeside (.inr (.inr (hback.cons id))))

/-- What stood side by side keeps its order when a run is raised into a numerator. -/
theorem leftOf_of_beside (hbeside : tree.Beside x y) : grown.LeftOf x y := by
  obtain ⟨z, node, hz, hsub⟩ := hbeside
  by_cases hexpression : z = expression
  · obtain ⟨owner, hlisted, -⟩ := hraised.listing
    rw [hexpression, hlisted] at hz
    cases hz
    exact hraised.leftOf_of_sublist h hsub
  by_cases hmem : z ∈ run
  · obtain ⟨symbol, hnode, hmoved, -⟩ := hraised.node?_of_mem h hmem
    rw [hnode] at hz
    cases hz
    exact .of_beside ⟨z, _, hmoved, hsub⟩
  · exact .of_beside ⟨z, node, hraised.rest z node hmem hexpression hz, hsub⟩

/-- A tree grows when a run is raised into the numerator of a fraction which has been added. -/
theorem growsInto (hgrows : tree.GrowsInto made)
    (hnames : grown.nextId = made.nextId ∧ ∀ y, grown.isLive y = made.isLive y) :
    tree.GrowsInto grown where
  nextId_le := hnames.1 ▸ hgrows.nextId_le
  isLive_iff := by
    intro y
    rw [hnames.2, hnames.1]
    exact hgrows.isLive_iff
  symbol := hraised.symbol_eq h
  parent := hraised.inside_of_parent h
  beside := hraised.leftOf_of_beside h

end Raised

/-- What has become of a tree to which a fraction has been added, when that has been filled. -/
theorem Gathered.raised (h : tree.WellFormed)
    (hexpression : tree.node? expression = some ⟨owner, .expression (front ++ (run ++ back))⟩)
    (hspares : Spares tree made expression)
    (hlisting : made.node? expression =
      some ⟨owner, .expression (front ++ (run ++ tree.nextId :: back))⟩)
    (hid : made.node? tree.nextId = some ⟨some expression, .symbol symbol⟩)
    (hnumerator : made.node? (tree.nextId + 1) = some ⟨some tree.nextId, .expression [top]⟩)
    (hgathered : Gathered made grown run expression (tree.nextId + 1)
      (front ++ tree.nextId :: back) (top :: run)) :
    Raised tree grown expression tree.nextId (tree.nextId + 1) front run back := by
  have hold : ∀ y ∈ run, ∃ s, tree.node? y = some ⟨some expression, .symbol s⟩ := fun y hy =>
    h.node?_of_mem hexpression (List.mem_append_right front (List.mem_append_left back hy))
  have hfresh : tree.nextId ∉ run := fun hmem => by
    obtain ⟨s, hs⟩ := hold _ hmem
    exact ne_nextId_add_of_node? hs 0 rfl
  constructor
  case listing =>
    refine ⟨owner, hexpression, ?_⟩
    rw [hgathered.listing, hlisting]
    rfl
  case fraction =>
    refine parent?_of_node? ((hgathered.rest _ hfresh ?_ ?_).trans hid)
    · exact (ne_nextId_add_of_node? hexpression 0).symm
    · exact (Nat.succ_ne_self _).symm
  case filled =>
    refine ⟨top, ?_⟩
    rw [hgathered.filled, hnumerator]
    rfl
  case moved =>
    intro y hy
    obtain ⟨s, hs⟩ := hold y hy
    have hne : y ≠ expression := by
      rintro rfl
      rw [hexpression] at hs
      cases hs
    rw [hgathered.moved y hy, hspares y _ hne hs, hs]
  case rest =>
    intro y node hy hne hnode
    rw [hgathered.rest y hy hne (ne_nextId_add_of_node? hnode 1)]
    exact hspares y node hne hnode

/-- Filling a numerator gives no names and takes none away. -/
theorem WellFormed.names_of_run_fillNumerator (h : tree.WellFormed) {collected : Bool}
    (hrun : (fillNumerator id).run tree = .ok collected grown) :
    grown.nextId = tree.nextId ∧ ∀ y, grown.isLive y = tree.isLive y := by
  have hmove : ∀ anchor id, Keeps (fun later => later.WellFormed ∧ later.nextId = tree.nextId ∧
      ∀ y, later.isLive y = tree.isLive y) (insertAfter anchor id) := by
    refine keeps_insertAfter_of And.left ?_
    rintro later anchor id expression ⟨hlater, hnextId, hlive⟩ hdest
    obtain ⟨hmoved, -⟩ := hlater.moved_moveAfter hdest
    refine ⟨hlater.moveAfter hdest, (nextId_moveAfter _ _ _ _).trans hnextId, fun y => ?_⟩
    exact (Bool.eq_iff_iff.mpr hmoved.isLive_iff).trans (hlive y)
  exact (((composes_keeps _).fillNumerator hmove id).of_run ⟨h, rfl, fun _ => rfl⟩ hrun).2

/-- A tree grows when a fraction is added, also if symbols before it are raised into its numerator.
-/
theorem WellFormed.growsInto_of_fraction (h : tree.WellFormed) {collected : Bool}
    (hexpression : tree.node? expression = some ⟨owner, .expression (front ++ anchor :: back)⟩)
    (hadd : (add anchor .fraction).run tree = .ok id made)
    (hfill : (fillNumerator id).run made = .ok collected grown) : tree.GrowsInto grown := by
  obtain ⟨hmade, hgrows⟩ := h.growsInto_of_run_add hadd
  obtain ⟨made', hadd', -, hspares, hlisting, hid, hslots⟩ := h.run_add hexpression .fraction
  rw [hadd] at hadd'
  cases hadd'
  obtain ⟨hnumerator, -⟩ := hslots (tree.nextId + 1) List.mem_cons_self
  obtain ⟨start, before, after, hitems, -⟩ := hmade.exists_front hid
  rw [items_of_node? hlisting, Except.ok.injEq] at hitems
  obtain ⟨precis, hprecis⟩ := hmade.exists_precis hlisting fun y (hy : y ∈ before) => by
    rw [hitems]
    exact List.mem_cons_of_mem start (List.mem_append_left _ hy)
  rw [hitems] at hlisting
  obtain rfl | ⟨kept, run, rfl, -, hgathered⟩ :=
    hmade.fillNumerator_cases hid hlisting hnumerator hprecis hfill
  · exact hgrows
  -- without the fraction the list is the old one
  have hsplit : front ++ [anchor] ++ tree.nextId :: back =
      start :: kept ++ run ++ tree.nextId :: after := by
    rw [← List.append_cons, hitems, List.cons_append, List.cons_append]
  rw [List.append_cons] at hexpression
  have hfresh : tree.nextId ∉ front ++ [anchor] ++ back := by
    intro hmem
    obtain ⟨s, hs⟩ := h.node?_of_mem hexpression hmem
    exact ne_nextId_add_of_node? hs 0 rfl
  rw [List.mem_append, not_or] at hfresh
  obtain ⟨hfront, -, rfl⟩ := (List.append_cons_inj_of_notMem hfresh.1 hfresh.2).mp hsplit
  rw [hfront, List.append_assoc] at hexpression
  rw [List.append_nil] at hgathered
  rw [← List.cons_append, ← List.cons_append, List.append_assoc] at hlisting
  have hraised := hgathered.raised h hexpression hspares hlisting hid hnumerator
  exact hraised.growsInto h hgrows (hmade.names_of_run_fillNumerator hfill)

end FormulaEditor.Tree
