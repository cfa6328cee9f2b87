import FormulaEditor.Proofs.Lists
import FormulaEditor.Proofs.Parallel
import FormulaEditor.Proofs.Tree.Neighbours
import FormulaEditor.Tree.Formula
import FormulaEditor.Tree.Navigation
import FormulaEditor.Tree.Numerator

/-!
# Trees which differ only in names

Two trees may have the same nodes under different names. A correspondence between their names
(`Tree.Pairing`) pairs the roots and the names which will be given next, and nodes whose names
correspond are alike: of the same kind, with corresponding nodes directly above and below them.
Questions about corresponding nodes then agree.
-/

set_option autoImplicit false

namespace FormulaEditor

open List (Forall₂)

/-! ## Nodes which are alike -/

/-- Two symbols are of the same kind, and their slots correspond. -/
inductive Symbol.Alike (R : NodeId → NodeId → Prop) : Symbol → Symbol → Prop
  | start : Alike R .start .start
  | atom (c : Char) : Alike R (.atom c) (.atom c)
  | bracket (side : Side) : Alike R (.bracket side) (.bracket side)
  | bar : Alike R .bar .bar
  | fraction {numerator numerator' denominator denominator' : NodeId}
      (hnumerator : R numerator numerator') (hdenominator : R denominator denominator') :
      Alike R (.fraction numerator denominator) (.fraction numerator' denominator')
  | superscript {exponent exponent' : NodeId} (h : R exponent exponent') :
      Alike R (.superscript exponent) (.superscript exponent')
  | radical {radicand radicand' : NodeId} (h : R radicand radicand') :
      Alike R (.radical radicand) (.radical radicand')

/-- Two nodes are both expressions of corresponding symbols, or symbols which are alike. -/
inductive NodeKind.Alike (R : NodeId → NodeId → Prop) : NodeKind → NodeKind → Prop
  | expression {items items' : List NodeId} (h : Forall₂ R items items') :
      Alike R (.expression items) (.expression items')
  | symbol {symbol symbol' : Symbol} (h : Symbol.Alike R symbol symbol') :
      Alike R (.symbol symbol) (.symbol symbol')

/-- Two nodes are of the same kind, and have corresponding nodes directly above and below them. -/
structure Node.Alike (R : NodeId → NodeId → Prop) (node other : Node) : Prop where
  parent : Option.Rel R node.parent other.parent
  kind : NodeKind.Alike R node.kind other.kind

variable {R : NodeId → NodeId → Prop} {x y : NodeId}

namespace Symbol.Alike

variable {symbol other : Symbol} (h : Symbol.Alike R symbol other)

include h

/-- Symbols which are alike have corresponding slots. -/
theorem slots : Forall₂ R symbol.slots other.slots := by
  cases h with
  | fraction hnumerator hdenominator => exact .cons hnumerator (.cons hdenominator .nil)
  | superscript h => exact .cons h .nil
  | radical h => exact .cons h .nil
  | _ => exact .nil

/-- Symbols which are alike are counted as the same character. -/
theorem precis_eq : symbol.precis = other.precis := by
  cases h <;> rfl

/-- Of two symbols which are alike both are starts, or neither is. -/
theorem eq_start_iff : symbol = .start ↔ other = .start := by
  cases h <;> simp

/-- Of two symbols which are alike both are composite, or neither is. -/
theorem isComposite_eq : symbol.isComposite = other.isComposite := by
  cases h <;> rfl

/-- A move out of corresponding slots of a fraction leads to corresponding slots. -/
theorem opposite? (hunique : Relator.BiUnique R) (direction : Direction) (hxy : R x y) :
    Option.Rel R (symbol.opposite? direction x) (other.opposite? direction y) := by
  have hiff : ∀ {slot slot' : NodeId}, R slot slot' → (x = slot ↔ y = slot') :=
    fun hslot => Relator.rel_eq hunique hxy hslot
  cases h with
  | fraction hnumerator hdenominator =>
    cases direction with
    | up =>
      show Option.Rel R (if _ then _ else _) (if _ then _ else _)
      simp only [hiff hdenominator]
      split
      · exact .some hnumerator
      · exact .none
    | down =>
      show Option.Rel R (if _ then _ else _) (if _ then _ else _)
      simp only [hiff hnumerator]
      split
      · exact .some hdenominator
      · exact .none
    | left => exact .none
    | right => exact .none
  | _ => exact .none

end Symbol.Alike

/-- Nodes which are alike have corresponding nodes directly below them. -/
theorem Node.Alike.below {node other : Node} (h : Node.Alike R node other) :
    Forall₂ R node.below other.below := by
  obtain ⟨parent, kind⟩ := node
  obtain ⟨parent', kind'⟩ := other
  cases h.kind with
  | expression hitems => exact hitems
  | symbol hsymbol => exact hsymbol.slots

/-- The symbols which a stroke makes under corresponding names are alike. -/
theorem Stroke.symbol_alike (h : ∀ k, R (x + k) (y + k)) (stroke : Stroke) :
    Symbol.Alike R (stroke.symbol x) (stroke.symbol y) := by
  cases stroke with
  | atom c => exact .atom c
  | bracket side => exact .bracket side
  | bar => exact .bar
  | fraction => exact .fraction (h 1) (h 3)
  | superscript => exact .superscript (h 1)
  | radical => exact .radical (h 1)

namespace Tree

/-! ## Pairings -/

/-- A correspondence between the names of two trees, under which nodes with corresponding names are
alike. It covers the roots, and the names which have not been given yet in their order. -/
structure Pairing (R : NodeId → NodeId → Prop) (a b : Tree) : Prop where
  unique : Relator.BiUnique R
  root : R Tree.root Tree.root
  fresh : ∀ k, R (a.nextId + k) (b.nextId + k)
  node {x y : NodeId} : R x y → Option.Rel (Node.Alike R) (a.node? x) (b.node? y)

/-- Two well-formed trees which differ only in names. -/
structure Twins (R : NodeId → NodeId → Prop) (a b : Tree) : Prop extends Pairing R a b where
  left : a.WellFormed
  right : b.WellFormed

variable {a b : Tree}

namespace Pairing

variable (h : Pairing R a b) (hxy : R x y)

include h hxy

/-- Nodes with corresponding names are alike. -/
theorem agree_node : Agree (Node.Alike R) (a.node x) (b.node y) := by
  have hnode := h.node hxy
  unfold Tree.node
  generalize a.node? x = node, b.node? y = other at hnode ⊢
  cases hnode with
  | some hnode => exact .ok hnode
  | none => exact .error _

/-- Symbols with corresponding names are alike. -/
theorem agree_symbol : Agree (Symbol.Alike R) (a.symbol x) (b.symbol y) := by
  unfold Tree.symbol
  refine (h.agree_node hxy).bind fun ⟨_, kind⟩ ⟨_, kind'⟩ hnode => ?_
  cases hnode.kind with
  | expression _ => exact .error _
  | symbol hsymbol => exact .ok hsymbol

/-- Expressions with corresponding names list corresponding symbols. -/
theorem agree_items : Agree (Forall₂ R) (a.items x) (b.items y) := by
  unfold Tree.items
  refine (h.agree_node hxy).bind fun ⟨_, kind⟩ ⟨_, kind'⟩ hnode => ?_
  cases hnode.kind with
  | expression hitems => exact .ok hitems
  | symbol _ => exact .error _

/-- Nodes with corresponding names have corresponding parents, or none. -/
theorem agree_parent : Agree (Option.Rel R) (a.parent x) (b.parent y) := by
  unfold Tree.parent
  exact (h.agree_node hxy).bind fun _ _ hnode => .ok hnode.parent

/-- Above nodes with corresponding names there are nodes with corresponding names, or none. -/
theorem rel_parent? : Option.Rel R (a.parent? x) (b.parent? y) := by
  have hnode := h.node hxy
  unfold Tree.parent?
  generalize a.node? x = node, b.node? y = other at hnode ⊢
  cases hnode with
  | some hnode => exact hnode.parent
  | none => exact .none

/-- Expressions with corresponding names begin with corresponding symbols. -/
theorem agree_first : Agree R (a.first x) (b.first y) := by
  unfold Tree.first
  refine (h.agree_items hxy).bind fun items items' hitems => ?_
  cases hitems with
  | nil => exact .error _
  | cons hitem _ => exact .ok hitem

/-- Expressions with corresponding names end with corresponding symbols. -/
theorem agree_last : Agree R (a.last x) (b.last y) := by
  unfold Tree.last
  refine (h.agree_items hxy).bind fun items items' hitems => ?_
  have hlast := rel_getLast? hitems
  generalize items.getLast? = last, items'.getLast? = last' at hlast ⊢
  cases hlast with
  | some hlast => exact .ok hlast
  | none => exact .error _

/-- Symbols with corresponding names stand at the same place of corresponding expressions. -/
theorem agree_position :
    Agree (fun place place' => R place.1 place'.1 ∧ place.2 = place'.2) (a.position x)
      (b.position y) := by
  unfold Tree.position
  refine (h.agree_node hxy).bind fun ⟨parent, _⟩ ⟨parent', _⟩ hnode => ?_
  cases hnode.parent with
  | none => exact .error _
  | @some expression expression' hparent =>
    have hitems := h.agree_items hparent
    dsimp only
    generalize a.items expression = items, b.items expression' = items' at hitems ⊢
    cases hitems with
    | error e => exact .error _
    | @ok items items' hitems =>
      dsimp only
      rw [idxOf?_eq_of_forall₂ h.unique hxy hitems]
      cases items'.idxOf? y with
      | none => exact .error _
      | some index => exact .ok ⟨hparent, rfl⟩

/-- Corresponding symbols have corresponding neighbours to the left, or none. -/
theorem agree_leftNeighbour :
    Agree (Option.Rel R) (a.leftNeighbour x) (b.leftNeighbour y) := by
  unfold Tree.leftNeighbour
  refine (h.agree_position hxy).bind fun ⟨expression, index⟩ ⟨expression', index'⟩ hplace => ?_
  obtain ⟨hexpression, rfl⟩ := hplace
  refine (h.agree_items hexpression).bind fun items items' hitems => .ok ?_
  split
  · exact .none
  · exact rel_getElem? hitems _

/-- Corresponding symbols have corresponding neighbours to the right, or none. -/
theorem agree_rightNeighbour :
    Agree (Option.Rel R) (a.rightNeighbour x) (b.rightNeighbour y) := by
  unfold Tree.rightNeighbour
  refine (h.agree_position hxy).bind fun ⟨expression, index⟩ ⟨expression', index'⟩ hplace => ?_
  obtain ⟨hexpression, rfl⟩ := hplace
  exact (h.agree_items hexpression).bind fun items items' hitems => .ok (rel_getElem? hitems _)

/-- Expressions with corresponding names have the same precis. -/
theorem agree_precis : Agree Eq (a.precis x) (b.precis y) := by
  unfold Tree.precis
  refine (h.agree_items hxy).bind fun items items' hitems => ?_
  refine (Agree.mapM hitems fun item item' hitem => ?_).mono
    fun _ _ hchars => List.forall₂_eq_eq_eq ▸ hchars
  exact (h.agree_symbol hitem).bind fun _ _ hsymbol => .ok hsymbol.precis_eq

/-- Corresponding nodes can be moved, or cannot for the same reason. -/
theorem agree_checkMovable : Agree Eq (a.checkMovable x) (b.checkMovable y) := by
  unfold Tree.checkMovable
  refine (h.agree_symbol hxy).bind fun symbol symbol' hsymbol => ?_
  simp only [hsymbol.eq_start_iff]
  exact .refl _

/-- The slots of corresponding symbols begin with corresponding starts. -/
theorem agree_slotStart (index : Nat) : Agree R (a.slotStart x index) (b.slotStart y index) := by
  unfold Tree.slotStart
  refine (h.agree_symbol hxy).bind fun symbol symbol' hsymbol => ?_
  have hslot := rel_getElem? hsymbol.slots index
  generalize symbol.slots[index]? = slot, symbol'.slots[index]? = slot' at hslot ⊢
  cases hslot with
  | some hslot => exact h.agree_first hslot
  | none => exact .error _

end Pairing

namespace Twins

variable (h : Twins R a b)

include h

/-- What passes from the parents of corresponding nodes to the nodes holds of all corresponding
nodes. -/
theorem upwards (P : NodeId → NodeId → Prop)
    (horphan : ∀ {x y}, R x y → a.parent? x = none → b.parent? y = none → P x y)
    (hchild : ∀ {x y parent parent'}, R x y → a.parent? x = some parent →
      b.parent? y = some parent' → P parent parent' → P x y) (hxy : R x y) : P x y := by
  have hnone : ∀ {x y}, R x y → a.parent? x = none → P x y := by
    intro x y hxy hx
    have hparent := h.rel_parent? hxy
    rw [hx] at hparent
    generalize hy : b.parent? y = parent' at hparent
    cases hparent
    exact horphan hxy hx hy
  cases hx : a.node? x with
  | none => exact hnone hxy (by rw [parent?, hx]; rfl)
  | some node =>
    have hground := h.left.grounded (isLive_iff.mpr ⟨node, hx⟩)
    clear hx
    induction hground generalizing y with
    | orphan live top => exact hnone hxy ((parent?_of_node? live).trans top)
    | child live step _ ih =>
      have hup := (parent?_of_node? live).trans step
      have hparent := h.rel_parent? hxy
      rw [hup] at hparent
      generalize hy : b.parent? y = parent' at hparent
      cases hparent with
      | some hparent => exact hchild hxy hup hy (ih hparent)

/-- What is inside a node corresponds to what is inside the corresponding node. -/
theorem inside_iff {outer outer' : NodeId} (hxy : R x y) (houter : R outer outer') :
    a.Inside x outer ↔ b.Inside y outer' := by
  have heq : ∀ {x y}, R x y → (x = outer ↔ y = outer') :=
    fun hxy => Relator.rel_eq h.unique hxy houter
  refine h.upwards (fun x y => a.Inside x outer ↔ b.Inside y outer') (fun hxy hx hy => ?_)
    (fun hxy hx hy hup => ?_) hxy
  · rw [Tree.inside_iff, Tree.inside_iff, heq hxy, hx, hy]
    simp
  · rw [Tree.inside_iff, Tree.inside_iff, heq hxy, hx, hy]
    simp [hup]

/-- A node is found below another one just if the corresponding nodes are so. -/
theorem contains_eq {outer outer' : NodeId} (hxy : R x y) (houter : R outer outer') :
    a.contains outer x = b.contains outer' y := by
  rw [Bool.eq_iff_iff, h.left.contains_iff, h.right.contains_iff]
  exact h.inside_iff hxy houter

end Twins

end Tree

end FormulaEditor
