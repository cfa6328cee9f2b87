import FormulaEditor.Proofs.Tree.Agreement
import FormulaEditor.Proofs.Tree.Invariance

/-!
# Edits of trees which differ only in names

Every edit which is applied to corresponding nodes of two trees which differ only in names leaves
such trees. The correspondence stays what it is: since it covers the names which have not been given
yet, it need not grow when new nodes get them.
-/

set_option autoImplicit false

namespace FormulaEditor

open Edit
open List (Forall₂)

variable {R : NodeId → NodeId → Prop} {x y : NodeId}

/-! ## Nodes and lists -/

/-- Nodes which are alike remain so under corresponding parents. -/
theorem Node.Alike.withParent {node other : Node} (h : Node.Alike R node other)
    {parent parent' : Option NodeId} (hparent : Option.Rel R parent parent') :
    Node.Alike R (node.withParent parent) (other.withParent parent') :=
  ⟨hparent, h.kind⟩

/-- Nodes which are alike remain so with corresponding lists. -/
theorem Node.Alike.mapItems {node other : Node} (h : Node.Alike R node other)
    {change change' : List NodeId → List NodeId}
    (hchange : ∀ items items', Forall₂ R items items' → Forall₂ R (change items) (change' items')) :
    Node.Alike R (node.mapItems change) (other.mapItems change') := by
  obtain ⟨parent, kind⟩ := node
  obtain ⟨parent', kind'⟩ := other
  obtain ⟨hparent, hkind⟩ := h
  cases hkind with
  | expression hitems => exact ⟨hparent, .expression (hchange _ _ hitems)⟩
  | symbol hsymbol => exact ⟨hparent, .symbol hsymbol⟩

namespace Tree

variable {a b : Tree}

/-- Corresponding symbols are put into corresponding lists behind corresponding anchors. -/
theorem forall₂_spliceAfter (hunique : Relator.BiUnique R) {anchor anchor' : NodeId}
    (hanchor : R anchor anchor') (hxy : R x y) {items items' : List NodeId}
    (h : Forall₂ R items items') :
    Forall₂ R (spliceAfter anchor x items) (spliceAfter anchor' y items') := by
  induction h with
  | nil => exact .nil
  | @cons item item' _ _ hitem hitems ih =>
    have hiff : item = anchor ↔ item' = anchor' := Relator.rel_eq hunique hitem hanchor
    rw [spliceAfter, spliceAfter]
    simp only [hiff]
    split
    · exact .cons hitem (.cons hxy hitems)
    · exact .cons hitem ih

/-! ## Changes of trees -/

namespace Pairing

variable (h : Pairing R a b)

include h

/-- A pairing only depends on which nodes there are and on the next names. -/
theorem congr {a' b' : Tree} (ha : ∀ id, a'.node? id = a.node? id) (hna : a'.nextId = a.nextId)
    (hb : ∀ id, b'.node? id = b.node? id) (hnb : b'.nextId = b.nextId) : Pairing R a' b' where
  unique := h.unique
  root := h.root
  fresh k := hna ▸ hnb ▸ h.fresh k
  node hxy := by
    rw [ha, hb]
    exact h.node hxy

/-- Marks have no influence on whether trees differ only in names. -/
theorem mark (id id' : NodeId) : Pairing R (a.mark id) (b.mark id') :=
  h.congr (node?_mark a id) (nextId_mark a id) (node?_mark b id') (nextId_mark b id')

/-- Corresponding nodes can be changed alike. -/
theorem update (hxy : R x y) {change change' : Node → Node}
    (hchange : ∀ node other, Node.Alike R node other → Node.Alike R (change node) (change' other)) :
    Pairing R (a.update x change) (b.update y change') where
  unique := h.unique
  root := h.root
  fresh k := by
    rw [nextId_update, nextId_update]
    exact h.fresh k
  node {z z'} hz := by
    have hiff : z = x ↔ z' = y := Relator.rel_eq h.unique hz hxy
    have hnode := h.node hz
    rw [node?_update, node?_update]
    simp only [hiff]
    split
    · generalize a.node? z = node, b.node? z' = node' at hnode ⊢
      cases hnode with
      | some hnode => exact .some (hchange _ _ hnode)
      | none => exact .none
    · exact hnode

/-- Corresponding symbols can be taken out of corresponding expressions. -/
theorem detach (hxy : R x y) {expression expression' : NodeId}
    (hexpression : R expression expression') :
    Pairing R (a.detach x expression) (b.detach y expression') := by
  refine ((h.update hexpression fun _ _ hnode => ?_).update hxy fun _ _ hnode => ?_).mark _ _
  · exact hnode.mapItems fun _ _ hitems => forall₂_erase h.unique hxy hitems
  · exact hnode.withParent .none

/-- Corresponding symbols can be put behind corresponding anchors. -/
theorem attach {anchor anchor' expression expression' : NodeId} (hanchor : R anchor anchor')
    (hxy : R x y) (hexpression : R expression expression') :
    Pairing R (a.attach anchor x expression) (b.attach anchor' y expression') := by
  refine ((h.update hexpression fun _ _ hnode => ?_).update hxy fun _ _ hnode => ?_).mark _ _
  · exact hnode.mapItems fun _ _ hitems => forall₂_spliceAfter h.unique hanchor hxy hitems
  · exact hnode.withParent (.some hexpression)

/-- Corresponding symbols can be released from where they stand. -/
theorem released (hxy : R x y) : Pairing R (a.released x) (b.released y) := by
  have hparent := h.rel_parent? hxy
  unfold Tree.released
  generalize a.parent? x = parent, b.parent? y = parent' at hparent ⊢
  cases hparent with
  | none => exact h
  | some hparent => exact h.detach hxy hparent

/-- Corresponding symbols can be moved behind corresponding anchors. -/
theorem moveAfter {anchor anchor' expression expression' : NodeId} (hanchor : R anchor anchor')
    (hxy : R x y) (hexpression : R expression expression') :
    Pairing R (a.moveAfter anchor x expression) (b.moveAfter anchor' y expression') :=
  (h.released hxy).attach hanchor hxy hexpression

/-- Corresponding nodes can be killed. -/
theorem killAll {dead dead' : List NodeId} (hdead : ∀ z z', R z z' → (z ∈ dead ↔ z' ∈ dead')) :
    Pairing R (a.killAll dead) (b.killAll dead') where
  unique := h.unique
  root := h.root
  fresh k := by
    rw [nextId_killAll, nextId_killAll]
    exact h.fresh k
  node {z z'} hz := by
    rw [node?_killAll, node?_killAll]
    simp only [hdead z z' hz]
    split
    · exact .none
    · exact h.node hz

/-- Nodes which are alike can be made, since the next names correspond. -/
theorem push {node other : Node} (hnode : Node.Alike R node other) :
    Pairing R (a.push node) (b.push other) where
  unique := h.unique
  root := h.root
  fresh k := by
    rw [nextId_push, nextId_push, Nat.add_assoc, Nat.add_assoc]
    exact h.fresh (1 + k)
  node {z z'} hz := by
    have hiff : z = a.nextId ↔ z' = b.nextId := Relator.rel_eq h.unique hz (h.fresh 0)
    rw [node?_push, node?_push]
    simp only [hiff]
    split
    · exact .some hnode
    · exact h.node hz

/-- Expressions with corresponding owners can be made. -/
theorem pushExpression {owner owner' : Option NodeId} (howner : Option.Rel R owner owner') :
    Pairing R (a.pushExpression owner) (b.pushExpression owner') :=
  (h.push ⟨howner, .expression (.cons (h.fresh 1) .nil)⟩).push ⟨.some (h.fresh 0), .symbol .start⟩

/-- Symbols of the same kind can be made. -/
theorem pushSymbol (stroke : Stroke) : Pairing R (a.pushSymbol stroke) (b.pushSymbol stroke) := by
  have hsymbol := Stroke.symbol_alike h.fresh stroke
  -- one more slot for each slot of the symbol
  have hslots : ∀ {slots slots' : List NodeId}, Forall₂ R slots slots' → ∀ {a' b' : Tree},
      Pairing R a' b' → Pairing R
        (slots.foldl (fun grown _ => grown.pushExpression (some a.nextId)) a')
        (slots'.foldl (fun grown _ => grown.pushExpression (some b.nextId)) b') := by
    intro slots slots' hrel
    induction hrel with
    | nil => exact fun h' => h'
    | cons _ _ ih => exact fun h' => ih (h'.pushExpression (.some (h.fresh 0)))
  exact hslots hsymbol.slots (h.push ⟨.none, .symbol hsymbol⟩)

end Pairing

/-! ## Edits -/

/-- Creating the same symbol in twins leaves twins, with corresponding new symbols. -/
theorem parallel_create (stroke : Stroke) :
    Parallel (Twins R) R (create stroke) (create stroke) :=
  fun _ _ h => .ok (h.fresh 0)
    ⟨h.pushSymbol stroke, h.left.pushSymbol stroke, h.right.pushSymbol stroke⟩

/-- Inserting corresponding symbols leaves twins, or fails alike. -/
theorem parallel_insertAfter {anchor anchor' : NodeId} (hanchor : R anchor anchor') (hxy : R x y) :
    Parallel (Twins R) Eq (insertAfter anchor x) (insertAfter anchor' y) := by
  intro a b h
  rw [h.left.run_insertAfter, h.right.run_insertAfter]
  have hdest := h.agree_destination hanchor hxy
  cases hleft : a.destination anchor x with
  | error e =>
    rw [hleft] at hdest
    generalize b.destination anchor' y = expression' at hdest ⊢
    cases hdest
    exact .error _ h
  | ok expression =>
    cases hright : b.destination anchor' y with
    | error e =>
      rw [hleft, hright] at hdest
      cases hdest
    | ok expression' =>
      rw [hleft, hright] at hdest
      cases hdest with
      | ok hexpression =>
        exact .ok rfl ⟨h.moveAfter hanchor hxy hexpression, h.left.moveAfter hleft,
          h.right.moveAfter hright⟩

/-- Deleting corresponding symbols leaves twins, or fails alike. -/
theorem parallel_delete (hxy : R x y) :
    Parallel (Twins R) Eq (Tree.delete x) (Tree.delete y) := by
  intro a b h
  rw [h.left.run_delete, h.right.run_delete]
  have hdel := h.agree_deletion hxy
  cases hleft : a.deletion x with
  | error e =>
    rw [hleft] at hdel
    generalize b.deletion y = deletion' at hdel ⊢
    cases hdel
    exact .error _ h
  | ok deletion =>
    cases hright : b.deletion y with
    | error e =>
      rw [hleft, hright] at hdel
      cases hdel
    | ok deletion' =>
      rw [hleft, hright] at hdel
      cases hdel with
      | ok hrel =>
        exact .ok rfl ⟨(h.detach hxy hrel.1).killAll hrel.2, h.left.delete hleft,
          h.right.delete hright⟩

/-- Adding the same symbol behind corresponding anchors leaves twins, with corresponding new
symbols. -/
theorem parallel_add {anchor anchor' : NodeId} (hanchor : R anchor anchor') (stroke : Stroke) :
    Parallel (Twins R) R (add anchor stroke) (add anchor' stroke) :=
  (parallel_create stroke).bind fun _ _ hid =>
    (parallel_insertAfter hanchor hid).bind fun _ _ _ => .pure hid

/-- The slots of corresponding symbols are entered alike. -/
theorem parallel_slotStart {id id' : NodeId} (hid : R id id') (index : Nat) :
    Parallel (Twins R) R (Edit.look (·.slotStart id index)) (Edit.look (·.slotStart id' index)) :=
  .look fun _ _ h => h.agree_slotStart hid index

mutual

/-- The same glyph is put in after corresponding symbols. -/
theorem parallel_placeGlyph : {anchor anchor' : NodeId} → (hanchor : R anchor anchor') →
    (glyph : Glyph) → Parallel (Twins R) R (placeGlyph anchor glyph) (placeGlyph anchor' glyph)
  | _, _, hanchor, .atom c => parallel_add hanchor (.atom c)
  | _, _, hanchor, .bracket side => parallel_add hanchor (.bracket side)
  | _, _, hanchor, .bar => parallel_add hanchor .bar
  | _, _, hanchor, .fraction numerator denominator =>
    (parallel_add hanchor .fraction).bind fun _ _ hid =>
      (parallel_slotStart hid 0).bind fun _ _ htop =>
        (parallel_placeLine htop numerator).bind fun _ _ _ =>
          (parallel_slotStart hid 1).bind fun _ _ hbottom =>
            (parallel_placeLine hbottom denominator).bind fun _ _ _ => .pure hid
  | _, _, hanchor, .superscript exponent =>
    (parallel_add hanchor .superscript).bind fun _ _ hid =>
      (parallel_slotStart hid 0).bind fun _ _ hslot =>
        (parallel_placeLine hslot exponent).bind fun _ _ _ => .pure hid
  | _, _, hanchor, .radical radicand =>
    (parallel_add hanchor .radical).bind fun _ _ hid =>
      (parallel_slotStart hid 0).bind fun _ _ hslot =>
        (parallel_placeLine hslot radicand).bind fun _ _ _ => .pure hid

/-- The same line is put in after corresponding symbols. -/
theorem parallel_placeLine : {anchor anchor' : NodeId} → (hanchor : R anchor anchor') →
    (line : List Glyph) → Parallel (Twins R) R (placeLine anchor line) (placeLine anchor' line)
  | _, _, hanchor, [] => .pure hanchor
  | _, _, hanchor, glyph :: glyphs =>
    (parallel_placeGlyph hanchor glyph).bind fun _ _ hlast => parallel_placeLine hlast glyphs

end

/-- Typesetting the same formula behind corresponding anchors leaves twins, or fails alike. -/
theorem parallel_typeset {anchor anchor' : NodeId} (hanchor : R anchor anchor')
    (formula : Formula) :
    Parallel (Twins R) R (typeset anchor formula) (typeset anchor' formula) := by
  rw [typeset_eq, typeset_eq]
  exact (Parallel.ofExcept (.refl _)).bind fun _ _ _ =>
    (Parallel.look fun _ _ h => h.agree_position hanchor).bind fun _ _ _ =>
      parallel_placeLine hanchor _

/-- Filling the numerators of corresponding fractions leaves twins, or fails alike. -/
theorem parallel_fillNumerator (hxy : R x y) :
    Parallel (Twins R) Eq (fillNumerator x) (fillNumerator y) := by
  refine (Parallel.look fun _ _ h => h.agree_numeratorRun hxy).bind
    fun ⟨run, start⟩ ⟨run', start'⟩ hrun => ?_
  obtain ⟨hrun, hstart⟩ := hrun
  refine (Parallel.forM (List.forall₂_reverse_iff.mpr hrun) fun _ _ hitem =>
    parallel_insertAfter hstart hitem).bind fun _ _ _ => .pure ?_
  cases hrun <;> rfl

end Tree

end FormulaEditor
