import FormulaEditor.Editor
import FormulaEditor.Proofs.Tree.Display
import FormulaEditor.Proofs.Tree.Pairing

/-!
# Questions about trees which differ only in names

Whatever an editor asks about its tree has corresponding answers in two trees which differ only in
names: where the cursor moves, where typing goes on, what goes into a numerator, where a symbol can
be put and what is deleted with it. What corresponding expressions show is even the same
(`Tree.Twins.line_eq`), and so is the formula which they denote.
-/

set_option autoImplicit false

namespace FormulaEditor

open List (Forall₂)

variable {R : NodeId → NodeId → Prop} {x y : NodeId}

/-- Symbols which are alike show the same if their slots do. -/
theorem Symbol.Alike.glyph?_eq {symbol other : Symbol} (h : Symbol.Alike R symbol other)
    {inner inner' : NodeId → Line}
    (hinner : ∀ slot slot', R slot slot' → inner slot = inner' slot') :
    symbol.glyph? inner = other.glyph? inner' := by
  cases h with
  | fraction hnumerator hdenominator =>
    rw [Symbol.glyph?, Symbol.glyph?, hinner _ _ hnumerator, hinner _ _ hdenominator]
  | superscript hslot => rw [Symbol.glyph?, Symbol.glyph?, hinner _ _ hslot]
  | radical hslot => rw [Symbol.glyph?, Symbol.glyph?, hinner _ _ hslot]
  | _ => rfl

namespace Tree

variable {a b : Tree}

/-! ## Upwards -/

/-- The search for a slot to leave finds corresponding slots on corresponding ways up. -/
theorem Pairing.agree_crossing (h : Pairing R a b) (direction : Direction) :
    {ways ways' : List NodeId} → Forall₂ R ways ways' →
      Agree (Option.Rel R) (a.crossing direction ways) (b.crossing direction ways')
  | _, _, .nil => .ok .none
  | _, _, .cons _ .nil => .ok .none
  | _, _, .cons hslot (.cons howner habove) => by
    rw [crossing, crossing]
    refine (h.agree_symbol howner).bind fun symbol symbol' hsymbol => ?_
    have hopposite := hsymbol.opposite? h.unique direction hslot
    revert hopposite
    generalize symbol.opposite? direction _ = found, symbol'.opposite? direction _ = found'
    intro hopposite
    cases hopposite with
    | some hfound => exact .ok (.some hfound)
    | none => exact h.agree_crossing direction habove

namespace Twins

variable (h : Twins R a b)

include h

/-- The ways up from corresponding nodes correspond. -/
theorem rel_ancestors (hxy : R x y) : Forall₂ R (a.ancestors x) (b.ancestors y) := by
  refine h.upwards (fun x y => Forall₂ R (a.ancestors x) (b.ancestors y)) (fun hxy hx hy => ?_)
    (fun hxy hx hy hup => ?_) hxy
  · rw [h.left.ancestors_eq, h.right.ancestors_eq, hx, hy]
    exact .cons hxy .nil
  · rw [h.left.ancestors_eq, h.right.ancestors_eq, hx, hy]
    exact .cons hxy hup

/-! ## Moves of the cursor -/

/-- Moves to the right from corresponding symbols lead to corresponding symbols. -/
theorem agree_moveRight (hxy : R x y) : Agree R (a.moveRight x) (b.moveRight y) := by
  unfold moveRight
  refine (h.agree_rightNeighbour hxy).bind fun next next' hnext => ?_
  cases hnext with
  | some hnext =>
    unfold landingRightward
    refine (h.agree_symbol hnext).bind fun symbol symbol' hsymbol => ?_
    have hslots := hsymbol.slots
    generalize symbol.slots = slots, symbol'.slots = slots' at hslots ⊢
    cases hslots with
    | nil => exact .ok hnext
    | cons hslot _ => exact h.agree_first hslot
  | none =>
    refine (h.agree_position hxy).bind fun ⟨expression, _⟩ ⟨expression', _⟩ hplace => ?_
    refine (h.agree_parent hplace.1).bind fun owner owner' howner => .ok ?_
    cases howner with
    | some howner => exact howner
    | none => exact hxy

/-- Cursors which come from the right to corresponding symbols land on corresponding symbols. -/
theorem agree_landingLeftward (hxy : R x y) :
    Agree R (a.landingLeftward x) (b.landingLeftward y) := by
  unfold landingLeftward
  refine (h.agree_symbol hxy).bind fun symbol symbol' hsymbol => ?_
  have hslots := hsymbol.slots
  generalize symbol.slots = slots, symbol'.slots = slots' at hslots ⊢
  cases hslots with
  | nil => exact .ok hxy
  | cons hslot _ => exact h.agree_last hslot

/-- Moves to the left from corresponding symbols lead to corresponding symbols. -/
theorem agree_moveLeft (hxy : R x y) : Agree R (a.moveLeft x) (b.moveLeft y) := by
  unfold moveLeft
  refine (h.agree_symbol hxy).bind fun symbol symbol' hsymbol => ?_
  rw [hsymbol.isComposite_eq]
  cases symbol'.isComposite with
  | true => exact h.agree_landingLeftward hxy
  | false =>
    refine (h.agree_leftNeighbour hxy).bind fun previous previous' hprevious => ?_
    cases hprevious with
    | some hprevious => exact .ok hprevious
    | none =>
      refine (h.agree_position hxy).bind fun ⟨expression, _⟩ ⟨expression', _⟩ hplace => ?_
      refine (h.agree_parent hplace.1).bind fun owner owner' howner => ?_
      cases howner with
      | none => exact .ok hxy
      | @some owner owner' howner =>
        have hleft := h.agree_leftNeighbour howner
        dsimp only
        generalize a.leftNeighbour owner = left, b.leftNeighbour owner' = left' at hleft ⊢
        cases hleft with
        | ok hprevious =>
          cases hprevious with
          | some hprevious => exact .ok hprevious
          | none => exact .ok hxy
        | error e => cases e <;> first | exact .ok hxy | exact .error _

/-- Moves across fractions from corresponding symbols lead to corresponding symbols. -/
theorem agree_moveAcross (hxy : R x y) (direction : Direction) :
    Agree R (a.moveAcross x direction) (b.moveAcross y direction) := by
  unfold moveAcross
  refine (h.agree_parent hxy).bind fun parent parent' hparent => ?_
  cases hparent with
  | none => exact .error _
  | some _ =>
    refine (h.agree_crossing direction
      (List.forall₂_drop 1 (h.rel_ancestors hxy))).bind fun slot slot' hslot => ?_
    cases hslot with
    | some hslot => exact h.agree_first hslot
    | none => exact .ok hxy

/-- A cursor moves to corresponding symbols from corresponding ones. -/
theorem agree_navigate (hxy : R x y) (direction : Direction) :
    Agree R (a.navigate x direction) (b.navigate y direction) := by
  cases direction with
  | left => exact h.agree_moveLeft hxy
  | right => exact h.agree_moveRight hxy
  | up => exact h.agree_moveAcross hxy .up
  | down => exact h.agree_moveAcross hxy .down

/-! ## Typing and deleting -/

/-- Typing goes on at corresponding symbols after corresponding ones have been put in. -/
theorem agree_continuation (hxy : R x y) {symbol symbol' : Symbol}
    (hsymbol : Symbol.Alike R symbol symbol') (collected : Bool) :
    Agree R (Editor.continuation x symbol collected a)
      (Editor.continuation y symbol' collected b) := by
  cases hsymbol with
  | fraction hnumerator hdenominator =>
    cases collected with
    | true => exact h.agree_first hdenominator
    | false => exact h.agree_first hnumerator
  | superscript hslot => exact h.agree_first hslot
  | radical hslot => exact h.agree_first hslot
  | _ => exact .ok hxy

/-- Corresponding symbols go into a numerator. -/
theorem agree_numeratorRun (hxy : R x y) :
    Agree (fun run run' => Forall₂ R run.1 run'.1 ∧ R run.2 run'.2) (a.numeratorRun x)
      (b.numeratorRun y) := by
  unfold numeratorRun
  refine (h.agree_symbol hxy).bind fun symbol symbol' hsymbol => ?_
  cases hsymbol with
  | fraction hnumerator _ =>
    refine (h.agree_position hxy).bind fun ⟨expression, index⟩ ⟨expression', index'⟩ hplace => ?_
    obtain ⟨hexpression, rfl⟩ := hplace
    refine (h.agree_items hexpression).bind fun items items' hitems => ?_
    have hpreceding := List.forall₂_drop 1 (List.forall₂_take index hitems)
    refine (Agree.mapM hpreceding fun item item' hitem =>
      (h.agree_symbol hitem).bind fun _ _ hsymbol => .ok hsymbol.precis_eq).bind
        fun precis precis' hprecis => ?_
    rw [List.forall₂_eq_eq_eq] at hprecis
    subst hprecis
    refine (h.agree_first hnumerator).bind fun start start' hstart => .ok ⟨?_, hstart⟩
    rw [hpreceding.length_eq]
    exact List.forall₂_drop _ hpreceding
  | _ => exact .error _

/-- A symbol can be put behind another one into corresponding expressions. -/
theorem agree_destination {anchor anchor' : NodeId} (hanchor : R anchor anchor') (hxy : R x y) :
    Agree R (a.destination anchor x) (b.destination anchor' y) := by
  unfold destination
  refine (h.agree_checkMovable hxy).bind fun _ _ _ => ?_
  refine (h.agree_symbol hanchor).bind fun _ _ _ => ?_
  rw [h.contains_eq hanchor hxy]
  cases b.contains y anchor' with
  | true => exact .error _
  | false => exact (h.agree_position hanchor).bind fun _ _ hplace => .ok hplace.1

/-- Everything below a node has a corresponding node below the corresponding one. -/
theorem agree_descendants (hxy : R x y) :
    Agree (fun dead dead' => ∀ z z', R z z' → (z ∈ dead ↔ z' ∈ dead')) (a.descendants x)
      (b.descendants y) := by
  have hlive : ∀ z z', R z z' → (a.isLive z = true ↔ b.isLive z' = true) := by
    intro z z' hz
    have hnode := h.node hz
    unfold isLive
    generalize a.node? z = node, b.node? z' = node' at hnode ⊢
    cases hnode <;> simp
  have hnode := h.node hxy
  cases hx : a.node? x with
  | none =>
    rw [hx] at hnode
    generalize hy : b.node? y = other at hnode
    cases hnode
    rw [descendants, descendants, descendantsWithin, descendantsWithin, Tree.node, Tree.node, hx, hy]
    exact .error _
  | some node =>
    rw [hx] at hnode
    generalize hy : b.node? y = other at hnode
    cases hnode with
    | some _ =>
      obtain ⟨dead, hdead, hmem⟩ := h.left.descendants_eq hx
      obtain ⟨dead', hdead', hmem'⟩ := h.right.descendants_eq hy
      rw [hdead, hdead']
      refine .ok fun z z' hz => ?_
      rw [hmem, hmem', hlive z z' hz, h.inside_iff hz hxy]

/-- Corresponding nodes are deleted with a symbol. -/
theorem agree_deletion (hxy : R x y) :
    Agree (fun deletion deletion' => R deletion.1 deletion'.1 ∧
      ∀ z z', R z z' → (z ∈ deletion.2 ↔ z' ∈ deletion'.2)) (a.deletion x) (b.deletion y) := by
  unfold deletion
  refine (h.agree_checkMovable hxy).bind fun _ _ _ => ?_
  refine (h.agree_position hxy).bind fun ⟨_, _⟩ ⟨_, _⟩ hplace => ?_
  exact (h.agree_descendants hxy).bind fun _ _ hdead => .ok ⟨hplace.1, hdead⟩

end Twins

/-! ## What is shown -/

/-- With the same fuel corresponding expressions show the same. -/
theorem Pairing.lineWithin_eq (h : Pairing R a b) (fuel : Nat) (hxy : R x y) :
    a.lineWithin fuel x = b.lineWithin fuel y := by
  induction fuel generalizing x y with
  | zero => rfl
  | succ fuel ih =>
    rw [lineWithin_succ, lineWithin_succ]
    have hitems := h.agree_items hxy
    generalize a.items x = items, b.items y = items' at hitems ⊢
    cases hitems with
    | error e => rfl
    | ok hitems =>
      refine filterMap_eq_of_forall₂ hitems fun item item' hitem => ?_
      have hsymbol := h.agree_symbol hitem
      generalize a.symbol item = symbol, b.symbol item' = symbol' at hsymbol ⊢
      cases hsymbol with
      | error e => rfl
      | ok hsymbol => exact hsymbol.glyph?_eq fun _ _ => ih

namespace Twins

variable (h : Twins R a b)

include h

/-- Corresponding expressions show the same line. -/
theorem line_eq (hxy : R x y) : a.line x = b.line y := by
  have hitems := h.agree_items hxy
  cases hx : a.items x with
  | error e =>
    rw [line, line, lineWithin_succ, lineWithin_succ, hx]
    rw [hx] at hitems
    generalize b.items y = items' at hitems ⊢
    cases hitems
    rfl
  | ok items =>
    cases hy : b.items y with
    | error e =>
      rw [hx, hy] at hitems
      cases hitems
    | ok items' =>
      obtain ⟨owner, hnode⟩ := items_eq_ok_iff.mp hx
      obtain ⟨owner', hnode'⟩ := items_eq_ok_iff.mp hy
      -- fuel which suffices in both trees
      have hleft : a.line x = a.lineWithin (a.cells.size + b.cells.size + 1) x :=
        h.left.lineWithin_eq hnode (by omega) (by omega)
      have hright : b.line y = b.lineWithin (a.cells.size + b.cells.size + 1) y :=
        h.right.lineWithin_eq hnode' (by omega) (by omega)
      rw [hleft, hright]
      exact h.lineWithin_eq _ hxy

/-- Corresponding expressions denote the same formula, or fail to denote one for the same reason. -/
theorem formula_eq (hxy : R x y) : a.formula x = b.formula y := by
  unfold Tree.formula
  rw [h.line_eq hxy]
  exact ((h.agree_items hxy).bind fun _ _ _ => Agree.refl _).eq

end Twins

end Tree

end FormulaEditor
