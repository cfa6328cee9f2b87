import FormulaEditor.Proofs.Tree.Collecting
import FormulaEditor.Proofs.Tree.Folding
import FormulaEditor.Proofs.Tree.Positions

/-!
# Sessions by positions

The steps of a session can be made, and its trees be asked, with every access to a position checked.
An access which fails ends the session, while an error which is answered does not
(`Editor.guardedSession`). No session ends like this: with the checks it leads to the same editor as
without them, each step has the same outcome, and each question the same answer
(`Editor.Reachable.within_bounds`).
-/

set_option autoImplicit false

namespace FormulaEditor

open Guarded (Follows)

namespace Tree

variable {tree : Tree}

/-! ## Questions -/

/-- The symbol before another one in its expression, at the position before. -/
def guardedLeftNeighbour (tree : Tree) (id : NodeId) : Checked (Option NodeId) := do
  let (expression, index) ← Checked.answer (tree.position id)
  let items ← Checked.answer (tree.items expression)
  if index = 0 then return none else return some (← Checked.item items (← Checked.before index))

/-- The symbol to the left of the cursor. -/
def guardedMoveLeft (tree : Tree) (cursor : NodeId) : Checked NodeId := do
  if (← Checked.answer (tree.symbol cursor)).isComposite then
    Checked.answer (tree.landingLeftward cursor)
  else match ← tree.guardedLeftNeighbour cursor with
    | some previous => return previous
    | none =>
      let (expression, _) ← Checked.answer (tree.position cursor)
      match ← Checked.answer (tree.parent expression) with
      | none => return cursor
      | some owner => match tree.guardedLeftNeighbour owner with
        | .ok previous => return previous.getD cursor
        | .error (.refused .noParent) => return cursor
        | .error halt => .error halt

/-- The symbol to which the cursor moves. -/
def guardedNavigate (tree : Tree) (cursor : NodeId) : Direction → Checked NodeId
  | .left => tree.guardedMoveLeft cursor
  | direction => Checked.answer (tree.navigate cursor direction)

/-- What is asked about a tree has the same answer with checks as without them. -/
structure WithinBounds (tree : Tree) : Prop where
  reading (id : NodeId) : tree.reading id = Checked.answer (tree.formula id)
  leftNeighbour (id : NodeId) :
    tree.guardedLeftNeighbour id = Checked.answer (tree.leftNeighbour id)
  navigate (cursor : NodeId) (direction : Direction) :
    tree.guardedNavigate cursor direction = Checked.answer (tree.navigate cursor direction)

/-- What is not first in a list has a position before its own. -/
theorem guardedLeftNeighbour_eq (tree : Tree) (id : NodeId) :
    tree.guardedLeftNeighbour id = Checked.answer (tree.leftNeighbour id) := by
  rw [guardedLeftNeighbour, leftNeighbour, Checked.answer_bind]
  cases hposition : tree.position id with
  | error e => rfl
  | ok place =>
    obtain ⟨expression, index⟩ := place
    obtain ⟨_, owner, items, -, hnode, hindex⟩ := position_eq_ok_iff.mp hposition
    obtain ⟨hlt, -, -⟩ := List.idxOf?_eq_some_iff.mp hindex
    show (Checked.answer (tree.items expression) >>= _) =
      Checked.answer (tree.items expression >>= _)
    rw [items_of_node? hnode]
    cases index with
    | zero => rfl
    | succ previous =>
      have hprevious : items[previous]? = some items[previous] :=
        List.getElem?_eq_getElem (Nat.lt_of_succ_lt hlt)
      show (Checked.item items previous >>= fun item => pure (some item)) =
        Except.ok items[previous]?
      rw [Checked.item_of_getElem? hprevious, hprevious]
      rfl

/-- A move to the left which looks up every position answers as the move without checks. -/
theorem guardedMoveLeft_eq (tree : Tree) (cursor : NodeId) :
    tree.guardedMoveLeft cursor = Checked.answer (tree.moveLeft cursor) := by
  rw [guardedMoveLeft, moveLeft, Checked.answer_bind]
  refine bind_congr fun symbol => ?_
  by_cases hcomposite : symbol.isComposite = true
  · rw [if_pos hcomposite, if_pos hcomposite]
  rw [if_neg hcomposite, if_neg hcomposite, guardedLeftNeighbour_eq, Checked.answer_bind]
  refine bind_congr fun left => ?_
  cases left with
  | some previous => rfl
  | none =>
    rw [Checked.answer_bind]
    refine bind_congr fun place => ?_
    show (Checked.answer (tree.parent place.1) >>= _) = Checked.answer (tree.parent place.1 >>= _)
    rw [Checked.answer_bind]
    refine bind_congr fun parent => ?_
    cases parent with
    | none => rfl
    | some owner =>
      dsimp only
      rw [guardedLeftNeighbour_eq]
      cases tree.leftNeighbour owner with
      | ok previous => rfl
      | error e => cases e <;> rfl

/-- A move in any direction which looks up every position answers as the move without checks. -/
theorem guardedNavigate_eq (tree : Tree) (cursor : NodeId) (direction : Direction) :
    tree.guardedNavigate cursor direction = Checked.answer (tree.navigate cursor direction) := by
  cases direction with
  | left => exact tree.guardedMoveLeft_eq cursor
  | _ => rfl

/-- What is asked about a well-formed tree never needs a position which does not exist. -/
theorem WellFormed.withinBounds (h : tree.WellFormed) : tree.WithinBounds where
  reading := h.reading_eq
  leftNeighbour := tree.guardedLeftNeighbour_eq
  navigate := tree.guardedNavigate_eq

/-! ## Calls of a tree -/

/-- The guarded edit which a call of an operation of a tree makes. -/
def Call.guarded : Call → Guarded Tree Unit
  | create stroke => discard (guardedCreate stroke)
  | insertAfter anchor id => guardedInsertAfter anchor id
  | delete id => guardedDelete id
  | clear => Guarded.plain Tree.clear
  | typeset anchor formula => discard (guardedTypeset anchor formula)
  | fillNumerator id => discard (guardedFillNumerator id)
  | takeMarked => Guarded.plain (discard Tree.takeMarked)

/-- In a well-formed tree the guarded form of every call follows the call. -/
theorem WellFormed.follows_call (h : tree.WellFormed) (call : Call) :
    Follows call.guarded call.edit tree := by
  cases call with
  | create stroke => exact (follows_guardedCreate stroke tree).map _
  | insertAfter anchor id => exact h.follows_guardedInsertAfter anchor id
  | delete id => exact h.follows_guardedDelete id
  | clear => exact .plain Tree.clear tree
  | typeset anchor formula => exact (h.follows_guardedTypeset anchor formula).map _
  | fillNumerator id => exact (h.follows_guardedFillNumerator id).map _
  | takeMarked => exact .plain (discard Tree.takeMarked) tree

end Tree

namespace Editor

variable {editor : Editor}

/-! ## Calls of an editor -/

/-- Changes the tree of an editor, and leaves the cursor where it is. -/
def guardedOnTree {α : Type} (guarded : Guarded Tree α) : Guarded Editor α :=
  fun ⟨tree, cursor, settings⟩ =>
    match guarded.run tree with
    | .ok answer tree => .ok answer ⟨tree, cursor, settings⟩
    | .error halt tree => .error halt ⟨tree, cursor, settings⟩

/-- Puts a stroke in at the cursor, and moves the cursor to where typing goes on. -/
def guardedInsert (stroke : Stroke) : Guarded Editor NodeId := do
  let cursor := (← get).cursor
  let fills := (← get).settings.fillsNumerator
  let _ ← Guarded.look fun editor => Checked.answer (editor.tree.position cursor)
  let id ← guardedOnTree (Tree.guardedAdd cursor stroke)
  let symbol ← Guarded.look fun editor => Checked.answer (editor.tree.symbol id)
  let collected ← if stroke = .fraction ∧ fills
    then guardedOnTree (Tree.guardedFillNumerator id) else pure false
  let next ← Guarded.look fun editor =>
    Checked.answer (continuation id symbol collected editor.tree)
  Guarded.plain (moveTo next)
  return id

/-- Moves the cursor, and answers where it is then. -/
def guardedNavigate (direction : Direction) : Guarded Editor NodeId := do
  let id ← Guarded.look fun editor => editor.tree.guardedNavigate editor.cursor direction
  Guarded.plain (moveTo id)
  return id

/-- Deletes the symbol before the cursor, and tells whether there was one. -/
def guardedBackspace : Guarded Editor Bool := do
  let cursor := (← get).cursor
  match ← Guarded.look (·.tree.guardedLeftNeighbour cursor) with
  | none => return false
  | some previous =>
    Guarded.plain (moveTo previous)
    guardedOnTree (Tree.guardedDelete cursor)
    return true

/-- Puts in the formula which a text denotes, and leaves the cursor after it. -/
def guardedInsertText (text : String) : Guarded Editor Unit := do
  let formula ← Guarded.check (Checked.answer (Formula.ofText text))
  let last ← guardedOnTree (Tree.guardedTypeset (← get).cursor formula)
  Guarded.plain (moveTo last)

/-- The guarded edit which a call of an operation of an editor makes. -/
def Call.guarded : Call → Guarded Editor Unit
  | insert stroke => discard (guardedInsert stroke)
  | insertChar c => discard do guardedInsert (← Guarded.check (Checked.answer (Stroke.ofChar c)))
  | insertName name =>
    discard do guardedInsert (← Guarded.check (Checked.answer (Stroke.ofName name)))
  | navigate direction => discard (guardedNavigate direction)
  | backspace => discard guardedBackspace
  | clear => Guarded.plain Editor.clear
  | setCursor id => Guarded.plain (Editor.setCursor id)
  | insertText text => guardedInsertText text

/-- The guarded edit which a step of a session makes. -/
def Step.guarded : Step → Guarded Editor Unit
  | own call => call.guarded
  | onTree call => guardedOnTree call.guarded

/-- A guarded edit of the tree of an editor changes only the tree. -/
theorem run_guardedOnTree {α : Type} (guarded : Guarded Tree α) (editor : Editor) :
    (guardedOnTree guarded).run editor = match guarded.run editor.tree with
      | .ok answer tree => .ok answer { editor with tree }
      | .error halt tree => .error halt { editor with tree } := by
  obtain ⟨tree, cursor, settings⟩ := editor
  unfold guardedOnTree EStateM.run
  rfl

/-- An edit of the tree which is followed is also followed in an editor with this tree. -/
theorem follows_onTree {α : Type} {guarded : Guarded Tree α} {edit : Edit Tree α}
    (h : Follows guarded edit editor.tree) :
    Follows (guardedOnTree guarded) (onTree edit) editor := by
  rw [Follows, Guarded.run_plain, run_guardedOnTree, run_onTree]
  cases hrun : edit.run editor.tree with
  | ok answer next => rw [h.run_of_ok hrun]
  | error error next => rw [h.run_of_error hrun]

/-- The tree in which a numerator is collected is well-formed, since a new symbol was put into a
well-formed tree. -/
theorem follows_guardedInsert (h : editor.tree.WellFormed) (stroke : Stroke) :
    Follows (guardedInsert stroke) (insert stroke) editor := by
  refine Follows.ask fun _ _ => ?_
  refine (follows_onTree (h.follows_guardedAdd _ stroke)).bind fun id grown hadd => ?_
  have hgrown := (Tree.Lasting.keeps_onTree
    (Tree.invariant_wellFormed.keeps_add editor.cursor stroke)).of_run h hadd
  refine Follows.ask fun symbol _ => ?_
  have hmove : ∀ collected state, Follows
      (Guarded.look (fun editor : Editor =>
        Checked.answer (continuation id symbol collected editor.tree)) >>= fun next =>
          Guarded.plain (moveTo next) >>= fun _ => pure id)
      (Edit.look (fun editor => continuation id symbol collected editor.tree) >>= fun next =>
        moveTo next >>= fun _ => pure id) state :=
    fun collected state => Follows.ask fun next _ =>
      (Follows.plain (moveTo next) state).bind fun _ _ _ => .pure id _
  by_cases hfills : stroke = .fraction ∧ editor.settings.fillsNumerator
  · dsimp only
    rw [if_pos hfills, if_pos hfills]
    exact (follows_onTree (hgrown.follows_guardedFillNumerator id)).bind fun _ _ _ => hmove _ _
  · dsimp only
    rw [if_neg hfills, if_neg hfills]
    exact hmove false grown

/-- A guarded move of the cursor follows the move. -/
theorem follows_guardedNavigate (direction : Direction) (editor : Editor) :
    Follows (guardedNavigate direction) (navigate direction) editor :=
  Follows.ask_of_eq (editor.tree.guardedNavigate_eq editor.cursor direction) fun id _ =>
    (Follows.plain (moveTo id) editor).bind fun _ _ _ => .pure id _

/-- Guarded backspace follows backspace in editors with a well-formed tree. -/
theorem follows_guardedBackspace (h : editor.tree.WellFormed) :
    Follows guardedBackspace backspace editor := by
  refine Follows.ask_of_eq (editor.tree.guardedLeftNeighbour_eq editor.cursor) fun left _ => ?_
  cases left with
  | none => exact .pure false editor
  | some previous =>
    refine (Follows.plain (moveTo previous) editor).bind fun _ moved hmove => ?_
    cases hmove
    have hdelete : Follows (guardedOnTree (Tree.guardedDelete editor.cursor))
        (onTree (Tree.delete editor.cursor)) { editor with cursor := previous } :=
      follows_onTree (h.follows_guardedDelete editor.cursor)
    exact hdelete.bind fun _ _ _ => .pure true _

/-- Guarded insertion of a text follows its insertion in editors with a well-formed tree. -/
theorem follows_guardedInsertText (h : editor.tree.WellFormed) (text : String) :
    Follows (guardedInsertText text) (insertText text) editor := by
  refine Follows.check_bind fun formula => ?_
  show Follows (guardedOnTree (Tree.guardedTypeset editor.cursor formula) >>= fun last =>
    Guarded.plain (moveTo last)) (onTree (Tree.typeset editor.cursor formula) >>= moveTo) editor
  exact (follows_onTree (h.follows_guardedTypeset _ formula)).bind fun last _ _ =>
    .plain (moveTo last) _

/-- In an editor with a well-formed tree the guarded form of every call follows the call. -/
theorem follows_call (h : editor.tree.WellFormed) (call : Call) :
    Follows call.guarded call.edit editor := by
  cases call with
  | insert stroke => exact (follows_guardedInsert h stroke).map _
  | insertChar c => exact (Follows.check_bind fun _ => follows_guardedInsert h _).map _
  | insertName name => exact (Follows.check_bind fun _ => follows_guardedInsert h _).map _
  | navigate direction => exact (follows_guardedNavigate direction editor).map _
  | backspace => exact (follows_guardedBackspace h).map _
  | clear => exact .plain Editor.clear editor
  | setCursor id => exact .plain (Editor.setCursor id) editor
  | insertText text => exact follows_guardedInsertText h text

/-- In an editor with a well-formed tree every step of a session is followed by its guarded form. -/
theorem follows_step (h : editor.tree.WellFormed) (step : Step) :
    Follows step.guarded step.edit editor := by
  cases step with
  | own call => exact follows_call h call
  | onTree call => exact follows_onTree (h.follows_call call)

/-! ## Sessions -/

/-- The editor after a sequence of steps, each of which may be refused, if no check fails. -/
def guardedSession : List Step → Editor → Checked Editor
  | [], editor => return editor
  | step :: steps, editor => match step.guarded.run editor with
    | .ok _ next | .error (.refused _) next => guardedSession steps next
    | .error halt _ => throw halt

/-- A step which follows the one without checks leads to the same editor. -/
theorem guardedSession_cons {step : Step} (h : Follows step.guarded step.edit editor)
    (steps : List Step) :
    guardedSession (step :: steps) editor = guardedSession steps (step.edit.after editor) := by
  rw [guardedSession]
  cases hrun : step.edit.run editor with
  | ok answer next => rw [h.run_of_ok hrun, Edit.after_of_ok hrun]
  | error error next => rw [h.run_of_error hrun, Edit.after_of_error hrun]

/-- No check ever fails: a session from a reachable editor leads to the same editor with checks as
without them, and whatever is done or asked then has the same outcome. -/
theorem Reachable.within_bounds (h : editor.Reachable) (steps : List Step) :
    guardedSession steps editor = .ok (editor.session steps) ∧
      (editor.session steps).tree.WithinBounds ∧
      ∀ step : Step, Follows step.guarded step.edit (editor.session steps) := by
  have hlast := Tree.invariant_wellFormed.reachable ⟨_, h.session steps, rfl⟩
  refine ⟨?_, hlast.withinBounds, follows_step hlast⟩
  clear hlast
  induction steps generalizing editor with
  | nil => rfl
  | cons step steps ih =>
    have hfirst := Tree.invariant_wellFormed.reachable ⟨editor, h, rfl⟩
    rw [guardedSession_cons (follows_step hfirst step)]
    exact ih (h.session [step])

/-- A name from before the field was cleared is refused, also as that of a symbol to be deleted, and
the fraction which is typed then is read by positions. -/
theorem within_bounds_stale :
    let steps := [.own (.insertChar '/'), .own (.insertChar '/'), .own .clear,
      .own (.insertChar '1'), .own (.insertChar '/'), .own (.insertChar '2'),
      .onTree (.insertAfter 7 3), .onTree (.fillNumerator 3), .onTree (.delete 11)]
    let editor := session steps (.new {})
    guardedSession steps (.new {}) = .ok editor ∧
      editor.tree.reading Tree.root = .ok (.binary .divide (.number "1") (.number "2")) ∧
      editor.tree.reading 11 = .error (.refused .nodeNotFound) ∧
      editor.tree.guardedLeftNeighbour 8 = .ok (some 7) := by
  intro steps editor
  obtain ⟨hsession, htree, -⟩ := Reachable.within_bounds (.new {}) steps
  have hformula : editor.tree.formula Tree.root =
      .ok (.binary .divide (.number "1") (.number "2")) := by decide +kernel
  have hstale : editor.tree.formula 11 = .error .nodeNotFound := by decide +kernel
  have hleft : editor.tree.leftNeighbour 8 = .ok (some 7) := by decide +kernel
  refine ⟨hsession, ?_, ?_, ?_⟩
  · rw [htree.reading, hformula]
    rfl
  · rw [htree.reading, hstale]
    rfl
  · rw [htree.leftNeighbour, hleft]
    rfl

end Editor

end FormulaEditor
