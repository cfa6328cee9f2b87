import FormulaEditor.Editor
import FormulaEditor.Proofs.Keeps
import FormulaEditor.Proofs.Tree.Emission
import FormulaEditor.Proofs.Tree.Removal

/-!
# Sessions

A tree is changed by calls of its own operations, and an editor by calls of its own and by calls
made directly of its tree, without its cursor following. A call may fail; the session goes on all
the same. Trees and editors are reachable if a session leads to them.

What every primitive change of a tree keeps (`Tree.Invariant`), every session keeps
(`Tree.Invariant.run`, `Tree.Invariant.reachable`). What only the changes of single nodes keep
(`Tree.Lasting`), a session keeps as long as nobody starts again (`Tree.Lasting.session`).
-/

set_option autoImplicit false

namespace FormulaEditor

/-! ## Calls -/

/-- A call of an operation which may change a tree. -/
inductive Tree.Call
  | create (stroke : Stroke)
  | insertAfter (anchor id : NodeId)
  | delete (id : NodeId)
  | clear
  | typeset (anchor : NodeId) (formula : Formula)
  | fillNumerator (id : NodeId)
  | takeMarked

/-- The edit which a call of an operation of a tree makes. -/
def Tree.Call.edit : Tree.Call → Edit Tree Unit
  | create stroke => discard (Tree.create stroke)
  | insertAfter anchor id => Tree.insertAfter anchor id
  | delete id => Tree.delete id
  | clear => Tree.clear
  | typeset anchor formula => discard (Tree.typeset anchor formula)
  | fillNumerator id => discard (Tree.fillNumerator id)
  | takeMarked => discard Tree.takeMarked

/-- The tree after a sequence of calls, each of which may have failed. -/
def Tree.run (calls : List Tree.Call) (tree : Tree) : Tree :=
  calls.foldl (fun tree call => call.edit.after tree) tree

/-- A call of an operation of an editor which may change it. -/
inductive Editor.Call
  | insert (stroke : Stroke)
  | insertChar (c : Char)
  | insertName (name : String)
  | navigate (direction : Direction)
  | backspace
  | clear
  | setCursor (id : NodeId)
  | insertText (text : String)

/-- The edit which a call of an operation of an editor makes. -/
def Editor.Call.edit : Editor.Call → Edit Editor Unit
  | insert stroke => discard (Editor.insert stroke)
  | insertChar c => discard (Editor.insertChar c)
  | insertName name => discard (Editor.insertName name)
  | navigate direction => discard (Editor.navigate direction)
  | backspace => discard Editor.backspace
  | clear => Editor.clear
  | setCursor id => Editor.setCursor id
  | insertText text => Editor.insertText text

/-- A call of an editor, or a call of its tree which leaves the cursor where it is. -/
inductive Editor.Step
  | own (call : Editor.Call)
  | onTree (call : Tree.Call)

/-- The edit which a step of a session makes. -/
def Editor.Step.edit : Editor.Step → Edit Editor Unit
  | own call => call.edit
  | onTree call => Editor.onTree call.edit

/-- Whether a step starts again with nothing in the root, so that names are given anew. -/
def Editor.Step.clears : Editor.Step → Bool
  | own .clear | onTree .clear => true
  | _ => false

/-- Whether a step takes all marks for layout away. -/
def Editor.Step.takesMarks : Editor.Step → Bool
  | onTree .takeMarked => true
  | _ => false

/-- The editor after a sequence of steps, each of which may have failed. -/
def Editor.session (steps : List Editor.Step) (editor : Editor) : Editor :=
  steps.foldl (fun editor step => step.edit.after editor) editor

/-- The editors to which a session leads. It begins with an empty editor or with one which holds the
formula of a text. -/
inductive Editor.Reachable : Editor → Prop
  | new (settings : Settings) : Reachable (.new settings)
  | ofText {text : String} {editor : Editor} (h : Editor.ofText text = .ok editor) :
      Reachable editor
  | call {editor : Editor} (call : Editor.Call) (h : Reachable editor) :
      Reachable (call.edit.after editor)
  /-- A call of the editor's tree, which leaves the cursor where it is. -/
  | onTree {editor : Editor} (call : Tree.Call) (h : Reachable editor) :
      Reachable ((Editor.onTree call.edit).after editor)

/-- The trees to which a session of an editor leads, and so also those to which a session of a tree
alone leads. -/
def Tree.Reachable (tree : Tree) : Prop :=
  ∃ editor : Editor, editor.Reachable ∧ editor.tree = tree

/-- A change of an editor's tree leaves the cursor and the settings. -/
theorem Editor.run_onTree {α : Type} (edit : Edit Tree α) (editor : Editor) :
    (Editor.onTree edit).run editor = match edit.run editor.tree with
      | .ok answer tree => .ok answer { editor with tree }
      | .error error tree => .error error { editor with tree } := by
  obtain ⟨tree, cursor, settings⟩ := editor
  unfold Editor.onTree EStateM.run
  rfl

/-- An edit of the tree of an editor succeeds just if it does so on the tree. -/
theorem Editor.run_onTree_eq_ok {α : Type} {edit : Edit Tree α} {editor next : Editor}
    {answer : α} : (Editor.onTree edit).run editor = .ok answer next ↔
      ∃ tree, edit.run editor.tree = .ok answer tree ∧ { editor with tree } = next := by
  rw [Editor.run_onTree]
  cases edit.run editor.tree <;> simp

/-- After an edit of the tree an editor has the tree which the edit has left. -/
theorem Editor.after_onTree {α : Type} (edit : Edit Tree α) (editor : Editor) :
    (Editor.onTree edit).after editor = { editor with tree := edit.after editor.tree } := by
  unfold Edit.after
  rw [Editor.run_onTree]
  cases edit.run editor.tree <;> rfl

/-! ## Edits which are made of single ones -/

namespace Edit.Composes

variable {Q : (α : Type) → Edit Tree α → Prop}

mutual

/-- Creating a glyph with everything inside it is adding one symbol after the other. -/
theorem placeGlyph (h : Composes Q) (hadd : ∀ anchor stroke, Q _ (Tree.add anchor stroke))
    (anchor : NodeId) : (glyph : Glyph) → Q _ (Tree.placeGlyph anchor glyph)
  | .atom c => hadd anchor (.atom c)
  | .bracket side => hadd anchor (.bracket side)
  | .bar => hadd anchor .bar
  | .fraction numerator denominator =>
    h.bind (hadd anchor .fraction) fun _ => h.bind (h.look _) fun top =>
      h.bind (h.placeLine hadd top numerator) fun _ => h.bind (h.look _) fun bottom =>
        h.bind (h.placeLine hadd bottom denominator) fun _ => h.pure _
  | .superscript exponent =>
    h.bind (hadd anchor .superscript) fun _ => h.bind (h.look _) fun slot =>
      h.bind (h.placeLine hadd slot exponent) fun _ => h.pure _
  | .radical radicand =>
    h.bind (hadd anchor .radical) fun _ => h.bind (h.look _) fun slot =>
      h.bind (h.placeLine hadd slot radicand) fun _ => h.pure _

/-- What goes through composition and holds for adding a symbol holds for placing a line. -/
theorem placeLine (h : Composes Q) (hadd : ∀ anchor stroke, Q _ (Tree.add anchor stroke))
    (anchor : NodeId) : (line : List Glyph) → Q _ (Tree.placeLine anchor line)
  | [] => h.pure _
  | glyph :: glyphs =>
    h.bind (h.placeGlyph hadd anchor glyph) fun last => h.placeLine hadd last glyphs

end

/-- What goes through composition and holds for adding a symbol holds for typesetting a formula. -/
theorem typeset (h : Composes Q) (hadd : ∀ anchor stroke, Q _ (Tree.add anchor stroke))
    (anchor : NodeId) (formula : Formula) : Q _ (Tree.typeset anchor formula) := by
  rw [Tree.typeset_eq]
  exact h.bind (h.ofExcept _) fun _ => h.bind (h.look _) fun _ => h.placeLine hadd anchor _

/-- Filling a numerator is moving one symbol after the other. -/
theorem fillNumerator (h : Composes Q) (hmove : ∀ anchor id, Q _ (Tree.insertAfter anchor id))
    (id : NodeId) : Q _ (Tree.fillNumerator id) :=
  h.bind (h.look _) fun (run, start) =>
    h.bind (h.forM (hmove start) run.reverse) fun _ => h.pure _

end Edit.Composes

/-- A move keeps a property of well-formed trees if it does so when it is not refused. -/
theorem Tree.keeps_insertAfter_of {P : Tree → Prop}
    (hwell : ∀ {tree : Tree}, P tree → tree.WellFormed)
    (hmove : ∀ {tree : Tree} {anchor id expression : NodeId}, P tree →
      tree.destination anchor id = .ok expression → P (tree.moveAfter anchor id expression))
    (anchor id : NodeId) : Edit.Keeps P (Tree.insertAfter anchor id) := by
  intro tree htree
  unfold Edit.after
  rw [(hwell htree).run_insertAfter]
  cases hdest : tree.destination anchor id with
  | ok expression => exact hmove htree hdest
  | error e => exact htree

/-! ## What every session keeps -/

/-- A property of well-formed trees which lasts while symbols are made, moved and deleted. -/
structure Tree.Lasting (P : Tree → Prop) : Prop where
  wellFormed {tree : Tree} : P tree → tree.WellFormed
  pushSymbol {tree : Tree} (stroke : Stroke) : P tree → P (tree.pushSymbol stroke)
  moveAfter {tree : Tree} {anchor id expression : NodeId} : P tree →
    tree.destination anchor id = .ok expression → P (tree.moveAfter anchor id expression)
  delete {tree : Tree} {id expression : NodeId} {dead : List NodeId} : P tree →
    tree.deletion id = .ok (expression, dead) → P ((tree.detach id expression).killAll dead)

/-- A property of well-formed trees which every primitive change of a tree keeps. -/
structure Tree.Invariant (P : Tree → Prop) : Prop extends Tree.Lasting P where
  empty : P Tree.empty
  clear : P (Tree.empty.mark Tree.root)
  unmark {tree : Tree} : P tree → P tree.unmark

namespace Tree.Lasting

open Edit

variable {P : Tree → Prop}

/-- Creating a symbol keeps what lasts. -/
theorem keeps_create (h : Lasting P) (stroke : Stroke) : Keeps P (create stroke) :=
  Keeps.get.bind fun _ => (Keeps.modify fun _ => h.pushSymbol stroke).bind fun _ => Keeps.pure _

/-- Inserting a symbol keeps what lasts. -/
theorem keeps_insertAfter (h : Lasting P) (anchor id : NodeId) :
    Keeps P (insertAfter anchor id) :=
  keeps_insertAfter_of h.wellFormed h.moveAfter anchor id

/-- Deleting a symbol keeps what lasts, since it is taken out and killed with all inside it. -/
theorem keeps_delete (h : Lasting P) (id : NodeId) : Keeps P (Tree.delete id) := by
  intro tree htree
  unfold Edit.after
  rw [(h.wellFormed htree).run_delete]
  cases hdel : tree.deletion id with
  | ok deletion => exact h.delete htree hdel
  | error e => exact htree

/-- Adding a symbol keeps what lasts. -/
theorem keeps_add (h : Lasting P) (anchor : NodeId) (stroke : Stroke) :
    Keeps P (add anchor stroke) :=
  (h.keeps_create stroke).bind fun id => (h.keeps_insertAfter anchor id).bind fun _ => Keeps.pure _

/-- Placing a line keeps what lasts. -/
theorem keeps_placeLine (h : Lasting P) (anchor : NodeId) (line : List Glyph) :
    Keeps P (placeLine anchor line) :=
  (composes_keeps P).placeLine h.keeps_add anchor line

/-- Typesetting a formula keeps what lasts. -/
theorem keeps_typeset (h : Lasting P) (anchor : NodeId) (formula : Formula) :
    Keeps P (typeset anchor formula) :=
  (composes_keeps P).typeset h.keeps_add anchor formula

/-- Filling a numerator keeps what lasts. -/
theorem keeps_fillNumerator (h : Lasting P) (id : NodeId) : Keeps P (fillNumerator id) :=
  (composes_keeps P).fillNumerator h.keeps_insertAfter id

/-- Taking the marked nodes keeps what does not depend on marks. -/
theorem keeps_takeMarked (hunmark : ∀ tree : Tree, P tree → P tree.unmark) :
    Keeps P takeMarked := by
  refine Keeps.get.bind fun tree => ?_
  have hmodify : Keeps P (modify Tree.unmark) := Keeps.modify hunmark
  exact hmodify.bind fun _ => Keeps.pure tree.markedNodes

/-- No call of an operation of a tree breaks a property which lasts, unless the call starts again or
takes marks away. -/
theorem keeps_call (h : Lasting P) (call : Call) (hclear : call = .clear → Keeps P Tree.clear)
    (hmarks : call = .takeMarked → Keeps P takeMarked) : Keeps P call.edit := by
  cases call with
  | create stroke => exact (h.keeps_create stroke).map _
  | insertAfter anchor id => exact h.keeps_insertAfter anchor id
  | delete id => exact h.keeps_delete id
  | clear => exact hclear rfl
  | typeset anchor formula => exact (h.keeps_typeset anchor formula).map _
  | fillNumerator id => exact (h.keeps_fillNumerator id).map _
  | takeMarked => exact (hmarks rfl).map _

/-! ### Editors -/

/-- What an edit keeps of trees it keeps of editors with such trees. -/
theorem keeps_onTree {α : Type} {edit : Edit Tree α} (h : Keeps P edit) :
    Keeps (fun editor : Editor => P editor.tree) (Editor.onTree edit) := by
  intro editor htree
  rw [Editor.after_onTree]
  exact h editor.tree htree

/-- Moving the cursor leaves the tree as it is. -/
theorem keeps_moveTo (id : NodeId) :
    Keeps (fun editor : Editor => P editor.tree) (Editor.moveTo id) :=
  Keeps.modify fun _ h => h

/-- Typing a stroke keeps what lasts. -/
theorem keeps_insert (h : Lasting P) (stroke : Stroke) :
    Keeps (fun editor : Editor => P editor.tree) (Editor.insert stroke) := by
  unfold Editor.insert
  refine Keeps.get.bind fun before => Keeps.get.bind fun _ => (Keeps.look _).bind fun _ =>
    (keeps_onTree (h.keeps_add before.cursor stroke)).bind fun id => (Keeps.look _).bind fun _ => ?_
  dsimp only
  split
  · exact (keeps_onTree (h.keeps_fillNumerator id)).bind fun _ => (Keeps.look _).bind fun _ =>
      (keeps_moveTo _).bind fun _ => Keeps.pure _
  · exact (Keeps.pure _).bind fun _ => (Keeps.look _).bind fun _ => (keeps_moveTo _).bind fun _ =>
      Keeps.pure _

/-- No call of an operation of an editor breaks a property of its tree which lasts, unless the call
starts again. -/
theorem keeps_editorCall (h : Lasting P) (call : Editor.Call)
    (hclear : call = .clear → Keeps P Tree.clear) :
    Keeps (fun editor : Editor => P editor.tree) call.edit := by
  cases call with
  | insert stroke => exact (h.keeps_insert stroke).map _
  | insertChar c => exact ((Keeps.ofExcept _).bind h.keeps_insert).map _
  | insertName name => exact ((Keeps.ofExcept _).bind h.keeps_insert).map _
  | navigate direction =>
    exact ((Keeps.look _).bind fun id => (keeps_moveTo id).bind fun _ => Keeps.pure _).map _
  | backspace =>
    refine Keeps.map _ (Keeps.get.bind fun _ => (Keeps.look _).bind fun left => ?_)
    cases left with
    | none => exact Keeps.pure _
    | some previous =>
      exact (keeps_moveTo previous).bind fun _ => (keeps_onTree (h.keeps_delete _)).bind fun _ =>
        Keeps.pure _
  | clear => exact (keeps_onTree (hclear rfl)).bind fun _ => keeps_moveTo _
  | setCursor id =>
    refine (Keeps.look _).bind fun _ => Keeps.get.bind fun editor => ?_
    by_cases hid : editor.tree.isReachable id = true
    · rw [if_pos hid]
      exact keeps_moveTo id
    · rw [if_neg hid]
      exact Keeps.throw _
  | insertText text =>
    exact (Keeps.ofExcept _).bind fun formula => Keeps.get.bind fun editor =>
      (keeps_onTree (h.keeps_typeset editor.cursor formula)).bind fun _ => keeps_moveTo _

/-- No step of a session breaks a property of the tree which lasts, unless the step starts again or
takes marks away. -/
theorem keeps_step (h : Lasting P) (step : Editor.Step)
    (hclear : step.clears = true → Keeps P Tree.clear)
    (hmarks : step.takesMarks = true → Keeps P takeMarked) :
    Keeps (fun editor : Editor => P editor.tree) step.edit := by
  cases step with
  | own call =>
    refine h.keeps_editorCall call fun hcall => hclear ?_
    rw [hcall]
    rfl
  | onTree call =>
    refine keeps_onTree (h.keeps_call call (fun hcall => hclear ?_) fun hcall => hmarks ?_)
    · rw [hcall]
      rfl
    · rw [hcall]
      rfl

/-- What lasts holds after a session which never starts again, if it also holds when marks are taken
away or nobody takes them. -/
theorem session (h : Lasting P) {editor : Editor} (htree : P editor.tree)
    {steps : List Editor.Step} (hclear : ∀ step ∈ steps, step.clears = false)
    (hmarks : ∀ step ∈ steps, step.takesMarks = true → Keeps P takeMarked) :
    P (editor.session steps).tree := by
  unfold Editor.session
  induction steps generalizing editor with
  | nil => exact htree
  | cons step steps ih =>
    obtain ⟨hclear, hclears⟩ := List.forall_mem_cons.mp hclear
    obtain ⟨hmarks, hmarksLater⟩ := List.forall_mem_cons.mp hmarks
    refine ih (h.keeps_step step (fun hstep => ?_) hmarks editor htree) hclears hmarksLater
    rw [hclear] at hstep
    cases hstep

end Tree.Lasting

namespace Tree.Invariant

open Edit

variable {P : Tree → Prop}

/-- Clearing keeps an invariant, since it holds for the marked empty tree. -/
theorem keeps_clear (h : Invariant P) : Keeps P Tree.clear :=
  fun _ _ => h.clear

/-- No call of an operation of a tree breaks an invariant. -/
theorem keeps_call (h : Invariant P) (call : Call) : Keeps P call.edit :=
  h.toLasting.keeps_call call (fun _ => h.keeps_clear) fun _ =>
    Lasting.keeps_takeMarked fun _ => h.unmark

/-- What holds of a tree holds after any sequence of calls. -/
theorem run (h : Invariant P) {tree : Tree} (htree : P tree) (calls : List Call) :
    P (tree.run calls) := by
  unfold Tree.run
  induction calls generalizing tree with
  | nil => exact htree
  | cons call calls ih => exact ih (h.keeps_call call tree htree)

/-- No call of an operation of an editor breaks an invariant of its tree. -/
theorem keeps_editorCall (h : Invariant P) (call : Editor.Call) :
    Keeps (fun editor : Editor => P editor.tree) call.edit :=
  h.toLasting.keeps_editorCall call fun _ => h.keeps_clear

/-- An invariant holds of the tree of every reachable editor. -/
theorem reachable (h : Invariant P) {tree : Tree} (hreach : tree.Reachable) : P tree := by
  obtain ⟨editor, hreach, rfl⟩ := hreach
  induction hreach with
  | new settings => exact h.empty
  | @ofText text editor hread =>
    have hkeep := h.keeps_editorCall (.insertText text) (.new {}) h.empty
    unfold Editor.ofText at hread
    unfold Edit.after Editor.Call.edit at hkeep
    cases hrun : (Editor.insertText text).run (.new {}) with
    | ok answer state =>
      rw [hrun] at hread hkeep
      cases hread
      exact hkeep
    | error e state =>
      rw [hrun] at hread
      cases hread
  | call call _ ih => exact h.keeps_editorCall call _ ih
  | onTree call _ ih => exact Lasting.keeps_onTree (h.keeps_call call) _ ih

end Tree.Invariant

/-- What a session leads to from a reachable editor is reachable. -/
theorem Editor.Reachable.session {editor : Editor} (h : editor.Reachable)
    (steps : List Editor.Step) : (editor.session steps).Reachable := by
  unfold Editor.session
  induction steps generalizing editor with
  | nil => exact h
  | cons step steps ih =>
    cases step with
    | own call => exact ih (h.call call)
    | onTree call => exact ih (h.onTree call)

/-- A session of a tree alone leads to a reachable tree. -/
theorem Tree.reachable_run (calls : List Tree.Call) : (Tree.empty.run calls).Reachable := by
  suffices ∀ (editor : Editor), editor.Reachable → (editor.tree.run calls).Reachable from
    this (.new {}) (.new {})
  induction calls with
  | nil => exact fun editor h => ⟨editor, h, rfl⟩
  | cons call calls ih =>
    intro editor h
    have hstep := ih _ (Editor.Reachable.onTree call h)
    rw [Editor.after_onTree] at hstep
    exact hstep

end FormulaEditor
