import FormulaEditor.Proofs.Atomicity
import FormulaEditor.Proofs.Formula.Reading
import FormulaEditor.Proofs.Tree.Navigation

/-!
# Editors which only change by their own calls

As long as nobody changes the tree of an editor behind its back (`Editor.Sealed`), the tree is whole
and the cursor is on a symbol of it (`Editor.Sealed.sound`). Then the cursor can move in every
direction, and whatever can be typed can be typed where it is (`Editor.Sealed.usable`).
-/

set_option autoImplicit false

namespace FormulaEditor

open Edit

/-- The editors to which sessions lead in which the tree is only changed by calls of the editor
itself, some of which may have failed. -/
inductive Editor.Sealed : Editor → Prop
  | new (settings : Settings) : Sealed (.new settings)
  | ofText {text : String} {editor : Editor} (h : Editor.ofText text = .ok editor) : Sealed editor
  | call {editor : Editor} (call : Editor.Call) (h : Sealed editor) : Sealed (call.edit.after editor)

/-- The tree has nothing loose in it, and the cursor is on one of its symbols. -/
structure Editor.Sound (editor : Editor) : Prop where
  whole : editor.tree.Whole
  cursor : editor.tree.IsSymbol editor.cursor

/-- A character which is no stroke is refused as unrecognized input. -/
theorem Stroke.unrecognizedInput_of_ofChar {c : Char} {error : Error}
    (h : Stroke.ofChar c = .error error) : ∃ input, error = .unrecognizedInput input := by
  unfold Stroke.ofChar at h
  repeat' split at h
  all_goals cases h
  exact ⟨_, rfl⟩

/-- A name which is no stroke is refused as unrecognized input. -/
theorem Stroke.unrecognizedInput_of_ofName {name : String} {error : Error}
    (h : Stroke.ofName name = .error error) : ∃ input, error = .unrecognizedInput input := by
  unfold Stroke.ofName at h
  repeat' split at h
  all_goals cases h
  exact ⟨_, rfl⟩

namespace Editor

/-- A new editor is sound. -/
theorem sound_new (settings : Settings) : (new settings).Sound :=
  ⟨Tree.whole_empty, .start, rfl⟩

/-- An editor which has been cleared is sound. -/
theorem sound_clear (settings : Settings) :
    Sound ⟨Tree.empty.mark Tree.root, home, settings⟩ :=
  ⟨Tree.whole_empty.congr fun id => Tree.node?_mark _ _ id, .start, rfl⟩

/-- A success of an edit which restores that the tree is whole leaves the editor sound if it leaves
the cursor on a symbol. -/
theorem sound_of_run {α : Type} {edit : Edit Editor α} {editor next : Editor} {answer : α}
    (h : editor.Sound) (hedit : Restores (fun editor : Editor => editor.tree.Whole) edit)
    (hrun : edit.run editor = .ok answer next) (hcursor : next.tree.IsSymbol next.cursor) :
    next.Sound :=
  ⟨hedit editor answer next h.whole hrun, hcursor⟩

namespace Sound

variable {editor : Editor}

/-- The cursor of a sound editor is a symbol which has a place. -/
theorem exists_place (h : editor.Sound) : ∃ expression symbol index,
    editor.tree.node? editor.cursor = some ⟨some expression, .symbol symbol⟩ ∧
      editor.tree.position editor.cursor = .ok (expression, index) := by
  obtain ⟨symbol, hsymbol⟩ := h.cursor
  obtain ⟨expression, hcursor⟩ := h.whole.exists_parent hsymbol
  obtain ⟨index, hposition⟩ := h.whole.wellFormed.exists_position hcursor
  exact ⟨expression, symbol, index, hcursor, hposition⟩

/-- Every stroke can be put into a sound editor, and leaves a sound one. -/
theorem run_insert (h : editor.Sound) (stroke : Stroke) :
    ∃ id next, (insert stroke).run editor = .ok id next ∧ next.tree.IsSymbol id ∧ next.Sound := by
  obtain ⟨expression, symbol, index, -, hposition⟩ := h.exists_place
  obtain ⟨next, hrun, hid, hcursor⟩ := exists_insert h.whole.wellFormed hposition stroke
  exact ⟨_, next, hrun, hid, sound_of_run h (restores_whole_insert stroke) hrun hcursor⟩

/-- Where every stroke can be put in, putting in what an input stands for only fails if it stands for
none. -/
theorem error_of_insert (h : editor.Sound) {stroke : Except Error Stroke} {error : Error}
    {next : Editor}
    (hrun : (Edit.ofExcept stroke >>= insert).run editor = .error error next) :
    stroke = .error error := by
  rw [EStateM.run_bind, run_ofExcept] at hrun
  cases stroke with
  | error e =>
    cases hrun
    rfl
  | ok stroke =>
    obtain ⟨id, final, hinsert, -⟩ := h.run_insert stroke
    rw [show (insert stroke).run editor = _ from hrun] at hinsert
    cases hinsert

/-- The cursor of a sound editor can be moved in every direction, which leaves a sound editor. -/
theorem run_navigate (h : editor.Sound) (direction : Direction) :
    ∃ id next, (navigate direction).run editor = .ok id next ∧ next.tree.IsSymbol id ∧
      next.Sound := by
  obtain ⟨id, hid, hsymbol⟩ := h.whole.exists_navigate h.cursor direction
  exact ⟨id, _, run_navigate_of hid, hsymbol, h.whole, hsymbol⟩

/-- Backspace never fails in a sound editor, and deletes something unless the cursor is a start. -/
theorem run_backspace (h : editor.Sound) :
    ∃ deleted next, backspace.run editor = .ok deleted next ∧
      (deleted = false ↔ editor.tree.symbol editor.cursor = .ok .start) ∧ next.Sound := by
  obtain ⟨expression, symbol, index, hcursor, hposition⟩ := h.exists_place
  obtain ⟨deleted, next, hrun, hdeleted, hnext⟩ := exists_backspace h.whole.wellFormed hcursor
  refine ⟨deleted, next, hrun, ?_, sound_of_run h restores_whole_backspace hrun hnext⟩
  rw [hdeleted, Tree.symbol_of_node? hcursor, Except.ok.injEq]

/-- A text is refused as a whole, or put in as a whole. -/
theorem run_insertText (h : editor.Sound) (text : String) :
    (∃ fault, (insertText text).run editor = .error (.invalidValue fault) editor) ∨
      ∃ next, (insertText text).run editor = .ok () next ∧ next.Sound := by
  obtain ⟨expression, symbol, index, -, hposition⟩ := h.exists_place
  cases htext : Formula.ofText text with
  | error e =>
    obtain ⟨fault, rfl⟩ := Formula.invalidValue_of_ofText htext
    exact Or.inl ⟨fault, by rw [insertText, EStateM.run_bind, run_ofExcept, htext]⟩
  | ok formula =>
    cases hformula : formula.typesettable with
    | error fault =>
      refine Or.inl ⟨fault, ?_⟩
      rw [insertText, EStateM.run_bind, run_ofExcept, htext]
      show (onTree (Tree.typeset editor.cursor formula) >>= moveTo).run editor = _
      rw [EStateM.run_bind, run_onTree, Tree.run_typeset_of_error hformula]
    | ok checked =>
      obtain ⟨next, hrun, hcursor⟩ :=
        exists_insertText h.whole.wellFormed hposition htext hformula
      exact Or.inr ⟨next, hrun, sound_of_run h (restores_whole_insertText text) hrun hcursor⟩

/-- Only a symbol which can be reached from the root can be the cursor. -/
theorem run_setCursor (editor : Editor) (id : NodeId) :
    (setCursor id).run editor = .ok () { editor with cursor := id } ∧
        (editor.tree.IsSymbol id ∧ editor.tree.isReachable id = true) ∨
      ∃ error, (setCursor id).run editor = .error error editor ∧
        ¬ (editor.tree.IsSymbol id ∧ editor.tree.isReachable id = true) := by
  rw [setCursor, EStateM.run_bind, run_look]
  cases hsymbol : editor.tree.symbol id with
  | error e =>
    refine Or.inr ⟨e, rfl, ?_⟩
    rintro ⟨⟨symbol, hid⟩, -⟩
    rw [hsymbol] at hid
    cases hid
  | ok symbol =>
    show (if editor.tree.isReachable id then moveTo id else throw .nodeNotFound :
        Edit Editor Unit).run editor = _ ∧ _ ∨ ∃ error, (if editor.tree.isReachable id
          then moveTo id else throw .nodeNotFound : Edit Editor Unit).run editor = _ ∧ _
    by_cases hid : editor.tree.isReachable id = true
    · rw [if_pos hid]
      exact Or.inl ⟨rfl, ⟨symbol, hsymbol⟩, hid⟩
    · rw [if_neg hid]
      exact Or.inr ⟨.nodeNotFound, rfl, fun h => hid h.2⟩

/-- Typing a stroke keeps an editor sound. -/
theorem keeps_insert (stroke : Stroke) : Keeps Sound (insert stroke) := by
  refine .of_exists_run fun editor h => ?_
  obtain ⟨id, next, hrun, -, hnext⟩ := h.run_insert stroke
  exact ⟨id, next, hrun, hnext⟩

/-- No call of an editor leaves it unsound. -/
theorem keeps_call : (call : Call) → Keeps Sound call.edit
  | .insert stroke => (keeps_insert stroke).map _
  | .insertChar _ => ((Keeps.ofExcept _).bind keeps_insert).map _
  | .insertName _ => ((Keeps.ofExcept _).bind keeps_insert).map _
  | .navigate direction => by
    refine .map _ (.of_exists_run fun editor h => ?_)
    obtain ⟨id, next, hrun, -, hnext⟩ := h.run_navigate direction
    exact ⟨id, next, hrun, hnext⟩
  | .backspace => by
    refine .map _ (.of_exists_run fun editor h => ?_)
    obtain ⟨deleted, next, hrun, -, hnext⟩ := h.run_backspace
    exact ⟨deleted, next, hrun, hnext⟩
  | .clear => .of_exists_run fun editor _ =>
      ⟨(), ⟨Tree.empty.mark Tree.root, home, editor.settings⟩, rfl, sound_clear editor.settings⟩
  | .setCursor id => by
    intro editor h
    rcases run_setCursor editor id with ⟨hrun, hid, -⟩ | ⟨error, hrun, -⟩
    · rw [Call.edit, after_of_ok hrun]
      exact ⟨h.whole, hid⟩
    · rwa [Call.edit, after_of_error hrun]
  | .insertText text => by
    intro editor h
    rcases h.run_insertText text with ⟨fault, hrun⟩ | ⟨next, hrun, hnext⟩
    · rwa [Call.edit, after_of_error hrun]
    · rwa [Call.edit, after_of_ok hrun]

end Sound

namespace Sealed

variable {editor : Editor}

/-- As long as only its own calls change an editor, nothing in its tree is loose and its cursor is on
a symbol. -/
theorem sound (h : editor.Sealed) : editor.Sound := by
  induction h with
  | new settings => exact sound_new settings
  | @ofText text editor h =>
    unfold Editor.ofText at h
    rcases (sound_new {}).run_insertText text with ⟨fault, hrun⟩ | ⟨next, hrun, hnext⟩
    · rw [hrun] at h
      cases h
    · rw [hrun] at h
      cases h
      exact hnext
  | call call _ ih => exact Sound.keeps_call call _ ih

/-- As long as only its own calls change an editor, its cursor is a symbol below the root, and so is
every node of its tree. Every stroke can be put in and the cursor can move in every direction. What
is before the cursor can be deleted, unless the cursor is on a start. A character or a name is only
refused if it stands for no stroke, a text only if it denotes nothing which can be typeset, and a
name of a node only if it is none of a symbol below the root. -/
theorem usable (h : editor.Sealed) :
    (editor.tree.IsSymbol editor.cursor ∧ editor.tree.isReachable editor.cursor = true) ∧
    (∀ id, editor.tree.isLive id = true → editor.tree.isReachable id = true) ∧
    (∀ stroke, ∃ id next, (insert stroke).run editor = .ok id next) ∧
    (∀ direction, ∃ id next, (navigate direction).run editor = .ok id next) ∧
    (∃ deleted next, backspace.run editor = .ok deleted next ∧
      (deleted = false ↔ editor.tree.symbol editor.cursor = .ok .start)) ∧
    (∀ c error next, (insertChar c).run editor = .error error next →
      ∃ input, error = .unrecognizedInput input) ∧
    (∀ name error next, (insertName name).run editor = .error error next →
      ∃ input, error = .unrecognizedInput input) ∧
    (∀ text error next, (insertText text).run editor = .error error next →
      ∃ fault, error = .invalidValue fault) ∧
    ∀ id, (∃ error next, (setCursor id).run editor = .error error next) ↔
      ¬ (editor.tree.IsSymbol id ∧ editor.tree.isReachable id = true) := by
  have hsound := h.sound
  have hreachable : ∀ id, editor.tree.isLive id = true → editor.tree.isReachable id = true :=
    fun id => hsound.whole.isReachable_iff.mpr
  refine ⟨⟨hsound.cursor, hreachable _ hsound.cursor.isLive⟩, hreachable, fun stroke => ?_,
    fun direction => ?_, ?_, fun c error next hrun => ?_, fun name error next hrun => ?_,
    fun text error next hrun => ?_, fun id => ?_⟩
  · obtain ⟨id, next, hrun, -⟩ := hsound.run_insert stroke
    exact ⟨id, next, hrun⟩
  · obtain ⟨id, next, hrun, -⟩ := hsound.run_navigate direction
    exact ⟨id, next, hrun⟩
  · obtain ⟨deleted, next, hrun, hdeleted, -⟩ := hsound.run_backspace
    exact ⟨deleted, next, hrun, hdeleted⟩
  · exact Stroke.unrecognizedInput_of_ofChar (hsound.error_of_insert hrun)
  · exact Stroke.unrecognizedInput_of_ofName (hsound.error_of_insert hrun)
  · rcases hsound.run_insertText text with ⟨fault, hrefused⟩ | ⟨_, haccepted, -⟩
    · rw [hrefused] at hrun
      cases hrun
      exact ⟨fault, rfl⟩
    · rw [haccepted] at hrun
      cases hrun
  · rcases Sound.run_setCursor editor id with ⟨hrun, hid⟩ | ⟨error, hrun, hid⟩
    · simp [hrun, hid]
    · simp [hrun, hid]

/-- When `1/` has been typed, the cursor is on the start of the denominator. There it can move, but
there is nothing to delete, and it cannot be put on the root. -/
theorem usable_typed_fraction :
    let editor := (Call.insertChar '/').edit.after ((Call.insertChar '1').edit.after (.new {}))
    editor.Sealed ∧ editor.tree.isReachable editor.cursor = true ∧
      (∃ id next, (navigate .up).run editor = .ok id next) ∧
      (∃ next, backspace.run editor = .ok false next) ∧
      ∃ error next, (setCursor Tree.root).run editor = .error error next := by
  intro editor
  have hsealed : editor.Sealed := .call _ (.call _ (.new {}))
  obtain ⟨⟨-, hcursor⟩, -, -, hnavigate, hbackspace, -, -, -, hset⟩ := hsealed.usable
  refine ⟨hsealed, hcursor, hnavigate .up, ?_, (hset Tree.root).mpr ?_⟩
  · obtain ⟨deleted, next, hrun, hdeleted⟩ := hbackspace
    have hstart : editor.tree.symbol editor.cursor = .ok .start := by decide +kernel
    rw [hdeleted.mpr hstart] at hrun
    exact ⟨next, hrun⟩
  · rintro ⟨⟨symbol, hroot⟩, -⟩
    have hexpression : editor.tree.symbol Tree.root = .error .invalidNode := by decide +kernel
    rw [hexpression] at hroot
    cases hroot

end Sealed

end Editor

end FormulaEditor
