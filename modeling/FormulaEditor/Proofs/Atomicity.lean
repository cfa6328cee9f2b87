import FormulaEditor.Proofs.Typing

/-!
# Failures leave nothing behind

An edit of a tree or an editor to which a session leads either succeeds or changes nothing
(`Editor.Reachable.unchanged_of_error`), even where it goes on asking questions after its first
change: once the questions before the first change have been answered, all later ones have answers.
The cursor may denote anything, since calls of the tree do not keep it up to date.
-/

set_option autoImplicit false

namespace FormulaEditor

open Edit

namespace Tree.WellFormed

variable {tree : Tree} (h : tree.WellFormed)

include h

/-- Inserting a symbol changes nothing if it fails. -/
theorem atomicAt_insertAfter (anchor id : NodeId) : AtomicAt (insertAfter anchor id) tree := by
  have hrun := h.run_insertAfter anchor id
  cases hdest : tree.destination anchor id with
  | ok expression =>
    rw [hdest] at hrun
    exact .of_run_ok hrun
  | error e =>
    rw [hdest] at hrun
    exact .of_run_error hrun

/-- Deleting a symbol changes nothing if it fails. -/
theorem atomicAt_delete (id : NodeId) : AtomicAt (Tree.delete id) tree := by
  have hrun := h.run_delete id
  cases hdel : tree.deletion id with
  | ok deletion =>
    rw [hdel] at hrun
    exact .of_run_ok hrun
  | error e =>
    rw [hdel] at hrun
    exact .of_run_error hrun

/-- Typesetting a formula changes nothing if it fails: it is checked before anything is put in. -/
theorem atomicAt_typeset (anchor : NodeId) (formula : Formula) :
    AtomicAt (typeset anchor formula) tree := by
  rw [typeset_eq]
  refine AtomicAt.ofExcept_bind fun _ _ => AtomicAt.look_bind fun place hposition => ?_
  obtain ⟨symbol, hanchor⟩ := h.node?_of_position hposition
  obtain ⟨owner, front, back, hexpression, -⟩ := h.exists_split hanchor
  obtain ⟨run, grown, hrun, -⟩ := places formula.typeset tree _ anchor owner front back h hexpression
  exact .of_run_ok hrun

/-- Filling a numerator changes nothing if it fails. -/
theorem atomicAt_fillNumerator (id : NodeId) : AtomicAt (fillNumerator id) tree := by
  rcases h.run_fillNumerator id with ⟨e, hrun, -⟩ | ⟨answer, grown, hrun, -⟩
  · exact .of_run_error hrun
  · exact .of_run_ok hrun

/-- No call of an operation of a well-formed tree changes anything if it fails. -/
theorem atomicAt_call : (call : Call) → AtomicAt call.edit tree
  | .create stroke => AtomicAt.map _ (show AtomicAt (create stroke) tree from .of_run_ok rfl)
  | .insertAfter anchor id => h.atomicAt_insertAfter anchor id
  | .delete id => h.atomicAt_delete id
  | .clear => .of_run_ok rfl
  | .typeset anchor formula => (h.atomicAt_typeset anchor formula).map _
  | .fillNumerator id => (h.atomicAt_fillNumerator id).map _
  | .takeMarked => AtomicAt.map _ (show AtomicAt takeMarked tree from .of_run_ok rfl)

end Tree.WellFormed

namespace Editor

variable {editor : Editor}

/-- A change of the tree which fails without a trace may be followed by what cannot fail. -/
theorem atomicAt_onTree_bind {α β : Type} {edit : Edit Tree α} {next : α → Edit Editor β}
    (h : AtomicAt edit editor.tree)
    (hnext : ∀ a state, ∃ b final, (next a).run state = .ok b final) :
    AtomicAt (onTree edit >>= next) editor := by
  intro error final hrun
  rw [EStateM.run_bind, run_onTree] at hrun
  cases hedit : edit.run editor.tree with
  | ok a tree =>
    obtain ⟨b, done, hdone⟩ := hnext a { editor with tree }
    rw [hedit] at hrun
    rw [show (next a).run { editor with tree } = _ from hrun] at hdone
    cases hdone
  | error e tree =>
    rw [hedit] at hrun
    cases hrun
    rw [h _ _ hedit]

variable (h : editor.tree.WellFormed)

include h

/-- Typing a stroke changes nothing if it fails. -/
theorem atomicAt_insert (stroke : Stroke) : AtomicAt (insert stroke) editor := by
  cases hposition : editor.tree.position editor.cursor with
  | ok place =>
    obtain ⟨next, hrun, -⟩ := exists_insert h hposition stroke
    exact .of_run_ok hrun
  | error e =>
    refine AtomicAt.get_bind (AtomicAt.get_bind (AtomicAt.look_bind fun place hplace => ?_))
    rw [hposition] at hplace
    cases hplace

/-- Backspace changes nothing if it fails. -/
theorem atomicAt_backspace : AtomicAt backspace editor := by
  cases hposition : editor.tree.position editor.cursor with
  | ok place =>
    obtain ⟨symbol, hcursor⟩ := h.node?_of_position hposition
    obtain ⟨deleted, next, hrun, -⟩ := exists_backspace h hcursor
    exact .of_run_ok hrun
  | error e =>
    refine AtomicAt.get_bind (AtomicAt.look_bind fun answer hleft => ?_)
    rw [Tree.leftNeighbour, hposition] at hleft
    cases hleft

/-- No call of an editor with a well-formed tree changes anything if it fails. -/
theorem atomicAt_call : (call : Call) → AtomicAt call.edit editor
  | .insert stroke => (atomicAt_insert h stroke).map _
  | .insertChar _ => .map _ (.ofExcept_bind fun stroke _ => atomicAt_insert h stroke)
  | .insertName _ => .map _ (.ofExcept_bind fun stroke _ => atomicAt_insert h stroke)
  | .navigate _ => .map _ (.look_bind fun _ _ => .of_run_ok rfl)
  | .backspace => (atomicAt_backspace h).map _
  | .clear => .of_run_ok rfl
  | .setCursor id => by
    refine AtomicAt.look_bind fun _ _ => AtomicAt.get_bind ?_
    by_cases hid : editor.tree.isReachable id = true
    · rw [if_pos hid]
      exact .of_run_ok rfl
    · rw [if_neg hid]
      exact .of_run_error rfl
  | .insertText _ =>
    .ofExcept_bind fun formula _ => .get_bind
      (atomicAt_onTree_bind (h.atomicAt_typeset editor.cursor formula) fun _ _ => ⟨_, _, rfl⟩)

end Editor

/-- In whatever state a session has left an editor, a call of the editor or of its tree which fails
leaves everything as it was: nodes, marks, the cursor, and the names which have been given. -/
theorem Editor.Reachable.unchanged_of_error {editor : Editor} (h : editor.Reachable) :
    (∀ (call : Editor.Call) (error : Error) (next : Editor),
      call.edit.run editor = .error error next → next = editor) ∧
    ∀ (call : Tree.Call) (error : Error) (next : Tree),
      call.edit.run editor.tree = .error error next → next = editor.tree := by
  have hwellFormed := Tree.invariant_wellFormed.reachable ⟨editor, h, rfl⟩
  exact ⟨fun call => atomicAt_call hwellFormed call, fun call => hwellFormed.atomicAt_call call⟩

/-- When the fraction in whose numerator the cursor stands is deleted behind the editor's back, the
next keys and a move to where the cursor was fail and change nothing. -/
theorem Editor.unchanged_of_error_dangling :
    let typed := (Editor.Call.insertChar '/').edit.after (.new {})
    let editor := (Editor.onTree (Tree.Call.delete 2).edit).after typed
    editor.Reachable ∧ editor.tree.isLive editor.cursor = false ∧
      (∀ call ∈ [Editor.Call.insertChar '1', .navigate .left, .backspace, .insertText "cn(1)"],
        ∃ error, call.edit.run editor = .error error editor) ∧
      ∃ error, (Tree.Call.insertAfter editor.cursor 1).edit.run editor.tree =
        .error error editor.tree := by
  intro typed editor
  have hreachable : editor.Reachable := .onTree _ (.call _ (.new {}))
  obtain ⟨hcalls, htreeCalls⟩ := hreachable.unchanged_of_error
  refine ⟨hreachable, by decide +kernel, ?_, ?_⟩
  · intro call hcall
    obtain ⟨error, next, hrun⟩ : ∃ error next, call.edit.run editor = .error error next := by
      simp only [List.mem_cons, List.not_mem_nil, or_false] at hcall
      rcases hcall with rfl | rfl | rfl | rfl
      · exact ⟨_, _, rfl⟩
      · exact ⟨_, _, rfl⟩
      · exact ⟨_, _, rfl⟩
      · exact ⟨_, _, rfl⟩
    exact ⟨error, by rw [hrun, hcalls call error next hrun]⟩
  · obtain ⟨error, next, hrun⟩ : ∃ error next,
        (Tree.Call.insertAfter editor.cursor 1).edit.run editor.tree = .error error next :=
      ⟨_, _, rfl⟩
    exact ⟨error, by rw [hrun, htreeCalls _ error next hrun]⟩

end FormulaEditor
