import FormulaEditor.Proofs.Alike

/-!
# What a name denotes

Until somebody starts again, a name denotes the same node as long as the node is live, and nothing
afterwards (`Tree.Continues`). Every change of a tree gives names which have never been given, so
neither a name which is kept by somebody nor the name of a deleted node comes to denote another node
(`Editor.Reachable.names_continue`).
-/

set_option autoImplicit false

namespace FormulaEditor

namespace Tree

variable {tree middle other : Tree} {id : NodeId}

/-! ## A tree and what becomes of it -/

/-- Names given in one tree denote the same nodes in another one, or nothing: a symbol remains this
symbol, wherever it stands, and an expression remains the expression of its owner, whatever is in
it. No name is taken back, and what was deleted is not made again. -/
structure Continues (tree other : Tree) : Prop where
  nextId_le : tree.nextId ≤ other.nextId
  deleted : ∀ {id : NodeId}, id < tree.nextId → tree.isLive id = false → other.isLive id = false
  symbol : ∀ {id : NodeId} {parent : Option NodeId} {symbol : Symbol},
    tree.node? id = some ⟨parent, .symbol symbol⟩ → other.isLive id = true →
      ∃ parent', other.node? id = some ⟨parent', .symbol symbol⟩
  expression : ∀ {id : NodeId} {owner : Option NodeId} {items : List NodeId},
    tree.node? id = some ⟨owner, .expression items⟩ → other.isLive id = true →
      ∃ items', other.node? id = some ⟨owner, .expression items'⟩

namespace Continues

/-- Every tree continues itself. -/
theorem refl (tree : Tree) : tree.Continues tree where
  nextId_le := Nat.le_refl _
  deleted _ hdead := hdead
  symbol hid _ := ⟨_, hid⟩
  expression hid _ := ⟨_, hid⟩

/-- A node which is live afterwards has been live all the time. -/
theorem isLive_of_isLive (h : tree.Continues other) (hgiven : id < tree.nextId)
    (hlive : other.isLive id = true) : tree.isLive id = true := by
  by_contra hdead
  rw [h.deleted hgiven (Bool.eq_false_iff.mpr hdead)] at hlive
  cases hlive

/-- A tree which is continued step by step is continued. -/
theorem trans (h : tree.Continues middle) (h' : middle.Continues other) :
    tree.Continues other where
  nextId_le := h.nextId_le.trans h'.nextId_le
  deleted hgiven hdead :=
    h'.deleted (hgiven.trans_le h.nextId_le) (h.deleted hgiven hdead)
  symbol hid hlive := by
    have hgiven := (lt_nextId_of_node? hid).trans_le h.nextId_le
    obtain ⟨_, hmiddle⟩ := h.symbol hid (h'.isLive_of_isLive hgiven hlive)
    exact h'.symbol hmiddle hlive
  expression hid hlive := by
    have hgiven := (lt_nextId_of_node? hid).trans_le h.nextId_le
    obtain ⟨_, hmiddle⟩ := h.expression hid (h'.isLive_of_isLive hgiven hlive)
    exact h'.expression hmiddle hlive

/-- A node which is made in between has a name which had not been given. -/
theorem nextId_le_of_isLive (h : tree.Continues other) (hdead : tree.isLive id = false)
    (hlive : other.isLive id = true) : tree.nextId ≤ id := by
  by_contra hgiven
  rw [h.deleted (Nat.lt_of_not_le hgiven) hdead] at hlive
  cases hlive

end Continues

/-! ## Single changes -/

/-- A new symbol gets a name which has not been given. -/
theorem nextId_lt_pushSymbol (tree : Tree) (stroke : Stroke) :
    tree.nextId < (tree.pushSymbol stroke).nextId :=
  lt_nextId_of_node? node?_pushSymbol_self

/-- Moving a symbol gives no names. -/
@[simp] theorem nextId_moveAfter (tree : Tree) (anchor id expression : NodeId) :
    (tree.moveAfter anchor id expression).nextId = tree.nextId := by
  rw [moveAfter, nextId_attach, released]
  cases tree.parent? id with
  | none => rfl
  | some old => exact nextId_detach _ _ _

/-- Names which have been given denote what they did when a symbol is made. -/
theorem node?_pushSymbol_of_lt {stroke : Stroke} (hgiven : id < tree.nextId) :
    (tree.pushSymbol stroke).node? id = tree.node? id := by
  refine Option.ext fun node => (node?_pushSymbol_iff node id).trans (or_iff_left ?_)
  rintro (⟨rfl, -⟩ | ⟨slot, hslot, hnew⟩)
  · exact Nat.lt_irrefl _ hgiven
  · have hlt := hgiven.trans ((slots_symbol tree.nextId stroke).2.1 slot hslot)
    rcases hnew with ⟨rfl, -⟩ | ⟨rfl, -⟩
    · exact Nat.lt_irrefl _ hlt
    · exact Nat.lt_irrefl _ (Nat.lt_succ_of_lt hlt)

/-- Making a symbol continues a tree. -/
theorem continues_pushSymbol (tree : Tree) (stroke : Stroke) :
    tree.Continues (tree.pushSymbol stroke) where
  nextId_le := (nextId_lt_pushSymbol tree stroke).le
  deleted hgiven hdead := by rwa [isLive, node?_pushSymbol_of_lt hgiven]
  symbol hid _ := ⟨_, node?_pushSymbol_of_node? hid⟩
  expression hid _ := ⟨_, node?_pushSymbol_of_node? hid⟩

/-- A symbol which is moved is the same as before, and so are all other nodes. -/
theorem Moved.continues (h : Moved tree other id) (hnextId : other.nextId = tree.nextId) :
    tree.Continues other where
  nextId_le := hnextId.ge
  deleted _ hdead := by
    rw [Bool.eq_false_iff] at hdead ⊢
    exact fun hlive => hdead (h.isLive_iff.mp hlive)
  symbol hid _ := h.symbol_iff.mpr ⟨_, hid⟩
  expression hid _ := h.expression_iff.mpr ⟨_, hid⟩

/-- What is left when nodes are removed is as before. -/
theorem Pruned.node?_eq (h : Pruned tree other id) {y : NodeId} (hlive : other.isLive y = true) :
    other.node? y = tree.node? y := by
  obtain ⟨node, hnode⟩ := isLive_iff.mp hlive
  rw [hnode, ((h y node).mp hnode).1]

/-- Nodes which are left over continue a tree if no name has been given. -/
theorem Pruned.continues (h : Pruned tree other id) (hnextId : other.nextId = tree.nextId) :
    tree.Continues other where
  nextId_le := hnextId.ge
  deleted _ hdead := by
    rw [Bool.eq_false_iff] at hdead ⊢
    intro hlive
    exact hdead (by rwa [isLive, ← h.node?_eq hlive])
  symbol hid hlive := ⟨_, (h.node?_eq hlive).trans hid⟩
  expression hid hlive := ⟨_, (h.node?_eq hlive).trans hid⟩

/-- Deleting a symbol continues a tree. -/
theorem WellFormed.continues_delete (h : tree.WellFormed) {expression : NodeId}
    {dead : List NodeId} (hdel : tree.deletion id = .ok (expression, dead)) :
    tree.Continues ((tree.detach id expression).killAll dead) := by
  obtain ⟨symbol, owner, items, -, hid, hexpression, hpruned⟩ := h.pruned_of_deletion hdel
  have hmoved := (relisting_detach hid hexpression).toMoved
  exact (hmoved.continues (nextId_detach _ _ _)).trans (hpruned.continues (nextId_killAll _ _))

/-- Taking the marks away continues a tree. -/
theorem continues_unmark (tree : Tree) : tree.Continues tree.unmark where
  nextId_le := by simp [nextId, unmark]
  deleted _ hdead := by rwa [isLive, node?_unmark]
  symbol hid _ := ⟨_, by rwa [node?_unmark]⟩
  expression hid _ := ⟨_, by rwa [node?_unmark]⟩

/-- However a tree is changed, it continues every tree which it has continued so far. -/
theorem lasting_continues (tree : Tree) :
    Lasting fun later => later.WellFormed ∧ tree.Continues later where
  wellFormed h := h.1
  pushSymbol stroke h := ⟨h.1.pushSymbol stroke, h.2.trans (continues_pushSymbol _ stroke)⟩
  moveAfter h hdest := ⟨h.1.moveAfter hdest,
    h.2.trans ((h.1.moved_moveAfter hdest).1.continues (nextId_moveAfter _ _ _ _))⟩
  delete h hdel := ⟨h.1.delete hdel, h.2.trans (h.1.continues_delete hdel)⟩

end Tree

/-! ## Sessions -/

namespace Editor

open Edit

variable {editor next : Editor} {id : NodeId}

/-- The tree of an editor to which a session leads is well-formed. -/
theorem Reachable.wellFormed (h : editor.Reachable) : editor.tree.WellFormed :=
  Tree.Reachable.wellFormed ⟨editor, h, rfl⟩

/-- A session in which nobody starts again continues the tree with which it begins. -/
theorem continues_session (h : editor.tree.WellFormed) {steps : List Step}
    (hsteps : ∀ step ∈ steps, step.clears = false) :
    editor.tree.Continues (editor.session steps).tree := by
  refine ((Tree.lasting_continues editor.tree).session ⟨h, .refl _⟩ hsteps fun _ _ _ => ?_).2
  exact Tree.Lasting.keeps_takeMarked fun tree htree =>
    ⟨htree.1.congr fun id => Tree.node?_unmark tree id, htree.2.trans (Tree.continues_unmark tree)⟩

/-- What is put in is given the next name, and is live afterwards. -/
theorem insert_eq_ok (h : editor.tree.WellFormed) {stroke : Stroke}
    (hrun : (insert stroke).run editor = .ok id next) :
    id = editor.tree.nextId ∧ next.tree.isLive id = true := by
  obtain ⟨place, made, hposition, -⟩ := exists_add_of_run_insert hrun
  obtain ⟨final, hinsert, hfound, -⟩ := exists_insert h hposition stroke
  rw [hrun] at hinsert
  cases hinsert
  exact ⟨rfl, hfound.isLive⟩

/-- A call answers with a node which it has put in, unless it moves the cursor only. The node has a
name which had not been given. -/
theorem reply_eq_ok (h : editor.tree.WellFormed) {call : Call}
    (hcall : ∀ direction, call ≠ .navigate direction)
    (hrun : call.reply.run editor = .ok (.node id) next) :
    id = editor.tree.nextId ∧ next.tree.isLive id = true := by
  have hofExcept : ∀ {stroke : Except Error Stroke},
      (Edit.ofExcept stroke >>= insert).run editor = .ok id next →
        id = editor.tree.nextId ∧ next.tree.isLive id = true := by
    intro stroke hrun
    obtain ⟨stroke, -, hrun⟩ := run_ofExcept_bind_eq_ok.mp hrun
    exact insert_eq_ok h hrun
  cases call with
  | insert stroke =>
    obtain ⟨_, hrun, heq⟩ := run_map_eq_ok.mp hrun
    cases heq
    exact insert_eq_ok h hrun
  | insertChar c =>
    obtain ⟨_, hrun, heq⟩ := run_map_eq_ok.mp hrun
    cases heq
    exact hofExcept hrun
  | insertName name =>
    obtain ⟨_, hrun, heq⟩ := run_map_eq_ok.mp hrun
    cases heq
    exact hofExcept hrun
  | navigate direction => exact absurd rfl (hcall direction)
  | _ =>
    obtain ⟨_, -, heq⟩ := run_map_eq_ok.mp hrun
    cases heq

/-- As long as nobody starts again, the tree of a session continues every tree before it: a name
denotes the same node while this is live, and nothing once it has been deleted. Whatever is created
or put in has a name which had not been given, and so has every node which any step makes, be it for
a formula or for what is collected. -/
theorem Reachable.names_continue (h : editor.Reachable) {steps : List Step}
    (hsteps : ∀ step ∈ steps, step.clears = false) :
    let later := editor.session steps
    editor.tree.Continues later.tree ∧
      (∀ stroke id tree, (Tree.create stroke).run later.tree = .ok id tree →
        later.tree.nextId ≤ id ∧ tree.isLive id = true) ∧
      (∀ (call : Call) id next, (∀ direction, call ≠ .navigate direction) →
        call.reply.run later = .ok (.node id) next →
          later.tree.nextId ≤ id ∧ next.tree.isLive id = true) ∧
      ∀ (step : Step) id, step.clears = false → later.tree.isLive id = false →
        (step.edit.after later).tree.isLive id = true → later.tree.nextId ≤ id := by
  intro later
  have hlater : later.tree.WellFormed := (h.session steps).wellFormed
  refine ⟨continues_session h.wellFormed hsteps, fun stroke id tree hrun => ?_,
    fun call id next hcall hrun => ?_, fun step id hstep hdead hlive => ?_⟩
  · cases hrun
    exact ⟨Nat.le_refl _, Tree.isLive_iff.mpr ⟨_, Tree.node?_pushSymbol_self⟩⟩
  · obtain ⟨rfl, hlive⟩ := reply_eq_ok hlater hcall hrun
    exact ⟨Nat.le_refl _, hlive⟩
  · have hcontinues := continues_session hlater (List.forall_mem_singleton.mpr hstep)
    exact hcontinues.nextId_le_of_isLive hdead hlive

/-- The name of a symbol which was typed and deleted is not given to the next one which is typed. -/
theorem names_continue_retyped :
    let editor := session [.own (.insertChar 'x'), .own .backspace] (.new {})
    let steps := [.own (.insertChar 'y')]
    editor.Reachable ∧ (∀ step ∈ steps, step.clears = false) ∧ 2 < editor.tree.nextId ∧
      editor.tree.isLive 2 = false ∧ (editor.session steps).tree.isLive 2 = false ∧
      (editor.session steps).tree.isLive 3 = true ∧ editor.tree.nextId ≤ 3 := by
  intro editor steps
  have hreach : editor.Reachable := (Reachable.new {}).session _
  have hsteps : ∀ step ∈ steps, step.clears = false := List.forall_mem_singleton.mpr rfl
  have hgiven : 2 < editor.tree.nextId := by decide +kernel
  have hdead : editor.tree.isLive 2 = false := by decide +kernel
  have hlive : (editor.session steps).tree.isLive 3 = true := by decide +kernel
  refine ⟨hreach, hsteps, hgiven, hdead, ?_, hlive, ?_⟩
  · exact (Reachable.names_continue hreach hsteps).1.deleted hgiven hdead
  · obtain ⟨-, -, -, hnew⟩ := Reachable.names_continue hreach (List.forall_mem_nil _)
    exact hnew (.own (.insertChar 'y')) 3 rfl (by decide +kernel) hlive

end Editor

end FormulaEditor
