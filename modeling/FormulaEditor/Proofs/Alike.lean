import FormulaEditor.Proofs.Sealed
import FormulaEditor.Proofs.Tree.Place

/-!
# Editors which look alike

Two editors look alike if they have the same settings, show the same line, and have their cursors at
the same place (`Editor.Alike`). What becomes of an editor by its own calls depends on nothing else:
however two editors have come to look alike, the same calls have the same outcomes in both, and leave
them looking alike (`Editor.Alike.indistinguishable`). The names of the nodes and the order in which
they were made do not matter.
-/

set_option autoImplicit false

namespace FormulaEditor

open Edit

/-! ## Calls with their answers -/

/-- What a call answers. -/
inductive Editor.Reply
  | done
  | node (id : NodeId)
  | flag (answer : Bool)

/-- The same answer, or names which correspond. -/
inductive Editor.Reply.Corresponds (R : NodeId → NodeId → Prop) : Reply → Reply → Prop
  | done : Corresponds R .done .done
  | node {x y : NodeId} (h : R x y) : Corresponds R (.node x) (.node y)
  | flag (answer : Bool) : Corresponds R (.flag answer) (.flag answer)

/-- The edit which a call makes, with what it answers. -/
def Editor.Call.reply : Editor.Call → Edit Editor Editor.Reply
  | insert stroke => .node <$> Editor.insert stroke
  | insertChar c => .node <$> Editor.insertChar c
  | insertName name => .node <$> Editor.insertName name
  | navigate direction => .node <$> Editor.navigate direction
  | backspace => .flag <$> Editor.backspace
  | clear => (fun _ => .done) <$> Editor.clear
  | setCursor id => (fun _ => .done) <$> Editor.setCursor id
  | insertText text => (fun _ => .done) <$> Editor.insertText text

/-- The editor after a sequence of calls, each of which may have failed. -/
def Editor.run (calls : List Editor.Call) (editor : Editor) : Editor :=
  calls.foldl (fun editor call => call.edit.after editor) editor

/-- Whether a call has no name of a node as its argument. -/
def Editor.Call.Nameless (call : Editor.Call) : Prop :=
  ∀ id, call ≠ .setCursor id

/-- Two editors have the same settings, show the same line, and have their cursors at the same
place. -/
structure Editor.Alike (a b : Editor) : Prop where
  settings : a.settings = b.settings
  line : a.tree.line Tree.root = b.tree.line Tree.root
  cursor : Tree.SamePlace a.tree b.tree a.cursor b.cursor

namespace Editor

/-- An editor which only its own calls have changed is still such an editor after more of them. -/
theorem Sealed.run {editor : Editor} (h : editor.Sealed) (calls : List Call) :
    (editor.run calls).Sealed := by
  induction calls generalizing editor with
  | nil => exact h
  | cons call calls ih => exact ih (h.call call)

/-- A call leaves the same editor, whatever is answered to it. -/
theorem after_reply (call : Call) (editor : Editor) :
    call.reply.after editor = call.edit.after editor := by
  cases call with
  | clear => exact after_map _ _ _
  | setCursor id => exact after_map _ _ _
  | insertText text => exact after_map _ _ _
  | _ => exact (after_map _ _ _).trans (after_map _ _ _).symm

/-! ## Editors which differ only in names -/

/-- Two editors differ only in names of nodes. -/
structure Twins (R : NodeId → NodeId → Prop) (a b : Editor) : Prop where
  tree : Tree.Twins R a.tree b.tree
  cursor : R a.cursor b.cursor
  settings : a.settings = b.settings

variable {R : NodeId → NodeId → Prop} {x y : NodeId}

/-- What two edits do alike to trees which are twins they do alike to editors which are twins. -/
theorem parallel_onTree {α β : Type} {S : α → β → Prop} {edit : Edit Tree α} {other : Edit Tree β}
    (h : Parallel (Tree.Twins R) S edit other) :
    Parallel (Twins R) S (onTree edit) (onTree other) := by
  intro a b hab
  have hrun := h _ _ hab.tree
  rw [run_onTree, run_onTree]
  generalize edit.run a.tree = outcome, other.run b.tree = outcome' at hrun ⊢
  cases hrun with
  | ok hanswer htree => exact .ok hanswer ⟨htree, hab.cursor, hab.settings⟩
  | error e htree => exact .error e ⟨htree, hab.cursor, hab.settings⟩

/-- Moving the cursors of twins to nodes at the same place leaves twins. -/
theorem parallel_moveTo (hxy : R x y) : Parallel (Twins R) Eq (moveTo x) (moveTo y) :=
  .modify fun _ _ h => ⟨h.tree, hxy, h.settings⟩

/-- Typing the same stroke into twins inserts symbols at the same place, and leaves twins. -/
theorem parallel_insert (stroke : Stroke) :
    Parallel (Twins R) R (insert stroke) (insert stroke) := by
  unfold insert
  refine Parallel.get.bind fun a b hab => Parallel.get.bind fun c d hcd => ?_
  refine (Parallel.look fun _ _ h => h.tree.agree_position hab.cursor).bind fun _ _ _ => ?_
  refine (parallel_onTree (Tree.parallel_add hab.cursor stroke)).bind fun id id' hid => ?_
  refine (Parallel.look fun _ _ h => h.tree.agree_symbol hid).bind fun symbol symbol' hsymbol => ?_
  have hfinish : ∀ collected collected' : Bool, collected = collected' → Parallel (Twins R) R
      (do
        moveTo (← look fun editor => continuation id symbol collected editor.tree)
        return id)
      (do
        moveTo (← look fun editor => continuation id' symbol' collected' editor.tree)
        return id') := by
    rintro collected _ rfl
    exact (Parallel.look fun _ _ h => h.tree.agree_continuation hid hsymbol collected).bind
      fun _ _ hnext => (parallel_moveTo hnext).bind fun _ _ _ => .pure hid
  refine Parallel.ite (by rw [hcd.settings]) ?_ ?_
  · exact (parallel_onTree (Tree.parallel_fillNumerator hid)).bind hfinish
  · exact (Parallel.pure rfl).bind hfinish

/-- Moving the cursors of twins in the same direction leads to the same place. -/
theorem parallel_navigate (direction : Direction) :
    Parallel (Twins R) R (navigate direction) (navigate direction) :=
  (Parallel.look fun _ _ h => h.tree.agree_navigate h.cursor direction).bind fun _ _ hid =>
    (parallel_moveTo hid).bind fun _ _ _ => .pure hid

/-- Backspace deletes alike in twins. -/
theorem parallel_backspace : Parallel (Twins R) Eq backspace backspace := by
  refine Parallel.get.bind fun a b hab =>
    (Parallel.look fun _ _ h => h.tree.agree_leftNeighbour hab.cursor).bind fun _ _ hleft => ?_
  cases hleft with
  | none => exact .pure rfl
  | some hprevious =>
    exact (parallel_moveTo hprevious).bind fun _ _ _ =>
      (parallel_onTree (Tree.parallel_delete hab.cursor)).bind fun _ _ _ => .pure rfl

/-- A text is put alike into twins. -/
theorem parallel_insertText (text : String) :
    Parallel (Twins R) Eq (insertText text) (insertText text) := by
  refine (Parallel.ofExcept (.refl _)).bind fun formula _ hformula => ?_
  subst hformula
  exact Parallel.get.bind fun a b hab =>
    (parallel_onTree (Tree.parallel_typeset hab.cursor formula)).bind fun _ _ hlast =>
      parallel_moveTo hlast

/-- What an input stands for is put in. -/
theorem parallel_ofExcept_insert (stroke : Except Error Stroke) :
    Parallel (Twins R) R (Edit.ofExcept stroke >>= insert) (Edit.ofExcept stroke >>= insert) := by
  refine (Parallel.ofExcept (.refl stroke)).bind fun stroke _ hstroke => ?_
  subst hstroke
  exact parallel_insert stroke

/-- Calls without names as arguments have corresponding answers. A clearing is left out: it gives
names anew. -/
theorem parallel_reply {call : Call} (hcall : call.Nameless) (hclear : call ≠ .clear) :
    Parallel (Twins R) (Reply.Corresponds R) call.reply call.reply := by
  have hnode : ∀ x y, R x y → Reply.Corresponds R (.node x) (.node y) := fun _ _ h => .node h
  cases call with
  | insert stroke => exact (parallel_insert stroke).map hnode
  | insertChar c => exact (parallel_ofExcept_insert (Stroke.ofChar c)).map hnode
  | insertName name => exact (parallel_ofExcept_insert (Stroke.ofName name)).map hnode
  | navigate direction => exact (parallel_navigate direction).map hnode
  | backspace => exact parallel_backspace.map fun answer _ h => h ▸ .flag answer
  | clear => exact absurd rfl hclear
  | setCursor id => exact absurd rfl (hcall id)
  | insertText text => exact (parallel_insertText text).map fun _ _ _ => .done

/-! ## From names to what is seen -/

/-- The node which a call answers with is a symbol afterwards. -/
theorem Sound.isSymbol_of_reply {editor next : Editor} (h : editor.Sound) {call : Call}
    {id : NodeId} (hrun : call.reply.run editor = .ok (.node id) next) : next.tree.IsSymbol id := by
  have hinsert : ∀ {stroke id next}, (insert stroke).run editor = .ok id next →
      next.tree.IsSymbol id := by
    intro stroke id next hrun
    obtain ⟨_, _, hrun', hid, -⟩ := h.run_insert stroke
    rw [hrun] at hrun'
    cases hrun'
    exact hid
  have hofExcept : ∀ {stroke : Except Error Stroke} {id next},
      (Edit.ofExcept stroke >>= insert).run editor = .ok id next → next.tree.IsSymbol id := by
    intro stroke id next hrun
    obtain ⟨stroke, -, hrun⟩ := run_ofExcept_bind_eq_ok.mp hrun
    exact hinsert hrun
  cases call with
  | insert stroke =>
    obtain ⟨_, hrun, heq⟩ := run_map_eq_ok.mp hrun
    cases heq
    exact hinsert hrun
  | insertChar c =>
    obtain ⟨_, hrun, heq⟩ := run_map_eq_ok.mp hrun
    cases heq
    exact hofExcept hrun
  | insertName name =>
    obtain ⟨_, hrun, heq⟩ := run_map_eq_ok.mp hrun
    cases heq
    exact hofExcept hrun
  | navigate direction =>
    obtain ⟨_, hrun, heq⟩ := run_map_eq_ok.mp hrun
    cases heq
    obtain ⟨_, _, hrun', hid, -⟩ := h.run_navigate direction
    rw [hrun] at hrun'
    cases hrun'
    exact hid
  | _ =>
    obtain ⟨_, -, heq⟩ := run_map_eq_ok.mp hrun
    cases heq

/-- Editors which differ only in names look alike. -/
theorem Twins.alike {a b : Editor} (h : Twins R a b) (ha : a.Sound) : Alike a b where
  settings := h.settings
  line := h.tree.line_eq h.tree.root
  cursor := h.tree.samePlace ha.whole ha.cursor.isLive h.cursor

namespace Alike

variable {a b : Editor}

/-- Editors which look alike differ only in names. -/
theorem twins (ha : a.Sound) (hb : b.Sound) (h : Alike a b) :
    Twins (Tree.Corresponding a.tree b.tree) a b where
  tree := Tree.twins_of_line_eq ha.whole.wellFormed hb.whole.wellFormed h.line
  cursor := Or.inl h.cursor
  settings := h.settings

/-- A sound editor is like itself. -/
theorem refl (ha : a.Sound) : Alike a a where
  settings := rfl
  line := rfl
  cursor := by
    obtain ⟨place, hplace⟩ := ha.whole.exists_place ha.cursor.isLive
    exact ⟨place, hplace, hplace⟩

/-- What can be asked of editors which look alike has the same answer in both. -/
theorem value_eq (ha : a.Sound) (hb : b.Sound) (h : Alike a b) :
    a.precis = b.precis ∧ a.formula = b.formula ∧ a.value = b.value := by
  have htwins := (h.twins ha hb).tree
  have hformula : a.formula = b.formula := htwins.formula_eq htwins.root
  refine ⟨(htwins.agree_precis htwins.root).eq, hformula, ?_⟩
  rw [Editor.value, Editor.value, hformula, h.settings]

/-- A call has the same outcome in two editors which look alike, and they look alike afterwards. -/
theorem step (ha : a.Sound) (hb : b.Sound) (h : Alike a b) {call : Call} (hcall : call.Nameless) :
    Matching Alike
      (Reply.Corresponds (Tree.SamePlace (call.edit.after a).tree (call.edit.after b).tree))
      (call.reply.run a) (call.reply.run b) := by
  have hafter : (call.reply.after a).Sound := by
    rw [after_reply]
    exact Sound.keeps_call call a ha
  rw [← after_reply, ← after_reply]
  by_cases hclear : call = .clear
  · subst hclear
    refine .ok .done ?_
    show Alike ⟨Tree.empty.mark Tree.root, home, a.settings⟩
      ⟨Tree.empty.mark Tree.root, home, b.settings⟩
    rw [h.settings]
    exact refl (sound_clear b.settings)
  · have hrun := parallel_reply hcall hclear a b (h.twins ha hb)
    cases hleft : call.reply.run a with
    | ok answer next =>
      rw [after_of_ok hleft] at hafter ⊢
      rw [hleft] at hrun
      cases hright : call.reply.run b with
      | ok answer' next' =>
        rw [after_of_ok hright]
        rw [hright] at hrun
        cases hrun with
        | ok hanswer htwins =>
          refine .ok ?_ (htwins.alike hafter)
          cases hanswer with
          | done => exact .done
          | flag answer => exact .flag answer
          | node hxy =>
            exact .node (htwins.tree.samePlace hafter.whole
              (ha.isSymbol_of_reply hleft).isLive hxy)
      | error e next' =>
        rw [hright] at hrun
        cases hrun
    | error e next =>
      rw [after_of_error hleft] at hafter
      rw [hleft] at hrun
      generalize call.reply.run b = outcome at hrun ⊢
      cases hrun with
      | error _ htwins => exact .error e (htwins.alike hafter)

/-- However two editors have come to look alike, as long as only their own calls change them, any
further calls without names of nodes as arguments leave them looking alike. After each of these calls
both have the same precis, formula and value, and the next call has the same outcome in both: the
same error, the same answer, or nodes at the same place. -/
theorem indistinguishable (ha : a.Sealed) (hb : b.Sealed) (h : Alike a b) (calls : List Call)
    (hcalls : ∀ call ∈ calls, call.Nameless) :
    Alike (a.run calls) (b.run calls) ∧ (a.run calls).precis = (b.run calls).precis ∧
      (a.run calls).formula = (b.run calls).formula ∧
      (a.run calls).value = (b.run calls).value ∧
      ∀ call : Call, call.Nameless → Matching Alike
        (Reply.Corresponds (Tree.SamePlace (a.run (calls ++ [call])).tree
          (b.run (calls ++ [call])).tree))
        (call.reply.run (a.run calls)) (call.reply.run (b.run calls)) := by
  induction calls generalizing a b with
  | nil =>
    obtain ⟨hprecis, hformula, hvalue⟩ := h.value_eq ha.sound hb.sound
    exact ⟨h, hprecis, hformula, hvalue, fun call hcall => h.step ha.sound hb.sound hcall⟩
  | cons call calls ih =>
    have hstep := h.step ha.sound hb.sound (hcalls call List.mem_cons_self)
    have hnext : Alike (call.edit.after a) (call.edit.after b) := by
      rw [← after_reply, ← after_reply]
      exact hstep.after
    exact ih (ha.call call) (hb.call call) hnext fun other hother =>
      hcalls other (List.mem_cons_of_mem _ hother)

/-- After `y` has been typed and deleted again, an editor with `x` in it looks like one in which only
`x` has been typed, though the nodes have other names. So typing goes on in the same way in both. -/
theorem indistinguishable_retyped :
    let a := Editor.run [.insertChar 'x'] (.new {})
    let b := Editor.run [.insertChar 'y', .backspace, .insertChar 'x'] (.new {})
    a.Sealed ∧ b.Sealed ∧ Alike a b ∧ a.cursor ≠ b.cursor ∧
      let keys := [.insertChar '/', .insertChar '2', .navigate .left, .backspace]
      (∀ call ∈ keys, call.Nameless) ∧ (a.run keys).value = (b.run keys).value := by
  intro a b
  have ha : a.Sealed := (Sealed.new {}).run _
  have hb : b.Sealed := (Sealed.new {}).run _
  have hline : ∀ {editor : Editor} {id : NodeId}, editor.Sealed →
      editor.tree.node? Tree.root = some ⟨none, .expression [home, id]⟩ →
      editor.tree.node? home = some ⟨some Tree.root, .symbol .start⟩ →
      editor.tree.node? id = some ⟨some Tree.root, .symbol (.atom 'x')⟩ →
      editor.tree.line Tree.root = [.atom 'x'] := by
    intro editor id h hroot hstart hid
    rw [h.sound.whole.wellFormed.line_eq hroot, List.filterMap_cons, Tree.glyph?_of_node? hstart]
    simp [Tree.glyph?_of_node? hid, Symbol.glyph?]
  have halike : Alike a b := by
    refine ⟨by decide +kernel, ?_, [1], by decide +kernel, by decide +kernel⟩
    have hleft : a.tree.line Tree.root = [.atom 'x'] :=
      @hline a 2 ha (by decide +kernel) (by decide +kernel) (by decide +kernel)
    have hright : b.tree.line Tree.root = [.atom 'x'] :=
      @hline b 3 hb (by decide +kernel) (by decide +kernel) (by decide +kernel)
    rw [hleft, hright]
  refine ⟨ha, hb, halike, by decide +kernel, ?_⟩
  intro keys
  have hkeys : ∀ call ∈ keys, call.Nameless := by
    simp [keys, Call.Nameless]
  obtain ⟨-, -, -, hvalue, -⟩ := indistinguishable ha hb halike keys hkeys
  exact ⟨hkeys, hvalue⟩

end Alike

end Editor

end FormulaEditor
