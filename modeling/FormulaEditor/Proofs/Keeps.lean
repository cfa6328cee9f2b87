import FormulaEditor.Edit

/-!
# What an edit keeps

An edit keeps a property of states if the property holds afterwards whenever it held before,
whether the edit succeeds or fails (`Edit.Keeps`). It restores a property if this is so whenever it
succeeds (`Edit.Restores`), and it is atomic in a state if the state is the same after a failure
(`Edit.AtomicAt`). Edits which keep or restore a property can be put together (`Edit.Composes`).
-/

set_option autoImplicit false

namespace FormulaEditor.Edit

variable {σ α β : Type}

/-- The state after an edit, which may have succeeded or failed. -/
def after (edit : Edit σ α) (state : σ) : σ :=
  match edit.run state with
  | .ok _ state => state
  | .error _ state => state

/-- After a success the state is the one to which the edit leads. -/
theorem after_of_ok {edit : Edit σ α} {state next : σ} {a : α}
    (h : edit.run state = .ok a next) : edit.after state = next := by
  unfold Edit.after
  rw [h]

/-- After a failure the state is the one in which the edit has failed. -/
theorem after_of_error {edit : Edit σ α} {state next : σ} {e : Error}
    (h : edit.run state = .error e next) : edit.after state = next := by
  unfold Edit.after
  rw [h]

/-- The state after an edit does not depend on what is made of the answer. -/
theorem after_map (edit : Edit σ α) (f : α → β) (state : σ) :
    (f <$> edit).after state = edit.after state := by
  unfold Edit.after
  rw [map_eq_pure_bind, EStateM.run_bind]
  cases edit.run state <;> rfl

/-- An edit keeps a property if it never leads from a state with the property to one without. -/
def Keeps (P : σ → Prop) (edit : Edit σ α) : Prop :=
  ∀ state, P state → P (edit.after state)

namespace Keeps

variable {P : σ → Prop}

/-- Doing nothing keeps every property. -/
theorem pure (a : α) : Keeps P (Pure.pure a : Edit σ α) :=
  fun _ h => h

/-- An answer which is given keeps every property. -/
theorem ofExcept (answer : Except Error α) : Keeps P (Edit.ofExcept answer) := by
  intro state h
  unfold Edit.after
  rw [run_ofExcept]
  cases answer <;> exact h

/-- Asking a question about the state keeps every property. -/
theorem look (question : σ → Except Error α) : Keeps P (Edit.look question) := by
  intro state h
  unfold Edit.after
  rw [run_look]
  cases question state <;> exact h

/-- Reading the state keeps every property. -/
theorem get : Keeps P (MonadState.get : Edit σ σ) :=
  fun _ h => h

/-- A failure keeps every property. -/
theorem throw (error : Error) : Keeps P (MonadExcept.throw error : Edit σ α) :=
  fun _ h => h

/-- A change keeps the properties which hold for what it makes of a state with them. -/
theorem modify {change : σ → σ} (h : ∀ state, P state → P (change state)) :
    Keeps P (modify change : Edit σ Unit) :=
  h

/-- Two edits one after the other keep what both of them keep. -/
theorem bind {edit : Edit σ α} {next : α → Edit σ β} (h : Keeps P edit)
    (hnext : ∀ a, Keeps P (next a)) : Keeps P (edit >>= next) := by
  intro state hstate
  have hedit := h state hstate
  unfold Edit.after at hedit ⊢
  rw [EStateM.run_bind]
  cases hrun : edit.run state with
  | ok a state' =>
    rw [hrun] at hedit
    exact hnext a state' hedit
  | error e state' =>
    rw [hrun] at hedit
    exact hedit

/-- What is made of the answer of an edit has no influence on what it keeps. -/
theorem map {edit : Edit σ α} (f : α → β) (h : Keeps P edit) : Keeps P (f <$> edit) := by
  rw [map_eq_pure_bind]
  exact h.bind fun a => pure (f a)

/-- An edit keeps a property if in every state with it the edit succeeds and keeps it. -/
theorem of_exists_run {edit : Edit σ α}
    (h : ∀ state, P state → ∃ a next, edit.run state = .ok a next ∧ P next) : Keeps P edit := by
  intro state hstate
  obtain ⟨a, next, hrun, hnext⟩ := h state hstate
  rwa [after_of_ok hrun]

/-- After a success of an edit which keeps a property the property still holds. -/
theorem of_run {edit : Edit σ α} (h : Keeps P edit) {state next : σ} {a : α} (hstate : P state)
    (hrun : edit.run state = .ok a next) : P next :=
  after_of_ok hrun ▸ h state hstate

end Keeps

/-! ## Properties which a success restores -/

/-- An edit restores a property if it succeeds only with the property, from states with it. On the
way the property may not hold. -/
def Restores (P : σ → Prop) (edit : Edit σ α) : Prop :=
  ∀ state a next, P state → edit.run state = .ok a next → P next

/-- A sequence of two edits succeeds if both do. -/
theorem run_bind_eq_ok {edit : Edit σ α} {next : α → Edit σ β} {state final : σ} {b : β} :
    (edit >>= next).run state = .ok b final ↔
      ∃ a middle, edit.run state = .ok a middle ∧ (next a).run middle = .ok b final := by
  rw [EStateM.run_bind]
  cases edit.run state with
  | ok a middle =>
    refine ⟨fun h => ⟨a, middle, rfl, h⟩, ?_⟩
    rintro ⟨_, _, ⟨⟩, h⟩
    exact h
  | error e middle =>
    refine ⟨nofun, ?_⟩
    rintro ⟨_, _, ⟨⟩, -⟩

/-- An edit whose answer is transformed succeeds with what is made of its answer. -/
theorem run_map_eq_ok {edit : Edit σ α} {f : α → β} {state final : σ} {b : β} :
    (f <$> edit).run state = .ok b final ↔ ∃ a, edit.run state = .ok a final ∧ f a = b := by
  rw [map_eq_pure_bind, run_bind_eq_ok]
  constructor
  · rintro ⟨a, middle, hedit, hreturn⟩
    cases hreturn
    exact ⟨a, hedit, rfl⟩
  · rintro ⟨a, hedit, rfl⟩
    exact ⟨a, final, hedit, rfl⟩

/-- What follows a given answer or a question starts from the same state. -/
theorem run_ofExcept_bind_eq_ok {answer : Except Error α} {next : α → Edit σ β} {state final : σ}
    {b : β} : (ofExcept answer >>= next).run state = .ok b final ↔
      ∃ a, answer = .ok a ∧ (next a).run state = .ok b final := by
  rw [EStateM.run_bind, run_ofExcept]
  cases answer <;> simp

/-- What comes after a question succeeds where there is an answer and it goes on to succeed with it.
-/
theorem run_look_bind_eq_ok {question : σ → Except Error α} {next : α → Edit σ β} {state final : σ}
    {b : β} : (look question >>= next).run state = .ok b final ↔
      ∃ a, question state = .ok a ∧ (next a).run state = .ok b final :=
  run_ofExcept_bind_eq_ok

namespace Restores

variable {P : σ → Prop}

/-- What keeps a property restores it. -/
theorem of_keeps {edit : Edit σ α} (h : Keeps P edit) : Restores P edit :=
  fun _ _ _ hstate hrun => h.of_run hstate hrun

/-- Two edits one after the other restore what both of them restore. -/
theorem bind {edit : Edit σ α} {next : α → Edit σ β} (h : Restores P edit)
    (hnext : ∀ a, Restores P (next a)) : Restores P (edit >>= next) := by
  intro state b final hstate hrun
  obtain ⟨a, middle, hedit, hrest⟩ := run_bind_eq_ok.mp hrun
  exact hnext a middle b final (h state a middle hstate hedit) hrest

end Restores

/-! ## Properties of edits -/

/-- A property of edits which questions have, and which a sequence of edits has if each of them has
it. -/
structure Composes (Q : (α : Type) → Edit σ α → Prop) : Prop where
  pure {α : Type} (a : α) : Q α (Pure.pure a)
  ofExcept {α : Type} (answer : Except Error α) : Q α (Edit.ofExcept answer)
  look {α : Type} (question : σ → Except Error α) : Q α (Edit.look question)
  bind {α β : Type} {edit : Edit σ α} {next : α → Edit σ β} :
    Q α edit → (∀ a, Q β (next a)) → Q β (edit >>= next)

/-- Keeping a property goes through the composition of edits. -/
theorem composes_keeps (P : σ → Prop) : Composes fun α (edit : Edit σ α) => Keeps P edit :=
  ⟨Keeps.pure, Keeps.ofExcept, Keeps.look, Keeps.bind⟩

/-- Restoring a property goes through the composition of edits. -/
theorem composes_restores (P : σ → Prop) : Composes fun α (edit : Edit σ α) => Restores P edit :=
  ⟨fun a => .of_keeps (Keeps.pure a), fun answer => .of_keeps (Keeps.ofExcept answer),
    fun question => .of_keeps (Keeps.look question), Restores.bind⟩

/-- A property of edits which goes through their composition goes through loops. -/
theorem Composes.forM {Q : (α : Type) → Edit σ α → Prop} (h : Composes Q)
    {act : α → Edit σ PUnit} (hact : ∀ a, Q _ (act a)) : (list : List α) → Q _ (list.forM act)
  | [] => h.pure _
  | a :: list => h.bind (hact a) fun _ => h.forM hact list

/-! ## Edits which fail without a trace -/

/-- After a failure the state is as it was. -/
def AtomicAt (edit : Edit σ α) (state : σ) : Prop :=
  ∀ error next, edit.run state = .error error next → next = state

namespace AtomicAt

variable {edit : Edit σ α} {state : σ}

/-- An edit is atomic in a state in which it fails without a change. -/
theorem of_run_error {e : Error} (h : edit.run state = .error e state) : AtomicAt edit state := by
  rintro _ _ hrun
  rw [h] at hrun
  cases hrun
  rfl

/-- An edit is atomic in a state in which it succeeds. -/
theorem of_run_ok {a : α} {next : σ} (h : edit.run state = .ok a next) : AtomicAt edit state := by
  intro error next' hrun
  rw [h] at hrun
  cases hrun

/-- What is made of the answer of an edit has no influence on whether it is atomic. -/
theorem map (f : α → β) (h : AtomicAt edit state) : AtomicAt (f <$> edit) state := by
  intro error next hrun
  rw [map_eq_pure_bind, EStateM.run_bind] at hrun
  cases hedit : edit.run state with
  | ok a middle =>
    rw [hedit] at hrun
    cases hrun
  | error e middle =>
    rw [hedit] at hrun
    cases hrun
    exact h _ _ hedit

/-- After reading the state an edit is as atomic as what comes then. -/
theorem get_bind {next : σ → Edit σ β} (h : AtomicAt (next state) state) :
    AtomicAt (MonadState.get >>= next) state :=
  h

/-- What follows a question starts from the same state. -/
theorem ofExcept_bind {answer : Except Error α} {next : α → Edit σ β}
    (h : ∀ a, answer = .ok a → AtomicAt (next a) state) :
    AtomicAt (Edit.ofExcept answer >>= next) state := by
  intro error final hrun
  rw [EStateM.run_bind, run_ofExcept] at hrun
  cases answer with
  | ok a => exact h a rfl error final hrun
  | error e =>
    cases hrun
    rfl

/-- After a question an edit is as atomic as what comes after the answer. -/
theorem look_bind {question : σ → Except Error α} {next : α → Edit σ β}
    (h : ∀ a, question state = .ok a → AtomicAt (next a) state) :
    AtomicAt (Edit.look question >>= next) state := by
  intro error final hrun
  rw [EStateM.run_bind, run_look] at hrun
  cases hanswer : question state with
  | ok a =>
    rw [hanswer] at hrun
    exact h a hanswer error final hrun
  | error e =>
    rw [hanswer] at hrun
    cases hrun
    rfl

end AtomicAt

end FormulaEditor.Edit
