import FormulaEditor.Proofs.Checked
import FormulaEditor.Proofs.Keeps

/-!
# Guarded edits

A guarded edit changes a state with every access on the way checked. From a state it follows an edit
if it has the same outcome there: the same answer and the same state after it, or the same error
(`Guarded.Follows`). Then no check fails. Guarded edits which follow edits can be put together.
-/

set_option autoImplicit false

namespace FormulaEditor

/-- A change of a state in which every access is checked. -/
abbrev Guarded (σ α : Type) := EStateM Halt σ α

namespace Guarded

variable {σ α β γ : Type}

/-- An edit in which there is nothing to check. -/
def plain (edit : Edit σ α) : Guarded σ α := fun state =>
  match edit.run state with
  | .ok a next => .ok a next
  | .error error next => .error (.refused error) next

/-- Answers or stops without changing the state. -/
def check (outcome : Checked α) : Guarded σ α :=
  match outcome with
  | .ok a => pure a
  | .error halt => throw halt

/-- Asks a question about the state. -/
def look (question : σ → Checked α) : Guarded σ α := do
  check (question (← get))

/-- An edit in which there is nothing to check runs as it does without checks. -/
theorem run_plain (edit : Edit σ α) (state : σ) :
    (plain edit).run state = match edit.run state with
      | .ok a next => .ok a next
      | .error error next => .error (.refused error) next :=
  rfl

/-- What has been checked is answered without a change of the state. -/
@[simp] theorem run_check (outcome : Checked α) (state : σ) :
    (check outcome).run state = match outcome with
      | .ok a => .ok a state
      | .error halt => .error halt state := by
  cases outcome <;> rfl

/-- A question about the state is answered from the state and leaves it as it is. -/
@[simp] theorem run_look (question : σ → Checked α) (state : σ) :
    (look question).run state = match question state with
      | .ok a => .ok a state
      | .error halt => .error halt state :=
  run_check (question state) state

/-- From a state a guarded edit has the outcome of an edit. -/
def Follows (guarded : Guarded σ α) (edit : Edit σ α) (state : σ) : Prop :=
  guarded.run state = (plain edit).run state

namespace Follows

variable {guarded : Guarded σ α} {edit : Edit σ α} {state : σ}

/-- An edit in which there is nothing to check follows itself. -/
theorem plain (edit : Edit σ α) (state : σ) : Follows (plain edit) edit state :=
  rfl

/-- Doing nothing follows doing nothing. -/
theorem pure (a : α) (state : σ) : Follows (Pure.pure a) (Pure.pure a) state :=
  rfl

/-- Where an edit succeeds, a guarded edit which follows it has the same answer and the same state.
-/
theorem run_of_ok (h : Follows guarded edit state) {a : α} {next : σ}
    (hrun : edit.run state = .ok a next) : guarded.run state = .ok a next := by
  rw [h, run_plain, hrun]

/-- Where an edit fails, a guarded edit which follows it is refused with the same error. -/
theorem run_of_error (h : Follows guarded edit state) {error : Error} {next : σ}
    (hrun : edit.run state = .error error next) :
    guarded.run state = .error (.refused error) next := by
  rw [h, run_plain, hrun]

/-- What comes after an edit has to be followed where the edit succeeds. -/
theorem bind (h : Follows guarded edit state) {next : α → Guarded σ β} {plainNext : α → Edit σ β}
    (hnext : ∀ a middle, edit.run state = .ok a middle →
      Follows (next a) (plainNext a) middle) :
    Follows (guarded >>= next) (edit >>= plainNext) state := by
  rw [Follows, run_plain, EStateM.run_bind, EStateM.run_bind]
  cases hrun : edit.run state with
  | ok a middle =>
    rw [h.run_of_ok hrun]
    exact hnext a middle hrun
  | error error middle => rw [h.run_of_error hrun]

/-- What is made of the answers of an edit is made of those of a guarded edit which follows it. -/
theorem map (f : α → β) (h : Follows guarded edit state) :
    Follows (f <$> guarded) (f <$> edit) state := by
  rw [map_eq_pure_bind, map_eq_pure_bind]
  exact h.bind fun _ _ _ => pure _ _

/-- The answer to a question may be put in another form. What comes after it has to be followed
where there is an answer. -/
theorem ask_map {question : σ → Checked β} {plainQuestion : σ → Except Error α} {form : α → β}
    {next : β → Guarded σ γ} {plainNext : α → Edit σ γ}
    (h : question state = (Checked.answer (plainQuestion state)).map form)
    (hnext : ∀ a, plainQuestion state = .ok a → Follows (next (form a)) (plainNext a) state) :
    Follows (Guarded.look question >>= next) (Edit.look plainQuestion >>= plainNext) state := by
  rw [Follows, run_plain, EStateM.run_bind, EStateM.run_bind, run_look, Edit.run_look, h]
  cases hquestion : plainQuestion state with
  | error error => rfl
  | ok a => exact hnext a hquestion

/-- What comes after a question has to be followed where there is an answer. -/
theorem ask_of_eq {question : σ → Checked α} {plainQuestion : σ → Except Error α}
    {next : α → Guarded σ β} {plainNext : α → Edit σ β}
    (h : question state = Checked.answer (plainQuestion state))
    (hnext : ∀ a, plainQuestion state = .ok a → Follows (next a) (plainNext a) state) :
    Follows (Guarded.look question >>= next) (Edit.look plainQuestion >>= plainNext) state :=
  ask_map (h.trans (congrFun Except.map_id _).symm) hnext

/-- A question in which there is nothing to check has the same answer. -/
theorem ask {question : σ → Except Error α} {next : α → Guarded σ β} {plainNext : α → Edit σ β}
    (hnext : ∀ a, question state = .ok a → Follows (next a) (plainNext a) state) :
    Follows (Guarded.look (fun state => Checked.answer (question state)) >>= next)
      (Edit.look question >>= plainNext) state :=
  ask_of_eq rfl hnext

/-- What comes after an answer which is given has to be followed if there is one. -/
theorem check_bind {outcome : Except Error α} {next : α → Guarded σ β} {plainNext : α → Edit σ β}
    (hnext : ∀ a, Follows (next a) (plainNext a) state) :
    Follows (check (Checked.answer outcome) >>= next) (Edit.ofExcept outcome >>= plainNext) state :=
  ask fun a (_ : (fun _ => outcome) state = .ok a) => hnext a

/-- A loop is followed if every round is, in each state with a property which the rounds keep. -/
theorem forM {P : σ → Prop} {act : α → Guarded σ PUnit} {plainAct : α → Edit σ PUnit}
    (h : ∀ a state, P state → Follows (act a) (plainAct a) state)
    (hkeeps : ∀ a, Edit.Keeps P (plainAct a)) (list : List α) {state : σ} (hstate : P state) :
    Follows (list.forM act) (list.forM plainAct) state := by
  induction list generalizing state with
  | nil => exact pure _ _
  | cons a list ih =>
    show Follows (act a >>= fun _ => list.forM act) (plainAct a >>= fun _ => list.forM plainAct) _
    exact (h a state hstate).bind fun _ _ hrun => ih ((hkeeps a).of_run hstate hrun)

end Follows

end Guarded

end FormulaEditor
