import FormulaEditor.Error

/-!
# Edits

An edit changes a state and may fail. The state after a failure is part of the outcome, so that it
can be asked whether a failed edit left anything behind. Questions about a state leave it as it is
(`Edit.run_look`).
-/

set_option autoImplicit false

namespace FormulaEditor

/-- A change of a state of type `σ` with an answer of type `α`, which may fail. -/
abbrev Edit (σ α : Type) := EStateM Error σ α

namespace Edit

variable {σ α : Type}

/-- Answers or fails without changing the state. -/
def ofExcept (answer : Except Error α) : Edit σ α :=
  match answer with
  | .ok a => pure a
  | .error e => throw e

/-- Asks a question about the state. -/
def look (question : σ → Except Error α) : Edit σ α := do
  ofExcept (question (← get))

/-- A given answer leaves the state as it is, also if it is a failure. -/
@[simp] theorem run_ofExcept (answer : Except Error α) (state : σ) :
    (ofExcept answer).run state = match answer with
      | .ok a => .ok a state
      | .error e => .error e state := by
  cases answer <;> rfl

/-- A question leaves the state as it is, also if it fails. -/
@[simp] theorem run_look (question : σ → Except Error α) (state : σ) :
    (look question).run state = match question state with
      | .ok a => .ok a state
      | .error e => .error e state :=
  run_ofExcept (question state) state

end Edit

end FormulaEditor
