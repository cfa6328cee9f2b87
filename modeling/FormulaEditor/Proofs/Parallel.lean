import FormulaEditor.Proofs.Keeps
import Mathlib.Data.List.Forall2

/-!
# Two runs side by side

Two questions agree if they fail with the same error or have corresponding answers (`Agree`). Two
edits run in parallel if from corresponding states they come to corresponding states, and their
outcomes agree (`Edit.Parallel`). Questions and edits which are put together from agreeing parts
agree.
-/

set_option autoImplicit false

namespace FormulaEditor

variable {α β γ δ σ τ : Type}

/-- The same error, or answers which correspond. -/
inductive Agree (S : α → β → Prop) : Except Error α → Except Error β → Prop
  | ok {a : α} {b : β} (h : S a b) : Agree S (.ok a) (.ok b)
  | error (e : Error) : Agree S (.error e) (.error e)

namespace Agree

variable {S : α → β → Prop} {T : γ → δ → Prop} {left : Except Error α} {right : Except Error β}

/-- Questions which are asked one after the other agree if the first ones do, and the second ones
after corresponding answers. -/
theorem bind (h : Agree S left right) {next : α → Except Error γ} {next' : β → Except Error δ}
    (hnext : ∀ a b, S a b → Agree T (next a) (next' b)) :
    Agree T (left >>= next) (right >>= next') := by
  cases h with
  | ok h => exact hnext _ _ h
  | error e => exact .error e

/-- Corresponding answers correspond in every weaker sense. -/
theorem mono {S' : α → β → Prop} (h : Agree S left right) (hS : ∀ a b, S a b → S' a b) :
    Agree S' left right := by
  cases h with
  | ok h => exact .ok (hS _ _ h)
  | error e => exact .error e

/-- Every answer agrees with itself. -/
theorem refl (answer : Except Error α) : Agree Eq answer answer := by
  cases answer with
  | ok a => exact .ok rfl
  | error e => exact .error e

/-- Outcomes which agree and have equal answers are equal. -/
theorem eq {left right : Except Error α} (h : Agree Eq left right) : left = right := by
  cases h with
  | ok h => rw [h]
  | error e => rfl

/-- Agreeing questions about corresponding items have corresponding lists of answers. -/
theorem mapM {question : α → Except Error γ} {question' : β → Except Error δ} {list : List α}
    {list' : List β} (h : List.Forall₂ S list list')
    (hquestion : ∀ a b, S a b → Agree T (question a) (question' b)) :
    Agree (List.Forall₂ T) (list.mapM question) (list'.mapM question') := by
  induction h with
  | nil => exact .ok .nil
  | cons hhead _ ih =>
    rw [List.mapM_cons, List.mapM_cons]
    exact (hquestion _ _ hhead).bind fun _ _ hanswer => ih.bind fun _ _ hanswers =>
      .ok (.cons hanswer hanswers)

end Agree

namespace Edit

/-- The same error or answers which correspond, in states which correspond. -/
inductive Matching (P : σ → τ → Prop) (S : α → β → Prop) :
    EStateM.Result Error σ α → EStateM.Result Error τ β → Prop
  | ok {a : α} {b : β} {state : σ} {other : τ} (hanswer : S a b) (hstate : P state other) :
      Matching P S (.ok a state) (.ok b other)
  | error {state : σ} {other : τ} (e : Error) (hstate : P state other) :
      Matching P S (.error e state) (.error e other)

/-- The states after matching outcomes correspond, whether the edits have succeeded or failed. -/
theorem Matching.after {P : σ → τ → Prop} {S : α → β → Prop} {edit : Edit σ α} {other : Edit τ β}
    {state : σ} {state' : τ} (h : Matching P S (edit.run state) (other.run state')) :
    P (edit.after state) (other.after state') := by
  unfold Edit.after
  generalize edit.run state = outcome, other.run state' = outcome' at h ⊢
  cases h with
  | ok _ hstate => exact hstate
  | error e hstate => exact hstate

/-- From corresponding states two edits lead to corresponding states, with agreeing outcomes. -/
def Parallel (P : σ → τ → Prop) (S : α → β → Prop) (edit : Edit σ α) (other : Edit τ β) : Prop :=
  ∀ state state', P state state' → Matching P S (edit.run state) (other.run state')

namespace Parallel

variable {P : σ → τ → Prop} {S : α → β → Prop} {T : γ → δ → Prop}

/-- Doing nothing runs in parallel with doing nothing. -/
theorem pure {a : α} {b : β} (h : S a b) :
    Parallel P S (Pure.pure a : Edit σ α) (Pure.pure b : Edit τ β) :=
  fun _ _ hstate => .ok h hstate

/-- Edits one after the other run in parallel if the first ones do, and the second ones after
corresponding answers. -/
theorem bind {edit : Edit σ α} {other : Edit τ β} {next : α → Edit σ γ} {next' : β → Edit τ δ}
    (h : Parallel P S edit other) (hnext : ∀ a b, S a b → Parallel P T (next a) (next' b)) :
    Parallel P T (edit >>= next) (other >>= next') := by
  intro state state' hstate
  have hrun := h state state' hstate
  rw [EStateM.run_bind, EStateM.run_bind]
  generalize edit.run state = outcome, other.run state' = outcome' at hrun ⊢
  cases hrun with
  | ok hanswer hstate => exact hnext _ _ hanswer _ _ hstate
  | error e hstate => exact .error e hstate

/-- What is made of the answers of parallel edits corresponds if it is made alike. -/
theorem map {edit : Edit σ α} {other : Edit τ β} {f : α → γ} {g : β → δ}
    (h : Parallel P S edit other) (hf : ∀ a b, S a b → T (f a) (g b)) :
    Parallel P T (f <$> edit) (g <$> other) := by
  rw [map_eq_pure_bind, map_eq_pure_bind]
  exact h.bind fun a b hanswer => pure (hf a b hanswer)

/-- Answers which are given run in parallel if they agree. -/
theorem ofExcept {answer : Except Error α} {answer' : Except Error β} (h : Agree S answer answer') :
    Parallel P S (Edit.ofExcept answer : Edit σ α) (Edit.ofExcept answer' : Edit τ β) := by
  intro state state' hstate
  cases h with
  | ok h => exact .ok h hstate
  | error e => exact .error e hstate

/-- Questions about corresponding states run in parallel if they agree there. -/
theorem look {question : σ → Except Error α} {question' : τ → Except Error β}
    (h : ∀ state state', P state state' → Agree S (question state) (question' state')) :
    Parallel P S (Edit.look question) (Edit.look question') :=
  fun state state' hstate => ofExcept (h state state' hstate) state state' hstate

/-- Reading corresponding states gives corresponding states. -/
theorem get : Parallel P P (MonadState.get : Edit σ σ) (MonadState.get : Edit τ τ) :=
  fun _ _ hstate => .ok hstate hstate

/-- Changes run in parallel if they lead from corresponding states to such states. -/
theorem modify {change : σ → σ} {change' : τ → τ}
    (h : ∀ state state', P state state' → P (change state) (change' state')) :
    Parallel P Eq (modify change : Edit σ Unit) (modify change' : Edit τ Unit) :=
  fun state state' hstate => .ok rfl (h state state' hstate)

/-- Loops over corresponding lists run in parallel if their rounds do. -/
theorem forM {act : γ → Edit σ PUnit} {act' : δ → Edit τ PUnit} {list : List γ} {list' : List δ}
    (h : List.Forall₂ T list list')
    (hact : ∀ c d, T c d → Parallel P Eq (act c) (act' d)) :
    Parallel P Eq (list.forM act) (list'.forM act') := by
  induction h with
  | nil => exact pure rfl
  | cons hhead _ ih => exact (hact _ _ hhead).bind fun _ _ _ => ih

/-- Choices run in parallel if they are made alike and both branches run in parallel. -/
theorem ite {c d : Prop} [Decidable c] [Decidable d] {edit edit' : Edit σ α}
    {other other' : Edit τ β} (hcond : c ↔ d) (h : Parallel P S edit other)
    (h' : Parallel P S edit' other') :
    Parallel P S (if c then edit else edit') (if d then other else other') := by
  by_cases hc : c
  · rw [if_pos hc, if_pos (hcond.mp hc)]
    exact h
  · rw [if_neg hc, if_neg (mt hcond.mpr hc)]
    exact h'

end Parallel

end Edit

end FormulaEditor
