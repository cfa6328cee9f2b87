import FormulaEditor.Error

/-!
# Checked positions

What the editor does can also be done by positions in lists, as on a machine: with numbers which
point to items, ranges between two of them, and loops. Here every such access is checked, and a
failure of a check is told apart from the errors which are answered (`Halt`). A proof that the
answers are the same with the checks as without them says that no access ever goes out of range.
-/

set_option autoImplicit false

namespace FormulaEditor

/-- Why an evaluation by positions stops without an answer. -/
inductive Halt
  /-- A position or a range does not exist. -/
  | outOfRange
  /-- More rounds would be needed than were granted. -/
  | endless
  /-- A fence begins in a range and is not closed there. -/
  | straddled (position : Nat)
  /-- A delimiter has no partner. -/
  | unpaired (position : Nat)
  /-- The error is answered. -/
  | refused (error : Error)
  deriving DecidableEq, Repr

/-- An answer, or why there is none, when every access is checked. -/
abbrev Checked (α : Type) := Except Halt α

namespace Checked

variable {α β : Type}

/-- An answer which needs no checks. -/
def answer (outcome : Except Error α) : Checked α :=
  outcome.mapError .refused

/-- The item at a position of a list. -/
def item (list : List α) (position : Nat) : Checked α :=
  match list[position]? with
  | some a => .ok a
  | none => .error .outOfRange

/-- The position before another one. -/
def before : Nat → Checked Nat
  | 0 => .error .outOfRange
  | position + 1 => .ok position

/-- What is left of a number when another one is taken away. -/
def sub (n m : Nat) : Checked Nat :=
  if m ≤ n then .ok (n - m) else .error .outOfRange

/-- The items of a list from one position up to another one. -/
def slice (list : List α) (lo hi : Nat) : Checked (List α) :=
  if lo ≤ hi ∧ hi ≤ list.length then .ok ((list.drop lo).take (hi - lo))
  else .error .outOfRange

/-- A list with another item at a position. -/
def set (list : List α) (position : Nat) (a : α) : Checked (List α) :=
  if position < list.length then .ok (list.set position a) else .error .outOfRange

/-- A list with one more item, which is put in at a position. -/
def insert (list : List α) (position : Nat) (a : α) : Checked (List α) :=
  if position ≤ list.length then .ok (list.insertIdx position a) else .error .outOfRange

/-- A list without the item at a position. -/
def remove (list : List α) (position : Nat) : Checked (List α) :=
  if position < list.length then .ok (list.eraseIdx position) else .error .outOfRange

/-- The first item for which a question is answered with yes. -/
def find (question : α → Checked Bool) : List α → Checked (Option α)
  | [] => .ok none
  | a :: list => do if ← question a then return some a else find question list

/-! ## Checks which succeed -/

/-- Looking up a position succeeds with just the item which stands there. -/
theorem item_eq_ok_iff {list : List α} {position : Nat} {a : α} :
    item list position = .ok a ↔ list[position]? = some a := by
  unfold item
  cases list[position]? <;> simp

/-- The item which stands at a position is found there. -/
theorem item_of_getElem? {list : List α} {position : Nat} {a : α}
    (h : list[position]? = some a) : item list position = .ok a :=
  item_eq_ok_iff.mpr h

/-- A range within a list is cut out of it. -/
theorem slice_of_le {list : List α} {lo hi : Nat} (hle : lo ≤ hi) (hlength : hi ≤ list.length) :
    slice list lo hi = .ok ((list.drop lo).take (hi - lo)) :=
  if_pos ⟨hle, hlength⟩

/-- An item can be replaced at every position of a list. -/
theorem set_of_lt {list : List α} {position : Nat} (h : position < list.length) (a : α) :
    set list position a = .ok (list.set position a) :=
  if_pos h

/-- What is answered without checks is answered with them, and nothing else. -/
theorem answer_eq_ok_iff {outcome : Except Error α} {a : α} :
    answer outcome = .ok a ↔ outcome = .ok a := by
  cases outcome with
  | ok b =>
    change (Except.ok b : Checked α) = .ok a ↔ _
    simp
  | error e =>
    change (Except.error (.refused e) : Checked α) = .ok a ↔ _
    simp

/-- A question after an answered question is answered as when both are asked without checks. -/
theorem answer_bind (outcome : Except Error α) (next : α → Except Error β) :
    answer (outcome >>= next) = answer outcome >>= fun a => answer (next a) := by
  cases outcome <;> rfl

/-- A search whose questions all have an answer finds what it finds without checks. -/
theorem find_eq_ok {question : α → Checked Bool} {test : α → Bool} {list : List α}
    (h : ∀ a ∈ list, question a = .ok (test a)) : find question list = .ok (list.find? test) := by
  induction list with
  | nil => rfl
  | cons a list ih =>
    rw [find, h a List.mem_cons_self, List.find?_cons]
    cases test a with
    | true => rfl
    | false => exact ih fun b hb => h b (List.mem_cons_of_mem _ hb)

/-- A list is searched part by part. -/
theorem find_append (question : α → Checked Bool) (list more : List α) :
    find question (list ++ more) = (do
      match ← find question list with
      | some a => return some a
      | none => find question more) := by
  induction list with
  | nil => rfl
  | cons a list ih =>
    rw [List.cons_append, find, find, ih]
    cases question a with
    | error e => rfl
    | ok found => cases found <;> rfl

/-! ## Reasons to stop -/

/-- An evaluation stops without an answer for no other reasons than those of a kind. -/
def StopsOnly (kind : Halt → Prop) (outcome : Checked α) : Prop :=
  ∀ halt, outcome = .error halt → kind halt

namespace StopsOnly

variable {kind : Halt → Prop}

/-- An answer is no reason to stop. -/
theorem ok (a : α) : StopsOnly kind (.ok a) :=
  nofun

/-- Stopping for a reason of a kind is stopping only for such reasons. -/
theorem error {halt : Halt} (h : kind halt) : StopsOnly kind (.error halt : Checked α) := by
  rintro _ ⟨⟩
  exact h

/-- Two evaluations one after the other stop only for the reasons of both. -/
theorem bind {outcome : Checked α} {next : α → Checked β} (h : StopsOnly kind outcome)
    (hnext : ∀ a, StopsOnly kind (next a)) : StopsOnly kind (outcome >>= next) := by
  cases outcome with
  | error halt => exact error (h halt rfl)
  | ok a => exact hnext a

/-- A choice between two evaluations stops only for the reasons of both. -/
theorem ite {condition : Prop} [Decidable condition] {yes no : Checked α}
    (hyes : StopsOnly kind yes) (hno : StopsOnly kind no) :
    StopsOnly kind (if condition then yes else no) := by
  by_cases h : condition
  · rwa [if_pos h]
  · rwa [if_neg h]

/-- Looking up a position stops only because the position does not exist. -/
theorem item (h : kind .outOfRange) (list : List α) (position : Nat) :
    StopsOnly kind (Checked.item list position) := by
  unfold Checked.item
  cases list[position]? with
  | none => exact error h
  | some a => exact ok a

/-- Going back by one position stops only because there is no position before the first one. -/
theorem before (h : kind .outOfRange) (position : Nat) :
    StopsOnly kind (Checked.before position) := by
  cases position with
  | zero => exact error h
  | succ position => exact ok position

/-- Cutting out a range stops only because the range does not exist. -/
theorem slice (h : kind .outOfRange) (list : List α) (lo hi : Nat) :
    StopsOnly kind (Checked.slice list lo hi) :=
  ite (ok _) (error h)

/-- A search stops only for the reasons for which its questions stop. -/
theorem find {question : α → Checked Bool} (h : ∀ a, StopsOnly kind (question a))
    (list : List α) : StopsOnly kind (Checked.find question list) := by
  induction list with
  | nil => exact ok none
  | cons a list ih => exact (h a).bind fun _ => ite (ok _) ih

end StopsOnly

end Checked

end FormulaEditor
