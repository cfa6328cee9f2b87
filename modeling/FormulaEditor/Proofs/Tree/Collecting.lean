import FormulaEditor.Proofs.Tree.Guarded
import FormulaEditor.Proofs.Tree.Numerator

/-!
# Collecting a numerator by positions

What stands before a new fraction can also be found by positions: the symbols from the one after the
start up to the fraction, and among them the position where the run begins which goes into the
numerator. The start of every expression and the place of the fraction behind it make these ranges
exist (`Tree.WellFormed.guardedNumeratorRun_eq`).
-/

set_option autoImplicit false

namespace FormulaEditor

namespace Numerator

/-- The position of the bracket which opens a bracketed group, which is given backwards with its
positions. `depth` brackets have been closed already. -/
def openingAt : Nat → List (Char × Nat) → Option Nat
  | _, [] => none
  | depth, (c, position) :: rest =>
    if c = ')' then openingAt (depth + 1) rest
    else if c = '(' then match depth with
      | 0 => none
      | 1 => some position
      | outer + 2 => openingAt (outer + 1) rest
    else openingAt depth rest

/-- The position where the symbols begin which go into a numerator, if there are any. -/
def runStart (precis : List Char) : Checked (Option Nat) :=
  match precis.getLast? with
  | none => return none
  | some c =>
    if Text.isAlphanumeric c then do
      return some (← Checked.sub precis.length
        (precis.reverse.takeWhile Text.isAlphanumeric).length)
    else if c = ')' then return openingAt 0 precis.zipIdx.reverse
    else return none

/-- The end of a list which goes into a numerator, if anything does. -/
def cut {α : Type} (preceding : List α) (precis : List Char) : Checked (Option (List α)) := do
  match ← runStart precis with
  | none => return none
  | some start => return some (← Checked.slice preceding start preceding.length)

/-- A group has at least one character, and no more than there are. -/
theorem groupLength_le {depth : Nat} {precis : List Char} {count : Nat}
    (h : groupLength depth precis = some count) : 0 < count ∧ count ≤ precis.length := by
  induction precis generalizing depth count with
  | nil => cases h
  | cons c precis ih =>
    have hmore : ∀ {depth : Nat}, (groupLength depth precis).map (· + 1) = some count →
        0 < count ∧ count ≤ (c :: precis).length := by
      intro depth hcount
      obtain ⟨found, hfound, rfl⟩ := Option.map_eq_some_iff.mp hcount
      exact ⟨Nat.succ_pos found, Nat.succ_le_succ (ih hfound).2⟩
    unfold groupLength at h
    by_cases hclosing : c = ')'
    · rw [if_pos hclosing] at h
      exact hmore h
    by_cases hopening : c = '('
    · rw [if_neg hclosing, if_pos hopening] at h
      cases depth with
      | zero => cases h
      | succ depth =>
        cases depth with
        | zero =>
          cases h
          exact ⟨Nat.one_pos, Nat.succ_le_succ (Nat.zero_le _)⟩
        | succ outer => exact hmore h
    · rw [if_neg hclosing, if_neg hopening] at h
      exact hmore h

/-- A group begins as far from the end as it is long. -/
theorem openingAt_eq (depth : Nat) (precis : List Char) :
    openingAt depth precis.zipIdx.reverse =
      (groupLength depth precis.reverse).map (precis.length - ·) := by
  induction precis using List.reverseRecOn generalizing depth with
  | nil => rfl
  | append_singleton precis c ih =>
    have hmore : ∀ depth, openingAt depth precis.zipIdx.reverse =
        ((groupLength depth precis.reverse).map (· + 1)).map (precis.length + 1 - ·) := by
      intro depth
      rw [ih, Option.map_map]
      congr 1
      funext count
      exact (Nat.add_sub_add_right _ 1 _).symm
    have hzip : (precis ++ [c]).zipIdx.reverse = (c, precis.length) :: precis.zipIdx.reverse := by
      simp [List.zipIdx_append]
    rw [hzip, List.reverse_append, List.length_append]
    show openingAt depth ((c, precis.length) :: precis.zipIdx.reverse) =
      (groupLength depth (c :: precis.reverse)).map (precis.length + 1 - ·)
    unfold openingAt groupLength
    by_cases hclosing : c = ')'
    · rw [if_pos hclosing, if_pos hclosing, hmore]
    by_cases hopening : c = '('
    · rw [if_neg hclosing, if_neg hclosing, if_pos hopening, if_pos hopening]
      cases depth with
      | zero => rfl
      | succ depth =>
        cases depth with
        | zero => rfl
        | succ outer => exact hmore (outer + 1)
    · rw [if_neg hclosing, if_neg hclosing, if_neg hopening, if_neg hopening, hmore]

/-- A run is no longer than what it is the end of. -/
theorem runLength_le (precis : List Char) : runLength precis ≤ precis.length := by
  cases precis with
  | nil => exact Nat.le_refl 0
  | cons c precis =>
    rw [runLength]
    split
    · exact (List.takeWhile_prefix _).length_le
    split
    · cases hgroup : groupLength 0 (c :: precis) with
      | none => exact Nat.zero_le _
      | some count => exact (groupLength_le hgroup).2
    · exact Nat.zero_le _

/-- The run begins as far from the end as it is long, if there is anything in it. -/
theorem runStart_eq (precis : List Char) :
    runStart precis = .ok (if runLength precis.reverse = 0 then none
      else some (precis.length - runLength precis.reverse)) := by
  obtain rfl | ⟨front, c, rfl⟩ := List.eq_nil_or_concat precis
  · rfl
  rw [List.concat_eq_append]
  have hreverse : (front ++ [c]).reverse = c :: front.reverse := List.reverse_concat
  have hlength := runLength_le (front ++ [c]).reverse
  have hgroup := openingAt_eq 0 (front ++ [c])
  rw [List.length_reverse] at hlength
  rw [runStart, List.getLast?_concat]
  show (if Text.isAlphanumeric c then _ else _) = _
  rw [hreverse] at hlength hgroup ⊢
  rw [runLength] at hlength ⊢
  generalize (front ++ [c]).length = length at hlength hgroup ⊢
  by_cases halphanumeric : Text.isAlphanumeric c = true
  · rw [if_pos halphanumeric] at hlength
    rw [if_pos halphanumeric, if_pos halphanumeric]
    have hne : ((c :: front.reverse).takeWhile Text.isAlphanumeric).length ≠ 0 := by
      rw [List.takeWhile_cons_of_pos halphanumeric]
      exact Nat.succ_ne_zero _
    rw [if_neg hne, Checked.sub, if_pos hlength]
    rfl
  · rw [if_neg halphanumeric, if_neg halphanumeric]
    by_cases hclosing : c = ')'
    · rw [if_pos hclosing, if_pos hclosing, hgroup]
      cases hcount : groupLength 0 (c :: front.reverse) with
      | none => rfl
      | some count =>
        have hne : count ≠ 0 := Nat.ne_of_gt (groupLength_le hcount).1
        rw [Option.getD_some, if_neg hne]
        rfl
    · rw [if_neg hclosing, if_neg hclosing, if_pos rfl]
      rfl

/-- What is cut off is as long as the run, if there is anything in it. -/
theorem cut_eq {α : Type} {preceding : List α} {precis : List Char}
    (hlength : precis.length = preceding.length) :
    let run := preceding.drop (preceding.length - runLength precis.reverse)
    cut preceding precis = .ok (if run.isEmpty then none else some run) := by
  intro run
  have hle := runLength_le precis.reverse
  rw [List.length_reverse, hlength] at hle
  rw [cut, runStart_eq, hlength]
  by_cases hcount : runLength precis.reverse = 0
  · have hrun : run = [] := by
      show preceding.drop _ = []
      rw [hcount, Nat.sub_zero, List.drop_length]
    rw [if_pos hcount, hrun]
    rfl
  · have hpositive := Nat.pos_of_ne_zero hcount
    have hrun : ¬ run.isEmpty := by
      rw [List.isEmpty_iff, List.drop_eq_nil_iff]
      exact Nat.not_le_of_lt (Nat.sub_lt (hpositive.trans_le hle) hpositive)
    have hslice : Checked.slice preceding (preceding.length - runLength precis.reverse)
        preceding.length = .ok run := by
      rw [Checked.slice_of_le (Nat.sub_le _ _) (Nat.le_refl _)]
      exact congrArg Except.ok (List.take_of_length_le (Nat.le_of_eq List.length_drop))
    rw [if_neg hcount, if_neg hrun]
    show (Checked.slice preceding _ preceding.length >>= _) = _
    rw [hslice]
    rfl

end Numerator

namespace Tree

open Guarded (Follows)

/-- There are as many answers as questions. -/
theorem length_of_mapM {α β ε : Type} {question : α → Except ε β} {list : List α}
    {answers : List β} (h : list.mapM question = .ok answers) : answers.length = list.length := by
  induction list generalizing answers with
  | nil =>
    cases h
    rfl
  | cons a list ih =>
    rw [List.mapM_cons] at h
    cases hfirst : question a with
    | error e =>
      rw [hfirst] at h
      cases h
    | ok b =>
      cases hrest : list.mapM question with
      | error e =>
        rw [hfirst, hrest] at h
        cases h
      | ok others =>
        rw [hfirst, hrest] at h
        cases h
        exact congrArg Nat.succ (ih hrest)

/-- The symbols before a fraction which go into its numerator, if there are any, and the start of
the numerator. -/
def guardedNumeratorRun (tree : Tree) (id : NodeId) :
    Checked (Option (List NodeId × NodeId)) := do
  match ← Checked.answer (tree.symbol id) with
  | .fraction numerator _ =>
    let (expression, index) ← Checked.answer (tree.position id)
    let preceding ← Checked.slice (← Checked.answer (tree.items expression)) 1 index
    let precis ← Checked.answer
      (preceding.mapM fun item => return (← tree.symbol item).precis)
    match ← Numerator.cut preceding precis with
    | none => return none
    | some run => return some (run, ← Checked.answer (tree.first numerator))
  | _ => throw (.refused .invalidNode)

/-- Moves what stands before a fraction into its numerator, and tells whether there was anything to
move. -/
def guardedFillNumerator (id : NodeId) : Guarded Tree Bool := do
  match ← Guarded.look (·.guardedNumeratorRun id) with
  | none => return false
  | some (run, start) =>
    run.reverse.forM (guardedInsertAfter start)
    return true

namespace WellFormed

variable {tree : Tree}

/-- The list of a fraction begins with the start, which is before the fraction. -/
theorem exists_front (h : tree.WellFormed) {id expression numerator denominator : NodeId}
    (hid : tree.node? id = some ⟨some expression, .symbol (.fraction numerator denominator)⟩) :
    ∃ first front back, tree.items expression = .ok (first :: (front ++ id :: back)) ∧
      tree.position id = .ok (expression, front.length + 1) := by
  obtain ⟨owner, front, back, hexpression, hposition⟩ := h.exists_split hid
  cases front with
  | nil =>
    obtain ⟨start, others, hitems, hstart, -⟩ := (h.lists hexpression).start
    cases hitems
    rw [hid] at hstart
    cases hstart
  | cons first front => exact ⟨first, front, back, items_of_node? hexpression, hposition⟩

/-- What goes into a numerator is found by positions, for the symbols before the fraction begin
after the start, and the run begins between there and the fraction. -/
theorem guardedNumeratorRun_eq (h : tree.WellFormed) (id : NodeId) :
    tree.guardedNumeratorRun id = (Checked.answer (tree.numeratorRun id)).map
      fun (run, start) => if run.isEmpty then none else some (run, start) := by
  unfold guardedNumeratorRun numeratorRun
  cases hsymbol : tree.symbol id with
  | error e => rfl
  | ok symbol =>
    cases symbol with
    | fraction numerator denominator =>
      cases hplace : tree.position id with
      | error e => simp only [bind, Except.bind, Checked.answer, Except.mapError, Except.map]
      | ok place =>
        obtain ⟨expression, index⟩ := place
        obtain ⟨s, hid⟩ := h.node?_of_position hplace
        rw [symbol_of_node? hid] at hsymbol
        cases hsymbol
        obtain ⟨first, front, back, hitems, hposition⟩ := h.exists_front hid
        rw [hplace] at hposition
        cases hposition
        obtain ⟨items, hnumerator⟩ := (h.slots hid).2 numerator List.mem_cons_self
        obtain ⟨start, hfirst, -⟩ := h.exists_first hnumerator
        have hslice : Checked.slice (first :: (front ++ id :: back)) 1 (front.length + 1) =
            .ok front := by
          rw [Checked.slice_of_le (Nat.le_add_left 1 _) (by simp)]
          simp
        have htake : ((first :: (front ++ id :: back)).take (front.length + 1)).drop 1 =
            front := by
          simp
        simp only [bind, Except.bind, pure, Except.pure, Checked.answer, Except.mapError,
          Except.map, hitems, hslice, htake, hfirst]
        cases hprecis : front.mapM
            (fun item => return (← tree.symbol item).precis : NodeId → Except Error Char) with
        | error e =>
          simp only [bind, Except.bind, pure, Except.pure] at hprecis
          rw [hprecis]
        | ok precis =>
          have hcut := Numerator.cut_eq (length_of_mapM hprecis)
          simp only [bind, Except.bind, pure, Except.pure] at hprecis
          rw [hprecis]
          simp only [hcut]
          cases front.drop (front.length - Numerator.runLength precis.reverse) <;> rfl
    | _ => rfl

/-- In a well-formed tree filling a numerator by positions follows filling it. -/
theorem follows_guardedFillNumerator (h : tree.WellFormed) (id : NodeId) :
    Follows (guardedFillNumerator id) (fillNumerator id) tree := by
  have hmoves (start : NodeId) (run : List NodeId) :
      Follows (run.forM (guardedInsertAfter start)) (run.forM (insertAfter start)) tree :=
    .forM (fun id _ htree => htree.follows_guardedInsertAfter start id)
      (invariant_wellFormed.keeps_insertAfter start) run h
  refine Follows.ask_map (h.guardedNumeratorRun_eq id) fun (run, start) _ => ?_
  cases run with
  | nil => exact .pure false _
  | cons item run => exact (hmoves start (item :: run).reverse).bind fun _ _ _ => .pure true _

end WellFormed

end Tree

end FormulaEditor
