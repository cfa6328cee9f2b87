import Mathlib.Order.Bounds.Basic
import FormulaEditor.Proofs.Line.Balance
import FormulaEditor.Proofs.Line.Matching

/-!
# Unmatched delimiters

A text without bars can be grouped exactly if it is balanced. Otherwise the first closing bracket is
refused in front of which no bracket is open, or, if there is none, the last opening bracket which
is never closed (`Fence.Verdict`). With the pairs of any text this says all about how delimiters are
matched (`Fence.matching_correct`).
-/

set_option autoImplicit false

namespace FormulaEditor.Fence

variable {precis text rest : List Char} {fences : List (Fence × Nat)} {first last position : Nat}

/-- The opening bracket at one position is closed by the closing bracket at another one: what
stands between them is balanced. -/
def Encloses (precis : List Char) (first last : Nat) : Prop :=
  ∃ front inner back, precis = front ++ '(' :: (inner ++ ')' :: back) ∧ Balanced inner ∧
    front.length = first ∧ first + inner.length + 1 = last

/-- The bracket at a position is an opening one, and has not been closed before another position. -/
def OpenAt (precis : List Char) (first position : Nat) : Prop :=
  first < position ∧ precis[first]? = some '(' ∧ ∀ last < position, ¬Encloses precis first last

/-- No bracket is open in front of the closing bracket at a position. -/
def Unopened (precis : List Char) (last : Nat) : Prop :=
  precis[last]? = some ')' ∧ ∀ first, ¬OpenAt precis first last

/-- The opening bracket at a position is never closed. -/
def Unclosed (precis : List Char) (first : Nat) : Prop :=
  OpenAt precis first precis.length

/-- An opening bracket of a balanced stretch is closed in it. -/
theorem exists_encloses {front inner back : List Char} (h : Balanced inner)
    (hprecis : precis = front ++ (inner ++ back)) (hopening : precis[first]? = some '(')
    (hlo : front.length ≤ first) (hhi : first < front.length + inner.length) :
    ∃ last < front.length + inner.length, Encloses precis first last := by
  obtain ⟨index, rfl⟩ := Nat.exists_eq_add_of_le hlo
  have hindex : index < inner.length := by omega
  rw [hprecis, List.getElem?_append_right (Nat.le_add_right _ _), Nat.add_sub_cancel_left,
    List.getElem?_append_left hindex, List.getElem?_eq_some_iff] at hopening
  obtain ⟨_, hopening⟩ := hopening
  have hsplit : inner = inner.take index ++ '(' :: inner.drop (index + 1) := by
    rw [← hopening, ← List.drop_eq_getElem_cons, List.take_append_drop]
  obtain ⟨deeper, behind, hdeeper, hdrop⟩ := h.exists_closing hsplit
  have hlength := congrArg List.length hdrop
  simp only [List.length_drop, List.length_append, List.length_cons] at hlength
  refine ⟨front.length + index + deeper.length + 1, by omega,
    front ++ inner.take index, deeper, behind ++ back, ?_, hdeeper, ?_, rfl⟩
  · rw [hdrop] at hsplit
    calc precis = front ++ (inner ++ back) := hprecis
      _ = front ++ (inner.take index ++ '(' :: (deeper ++ ')' :: behind) ++ back) := by
        rw [← hsplit]
      _ = front ++ inner.take index ++ '(' :: (deeper ++ ')' :: (behind ++ back)) := by simp
  · rw [List.length_append, List.length_take_of_le (Nat.le_of_lt hindex)]

namespace Pending

/-- The bracket of an open fence is not closed before the end. -/
theorem openAt (h : Pending text fences) (hprecis : precis = text ++ rest)
    (hmem : (.brackets, first) ∈ fences) : OpenAt precis first text.length := by
  have hopening := h.getElem? hmem
  have hlt := (List.getElem?_eq_some_iff.mp hopening).1
  refine ⟨hlt, by rw [hprecis, List.getElem?_append_left hlt, hopening]; rfl, ?_⟩
  rintro last hlast ⟨front, inner, back, henclosed, hinner, rfl, rfl⟩
  -- up to the closing bracket more would be closed than opened
  have hdrop : text.drop (front.length + 1) ++ rest = inner ++ ')' :: back := by
    rw [← List.drop_append_of_le_length hlt, ← hprecis, henclosed]
    simp
  have htake : (text.drop (front.length + 1)).take (inner.length + 1) = inner ++ [')'] := by
    rw [← List.take_append_of_le_length (by rw [List.length_drop]; omega), hdrop,
      List.take_append, List.take_of_length_le (by omega), Nat.add_sub_cancel_left,
      List.take_succ_cons, List.take_zero]
  have hcount := h.count_le hmem (inner.length + 1)
  rw [htake, List.count_append, List.count_append, hinner.count_eq] at hcount
  simp only [List.count_singleton_self, List.count_singleton, beq_iff_eq, Char.reduceEq,
    if_false] at hcount
  omega

/-- A bracket which is not closed before the end belongs to an open fence. -/
theorem mem_of_openAt (h : Pending text fences) (hprecis : precis = text ++ rest)
    (hopen : OpenAt precis first text.length) : (.brackets, first) ∈ fences := by
  induction h generalizing rest with
  | @bottom text balanced =>
    obtain ⟨hlt, hopening, hnever⟩ := hopen
    have hsplit : precis = [] ++ (text ++ rest) := hprecis
    obtain ⟨last, hlast, henclosed⟩ := exists_encloses balanced hsplit hopening
      (Nat.zero_le first) (by simpa using hlt)
    exact absurd henclosed (hnever last (by simpa using hlast))
  | @opened text inner fences fence around balanced ih =>
    obtain ⟨hlt, hopening, hnever⟩ := hopen
    rw [List.length_append, List.length_cons] at hlt hnever
    rw [List.append_assoc, List.cons_append] at hprecis
    obtain hbefore | rfl | hbehind := Nat.lt_trichotomy first text.length
    · exact List.mem_cons_of_mem _ (ih hprecis ⟨hbefore, hopening, fun last hlast =>
        hnever last (by omega)⟩)
    · rw [hprecis, List.getElem?_append_right (Nat.le_refl _), Nat.sub_self,
        List.getElem?_cons_zero] at hopening
      cases fence with
      | brackets => exact List.mem_cons_self
      | bars => cases hopening
    · have hsplit : precis = (text ++ [fence.opening]) ++ (inner ++ rest) := by simp [hprecis]
      have hlength : (text ++ [fence.opening]).length = text.length + 1 := List.length_append
      obtain ⟨last, hlast, henclosed⟩ := exists_encloses balanced hsplit hopening
        (by omega) (by omega)
      exact absurd henclosed (hnever last (by omega))

/-- The innermost fence is opened last. -/
theorem le_of_mem {fence other : Fence} (h : Pending text ((fence, position) :: fences))
    (hmem : (other, first) ∈ (fence, position) :: fences) : first ≤ position := by
  obtain hhead | htail := List.mem_cons.mp hmem
  · cases hhead
    exact Nat.le_refl _
  · cases h with
    | opened _ around _ =>
      exact Nat.le_of_lt (List.getElem?_eq_some_iff.mp (around.getElem? htail)).1

end Pending

/-- What is said of a text without bars: it is balanced, or the first bracket is refused which
closes nothing, or else the last one which is never closed. -/
inductive Verdict (precis : List Char) : Except Nat (List (Span Char)) → Prop
  | balanced (spans : List (Span Char)) (h : Balanced precis) : Verdict precis (.ok spans)
  | unopened {position : Nat} (h : IsLeast {last | Unopened precis last} position) :
      Verdict precis (.error position)
  | unclosed {position : Nat} (hnone : ∀ last, ¬Unopened precis last)
      (h : IsGreatest {first | Unclosed precis first} position) : Verdict precis (.error position)

/-- Only a closing bracket can be refused when it is grouped, if no fence of brackets is the
innermost one. -/
theorem step_eq_error {α : Type} {key : α → Char} {grouping : Grouping α} {item : α}
    {refused : Nat} (h : step key position grouping item = .error refused) :
    key item = ')' ∧ grouping.close? .brackets = none ∧ refused = position := by
  rw [step] at h
  by_cases hopening : key item = '('
  · rw [if_pos hopening] at h
    cases h
  rw [if_neg hopening] at h
  by_cases hclosing : key item = ')'
  · rw [if_pos hclosing] at h
    cases hclose : grouping.close? .brackets with
    | some closed =>
      rw [hclose] at h
      cases h
    | none =>
      rw [hclose] at h
      cases h
      exact ⟨hclosing, rfl, rfl⟩
  rw [if_neg hclosing] at h
  by_cases hbar : key item = '|'
  · rw [if_pos hbar] at h
    cases hclose : grouping.close? .bars with
    | none =>
      rw [hclose] at h
      cases h
    | some closed =>
      rw [hclose] at h
      cases hends : endsTerm key grouping.content <;> rw [hends] at h <;> cases h
  · rw [if_neg hbar] at h
    cases h

/-- Where grouping has come to without a bar: only brackets are open, and no bracket which closes
nothing has been met. -/
structure Unbarred (precis text : List Char) (grouping : Grouping Char) : Prop where
  pending : Pending text grouping.fences
  brackets : ∀ fence ∈ grouping.fences, fence.1 = .brackets
  opened : ∀ last < text.length, ¬Unopened precis last

namespace Unbarred

variable {grouping next : Grouping Char} {c : Char}

/-- One more character which is no bar, if it is not refused, leads on to where grouping comes
without bars. -/
theorem step (h : Unbarred precis text grouping) (hprecis : precis = text ++ c :: rest)
    (hbar : c ≠ '|') (hstep : Fence.step id text.length grouping c = .ok next) :
    Unbarred precis (text ++ [c]) next := by
  obtain ⟨hpending, hbrackets, hopened⟩ := h
  have hfound : precis[text.length]? = some c := by
    rw [hprecis, List.getElem?_append_right (Nat.le_refl _), Nat.sub_self, List.getElem?_cons_zero]
  have hothers : ¬Unopened precis text.length →
      ∀ last < (text ++ [c]).length, ¬Unopened precis last := by
    intro hhere last hlast
    rw [List.length_append, List.length_singleton] at hlast
    obtain hlt | rfl := Nat.lt_succ_iff_lt_or_eq.mp hlast
    · exact hopened last hlt
    · exact hhere
  have hplain : c ≠ ')' → ¬Unopened precis text.length := by
    rintro hne ⟨hclosing, -⟩
    exact hne (Option.some.inj (hfound.symm.trans hclosing))
  have hnext := hpending.step hstep
  obtain ⟨hkey, rfl⟩ | ⟨hkey, rfl⟩ | ⟨hkey, hclosed⟩ | ⟨hkey, -⟩ | ⟨hkey, -⟩ := step_cases hstep
  · refine ⟨hnext, hbrackets, hothers (hplain fun hc => ?_)⟩
    exact hkey (by rw [id, hc]; decide)
  · refine ⟨hnext, List.forall_mem_cons.mpr ⟨rfl, hbrackets⟩, hothers (hplain fun hc => ?_)⟩
    rw [id, hc] at hkey
    cases hkey
  · obtain ⟨position, hfences⟩ := fences_of_close? hclosed
    refine ⟨hnext, fun fence hfence => hbrackets fence ?_, hothers fun hunopened => ?_⟩
    · rw [hfences]
      exact List.mem_cons_of_mem _ hfence
    · exact hunopened.2 position
        (hpending.openAt hprecis (by rw [hfences]; exact List.mem_cons_self))
  · exact absurd hkey hbar
  · exact absurd hkey hbar

/-- A bracket which is refused closes nothing, and is the first such one. -/
theorem isLeast (h : Unbarred precis text grouping) (hprecis : precis = text ++ c :: rest)
    (hstep : Fence.step id text.length grouping c = .error position) :
    IsLeast {last | Unopened precis last} position := by
  obtain ⟨hclosing, hclose, rfl⟩ := step_eq_error hstep
  obtain ⟨hpending, hbrackets, hopened⟩ := h
  have hnone : grouping.fences = [] := by
    obtain ⟨opened, content⟩ := grouping
    cases opened with
    | nil => rfl
    | cons innermost outer =>
      have hinnermost : innermost.fence = .brackets := hbrackets _ List.mem_cons_self
      exact absurd hinnermost (close?_eq_none_iff.mp hclose innermost outer rfl)
  refine ⟨⟨?_, fun first hopen => ?_⟩, fun last hlast => Nat.le_of_not_lt fun hlt =>
    hopened last hlt hlast⟩
  · rw [hprecis, List.getElem?_append_right (Nat.le_refl _), Nat.sub_self,
      List.getElem?_cons_zero]
    exact congrArg some hclosing
  · have hmem := hpending.mem_of_openAt hprecis hopen
    rw [hnone] at hmem
    cases hmem

/-- From where grouping has come to without a bar, it ends with the verdict on the whole text. -/
theorem verdict (h : Unbarred precis text grouping) (hprecis : precis = text ++ rest)
    (hbars : '|' ∉ rest) : Verdict precis (groupFrom id text.length grouping rest) := by
  induction rest generalizing text grouping with
  | nil =>
    obtain ⟨hpending, hbrackets, hopened⟩ := h
    rw [List.append_nil] at hprecis
    subst hprecis
    obtain ⟨opened, content⟩ := grouping
    cases opened with
    | nil => exact .balanced _ (Pending.balanced hpending)
    | cons innermost outer =>
      have hinnermost : innermost.fence = .brackets := hbrackets _ List.mem_cons_self
      have hprecis : precis = precis ++ [] := (List.append_nil precis).symm
      refine .unclosed (fun last hlast => ?_) ⟨?_, fun first hfirst => ?_⟩
      · exact hopened last (List.getElem?_eq_some_iff.mp hlast.1).1 hlast
      · refine hpending.openAt hprecis ?_
        rw [← hinnermost]
        exact List.mem_cons_self
      · exact hpending.le_of_mem (hpending.mem_of_openAt hprecis hfirst)
  | cons c rest ih =>
    obtain ⟨hc, hrest⟩ := not_or.mp (List.mem_cons.not.mp hbars)
    rw [groupFrom]
    cases hstep : Fence.step id text.length grouping c with
    | error position => exact .unopened (h.isLeast hprecis hstep)
    | ok next =>
      have hnext := ih (h.step hprecis (Ne.symm hc) hstep) (by simpa using hprecis) hrest
      rw [List.length_append] at hnext
      exact hnext

end Unbarred

/-- What is said of a text without bars when it is grouped. -/
theorem verdict_group (hbars : '|' ∉ precis) : Verdict precis (group id 0 precis) := by
  have hempty : Unbarred precis [] .empty := ⟨.bottom .nil, nofun, nofun⟩
  exact hempty.verdict rfl hbars

/-- How the delimiters of a text are matched. They are the delimiters of the fences into which the
text is grouped. If they can be matched, they pair up, brackets with brackets and bars with bars,
without crossing, and no bar closes a fence where a term has not ended. Without bars they can be
matched exactly if the brackets are balanced, and otherwise the first closing bracket in front of
which none is open is refused, or, when there is none, the last bracket which is never closed. -/
theorem matching_correct (precis : List Char) :
    Fence.partners precis = Checked.answer
      (((group id 0 precis).map (Span.allMates 0)).mapError .unmatchedDelimiter) ∧
    (∀ partners, Fence.partners precis = .ok partners → Matching precis partners) ∧
    ('|' ∉ precis →
      ((∃ partners, Fence.partners precis = .ok partners) ↔ Balanced precis) ∧
      (¬Balanced precis → ∃ position,
        Fence.partners precis = .error (.refused (.unmatchedDelimiter position)) ∧
        (IsLeast {last | Unopened precis last} position ∨
          (∀ last, ¬Unopened precis last) ∧
            IsGreatest {first | Unclosed precis first} position))) := by
  refine ⟨partners_eq precis, fun _ => matching_of_partners, fun hbars => ?_⟩
  have hverdict := verdict_group hbars
  have hgrouped : Balanced precis → ∃ spans, group id 0 precis = .ok spans := by
    intro hbalanced
    obtain ⟨spans, hspans⟩ := hbalanced.exists_groups hbars
    exact ⟨spans, hspans.group_eq 0⟩
  rw [partners_eq]
  generalize group id 0 precis = grouping at hverdict hgrouped ⊢
  cases hverdict with
  | balanced spans hbalanced =>
    exact ⟨iff_of_true ⟨_, rfl⟩ hbalanced, fun hnot => absurd hbalanced hnot⟩
  | unopened hleast =>
    refine ⟨iff_of_false nofun fun hbalanced => ?_, fun _ => ⟨_, rfl, .inl hleast⟩⟩
    obtain ⟨spans, ⟨⟩⟩ := hgrouped hbalanced
  | unclosed hnone hgreatest =>
    refine ⟨iff_of_false nofun fun hbalanced => ?_, fun _ => ⟨_, rfl, .inr ⟨hnone, hgreatest⟩⟩⟩
    obtain ⟨spans, ⟨⟩⟩ := hgrouped hbalanced

/-- In `|a*|b||(c)` every delimiter finds its partner, and in `)(` neither does. -/
theorem matching_of_nested_bars :
    Matching ['|', 'a', '*', '|', 'b', '|', '|', '(', 'c', ')']
      [some 6, none, none, some 5, none, some 3, some 0, some 9, none, some 7] ∧
    ¬Balanced [')', '('] ∧ ∃ position,
      Fence.partners [')', '('] = .error (.refused (.unmatchedDelimiter position)) ∧
      (IsLeast {last | Unopened [')', '('] last} position ∨
        (∀ last, ¬Unopened [')', '('] last) ∧
          IsGreatest {first | Unclosed [')', '('] first} position) := by
  have hbalanced : ¬Balanced [')', '('] := fun h => absurd (h.count_take_le 1) (by decide)
  exact ⟨(matching_correct _).2.1 _ rfl, hbalanced,
    ((matching_correct _).2.2 (by decide)).2 hbalanced⟩

end FormulaEditor.Fence
