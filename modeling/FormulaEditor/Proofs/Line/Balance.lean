import FormulaEditor.Proofs.Line.Embedding
import FormulaEditor.Proofs.Line.Partners

/-!
# Balanced brackets

A text is balanced if its round brackets pair by depth, whatever else stands between them
(`Fence.Balanced`). While a text is grouped, balanced stretches are separated by the delimiters of
the fences which are open (`Fence.Pending`), so that a text which can be grouped is balanced
(`Fence.balanced_of_group`), though its bars need not pair if only its brackets do.
-/

set_option autoImplicit false

namespace FormulaEditor.Fence

/-- A text whose round brackets pair by depth. -/
inductive Balanced : List Char → Prop
  | nil : Balanced []
  | plain {c : Char} {rest : List Char} (hopening : c ≠ '(') (hclosing : c ≠ ')')
      (hrest : Balanced rest) : Balanced (c :: rest)
  | brackets {inner rest : List Char} (hinner : Balanced inner) (hrest : Balanced rest) :
      Balanced ('(' :: (inner ++ ')' :: rest))

namespace Balanced

variable {text left right front back : List Char}

/-- Two balanced texts one after the other are balanced. -/
theorem append (h : Balanced left) (hright : Balanced right) : Balanced (left ++ right) := by
  induction h with
  | nil => exact hright
  | plain hopening hclosing _ ih => exact .plain hopening hclosing ih
  | brackets hinner _ _ ihRest =>
    rw [List.cons_append, List.append_assoc, List.cons_append]
    exact .brackets hinner ihRest

/-- In a balanced text as many brackets are closed as are opened. -/
theorem count_eq (h : Balanced text) : text.count ')' = text.count '(' := by
  induction h with
  | nil => rfl
  | plain hopening hclosing _ ih =>
    rw [List.count_cons_of_ne hclosing, List.count_cons_of_ne hopening, ih]
  | brackets _ _ ihInner ihRest =>
    rw [List.count_cons_of_ne (by decide), List.count_cons_self, List.count_append,
      List.count_append, List.count_cons_self, List.count_cons_of_ne (by decide), ihInner, ihRest]
    omega

/-- No beginning of a balanced text closes more brackets than it opens. -/
theorem count_take_le (h : Balanced text) (n : Nat) :
    (text.take n).count ')' ≤ (text.take n).count '(' := by
  induction h generalizing n with
  | nil => simp
  | plain hopening hclosing _ ih =>
    cases n with
    | zero => simp
    | succ n =>
      rw [List.take_succ_cons, List.count_cons_of_ne hclosing, List.count_cons_of_ne hopening]
      exact ih n
  | @brackets inner rest hinner _ ihInner ihRest =>
    cases n with
    | zero => simp
    | succ n =>
      have hfirst := ihInner n
      rw [List.take_succ_cons, List.take_append, List.count_cons_of_ne (by decide),
        List.count_cons_self, List.count_append, List.count_append]
      cases hleft : n - inner.length with
      | zero =>
        rw [List.take_zero, List.count_nil, List.count_nil]
        omega
      | succ m =>
        -- the whole inner text is passed, which closes what it opens
        have hinnerCount := hinner.count_eq
        have hrestCount := ihRest m
        rw [List.take_succ_cons, List.count_cons_self, List.count_cons_of_ne (by decide),
          List.take_of_length_le (by omega)]
        omega

/-- No end of a balanced text opens more brackets than it closes. -/
theorem count_drop_le (h : Balanced text) (n : Nat) :
    (text.drop n).count '(' ≤ (text.drop n).count ')' := by
  have hwhole := h.count_eq
  have hfront := h.count_take_le n
  rw [← List.take_append_drop n text, List.count_append, List.count_append] at hwhole
  omega

/-- An opening bracket of a balanced text is closed in it. -/
theorem exists_closing (h : Balanced text) (htext : text = front ++ '(' :: back) :
    ∃ inner rest, Balanced inner ∧ back = inner ++ ')' :: rest := by
  induction h generalizing front back with
  | nil => cases front <;> cases htext
  | plain hopening _ _ ih =>
    cases front with
    | nil => exact absurd (List.cons.inj htext).1 hopening
    | cons c front => exact ih (List.cons.inj htext).2
  | @brackets inner rest hinner _ ihInner ihRest =>
    cases front with
    | nil => exact ⟨inner, rest, hinner, (List.cons.inj htext).2.symm⟩
    | cons c front =>
      obtain ⟨more, rfl, hrest⟩ | ⟨more, rfl, hback⟩ :=
        List.append_eq_append_iff.mp (List.cons.inj htext).2
      · -- the bracket stands behind the first pair
        cases more with
        | nil => cases hrest
        | cons c more => exact ihRest (List.cons.inj hrest).2
      · -- the bracket stands inside the first pair
        cases more with
        | nil => cases hback
        | cons c more =>
          obtain ⟨hc, rfl⟩ := List.cons.inj hback
          obtain ⟨deeper, behind, hdeeper, rfl⟩ := ihInner (by rw [hc])
          exact ⟨deeper, behind ++ ')' :: rest, hdeeper, by simp⟩

/-- What a fence encloses may be balanced, and then the fence is. -/
theorem enclose (h : Balanced text) (fence : Fence) :
    Balanced (fence.opening :: (text ++ [fence.closing])) := by
  cases fence with
  | brackets => exact .brackets h .nil
  | bars =>
    have hbar : Balanced ['|'] := .plain (by decide) (by decide) .nil
    exact .plain (by decide) (by decide) (h.append hbar)

end Balanced

/-! ## What is pending -/

/-- A text in which the given fences are open, the innermost first, with their positions: stretches
which are balanced, separated by the delimiters which have opened them. -/
inductive Pending : List Char → List (Fence × Nat) → Prop
  | bottom {text : List Char} (balanced : Balanced text) : Pending text []
  | opened {text inner : List Char} {fences : List (Fence × Nat)} (fence : Fence)
      (around : Pending text fences) (balanced : Balanced inner) :
      Pending (text ++ fence.opening :: inner) ((fence, text.length) :: fences)

namespace Pending

variable {text more : List Char} {fences : List (Fence × Nat)} {fence : Fence} {position : Nat}

/-- Where no fence is open all is balanced. -/
theorem balanced (h : Pending text []) : Balanced text := by
  cases h with
  | bottom balanced => exact balanced

/-- A balanced text behind a text leaves its fences open. -/
theorem append (h : Pending text fences) (hmore : Balanced more) :
    Pending (text ++ more) fences := by
  cases h with
  | bottom balanced => exact .bottom (balanced.append hmore)
  | opened fence around balanced =>
    rw [List.append_assoc]
    exact .opened fence around (balanced.append hmore)

/-- The delimiter which closes the innermost fence leaves those around it open. -/
theorem close (h : Pending text ((fence, position) :: fences)) :
    Pending (text ++ [fence.closing]) fences := by
  cases h with
  | opened _ around balanced =>
    rw [List.append_assoc]
    exact around.append (balanced.enclose fence)

/-- An open fence has been opened by the delimiter at its position. -/
theorem getElem? (h : Pending text fences) (hmem : (fence, position) ∈ fences) :
    text[position]? = some fence.opening := by
  induction h with
  | bottom _ => cases hmem
  | @opened text inner fences outer around balanced ih =>
    obtain hhead | htail := List.mem_cons.mp hmem
    · cases hhead
      rw [List.getElem?_append_right (Nat.le_refl _), Nat.sub_self, List.getElem?_cons_zero]
    · have hfound := ih htail
      rw [List.getElem?_append_left (List.getElem?_eq_some_iff.mp hfound).1, hfound]

/-- Behind the delimiter of an open fence no more brackets have been closed than opened. -/
theorem count_le (h : Pending text fences) (hmem : (fence, position) ∈ fences) (n : Nat) :
    ((text.drop (position + 1)).take n).count ')' ≤
      ((text.drop (position + 1)).take n).count '(' := by
  induction h generalizing n with
  | bottom _ => cases hmem
  | @opened text inner fences outer around balanced ih =>
    obtain hhead | htail := List.mem_cons.mp hmem
    · cases hhead
      have hdrop : (text ++ fence.opening :: inner).drop (text.length + 1) = inner := by simp
      rw [hdrop]
      exact balanced.count_take_le n
    · have hlt := (List.getElem?_eq_some_iff.mp (around.getElem? htail)).1
      have hfront := ih htail n
      rw [List.drop_append_of_le_length hlt, List.take_append, List.count_append,
        List.count_append]
      -- the stretch of the innermost fence and the delimiter in front of it
      have hback : ∀ m, ((outer.opening :: inner).take m).count ')' ≤
          ((outer.opening :: inner).take m).count '(' := by
        intro m
        have hstretch := balanced.count_take_le (m - 1)
        cases m with
        | zero => simp
        | succ m =>
          rw [List.take_succ_cons]
          rw [Nat.add_sub_cancel] at hstretch
          cases outer <;> simp only [opening, List.count_cons] <;> simp <;> omega
      exact Nat.add_le_add hfront (hback _)

end Pending

/-! ## Grouping balanced texts -/

variable {α : Type} {key : α → Char}

/-- The open fences of a grouping, the innermost first, with their positions. -/
def Grouping.fences (grouping : Grouping α) : List (Fence × Nat) :=
  grouping.opened.map fun opened => (opened.fence, opened.position)

/-- Closing a fence leaves the fences around it. -/
theorem fences_of_close? {grouping closed : Grouping α} {fence : Fence}
    (h : grouping.close? fence = some closed) :
    ∃ position, grouping.fences = (fence, position) :: closed.fences := by
  obtain ⟨innermost, outer, hopened, rfl, rfl⟩ := close?_eq_some_iff.mp h
  exact ⟨innermost.position, by rw [Grouping.fences, hopened]; rfl⟩

/-- The fences which are open in a text are those which its grouping holds, item by item. -/
theorem Pending.step {text : List Char} {grouping next : Grouping α} {item : α}
    (h : Pending text grouping.fences) (hstep : step key text.length grouping item = .ok next) :
    Pending (text ++ [key item]) next.fences := by
  have hopen : ∀ fence : Fence, key item = fence.opening →
      Pending (text ++ [key item]) (grouping.openFence fence text.length).fences := by
    intro fence hkey
    rw [hkey]
    exact .opened fence h .nil
  have hclose : ∀ fence : Fence, key item = fence.closing → grouping.close? fence = some next →
      Pending (text ++ [key item]) next.fences := by
    intro fence hkey hclosed
    obtain ⟨position, hfences⟩ := fences_of_close? hclosed
    rw [hfences] at h
    rw [hkey]
    exact h.close
  obtain ⟨hplain, rfl⟩ | ⟨hkey, rfl⟩ | ⟨hkey, hclosed⟩ | ⟨hkey, hclosed, -⟩ | ⟨hkey, rfl, -⟩ :=
    step_cases hstep
  · simp only [List.mem_cons, List.not_mem_nil, or_false, not_or] at hplain
    exact h.append (.plain hplain.1 hplain.2.1 .nil)
  · exact hopen .brackets hkey
  · exact hclose .brackets hkey hclosed
  · exact hclose .bars hkey hclosed
  · exact hopen .bars hkey

/-- A sequence which can be grouped is balanced, with its bars and behind any balanced front. -/
theorem balanced_of_group {front : List Char} (hfront : Balanced front) {items : List α}
    {spans : List (Span α)} (h : group key front.length items = .ok spans) :
    Balanced (front ++ items.map key) := by
  have hempty : Pending (front ++ [].map key) (Grouping.empty : Grouping α).fences := by
    rw [List.map_nil, List.append_nil]
    exact .bottom hfront
  have hkeep : ∀ {done : List α} {grouping item next},
      Pending (front ++ done.map key) grouping.fences →
        step key (front.length + done.length) grouping item = .ok next →
          Pending (front ++ (done ++ [item]).map key) next.fences := by
    intro done grouping item next hpending hstep
    have hlength : (front ++ done.map key).length = front.length + done.length := by simp
    rw [← hlength] at hstep
    rw [List.map_append, ← List.append_assoc]
    exact hpending.step hstep
  obtain ⟨content, -, hpending⟩ := group_induction
    (P := fun done grouping => Pending (front ++ done.map key) grouping.fences) hempty hkeep h
  exact Pending.balanced hpending

/-- A balanced text without bars can be grouped. -/
theorem Balanced.exists_groups {text : List Char} (h : Balanced text) (hbars : '|' ∉ text) :
    ∃ spans, GroupsOutside id text spans := by
  induction h with
  | nil => exact ⟨[], fun _ _ _ _ => rfl⟩
  | @plain c behind hopening hclosing _ ih =>
    obtain ⟨hc, hbehind⟩ := not_or.mp (List.mem_cons.not.mp hbars)
    obtain ⟨spans, hspans⟩ := ih hbehind
    have hplain : ∀ other ∈ [c], id other ∉ ['(', ')', '|'] :=
      List.forall_mem_singleton.mpr (by simp [hopening, hclosing, Ne.symm hc])
    exact ⟨_, (GroupsOutside.plain hplain).append hspans⟩
  | @brackets inner behind _ _ ihInner ihBehind =>
    simp only [List.mem_cons, List.mem_append, not_or] at hbars
    obtain ⟨content, hcontent⟩ := ihInner hbars.2.1
    obtain ⟨spans, hspans⟩ := ihBehind hbars.2.2.2
    have hfence : GroupsOutside id ('(' :: inner ++ [')']) [.enclosed .brackets content] :=
      hcontent.enclosed rfl rfl
    have hboth := hfence.append hspans
    rw [List.cons_append, List.cons_append, List.append_assoc] at hboth
    exact ⟨_, hboth⟩

end FormulaEditor.Fence
