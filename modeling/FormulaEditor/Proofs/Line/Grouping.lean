import FormulaEditor.Line.Fence

/-!
# Grouping a sequence

Grouping only looks at the characters of the items: a change of items which keeps their characters
can be made before or after (`Fence.group_map`). It neither makes up items nor forgets any but the
delimiters (`Fence.mem_of_group`).
-/

set_option autoImplicit false

namespace FormulaEditor

variable {α β : Type}

/-! ## Changing the items of a span -/

namespace Span

mutual

/-- A span with every item changed. -/
def map (f : α → β) : Span α → Span β
  | single item => .single (f item)
  | enclosed fence content => .enclosed fence (mapAll f content)

/-- Spans with every item changed. -/
def mapAll (f : α → β) : List (Span α) → List (Span β)
  | [] => []
  | span :: spans => span.map f :: mapAll f spans

end

/-- Spans are changed one by one. -/
theorem mapAll_eq_map (f : α → β) (spans : List (Span α)) : mapAll f spans = spans.map (map f) := by
  induction spans with
  | nil => rw [mapAll, List.map_nil]
  | cons span spans ih => rw [mapAll, ih, List.map_cons]

mutual

/-- The items of a span, without the delimiters of fences. -/
def items : Span α → List α
  | single item => [item]
  | enclosed _ content => allItems content

/-- The items of several spans, without the delimiters of fences. -/
def allItems : List (Span α) → List α
  | [] => []
  | span :: spans => span.items ++ allItems spans

end

/-- The items of several spans are those of each of them. -/
theorem mem_allItems {spans : List (Span α)} {item : α} :
    item ∈ allItems spans ↔ ∃ span ∈ spans, item ∈ span.items := by
  induction spans with
  | nil => simp [allItems]
  | cons span spans ih => simp [allItems, ih]

end Span

/-! ## Grouping changed items -/

namespace Fence

/-- A grouping with every item changed. -/
def Grouping.map (f : α → β) (grouping : Grouping α) : Grouping β where
  opened := grouping.opened.map fun opened =>
    ⟨opened.fence, opened.position, opened.before.map (Span.map f)⟩
  content := grouping.content.map (Span.map f)

variable {key : α → Char} {other : β → Char} {f : α → β}

/-- Whether a term can end somewhere only depends on characters. -/
theorem endsTerm_map (h : ∀ item, other (f item) = key item) (spans : List (Span α)) :
    endsTerm other (spans.map (Span.map f)) = endsTerm key spans := by
  cases spans with
  | nil => rfl
  | cons span spans =>
    cases span with
    | single item => simp [endsTerm, Span.map, h]
    | enclosed fence content => simp [endsTerm, Span.map]

/-- Items may be changed before a fence is closed or after it. -/
theorem close?_map (grouping : Grouping α) (fence : Fence) :
    (grouping.map f).close? fence = (grouping.close? fence).map (Grouping.map f) := by
  obtain ⟨opened, content⟩ := grouping
  cases opened with
  | nil => rfl
  | cons innermost outer =>
    by_cases hfence : innermost.fence = fence
    · simp [Grouping.close?, Grouping.map, Span.map, Span.mapAll_eq_map, hfence]
    · simp [Grouping.close?, Grouping.map, hfence]

/-- One step of grouping only depends on the character of the item. -/
theorem step_map (h : ∀ item, other (f item) = key item) (position : Nat) (grouping : Grouping α)
    (item : α) :
    step other position (grouping.map f) (f item) =
      (step key position grouping item).map (Grouping.map f) := by
  rw [step, step, h, close?_map, close?_map]
  have hends : endsTerm other (grouping.map f).content = endsTerm key grouping.content :=
    endsTerm_map h grouping.content
  by_cases hopening : key item = '('
  · rw [if_pos hopening, if_pos hopening]
    rfl
  rw [if_neg hopening, if_neg hopening]
  by_cases hclosing : key item = ')'
  · rw [if_pos hclosing, if_pos hclosing]
    cases grouping.close? .brackets <;> rfl
  rw [if_neg hclosing, if_neg hclosing]
  by_cases hbar : key item = '|'
  · rw [if_pos hbar, if_pos hbar, hends]
    cases grouping.close? .bars with
    | none => rfl
    | some closed => cases endsTerm key grouping.content <;> rfl
  · rw [if_neg hbar, if_neg hbar]
    simp [Grouping.add, Grouping.map, Span.map, Except.map]

/-- Items may be changed before the rest of a sequence is grouped or after it, if this leaves their
characters as they are. -/
theorem groupFrom_map (h : ∀ item, other (f item) = key item) (position : Nat)
    (grouping : Grouping α) (items : List α) :
    groupFrom other position (grouping.map f) (items.map f) =
      (groupFrom key position grouping items).map (Span.mapAll f) := by
  induction items generalizing position grouping with
  | nil =>
    obtain ⟨opened, content⟩ := grouping
    cases opened with
    | nil => simp [groupFrom, Grouping.map, Except.map, Span.mapAll_eq_map]
    | cons innermost outer => simp [groupFrom, Grouping.map, Except.map]
  | cons item items ih =>
    rw [List.map_cons, groupFrom, groupFrom, step_map h]
    cases step key position grouping item with
    | error e => rfl
    | ok next => exact ih (position + 1) next

/-- Items may be changed before or after they are grouped, if their characters stay the same. -/
theorem group_map (h : ∀ item, other (f item) = key item) (position : Nat) (items : List α) :
    group other position (items.map f) = (group key position items).map (Span.mapAll f) :=
  groupFrom_map h position .empty items

/-! ## One step of grouping -/

/-- A fence is closed if it is the innermost one, and then its content is a span. -/
theorem close?_eq_some_iff {grouping closed : Grouping α} {fence : Fence} :
    grouping.close? fence = some closed ↔ ∃ innermost outer,
      grouping.opened = innermost :: outer ∧ innermost.fence = fence ∧
        closed = ⟨outer, .enclosed fence grouping.content.reverse :: innermost.before⟩ := by
  obtain ⟨opened, content⟩ := grouping
  cases opened with
  | nil => simp [Grouping.close?]
  | cons innermost outer =>
    by_cases hfence : innermost.fence = fence
    · simp only [Grouping.close?, if_pos hfence, Option.some.injEq, List.cons.injEq]
      constructor
      · rintro rfl
        exact ⟨innermost, outer, ⟨rfl, rfl⟩, hfence, rfl⟩
      · rintro ⟨_, _, ⟨rfl, rfl⟩, -, rfl⟩
        rfl
    · simp [Grouping.close?, hfence]

/-- A fence cannot be closed if the innermost one is of the other kind, or if there is none. -/
theorem close?_eq_none_iff {grouping : Grouping α} {fence : Fence} :
    grouping.close? fence = none ↔
      ∀ innermost outer, grouping.opened = innermost :: outer → innermost.fence ≠ fence := by
  rw [Option.eq_none_iff_forall_ne_some]
  constructor
  · intro hnone innermost outer hopened hfence
    exact hnone _ (close?_eq_some_iff.mpr ⟨innermost, outer, hopened, hfence, rfl⟩)
  · intro hne closed hclosed
    obtain ⟨innermost, outer, hopened, hfence, -⟩ := close?_eq_some_iff.mp hclosed
    exact hne innermost outer hopened hfence

/-- An item is added, or opens a fence, or closes the innermost one. -/
theorem step_cases {position : Nat} {grouping next : Grouping α} {item : α}
    (h : step key position grouping item = .ok next) :
    (key item ∉ ['(', ')', '|'] ∧ next = grouping.add item) ∨
      (key item = '(' ∧ next = grouping.openFence .brackets position) ∨
      (key item = ')' ∧ grouping.close? .brackets = some next) ∨
      (key item = '|' ∧ grouping.close? .bars = some next ∧ endsTerm key grouping.content = true) ∨
      (key item = '|' ∧ next = grouping.openFence .bars position ∧
        (grouping.close? .bars = none ∨ endsTerm key grouping.content = false)) := by
  rw [step] at h
  by_cases hopening : key item = '('
  · rw [if_pos hopening] at h
    cases h
    exact .inr (.inl ⟨hopening, rfl⟩)
  rw [if_neg hopening] at h
  by_cases hclosing : key item = ')'
  · rw [if_pos hclosing] at h
    cases hclosed : grouping.close? .brackets with
    | none =>
      rw [hclosed] at h
      cases h
    | some closed =>
      rw [hclosed] at h
      cases h
      exact .inr (.inr (.inl ⟨hclosing, rfl⟩))
  rw [if_neg hclosing] at h
  by_cases hbar : key item = '|'
  · rw [if_pos hbar] at h
    cases hclosed : grouping.close? .bars with
    | none =>
      rw [hclosed] at h
      cases h
      exact .inr (.inr (.inr (.inr ⟨hbar, rfl, .inl rfl⟩)))
    | some closed =>
      rw [hclosed] at h
      cases hends : endsTerm key grouping.content with
      | true =>
        rw [hends] at h
        cases h
        exact .inr (.inr (.inr (.inl ⟨hbar, rfl, rfl⟩)))
      | false =>
        rw [hends] at h
        cases h
        exact .inr (.inr (.inr (.inr ⟨hbar, rfl, .inr rfl⟩)))
  · rw [if_neg hbar] at h
    cases h
    exact .inl ⟨by simp [hopening, hclosing, hbar], rfl⟩

/-! ## All steps of grouping -/

/-- What every step keeps while the rest of a sequence is grouped holds at the end, where no fence is
open any more. -/
theorem groupFrom_induction {P : List α → Grouping α → Prop} {position : Nat}
    (hkeep : ∀ {done grouping item next}, P done grouping →
      step key (position + done.length) grouping item = .ok next → P (done ++ [item]) next)
    {done items : List α} {grouping : Grouping α} {spans : List (Span α)} (hdone : P done grouping)
    (h : groupFrom key (position + done.length) grouping items = .ok spans) :
    ∃ content, spans = content.reverse ∧ P (done ++ items) ⟨[], content⟩ := by
  induction items generalizing done grouping with
  | nil =>
    obtain ⟨opened, content⟩ := grouping
    cases opened with
    | cons innermost outer => cases h
    | nil =>
      cases h
      exact ⟨content, rfl, by rwa [List.append_nil]⟩
  | cons item items ih =>
    rw [groupFrom] at h
    cases hstep : step key (position + done.length) grouping item with
    | error refused =>
      rw [hstep] at h
      cases h
    | ok next =>
      rw [hstep] at h
      obtain ⟨content, hspans, hall⟩ := ih (hkeep hdone hstep) (by
        rwa [List.length_append, List.length_singleton, ← Nat.add_assoc])
      exact ⟨content, hspans, by rwa [List.append_assoc, List.singleton_append] at hall⟩

/-- What holds before the first item and is kept by every step holds of the spans of a sequence. -/
theorem group_induction {P : List α → Grouping α → Prop} {position : Nat} (hempty : P [] .empty)
    (hkeep : ∀ {done grouping item next}, P done grouping →
      step key (position + done.length) grouping item = .ok next → P (done ++ [item]) next)
    {items : List α} {spans : List (Span α)} (h : group key position items = .ok spans) :
    ∃ content, spans = content.reverse ∧ P items ⟨[], content⟩ :=
  groupFrom_induction hkeep hempty h

/-! ## The items of the spans -/

/-- The items which a grouping holds so far. -/
def Grouping.Holds (grouping : Grouping α) (item : α) : Prop :=
  (∃ opened ∈ grouping.opened, item ∈ Span.allItems opened.before) ∨
    item ∈ Span.allItems grouping.content

/-- Opening a fence adds no item. -/
theorem holds_openFence {grouping : Grouping α} {fence : Fence} {position : Nat} {found : α}
    (h : (grouping.openFence fence position).Holds found) : grouping.Holds found := by
  simpa [Grouping.Holds, Grouping.openFence, Span.allItems, or_comm] using h

/-- Closing a fence adds no item. -/
theorem holds_close? {grouping closed : Grouping α} {fence : Fence} {found : α}
    (hclosed : grouping.close? fence = some closed) (h : closed.Holds found) :
    grouping.Holds found := by
  obtain ⟨innermost, outer, hopened, -, rfl⟩ := close?_eq_some_iff.mp hclosed
  obtain ⟨opened, hmem, hbefore⟩ | hcontent := h
  · exact .inl ⟨opened, hopened ▸ List.mem_cons_of_mem _ hmem, hbefore⟩
  rw [Span.allItems, List.mem_append, Span.items] at hcontent
  obtain hcontent | hbefore := hcontent
  · obtain ⟨span, hspan, hitem⟩ := Span.mem_allItems.mp hcontent
    exact .inr (Span.mem_allItems.mpr ⟨span, List.mem_reverse.mp hspan, hitem⟩)
  · exact .inl ⟨innermost, hopened ▸ List.mem_cons_self, hbefore⟩

/-- Grouping one more item adds no other item. -/
theorem holds_step {position : Nat} {grouping next : Grouping α} {item found : α}
    (h : step key position grouping item = .ok next) (hfound : next.Holds found) :
    grouping.Holds found ∨ found = item := by
  obtain ⟨-, rfl⟩ | ⟨-, rfl⟩ | ⟨-, hclosed⟩ | ⟨-, hclosed, -⟩ | ⟨-, rfl, -⟩ := step_cases h
  · obtain hopened | hcontent := hfound
    · exact .inl (.inl hopened)
    · rw [Grouping.add, Span.allItems, Span.items, List.mem_append, List.mem_singleton] at hcontent
      obtain hitem | hcontent := hcontent
      · exact .inr hitem
      · exact .inl (.inr hcontent)
  · exact .inl (holds_openFence hfound)
  · exact .inl (holds_close? hclosed hfound)
  · exact .inl (holds_close? hclosed hfound)
  · exact .inl (holds_openFence hfound)

/-- Every item of the spans is an item of the sequence. -/
theorem mem_of_group {position : Nat} {items : List α} {spans : List (Span α)} {found : α}
    (h : group key position items = .ok spans) (hfound : found ∈ Span.allItems spans) :
    found ∈ items := by
  have hempty : ∀ found, (Grouping.empty : Grouping α).Holds found → found ∈ [] := by
    rintro found (⟨opened, hopened, -⟩ | hcontent)
    · cases hopened
    · cases hcontent
  have hkeep : ∀ {done : List α} {grouping item next},
      (∀ found, grouping.Holds found → found ∈ done) →
        step key (position + done.length) grouping item = .ok next →
          ∀ found, next.Holds found → found ∈ done ++ [item] := by
    intro done grouping item next hdone hstep found hfound
    obtain hold | rfl := holds_step hstep hfound
    · exact List.mem_append_left _ (hdone found hold)
    · exact List.mem_append_right _ List.mem_cons_self
  obtain ⟨content, rfl, hholds⟩ := group_induction
    (P := fun done grouping => ∀ found, grouping.Holds found → found ∈ done) hempty hkeep h
  obtain ⟨span, hspan, hitem⟩ := Span.mem_allItems.mp hfound
  exact hholds found (.inr (Span.mem_allItems.mpr ⟨span, List.mem_reverse.mp hspan, hitem⟩))

end Fence

end FormulaEditor
