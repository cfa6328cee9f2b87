import FormulaEditor.Proofs.Line.Spelling

/-!
# Sequences inside others

What a bar does depends on the innermost fence and on what stands before the bar in it, so a
sequence with bars is in general not grouped inside another one as it is on its own: behind an open
bar its own bars may close. Anywhere else it is, at any position, whatever stands before and behind
it (`Fence.groupsOutside_of_group`). In particular it is so between brackets.
-/

set_option autoImplicit false

namespace FormulaEditor.Fence

variable {α : Type} {key : α → Char}

/-- Items are grouped into the same spans wherever the innermost open fence is not one of bars. -/
def GroupsOutside (key : α → Char) (items : List α) (spans : List (Span α)) : Prop :=
  ∀ position (grouping : Grouping α) rest, grouping.close? .bars = none →
    groupFrom key position grouping (items ++ rest) =
      groupFrom key (position + items.length) (grouping.addAll spans) rest

/-! ## Grouping in a context -/

/-- The second grouping is the first one in a context: below the fences of the first one, which may
have other positions, are those of the context, and behind what the context holds stands what the
first one holds. -/
inductive Under (context : Grouping α) : Grouping α → Grouping α → Prop
  | bottom (content : List (Span α)) :
      Under context ⟨[], content⟩ ⟨context.opened, content ++ context.content⟩
  | fence {innermost innermost' : Opened α} {outer outer' : List (Opened α)}
      (content : List (Span α)) (same : innermost'.fence = innermost.fence)
      (around : Under context ⟨outer, innermost.before⟩ ⟨outer', innermost'.before⟩) :
      Under context ⟨innermost :: outer, content⟩ ⟨innermost' :: outer', content⟩

namespace Under

variable {context grouping grouping' closed next : Grouping α}

/-- A span may be added on both sides. -/
theorem cons (h : Under context grouping grouping') (span : Span α) :
    Under context ⟨grouping.opened, span :: grouping.content⟩
      ⟨grouping'.opened, span :: grouping'.content⟩ := by
  cases h with
  | bottom content => exact .bottom (span :: content)
  | fence content same around => exact .fence (span :: content) same around

/-- A fence which is opened in a grouping is opened in the context as well. -/
theorem openFence (h : Under context grouping grouping') (fence : Fence) (position position' : Nat) :
    Under context (grouping.openFence fence position) (grouping'.openFence fence position') :=
  .fence [] rfl h

/-- A fence which can be closed can be closed in a context. -/
theorem close? (h : Under context grouping grouping') {fence : Fence}
    (hclosed : grouping.close? fence = some closed) :
    ∃ closed', grouping'.close? fence = some closed' ∧ Under context closed closed' := by
  obtain ⟨innermost, outer, hopened, hfence, rfl⟩ := close?_eq_some_iff.mp hclosed
  cases h with
  | bottom content => cases hopened
  | fence content same around =>
    cases hopened
    exact ⟨_, close?_eq_some_iff.mpr ⟨_, _, rfl, same.trans hfence, rfl⟩, around.cons _⟩

/-- A bar which opens a fence opens one in a context whose innermost fence is not one of bars. -/
theorem opens_bar (h : Under context grouping grouping') (hcontext : context.close? .bars = none)
    (hopens : grouping.close? .bars = none ∨ endsTerm key grouping.content = false) :
    grouping'.close? .bars = none ∨ endsTerm key grouping'.content = false := by
  cases h with
  | bottom content =>
    -- nothing of the sequence itself is open, so the bar meets the innermost fence of the context
    have hinnermost := close?_eq_none_iff.mp hcontext
    exact .inl (close?_eq_none_iff.mpr hinnermost)
  | fence content same around =>
    refine hopens.imp_left fun hnone => close?_eq_none_iff.mpr ?_
    rintro _ _ ⟨⟩ hfence
    exact close?_eq_none_iff.mp hnone _ _ rfl (same.symm.trans hfence)

/-- What is grouped is grouped in the same way in a context. -/
theorem step (h : Under context grouping grouping') (hcontext : context.close? .bars = none)
    {position : Nat} {item : α} (hstep : Fence.step key position grouping item = .ok next)
    (position' : Nat) :
    ∃ next', Fence.step key position' grouping' item = .ok next' ∧ Under context next next' := by
  rw [Fence.step]
  obtain ⟨hplain, rfl⟩ | ⟨hkey, rfl⟩ | ⟨hkey, hclosed⟩ | ⟨hkey, hclosed, hends⟩ |
      ⟨hkey, rfl, hopens⟩ :=
    step_cases hstep
  · simp only [List.mem_cons, List.not_mem_nil, or_false, not_or] at hplain
    rw [if_neg hplain.1, if_neg hplain.2.1, if_neg hplain.2.2]
    exact ⟨_, rfl, h.cons _⟩
  · rw [if_pos hkey]
    exact ⟨_, rfl, h.openFence _ _ _⟩
  · obtain ⟨closed', hclosed', hunder⟩ := h.close? hclosed
    rw [hkey, if_neg (by decide), if_pos rfl, hclosed']
    exact ⟨_, rfl, hunder⟩
  · obtain ⟨closed', hclosed', hunder⟩ := h.close? hclosed
    have hcontent : endsTerm key grouping'.content = true := by
      cases h with
      | bottom content => exact endsTerm_append hends _
      | fence content same around => exact hends
    rw [hkey, if_neg (by decide), if_neg (by decide), if_pos rfl, hclosed', hcontent]
    exact ⟨_, rfl, hunder⟩
  · rw [hkey, if_neg (by decide), if_neg (by decide), if_pos rfl]
    have hunder := h.openFence .bars position position'
    obtain hnone | hends := h.opens_bar hcontext hopens
    · rw [hnone]
      exact ⟨_, rfl, hunder⟩
    · rw [hends]
      cases grouping'.close? .bars <;> exact ⟨_, rfl, hunder⟩

/-- In a context in which no bar can be closed, a sequence is grouped as on its own, and what comes
behind it is grouped with its spans added. -/
theorem groupFrom_eq (h : Under context grouping grouping')
    (hcontext : context.close? .bars = none) {position : Nat} {items : List α}
    {spans : List (Span α)} (hspans : groupFrom key position grouping items = .ok spans)
    (position' : Nat) (rest : List α) :
    groupFrom key position' grouping' (items ++ rest) =
      groupFrom key (position' + items.length) (context.addAll spans) rest := by
  induction items generalizing position position' grouping grouping' with
  | nil =>
    cases h with
    | bottom content =>
      cases hspans
      simp [Grouping.addAll]
    | fence content same around => cases hspans
  | cons item items ih =>
    rw [groupFrom] at hspans
    cases hstep : Fence.step key position grouping item with
    | error refused =>
      rw [hstep] at hspans
      cases hspans
    | ok next =>
      rw [hstep] at hspans
      obtain ⟨next', hstep', hunder⟩ := h.step hcontext hstep position'
      rw [List.cons_append, groupFrom, hstep', List.length_cons,
        show position' + (items.length + 1) = position' + 1 + items.length by omega]
      exact ih hunder hspans (position' + 1)

end Under

/-! ## Sequences put together -/

/-- What can be grouped on its own is grouped in the same way outside of bars. -/
theorem groupsOutside_of_group {position : Nat} {items : List α} {spans : List (Span α)}
    (h : group key position items = .ok spans) : GroupsOutside key items spans := by
  intro position' grouping rest houtside
  have hunder : Under grouping .empty grouping := .bottom []
  exact hunder.groupFrom_eq houtside h position' rest

namespace GroupsOutside

variable {items others : List α} {spans more : List (Span α)}

/-- What is grouped alike everywhere outside of bars is grouped so on its own. -/
theorem group_eq (h : GroupsOutside key items spans) (position : Nat) :
    group key position items = .ok spans := by
  have hall := h position .empty [] rfl
  rw [List.append_nil] at hall
  rw [group, hall, groupFrom]
  simp [Grouping.addAll, Grouping.empty]

/-- Sequences which are grouped alike outside of bars can be put one after the other. -/
theorem append (h : GroupsOutside key items spans) (hmore : GroupsOutside key others more) :
    GroupsOutside key (items ++ others) (spans ++ more) := by
  intro position grouping rest houtside
  -- the open fences stay what they were, so the innermost one is still not one of bars
  have hinnermost := close?_eq_none_iff.mp houtside
  have houtside' : (grouping.addAll spans).close? .bars = none :=
    close?_eq_none_iff.mpr hinnermost
  rw [List.append_assoc, h position grouping _ houtside, hmore _ _ rest houtside',
    List.length_append, Nat.add_assoc]
  congr 1
  simp [Grouping.addAll]

/-- Items which are no delimiters are grouped alike everywhere. -/
theorem plain {plain : List α} (hplain : ∀ item ∈ plain, key item ∉ ['(', ')', '|']) :
    GroupsOutside key plain (plain.map .single) := by
  induction plain with
  | nil => exact fun _ _ _ _ => rfl
  | cons item plain ih =>
    obtain ⟨hitem, hothers⟩ := List.forall_mem_cons.mp hplain
    have hone : GroupsOutside key [item] [.single item] := fun position grouping rest _ =>
      groupFrom_plain hitem position grouping rest
    exact hone.append (ih hothers)

/-- Between brackets a sequence is not inside of bars. -/
theorem enclosed (h : GroupsOutside key items spans) {left right : α} (hleft : key left = '(')
    (hright : key right = ')') :
    GroupsOutside key (left :: items ++ [right]) [.enclosed .brackets spans] := by
  intro position grouping rest _
  rw [List.append_assoc, List.singleton_append, groupFrom_enclosed hleft hright (h _ _ _ rfl)]
  congr 1
  simp only [List.length_append, List.length_cons, List.length_nil]
  omega

end GroupsOutside

end FormulaEditor.Fence
