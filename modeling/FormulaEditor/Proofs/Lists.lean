import Mathlib.Data.List.Forall2
import Mathlib.Data.Option.Basic

/-!
# Two lists compared by their items

What is found at the same place of two lists corresponds if the items of the lists do, one by one. A
list is part of another one without repetitions if any two of its items stand in the other one in
the same order.
-/

set_option autoImplicit false

namespace FormulaEditor

open List (Forall₂)

variable {α β γ : Type} {R S : α → β → Prop} {list : List α} {list' : List β}

/-- Related lists have related members at each position. -/
theorem rel_getElem? (h : Forall₂ R list list') (index : Nat) :
    Option.Rel R list[index]? list'[index]? := by
  induction h generalizing index with
  | nil => exact .none
  | cons hitem _ ih =>
    cases index with
    | zero => exact .some hitem
    | succ index => exact ih index

/-- Related lists end with related members. -/
theorem rel_getLast? (h : Forall₂ R list list') : Option.Rel R list.getLast? list'.getLast? := by
  rw [List.getLast?_eq_getElem?, List.getLast?_eq_getElem?, h.length_eq]
  exact rel_getElem? h _

/-- A relation between lists can be replaced by one which follows from it for their members. -/
theorem forall₂_imp_of_mem (h : Forall₂ R list list')
    (himp : ∀ a ∈ list, ∀ b ∈ list', R a b → S a b) : Forall₂ S list list' := by
  induction h with
  | nil => exact .nil
  | cons hhead _ ih =>
    exact .cons (himp _ List.mem_cons_self _ List.mem_cons_self hhead) (ih fun a ha b hb =>
      himp a (List.mem_cons_of_mem _ ha) b (List.mem_cons_of_mem _ hb))

/-- Functions which agree on related members pick the same from related lists. -/
theorem filterMap_eq_of_forall₂ {f : α → Option γ} {g : β → Option γ} (h : Forall₂ R list list')
    (hfg : ∀ a b, R a b → f a = g b) : list.filterMap f = list'.filterMap g := by
  induction h with
  | nil => rfl
  | cons hitem _ ih => rw [List.filterMap_cons, List.filterMap_cons, hfg _ _ hitem, ih]

/-- If nothing is left out of two lists, equal results come from items at the same position. -/
theorem forall₂_of_filterMap_eq {f : α → Option γ} {g : β → Option γ}
    (hf : ∀ a ∈ list, f a ≠ none) (hg : ∀ b ∈ list', g b ≠ none)
    (h : list.filterMap f = list'.filterMap g) : Forall₂ (fun a b => f a = g b) list list' := by
  induction list generalizing list' with
  | nil =>
    cases list' with
    | nil => exact .nil
    | cons b list' =>
      obtain ⟨c, hc⟩ := Option.ne_none_iff_exists'.mp (hg b List.mem_cons_self)
      rw [List.filterMap_cons, hc] at h
      cases h
  | cons a list ih =>
    obtain ⟨c, hc⟩ := Option.ne_none_iff_exists'.mp (hf a List.mem_cons_self)
    rw [List.filterMap_cons, hc] at h
    cases list' with
    | nil => cases h
    | cons b list' =>
      obtain ⟨d, hd⟩ := Option.ne_none_iff_exists'.mp (hg b List.mem_cons_self)
      rw [List.filterMap_cons, hd] at h
      obtain ⟨rfl, hrest⟩ := List.cons.inj h
      exact .cons (hc.trans hd.symm) (ih (fun a ha => hf a (List.mem_cons_of_mem _ ha))
        (fun b hb => hg b (List.mem_cons_of_mem _ hb)) hrest)

section

variable [BEq α] [LawfulBEq α] [BEq β] [LawfulBEq β] (hunique : Relator.BiUnique R) {x : α} {y : β}
  (hxy : R x y)

include hunique hxy

/-- Under a relation which is one to one, a member is a given one just if its partner is the partner
of that one. -/
theorem beq_eq_of_rel {a : α} {b : β} (h : R a b) : (a == x) = (b == y) := by
  rw [Bool.eq_iff_iff, beq_iff_eq, beq_iff_eq]
  exact Relator.rel_eq hunique h hxy

/-- Under a relation which is one to one, partners are found at the same position of related lists.
-/
theorem idxOf?_eq_of_forall₂ (h : Forall₂ R list list') : list.idxOf? x = list'.idxOf? y := by
  induction h with
  | nil => rfl
  | cons hitem _ ih =>
    rw [List.idxOf?_cons, List.idxOf?_cons, ih, beq_eq_of_rel hunique hxy hitem]

/-- Under a relation which is one to one, erasing partners from related lists leaves related lists.
-/
theorem forall₂_erase (h : Forall₂ R list list') : Forall₂ R (list.erase x) (list'.erase y) := by
  induction h with
  | nil => exact .nil
  | cons hitem hitems ih =>
    rw [List.erase_cons, List.erase_cons, beq_eq_of_rel hunique hxy hitem]
    split
    · exact hitems
    · exact .cons hitem ih

end

/-! ## Order -/

section

variable {a b : α} {more : List α}

/-- Two items stand in this order in what two lists make up if they do in one of the two, or if one
of them is in each. -/
theorem pair_sublist_append : [a, b].Sublist (list ++ more) ↔
    [a, b].Sublist list ∨ a ∈ list ∧ b ∈ more ∨ [a, b].Sublist more := by
  constructor
  · intro h
    obtain ⟨front, back, hsplit, hfront, hback⟩ := List.sublist_append_iff.mp h
    obtain ⟨rfl, rfl⟩ | ⟨tail, rfl, htail⟩ := List.cons_eq_append_iff.mp hsplit
    · exact .inr (.inr hback)
    obtain ⟨rfl, rfl⟩ | ⟨last, rfl, hlast⟩ := List.cons_eq_append_iff.mp htail
    · exact .inr (.inl ⟨List.singleton_sublist.mp hfront, List.singleton_sublist.mp hback⟩)
    · obtain ⟨rfl, rfl⟩ := List.append_eq_nil_iff.mp hlast.symm
      exact .inl hfront
  · rintro (h | ⟨ha, hb⟩ | h)
    · exact h.trans (List.sublist_append_left _ _)
    · exact (List.singleton_sublist.mpr ha).append (List.singleton_sublist.mpr hb)
    · exact h.trans (List.sublist_append_right _ _)

/-- A list is part of another one without repetitions if all its items are in the other one, and any
two of them in the same order. -/
theorem sublist_of_pairs (hnodup : more.Nodup) (hmem : ∀ a ∈ list, a ∈ more)
    (hpairs : ∀ a b, [a, b].Sublist list → [a, b].Sublist more) : list.Sublist more := by
  induction list generalizing more with
  | nil => exact List.nil_sublist more
  | cons first list ih =>
    obtain ⟨front, back, rfl⟩ := List.append_of_mem (hmem first List.mem_cons_self)
    obtain ⟨-, hback, hdisjoint⟩ := List.nodup_append.mp hnodup
    obtain ⟨hfirst, hnodupBack⟩ := List.nodup_cons.mp hback
    have hout : ∀ {a}, a ∈ front → a ∈ first :: back → False := fun hfront hback =>
      hdisjoint _ hfront _ hback rfl
    -- what comes behind the first item of the list comes behind it in the other list, too
    have hlater : ∀ a ∈ list, a ∈ back := by
      intro a ha
      obtain hfront | ⟨hfront, -⟩ | hcons := pair_sublist_append.mp
        (hpairs first a ((List.singleton_sublist.mpr ha).cons_cons first))
      · exact (hout (hfront.subset List.mem_cons_self) List.mem_cons_self).elim
      · exact (hout hfront List.mem_cons_self).elim
      · exact List.singleton_sublist.mp (List.cons_sublist_cons.mp hcons)
    refine List.Sublist.trans ?_ (List.sublist_append_right front _)
    refine (ih hnodupBack hlater fun a b hsub => ?_).cons_cons first
    have ha := hlater a (hsub.subset List.mem_cons_self)
    obtain hfront | ⟨hfront, -⟩ | hcons := pair_sublist_append.mp (hpairs a b (hsub.cons first))
    · exact (hout (hfront.subset List.mem_cons_self) (List.mem_cons_of_mem _ ha)).elim
    · exact (hout hfront (List.mem_cons_of_mem _ ha)).elim
    · obtain hrest | ⟨rest, heq, -⟩ := List.sublist_cons_iff.mp hcons
      · exact hrest
      · cases heq
        exact absurd ha hfirst
end

end FormulaEditor
