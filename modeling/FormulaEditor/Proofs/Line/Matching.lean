import FormulaEditor.Proofs.Line.Partners

/-!
# How delimiters are matched

Where the fences of a sequence can be paired, being partners is a relation between its delimiters
which pairs every one of them with another one of its kind, and whose pairs do not cross
(`Fence.Matching`). Besides, a bar only closes a fence where a term has ended, so that it never
stands directly behind the bar which it closes. Both follow from how the spans of the sequence are
laid out, which also say what the partners are (`Fence.partners_eq`).
-/

set_option autoImplicit false

namespace FormulaEditor

variable {α : Type} {key : α → Char}

/-- Every fence of bars in a span encloses something after which a term can end. -/
inductive Span.Tight (key : α → Char) : Span α → Prop
  | single (item : α) : Tight key (.single item)
  | enclosed {fence : Fence} {content : List (Span α)}
      (ends : fence = .bars → Fence.endsTerm key content.reverse = true)
      (inner : ∀ span ∈ content, Tight key span) : Tight key (.enclosed fence content)

namespace Span

mutual

/-- How many items a span is made of, with the delimiters of its fences. -/
def extent : Span α → Nat
  | single _ => 1
  | enclosed _ content => extents content + 2

/-- How many items several spans are made of. -/
def extents : List (Span α) → Nat
  | [] => 0
  | span :: spans => span.extent + extents spans

end

mutual

/-- The partners of the items of a span which begins at the given position. -/
def mates : Nat → Span α → List (Option Nat)
  | _, single _ => [none]
  | position, enclosed _ content =>
    some (position + 1 + extents content) ::
      (allMates (position + 1) content ++ [some position])

/-- The partners of the items of several spans, the first of which begins at the given position. -/
def allMates : Nat → List (Span α) → List (Option Nat)
  | _, [] => []
  | position, span :: spans => span.mates position ++ allMates (position + span.extent) spans

end

end Span

namespace Fence

/-! ## Bars enclose what ends a term -/

/-- Every fence of bars which a grouping holds encloses something after which a term can end. -/
structure Grouping.Tight (key : α → Char) (grouping : Grouping α) : Prop where
  content : ∀ span ∈ grouping.content, span.Tight key
  opened : ∀ opened ∈ grouping.opened, ∀ span ∈ opened.before, span.Tight key

/-- Closing a fence of bars behind something after which a term can end keeps a grouping tight. -/
theorem tight_close? {grouping closed : Grouping α} {fence : Fence} (h : grouping.Tight key)
    (hends : fence = .bars → endsTerm key grouping.content = true)
    (hclosed : grouping.close? fence = some closed) : closed.Tight key := by
  obtain ⟨innermost, outer, hopened, -, rfl⟩ := close?_eq_some_iff.mp hclosed
  obtain ⟨hcontent, hbefore⟩ := h
  rw [hopened] at hbefore
  obtain ⟨hinnermost, houter⟩ := List.forall_mem_cons.mp hbefore
  refine ⟨List.forall_mem_cons.mpr ⟨?_, hinnermost⟩, houter⟩
  refine .enclosed (fun hfence => ?_) fun span hspan => hcontent span (List.mem_reverse.mp hspan)
  rw [List.reverse_reverse]
  exact hends hfence

/-- Grouping one more item keeps a grouping tight. -/
theorem tight_step {position : Nat} {grouping next : Grouping α} {item : α}
    (h : grouping.Tight key) (hstep : step key position grouping item = .ok next) :
    next.Tight key := by
  have hopen : ∀ fence, (grouping.openFence fence position).Tight key := fun fence =>
    ⟨nofun, List.forall_mem_cons.mpr ⟨h.content, h.opened⟩⟩
  obtain ⟨-, rfl⟩ | ⟨-, rfl⟩ | ⟨-, hclosed⟩ | ⟨-, hclosed, hends⟩ | ⟨-, rfl, -⟩ := step_cases hstep
  · exact ⟨List.forall_mem_cons.mpr ⟨.single item, h.content⟩, h.opened⟩
  · exact hopen .brackets
  · exact tight_close? h (by rintro ⟨⟩) hclosed
  · exact tight_close? h (fun _ => hends) hclosed
  · exact hopen .bars

/-- The spans into which a sequence is grouped are tight. -/
theorem tight_of_group {position : Nat} {items : List α} {spans : List (Span α)}
    (h : group key position items = .ok spans) : ∀ span ∈ spans, span.Tight key := by
  have hempty : (Grouping.empty : Grouping α).Tight key := ⟨by rintro _ ⟨⟩, by rintro _ ⟨⟩⟩
  obtain ⟨content, rfl, htight⟩ :=
    group_induction (P := fun _ grouping => grouping.Tight key) hempty tight_step h
  exact fun span hspan => htight.content span (List.mem_reverse.mp hspan)

/-! ## Which delimiters are partners -/

variable {items : List α} {partners : List (Option Nat)} {lo hi : Nat} {spans : List (Span α)}

/-- A fence stands from one position to another one, among spans which are laid out. -/
inductive Fenced (key : α → Char) (items : List α) (partners : List (Option Nat))
    (first last : Nat) : Prop
  | intro (fence : Fence) (content : List (Span α))
      (opens : items[first]?.map key = some fence.opening)
      (closes : items[last]?.map key = some fence.closing)
      (forth : partners[first]? = some (some last)) (back : partners[last]? = some (some first))
      (laid : Laid key items partners (first + 1) content last)
      (tight : (Span.enclosed fence content).Tight key) : Fenced key items partners first last

/-- A fence begins before it ends. -/
theorem Fenced.lt {first last : Nat} (h : Fenced key items partners first last) : first < last := by
  obtain ⟨_, _, _, _, _, _, laid, _⟩ := h
  exact laid.le

namespace Laid

variable {p q : Nat}

/-- What stands at a position among spans is no delimiter, or is a delimiter of one of the fences. -/
theorem cases_at (h : Laid key items partners lo spans hi) (htight : ∀ span ∈ spans, span.Tight key)
    (hlo : lo ≤ p) (hhi : p < hi) :
    (partners[p]? = some none ∧ ∃ item, items[p]? = some item ∧ key item ∉ delimiters) ∨
      ∃ first last, Fenced key items partners first last ∧ lo ≤ first ∧ last < hi ∧
        (p = first ∨ p = last) := by
  induction h with
  | nil position => omega
  | @single position hi item spans found plain alone rest ih =>
    obtain rfl | hlt := Nat.eq_or_lt_of_le hlo
    · exact .inl ⟨alone, item, found, plain⟩
    obtain hnone | ⟨first, last, hfenced, hfirst, hlast, hp⟩ :=
      ih (List.forall_mem_cons.mp htight).2 hlt hhi
    · exact .inl hnone
    · exact .inr ⟨first, last, hfenced, Nat.le_of_succ_le hfirst, hlast, hp⟩
  | @enclosed first last hi fence content spans opens closes forth back inner rest ihInner ihRest =>
    have hinner := inner.le
    have hrest := rest.le
    obtain ⟨hfence, hspans⟩ := List.forall_mem_cons.mp htight
    have hfenced : Fenced key items partners first last :=
      .intro fence content opens closes forth back inner hfence
    obtain rfl | hfirst := Nat.eq_or_lt_of_le hlo
    · exact .inr ⟨first, last, hfenced, Nat.le_refl _, hrest, .inl rfl⟩
    obtain hlast | rfl | hlast := Nat.lt_trichotomy p last
    · cases hfence with
      | enclosed _ hcontent =>
        obtain hnone | ⟨a, b, hdeeper, ha, hb, hp⟩ := ihInner hcontent hfirst hlast
        · exact .inl hnone
        · exact .inr ⟨a, b, hdeeper, by omega, by omega, hp⟩
    · exact .inr ⟨first, p, hfenced, Nat.le_refl _, hrest, .inr rfl⟩
    · obtain hnone | ⟨a, b, hlater, ha, hb, hp⟩ := ihRest hspans hlast hhi
      · exact .inl hnone
      · exact .inr ⟨a, b, hlater, by omega, hb, hp⟩

/-- Partners are the delimiters of one fence. -/
theorem fenced (h : Laid key items partners lo spans hi) (htight : ∀ span ∈ spans, span.Tight key)
    (hlo : lo ≤ p) (hhi : p < hi) (hp : partners[p]? = some (some q)) :
    (Fenced key items partners p q ∧ q < hi) ∨ (Fenced key items partners q p ∧ lo ≤ q) := by
  obtain ⟨hnone, -⟩ | ⟨first, last, hfenced, hfirst, hlast, rfl | rfl⟩ := h.cases_at htight hlo hhi
  · rw [hnone] at hp
    cases hp
  · obtain ⟨_, _, _, _, forth, _, _, _⟩ := id hfenced
    rw [forth] at hp
    cases hp
    exact .inl ⟨hfenced, hlast⟩
  · obtain ⟨_, _, _, _, _, back, _, _⟩ := id hfenced
    rw [back] at hp
    cases hp
    exact .inr ⟨hfenced, hfirst⟩

end Laid

/-! ## The partners which spans say -/

/-- A part of a list begins with the item at its first position. -/
theorem slice_eq_cons {β : Type} {list : List β} {item : β} (h : list[lo]? = some item)
    (hlt : lo < hi) :
    (list.drop lo).take (hi - lo) = item :: (list.drop (lo + 1)).take (hi - (lo + 1)) := by
  obtain ⟨hlength, rfl⟩ := List.getElem?_eq_some_iff.mp h
  rw [List.drop_eq_getElem_cons hlength, show hi - lo = hi - (lo + 1) + 1 by omega,
    List.take_succ_cons]

/-- A part of a list is cut at a position. -/
theorem slice_eq_append {β : Type} (list : List β) {middle : Nat} (hlo : lo ≤ middle)
    (hhi : middle ≤ hi) :
    (list.drop lo).take (hi - lo) =
      (list.drop lo).take (middle - lo) ++ (list.drop middle).take (hi - middle) := by
  rw [show hi - lo = middle - lo + (hi - middle) by omega, List.take_add, List.drop_drop,
    show lo + (middle - lo) = middle by omega]

/-- Where spans are laid out, they say what the partners are. -/
theorem Laid.mates (h : Laid key items partners lo spans hi) :
    hi = lo + Span.extents spans ∧ (partners.drop lo).take (hi - lo) = Span.allMates lo spans := by
  induction h with
  | nil position => simp [Span.extents, Span.allMates]
  | single found plain alone rest ih =>
    obtain ⟨hextent, hmates⟩ := ih
    rw [Span.extents, Span.extent, Span.allMates, Span.mates, Span.extent,
      slice_eq_cons alone rest.le, hmates]
    exact ⟨by omega, rfl⟩
  | @enclosed first last hi fence content spans opens closes forth back inner rest ihInner ihRest =>
    have hinner := inner.le
    have hrest := rest.le
    obtain ⟨hcontent, hmatesInner⟩ := ihInner
    obtain ⟨hextent, hmatesRest⟩ := ihRest
    have hbehind : first + (Span.extents content + 2) = last + 1 := by omega
    rw [Span.extents, Span.extent, Span.allMates, Span.mates, Span.extent, hbehind, ← hcontent,
      slice_eq_cons forth (by omega), slice_eq_append partners hinner (Nat.le_of_succ_le hrest),
      slice_eq_cons back hrest, hmatesInner, hmatesRest]
    exact ⟨by omega, by simp⟩

/-- The partners of the delimiters are those of the spans into which a text is grouped, and there
are none for the same position for which there are no spans. -/
theorem partners_eq (precis : List Char) : Fence.partners precis =
    Checked.answer (((group id 0 precis).map (Span.allMates 0)).mapError .unmatchedDelimiter) := by
  have hfront : ∀ c ∈ ([] : List Char), id c ∉ Fence.delimiters := nofun
  have hpaired := paired_group id hfront precis
  rw [List.nil_append, List.map_id, List.length_nil] at hpaired
  generalize group id 0 precis = grouping, Fence.partners precis = pairing at hpaired
  cases hpaired with
  | error delimiter => rfl
  | @ok spans partners length laid =>
    obtain ⟨-, hmates⟩ := laid.mates
    rw [List.drop_zero, Nat.sub_zero, ← length, List.take_length] at hmates
    rw [hmates]
    rfl

/-! ## What kind of pairs they are -/

/-- Every delimiter has a partner, and is the partner of its partner. Brackets are paired with
brackets and bars with bars, no two pairs cross, and a bar only closes a fence behind something
after which a term can end. -/
structure Matching (precis : List Char) (partners : List (Option Nat)) : Prop where
  length_eq : partners.length = precis.length
  exists_partner_iff (p : Nat) : (∃ q, partners[p]? = some (some q)) ↔
    precis[p]? = some '(' ∨ precis[p]? = some ')' ∨ precis[p]? = some '|'
  symm {p q : Nat} (hp : partners[p]? = some (some q)) : partners[q]? = some (some p)
  ne {p q : Nat} (hp : partners[p]? = some (some q)) : p ≠ q
  delimiters {p q : Nat} (hp : partners[p]? = some (some q)) (hlt : p < q) :
    (precis[p]? = some '(' ∧ precis[q]? = some ')') ∨
      (precis[p]? = some '|' ∧ precis[q]? = some '|')
  nested {p q r s : Nat} (hp : partners[p]? = some (some q)) (hr : partners[r]? = some (some s))
    (hpr : p < r) (hrq : r < q) : p < s ∧ s < q
  closing_bar {p q : Nat} (hp : partners[p]? = some (some q)) (hlt : p < q)
    (hbar : precis[q]? = some '|') :
    p + 1 < q ∧ ∃ c, precis[q - 1]? = some c ∧ c ∉ ['_', '+', '-', '*', '(']

section

variable {precis : List Char} {spans : List (Span Char)}

/-- A bar which opens no fence stands behind a character after which a term can end, and not behind
the bar which is open. -/
theorem of_opensAt_eq_false {before innermost : Nat}
    (h : opensAt precis (before + 1) innermost = .ok false) :
    ∃ c, precis[before]? = some c ∧ leadsOn c = false ∧ c ≠ '(' ∧
      (c = '|' → before ≠ innermost) := by
  rw [opensAt, if_neg (Nat.succ_ne_zero before)] at h
  change (Checked.item precis before >>= _) = _ at h
  cases hitem : Checked.item precis before with
  | error halt =>
    rw [hitem] at h
    cases h
  | ok c =>
    rw [hitem] at h
    have hopens := Except.ok.inj h
    simp only [Bool.or_eq_false_iff, Bool.and_eq_false_iff, decide_eq_false_iff_not] at hopens
    obtain ⟨⟨hleads, hopening⟩, hself⟩ := hopens
    exact ⟨c, Checked.item_eq_ok_iff.mp hitem, hleads, hopening, fun hbar =>
      hself.resolve_left (not_not_intro hbar)⟩

/-- Before the bar which closes a fence stands something after which a term can end. -/
theorem Fenced.closing_bar {p q : Nat} (h : Fenced id precis partners p q)
    (hbar : precis[q]? = some '|') :
    p + 1 < q ∧ ∃ c, precis[q - 1]? = some c ∧ c ∉ ['_', '+', '-', '*', '('] := by
  have hlt := h.lt
  obtain ⟨fence, content, opens, closes, -, -, laid, tight⟩ := h
  rw [hbar] at closes
  cases fence with
  | brackets => cases closes
  | bars =>
    cases tight with
    | enclosed ends _ =>
      rw [← List.reverse_reverse content] at laid
      have hopens := opensAt_eq laid opens
      obtain ⟨before, rfl⟩ : ∃ before, q = before + 1 := ⟨q - 1, by omega⟩
      rw [ends rfl, List.map_id] at hopens
      obtain ⟨c, hc, hleads, hopening, hself⟩ := of_opensAt_eq_false hopens
      refine ⟨?_, c, hc, ?_⟩
      · -- directly behind the bar which it closes the bar would have opened another fence
        refine Nat.lt_of_le_of_ne hlt fun heq => ?_
        obtain rfl : p = before := Nat.succ.inj heq
        rw [Option.map_id] at opens
        exact hself (Option.some.inj (hc.symm.trans opens)) rfl
      · simp only [leadsOn, Bool.or_eq_false_iff, decide_eq_false_iff_not] at hleads
        simp [hleads, hopening]

/-- Where tight spans are laid out along partners, these match. -/
theorem matching_of_laid (hlength : partners.length = precis.length)
    (h : Laid id precis partners 0 spans precis.length)
    (htight : ∀ span ∈ spans, span.Tight id) : Matching precis partners := by
  have hbound : ∀ {p q : Nat}, partners[p]? = some (some q) → p < precis.length := by
    intro p q hp
    rw [← hlength]
    exact (List.getElem?_eq_some_iff.mp hp).1
  have hfenced : ∀ {p q : Nat}, partners[p]? = some (some q) →
      Fenced id precis partners p q ∨ Fenced id precis partners q p := fun hp =>
    (h.fenced htight (Nat.zero_le _) (hbound hp) hp).imp And.left And.left
  have hforward : ∀ {p q : Nat}, partners[p]? = some (some q) → p < q →
      Fenced id precis partners p q := fun hp hlt =>
    (hfenced hp).resolve_right fun hback => Nat.lt_asymm hlt hback.lt
  refine ⟨hlength, fun p => ⟨?_, ?_⟩, fun hp => ?_, fun hp => ?_, fun hp hlt => ?_,
    fun hp hr hpr hrq => ?_, fun hp hlt hbar => (hforward hp hlt).closing_bar hbar⟩
  · rintro ⟨q, hp⟩
    obtain ⟨fence, _, opens, _, _, _, _, _⟩ | ⟨fence, _, _, closes, _, _, _, _⟩ := hfenced hp
    · rw [Option.map_id] at opens
      cases fence with
      | brackets => exact .inl opens
      | bars => exact .inr (.inr opens)
    · rw [Option.map_id] at closes
      cases fence with
      | brackets => exact .inr (.inl closes)
      | bars => exact .inr (.inr closes)
  · intro hdelimiter
    have hlt : p < precis.length := by
      obtain hp | hp | hp := hdelimiter <;> exact (List.getElem?_eq_some_iff.mp hp).1
    obtain ⟨-, c, hc, hplain⟩ | ⟨first, last, hfenced, -, -, hp⟩ :=
      h.cases_at htight (Nat.zero_le p) hlt
    · simp only [hc, Option.some.injEq] at hdelimiter
      exact absurd (by simpa [Fence.delimiters] using hdelimiter) hplain
    · obtain ⟨_, _, _, _, forth, back, _, _⟩ := hfenced
      obtain rfl | rfl := hp
      · exact ⟨last, forth⟩
      · exact ⟨first, back⟩
  · obtain ⟨_, _, _, _, forth, back, _, _⟩ | ⟨_, _, _, _, forth, back, _, _⟩ := hfenced hp
    · exact back
    · exact forth
  · obtain hforth | hback := hfenced hp
    · exact Nat.ne_of_lt hforth.lt
    · exact Nat.ne_of_gt hback.lt
  · obtain ⟨fence, _, opens, closes, _, _, _, _⟩ := hforward hp hlt
    rw [Option.map_id] at opens closes
    cases fence with
    | brackets => exact .inl ⟨opens, closes⟩
    | bars => exact .inr ⟨opens, closes⟩
  · obtain ⟨_, _, _, _, _, _, laid, tight⟩ := hforward hp (Nat.lt_trans hpr hrq)
    cases tight with
    | enclosed _ hcontent =>
      obtain ⟨hinner, hlt⟩ | ⟨hinner, hle⟩ := laid.fenced hcontent hpr hrq hr
      · exact ⟨Nat.lt_trans hpr hinner.lt, hlt⟩
      · exact ⟨hle, Nat.lt_trans hinner.lt hrq⟩

/-- The partners of a text match. -/
theorem matching_of_partners (h : Fence.partners precis = .ok partners) :
    Matching precis partners := by
  have hfront : ∀ c ∈ ([] : List Char), id c ∉ Fence.delimiters := nofun
  have hpaired := paired_group id hfront precis
  rw [List.nil_append, List.map_id, List.length_nil, h] at hpaired
  cases hgroup : group id 0 precis with
  | error position =>
    rw [hgroup] at hpaired
    cases hpaired
  | ok spans =>
    rw [hgroup] at hpaired
    cases hpaired with
    | ok length laid => exact matching_of_laid length laid (tight_of_group hgroup)

end

end Fence

end FormulaEditor
