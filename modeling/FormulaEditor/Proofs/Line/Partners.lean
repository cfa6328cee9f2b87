import FormulaEditor.Proofs.Checked
import FormulaEditor.Proofs.Line.Grouping

/-!
# Partners

Fences can also be found by positions: every delimiter is told the position of its partner, and the
positions of the open delimiters are kept on a stack (`Fence.partners`). The spans into which a
sequence is grouped are then laid out one after another, with a fence from a delimiter to its
partner (`Fence.Laid`). Both ways fail together, with the same position, which is the position of a
delimiter (`Fence.paired_group`).
-/

set_option autoImplicit false

namespace FormulaEditor.Fence

/-! ## Pairing by positions -/

/-- The delimiter with which a fence begins. -/
def opening : Fence → Char
  | brackets => '('
  | bars => '|'

/-- The delimiter with which a fence ends. -/
def closing : Fence → Char
  | brackets => ')'
  | bars => '|'

/-- The characters of delimiters. -/
def delimiters : List Char :=
  ['(', ')', '|']

/-- Delimiters which have been paired up to some position. -/
structure Pairs where
  /-- At the position of a delimiter the position of its partner, if it has one yet. -/
  partners : List (Option Nat)
  /-- The positions of the open delimiters, the innermost first. -/
  opened : List Nat

namespace Pairs

/-- A delimiter opens a fence. -/
def openAt (pairs : Pairs) (position : Nat) : Pairs :=
  { pairs with opened := position :: pairs.opened }

/-- A delimiter closes a fence, and the fences around it are open still. -/
def closeAt (pairs : Pairs) (opening closing : Nat) (outer : List Nat) : Checked Pairs := do
  let partners ← Checked.set pairs.partners opening (some closing)
  let partners ← Checked.set partners closing (some opening)
  return ⟨partners, outer⟩

end Pairs

/-- Whether a bar opens a fence although the innermost open delimiter is a bar: no term ends before
it. -/
def opensAt (precis : List Char) (position innermost : Nat) : Checked Bool :=
  if position = 0 then return true
  else do
    let before ← Checked.before position
    let c ← Checked.item precis before
    return leadsOn c || c = '(' || (c = '|' && before = innermost)

/-- Pairs one more character, which has the given position. -/
def pairStep (precis : List Char) (position : Nat) (pairs : Pairs) (c : Char) : Checked Pairs :=
  if c = '(' then return pairs.openAt position
  else if c = ')' then
    match pairs.opened with
    | [] => throw (.refused (.unmatchedDelimiter position))
    | innermost :: outer => do
      if (← Checked.item precis innermost) = '(' then pairs.closeAt innermost position outer
      else throw (.refused (.unmatchedDelimiter position))
  else if c = '|' then
    match pairs.opened with
    | [] => return pairs.openAt position
    | innermost :: outer => do
      if (← Checked.item precis innermost) = '|' then
        if ← opensAt precis position innermost then return pairs.openAt position
        else pairs.closeAt innermost position outer
      else return pairs.openAt position
  else return pairs

/-- Pairs the rest of a sequence, whose first character has the given position. -/
def pairFrom (precis : List Char) (position : Nat) (pairs : Pairs) :
    List Char → Checked (List (Option Nat))
  | [] => match pairs.opened with
    | [] => return pairs.partners
    | innermost :: _ => throw (.refused (.unmatchedDelimiter innermost))
  | c :: rest => do pairFrom precis (position + 1) (← pairStep precis position pairs c) rest

/-- The partners of the delimiters of a sequence, by their positions. -/
def partners (precis : List Char) : Checked (List (Option Nat)) :=
  pairFrom precis 0 ⟨List.replicate precis.length none, []⟩ precis

/-! ## Where spans are -/

variable {α : Type} {key : α → Char} {items : List α} {partners partners' : List (Option Nat)}
  {lo middle hi position base : Nat} {spans others : List (Span α)}

/-- Spans are laid out one after another from one position up to another one. The delimiters of
fences are partners, and nothing else has a partner. -/
inductive Laid (key : α → Char) (items : List α) (partners : List (Option Nat)) :
    Nat → List (Span α) → Nat → Prop
  | nil (position : Nat) : Laid key items partners position [] position
  | single {position hi : Nat} {item : α} {spans : List (Span α)}
      (found : items[position]? = some item) (plain : key item ∉ delimiters)
      (alone : partners[position]? = some none)
      (rest : Laid key items partners (position + 1) spans hi) :
      Laid key items partners position (.single item :: spans) hi
  | enclosed {first last hi : Nat} {fence : Fence} {content spans : List (Span α)}
      (opens : items[first]?.map key = some fence.opening)
      (closes : items[last]?.map key = some fence.closing)
      (forth : partners[first]? = some (some last)) (back : partners[last]? = some (some first))
      (inner : Laid key items partners (first + 1) content last)
      (rest : Laid key items partners (last + 1) spans hi) :
      Laid key items partners first (.enclosed fence content :: spans) hi

namespace Laid

/-- A range in which spans are laid out does not end before it begins. -/
theorem le (h : Laid key items partners lo spans hi) : lo ≤ hi := by
  induction h with
  | nil position => exact Nat.le_refl position
  | single _ _ _ _ ih => omega
  | enclosed _ _ _ _ _ _ ihInner ihRest => omega

/-- Spans come one after another. -/
theorem append_iff : Laid key items partners lo (spans ++ others) hi ↔
    ∃ middle, Laid key items partners lo spans middle ∧
      Laid key items partners middle others hi := by
  constructor
  · intro h
    induction spans generalizing lo with
    | nil => exact ⟨lo, .nil lo, h⟩
    | cons span spans ih =>
      cases h with
      | single found plain alone rest =>
        obtain ⟨middle, hfront, hback⟩ := ih rest
        exact ⟨middle, .single found plain alone hfront, hback⟩
      | enclosed opens closes forth back inner rest =>
        obtain ⟨middle, hfront, hback⟩ := ih rest
        exact ⟨middle, .enclosed opens closes forth back inner hfront, hback⟩
  · rintro ⟨middle, hfront, hback⟩
    induction hfront with
    | nil => exact hback
    | single found plain alone _ ih => exact .single found plain alone (ih hback)
    | enclosed opens closes forth back inner _ _ ih =>
      exact .enclosed opens closes forth back inner (ih hback)

/-- Where spans are only depends on the partners between them. -/
theorem congr (h : Laid key items partners lo spans hi)
    (same : ∀ position, lo ≤ position → position < hi →
      partners'[position]? = partners[position]?) : Laid key items partners' lo spans hi := by
  induction h with
  | nil position => exact .nil position
  | @single position hi item spans found plain alone rest ih =>
    have hle := rest.le
    refine .single found plain ?_ (ih fun p hp hlt => same p (by omega) hlt)
    rw [same position (Nat.le_refl _) hle, alone]
  | @enclosed first last hi fence content spans opens closes forth back inner rest ihInner ihRest =>
    have hinner := inner.le
    have hrest := rest.le
    refine .enclosed opens closes ?_ ?_ (ihInner fun p hp hlt => same p (by omega) (by omega))
      (ihRest fun p hp hlt => same p (by omega) hlt)
    · rw [same first (Nat.le_refl _) (by omega), forth]
    · rw [same last (by omega) hrest, back]

end Laid

/-! ## Where open fences are -/

/-- The fences of a grouping are open at the given positions, the innermost first, with what is
grouped in and before them laid out up to the last position. -/
inductive Stacked (key : α → Char) (items : List α) (partners : List (Option Nat)) (base : Nat) :
    List (Opened α) → List (Span α) → List Nat → Nat → Prop
  | bottom {content : List (Span α)} {position : Nat}
      (laid : Laid key items partners base content.reverse position) :
      Stacked key items partners base [] content [] position
  | fence {opened : Opened α} {outer : List (Opened α)} {content : List (Span α)}
      {below : List Nat} {position : Nat}
      (opens : items[opened.position]?.map key = some opened.fence.opening)
      (alone : partners[opened.position]? = some none)
      (around : Stacked key items partners base outer opened.before below opened.position)
      (laid : Laid key items partners (opened.position + 1) content.reverse position) :
      Stacked key items partners base (opened :: outer) content (opened.position :: below) position

namespace Stacked

variable {opened : List (Opened α)} {content : List (Span α)} {below : List Nat}

/-- What is stacked up to a position depends only on the partners before it. -/
theorem congr (h : Stacked key items partners base opened content below position)
    (same : ∀ p, p < position → partners'[p]? = partners[p]?) :
    Stacked key items partners' base opened content below position := by
  induction h with
  | bottom laid => exact .bottom (laid.congr fun p _ hlt => same p hlt)
  | fence opens alone _ laid ih =>
    have hle := laid.le
    refine .fence opens ?_ (ih fun p hlt => same p (by omega)) (laid.congr fun p _ hlt => same p hlt)
    rw [same _ hle, alone]

/-- A span which comes next is added to the others. -/
theorem add (h : Stacked key items partners base opened content below middle) {span : Span α}
    (hspan : Laid key items partners middle [span] position) :
    Stacked key items partners base opened (span :: content) below position := by
  cases h with
  | bottom laid =>
    refine .bottom ?_
    rw [List.reverse_cons]
    exact Laid.append_iff.mpr ⟨_, laid, hspan⟩
  | fence opens alone around laid =>
    refine .fence opens alone around ?_
    rw [List.reverse_cons]
    exact Laid.append_iff.mpr ⟨_, laid, hspan⟩

/-- A closed fence is one span, once its delimiters have become partners. -/
theorem close {innermost : Opened α} {outer : List (Opened α)}
    (h : Stacked key items partners base (innermost :: outer) content
      (innermost.position :: below) position)
    (hlength : partners.length = items.length)
    (hclosing : items[position]?.map key = some innermost.fence.closing) :
    Stacked key items
      ((partners.set innermost.position (some position)).set position (some innermost.position))
      base outer (.enclosed innermost.fence content.reverse :: innermost.before) below
      (position + 1) := by
  cases h with
  | fence opens alone around laid =>
    have hle := laid.le
    obtain ⟨_, hitem, -⟩ := Option.map_eq_some_iff.mp hclosing
    have hlt := (List.getElem?_eq_some_iff.mp hitem).1
    have hother : ∀ p, p ≠ innermost.position → p ≠ position →
        ((partners.set innermost.position (some position)).set position
          (some innermost.position))[p]? = partners[p]? := by
      intro p hp hp'
      rw [List.getElem?_set_ne (Ne.symm hp'), List.getElem?_set_ne (Ne.symm hp)]
    refine (around.congr fun p hp => hother p (by omega) (by omega)).add ?_
    refine .enclosed opens hclosing ?_ ?_ (laid.congr fun p hp hp' => hother p (by omega) (by omega))
      (.nil _)
    · rw [List.getElem?_set_ne (by omega), List.getElem?_set_self (by omega)]
    · rw [List.getElem?_set_self (by rw [List.length_set]; omega)]

end Stacked

/-- Pairing and grouping have come to the same position, and agree on what is open there. -/
structure Tracks (key : α → Char) (items : List α) (base position : Nat) (grouping : Grouping α)
    (pairs : Pairs) : Prop where
  length : pairs.partners.length = items.length
  alone : ∀ p, position ≤ p → p < items.length → pairs.partners[p]? = some none
  stacked : Stacked key items pairs.partners base grouping.opened grouping.content pairs.opened
    position

namespace Tracks

variable {grouping : Grouping α} {pairs : Pairs} {item : α}

/-- Pairing and grouping go on together behind an item which is no delimiter. -/
theorem add (h : Tracks key items base position grouping pairs)
    (hitem : items[position]? = some item) (hplain : key item ∉ delimiters) :
    Tracks key items base (position + 1) (grouping.add item) pairs where
  length := h.length
  alone p hp hlt := h.alone p (by omega) hlt
  stacked := by
    have hlt := (List.getElem?_eq_some_iff.mp hitem).1
    exact h.stacked.add (.single hitem hplain (h.alone position (Nat.le_refl _) hlt) (.nil _))

/-- Pairing and grouping go on together behind a delimiter which opens a fence. -/
theorem openFence (h : Tracks key items base position grouping pairs) {fence : Fence}
    (hitem : items[position]? = some item) (hopening : key item = fence.opening) :
    Tracks key items base (position + 1) (grouping.openFence fence position)
      (pairs.openAt position) where
  length := h.length
  alone p hp hlt := h.alone p (by omega) hlt
  stacked := by
    have hlt := (List.getElem?_eq_some_iff.mp hitem).1
    have hopens : items[position]?.map key = some fence.opening := by
      rw [hitem, ← hopening]
      rfl
    exact .fence hopens (h.alone position (Nat.le_refl _) hlt) h.stacked (.nil _)

/-- Closing a fence pairs its delimiters, whose positions exist. -/
theorem close (h : Tracks key items base position grouping pairs) {innermost : Opened α}
    {outer : List (Opened α)} {below : List Nat} (hopened : grouping.opened = innermost :: outer)
    (hpositions : pairs.opened = innermost.position :: below)
    (hitem : items[position]? = some item) (hclosing : key item = innermost.fence.closing) :
    ∃ next, pairs.closeAt innermost.position position below = .ok next ∧
      Tracks key items base (position + 1)
        ⟨outer, .enclosed innermost.fence grouping.content.reverse :: innermost.before⟩ next := by
  have hstacked := h.stacked
  rw [hopened, hpositions] at hstacked
  have hlt := (List.getElem?_eq_some_iff.mp hitem).1
  have hle : innermost.position < position := by
    cases hstacked with
    | fence _ _ _ laid => exact laid.le
  have hlength := h.length
  have hcloses : items[position]?.map key = some innermost.fence.closing := by
    rw [hitem, ← hclosing]
    rfl
  refine ⟨⟨_, below⟩, ?_, ?_, ?_, hstacked.close hlength hcloses⟩
  · rw [Pairs.closeAt, Checked.set_of_lt (by omega)]
    show (Checked.set _ _ _ >>= _) = _
    rw [Checked.set_of_lt (by rw [List.length_set]; omega)]
    rfl
  · rw [List.length_set, List.length_set, hlength]
  · intro p hp hlt'
    rw [List.getElem?_set_ne (by omega), List.getElem?_set_ne (by omega)]
    exact h.alone p (by omega) hlt'

end Tracks

/-! ## Both ways together -/

/-- A position of a delimiter. -/
def IsDelimiter (key : α → Char) (items : List α) (position : Nat) : Prop :=
  ∃ item, items[position]? = some item ∧ key item ∈ delimiters

/-- A bar which follows the spans inside a fence of bars opens a fence exactly if no term ends with
them. -/
theorem opensAt_eq (h : Laid key items partners (base + 1) spans.reverse position)
    (hbase : items[base]?.map key = some '|') :
    opensAt (items.map key) position base = .ok (!endsTerm key spans) := by
  have hle := h.le
  have hitem : ∀ {p item}, items[p]? = some item →
      Checked.item (items.map key) p = .ok (key item) := fun hp =>
    Checked.item_of_getElem? (by rw [List.getElem?_map, hp]; rfl)
  have hopens : ∀ {p item}, position = p + 1 → items[p]? = some item →
      opensAt (items.map key) position base =
        .ok (leadsOn (key item) || key item = '(' || (key item = '|' && p = base)) := by
    rintro p item rfl hp
    show (Checked.item (items.map key) p >>= _) = _
    rw [hitem hp]
    rfl
  cases spans with
  | nil =>
    -- directly after the bar which is open
    cases h
    obtain ⟨item, hfound, hkey⟩ := Option.map_eq_some_iff.mp hbase
    rw [hopens rfl hfound, hkey]
    simp [endsTerm]
  | cons span spans =>
    rw [List.reverse_cons] at h
    obtain ⟨middle, hfront, hspan⟩ := Laid.append_iff.mp h
    have hmiddle := hfront.le
    cases hspan with
    | @single _ _ item _ found plain _ rest =>
      cases rest
      rw [hopens rfl found]
      simp only [delimiters, List.mem_cons, List.not_mem_nil, or_false, not_or] at plain
      simp [endsTerm, plain]
    | @enclosed _ last _ fence _ _ _ closes _ _ inner rest =>
      cases rest
      have hinner := inner.le
      obtain ⟨item, hfound, hkey⟩ := Option.map_eq_some_iff.mp closes
      have hne : last ≠ base := by omega
      rw [hopens rfl hfound, hkey]
      cases fence <;> simp [endsTerm, closing, leadsOn, hne]

/-- Grouping and pairing one more item have the same outcome. -/
inductive SameStep (key : α → Char) (items : List α) (base position : Nat) :
    Except Nat (Grouping α) → Checked Pairs → Prop
  | ok {grouping : Grouping α} {pairs : Pairs}
      (tracks : Tracks key items base (position + 1) grouping pairs) :
      SameStep key items base position (.ok grouping) (.ok pairs)
  | error (delimiter : IsDelimiter key items position) :
      SameStep key items base position (.error position)
        (.error (.refused (.unmatchedDelimiter position)))

/-- Either nothing is open, or the innermost fence has been opened by the delimiter on top of the
stack. -/
theorem Tracks.opened_cases {grouping : Grouping α} {pairs : Pairs}
    (h : Tracks key items base position grouping pairs) :
    (grouping.opened = [] ∧ pairs.opened = []) ∨ ∃ innermost outer below,
      grouping.opened = innermost :: outer ∧ pairs.opened = innermost.position :: below ∧
        items[innermost.position]?.map key = some innermost.fence.opening ∧
        Laid key items pairs.partners (innermost.position + 1) grouping.content.reverse
          position := by
  obtain ⟨opened, content⟩ := grouping
  obtain ⟨partners, positions⟩ := pairs
  obtain ⟨-, -, hstacked⟩ := h
  cases hstacked with
  | bottom laid => exact .inl ⟨rfl, rfl⟩
  | fence opens _ _ laid => exact .inr ⟨_, _, _, rfl, rfl, opens, laid⟩

/-- What is known of a character by its position is found there. -/
theorem item_map_key {c : Char} (h : items[position]?.map key = some c) :
    Checked.item (items.map key) position = .ok c :=
  Checked.item_of_getElem? (by rw [List.getElem?_map, h])

/-- A closing bracket has a partner if an opening one is the innermost open delimiter. -/
theorem Tracks.sameStep_closing {grouping : Grouping α} {pairs : Pairs} {item : α}
    (h : Tracks key items base position grouping pairs) (hitem : items[position]? = some item)
    (hclosing : key item = ')') :
    SameStep key items base position (step key position grouping item)
      (pairStep (items.map key) position pairs (key item)) := by
  have hdelimiter : IsDelimiter key items position := ⟨item, hitem, by rw [hclosing]; decide⟩
  have hopening : key item ≠ '(' := by
    rw [hclosing]
    decide
  rw [step, pairStep, if_neg hopening, if_neg hopening, if_pos hclosing, if_pos hclosing,
    Grouping.close?]
  obtain ⟨hnone, hempty⟩ | ⟨innermost, outer, below, hopened, hpositions, hinnermost, -⟩ :=
    h.opened_cases
  · rw [hnone, hempty]
    exact .error hdelimiter
  · rw [hopened, hpositions]
    simp only [item_map_key hinnermost]
    cases hfence : innermost.fence with
    | brackets =>
      obtain ⟨next, hnext, htracks⟩ :=
        h.close hopened hpositions hitem (by rw [hclosing, hfence]; rfl)
      rw [hfence] at htracks
      show SameStep key items base position (.ok _)
        (pairs.closeAt innermost.position position below)
      rw [hnext]
      exact .ok htracks
    | bars => exact .error hdelimiter

/-- A bar closes the innermost fence if this is one of bars and a term ends before it. -/
theorem Tracks.sameStep_bar {grouping : Grouping α} {pairs : Pairs} {item : α}
    (h : Tracks key items base position grouping pairs) (hitem : items[position]? = some item)
    (hbar : key item = '|') :
    SameStep key items base position (step key position grouping item)
      (pairStep (items.map key) position pairs (key item)) := by
  have hopens : SameStep key items base position (.ok (grouping.openFence .bars position))
      (.ok (pairs.openAt position)) := .ok (h.openFence hitem hbar)
  have hopening : key item ≠ '(' := by
    rw [hbar]
    decide
  have hclosing : key item ≠ ')' := by
    rw [hbar]
    decide
  rw [step, pairStep, if_neg hopening, if_neg hopening, if_neg hclosing, if_neg hclosing,
    if_pos hbar, if_pos hbar, Grouping.close?]
  obtain ⟨hnone, hempty⟩ | ⟨innermost, outer, below, hopened, hpositions, hinnermost, hlaid⟩ :=
    h.opened_cases
  · rw [hnone, hempty]
    exact hopens
  · rw [hopened, hpositions]
    simp only [item_map_key hinnermost]
    cases hfence : innermost.fence with
    | brackets => exact hopens
    | bars =>
      rw [hfence] at hinnermost
      show SameStep key items base position
        (if endsTerm key grouping.content then _ else .ok (grouping.openFence .bars position))
        (opensAt (items.map key) position innermost.position >>= _)
      rw [opensAt_eq hlaid hinnermost]
      cases hends : endsTerm key grouping.content with
      | false => exact hopens
      | true =>
        obtain ⟨next, hnext, htracks⟩ :=
          h.close hopened hpositions hitem (by rw [hbar, hfence]; rfl)
        rw [hfence] at htracks
        show SameStep key items base position (.ok _)
          (pairs.closeAt innermost.position position below)
        rw [hnext]
        exact .ok htracks

/-- Pairing and grouping one more item have the same outcome. -/
theorem Tracks.sameStep {grouping : Grouping α} {pairs : Pairs} {item : α}
    (h : Tracks key items base position grouping pairs) (hitem : items[position]? = some item) :
    SameStep key items base position (step key position grouping item)
      (pairStep (items.map key) position pairs (key item)) := by
  by_cases hclosing : key item = ')'
  · exact h.sameStep_closing hitem hclosing
  by_cases hbar : key item = '|'
  · exact h.sameStep_bar hitem hbar
  rw [step, pairStep]
  by_cases hopening : key item = '('
  · rw [if_pos hopening, if_pos hopening]
    exact .ok (h.openFence hitem hopening)
  · rw [if_neg hopening, if_neg hopening, if_neg hclosing, if_neg hclosing, if_neg hbar,
      if_neg hbar]
    exact .ok (h.add hitem (by simp [delimiters, hopening, hclosing, hbar]))

/-- A sequence is grouped into spans, and they are laid out along its partners, or the same position
of a delimiter is the reason for which there are neither. -/
inductive Paired (key : α → Char) (items : List α) (base : Nat) :
    Except Nat (List (Span α)) → Checked (List (Option Nat)) → Prop
  | ok {spans : List (Span α)} {partners : List (Option Nat)}
      (length : partners.length = items.length)
      (laid : Laid key items partners base spans items.length) :
      Paired key items base (.ok spans) (.ok partners)
  | error {position : Nat} (delimiter : IsDelimiter key items position) :
      Paired key items base (.error position) (.error (.refused (.unmatchedDelimiter position)))

/-- Pairing and grouping the rest of a sequence have the same outcome. -/
theorem Tracks.paired {grouping : Grouping α} {pairs : Pairs}
    (h : Tracks key items base position grouping pairs) {rest : List α}
    (hrest : items.drop position = rest) (hle : position ≤ items.length) :
    Paired key items base (groupFrom key position grouping rest)
      (pairFrom (items.map key) position pairs (rest.map key)) := by
  induction rest generalizing position grouping pairs with
  | nil =>
    have hposition : position = items.length :=
      Nat.le_antisymm hle (List.drop_eq_nil_iff.mp hrest)
    obtain ⟨opened, content⟩ := grouping
    obtain ⟨partners, positions⟩ := pairs
    obtain ⟨hlength, -, hstacked⟩ := h
    cases hstacked with
    | bottom laid => exact .ok hlength (hposition ▸ laid)
    | @fence innermost outer _ _ _ opens _ _ _ =>
      obtain ⟨item, hitem, hkey⟩ := Option.map_eq_some_iff.mp opens
      refine .error ⟨item, hitem, ?_⟩
      rw [hkey]
      cases innermost.fence <;> decide
  | cons item rest ih =>
    have hlt : position < items.length := by
      refine Nat.lt_of_not_le fun hge => ?_
      rw [List.drop_eq_nil_iff.mpr hge] at hrest
      cases hrest
    rw [List.drop_eq_getElem_cons hlt] at hrest
    obtain ⟨hitem, hrest⟩ := List.cons.inj hrest
    have hfound : items[position]? = some item := List.getElem?_eq_some_iff.mpr ⟨hlt, hitem⟩
    have hstep := h.sameStep hfound
    rw [groupFrom, List.map_cons, pairFrom]
    generalize step key position grouping item = outcome,
      pairStep (items.map key) position pairs (key item) = outcome' at hstep ⊢
    cases hstep with
    | ok tracks => exact ih tracks hrest hlt
    | error delimiter => exact .error delimiter

/-- Before anything is grouped, nothing is open. -/
theorem Tracks.empty (base : Nat) : Tracks key items base base .empty
    ⟨List.replicate items.length none, []⟩ where
  length := List.length_replicate
  alone _ _ hlt := List.getElem?_replicate_of_lt hlt
  stacked := .bottom (.nil base)

/-- Characters which are no delimiters are passed over. -/
theorem pairFrom_plain {front : List Char} (h : ∀ c ∈ front, c ∉ delimiters) (precis : List Char)
    (position : Nat) (pairs : Pairs) (rest : List Char) :
    pairFrom precis position pairs (front ++ rest) =
      pairFrom precis (position + front.length) pairs rest := by
  induction front generalizing position with
  | nil => rfl
  | cons c front ih =>
    obtain ⟨hc, hfront⟩ := List.forall_mem_cons.mp h
    simp only [delimiters, List.mem_cons, List.not_mem_nil, or_false, not_or] at hc
    have hstep : pairStep precis position pairs c = .ok pairs := by
      rw [pairStep, if_neg hc.1, if_neg hc.2.1, if_neg hc.2.2]
      rfl
    rw [List.cons_append, pairFrom, hstep, List.length_cons, Nat.add_comm front.length,
      ← Nat.add_assoc]
    exact ih hfront (position + 1)

/-- A sequence is grouped exactly if its delimiters can be paired, also behind a front without
delimiters. -/
theorem paired_group (key : α → Char) {front : List α} (hfront : ∀ item ∈ front,
    key item ∉ delimiters) (items : List α) :
    Paired key (front ++ items) front.length (group key front.length items)
      (Fence.partners ((front ++ items).map key)) := by
  have hempty : Tracks key (front ++ items) front.length front.length .empty
      ⟨List.replicate (front ++ items).length none, []⟩ := .empty front.length
  have hpaired := hempty.paired List.drop_left (by rw [List.length_append]; omega)
  have hplain : ∀ c ∈ front.map key, c ∉ delimiters := by
    intro c hc
    obtain ⟨item, hitem, rfl⟩ := List.mem_map.mp hc
    exact hfront item hitem
  have hskip := pairFrom_plain hplain ((front ++ items).map key) 0
    ⟨List.replicate (front ++ items).length none, []⟩ (items.map key)
  rw [← List.map_append, List.length_map, Nat.zero_add] at hskip
  rw [Fence.partners, List.length_map, hskip]
  exact hpaired

end FormulaEditor.Fence
