import FormulaEditor.Proofs.Line.Embedding
import FormulaEditor.Proofs.Line.Matching

/-!
# How fences nest

Which texts can be grouped, and into which spans, without a scan (`Fence.Nested`): a text goes on
with a character which is no delimiter, or with a whole fence around a text of its own. What stands
before a fence only matters directly inside of bars, where a bar behind something after which a term
can end would close the fence around it. A text is grouped into exactly the spans of which it is
made (`Fence.group_eq_ok_iff`), so the parts of a text can be grouped on their own.
-/

set_option autoImplicit false

namespace FormulaEditor

/-! ## The partners in spans put together -/

namespace Span

variable {α : Type}

/-- Spans one after the other take as many items as all of them. -/
theorem extents_append (spans others : List (Span α)) :
    extents (spans ++ others) = extents spans + extents others := by
  induction spans with
  | nil => rw [List.nil_append, extents, Nat.zero_add]
  | cons span spans ih => rw [List.cons_append, extents, extents, ih, Nat.add_assoc]

/-- The partners of spans one after the other are listed one after the other. -/
theorem allMates_append (position : Nat) (spans others : List (Span α)) :
    allMates position (spans ++ others) =
      allMates position spans ++ allMates (position + extents spans) others := by
  induction spans generalizing position with
  | nil => rfl
  | cons span spans ih =>
    rw [List.cons_append, allMates, allMates, extents, ih, List.append_assoc, Nat.add_assoc]

mutual

/-- A partner, or that there is none, is listed for each item of a span. -/
theorem length_mates (position : Nat) : (span : Span α) →
    (span.mates position).length = span.extent
  | single _ => rfl
  | enclosed _ content => by
    rw [mates, extent, List.length_cons, List.length_append, length_allMates (position + 1) content,
      List.length_singleton]

/-- A partner, or that there is none, is listed for each item of several spans. -/
theorem length_allMates (position : Nat) : (spans : List (Span α)) →
    (allMates position spans).length = extents spans
  | [] => rfl
  | span :: spans => by
    rw [allMates, extents, List.length_append, length_mates position span,
      length_allMates (position + span.extent) spans]

end

mutual

/-- Where a span begins only shifts the partners in it. -/
theorem mates_add (position shift : Nat) : (span : Span α) →
    span.mates (position + shift) = (span.mates position).map (Option.map (· + shift))
  | single _ => rfl
  | enclosed _ content => by
    rw [mates, mates, show position + shift + 1 = position + 1 + shift by omega,
      allMates_add (position + 1) shift content,
      show position + 1 + shift + extents content = position + 1 + extents content + shift by omega]
    simp

/-- Further to the right, spans have their partners as much further to the right. -/
theorem allMates_add (position shift : Nat) : (spans : List (Span α)) →
    allMates (position + shift) spans = (allMates position spans).map (Option.map (· + shift))
  | [] => rfl
  | span :: spans => by
    rw [allMates, allMates, mates_add position shift span,
      show position + shift + span.extent = position + span.extent + shift by omega,
      allMates_add (position + span.extent) shift spans, List.map_append]

end

end Span

namespace Fence

/-! ## Texts made of spans -/

/-- A text is made of spans, and stands directly inside the given kind of fence, if inside any. A
fence of bars encloses something after which a term can end, and it does not begin behind such a
thing where its bar would close a fence around it. -/
inductive Nested : Option Fence → List Char → List (Span Char) → Prop
  | nil (around : Option Fence) : Nested around [] []
  | single {around : Option Fence} {text : List Char} {spans : List (Span Char)} {c : Char}
      (before : Nested around text spans) (plain : c ∉ delimiters) :
      Nested around (text ++ [c]) (spans ++ [.single c])
  | enclosed {around : Option Fence} {text inner : List Char} {spans content : List (Span Char)}
      {fence : Fence}
      (before : Nested around text spans) (inside : Nested (some fence) inner content)
      (ends : fence = .bars → endsTerm id content.reverse = true)
      (begins : fence = .bars → around = some .bars → endsTerm id spans.reverse = false) :
      Nested around (text ++ (fence.opening :: inner ++ [fence.closing]))
        (spans ++ [.enclosed fence content])

namespace Nested

variable {around : Option Fence} {text : List Char} {spans : List (Span Char)}

/-- The spans of which a text is made take all of its characters. -/
theorem length_eq (h : Nested around text spans) : text.length = Span.extents spans := by
  induction h with
  | nil => rfl
  | single _ _ ih =>
    rw [List.length_append, Span.extents_append, ih]
    rfl
  | enclosed _ _ _ _ ihBefore ihInside =>
    rw [List.length_append, Span.extents_append, ihBefore, Span.extents, Span.extents, Span.extent,
      ← ihInside, List.length_append, List.length_cons, List.length_singleton]

/-- What ends with a closing bracket ends with a fence of brackets. -/
theorem exists_brackets (h : Nested around text spans) (hlast : text.getLast? = some ')') :
    ∃ front inner before content,
      text = front ++ ('(' :: inner ++ [')']) ∧ spans = before ++ [.enclosed .brackets content] ∧
        Nested around front before ∧ Nested (some .brackets) inner content := by
  cases h with
  | nil => cases hlast
  | @single _ text spans c before plain =>
    rw [List.getLast?_concat] at hlast
    obtain rfl := Option.some.inj hlast
    exact absurd (by decide) plain
  | @enclosed _ text inner spans content fence before inside ends begins =>
    cases fence with
    | brackets => exact ⟨text, inner, spans, content, rfl, rfl, before, inside⟩
    | bars =>
      rw [← List.append_assoc, List.getLast?_concat] at hlast
      cases hlast

end Nested

/-! ## Grouping what is made of spans -/

section

variable {grouping : Grouping Char} {content : List (Span Char)}

/-- Whether directly behind an opening delimiter a grouping goes on as inside the given fence:
either bars cannot be closed, or nothing stands behind the bar which is open. -/
def Grouping.Within (grouping : Grouping Char) (around : Option Fence) : Prop :=
  grouping.close? .bars = none ∨ around = some .bars ∧ grouping.content = []

/-- A bar which cannot close a fence opens one. -/
theorem groupFrom_openBar (hopens : grouping.close? .bars = none ∨
    endsTerm id grouping.content = false) (position : Nat) (rest : List Char) :
    groupFrom id position grouping ('|' :: rest) =
      groupFrom id (position + 1) (grouping.openFence .bars position) rest := by
  have hstep : step id position grouping '|' = .ok (grouping.openFence .bars position) := by
    rw [step, if_neg (by decide), if_neg (by decide), if_pos (show id '|' = '|' from rfl)]
    obtain hnone | hends := hopens
    · rw [hnone]
    · rw [hends]
      cases grouping.close? .bars <;> rfl
  rw [groupFrom, hstep]
  rfl

/-- A bar behind something after which a term can end closes the fence of bars around it. -/
theorem groupFrom_closeBar (hends : endsTerm id content.reverse = true) (opened position : Nat)
    (rest : List Char) :
    groupFrom id position ((grouping.openFence .bars opened).addAll content) ('|' :: rest) =
      groupFrom id (position + 1) (grouping.addAll [.enclosed .bars content]) rest := by
  have hclose : ((grouping.openFence .bars opened).addAll content).close? .bars =
      some (grouping.addAll [.enclosed .bars content]) := by
    simp [Grouping.close?, Grouping.openFence, Grouping.addAll]
  have hcontent :
      endsTerm id ((grouping.openFence .bars opened).addAll content).content = true := by
    simpa [Grouping.openFence, Grouping.addAll] using hends
  have hstep : step id position ((grouping.openFence .bars opened).addAll content) '|' =
      .ok (grouping.addAll [.enclosed .bars content]) := by
    rw [step, if_neg (by decide), if_neg (by decide), if_pos (show id '|' = '|' from rfl), hclose,
      hcontent]
    rfl
  rw [groupFrom, hstep]
  rfl

end

namespace Nested

variable {around : Option Fence} {text : List Char} {spans : List (Span Char)}

/-- What is made of spans is grouped into them, whatever follows. -/
theorem groupFrom_eq (h : Nested around text spans) {grouping : Grouping Char}
    (hwithin : grouping.Within around) (position : Nat) (rest : List Char) :
    groupFrom id position grouping (text ++ rest) =
      groupFrom id (position + text.length) (grouping.addAll spans) rest := by
  induction h generalizing grouping position rest with
  | nil => rfl
  | single before plain ih =>
    rw [List.append_assoc, ih hwithin, List.singleton_append, groupFrom_plain plain,
      List.length_append]
    congr 1
    simp [Grouping.add, Grouping.addAll]
  | @enclosed _ text inner spans content fence before inside ends begins ihBefore ihInside =>
    rw [List.append_assoc, ihBefore hwithin]
    cases fence with
    | brackets =>
      -- behind a bracket no bar can be closed
      have hinner := ihInside (.inl rfl :
        ((grouping.addAll spans).openFence .brackets (position + text.length)).Within _)
        (position + text.length + 1) (')' :: rest)
      rw [List.append_assoc, List.singleton_append]
      refine (groupFrom_enclosed (rfl : id '(' = '(') (rfl : id ')' = ')') hinner).trans ?_
      congr 1
      · simp only [List.length_append, List.length_cons, List.length_nil]
        omega
      · simp [Grouping.addAll]
    | bars =>
      have hopens : (grouping.addAll spans).close? .bars = none ∨
          endsTerm id (grouping.addAll spans).content = false := by
        obtain hnone | ⟨haround, hempty⟩ := hwithin
        · have hinnermost := close?_eq_none_iff.mp hnone
          exact .inl (close?_eq_none_iff.mpr hinnermost)
        · right
          rw [Grouping.addAll, hempty, List.append_nil]
          exact begins rfl haround
      have hinner := ihInside (.inr ⟨rfl, rfl⟩ :
        ((grouping.addAll spans).openFence .bars (position + text.length)).Within _)
        (position + text.length + 1) ('|' :: rest)
      rw [List.append_assoc, List.singleton_append, List.cons_append]
      refine (groupFrom_openBar hopens _ _).trans (hinner.trans ?_)
      rw [groupFrom_closeBar (ends rfl)]
      congr 1
      · simp only [List.length_append, List.length_cons, List.length_nil]
        omega
      · simp [Grouping.addAll]

/-- What is made of spans is grouped into them on its own. -/
theorem group_eq (h : Nested around text spans) (position : Nat) :
    group id position text = .ok spans := by
  have hall := h.groupFrom_eq (.inl rfl : (Grouping.empty : Grouping Char).Within around) position []
  rw [List.append_nil] at hall
  rw [group, hall, groupFrom]
  simp [Grouping.addAll, Grouping.empty]

end Nested

/-! ## What is grouped is made of spans -/

/-- The kind of the innermost open fence. -/
def innermost? (opened : List (Opened Char)) : Option Fence :=
  opened.head?.map Opened.fence

/-- A text in which fences are open, the innermost first, with what it holds before and in them. -/
inductive Entered : List Char → List (Opened Char) → List (Span Char) → Prop
  | bottom {text : List Char} {content : List (Span Char)}
      (inside : Nested none text content.reverse) : Entered text [] content
  | fence {text inner : List Char} {innermost : Opened Char} {outer : List (Opened Char)}
      {content : List (Span Char)} (before : Entered text outer innermost.before)
      (begins : innermost.fence = .bars → innermost? outer = some .bars →
        endsTerm id innermost.before = false)
      (inside : Nested (some innermost.fence) inner content.reverse) :
      Entered (text ++ innermost.fence.opening :: inner) (innermost :: outer) content

namespace Entered

variable {text more : List Char} {opened outer : List (Opened Char)} {content : List (Span Char)}
  {innermost : Opened Char}

/-- One more span may follow those which stand in the innermost fence. -/
theorem append (h : Entered text opened content) {span : Span Char}
    (hmore : ∀ {inner : List Char}, Nested (innermost? opened) inner content.reverse →
      Nested (innermost? opened) (inner ++ more) (span :: content).reverse) :
    Entered (text ++ more) opened (span :: content) := by
  cases h with
  | bottom inside => exact .bottom (hmore inside)
  | fence before begins inside =>
    rw [List.append_assoc, List.cons_append]
    exact .fence before begins (hmore inside)

/-- A delimiter which closes the innermost fence leaves the fence as a span among what stands before
it. -/
theorem close (h : Entered text (innermost :: outer) content)
    (hends : innermost.fence = .bars → endsTerm id content = true) :
    Entered (text ++ [innermost.fence.closing]) outer
      (.enclosed innermost.fence content.reverse :: innermost.before) := by
  cases h with
  | fence before begins inside =>
    rw [List.append_assoc]
    refine before.append fun hbefore => ?_
    rw [List.reverse_cons]
    refine .enclosed hbefore inside (fun hbars => ?_) fun hbars haround => ?_
    · rw [List.reverse_reverse]
      exact hends hbars
    · rw [List.reverse_reverse]
      exact begins hbars haround

/-- A delimiter opens a fence inside those which are open. -/
theorem openFence (h : Entered text opened content) (fence : Fence) (position : Nat)
    (hbegins : fence = .bars → innermost? opened = some .bars → endsTerm id content = false) :
    Entered (text ++ [fence.opening]) (⟨fence, position, content⟩ :: opened) [] := by
  have hinside : Nested (some fence) [] ([] : List (Span Char)).reverse := .nil _
  exact @Entered.fence text [] ⟨fence, position, content⟩ opened [] h hbegins hinside

/-- Every step of grouping keeps to the grammar. -/
theorem step {position : Nat} {grouping next : Grouping Char} {c : Char}
    (h : Entered text grouping.opened grouping.content)
    (hstep : Fence.step id position grouping c = .ok next) :
    Entered (text ++ [c]) next.opened next.content := by
  have hclose : ∀ fence, grouping.close? fence = some next →
      (fence = .bars → endsTerm id grouping.content = true) →
        Entered (text ++ [fence.closing]) next.opened next.content := by
    intro fence hclosed hends
    obtain ⟨innermost, outer, hopened, rfl, rfl⟩ := close?_eq_some_iff.mp hclosed
    rw [hopened] at h
    exact h.close hends
  obtain ⟨hplain, rfl⟩ | ⟨rfl, rfl⟩ | ⟨rfl, hclosed⟩ | ⟨rfl, hclosed, hends⟩ | ⟨rfl, rfl, hopens⟩ :=
    step_cases hstep
  · refine h.append fun hinner => ?_
    rw [List.reverse_cons]
    exact .single hinner hplain
  · exact h.openFence .brackets position fun hbars => by cases hbars
  · exact hclose .brackets hclosed (by rintro ⟨⟩)
  · exact hclose .bars hclosed fun _ => hends
  · refine h.openFence .bars position fun _ haround => ?_
    refine hopens.resolve_left fun hnone => ?_
    obtain ⟨innermost, hhead, hbars⟩ := Option.map_eq_some_iff.mp haround
    obtain ⟨outer, houter⟩ := List.head?_eq_some_iff.mp hhead
    exact close?_eq_none_iff.mp hnone innermost outer houter hbars

end Entered

/-- A text is grouped into exactly the spans of which it is made. -/
theorem group_eq_ok_iff {position : Nat} {text : List Char} {spans : List (Span Char)} :
    group id position text = .ok spans ↔ Nested none text spans := by
  refine ⟨fun h => ?_, fun h => h.group_eq position⟩
  obtain ⟨content, rfl, hentered⟩ := group_induction
    (P := fun done grouping => Entered done grouping.opened grouping.content) (.bottom (.nil _))
    Entered.step h
  cases hentered with
  | bottom inside => exact inside

/-- The partners in a text which is made of spans. -/
theorem Nested.partners_eq {around : Option Fence} {text : List Char} {spans : List (Span Char)}
    (h : Nested around text spans) : Fence.partners text = .ok (Span.allMates 0 spans) := by
  rw [Fence.partners_eq, h.group_eq]
  rfl

/-- A text whose delimiters have partners is made of spans, whose partners these are. -/
theorem exists_nested {text : List Char} {partners : List (Option Nat)}
    (h : Fence.partners text = .ok partners) :
    ∃ spans, Nested none text spans ∧ partners = Span.allMates 0 spans := by
  cases hgroup : group id 0 text with
  | error position =>
    rw [Fence.partners_eq, hgroup] at h
    cases h
  | ok spans =>
    have hnested := group_eq_ok_iff.mp hgroup
    rw [hnested.partners_eq] at h
    cases h
    exact ⟨spans, hnested, rfl⟩

end Fence

end FormulaEditor
