import FormulaEditor.Proofs.Line.Balance
import FormulaEditor.Proofs.Line.Nesting
import FormulaEditor.Proofs.Tree.Gathering

/-!
# Two ways to find a bracket

A numerator finds the bracket in front of a group by counting brackets backwards, without regard for
bars. A line is read forwards, with bars and brackets on one stack. Where the delimiters of a text
can be paired at all, both find the same bracket for a closing one at its end
(`Numerator.groupLength_of_partners`), and the group and what stands before it can be read apart.
-/

set_option autoImplicit false

namespace FormulaEditor

/-- What is made of spans is balanced. -/
theorem Fence.Nested.balanced {around : Option Fence} {text : List Char} {spans : List (Span Char)}
    (h : Nested around text spans) : Balanced text := by
  have hbalanced := balanced_of_group .nil (h.group_eq 0)
  rwa [List.nil_append, List.map_id] at hbalanced

namespace Numerator

open Fence (group)

/-- For a text which ends with a closing bracket, and whose delimiters can be paired, counting
brackets backwards finds the position of the partner of that bracket. The text before this position
and the text from it on can be grouped on their own, as they are grouped in the whole text, and the
partners in both are what they are in the whole text. -/
theorem groupLength_of_partners {precis : List Char} {partners : List (Option Nat)}
    (h : Fence.partners precis = .ok partners) (hlast : precis.getLast? = some ')') :
    ∃ first before content,
      groupLength 0 precis.reverse = some (precis.length - first) ∧
      openingAt 0 precis.zipIdx.reverse = some first ∧
      partners[precis.length - 1]? = some (some first) ∧
      group id 0 precis = .ok (before ++ [.enclosed .brackets content]) ∧
      group id 0 (precis.take first) = .ok before ∧
      group id 0 (precis.drop first) = .ok [.enclosed .brackets content] ∧
      Fence.partners (precis.take first) = .ok (partners.take first) ∧
      Fence.partners (precis.drop first) =
        .ok ((partners.drop first).map (Option.map (· - first))) := by
  obtain ⟨spans, hnested, rfl⟩ := Fence.exists_nested h
  obtain ⟨front, inner, before, content, rfl, rfl, hbefore, hinside⟩ := hnested.exists_brackets hlast
  have hbracketed : Fence.Nested none ('(' :: inner ++ [')']) [.enclosed .brackets content] :=
    .enclosed (.nil _) hinside (by rintro ⟨⟩) (by rintro ⟨⟩)
  have hlength : (front ++ ('(' :: inner ++ [')'])).length = front.length + (inner.length + 2) := by
    simp
  have hgroup : groupLength 0 (front ++ ('(' :: inner ++ [')'])).reverse =
      some (inner.length + 2) :=
    groupLength_group front hinside.balanced.count_eq hinside.balanced.count_drop_le
  -- the partners of the text are those of its two parts, one after the other
  have hpartners := Span.allMates_append 0 before [Span.enclosed .brackets content]
  rw [Nat.zero_add, ← hbefore.length_eq] at hpartners
  have hfront : (Span.allMates 0 before).length = front.length := by
    rw [Span.length_allMates, hbefore.length_eq]
  have hback : Span.allMates front.length [Span.enclosed .brackets content] =
      (Span.allMates 0 [Span.enclosed .brackets content]).map (Option.map (· + front.length)) := by
    rw [← Span.allMates_add, Nat.zero_add]
  refine ⟨front.length, before, content, ?_, ?_, ?_, hnested.group_eq 0, ?_, ?_, ?_, ?_⟩
  · rw [hgroup, hlength, Nat.add_sub_cancel_left]
  · rw [openingAt_eq, hgroup, hlength, Option.map_some, Nat.add_sub_cancel]
  · have hmate : Span.allMates front.length [Span.enclosed .brackets content] =
        some (front.length + 1 + inner.length) ::
          (Span.allMates (front.length + 1) content ++ [some front.length]) := by
      rw [Span.allMates, Span.allMates, Span.mates, List.append_nil, hinside.length_eq]
    have hcontent : (Span.allMates (front.length + 1) content).length = inner.length := by
      rw [Span.length_allMates, hinside.length_eq]
    rw [hpartners, hmate, hlength, List.getElem?_append_right (by omega), hfront,
      show front.length + (inner.length + 2) - 1 - front.length = inner.length + 1 by omega,
      List.getElem?_cons_succ, List.getElem?_append_right (by omega), hcontent, Nat.sub_self,
      List.getElem?_cons_zero]
  · rw [List.take_left]
    exact hbefore.group_eq 0
  · rw [List.drop_left]
    exact hbracketed.group_eq 0
  · rw [List.take_left, hpartners, ← hfront, List.take_left]
    exact hbefore.partners_eq
  · rw [List.drop_left, hbracketed.partners_eq, hpartners, ← hfront, List.drop_left, hfront, hback,
      List.map_map]
    congr 1
    refine (List.map_id _).symm.trans (List.map_congr_left fun partner _ => ?_)
    cases partner with
    | none => rfl
    | some position => exact congrArg some (Nat.add_sub_cancel position front.length).symm

/-- Behind bars, and with bars in the group. -/
theorem groupLength_behind_bars :
    openingAt 0 "|a|*(|b|-c)".toList.zipIdx.reverse = some 4 ∧
      ∃ before content, group id 0 "|a|*".toList = .ok before ∧
        group id 0 "(|b|-c)".toList = .ok [.enclosed .brackets content] := by
  have hpartners : Fence.partners "|a|*(|b|-c)".toList = .ok [some 2, none, some 0, none, some 10,
      some 7, none, some 5, none, none, some 4] := rfl
  obtain ⟨first, before, content, -, hopening, hmate, -, hbefore, hgroup, -, -⟩ :=
    groupLength_of_partners hpartners rfl
  obtain rfl : 4 = first := Option.some.inj (Option.some.inj hmate)
  exact ⟨hopening, before, content, hbefore, hgroup⟩

end Numerator

end FormulaEditor
