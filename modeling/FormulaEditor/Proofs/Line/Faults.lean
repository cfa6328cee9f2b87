import FormulaEditor.Proofs.Line.Survey

/-!
# Why a line is refused

Reading a line by positions stops for a fault of the line itself, or for a reason for which one of
its composite symbols cannot be read (`Survey.stops_readRange`). In particular, no bracket or bar is
refused while a line is read: that is done before, when its delimiters are paired
(`Fence.stops_partners`).
-/

set_option autoImplicit false

namespace FormulaEditor

/-- Whether reading a line by positions can stop for a reason of its own. -/
def Halt.OfLine : Halt → Prop
  | .outOfRange | .endless | .straddled _ | .unpaired _ => True
  | .refused (.cannotParse _) => True
  | .refused _ => False

/-- Where the delimiters of a sequence cannot be paired, one of them has no partner. -/
theorem Fence.stops_partners (precis : List Char) :
    Checked.StopsOnly (fun halt => ∃ position c, halt = .refused (.unmatchedDelimiter position) ∧
      precis[position]? = some c ∧ c ∈ delimiters) (Fence.partners precis) := by
  have hfront : ∀ c ∈ ([] : List Char), id c ∉ delimiters := nofun
  have hpaired := paired_group id hfront precis
  rw [List.nil_append, List.map_id] at hpaired
  intro halt hhalt
  rw [hhalt] at hpaired
  generalize group id ([] : List Char).length precis = grouping at hpaired
  cases hpaired with
  | @error position delimiter =>
    obtain ⟨c, hc, hmem⟩ := delimiter
    exact ⟨position, c, rfl, hc, hmem⟩

namespace Survey

open Checked

variable {survey : Survey} {kind : Halt → Prop} {range : Nat → Nat → Checked Formula}

section

variable (hkind : ∀ halt, halt.OfLine → kind halt)

include hkind

/-- Looking up an item stops only for a fault of the line. -/
theorem stops_item {α : Type} (list : List α) (position : Nat) :
    StopsOnly kind (item list position) :=
  .item (hkind .outOfRange trivial) list position

/-- A fault of the line is a reason of the line. -/
theorem stops_cannotParse {α : Type} (fault : LineFault) :
    StopsOnly kind (throw (.refused (.cannotParse fault)) : Checked α) :=
  .error (hkind _ trivial)

/-! ## Searching -/

/-- Looking for the positions outside of fences stops only for a fault of the line. -/
theorem stops_outermost (position hi : Nat) : StopsOnly kind (survey.outermost position hi) := by
  induction hwidth : hi - position using Nat.strong_induction_on generalizing position with
  | _ width ih =>
  rw [outermost]
  by_cases hlt : position < hi
  · rw [if_pos hlt]
    refine (stops_item hkind _ position).bind fun partner => ?_
    have hnext : ∀ next, position < next →
        StopsOnly kind (do return position :: (← survey.outermost next hi)) :=
      fun next hnext => (ih (hi - next) (by omega) next rfl).bind fun _ => .ok _
    cases partner with
    | none => exact hnext _ (Nat.lt_succ_self position)
    | some last =>
      show StopsOnly kind (if position < last then _ else _)
      by_cases hlast : position < last
      · rw [if_pos hlast]
        exact .ite (.error (hkind _ trivial)) (hnext _ (Nat.lt_succ_of_lt hlast))
      · rw [if_neg hlast]
        exact hnext _ (Nat.lt_succ_self position)
  · rw [if_neg hlt]
    exact .ok []

/-- Asking whether a sum can be split stops only for a fault of the line. -/
theorem stops_isSplit (lo position : Nat) : StopsOnly kind (survey.isSplit lo position) :=
  (stops_item hkind _ position).bind fun _ => .ite
    ((StopsOnly.before (hkind _ trivial) position).bind fun before =>
      (stops_item hkind _ before).bind fun _ => .ok _) (.ok false)

/-- Asking whether a product can be split stops only for a fault of the line. -/
theorem stops_isTimes (position : Nat) : StopsOnly kind (survey.isTimes position) :=
  (stops_item hkind _ position).bind fun _ => .ok _

/-- Looking for the end of digits stops only for a fault of the line. -/
theorem stops_digitsEnd (position hi : Nat) : StopsOnly kind (survey.digitsEnd position hi) := by
  induction hwidth : hi - position using Nat.strong_induction_on generalizing position with
  | _ width ih =>
  rw [digitsEnd]
  by_cases hlt : position < hi
  · rw [if_pos hlt]
    exact (stops_item hkind _ position).bind fun _ =>
      .ite (ih (hi - (position + 1)) (by omega) (position + 1) rfl) (.ok position)
  · rw [if_neg hlt]
    exact .ok position

/-- Looking for the end of a numeral stops only for a fault of the line. -/
theorem stops_numeralEnd (position hi : Nat) : StopsOnly kind (survey.numeralEnd position hi) :=
  (stops_digitsEnd hkind position hi).bind fun last => .ite
    ((stops_item hkind _ last).bind fun _ => .ite
      ((stops_item hkind _ (last + 1)).bind fun _ =>
        .ite (stops_digitsEnd hkind (last + 1) hi) (.ok last)) (.ok last)) (.ok last)

/-- Asking whether a word is spelled stops only for a fault of the line. -/
theorem stops_wordAt (position hi : Nat) (word : String) :
    StopsOnly kind (survey.wordAt position hi word) :=
  .ite ((StopsOnly.slice (hkind _ trivial) _ _ _).bind fun _ => .ok _) (.ok false)

/-- Looking for the name of a function stops only for a fault of the line. -/
theorem stops_functionAt (position hi : Nat) :
    StopsOnly kind (survey.functionAt position hi) := by
  have hword : ∀ op : Operator, StopsOnly kind (survey.wordAt position hi op.tag) :=
    fun op => stops_wordAt hkind position hi op.tag
  exact StopsOnly.find hword Operator.functions

/-- Looking up the partner of a delimiter stops only for a fault of the line. -/
theorem stops_partner (position : Nat) : StopsOnly kind (survey.partner position) := by
  refine (stops_item hkind _ position).bind fun partner => ?_
  cases partner with
  | none => exact .error (hkind _ trivial)
  | some other => exact .ok other

/-! ## Reading -/

variable (hcomposite : ∀ position, StopsOnly kind (survey.composite position))
  (hexponent : ∀ position, StopsOnly kind (survey.exponent position))
  (hrange : ∀ lo hi, StopsOnly kind (range lo hi))

include hcomposite hrange in
/-- Reading a symbol stops only for a fault of the line, or for a reason of what is read inside it.
-/
theorem stops_readSymbol (c : Char) (position : Nat) :
    StopsOnly kind (survey.readSymbol range c position) :=
  .ite (.ok _) <| .ite (.ok _) <| .ite (.ok _) <| .ite (.ok _) <|
    .ite ((hcomposite position).bind fun _ => .ok _) <|
    .ite ((stops_partner hkind position).bind fun last => (hrange _ last).bind fun _ => .ok _) <|
    .ite ((stops_partner hkind position).bind fun last => (hrange _ last).bind fun _ => .ok _) <|
    .ite (stops_cannotParse hkind _) (stops_cannotParse hkind _)

include hexponent hrange in
/-- Reading powers stops only for a fault of the line, or for a reason of what is read inside them.
-/
theorem stops_readPowers (value : Formula) (position hi : Nat) :
    StopsOnly kind (survey.readPowers range value position hi) := by
  induction hwidth : hi - position using Nat.strong_induction_on generalizing value position with
  | _ width ih =>
  rw [readPowers]
  by_cases hlt : position < hi
  · rw [if_pos hlt]
    exact (stops_item hkind _ position).bind fun _ => .ite
      ((hexponent position).bind fun _ => ih (hi - (position + 1)) (by omega) _ (position + 1) rfl)
      ((hrange position hi).bind fun _ => .ok _)
  · rw [if_neg hlt]
    exact .ok value

include hcomposite hexponent hrange in
/-- Reading a term stops only for a fault of the line, or for a reason of what is read inside it. -/
theorem stops_readTerm (lo hi : Nat) : StopsOnly kind (survey.readTerm range lo hi) := by
  have hpowers := stops_readPowers hkind hexponent hrange
  refine (stops_item hkind _ lo).bind fun c => .ite ?_ ?_
  · exact (stops_numeralEnd hkind lo hi).bind fun last =>
      (StopsOnly.slice (hkind _ trivial) _ lo last).bind fun _ => hpowers _ last hi
  · refine (stops_functionAt hkind lo hi).bind fun function => ?_
    cases function with
    | some op => exact (hrange _ hi).bind fun _ => .ok _
    | none =>
      refine StopsOnly.bind ?_ fun (value, next) => hpowers value next hi
      exact (stops_wordAt hkind lo hi "pi").bind fun _ =>
        .ite (.ok _) (stops_readSymbol hkind hcomposite hrange c lo)

end

/-- Reading a range stops for a fault of the line, or for a reason for which a composite symbol
cannot be read. -/
theorem stops_readRange (hkind : ∀ halt, halt.OfLine → kind halt)
    (hcomposite : ∀ position, StopsOnly kind (survey.composite position))
    (hexponent : ∀ position, StopsOnly kind (survey.exponent position)) (rounds lo hi : Nat) :
    StopsOnly kind (survey.readRange rounds lo hi) := by
  induction rounds generalizing lo hi with
  | zero => exact .error (hkind _ trivial)
  | succ rounds ih =>
    have hboth : ∀ op position, StopsOnly kind (do
        let left ← survey.readRange rounds lo position
        return Formula.binary op left (← survey.readRange rounds (position + 1) hi)) :=
      fun op position => (ih lo position).bind fun _ => (ih (position + 1) hi).bind fun _ => .ok _
    have hslice := StopsOnly.slice (hkind _ trivial) survey.precis lo hi
    rw [readRange]
    refine .ite (stops_cannotParse hkind _) ?_
    refine (stops_outermost hkind lo hi).bind fun positions => ?_
    refine (StopsOnly.find (stops_isSplit hkind lo) _).bind fun split => ?_
    cases split with
    | some position =>
      exact hslice.bind fun _ => (stops_item hkind _ position).bind fun _ => hboth _ position
    | none =>
      refine (StopsOnly.find (stops_isTimes hkind) _).bind fun times => ?_
      cases times with
      | some position => exact hslice.bind fun _ => hboth _ position
      | none =>
        exact (stops_item hkind _ lo).bind fun _ => .ite ((ih _ hi).bind fun _ => .ok _)
          (stops_readTerm hkind hcomposite hexponent ih lo hi)

/-- Besides, a line is refused if there is nothing behind its start. -/
theorem stops_read (hkind : ∀ halt, halt.OfLine → kind halt)
    (hempty : survey.precis.length ≤ 1 → kind (.refused .emptyExpression))
    (hcomposite : ∀ position, StopsOnly kind (survey.composite position))
    (hexponent : ∀ position, StopsOnly kind (survey.exponent position)) :
    StopsOnly kind survey.read := by
  unfold read
  generalize hstart : (if survey.precis.head? = some '_' then 1 else 0) = start
  have hle : start ≤ 1 := by
    rw [← hstart]
    split <;> omega
  show StopsOnly kind (if survey.precis.length ≤ start then _ else _)
  by_cases hlength : survey.precis.length ≤ start
  · rw [if_pos hlength]
    exact .error (hempty (hlength.trans hle))
  · rw [if_neg hlength]
    exact stops_readRange hkind hcomposite hexponent _ start _

end Survey

end FormulaEditor
