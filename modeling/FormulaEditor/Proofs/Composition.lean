import Mathlib.Data.List.Forall2
import FormulaEditor.Proofs.Line.Cutting
import FormulaEditor.Proofs.Line.Embedding
import FormulaEditor.Proofs.Session
import FormulaEditor.Tree.Formula

/-!
# Contents between brackets

Between brackets a content means what it means on its own, whatever it is made of and whatever
stands around the brackets: it is one operand there (`Line.Yields.bracketed`). So lines can be
composed of others, and the formula of the result is composed of theirs
(`Tree.formula_of_bracketed`). A sum may also go on behind any content which has a formula, because
behind an operand a sign adds or subtracts.
-/

set_option autoImplicit false

namespace FormulaEditor

open Formula (bracketed)
open Lexeme (Sum Product Signed Term powerWords powerOf)

/-- A line is grouped, wherever no bar is the innermost open delimiter, into spans which have the
given tokens, with an operand for every fence. -/
def Line.Yields (line : Line) (tokens : List Token) : Prop :=
  ∃ spans, Fence.GroupsOutside Token.precis (Glyph.tokens line) spans ∧ Span.tokens spans = tokens

/-- A line has a formula if the tokens which it yields are a sum. -/
theorem Line.formula_eq_ok_iff {line : Line} {value : Formula} :
    line.formula = .ok value ↔ ∃ tokens, line.Yields tokens ∧ Token.sum tokens = .ok value := by
  rw [Line.formula, Token.formula]
  constructor
  · intro h
    cases hgroup : Fence.group Token.precis 1 (Glyph.tokens line) with
    | error position =>
      rw [hgroup] at h
      cases h
    | ok spans =>
      rw [hgroup] at h
      cases spans with
      | nil => cases h
      | cons span spans => exact ⟨_, ⟨_, Fence.groupsOutside_of_group hgroup, rfl⟩, h⟩
  · rintro ⟨tokens, ⟨spans, hgroups, rfl⟩, hsum⟩
    rw [hgroups.group_eq]
    cases spans with
    | nil => exact absurd rfl (Lexeme.sum_eq_ok_iff.mp hsum).ne_nil
    | cons span spans => exact hsum

namespace Line.Yields

variable {line left right : Line} {tokens more : List Token} {value : Formula}

/-- A line whose tokens make a sum denotes its value. -/
theorem formula_eq (h : Yields line tokens) (hsum : Token.sum tokens = .ok value) :
    line.formula = .ok value :=
  formula_eq_ok_iff.mpr ⟨tokens, h, hsum⟩

/-- Two lines one after the other yield the tokens of both. -/
theorem append (h : Yields left tokens) (hmore : Yields right more) :
    Yields (left ++ right) (tokens ++ more) := by
  obtain ⟨spans, hgroups, rfl⟩ := h
  obtain ⟨others, hothers, rfl⟩ := hmore
  refine ⟨spans ++ others, ?_, Span.tokens_append spans others⟩
  rw [Glyph.tokens_append]
  exact hgroups.append hothers

/-- A line without delimiters yields its own tokens. -/
theorem plain (h : ∀ token ∈ Glyph.tokens line, token.precis ∉ ['(', ')', '|']) :
    Yields line (Glyph.tokens line) :=
  ⟨_, .plain h, Span.tokens_single _⟩

/-- A glyph which is no delimiter yields its token. -/
theorem glyph {glyph : Glyph} {token : Token} (htoken : glyph.token = token)
    (hplain : token.precis ∉ ['(', ')', '|']) : Yields [glyph] [token] := by
  have htokens : Glyph.tokens [glyph] = [token] := by rw [Glyph.tokens, Glyph.tokens, htoken]
  have hline : ∀ other ∈ Glyph.tokens [glyph], other.precis ∉ ['(', ')', '|'] := by
    rw [htokens]
    exact List.forall_mem_singleton.mpr hplain
  exact htokens ▸ plain hline

/-- A sign or an operator yields itself. -/
theorem sign {c : Char} (hc : c ∈ operators) : Yields [.atom c] [.char c] := by
  simp only [operators, List.mem_cons, List.not_mem_nil, or_false] at hc
  obtain rfl | rfl | rfl := hc <;> exact .glyph rfl (by decide)

/-- Ordinary characters yield themselves. -/
theorem atoms {text : List Char} (h : ∀ c ∈ text, Lexeme.Ordinary c) :
    Yields (text.map .atom) (text.map .char) := by
  have hchars := Glyph.tokens_atoms h
  refine hchars ▸ plain fun token htoken => ?_
  rw [hchars] at htoken
  obtain ⟨c, hc, rfl⟩ := List.mem_map.mp htoken
  have hothers : ['(', ')', '|'] ⊆ ['%', '^', '(', ')', '|', '_'] := by decide
  exact fun hmem => h c hc (hothers hmem)

/-- A content between brackets yields one operand. -/
theorem bracketed (h : line.formula = .ok value) :
    Yields (bracketed line) [.operand (.ok value)] := by
  obtain ⟨tokens, ⟨spans, hgroups, rfl⟩, hsum⟩ := formula_eq_ok_iff.mp h
  refine ⟨[.enclosed .brackets spans], ?_, ?_⟩
  · rw [Formula.bracketed, Glyph.tokens_append]
    exact hgroups.enclosed rfl rfl
  · show [Token.operand (Token.sum (Span.tokens spans))] = _
    rw [hsum]

/-- Exponents yield powers, one by one. -/
theorem superscripts {exponents : List Line} {values : List Formula}
    (h : List.Forall₂ (fun exponent value => Line.formula exponent = .ok value) exponents values) :
    Yields (exponents.map .superscript) (values.map fun value => .power (.ok value)) := by
  induction h with
  | nil => exact ⟨[], fun _ _ _ _ => rfl, rfl⟩
  | @cons exponent value exponents values hvalue _ ih =>
    have hslot : Token.slot (Glyph.tokens exponent) = .ok value := by
      rw [Token.slot, show Token.formula (Glyph.tokens exponent) = .ok value from hvalue]
    have hone : Yields [.superscript exponent] [.power (.ok value)] :=
      glyph (by rw [Glyph.token, hslot]) (show '^' ∉ _ by decide)
    exact hone.append ih

end Line.Yields

/-! ## Sums of tokens -/

section

variable {tokens : List Token} {a b : Formula}

/-- An operand may be added to or subtracted from whatever has a formula. -/
theorem Token.sum_append_operand {sign : Operator} {c : Char}
    (hsign : (c = '+' ∧ sign = .plus) ∨ (c = '-' ∧ sign = .minus))
    (h : Token.sum tokens = .ok a) :
    Token.sum (tokens ++ [.char c, .operand (.ok b)]) = .ok (.binary sign a b) := by
  have hends : Token.unaryAfter true tokens = false := by
    rw [← Lexeme.unaryAfter_words]
    exact (Lexeme.sum_eq_ok_iff.mp h).unaryAfter true
  have huncut : Token.Uncut true [.operand (.ok b)] := ⟨fun _ => rfl, trivial⟩
  rw [Token.sum_append_sign hsign hends huncut, h]
  rfl

/-- A minus sign in front of an operand is read as its negation. -/
theorem Token.sum_minus_operand :
    Token.sum [.char '-', .operand (.ok a)] = .ok (.unary .minus a) := by
  have huncut : Token.Uncut true [.operand (.ok a)] := ⟨fun _ => rfl, trivial⟩
  rw [Token.sum_minus huncut (by simp)]
  rfl

/-- An operand, a multiplication sign and an operand are read as a product. -/
theorem Token.sum_times_operands :
    Token.sum [.operand (.ok a), .char '*', .operand (.ok b)] = .ok (.binary .times a b) := by
  have huncut : ∀ value, Token.Uncut true [.operand (.ok value)] := fun _ => ⟨fun _ => rfl, trivial⟩
  rw [← List.singleton_append, Token.sum_append_times (huncut a) (by simp) (huncut b)]
  rfl

/-- The letters of the name of a function in front of an operand are read as the function of it. -/
theorem Token.sum_function_operand {op : Operator} (hop : op ∈ Operator.functions) :
    Token.sum (op.tag.toList.map .char ++ [.operand (.ok a)]) = .ok (.unary op a) := by
  rw [Token.sum, Lexeme.words_of_function hop]
  exact Lexeme.sum_eq_ok_iff.mpr (.product (.signed (.term (.function (.operand a [])))))

/-- An operand with exponents behind it is read as a power, the exponents grouping to the left. -/
theorem Token.sum_powers (values : List Formula) :
    Token.sum (.operand (.ok a) :: values.map fun value => .power (.ok value)) =
      .ok (powerOf a values) := by
  have hpowers : ∀ values : List Formula,
      Lexeme.words (values.map fun value => .power (.ok value)) =
        values.map fun value => .power (.ok value) := by
    intro values
    induction values with
    | nil => rfl
    | cons value values ih =>
      rw [List.map_cons, Lexeme.words_cons, List.map_cons, ← ih]
      rfl
  rw [Token.sum, Lexeme.words_cons]
  show Lexeme.sum (.operand (.ok a) ::
    Lexeme.words (values.map fun value => .power (.ok value))) = _
  rw [hpowers]
  exact Lexeme.sum_eq_ok_iff.mpr (.product (.signed (.term (.operand a values))))

end

/-! ## Contents of expressions -/

/-- An expression shows a line. -/
def Tree.Shows (tree : Tree) (expression : NodeId) (line : Line) : Prop :=
  (∃ items, tree.items expression = .ok items) ∧ tree.line expression = line

/-- An expression which shows a line has the formula of the line. -/
theorem Tree.Shows.formula_eq {tree : Tree} {expression : NodeId} {line : Line}
    (h : tree.Shows expression line) : tree.formula expression = line.formula := by
  obtain ⟨⟨items, hitems⟩, rfl⟩ := h
  rw [Tree.formula, hitems]
  rfl

/-- A node has a formula just if it is an expression and the line which it shows denotes one. -/
theorem Tree.formula_eq_ok_iff {tree : Tree} {expression : NodeId} {value : Formula} :
    tree.formula expression = .ok value ↔
      (∃ items, tree.items expression = .ok items) ∧
        (tree.line expression).formula = .ok value := by
  rw [Tree.formula]
  cases tree.items expression with
  | error e =>
    constructor
    · rintro ⟨⟩
    · rintro ⟨⟨_, ⟨⟩⟩, _⟩
  | ok items => exact ⟨fun h => ⟨⟨items, rfl⟩, h⟩, fun h => h.2⟩

/-- What expressions denote whose content is made of others which have formulas, with brackets
around them: the content alone or behind a minus sign or the name of a function, two contents one
after another or with an operator between them, a content to or from which another one is added or
subtracted, and a content with exponents behind it. -/
theorem Tree.formula_of_bracketed {content left right : Line} {value a b : Formula}
    (hcontent : content.formula = .ok value) (hleft : left.formula = .ok a)
    (hright : right.formula = .ok b) {op : Operator} (hop : op ∈ Operator.functions)
    {exponents : List Line} {values : List Formula}
    (hexponents : List.Forall₂ (fun exponent value => Line.formula exponent = .ok value)
      exponents values)
    (tree : Tree) (expression : NodeId) :
    (tree.Shows expression (bracketed content) → tree.formula expression = .ok value) ∧
    (tree.Shows expression (.atom '-' :: bracketed content) →
      tree.formula expression = .ok (.unary .minus value)) ∧
    (tree.Shows expression (op.tag.toList.map .atom ++ bracketed content) →
      tree.formula expression = .ok (.unary op value)) ∧
    (tree.Shows expression (bracketed left ++ bracketed right) →
      tree.formula expression = .ok (.binary .times a b)) ∧
    (tree.Shows expression (bracketed left ++ .atom '*' :: bracketed right) →
      tree.formula expression = .ok (.binary .times a b)) ∧
    (tree.Shows expression (left ++ .atom '+' :: bracketed right) →
      tree.formula expression = .ok (.binary .plus a b)) ∧
    (tree.Shows expression (left ++ .atom '-' :: bracketed right) →
      tree.formula expression = .ok (.binary .minus a b)) ∧
    (tree.Shows expression (bracketed content ++ exponents.map .superscript) →
      tree.formula expression =
        .ok (values.foldl (fun base exponent => .binary .power base exponent) value)) := by
  -- every part yields its own tokens, so that only sums of tokens are left
  have hvalue := Line.Yields.bracketed hcontent
  have ha := Line.Yields.bracketed hleft
  have hb := Line.Yields.bracketed hright
  obtain ⟨tokens, htokens, hsum⟩ := Line.formula_eq_ok_iff.mp hleft
  have hname := Line.Yields.atoms (Lexeme.ordinary_spelled _ (Lexeme.tag_mem_spelled hop))
  have hminus := @Line.Yields.sign '-' (by decide)
  have hplus := @Line.Yields.sign '+' (by decide)
  have htimes := @Line.Yields.sign '*' (by decide)
  refine ⟨fun h => ?_, fun h => ?_, fun h => ?_, fun h => ?_, fun h => ?_, fun h => ?_, fun h => ?_,
    fun h => ?_⟩ <;> rw [h.formula_eq]
  · exact hvalue.formula_eq rfl
  · exact (hminus.append hvalue).formula_eq Token.sum_minus_operand
  · exact (hname.append hvalue).formula_eq (Token.sum_function_operand hop)
  · exact (ha.append hb).formula_eq rfl
  · exact (ha.append (htimes.append hb)).formula_eq Token.sum_times_operands
  · exact (htokens.append (hplus.append hb)).formula_eq
      (Token.sum_append_operand (.inl ⟨rfl, rfl⟩) hsum)
  · exact (htokens.append (hminus.append hb)).formula_eq
      (Token.sum_append_operand (.inr ⟨rfl, rfl⟩) hsum)
  · exact (hvalue.append (.superscripts hexponents)).formula_eq (Token.sum_powers values)

set_option maxRecDepth 10000 in
/-- What is typed as `2-(1|x|)` is a difference. -/
theorem formula_of_bracketed_product :
    let left : Line := [.atom '2']
    let right : Line := [.atom '1', .bar, .atom 'x', .bar]
    let product : Formula := .binary .times (.number "1") (.unary .abs (.identifier 'x'))
    let tree := Tree.empty.run
      [.create (.atom '2'), .insertAfter 1 2, .create (.atom '-'), .insertAfter 2 3,
        .create (.bracket .opening), .insertAfter 3 4, .create (.atom '1'), .insertAfter 4 5,
        .create .bar, .insertAfter 5 6, .create (.atom 'x'), .insertAfter 6 7, .create .bar,
        .insertAfter 7 8, .create (.bracket .closing), .insertAfter 8 9]
    left.formula = .ok (.number "2") ∧ right.formula = .ok product ∧
      tree.Shows Tree.root (left ++ .atom '-' :: bracketed right) ∧
      tree.formula Tree.root = .ok (.binary .minus (.number "2") product) := by
  intro left right product tree
  have hleft : left.formula = .ok (.number "2") := rfl
  have hright : right.formula = .ok product := rfl
  have hshows : tree.Shows Tree.root (left ++ .atom '-' :: bracketed right) := ⟨⟨_, rfl⟩, rfl⟩
  have hsin : Operator.sin ∈ Operator.functions := by decide
  have hall := Tree.formula_of_bracketed hright hleft hright hsin (List.Forall₂.cons hleft .nil)
    tree Tree.root
  exact ⟨hleft, hright, hshows, hall.2.2.2.2.2.2.1 hshows⟩

end FormulaEditor
