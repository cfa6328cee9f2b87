import FormulaEditor.Formula.Typeset

/-!
# The normal form of a formula

What a formula becomes when it is typeset and read again. A negative number is the negation of a
positive one, the letters `e` and `π` are constants, sums and differences of more than two terms
group to the left and products to the right, and every root is written with its degree
(`Formula.normal`).
-/

set_option autoImplicit false

namespace FormulaEditor.Formula

/-- A property which passes from a value to its degree and from operands to their application holds
of every formula. -/
@[elab_as_elim]
theorem inductionOn {P : Formula → Prop} (number : ∀ text, P (.number text))
    (identifier : ∀ letter, P (.identifier letter)) (constant : ∀ name, P (.constant name))
    (degree : ∀ value, P value → P (.degree value))
    (apply : ∀ op operands, (∀ operand ∈ operands, P operand) → P (.apply op operands)) :
    (formula : Formula) → P formula
  | .number text => number text
  | .identifier letter => identifier letter
  | .constant name => constant name
  | .degree value => degree value (inductionOn number identifier constant degree apply value)
  | .apply op operands => apply op operands fun operand _ =>
    inductionOn number identifier constant degree apply operand

/-! ## The normal form -/

/-- Factors multiplied with each other, grouped to the right. -/
def nestRight (first : Formula) : List Formula → Formula
  | [] => first
  | second :: others => .binary .times first (nestRight second others)

/-- An operator applied to any number of operands, as applications to two operands at a time if it
adds, subtracts or multiplies. -/
def nest : Operator → List Formula → Formula
  | .plus, first :: second :: others => (second :: others).foldl (.binary .plus) first
  | .minus, first :: second :: others => (second :: others).foldl (.binary .minus) first
  | .times, first :: second :: others => nestRight first (second :: others)
  | op, operands => .apply op operands

mutual

/-- The formula which the line of a formula denotes. -/
def normal : Formula → Formula
  | .number text => match text.toList with
    | '-' :: digits => .unary .minus (.number (String.ofList digits))
    | _ => .number text
  | .identifier letter =>
    if letter = 'e' then .constant .exponentialE
    else if letter = 'π' then .constant .pi
    else .identifier letter
  | .constant name => .constant name
  | .degree value => .degree (normal value)
  | .apply .root [_, radicand] | .apply .root [radicand] => .squareRoot (normal radicand)
  | .apply op operands => nest op (normalAll operands)

/-- The normal forms of operands. -/
def normalAll : List Formula → List Formula
  | [] => []
  | operand :: operands => normal operand :: normalAll operands

end

/-- The normal forms of operands are taken one by one. -/
theorem normalAll_eq_map (operands : List Formula) : normalAll operands = operands.map normal := by
  induction operands with
  | nil => rw [normalAll, List.map_nil]
  | cons operand operands ih => rw [normalAll, ih, List.map_cons]

/-- A number with a sign is the negation of one without. -/
theorem normal_negative {text : String} {digits : List Char} (h : text.toList = '-' :: digits) :
    normal (.number text) = .unary .minus (.number (String.ofList digits)) := by
  rw [normal, h]
  rfl

/-- A number without a sign is in normal form. -/
theorem normal_number {text : String} (h : text.toList.head? ≠ some '-') :
    normal (.number text) = .number text := by
  rw [normal]
  split
  · rename_i digits hlist
    rw [hlist] at h
    exact absurd rfl h
  · rfl

/-- The normal form of an application which is no root is made of those of its operands. -/
theorem normal_apply {op : Operator} (h : op ≠ .root) (operands : List Formula) :
    normal (.apply op operands) = nest op (operands.map normal) := by
  rw [← normalAll_eq_map]
  cases op with
  | root => exact absurd rfl h
  | _ => rw [normal] <;> nofun

/-! ## What can be typeset -/

attribute [local simp] typesettable typesettableAll

/-- Operands can be typeset if each of them can. -/
theorem typesettableAll_eq_ok_iff {operands : List Formula} :
    typesettableAll operands = .ok () ↔ ∀ operand ∈ operands, operand.typesettable = .ok () := by
  induction operands with
  | nil => simp
  | cons operand operands ih =>
    rw [typesettableAll, List.forall_mem_cons, ← ih]
    cases operand.typesettable with
    | error fault =>
      constructor
      · rintro ⟨⟩
      · rintro ⟨⟨⟩, -⟩
    | ok value =>
      constructor
      · exact fun h => ⟨rfl, h⟩
      · exact fun h => h.2

/-- An application which is no root can be typeset if it has as many operands as its operator takes
and these can be typeset. -/
theorem typesettable_apply {op : Operator} (h : op ≠ .root) (operands : List Formula) :
    (apply op operands).typesettable =
      if op.takes operands.length then typesettableAll operands
      else .error (.wrongOperands op) := by
  cases op with
  | root => exact absurd rfl h
  | _ => rw [typesettable] <;> nofun

/-- An application without a degree can be typeset if it has a right number of operands which can.
-/
theorem typesettable_apply_iff {op : Operator} (h : op ≠ .root) {operands : List Formula} :
    (apply op operands).typesettable = .ok () ↔ op.takes operands.length = true ∧
      ∀ operand ∈ operands, operand.typesettable = .ok () := by
  rw [typesettable_apply h, ← typesettableAll_eq_ok_iff]
  cases op.takes operands.length <;> simp

/-- A root can be typeset if its radicand can and its degree is two or left out. -/
theorem typesettable_root_iff {operands : List Formula} :
    (apply .root operands).typesettable = .ok () ↔ ∃ radicand, radicand.typesettable = .ok () ∧
      (operands = [radicand] ∨ ∃ value, operands = [.degree value, radicand] ∧
        value.decimalValue.any (·.hasValue 2) = true) := by
  constructor
  · intro h
    cases operands with
    | nil =>
      simp at h
    | cons first others =>
      cases others with
      | nil =>
        rw [typesettable] at h
        exact ⟨first, h, .inl rfl⟩
      | cons second others =>
        cases others with
        | cons third others =>
          simp at h
        | nil =>
          cases first with
          | degree value =>
            rw [typesettable] at h
            split at h
            · rename_i hdegree
              exact ⟨second, h, .inr ⟨value, rfl, hdegree⟩⟩
            · cases h
          | _ => simp at h
  · rintro ⟨radicand, hradicand, rfl | ⟨value, rfl, hdegree⟩⟩
    · rw [typesettable, hradicand]
    · rw [typesettable, if_pos hdegree, hradicand]

/-- The formulas which can be typeset, by what there is to write. -/
inductive Typesettable : Formula → Prop
  | number {text : String} (hliteral : isNumberLiteral text = true) : Typesettable (.number text)
  | identifier {letter : Char} (hletter : Text.isAlphabetic letter = true) :
    Typesettable (.identifier letter)
  | constant (name : Constant) : Typesettable (.constant name)
  | sum {op : Operator} (hop : op = .plus ∨ op = .minus) {first second : Formula}
    {others : List Formula} (h : ∀ term ∈ first :: second :: others, Typesettable term) :
    Typesettable (.apply op (first :: second :: others))
  | negation {operand : Formula} (h : Typesettable operand) : Typesettable (.apply .minus [operand])
  | product {first second : Formula} {others : List Formula}
    (h : ∀ factor ∈ first :: second :: others, Typesettable factor) :
    Typesettable (.apply .times (first :: second :: others))
  | fraction {numerator denominator : Formula} (htop : Typesettable numerator)
    (hbottom : Typesettable denominator) : Typesettable (.apply .divide [numerator, denominator])
  | power {base exponent : Formula} (hbase : Typesettable base)
    (hexponent : Typesettable exponent) : Typesettable (.apply .power [base, exponent])
  | radical {radicand : Formula} (h : Typesettable radicand) : Typesettable (.apply .root [radicand])
  | root {value radicand : Formula} (hdegree : value.decimalValue.any (·.hasValue 2) = true)
    (h : Typesettable radicand) : Typesettable (.apply .root [.degree value, radicand])
  | abs {operand : Formula} (h : Typesettable operand) : Typesettable (.apply .abs [operand])
  | function {op : Operator} (hop : op ∈ Operator.functions) {operand : Formula}
    (h : Typesettable operand) : Typesettable (.apply op [operand])

/-- An application without a degree has one of few shapes. -/
theorem Typesettable.apply {op : Operator} {operands : List Formula} (hop : op ≠ .root)
    (htakes : op.takes operands.length = true) (h : ∀ operand ∈ operands, Typesettable operand) :
    Typesettable (.apply op operands) := by
  match operands, op with
  | [], op => cases op <;> cases htakes
  | [operand], op =>
    have hoperand := h operand List.mem_cons_self
    cases op with
    | minus => exact .negation hoperand
    | abs => exact .abs hoperand
    | sin | cos | tan | ln => exact .function (by decide) hoperand
    | root => exact absurd rfl hop
    | plus | times | divide | power => cases htakes
  | [left, right], op =>
    have hleft := h left List.mem_cons_self
    have hright := h right (List.mem_cons_of_mem _ List.mem_cons_self)
    cases op with
    | plus => exact .sum (.inl rfl) h
    | minus => exact .sum (.inr rfl) h
    | times => exact .product h
    | divide => exact .fraction hleft hright
    | power => exact .power hleft hright
    | root => exact absurd rfl hop
    | abs | sin | cos | tan | ln => cases htakes
  | first :: second :: third :: others, op =>
    cases op with
    | plus => exact .sum (.inl rfl) h
    | minus => exact .sum (.inr rfl) h
    | times => exact .product h
    | root => exact absurd rfl hop
    | divide | power | abs | sin | cos | tan | ln => simp [Operator.takes] at htakes

/-- Whatever passes the check has one of the shapes which can be typeset. -/
theorem typesettable_of_eq_ok {formula : Formula} (h : formula.typesettable = .ok ()) :
    Typesettable formula := by
  induction formula using inductionOn with
  | number text =>
    rw [typesettable] at h
    split at h
    · rename_i hliteral
      exact .number hliteral
    · cases h
  | identifier letter =>
    rw [typesettable] at h
    split at h
    · rename_i hletter
      exact .identifier hletter
    · cases h
  | constant name => exact .constant name
  | degree value =>
    rw [typesettable] at h
    cases h
  | apply op operands ih =>
    -- only a root may have a degree, which is not typeset
    by_cases hroot : op = .root
    · subst hroot
      obtain ⟨radicand, hradicand, rfl | ⟨value, rfl, hdegree⟩⟩ := typesettable_root_iff.mp h
      · exact .radical (ih radicand List.mem_cons_self hradicand)
      · exact .root hdegree (ih radicand (List.mem_cons_of_mem _ List.mem_cons_self) hradicand)
    · obtain ⟨htakes, hall⟩ := (typesettable_apply_iff hroot).mp h
      exact .apply hroot htakes fun operand hoperand =>
        ih operand hoperand (hall operand hoperand)

end FormulaEditor.Formula
