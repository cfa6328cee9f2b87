import FormulaEditor.Line.Grammar

/-!
# Derivations of words

The grammar of words as an inductive definition, without any cutting of sequences: which sequences
are terms, signed terms, products and sums, and which formulas they denote. Reading a sequence of
words finds a formula exactly if the grammar derives it (`Lexeme.sum_eq_ok_iff`).
-/

set_option autoImplicit false

namespace FormulaEditor

namespace Outcome

variable {outcome : Outcome} {value : Formula}

/-- What is made of an outcome is a formula only if the outcome is one. -/
theorem eq_ok_of_map {f : Formula → Formula} (h : outcome.map f = .ok value) :
    ∃ found, outcome = .ok found ∧ f found = value := by
  cases outcome with
  | error e => cases h
  | ok found => exact ⟨found, rfl, Except.ok.inj h⟩

/-- Two steps one after the other lead to a formula only if the first one does. -/
theorem eq_ok_of_bind {next : Formula → Outcome} (h : outcome.bind next = .ok value) :
    ∃ found, outcome = .ok found ∧ next found = .ok value := by
  cases outcome with
  | error e => cases h
  | ok found => exact ⟨found, rfl, h⟩

end Outcome

namespace Lexeme

-- Reading is computed one word at a time throughout.
attribute [local simp] following signed factors productOf summands

/-! ## The grammar -/

/-- An operand with exponents directly after it. -/
def powerWords (base : Formula) (exponents : List Formula) : List Lexeme :=
  .operand (.ok base) :: exponents.map fun exponent => .power (.ok exponent)

/-- An operand raised to its exponents, which group to the left. -/
def powerOf (base : Formula) (exponents : List Formula) : Formula :=
  exponents.foldl (.binary .power) base

/-- A term is the name of a function before a term, or an operand with its exponents, possibly with
a term directly after it by which it is multiplied. -/
inductive Term : List Lexeme → Formula → Prop
  | function {op : Operator} {words : List Lexeme} {value : Formula} (h : Term words value) :
      Term (.function op :: words) (.unary op value)
  | operand (base : Formula) (exponents : List Formula) :
      Term (powerWords base exponents) (powerOf base exponents)
  | juxtaposed (base : Formula) (exponents : List Formula) {words : List Lexeme} {value : Formula}
      (h : Term words value) :
      Term (powerWords base exponents ++ words) (.binary .times (powerOf base exponents) value)

/-- A signed term is a term, or a minus sign before a signed term. -/
inductive Signed : List Lexeme → Formula → Prop
  | term {words : List Lexeme} {value : Formula} (h : Term words value) : Signed words value
  | minus {words : List Lexeme} {value : Formula} (h : Signed words value) :
      Signed (.minus :: words) (.unary .minus value)

/-- A product is a signed term, or a signed term times a product. -/
inductive Product : List Lexeme → Formula → Prop
  | signed {words : List Lexeme} {value : Formula} (h : Signed words value) : Product words value
  | times {left right : List Lexeme} {a b : Formula} (hleft : Signed left a)
      (hright : Product right b) : Product (left ++ .times :: right) (.binary .times a b)

/-- A sum is a product, or a sum plus or minus a product. -/
inductive Sum : List Lexeme → Formula → Prop
  | product {words : List Lexeme} {value : Formula} (h : Product words value) : Sum words value
  | plus {left right : List Lexeme} {a b : Formula} (hleft : Sum left a)
      (hright : Product right b) : Sum (left ++ .plus :: right) (.binary .plus a b)
  | minus {left right : List Lexeme} {a b : Formula} (hleft : Sum left a)
      (hright : Product right b) : Sum (left ++ .minus :: right) (.binary .minus a b)

/-! ## Terms -/

/-- The first exponent of an operand may be counted to the operand. -/
theorem Term.exponent {base exponent value : Formula} {words : List Lexeme}
    (h : Term (.operand (.ok (.binary .power base exponent)) :: words) value) :
    Term (.operand (.ok base) :: .power (.ok exponent) :: words) value := by
  cases h with
  | operand _ exponents => exact .operand base (exponent :: exponents)
  | juxtaposed _ exponents h => exact .juxtaposed base (exponent :: exponents) h

/-- What follows an operand is applied to it one exponent at a time. -/
theorem Following.applyTo_addPower (following : Following) (base exponent : Formula) :
    (following.addPower (.ok exponent)).applyTo (.ok base) =
      following.applyTo (.ok (.binary .power base exponent)) :=
  rfl

/-- Only an operand with a value has a value with what follows it. -/
theorem Following.eq_ok_of_applyTo {following : Following} {operand : Outcome} {value : Formula}
    (h : following.applyTo operand = .ok value) : ∃ base, operand = .ok base := by
  cases operand with
  | error e => cases h
  | ok base => exact ⟨base, rfl⟩

/-- An operand directly before a term is multiplied by it. -/
theorem applyTo_of_asTerm {following : Following} {value : Formula} (base : Formula)
    (h : following.asTerm = .ok value) :
    following.applyTo (.ok base) = .ok (.binary .times base value) := by
  obtain ⟨powers, term⟩ := following
  cases powers with
  | cons power powers => cases term <;> cases h
  | nil =>
    cases term with
    | none => cases h
    | some outcome =>
      cases outcome with
      | error e => cases h
      | ok found =>
        cases h
        rfl

/-- What is read as a term is one, and so is what is read with an operand before it. -/
theorem term_of_following (words : List Lexeme) :
    (∀ value, (following words).asTerm = .ok value → Term words value) ∧
      ∀ base value, (following words).applyTo (.ok base) = .ok value →
        Term (.operand (.ok base) :: words) value := by
  -- both at once: behind an operand reading goes on with the operand, behind a function without
  induction words with
  | nil =>
    refine ⟨nofun, fun base value h => ?_⟩
    cases h
    exact .operand base []
  | cons word words ih =>
    cases word with
    | operand outcome =>
      have hterm : ∀ value, (following words).applyTo outcome = .ok value →
          Term (.operand outcome :: words) value := by
        intro value h
        obtain ⟨base, rfl⟩ := Following.eq_ok_of_applyTo h
        exact ih.2 base value h
      refine ⟨hterm, fun base value h => ?_⟩
      obtain ⟨found, hfound, rfl⟩ := Outcome.eq_ok_of_map h
      exact .juxtaposed base [] (hterm found hfound)
    | power outcome =>
      refine ⟨nofun, fun base value h => ?_⟩
      cases outcome with
      | error e => cases h
      | ok exponent =>
        -- the exponent is counted to the operand before what comes next is looked at
        rw [following, Following.applyTo_addPower] at h
        exact (ih.2 _ value h).exponent
    | function op =>
      have hterm : ∀ value, (following words).asTerm.map (Formula.unary op) = .ok value →
          Term (.function op :: words) value := by
        intro value h
        obtain ⟨found, hfound, rfl⟩ := Outcome.eq_ok_of_map h
        exact .function (ih.1 found hfound)
      refine ⟨hterm, fun base value h => ?_⟩
      obtain ⟨found, hfound, rfl⟩ := Outcome.eq_ok_of_map h
      exact .juxtaposed base [] (hterm found hfound)
    | plus => exact ⟨nofun, nofun⟩
    | minus => exact ⟨nofun, nofun⟩
    | times => exact ⟨nofun, nofun⟩
    | stray c => exact ⟨nofun, nofun⟩

/-- What follows an operand is its exponents and then whatever comes after them. -/
theorem applyTo_following_powers (base : Formula) (exponents : List Formula) (words : List Lexeme) :
    (following (exponents.map (fun exponent => .power (.ok exponent)) ++ words)).applyTo
        (.ok base) = (following words).applyTo (.ok (powerOf base exponents)) := by
  induction exponents generalizing base with
  | nil => rfl
  | cons exponent exponents ih => exact ih (.binary .power base exponent)

/-- Reading a term finds a formula exactly if the grammar derives it. -/
theorem term_eq_ok_iff {words : List Lexeme} {value : Formula} :
    term words = .ok value ↔ Term words value := by
  refine ⟨(term_of_following words).1 value, fun h => ?_⟩
  induction h with
  | @function op words value _ ih =>
    show (following words).asTerm.map (Formula.unary op) = _
    rw [show (following words).asTerm = .ok value from ih]
    rfl
  | operand base exponents =>
    show (following (exponents.map fun exponent => .power (.ok exponent))).applyTo (.ok base) = _
    have happly := applyTo_following_powers base exponents []
    rw [List.append_nil] at happly
    rw [happly]
    rfl
  | @juxtaposed base exponents words value _ ih =>
    show (following (exponents.map (fun exponent => .power (.ok exponent)) ++ words)).applyTo
      (.ok base) = _
    rw [applyTo_following_powers]
    exact applyTo_of_asTerm _ ih

/-- Reading words as a signed term finds a formula exactly if they are a signed term which denotes
it. -/
theorem signed_eq_ok_iff {words : List Lexeme} {value : Formula} :
    signed words = .ok value ↔ Signed words value := by
  constructor
  · intro h
    induction words generalizing value with
    | nil => exact .term (term_eq_ok_iff.mp h)
    | cons word words ih =>
      cases word with
      | minus =>
        obtain ⟨found, hfound, rfl⟩ := Outcome.eq_ok_of_map h
        exact .minus (ih hfound)
      | _ => exact .term (term_eq_ok_iff.mp h)
  · intro h
    induction h with
    | minus _ ih =>
      rw [signed, ih]
      rfl
    | @term words value h =>
      have hread := term_eq_ok_iff.mpr h
      cases h <;> exact hread

/-! ## Products -/

/-- Whether a word is a sign or an operator. -/
def isOperator : Lexeme → Bool
  | plus | minus | times => true
  | operand _ | power _ | function _ | stray _ => false

/-- No word of a term is a sign or an operator. -/
theorem Term.not_isOperator {words : List Lexeme} {value : Formula} (h : Term words value) :
    ∀ word ∈ words, word.isOperator = false := by
  have hpower : ∀ (base : Formula) (exponents : List Formula), ∀ word ∈ powerWords base exponents,
      word.isOperator = false := by
    intro base exponents word hword
    rw [powerWords, List.mem_cons, List.mem_map] at hword
    obtain rfl | ⟨exponent, -, rfl⟩ := hword <;> rfl
  induction h with
  | function _ ih =>
    intro word hword
    rw [List.mem_cons] at hword
    obtain rfl | hword := hword
    · rfl
    · exact ih word hword
  | operand base exponents => exact hpower base exponents
  | juxtaposed base exponents _ ih =>
    intro word hword
    rw [List.mem_append] at hword
    obtain hword | hword := hword
    · exact hpower base exponents word hword
    · exact ih word hword

/-- A signed term has no sign of a product in it. -/
theorem Signed.times_notMem {words : List Lexeme} {value : Formula} (h : Signed words value) :
    .times ∉ words := by
  induction h with
  | term h =>
    intro hmem
    cases h.not_isOperator _ hmem
  | minus _ ih =>
    intro hmem
    cases hmem with
    | tail _ hmem => exact ih hmem

/-- A product is cut behind the words before its first operator. -/
theorem factors_append_times {left : List Lexeme} (h : .times ∉ left) (right : List Lexeme) :
    factors (left ++ .times :: right) = (left, (factors right).1 :: (factors right).2) := by
  induction left with
  | nil => rfl
  | cons word left ih =>
    have hnext := ih fun hmem => h (List.mem_cons_of_mem _ hmem)
    cases word with
    | times => exact absurd List.mem_cons_self h
    | _ =>
      rw [List.cons_append, factors, hnext]
      · rfl
      · nofun

/-- Words without a multiplication sign are a single factor. -/
theorem factors_of_notMem {words : List Lexeme} (h : .times ∉ words) :
    factors words = (words, []) := by
  induction words with
  | nil => rfl
  | cons word words ih =>
    have hnext := ih fun hmem => h (List.mem_cons_of_mem _ hmem)
    cases word with
    | times => exact absurd List.mem_cons_self h
    | _ =>
      rw [factors, hnext]
      · rfl
      · nofun

/-- The factors of a product with the operators before them are the whole product. -/
theorem factors_join (words : List Lexeme) :
    (factors words).1 ++ (factors words).2.flatMap (fun factor => .times :: factor) = words := by
  induction words with
  | nil => rfl
  | cons word words ih =>
    cases word with
    | times => exact congrArg (Lexeme.times :: ·) ih
    | _ => exact congrArg (_ :: ·) ih

/-- A sequence of signed terms with operators between them is a product. -/
theorem product_of_productOf {first : List Lexeme} {others : List (List Lexeme)} {value : Formula}
    (h : productOf first others = .ok value) :
    Product (first ++ others.flatMap fun factor => .times :: factor) value := by
  induction others generalizing first value with
  | nil =>
    rw [List.flatMap_nil, List.append_nil]
    exact .signed (signed_eq_ok_iff.mp h)
  | cons second others ih =>
    obtain ⟨left, hleft, hothers⟩ := Outcome.eq_ok_of_bind h
    obtain ⟨right, hright, rfl⟩ := Outcome.eq_ok_of_map hothers
    exact .times (signed_eq_ok_iff.mp hleft) (ih hright)

/-- Reading words as a product finds a formula exactly if they are a product which denotes it. -/
theorem product_eq_ok_iff {words : List Lexeme} {value : Formula} :
    product words = .ok value ↔ Product words value := by
  constructor
  · intro h
    rw [← factors_join words]
    exact product_of_productOf h
  · intro h
    induction h with
    | signed h =>
      rw [product, factors_of_notMem h.times_notMem]
      exact signed_eq_ok_iff.mpr h
    | times hleft _ ih =>
      rw [product, factors_append_times hleft.times_notMem]
      show productOf _ (_ :: _) = _
      rw [productOf, signed_eq_ok_iff.mpr hleft]
      show (do return Formula.binary .times _ (← product _)) = _
      rw [ih]
      rfl

/-! ## Sums -/

/-- Whether the next sign belongs to its operand, after some words. -/
def unaryAfter (unary : Bool) (words : List Lexeme) : Bool :=
  words.foldl (fun _ word => word.isOperator) unary

/-- Whether a word is no sign which adds or subtracts, if `unary` tells what signs do. -/
def belongs (unary : Bool) : Lexeme → Bool
  | plus | minus => unary
  | times | operand _ | power _ | function _ | stray _ => true

/-- A sum is not cut exactly if none of its signs adds or subtracts. -/
theorem summands_cons_eq_iff {unary : Bool} {word : Lexeme} {words : List Lexeme} :
    summands unary (word :: words) = (word :: words, []) ↔
      word.belongs unary = true ∧ summands word.isOperator words = (words, []) := by
  cases word <;> cases unary <;> simp [extend, belongs, isOperator, Prod.ext_iff]

/-- Words which are no signs are not cut. -/
theorem summands_of_not_isOperator {words : List Lexeme} (unary : Bool)
    (h : ∀ word ∈ words, word.isOperator = false) : summands unary words = (words, []) := by
  induction words generalizing unary with
  | nil => rfl
  | cons word words ih =>
    have hword := h word List.mem_cons_self
    rw [summands_cons_eq_iff]
    refine ⟨?_, ih _ fun other hother => h other (List.mem_cons_of_mem _ hother)⟩
    cases word with
    | plus | minus | times => cases hword
    | _ => rfl

/-- A product of two sequences which are not cut is not cut. -/
theorem summands_append_times {left right : List Lexeme} {unary : Bool}
    (hleft : summands unary left = (left, [])) (hright : summands true right = (right, [])) :
    summands unary (left ++ .times :: right) = (left ++ .times :: right, []) := by
  induction left generalizing unary with
  | nil => exact summands_cons_eq_iff.mpr ⟨rfl, hright⟩
  | cons word left ih =>
    rw [summands_cons_eq_iff] at hleft
    exact summands_cons_eq_iff.mpr ⟨hleft.1, ih hleft.2⟩

/-- A signed term is not cut at any of its signs. -/
theorem Signed.summands_eq {words : List Lexeme} {value : Formula} (h : Signed words value) :
    summands true words = (words, []) := by
  induction h with
  | term h => exact summands_of_not_isOperator true h.not_isOperator
  | minus _ ih => exact summands_cons_eq_iff.mpr ⟨rfl, ih⟩

/-- No sign in a product adds or subtracts, so it is a single summand. -/
theorem Product.summands_eq {words : List Lexeme} {value : Formula} (h : Product words value) :
    summands true words = (words, []) := by
  induction h with
  | signed h => exact h.summands_eq
  | times hleft _ ih => exact summands_append_times hleft.summands_eq ih

/-- No sign directly after a term belongs to its operand. -/
theorem Term.unaryAfter {words : List Lexeme} {value : Formula} (h : Term words value)
    (unary : Bool) : unaryAfter unary words = false := by
  have hfalse : ∀ words : List Lexeme, (∀ word ∈ words, word.isOperator = false) →
      Lexeme.unaryAfter false words = false := by
    intro words hwords
    induction words with
    | nil => rfl
    | cons word words ih =>
      rw [Lexeme.unaryAfter, List.foldl_cons, hwords word List.mem_cons_self]
      exact ih fun other hother => hwords other (List.mem_cons_of_mem _ hother)
  have hwords := h.not_isOperator
  cases words with
  | nil => cases h
  | cons word words =>
    rw [Lexeme.unaryAfter, List.foldl_cons, hwords word List.mem_cons_self]
    exact hfalse words fun other hother => hwords other (List.mem_cons_of_mem _ hother)

/-- Whether a sign belongs to its operand after a sequence is decided by its last part. -/
theorem unaryAfter_append (unary : Bool) (left right : List Lexeme) :
    unaryAfter unary (left ++ right) = unaryAfter (unaryAfter unary left) right :=
  List.foldl_append

/-- A sign directly after a signed term adds or subtracts. -/
theorem Signed.unaryAfter {words : List Lexeme} {value : Formula} (h : Signed words value)
    (unary : Bool) : unaryAfter unary words = false := by
  induction h generalizing unary with
  | term h => exact h.unaryAfter unary
  | minus _ ih => exact ih true

/-- Behind a product the next sign adds or subtracts. -/
theorem Product.unaryAfter {words : List Lexeme} {value : Formula} (h : Product words value)
    (unary : Bool) : unaryAfter unary words = false := by
  induction h generalizing unary with
  | signed h => exact h.unaryAfter unary
  | times _ _ ih =>
    rw [unaryAfter_append]
    exact ih true

/-- Behind a sum the next sign adds or subtracts. -/
theorem Sum.unaryAfter {words : List Lexeme} {value : Formula} (h : Sum words value)
    (unary : Bool) : unaryAfter unary words = false := by
  cases h with
  | product h => exact h.unaryAfter unary
  | plus _ h | minus _ h =>
    rw [unaryAfter_append]
    exact h.unaryAfter true

/-- The word of a sign which adds or subtracts. -/
def ofSign : Operator → Lexeme
  | .minus => minus
  | _ => plus

/-- A sum ends with a further summand behind a sign which adds or subtracts. -/
theorem summands_append_sign {left right : List Lexeme} {unary : Bool} {sign : Operator}
    (hsign : sign = .plus ∨ sign = .minus) (hleft : unaryAfter unary left = false)
    (hright : summands true right = (right, [])) :
    summands unary (left ++ ofSign sign :: right) =
      ((summands unary left).1, (summands unary left).2 ++ [(sign, right)]) := by
  induction left generalizing unary with
  | nil =>
    cases hleft
    obtain rfl | rfl := hsign
    · simp [ofSign, hright]
    · simp [ofSign, hright]
  | cons word left ih =>
    have hnext := @ih word.isOperator hleft
    -- whatever the word is, what comes after it only sees whether it is an operator
    cases word with
    | plus | minus =>
      have hnext : summands true (left ++ ofSign sign :: right) = _ := hnext
      rw [List.cons_append, summands, hnext]
      cases unary <;> rfl
    | times => exact congrArg (extend .times) hnext
    | _ => exact congrArg (extend _) hnext

/-- The summands of a sum with the signs before them are the whole sum. -/
theorem summands_join (unary : Bool) (words : List Lexeme) :
    (∀ summand ∈ (summands unary words).2, summand.1 = .plus ∨ summand.1 = .minus) ∧
      (summands unary words).1 ++
        (summands unary words).2.flatMap (fun summand => ofSign summand.1 :: summand.2) =
          words := by
  induction words generalizing unary with
  | nil => exact ⟨nofun, rfl⟩
  | cons word words ih =>
    cases word with
    | plus | minus =>
      obtain ⟨hsigns, hjoin⟩ := ih true
      cases unary with
      | true => exact ⟨hsigns, congrArg (_ :: ·) hjoin⟩
      | false =>
        refine ⟨?_, congrArg (_ :: ·) hjoin⟩
        intro summand hmem
        obtain rfl | hmem := List.mem_cons.mp hmem
        · first | exact .inl rfl | exact .inr rfl
        · exact hsigns summand hmem
    | times => exact ⟨(ih true).1, congrArg (_ :: ·) (ih true).2⟩
    | _ => exact ⟨(ih false).1, congrArg (_ :: ·) (ih false).2⟩

/-- The first summand is added to or subtracted from what is before it. -/
theorem sumOf_cons (left : Formula) (sign : Operator) (words : List Lexeme)
    (others : List (Operator × List Lexeme)) :
    sumOf (.ok left) ((sign, words) :: others) =
      (product words).bind fun right => sumOf (.ok (.binary sign left right)) others := by
  show ((do return Formula.binary sign left (← product words)) >>= _) = _
  cases product words <;> rfl

/-- A product with further products behind signs is a sum. -/
theorem sum_of_sumOf {first : List Lexeme} {left value : Formula}
    {others : List (Operator × List Lexeme)} (hleft : Sum first left)
    (hsigns : ∀ summand ∈ others, summand.1 = .plus ∨ summand.1 = .minus)
    (h : sumOf (.ok left) others = .ok value) :
    Sum (first ++ others.flatMap fun summand => ofSign summand.1 :: summand.2) value := by
  induction others generalizing first left with
  | nil =>
    cases h
    rw [List.flatMap_nil, List.append_nil]
    exact hleft
  | cons summand others ih =>
    obtain ⟨sign, words⟩ := summand
    rw [sumOf_cons] at h
    obtain ⟨right, hright, h⟩ := Outcome.eq_ok_of_bind h
    rw [List.flatMap_cons, ← List.append_assoc]
    refine ih ?_ (fun other hother => hsigns other (List.mem_cons_of_mem _ hother)) h
    have hproduct := product_eq_ok_iff.mp hright
    obtain rfl | rfl := hsigns _ List.mem_cons_self
    · exact .plus hleft hproduct
    · exact .minus hleft hproduct

/-- One more summand is added to or subtracted from all before it. -/
theorem sumOf_append {left : Formula} {others : List (Operator × List Lexeme)} {first : Outcome}
    {sign : Operator} {words : List Lexeme} {right : Formula}
    (hleft : sumOf first others = .ok left) (hright : product words = .ok right) :
    sumOf first (others ++ [(sign, words)]) = .ok (.binary sign left right) := by
  cases first with
  | error e => cases hleft
  | ok value =>
    induction others generalizing value with
    | nil =>
      cases hleft
      rw [List.nil_append, sumOf_cons, hright]
      rfl
    | cons summand others ih =>
      obtain ⟨next, between⟩ := summand
      rw [sumOf_cons] at hleft
      rw [List.cons_append, sumOf_cons]
      obtain ⟨found, hbetween, hleft⟩ := Outcome.eq_ok_of_bind hleft
      rw [hbetween]
      exact ih _ hleft

/-- Reading a sum finds a formula exactly if the grammar derives it. -/
theorem sum_eq_ok_iff {words : List Lexeme} {value : Formula} :
    sum words = .ok value ↔ Sum words value := by
  have hsum : ∀ words : List Lexeme,
      sum words = sumOf (product (summands true words).1) (summands true words).2 := fun _ => rfl
  constructor
  · intro h
    obtain ⟨hsigns, hjoin⟩ := summands_join true words
    obtain ⟨first, hfirst, hothers⟩ := Outcome.eq_ok_of_bind h
    rw [← hjoin]
    exact sum_of_sumOf (.product (product_eq_ok_iff.mp hfirst)) hsigns hothers
  · intro h
    induction h with
    | product h =>
      rw [hsum, h.summands_eq, product_eq_ok_iff.mpr h]
      rfl
    | plus hleft hright ih =>
      -- the derivation ends with its last sign, while reading begins with the first summand
      have hcut := summands_append_sign (.inl rfl) (hleft.unaryAfter true) hright.summands_eq
      rw [hsum, show Lexeme.plus = ofSign .plus from rfl, hcut]
      rw [hsum] at ih
      exact sumOf_append ih (product_eq_ok_iff.mpr hright)
    | minus hleft hright ih =>
      have hcut := summands_append_sign (.inr rfl) (hleft.unaryAfter true) hright.summands_eq
      rw [hsum, show Lexeme.minus = ofSign .minus from rfl, hcut]
      rw [hsum] at ih
      exact sumOf_append ih (product_eq_ok_iff.mpr hright)

/-! ## The words of a derivation -/

/-- Whether a word has everything which it stands for: a value if it is an operand or an exponent,
and a part in the grammar. -/
def Valued : Lexeme → Prop
  | operand value | power value => ∃ formula, value = .ok formula
  | stray _ => False
  | function _ | plus | minus | times => True

/-- Only words which have everything they stand for make a term. -/
theorem Term.valued {words : List Lexeme} {value : Formula} (h : Term words value) :
    ∀ word ∈ words, word.Valued := by
  have hpower : ∀ (base : Formula) (exponents : List Formula),
      ∀ word ∈ powerWords base exponents, word.Valued := by
    intro base exponents word hword
    rw [powerWords, List.mem_cons, List.mem_map] at hword
    obtain rfl | ⟨exponent, -, rfl⟩ := hword
    · exact ⟨base, rfl⟩
    · exact ⟨exponent, rfl⟩
  induction h with
  | function _ ih => exact List.forall_mem_cons.mpr ⟨trivial, ih⟩
  | operand base exponents => exact hpower base exponents
  | juxtaposed base exponents _ ih => exact List.forall_mem_append.mpr ⟨hpower base exponents, ih⟩

/-- The words of a signed term have everything which they stand for. -/
theorem Signed.valued {words : List Lexeme} {value : Formula} (h : Signed words value) :
    ∀ word ∈ words, word.Valued := by
  induction h with
  | term h => exact h.valued
  | minus _ ih => exact List.forall_mem_cons.mpr ⟨trivial, ih⟩

/-- The words of a product have everything which they stand for. -/
theorem Product.valued {words : List Lexeme} {value : Formula} (h : Product words value) :
    ∀ word ∈ words, word.Valued := by
  induction h with
  | signed h => exact h.valued
  | times hleft _ ih =>
    exact List.forall_mem_append.mpr ⟨hleft.valued, List.forall_mem_cons.mpr ⟨trivial, ih⟩⟩

/-- The words of a sum have everything which they stand for. -/
theorem Sum.valued {words : List Lexeme} {value : Formula} (h : Sum words value) :
    ∀ word ∈ words, word.Valued := by
  induction h with
  | product h => exact h.valued
  | plus _ hright ih | minus _ hright ih =>
    exact List.forall_mem_append.mpr ⟨ih, List.forall_mem_cons.mpr ⟨trivial, hright.valued⟩⟩

/-- A sum has at least one word. -/
theorem Sum.ne_nil {words : List Lexeme} {value : Formula} (h : Sum words value) : words ≠ [] := by
  rintro rfl
  cases h.unaryAfter true

end Lexeme

end FormulaEditor
