import FormulaEditor.Proofs.Tree.Guarded

/-!
# Typesetting two operands at a time

A sum, difference or product of many operands can also be put into a tree two operands at a time:
the last operand after the sum of the others, or the first before the product of the others
(`Formula.foldBinary`). Operands are taken by their positions, which exist since an operator with
too few operands is refused before anything is made. So a formula is put in as without positions
(`Tree.WellFormed.follows_guardedTypeset`).
-/

set_option autoImplicit false

namespace FormulaEditor

/-! ## Two operands at a time -/

namespace Formula

/-- The operands on one side, or the only one there. -/
def gather (op : Operator) (operands : List Formula) : Checked Formula :=
  if operands.length = 1 then Checked.item operands 0 else return .apply op operands

/-- The two sides of an operator with any number of operands. Products group to the right, and sums
and differences to the left. -/
def foldBinary (op : Operator) (operands : List Formula) : Checked (Formula × Formula) :=
  if op = .times then do
    let first ← Checked.item operands 0
    let rest ← Checked.slice operands 1 operands.length
    return (first, ← gather op rest)
  else do
    let count ← Checked.before operands.length
    let front ← Checked.slice operands 0 count
    let last ← Checked.item operands count
    return (← gather op front, last)

variable {op : Operator} {left right : Formula} {operands : List Formula}

/-- Several operands, or none, are gathered under their operator. -/
theorem gather_more (op : Operator) (h : operands.length ≠ 1) :
    gather op operands = .ok (.apply op operands) := by
  rw [gather, if_neg h]
  rfl

/-- A product is folded into its first factor and the product of the others. -/
theorem foldBinary_times (first : Formula) (rest : List Formula) :
    foldBinary .times (first :: rest) = (gather .times rest).map (first, ·) := by
  have hslice : Checked.slice (first :: rest) 1 (first :: rest).length = .ok rest := by
    rw [Checked.slice_of_le (by simp) (Nat.le_refl _), List.length_cons, Nat.add_sub_cancel,
      List.drop_succ_cons, List.drop_zero, List.take_length]
  rw [foldBinary, if_pos rfl, hslice]
  show (gather .times rest >>= _) = _
  cases gather .times rest <;> rfl

/-- A sum or a difference is folded into that of all operands but the last one, and this one. -/
theorem foldBinary_sum (hop : op ≠ .times) (front : List Formula) (last : Formula) :
    foldBinary op (front ++ [last]) = (gather op front).map (·, last) := by
  have hslice : Checked.slice (front ++ [last]) 0 front.length = .ok front := by
    rw [Checked.slice_of_le (Nat.zero_le _) (by simp), List.drop_zero, Nat.sub_zero,
      List.take_left]
  have hitem : Checked.item (front ++ [last]) front.length = .ok last :=
    Checked.item_of_getElem? (by simp)
  rw [foldBinary, if_neg hop, List.length_append]
  show (Checked.slice (front ++ [last]) 0 front.length >>= _) = _
  rw [hslice]
  show (Checked.item (front ++ [last]) front.length >>= _) = _
  rw [hitem]
  show (gather op front >>= _) = _
  cases gather op front <;> rfl

/-- What is gathered from operands is not larger than the formula with all of them. -/
theorem sizeOf_gather (h : gather op operands = .ok left) :
    sizeOf left ≤ sizeOf (Formula.apply op operands) := by
  unfold gather at h
  by_cases hlength : operands.length = 1
  · obtain ⟨operand, rfl⟩ := List.length_eq_one_iff.mp hlength
    cases h
    simp +arith
  · rw [if_neg hlength] at h
    cases h
    exact Nat.le_refl _

/-- One more operand makes a list of operands larger by its own size. -/
theorem sizeOf_append_last (front : List Formula) (last : Formula) :
    sizeOf (front ++ [last]) = sizeOf front + sizeOf last + 1 := by
  induction front with
  | nil => simp +arith
  | cons first front ih => simp +arith [ih]

/-- Both sides are smaller than the whole. -/
theorem sizeOf_foldBinary (h : foldBinary op operands = .ok (left, right)) :
    sizeOf left < sizeOf (Formula.apply op operands) ∧
      sizeOf right < sizeOf (Formula.apply op operands) := by
  by_cases hop : op = .times
  · subst hop
    cases operands with
    | nil => cases h
    | cons first rest =>
      rw [foldBinary_times] at h
      cases hgather : gather .times rest with
      | error halt =>
        rw [hgather] at h
        cases h
      | ok value =>
        rw [hgather] at h
        cases h
        have hright := sizeOf_gather hgather
        simp only [apply.sizeOf_spec, List.cons.sizeOf_spec] at hright ⊢
        omega
  · obtain rfl | ⟨front, last, rfl⟩ := List.eq_nil_or_concat operands
    · rw [foldBinary, if_neg hop] at h
      cases h
    · rw [List.concat_eq_append, foldBinary_sum hop] at h
      cases hgather : gather op front with
      | error halt =>
        rw [hgather] at h
        cases h
      | ok value =>
        rw [hgather] at h
        cases h
        have hleft := sizeOf_gather hgather
        rw [List.concat_eq_append]
        simp only [apply.sizeOf_spec, sizeOf_append_last] at hleft ⊢
        omega

/-- The last operand of a formula is smaller than the formula. -/
theorem sizeOf_getLast? (h : operands.getLast? = some right) :
    sizeOf right < sizeOf (Formula.apply op operands) := by
  have hlt := List.sizeOf_lt_of_mem (List.mem_of_getLast? h)
  rw [apply.sizeOf_spec]
  omega

end Formula

namespace Tree

open Guarded (Follows)

/-! ## Emitting -/

/-- Creates plain characters one after another, and answers the last one. -/
def guardedAtoms (anchor : NodeId) : List Char → Guarded Tree NodeId
  | [] => return anchor
  | c :: cs => do guardedAtoms (← guardedAdd anchor (.atom c)) cs

/-- Creates something, between round brackets where they are needed. -/
def guardedBracketedIf (needed : Bool) (content : NodeId → Guarded Tree NodeId)
    (anchor : NodeId) : Guarded Tree NodeId := do
  if needed then
    guardedAdd (← content (← guardedAdd anchor (.bracket .opening))) (.bracket .closing)
  else content anchor

/-- Creates something in a slot of a symbol. -/
def guardedInside (content : NodeId → Guarded Tree NodeId) (id : NodeId) (index : Nat) :
    Guarded Tree NodeId := do
  content (← Guarded.look fun tree => Checked.answer (tree.slotStart id index))

/-- Creates the symbols of a formula after a symbol, and answers the last of them. -/
def guardedEmit : Formula → NodeId → Guarded Tree NodeId
  | .number text, anchor => guardedAtoms anchor text.toList
  | .identifier letter, anchor => guardedAdd anchor (.atom letter)
  | .constant name, anchor => guardedAdd anchor (.atom name.letter)
  | .degree _, _ => throw (.refused (.invalidValue .strayDegree))
  | .apply .minus [operand], anchor => do
    guardedBracketedIf (operand.isSum || operand.isProduct) (guardedEmit operand)
      (← guardedAdd anchor (.atom '-'))
  | .apply .plus operands, anchor => match _ : Formula.foldBinary .plus operands with
    | .error halt => throw halt
    | .ok (left, right) => do
      let last ← guardedEmit left anchor
      guardedBracketedIf right.isSum (guardedEmit right) (← guardedAdd last (.atom '+'))
  | .apply .minus operands, anchor => match _ : Formula.foldBinary .minus operands with
    | .error halt => throw halt
    | .ok (left, right) => do
      let last ← guardedEmit left anchor
      guardedBracketedIf right.isSum (guardedEmit right) (← guardedAdd last (.atom '-'))
  | .apply .times operands, anchor => match _ : Formula.foldBinary .times operands with
    | .error halt => throw halt
    | .ok (left, right) => do
      let last ← guardedBracketedIf (left.isSum || left.isProduct) (guardedEmit left) anchor
      guardedBracketedIf right.isSum (guardedEmit right) (← guardedAdd last (.atom '*'))
  | .apply .divide [numerator, denominator], anchor => do
    let id ← guardedAdd anchor .fraction
    let _ ← guardedInside (guardedEmit numerator) id 0
    let _ ← guardedInside (guardedEmit denominator) id 1
    return id
  | .apply .power [base, exponent], anchor => do
    let last ← guardedBracketedIf (!base.bindsPower) (guardedEmit base) anchor
    let id ← guardedAdd last .superscript
    let _ ← guardedInside (guardedEmit exponent) id 0
    return id
  | .apply .root operands, anchor => match _ : operands.getLast? with
    | none => throw (.refused (.invalidValue (.wrongOperands .root)))
    | some radicand => do
      let id ← guardedAdd anchor .radical
      let _ ← guardedInside (guardedEmit radicand) id 0
      return id
  | .apply .abs [operand], anchor => do
    guardedAdd (← guardedEmit operand (← guardedAdd anchor .bar)) .bar
  | .apply op [operand], anchor => do
    if op.isFunction then
      guardedBracketedIf true (guardedEmit operand) (← guardedAtoms anchor op.tag.toList)
    else throw (.refused (.invalidValue (.wrongOperands op)))
  | .apply op _, _ => throw (.refused (.invalidValue (.wrongOperands op)))
termination_by formula => sizeOf formula
decreasing_by
  all_goals first
    | exact (Formula.sizeOf_foldBinary ‹_›).1
    | exact (Formula.sizeOf_foldBinary ‹_›).2
    | exact Formula.sizeOf_getLast? ‹_›
    | decreasing_tactic

/-- Puts a formula into the tree after a symbol, and answers the last symbol of its line. -/
def guardedTypeset (anchor : NodeId) (formula : Formula) : Guarded Tree NodeId := do
  Guarded.check (Checked.answer (formula.typesettable.mapError .invalidValue))
  let _ ← Guarded.look fun tree => Checked.answer (tree.position anchor)
  guardedEmit formula anchor

/-! ## What is typeset -/

/-- In a well-formed tree what is created after any symbol is a line. -/
def Typesets (content : NodeId → Guarded Tree NodeId) (line : Line) : Prop :=
  ∀ anchor (tree : Tree), tree.WellFormed → Follows (content anchor) (placeLine anchor line) tree

variable {content more : NodeId → Guarded Tree NodeId} {line rest : Line} {tree : Tree}

/-- Doing nothing typesets nothing. -/
theorem typesets_pure : Typesets pure [] := by
  intro anchor tree _
  rw [placeLine]
  exact .pure _ _

/-- What is created next goes behind. -/
theorem Typesets.append (h : Typesets content line) (hmore : Typesets more rest) :
    Typesets (fun anchor => content anchor >>= more) (line ++ rest) := by
  intro anchor tree htree
  rw [placeLine_append]
  exact (h anchor tree htree).bind fun last grown hrun =>
    hmore last grown ((invariant_wellFormed.keeps_placeLine anchor line).of_run htree hrun)

/-- What follows the placing of a glyph typesets the glyph. -/
theorem typesets_glyph {glyph : Glyph} (h : ∀ anchor (tree : Tree), tree.WellFormed →
    Follows (content anchor) (placeGlyph anchor glyph) tree) : Typesets content [glyph] := by
  intro anchor tree htree
  simp only [placeLine, bind_pure]
  exact h anchor tree htree

/-- Adding a character typesets it. -/
theorem typesets_atom (c : Char) : Typesets (guardedAdd · (.atom c)) [.atom c] :=
  typesets_glyph fun anchor tree htree => by
    rw [placeGlyph]
    exact htree.follows_guardedAdd anchor (.atom c)

/-- Adding a bracket typesets it. -/
theorem typesets_bracket (side : Side) : Typesets (guardedAdd · (.bracket side)) [.bracket side] :=
  typesets_glyph fun anchor tree htree => by
    rw [placeGlyph]
    exact htree.follows_guardedAdd anchor (.bracket side)

/-- Adding a bar typesets it. -/
theorem typesets_bar : Typesets (guardedAdd · .bar) [.bar] :=
  typesets_glyph fun anchor tree htree => by
    rw [placeGlyph]
    exact htree.follows_guardedAdd anchor .bar

/-- Adding the characters of a text typesets them. -/
theorem typesets_atoms (text : List Char) : Typesets (guardedAtoms · text) (text.map .atom) := by
  induction text with
  | nil => exact typesets_pure
  | cons c cs ih => exact (typesets_atom c).append ih

/-- A content between brackets is typeset if the content is. -/
theorem Typesets.bracketed (h : Typesets content line) :
    Typesets (guardedBracketedIf true content) (Formula.bracketed line) :=
  (typesets_bracket .opening).append (h.append (typesets_bracket .closing))

/-- A content which may need brackets is typeset with them where it does, if the content is. -/
theorem Typesets.bracketedIf (h : Typesets content line) (needed : Bool) :
    Typesets (guardedBracketedIf needed content) (Formula.bracketedIf needed line) := by
  cases needed with
  | false => exact h
  | true => exact h.bracketed

/-- What is created in a slot is the line of the slot. -/
theorem Typesets.inside (h : Typesets content line) (htree : tree.WellFormed) (id : NodeId)
    (index : Nat) {next : Guarded Tree NodeId} {plainNext : Edit Tree NodeId}
    (hnext : ∀ grown : Tree, grown.WellFormed → Follows next plainNext grown) :
    Follows (guardedInside content id index >>= fun _ => next)
      (Edit.look (·.slotStart id index) >>= fun start => placeLine start line >>= fun _ =>
        plainNext) tree := by
  rw [guardedInside, bind_assoc]
  refine Follows.ask fun start _ => (h start tree htree).bind fun _ grown hrun => ?_
  exact hnext grown ((invariant_wellFormed.keeps_placeLine start line).of_run htree hrun)

/-- What comes after adding a symbol has to be followed in well-formed trees only. -/
theorem follows_add_bind (htree : tree.WellFormed) (anchor : NodeId) (stroke : Stroke)
    {next : NodeId → Guarded Tree NodeId} {plainNext : NodeId → Edit Tree NodeId}
    (hnext : ∀ id (grown : Tree), grown.WellFormed → Follows (next id) (plainNext id) grown) :
    Follows (guardedAdd anchor stroke >>= next) (add anchor stroke >>= plainNext) tree :=
  (htree.follows_guardedAdd anchor stroke).bind fun id grown hrun =>
    hnext id grown ((invariant_wellFormed.keeps_add anchor stroke).of_run htree hrun)

/-- A superscript is typeset if its exponent is. -/
theorem Typesets.superscript (h : Typesets content line) :
    Typesets (fun anchor => do
      let id ← guardedAdd anchor .superscript
      let _ ← guardedInside content id 0
      return id) [.superscript line] :=
  typesets_glyph fun anchor tree htree => by
    rw [placeGlyph]
    exact follows_add_bind htree anchor .superscript fun id grown hgrown =>
      h.inside hgrown id 0 fun _ _ => .pure _ _

/-- A root is typeset if its radicand is. -/
theorem Typesets.radical (h : Typesets content line) :
    Typesets (fun anchor => do
      let id ← guardedAdd anchor .radical
      let _ ← guardedInside content id 0
      return id) [.radical line] :=
  typesets_glyph fun anchor tree htree => by
    rw [placeGlyph]
    exact follows_add_bind htree anchor .radical fun id grown hgrown =>
      h.inside hgrown id 0 fun _ _ => .pure _ _

/-- A fraction is typeset if what is above and below its bar is. -/
theorem Typesets.fraction {above below : NodeId → Guarded Tree NodeId} {top bottom : Line}
    (habove : Typesets above top) (hbelow : Typesets below bottom) :
    Typesets (fun anchor => do
      let id ← guardedAdd anchor .fraction
      let _ ← guardedInside above id 0
      let _ ← guardedInside below id 1
      return id) [.fraction top bottom] :=
  typesets_glyph fun anchor tree htree => by
    rw [placeGlyph]
    exact follows_add_bind htree anchor .fraction fun id grown hgrown =>
      habove.inside hgrown id 0 fun _ hgrown => hbelow.inside hgrown id 1 fun _ _ => .pure _ _

/-! ## Formulas -/

/-- The sign between the operands of a sum or a difference. -/
def signOf (op : Operator) : Char :=
  if op = .plus then '+' else '-'

/-- A sum or a difference is created as its last operand behind what is left of it. -/
theorem typesets_fold_sum {op : Operator} (hop : op = .plus ∨ op = .minus) {operands : List Formula}
    (hmore : operands.length ≠ 1) {left right : Formula}
    (hfold : Formula.foldBinary op operands = .ok (left, right))
    (hleft : Typesets (guardedEmit left) line)
    (hright : Typesets (guardedEmit right) right.typeset) :
    Typesets (guardedEmit (.apply op operands))
      (line ++ .atom (signOf op) :: Formula.bracketedIf right.isSum right.typeset) := by
  have htypesets :=
    hleft.append ((typesets_atom (signOf op)).append (hright.bracketedIf right.isSum))
  intro anchor tree htree
  have hfollows := htypesets anchor tree htree
  obtain rfl | rfl := hop
  · rw [guardedEmit]
    split
    · cases hfold.symm.trans ‹_›
    · cases hfold.symm.trans ‹_›
      exact hfollows
  · rw [guardedEmit]
    · split
      · cases hfold.symm.trans ‹_›
      · cases hfold.symm.trans ‹_›
        exact hfollows
    · rintro operand rfl
      exact hmore rfl

/-- A product is created as what is left of it behind its first operand. -/
theorem typesets_fold_product {operands : List Formula} {left right : Formula}
    (hfold : Formula.foldBinary .times operands = .ok (left, right))
    (hleft : Typesets (guardedEmit left) left.typeset)
    (hright : Typesets (guardedBracketedIf right.isSum (guardedEmit right)) line) :
    Typesets (guardedEmit (.apply .times operands))
      (Formula.bracketedIf (left.isSum || left.isProduct) left.typeset ++ .atom '*' :: line) := by
  have htypesets := (hleft.bracketedIf (left.isSum || left.isProduct)).append
    ((typesets_atom '*').append hright)
  intro anchor tree htree
  have hfollows := htypesets anchor tree htree
  rw [guardedEmit]
  split
  · cases hfold.symm.trans ‹_›
  · cases hfold.symm.trans ‹_›
    exact hfollows

/-- Of several terms the last one is typeset behind all the others, with its sign. -/
theorem typesetTerms_append (sign : Char) (terms : List Formula) (last : Formula) :
    Formula.typesetTerms sign (terms ++ [last]) = Formula.typesetTerms sign terms ++
      .atom sign :: Formula.bracketedIf last.isSum last.typeset := by
  induction terms with
  | nil => simp only [List.nil_append, Formula.typesetTerms, List.append_nil]
  | cons term terms ih =>
    rw [List.cons_append, Formula.typesetTerms, Formula.typesetTerms, ih, List.append_assoc]

/-- A sum or a difference is typeset as its first operand with the others behind it as terms. -/
theorem typeset_sum {op : Operator} (hop : op = .plus ∨ op = .minus) (first second : Formula)
    (others : List Formula) :
    Formula.typeset (.apply op (first :: second :: others)) =
      first.typeset ++ Formula.typesetTerms (signOf op) (second :: others) := by
  obtain rfl | rfl := hop
  · rw [Formula.typeset]
    rfl
  · rw [Formula.typeset]
    · rfl
    · rintro ⟨⟩

/-- The terms of a sum are created one after another, though the last one is split off first. -/
theorem typesets_sum {op : Operator} (hop : op = .plus ∨ op = .minus) {first last : Formula}
    {others : List Formula}
    (h : ∀ term ∈ first :: others ++ [last], Typesets (guardedEmit term) term.typeset) :
    Typesets (guardedEmit (.apply op (first :: others ++ [last])))
      (first.typeset ++ Formula.typesetTerms (signOf op) (others ++ [last])) := by
  have hne : op ≠ .times := by
    rintro rfl
    obtain ⟨⟨⟩⟩ | ⟨⟨⟩⟩ := hop
  have hlast := h last (List.mem_append_right _ List.mem_cons_self)
  have hfold := Formula.foldBinary_sum hne (first :: others) last
  rw [typesetTerms_append, ← List.append_assoc]
  induction others using List.reverseRecOn generalizing last with
  | nil =>
    rw [Formula.typesetTerms, List.append_nil]
    exact typesets_fold_sum hop (by simp) hfold (h first List.mem_cons_self) hlast
  | append_singleton others term ih =>
    have hterm := h term (by simp)
    have hleft := ih (fun operand hoperand => h operand (List.mem_append_left _ hoperand)) hterm
      (Formula.foldBinary_sum hne (first :: others) term)
    rw [Formula.gather_more op (by simp)] at hfold
    rw [typesetTerms_append, ← List.append_assoc]
    exact typesets_fold_sum hop (by simp) hfold hleft hlast

/-- The factors of a product are created one after another. -/
theorem typesets_product {first second : Formula} {others : List Formula}
    (h : ∀ factor ∈ first :: second :: others, Typesets (guardedEmit factor) factor.typeset) :
    Typesets (guardedEmit (.apply .times (first :: second :: others)))
      (Formula.typesetFactors (first :: second :: others)) := by
  induction others generalizing first second with
  | nil =>
    obtain ⟨hfirst, hsecond⟩ := List.forall_mem_cons.mp h
    have hfold := Formula.foldBinary_times first [second]
    simp only [Formula.typesetFactors]
    exact typesets_fold_product hfold hfirst ((hsecond second List.mem_cons_self).bracketedIf _)
  | cons third others ih =>
    obtain ⟨hfirst, hothers⟩ := List.forall_mem_cons.mp h
    have hfold := Formula.foldBinary_times first (second :: third :: others)
    rw [Formula.gather_more .times (by simp)] at hfold
    rw [Formula.typesetFactors]
    · exact typesets_fold_product hfold hfirst (ih hothers)
    · exact List.cons_ne_nil _ _

/-- A root is typeset by positions if its last operand is. -/
theorem typesets_root {operands : List Formula} {radicand : Formula}
    (hoperands : operands.getLast? = some radicand)
    (h : Typesets (guardedEmit radicand) radicand.typeset) :
    Typesets (guardedEmit (.apply .root operands)) [.radical radicand.typeset] := by
  intro anchor tree htree
  have hfollows := h.radical anchor tree htree
  rw [guardedEmit]
  split
  · cases hoperands.symm.trans ‹_›
  · cases hoperands.symm.trans ‹_›
    exact hfollows

/-- A function is typeset by positions if its operand is. -/
theorem typesets_function {op : Operator} (hop : op ∈ Operator.functions) {operand : Formula}
    (h : Typesets (guardedEmit operand) operand.typeset) :
    Typesets (guardedEmit (.apply op [operand])) (Formula.typeset (.apply op [operand])) := by
  have hemit : ∀ anchor, guardedEmit (.apply op [operand]) anchor =
      guardedAtoms anchor op.tag.toList >>= guardedBracketedIf true (guardedEmit operand) := by
    intro anchor
    cases op with
    | sin | cos | tan | ln =>
      rw [guardedEmit]
      · rfl
      all_goals rintro ⟨⟩
    | _ => exact absurd hop (by decide)
  intro anchor tree htree
  rw [hemit, Formula.typeset_function hop]
  exact (typesets_atoms _).append h.bracketed anchor tree htree

/-- What can be typeset is created as its line. -/
theorem typesets {formula : Formula} (h : formula.Typesettable) :
    Typesets (guardedEmit formula) formula.typeset := by
  induction h with
  | number _ =>
    intro anchor
    rw [guardedEmit, Formula.typeset]
    exact typesets_atoms _ anchor
  | identifier _ =>
    intro anchor
    rw [guardedEmit, Formula.typeset]
    exact typesets_atom _ anchor
  | constant _ =>
    intro anchor
    rw [guardedEmit, Formula.typeset]
    exact typesets_atom _ anchor
  | @sum op hop first second others _ ih =>
    rw [typeset_sum hop]
    obtain hnil | ⟨front, last, hlist⟩ := List.eq_nil_or_concat (second :: others)
    · cases hnil
    · rw [List.concat_eq_append] at hlist
      rw [hlist] at ih ⊢
      exact typesets_sum hop ih
  | product _ ih =>
    rw [Formula.typeset]
    exact typesets_product ih
  | negation _ ih =>
    intro anchor
    rw [guardedEmit, Formula.typeset]
    exact (typesets_atom '-').append (ih.bracketedIf _) anchor
  | fraction _ _ htop hbottom =>
    intro anchor
    rw [guardedEmit, Formula.typeset]
    exact htop.fraction hbottom anchor
  | power _ _ hbase hexponent =>
    intro anchor
    rw [guardedEmit, Formula.typeset]
    exact (hbase.bracketedIf _).append hexponent.superscript anchor
  | radical _ ih =>
    rw [Formula.typeset_root (.inl rfl)]
    exact typesets_root rfl ih
  | root _ _ ih =>
    rw [Formula.typeset_root (.inr ⟨_, rfl⟩)]
    exact typesets_root rfl ih
  | abs _ ih =>
    intro anchor
    rw [guardedEmit, Formula.typeset]
    exact typesets_bar.append (ih.append typesets_bar) anchor
  | function hop _ ih => exact typesets_function hop ih

/-- A formula which cannot be typeset is refused before its operands are taken by position. -/
theorem WellFormed.follows_guardedTypeset (htree : tree.WellFormed) (anchor : NodeId)
    (formula : Formula) : Follows (guardedTypeset anchor formula) (typeset anchor formula) tree := by
  rw [typeset_eq]
  cases hfaults : formula.typesettable with
  | error fault =>
    rw [guardedTypeset, hfaults]
    rfl
  | ok _ =>
    rw [guardedTypeset, hfaults]
    exact Follows.ask fun _ _ =>
      typesets (Formula.typesettable_of_eq_ok hfaults) anchor tree htree

end Tree

end FormulaEditor
