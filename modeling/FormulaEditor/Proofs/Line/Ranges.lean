import FormulaEditor.Proofs.Line.Scanning

/-!
# Reading ranges of a line

A range in which whole spans are laid out is split into ranges in which whole spans are laid out, so
that it is read as its tokens are (`Survey.readRange_eq`), and a line behind its start as the line
(`Survey.read_eq`). Each of these ranges is narrower than the one which is split, which bounds the
rounds.
-/

set_option autoImplicit false

namespace FormulaEditor.Survey

variable {survey : Survey} {marks : List Token} {lo next hi : Nat} {span : Span Token}
  {spans : List (Span Token)}

/-- Ranges are read as the tokens of the spans which are laid out in them, if they are narrower than
some width. -/
def Reads (survey : Survey) (marks : List Token) (range : Nat → Nat → Checked Formula)
    (width : Nat) : Prop :=
  ∀ {lo hi : Nat} {spans : List (Span Token)}, survey.Lays marks lo spans hi →
    hi ≤ marks.length → hi < lo + width →
      range lo hi = Checked.answer (Token.sum (Span.tokens spans))

variable {range : Nat → Nat → Checked Formula}

/-- A superscript is where its character is. -/
theorem Lays.power_of_lead (hs : survey.Shows marks) (h : survey.Lays marks lo [span] next)
    (hlead : span.lead = '^') : ∃ exponent, span = .single (.power exponent) := by
  cases span with
  | single token =>
    cases token with
    | char c => exact absurd hlead (hs.char h.found).2
    | operand value => exact absurd hlead (by decide : '%' ≠ '^')
    | power exponent => exact ⟨exponent, rfl⟩
  | enclosed fence content =>
    have hopening : fence.opening ≠ '^' := by cases fence <;> decide
    exact absurd hlead hopening

/-- What is behind an operand is read as its powers and the term by which it is multiplied. -/
theorem readPowers_eq (hs : survey.Shows marks) {width : Nat}
    (hrange : survey.Reads marks range width) (h : survey.Lays marks lo spans hi)
    (hle : hi ≤ marks.length) (hwidth : hi < lo + width)
    (huncut : Token.Uncut false (Span.tokens spans)) (htimes : .char '*' ∉ Span.tokens spans)
    (value : Formula) : survey.readPowers range value lo hi = Checked.answer
      ((Lexeme.following (Lexeme.words (Span.tokens spans))).applyTo (.ok value)) := by
  induction spans generalizing lo value with
  | nil =>
    cases h
    rw [readPowers, if_neg (Nat.lt_irrefl _)]
    rfl
  | cons span spans ih =>
    obtain ⟨next, hspan, hrest⟩ := Lays.cons_iff.mp h
    have hlt := hspan.lt
    rw [readPowers, if_pos (hlt.trans_le hrest.le), hs.item hspan.lead]
    show (if span.lead = '^' then _ else _) = _
    by_cases hlead : span.lead = '^'
    · obtain ⟨exponent, rfl⟩ := hspan.power_of_lead hs hlead
      have hnext := hspan.next_eq
      subst hnext
      rw [if_pos hlead, hs.power hspan.found, Span.tokens, Span.token, Lexeme.words_cons]
      cases exponent with
      | error e => rfl
      | ok found =>
        exact ih hrest (by omega) huncut.2 (fun hmem => htimes (List.mem_cons_of_mem _ hmem)) _
    · have hpower : ∀ exponent, span.token ≠ .power exponent := by
        intro exponent htoken
        cases span with
        | single token =>
          cases htoken
          exact hlead rfl
        | enclosed fence content => cases htoken
      obtain ⟨outcome, hfollowing⟩ := Lexeme.exists_following hpower (Span.tokens spans)
      rw [if_neg hlead, hrange h hle hwidth, Token.sum_of_uncut_false huncut htimes, Lexeme.term,
        Span.tokens, hfollowing]
      cases outcome <;> rfl

/-- Behind an operand a term is read on, if the operand has a value. -/
theorem readPowers_behind (hs : survey.Shows marks) {width : Nat}
    (hrange : survey.Reads marks range width) (h : survey.Lays marks lo spans hi)
    (hle : hi ≤ marks.length) (hwidth : hi < lo + width) {outcome : Outcome} {front : List Token}
    (hne : front ≠ []) (hplain : ∀ token ∈ front, token.isOperator = false)
    (hwords : Lexeme.words (front ++ Span.tokens spans) =
      .operand outcome :: Lexeme.words (Span.tokens spans))
    (huncut : Token.Uncut true (front ++ Span.tokens spans))
    (htimes : .char '*' ∉ front ++ Span.tokens spans) :
    (Checked.answer outcome >>= fun value => survey.readPowers range value lo hi) =
      Checked.answer (Lexeme.term (Lexeme.words (front ++ Span.tokens spans))) := by
  rw [hwords]
  cases outcome with
  | error e => rfl
  | ok value =>
    obtain ⟨-, huncut⟩ := Token.uncut_append.mp huncut
    rw [Token.unaryAfter_of_not_isOperator hne hplain] at huncut
    exact readPowers_eq hs hrange h hle hwidth huncut
      (fun hmem => htimes (List.mem_append_right _ hmem)) value

/-- The characters of composite symbols and fences are no letters. -/
theorem readSymbol_of_mark {c : Char} (hc : c ∈ ['%', '(', '|', '^']) (position : Nat) :
    survey.readSymbol range c position =
      if c = '%' then do return (← survey.composite position, position + 1)
      else if c = '(' then do
        let last ← survey.partner position
        return (← range (position + 1) last, last + 1)
      else if c = '|' then do
        let last ← survey.partner position
        return (.unary .abs (← range (position + 1) last), last + 1)
      else if c = '^' then throw (.refused (.cannotParse .noBase))
      else throw (.refused (.cannotParse (.unexpected c))) := by
  have hmarks : ['%', '(', '|', '^'] ⊆ ['+', '-', '*', '(', ')', '%', '.', '^', '_', '|', '∞'] := by
    decide
  have hletter : ¬Text.isAlphabetic c = true := fun hletter =>
    Text.ne_of_isAlphabetic hletter (hmarks hc) rfl
  have hnames : c ≠ 'π' ∧ c ≠ 'e' ∧ c ≠ '∞' := by
    simp only [List.mem_cons, List.not_mem_nil, or_false] at hc
    obtain rfl | rfl | rfl | rfl := hc <;> decide
  rw [readSymbol, if_neg hnames.1, if_neg hnames.2.1, if_neg hnames.2.2, if_neg hletter]

/-- A character which stands for itself is read as its word, or refused as the words are. -/
theorem readSymbol_of_char {c : Char} (hplain : c ∉ ['%', '(', '|', '^', '-', '*']) (position : Nat)
    (words : List Lexeme) :
    (∃ value, Lexeme.ofChar c = .operand (.ok value) ∧
        survey.readSymbol range c position = .ok (value, position + 1)) ∨
      ∃ error, Lexeme.term (Lexeme.ofChar c :: words) = .error error ∧
        survey.readSymbol range c position = .error (.refused error) := by
  simp only [List.mem_cons, List.not_mem_nil, or_false, not_or] at hplain
  obtain ⟨hcomposite, hbracket, hbar, hpower, hminus, htimes⟩ := hplain
  by_cases hpi : c = 'π'
  · exact .inl ⟨.constant .pi, by rw [hpi]; rfl, by rw [readSymbol, if_pos hpi]; rfl⟩
  by_cases he : c = 'e'
  · exact .inl ⟨.constant .exponentialE, by rw [he]; rfl,
      by rw [readSymbol, if_neg hpi, if_pos he]; rfl⟩
  by_cases hinfinity : c = '∞'
  · exact .inl ⟨.constant .infinity, by rw [hinfinity]; rfl,
      by rw [readSymbol, if_neg hpi, if_neg he, if_pos hinfinity]; rfl⟩
  have unnamed : ∀ name : Constant, c ≠ name.letter := by
    intro name
    cases name
    · exact hpi
    · exact he
    · exact hinfinity
  rw [readSymbol, if_neg hpi, if_neg he, if_neg hinfinity]
  by_cases hletter : Text.isAlphabetic c = true
  · have hsign : c ∉ ['+', '-', '*'] := fun hc =>
      Text.ne_of_isAlphabetic hletter (List.mem_append_left _ hc) rfl
    refine .inl ⟨.identifier c, ?_, by rw [if_pos hletter]; rfl⟩
    rw [Lexeme.ofChar_of_unnamed hsign unnamed, if_pos hletter]
  · rw [if_neg hletter, if_neg hcomposite, if_neg hbracket, if_neg hbar, if_neg hpower]
    refine .inr ⟨.cannotParse (.unexpected c), ?_, rfl⟩
    by_cases hplus : c = '+'
    · rw [hplus]
      rfl
    · rw [Lexeme.ofChar_of_unnamed (by simp [hplus, hminus, htimes]) unnamed, if_neg hletter]
      rfl

/-- A fence is read as what is inside it. -/
theorem readSymbol_fence {width : Nat} {fence : Fence} {content : List (Span Token)}
    (hrange : survey.Reads marks range width)
    (hspan : survey.Lays marks lo [.enclosed fence content] next) (hle : next ≤ marks.length)
    (hwidth : next ≤ lo + width) : survey.readSymbol range fence.opening lo =
      Checked.answer ((fence.operand (Token.sum (Span.tokens content))).map (·, next)) := by
  cases hspan with
  | @enclosed _ last _ _ _ _ _ _ forth _ inner rest =>
    cases rest
    have hpartner : survey.partner lo = .ok last := by
      rw [partner, Checked.item_of_getElem? forth]
      rfl
    have hinner := hrange inner (by omega) (by omega)
    cases fence with
    | brackets =>
      show survey.readSymbol range '(' lo = _
      rw [readSymbol_of_mark (by decide), if_neg (by decide), if_pos rfl, hpartner]
      show (range (lo + 1) last >>= _) = _
      rw [hinner, Fence.operand]
      cases Token.sum (Span.tokens content) <;> rfl
    | bars =>
      show survey.readSymbol range '|' lo = _
      rw [readSymbol_of_mark (by decide), if_neg (by decide), if_neg (by decide), if_pos rfl,
        hpartner]
      show (range (lo + 1) last >>= _) = _
      rw [hinner, Fence.operand]
      cases Token.sum (Span.tokens content) <;> rfl

/-- A single symbol or a fence is read as its word, with what is behind it. -/
theorem readSymbol_eq (hs : survey.Shows marks) {width : Nat}
    (hrange : survey.Reads marks range width) (hspan : survey.Lays marks lo [span] next)
    (h : survey.Lays marks next spans hi) (hle : hi ≤ marks.length) (hwidth : hi ≤ lo + width)
    (huncut : Token.Uncut true (Span.tokens (span :: spans)))
    (htimes : .char '*' ∉ Span.tokens (span :: spans)) (hminus : span ≠ .single (.char '-'))
    (hdigit : span.lead.isDigit = false)
    (hfunction : Lexeme.function? (Span.tokens (span :: spans)) = none)
    (hpi : Lexeme.spells "pi".toList (Span.tokens (span :: spans)) = false) :
    (do
      let (value, next) ← survey.readSymbol range span.lead lo
      survey.readPowers range value next hi) =
        Checked.answer (Lexeme.term (Lexeme.words (Span.tokens (span :: spans)))) := by
  have hbehind := @readPowers_behind survey marks next hi spans range hs width hrange h hle
    (by have hlt := hspan.lt; omega)
  have hsymbol : ∀ outcome, span.token.isOperator = false →
      Lexeme.words (Span.tokens (span :: spans)) =
        .operand outcome :: Lexeme.words (Span.tokens spans) →
      survey.readSymbol range span.lead lo = Checked.answer (outcome.map (·, next)) →
      (do
        let (value, next) ← survey.readSymbol range span.lead lo
        survey.readPowers range value next hi) =
          Checked.answer (Lexeme.term (Lexeme.words (Span.tokens (span :: spans)))) := by
    intro outcome hoperator hwords hread
    have hterm := hbehind (List.cons_ne_nil span.token [])
      (List.forall_mem_singleton.mpr hoperator) hwords huncut htimes
    refine Eq.trans ?_ hterm
    rw [hread]
    cases outcome <;> rfl
  cases span with
  | single token =>
    have hnext := hspan.next_eq
    subst hnext
    cases token with
    | char c =>
      have hwords : Lexeme.words (.char c :: Span.tokens spans) =
          Lexeme.ofChar c :: Lexeme.words (Span.tokens spans) :=
        Lexeme.words_of_char hdigit hfunction hpi
      obtain ⟨hcomposite, hpower⟩ := hs.char hspan.found
      have hplain := hspan.plain
      have hnotMinus : c ≠ '-' := by
        rintro rfl
        exact hminus rfl
      have hnotTimes : c ≠ '*' := by
        rintro rfl
        exact htimes List.mem_cons_self
      simp only [Fence.delimiters, Token.precis, List.mem_cons, List.not_mem_nil, or_false,
        not_or] at hplain
      have hordinary : c ∉ ['%', '(', '|', '^', '-', '*'] := by simp [*]
      obtain ⟨value, hvalue, hread⟩ | ⟨error, herror, hread⟩ :=
        @readSymbol_of_char survey range c hordinary lo (Lexeme.words (Span.tokens spans))
      · refine hsymbol (.ok value) ?_ (hwords.trans (by rw [hvalue])) hread
        show operators.contains c = false
        simp only [Bool.eq_false_iff, ne_eq, List.contains_iff_mem, operators, List.mem_cons,
          List.not_mem_nil, or_false, hnotMinus, hnotTimes]
        rintro rfl
        cases hvalue
      · show (survey.readSymbol range c lo >>= _) = Checked.answer (Lexeme.term (Lexeme.words _))
        rw [hread, Span.tokens, Span.token, hwords, herror]
        rfl
    | operand value =>
      refine hsymbol value rfl (Lexeme.words_cons _ _) ?_
      show survey.readSymbol range '%' lo = _
      rw [readSymbol_of_mark (by decide), if_pos rfl, hs.operand hspan.found]
      cases value <;> rfl
    | power exponent =>
      show (survey.readSymbol range '^' lo >>= _) = _
      rw [readSymbol_of_mark (by decide), if_neg (by decide), if_neg (by decide),
        if_neg (by decide), if_pos rfl]
      rfl
  | enclosed fence content =>
    have hend := h.le
    exact hsymbol _ rfl (Lexeme.words_cons _ _)
      (readSymbol_fence hrange hspan (by omega) (by omega))

/-- Reading a term by positions reads its words. -/
theorem readTerm_eq (hs : survey.Shows marks) {width : Nat}
    (hrange : survey.Reads marks range width) (h : survey.Lays marks lo (span :: spans) hi)
    (hle : hi ≤ marks.length) (hwidth : hi ≤ lo + width)
    (huncut : Token.Uncut true (Span.tokens (span :: spans)))
    (htimes : .char '*' ∉ Span.tokens (span :: spans)) (hminus : span ≠ .single (.char '-')) :
    survey.readTerm range lo hi =
      Checked.answer (Lexeme.term (Lexeme.words (Span.tokens (span :: spans)))) := by
  obtain ⟨next, hspan, hrest⟩ := Lays.cons_iff.mp h
  rw [readTerm, hs.item hspan.lead]
  show (if span.lead.isDigit then _ else _) = _
  cases hdigit : span.lead.isDigit with
  | true =>
    have hdigits : Lexeme.digits (Span.tokens (span :: spans)) ≠ [] := by
      rw [Span.tokens, digits_cons_of_isDigit hdigit]
      exact List.cons_ne_nil _ _
    obtain ⟨rest, hsplit, hcovers⟩ := Lexeme.covers_number hdigits
    obtain ⟨others, rfl, hlaid, htake⟩ := h.chars hs hsplit
    have hpositive := List.length_pos_iff.mpr hcovers.ne_nil
    rw [List.length_map] at hpositive
    have hend := hlaid.le
    have hbehind := readPowers_behind hs hrange hlaid hle (by omega) hcovers.ne_nil
      hcovers.tokens_plain hcovers.words (hsplit ▸ huncut) (hsplit ▸ htimes)
    rw [if_pos rfl, numeralEnd_eq hs h]
    show (Checked.slice survey.precis lo _ >>= _) = _
    rw [Checked.slice_of_le (Nat.le_add_right _ _) (by rw [hs.length]; omega),
      Nat.add_sub_cancel_left, htake]
    rw [← hsplit] at hbehind
    exact hbehind
  | false =>
    rw [if_neg Bool.false_ne_true, functionAt_eq hs h hle]
    cases hfunction : Lexeme.function? (Span.tokens (span :: spans)) with
    | some op =>
      obtain ⟨hop, rest, hsplit⟩ := Lexeme.function?_eq_some_iff.mp hfunction
      obtain ⟨word, hcovers⟩ := Lexeme.covers_spelled (Lexeme.tag_mem_spelled hop) rest
      obtain ⟨others, rfl, hlaid, -⟩ := h.chars hs hsplit
      have hpositive := List.length_pos_iff.mpr hcovers.ne_nil
      rw [List.length_map, String.length_toList] at hpositive
      rw [String.length_toList] at hlaid
      rw [hsplit] at huncut htimes
      obtain ⟨-, huncut⟩ := Token.uncut_append.mp huncut
      rw [Token.unaryAfter_of_not_isOperator hcovers.ne_nil hcovers.tokens_plain] at huncut
      have htimes := fun hmem => htimes (List.mem_append_right _ hmem)
      show (range (lo + op.tag.length) hi >>= _) = _
      rw [hrange hlaid hle (by omega), Token.sum_of_uncut_false huncut htimes, hsplit,
        Lexeme.words_of_function hop]
      show _ = Checked.answer
        ((Lexeme.term (Lexeme.words (Span.tokens others))).map (Formula.unary op))
      cases Lexeme.term (Lexeme.words (Span.tokens others)) <;> rfl
    | none =>
      have hpi := wordAt_eq hs h hle (Lexeme.ordinary_spelled _ List.mem_cons_self)
      show (survey.readOperand range span.lead lo hi >>= _) = _
      rw [readOperand, hpi]
      cases hspelled : Lexeme.spells "pi".toList (Span.tokens (span :: spans)) with
      | true =>
        obtain ⟨rest, hsplit⟩ :=
          (Lexeme.spells_iff (Lexeme.ordinary_spelled _ List.mem_cons_self) _).mp hspelled
        obtain ⟨word, hcovers⟩ := Lexeme.covers_spelled List.mem_cons_self rest
        obtain ⟨others, rfl, hlaid, -⟩ := h.chars hs hsplit
        have hpositive : 0 < "pi".toList.length := by decide
        have hbehind := readPowers_behind hs hrange hlaid hle (by omega) hcovers.ne_nil
          hcovers.tokens_plain (Lexeme.words_of_pi _) (hsplit ▸ huncut) (hsplit ▸ htimes)
        rw [← hsplit] at hbehind
        exact hbehind
      | false =>
        exact readSymbol_eq hs hrange hspan hrest hle (by omega) huncut htimes hminus hdigit
          hfunction hspelled

/-- Where nothing is added, subtracted or multiplied by an operator, a sign or a term is read. -/
theorem readSigned_eq (hs : survey.Shows marks) {width : Nat}
    (hrange : survey.Reads marks range width) (h : survey.Lays marks lo (span :: spans) hi)
    (hle : hi ≤ marks.length) (hwidth : hi ≤ lo + width)
    (huncut : Token.Uncut true (Span.tokens (span :: spans)))
    (htimes : .char '*' ∉ Span.tokens (span :: spans)) :
    (do
      if (← Checked.item survey.precis lo) = '-' then
        return Formula.unary .minus (← range (lo + 1) hi)
      else survey.readTerm range lo hi) =
        Checked.answer (Token.sum (Span.tokens (span :: spans))) := by
  obtain ⟨next, hspan, hrest⟩ := Lays.cons_iff.mp h
  rw [hs.item hspan.lead]
  show (if span.lead = '-' then _ else _) = _
  by_cases hlead : span.lead = '-'
  · obtain rfl := (Span.lead_eq_iff (by decide)).mp hlead
    obtain rfl := hspan.next_eq
    rw [if_pos hlead, hrange hrest hle (by omega)]
    show _ = Checked.answer (Token.sum (.char '-' :: Span.tokens spans))
    rw [Token.sum_minus huncut.2 fun hmem => htimes (List.mem_cons_of_mem _ hmem)]
    cases Token.sum (Span.tokens spans) <;> rfl
  · have hminus : span ≠ .single (.char '-') := fun hspan =>
      hlead ((Span.lead_eq_iff (by decide)).mpr hspan)
    rw [if_neg hlead, readTerm_eq hs hrange h hle hwidth huncut htimes hminus,
      Token.sum_term huncut htimes]
    exact fun hhead => hminus (Span.token_eq_char (Option.some.inj hhead))

/-- The operands of a binary operator are read one after the other. -/
theorem readBoth_eq {op : Operator} {left right : Outcome} {read : Checked Formula}
    (hread : read = Checked.answer right) :
    (do
      let value ← Checked.answer left
      return Formula.binary op value (← read)) =
        Checked.answer (do
          let value ← left
          return Formula.binary op value (← right)) := by
  rw [hread]
  cases left with
  | error error => rfl
  | ok value => cases right <;> rfl

/-- Reading a range by positions reads the tokens of the spans which are laid out in it. -/
theorem readRange_eq (hs : survey.Shows marks) (rounds : Nat) :
    survey.Reads marks (survey.readRange rounds) rounds := by
  -- the parts of a range are narrower than the range, so one round less is enough for them
  induction rounds with
  | zero =>
    intro lo hi spans h hle hrounds
    exact absurd h.le (by omega)
  | succ rounds ih =>
    intro lo hi spans h hle hrounds
    have hlength := hs.length
    cases spans with
    | nil =>
      cases h
      rw [readRange, if_pos (Nat.le_refl _)]
      rfl
    | cons span spans =>
      obtain ⟨next, hspan, hrest⟩ := Lays.cons_iff.mp h
      have hlt := hspan.lt.trans_le hrest.le
      obtain ⟨positions, hpositions⟩ := exists_outermost h
      have hslice : Checked.slice survey.precis lo hi =
          .ok ((survey.precis.drop lo).take (hi - lo)) :=
        Checked.slice_of_le h.le (by omega)
      rw [readRange, if_neg (Nat.not_le.mpr hlt)]
      show (survey.outermost lo hi >>= _) = _
      rw [hpositions]
      show (Checked.find (survey.isSplit lo) positions.reverse >>= _) = _
      obtain ⟨hnone, huncut⟩ | ⟨position, left, c, right, hfound, hitem, hc, hsplit, hleft, hright,
        hunary, huncut⟩ := find_isSplit hs h (.inl ⟨rfl, rfl⟩) (Nat.le_refl lo) hpositions
      · rw [hnone]
        show (Checked.find survey.isTimes positions >>= _) = _
        obtain ⟨hnone, htimes⟩ | ⟨position, left, right, hfound, hsplit, hleft, hright, htimes⟩ :=
          find_isTimes hs h hpositions
        · rw [hnone]
          exact readSigned_eq hs ih h hle (by omega) huncut htimes
        · rw [hfound]
          show (Checked.slice survey.precis lo hi >>= _) = _
          rw [hslice]
          have hlo := hleft.le
          have hhi := hright.le
          rw [hsplit, Span.tokens_append] at huncut ⊢
          obtain ⟨huncut, -, hothers⟩ := Token.uncut_append.mp huncut
          show (survey.readRange rounds lo position >>= _) =
            Checked.answer (Token.sum (Span.tokens left ++ .char '*' :: Span.tokens right))
          rw [ih hleft (by omega) (by omega), Token.sum_append_times huncut htimes hothers]
          exact readBoth_eq (ih hright hle (by omega))
      · have hlo := hleft.le
        have hhi := hright.le
        rw [hfound]
        show (Checked.slice survey.precis lo hi >>= _) = _
        rw [hslice]
        show (Checked.item survey.precis position >>= _) = _
        rw [hitem, hsplit, Span.tokens_append]
        show (survey.readRange rounds lo position >>= _) =
          Checked.answer (Token.sum (Span.tokens left ++ .char c :: Span.tokens right))
        rw [ih hleft (by omega) (by omega)]
        obtain rfl | rfl := hc
        · rw [Token.sum_append_sign (.inl ⟨rfl, rfl⟩) hunary huncut]
          exact readBoth_eq (ih hright hle (by omega))
        · rw [Token.sum_append_sign (.inr ⟨rfl, rfl⟩) hunary huncut]
          exact readBoth_eq (ih hright hle (by omega))

/-- Reading a line by positions behind its start reads its tokens, if they are grouped into spans
which are laid out behind the start. -/
theorem read_eq {start : Token} {tokens : List Token} (hs : survey.Shows (start :: tokens))
    (hstart : start.precis = '_') (hgroup : Fence.group Token.precis 1 tokens = .ok spans)
    (h : survey.Lays (start :: tokens) 1 spans (start :: tokens).length) :
    survey.read = Checked.answer (Token.formula tokens) := by
  have hhead : survey.precis.head? = some '_' := by
    rw [hs.precis, List.map_cons, hstart]
    rfl
  rw [Token.formula, hgroup, read, if_pos hhead, hs.length]
  show (if (start :: tokens).length ≤ 1 then _ else _) = _
  cases spans with
  | nil =>
    rw [if_pos (Nat.le_of_eq h.eq_of_nil.symm)]
    rfl
  | cons span spans =>
    obtain ⟨next, hspan, hrest⟩ := Lays.cons_iff.mp h
    rw [if_neg (Nat.not_le.mpr (hspan.lt.trans_le hrest.le))]
    exact readRange_eq hs _ h (Nat.le_refl _) (by omega)

end FormulaEditor.Survey
