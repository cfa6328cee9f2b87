import FormulaEditor.Proofs.Line.Survey

/-!
# Looking for positions in a line

Outside of all fences are the positions at which the spans of a range begin. The sign and the
operator which are found there are those at which the tokens of the range are split
(`Survey.find_isSplit`, `Survey.find_isTimes`). The characters in a row from a position on are the
tokens of the next spans, so that a function name or a number which is found there is a word of
these tokens, and ends in the range (`Survey.functionAt_eq`, `Survey.numeralEnd_eq`).
-/

set_option autoImplicit false

namespace FormulaEditor.Survey

variable {survey : Survey} {marks : List Token} {lo next hi : Nat} {span : Span Token}
  {spans : List (Span Token)}

/-! ## Outside of fences -/

/-- A search outside of fences goes on behind a span. -/
theorem outermost_cons (h : survey.Lays marks lo [span] next) (hle : next ≤ hi) :
    survey.outermost lo hi = (lo :: ·) <$> survey.outermost next hi := by
  have hlt := h.lt.trans_le hle
  cases h with
  | single _ _ alone rest =>
    cases rest
    rw [outermost, if_pos hlt, Checked.item_of_getElem? alone]
    rfl
  | @enclosed _ last _ _ _ _ _ _ forth _ inner rest =>
    cases rest
    rw [outermost, if_pos hlt, Checked.item_of_getElem? forth]
    show (if lo < last then if hi ≤ last then _ else _ else _) = _
    have hlast : lo < last := inner.le
    rw [if_pos hlast, if_neg (Nat.not_le.mpr hle)]
    rfl

/-- In an empty range there is no position outside of fences. -/
theorem outermost_self (position : Nat) : survey.outermost position position = .ok [] := by
  rw [outermost, if_neg (Nat.lt_irrefl _)]
  rfl

/-- In a range in which spans are laid out the positions outside of fences are found. -/
theorem exists_outermost (h : survey.Lays marks lo spans hi) :
    ∃ positions, survey.outermost lo hi = .ok positions := by
  induction spans generalizing lo with
  | nil =>
    cases h
    exact ⟨[], outermost_self _⟩
  | cons span spans ih =>
    obtain ⟨next, hspan, hrest⟩ := Lays.cons_iff.mp h
    obtain ⟨positions, hpositions⟩ := ih hrest
    exact ⟨lo :: positions, by rw [outermost_cons hspan hrest.le, hpositions]; rfl⟩

/-- What a sign at a position of a range does, as the character before it tells. -/
def Precedes (survey : Survey) (lo position : Nat) (unary : Bool) : Prop :=
  (position = lo ∧ unary = true) ∨ ∃ before c, position = before + 1 ∧ lo < position ∧
    Checked.item survey.precis before = .ok c ∧ unary = operators.contains c

/-- A sum can be split at a position just if there is a sign which adds or subtracts. -/
theorem isSplit_eq {position : Nat} {unary : Bool} {c : Char}
    (hc : Checked.item survey.precis position = .ok c) (h : survey.Precedes lo position unary) :
    survey.isSplit lo position = .ok (decide (c = '+' ∨ c = '-') && !unary) := by
  rw [isSplit, hc]
  show (if (c = '+' ∨ c = '-') ∧ lo < position then _ else _) = _
  obtain ⟨rfl, rfl⟩ | ⟨before, d, rfl, hlt, hd, rfl⟩ := h
  · rw [if_neg fun h => Nat.lt_irrefl _ h.2, Bool.not_true, Bool.and_false]
    rfl
  · by_cases hsign : c = '+' ∨ c = '-'
    · rw [if_pos ⟨hsign, hlt⟩, decide_eq_true hsign]
      show (Checked.item survey.precis before >>= _) = _
      rw [hd]
      rfl
    · rw [if_neg fun h => hsign h.1, decide_eq_false hsign]
      rfl

/-- Signs are shown as they are. -/
theorem ordinary_of_sign {c : Char} (h : c = '+' ∨ c = '-') : Lexeme.Ordinary c := by
  obtain rfl | rfl := h <;> decide

/-- Where the last sign is which adds or subtracts, outside of all fences. -/
theorem find_isSplit (hs : survey.Shows marks) {start : Nat} {unary : Bool}
    (h : survey.Lays marks start spans hi) (hunary : survey.Precedes lo start unary)
    (hlo : lo ≤ start) {positions : List Nat}
    (hpositions : survey.outermost start hi = .ok positions) :
    (Checked.find (survey.isSplit lo) positions.reverse = .ok none ∧
        Token.Uncut unary (Span.tokens spans)) ∨
      ∃ position left c right,
        Checked.find (survey.isSplit lo) positions.reverse = .ok (some position) ∧
          Checked.item survey.precis position = .ok c ∧ (c = '+' ∨ c = '-') ∧
          spans = left ++ .single (.char c) :: right ∧
          survey.Lays marks start left position ∧ survey.Lays marks (position + 1) right hi ∧
          Token.unaryAfter unary (Span.tokens left) = false ∧
          Token.Uncut true (Span.tokens right) := by
  -- the search goes backwards: a span counts only if nothing is found behind it
  induction spans generalizing start unary positions with
  | nil =>
    cases h
    rw [outermost_self] at hpositions
    cases hpositions
    exact .inl ⟨rfl, trivial⟩
  | cons span spans ih =>
    obtain ⟨next, hspan, hrest⟩ := Lays.cons_iff.mp h
    have hlt := hspan.lt
    obtain ⟨last, hlast, htrail⟩ := hspan.trail
    rw [outermost_cons hspan hrest.le] at hpositions
    cases hothers : survey.outermost next hi with
    | error e =>
      rw [hothers] at hpositions
      cases hpositions
    | ok others =>
      rw [hothers] at hpositions
      cases hpositions
      have hprecedes : survey.Precedes lo next span.token.isOperator :=
        .inr ⟨last, _, hlast, by omega, hs.item htrail, span.isOperator_token⟩
      have hitem := hs.item hspan.lead
      have hsplit := isSplit_eq hitem hunary
      rw [List.reverse_cons, Checked.find_append]
      obtain ⟨hnone, huncut⟩ | ⟨position, left, c, right, hfound, hitem, hc, rfl, hleft, hright,
        hrest⟩ := ih hrest hprecedes (by omega) hothers
      · rw [hnone]
        show (Checked.find (survey.isSplit lo) [start] = _ ∧ _) ∨ _
        rw [Checked.find, hsplit]
        cases hfound : decide (span.lead = '+' ∨ span.lead = '-') && !unary with
        | true =>
          rw [Bool.and_eq_true, decide_eq_true_eq, Bool.not_eq_true'] at hfound
          obtain ⟨hsign, rfl⟩ := hfound
          have hchar : span = .single (.char span.lead) :=
            (Span.lead_eq_iff (ordinary_of_sign hsign)).mp rfl
          rw [hchar] at hspan huncut
          have hnext := hspan.next_eq
          subst hnext
          refine .inr ⟨start, [], span.lead, spans, rfl, hitem, hsign, ?_, .nil start, hrest, rfl,
            ?_⟩
          · rw [← hchar]
            rfl
          · obtain hc | hc := hsign <;> rw [hc] at huncut <;> exact huncut
        | false =>
          refine .inl ⟨rfl, ?_, huncut⟩
          rintro ⟨c, hc, htoken⟩
          rw [Span.token_eq_char htoken] at hfound
          simp only [List.mem_cons, List.not_mem_nil, or_false] at hc
          have hlead : (Span.single (Token.char c)).lead = c := rfl
          rw [hlead, decide_eq_true hc, Bool.true_and, Bool.not_eq_false'] at hfound
          exact hfound
      · rw [hfound]
        exact .inr ⟨position, span :: left, c, right, rfl, hitem, hc, rfl,
          Lays.cons_iff.mpr ⟨next, hspan, hleft⟩, hright, hrest⟩

/-- Where the first operator of a product is, outside of all fences. -/
theorem find_isTimes (hs : survey.Shows marks) (h : survey.Lays marks lo spans hi)
    {positions : List Nat} (hpositions : survey.outermost lo hi = .ok positions) :
    (Checked.find survey.isTimes positions = .ok none ∧ .char '*' ∉ Span.tokens spans) ∨
      ∃ position left right, Checked.find survey.isTimes positions = .ok (some position) ∧
        spans = left ++ .single (.char '*') :: right ∧ survey.Lays marks lo left position ∧
          survey.Lays marks (position + 1) right hi ∧ .char '*' ∉ Span.tokens left := by
  induction spans generalizing lo positions with
  | nil =>
    cases h
    rw [outermost_self] at hpositions
    cases hpositions
    exact .inl ⟨rfl, List.not_mem_nil⟩
  | cons span spans ih =>
    obtain ⟨next, hspan, hrest⟩ := Lays.cons_iff.mp h
    rw [outermost_cons hspan hrest.le] at hpositions
    cases hothers : survey.outermost next hi with
    | error e =>
      rw [hothers] at hpositions
      cases hpositions
    | ok others =>
      rw [hothers] at hpositions
      cases hpositions
      have htimes : survey.isTimes lo = .ok (decide (span.lead = '*')) := by
        rw [isTimes, hs.item hspan.lead]
        rfl
      rw [Checked.find, htimes]
      by_cases hlead : span.lead = '*'
      · obtain rfl := (Span.lead_eq_iff (by decide)).mp hlead
        have hnext := hspan.next_eq
        subst hnext
        exact .inr ⟨lo, [], spans, rfl, rfl, .nil lo, hrest, List.not_mem_nil⟩
      · rw [decide_eq_false hlead]
        have hnotMem : ∀ {tokens}, .char '*' ∉ tokens → .char '*' ∉ span.token :: tokens :=
          List.not_mem_cons_of_ne_of_not_mem fun htoken => by
            rw [Span.token_eq_char htoken.symm] at hlead
            exact hlead rfl
        obtain ⟨hnone, hmem⟩ | ⟨position, left, right, hfound, rfl, hleft, hright, hmem⟩ :=
          ih hrest hothers
        · exact .inl ⟨hnone, hnotMem hmem⟩
        · exact .inr ⟨position, span :: left, right, hfound, rfl,
            Lays.cons_iff.mpr ⟨next, hspan, hleft⟩, hright, hnotMem hmem⟩

/-! ## Characters in a row -/

/-- Characters with which the tokens of a range begin stand at its beginning. -/
theorem Lays.chars (hs : survey.Shows marks) (h : survey.Lays marks lo spans hi) {text : List Char}
    {rest : List Token} (htokens : Span.tokens spans = text.map .char ++ rest) :
    ∃ others, Span.tokens others = rest ∧ survey.Lays marks (lo + text.length) others hi ∧
      (survey.precis.drop lo).take text.length = text := by
  induction text generalizing lo spans with
  | nil => exact ⟨spans, htokens, h, List.take_zero⟩
  | cons c text ih =>
    cases spans with
    | nil => cases htokens
    | cons span spans =>
      obtain ⟨next, hspan, hrest⟩ := Lays.cons_iff.mp h
      obtain ⟨htoken, htokens⟩ := List.cons.inj htokens
      have hlead := hs.item hspan.lead
      rw [Span.token_eq_char htoken] at hspan hlead
      have hnext := hspan.next_eq
      subst hnext
      obtain ⟨others, hothers, hlaid, htake⟩ := ih hrest htokens
      refine ⟨others, hothers, ?_, ?_⟩
      · rw [List.length_cons, Nat.add_comm text.length, ← Nat.add_assoc]
        exact hlaid
      · obtain ⟨hlt, hc⟩ := List.getElem?_eq_some_iff.mp (Checked.item_eq_ok_iff.mp hlead)
        rw [List.drop_eq_getElem_cons hlt, hc, List.length_cons, List.take_succ_cons, htake]
        rfl

/-- The tokens of a range begin with the ordinary characters which stand at its beginning. -/
theorem Lays.exists_tokens (hs : survey.Shows marks) (h : survey.Lays marks lo spans hi)
    {text : List Char} (htext : ∀ c ∈ text, Lexeme.Ordinary c) (hle : lo + text.length ≤ hi)
    (htake : (survey.precis.drop lo).take text.length = text) :
    ∃ rest, Span.tokens spans = text.map .char ++ rest := by
  induction text generalizing lo spans with
  | nil => exact ⟨Span.tokens spans, rfl⟩
  | cons c text ih =>
    obtain ⟨hc, htext⟩ := List.forall_mem_cons.mp htext
    rw [List.length_cons] at hle htake
    cases spans with
    | nil =>
      cases h
      omega
    | cons span spans =>
      obtain ⟨next, hspan, hrest⟩ := Lays.cons_iff.mp h
      obtain ⟨hlt, hlead⟩ :=
        List.getElem?_eq_some_iff.mp (Checked.item_eq_ok_iff.mp (hs.item hspan.lead))
      rw [List.drop_eq_getElem_cons hlt, List.take_succ_cons, hlead] at htake
      obtain ⟨hfirst, hmore⟩ := List.cons.inj htake
      obtain rfl := (Span.lead_eq_iff hc).mp hfirst
      have hnext := hspan.next_eq
      subst hnext
      obtain ⟨rest, hrest⟩ := ih hrest htext (by omega) hmore
      exact ⟨rest, congrArg (Token.char c :: ·) hrest⟩

/-- A word of ordinary characters is spelled by the tokens of a range if it stands there. -/
theorem wordAt_eq (hs : survey.Shows marks) (h : survey.Lays marks lo spans hi)
    (hle : hi ≤ marks.length) {word : String} (hword : ∀ c ∈ word.toList, Lexeme.Ordinary c) :
    survey.wordAt lo hi word = .ok (Lexeme.spells word.toList (Span.tokens spans)) := by
  have hspells := Lexeme.spells_iff hword (Span.tokens spans)
  have hlength : word.toList.length = word.length := word.length_toList
  rw [wordAt]
  by_cases hfits : lo + word.length ≤ hi
  · rw [if_pos hfits, Checked.slice_of_le (by omega) (by rw [hs.length]; omega)]
    show Except.ok (decide (_ = _)) = _
    rw [Nat.add_sub_cancel_left, ← hlength]
    congr 1
    rw [Bool.eq_iff_iff, decide_eq_true_iff, hspells]
    constructor
    · intro htake
      exact h.exists_tokens hs hword (by omega) htake
    · rintro ⟨rest, hrest⟩
      obtain ⟨_, -, -, htake⟩ := h.chars hs hrest
      exact htake
  · rw [if_neg hfits]
    show Except.ok false = _
    congr 1
    rw [eq_comm, Bool.eq_false_iff, ne_eq, hspells]
    rintro ⟨rest, hrest⟩
    obtain ⟨_, -, hlaid, -⟩ := h.chars hs hrest
    have hle := hlaid.le
    omega

/-- The function whose name is found from a position on is the one in front of the tokens. -/
theorem functionAt_eq (hs : survey.Shows marks) (h : survey.Lays marks lo spans hi)
    (hle : hi ≤ marks.length) :
    survey.functionAt lo hi = .ok (Lexeme.function? (Span.tokens spans)) := by
  refine Checked.find_eq_ok fun op hop => wordAt_eq hs h hle ?_
  exact Lexeme.ordinary_spelled _ (Lexeme.tag_mem_spelled hop)

/-- A digit in front of a range is a token of it. -/
theorem eq_single_of_isDigit {span : Span Token} (h : span.lead.isDigit = true) :
    span = .single (.char span.lead) := by
  refine (Span.lead_eq_iff ?_).mp rfl
  intro hmem
  simp only [List.mem_cons, List.not_mem_nil, or_false] at hmem
  obtain hlead | hlead | hlead | hlead | hlead | hlead := hmem <;> rw [hlead] at h <;> cases h

/-- A span which begins with a digit puts it in front of the digits behind the span. -/
theorem digits_cons_of_isDigit {span : Span Token} (h : span.lead.isDigit = true)
    (tokens : List Token) :
    Lexeme.digits (span.token :: tokens) = span.lead :: Lexeme.digits tokens := by
  have htoken : span.token.digit? = some span.lead := by
    rw [eq_single_of_isDigit h]
    exact if_pos h
  rw [Lexeme.digits, htoken]

/-- There are no digits in front of a span which begins with none. -/
theorem digits_cons_of_not_isDigit {span : Span Token} (h : span.lead.isDigit = false)
    (tokens : List Token) : Lexeme.digits (span.token :: tokens) = [] := by
  cases span with
  | single token =>
    cases token with
    | char c =>
      have hc : c.isDigit = false := h
      simp [Span.token, Lexeme.digits, Token.digit?, hc]
    | operand value => rfl
    | power exponent => rfl
  | enclosed fence content => rfl

/-- Digits end behind those with which the tokens of a range begin. -/
theorem digitsEnd_eq (hs : survey.Shows marks) (h : survey.Lays marks lo spans hi) :
    survey.digitsEnd lo hi = .ok (lo + (Lexeme.digits (Span.tokens spans)).length) := by
  induction spans generalizing lo with
  | nil =>
    cases h
    rw [digitsEnd, if_neg (Nat.lt_irrefl _)]
    rfl
  | cons span spans ih =>
    obtain ⟨next, hspan, hrest⟩ := Lays.cons_iff.mp h
    rw [digitsEnd, if_pos (hspan.lt.trans_le hrest.le), hs.item hspan.lead]
    show (if span.lead.isDigit then _ else _) = _
    cases hdigit : span.lead.isDigit with
    | true =>
      have hchar := eq_single_of_isDigit hdigit
      rw [hchar] at hspan
      have hnext := hspan.next_eq
      subst hnext
      rw [if_pos rfl, ih hrest, Span.tokens, digits_cons_of_isDigit hdigit, List.length_cons]
      congr 1
      omega
    | false =>
      rw [Span.tokens, digits_cons_of_not_isDigit hdigit]
      rfl

/-- Without digits behind a point there is no fraction. -/
theorem fraction_eq_nil (h : ∀ others, spans = .single (.char '.') :: others →
    Lexeme.digits (Span.tokens others) = []) : Lexeme.fraction (Span.tokens spans) = [] := by
  obtain hnone | ⟨rest, hrest, hdigits⟩ := Lexeme.fraction_cases (Span.tokens spans)
  · exact hnone
  · cases spans with
    | nil => cases hrest
    | cons span spans =>
      obtain ⟨htoken, rfl⟩ := List.cons.inj hrest
      rw [Span.token_eq_char htoken] at h
      exact absurd (h spans rfl) hdigits

/-- A fraction ends behind the one with which the tokens of a range begin. -/
theorem fractionEnd_eq (hs : survey.Shows marks) (h : survey.Lays marks lo spans hi) :
    survey.fractionEnd lo hi = .ok (lo + (Lexeme.fraction (Span.tokens spans)).length) := by
  rw [fractionEnd]
  by_cases hlt : lo + 1 < hi
  · rw [if_pos hlt]
    cases spans with
    | nil =>
      cases h
      omega
    | cons span spans =>
      obtain ⟨next, hspan, hrest⟩ := Lays.cons_iff.mp h
      rw [hs.item hspan.lead]
      show (if span.lead = '.' then _ else _) = _
      by_cases hpoint : span.lead = '.'
      · rw [if_pos hpoint]
        obtain rfl := (Span.lead_eq_iff (by decide)).mp hpoint
        have hnext := hspan.next_eq
        subst hnext
        cases spans with
        | nil =>
          cases hrest
          exact absurd hlt (Nat.lt_irrefl _)
        | cons span others =>
          obtain ⟨_, hdigit, -⟩ := Lays.cons_iff.mp hrest
          rw [hs.item hdigit.lead]
          show (if span.lead.isDigit then _ else _) = _
          cases hlead : span.lead.isDigit with
          | true =>
            have hdigits : Lexeme.digits (Span.tokens (span :: others)) ≠ [] := by
              rw [Span.tokens, digits_cons_of_isDigit hlead]
              exact List.cons_ne_nil _ _
            have hfraction := Lexeme.fraction_point hdigits
            rw [if_pos rfl, digitsEnd_eq hs hrest]
            show _ = Except.ok (lo + (Lexeme.fraction (.char '.' :: _)).length)
            rw [hfraction, List.length_cons]
            congr 1
            omega
          | false =>
            rw [fraction_eq_nil]
            · rfl
            · intro others heq
              cases heq
              rw [Span.tokens, digits_cons_of_not_isDigit hlead]
      · rw [if_neg hpoint, fraction_eq_nil]
        · rfl
        · intro others heq
          rw [(List.cons.inj heq).1] at hpoint
          exact absurd rfl hpoint
  · rw [if_neg hlt, fraction_eq_nil]
    · rfl
    · rintro others rfl
      obtain ⟨next, hspan, hrest⟩ := Lays.cons_iff.mp h
      have hnext := hspan.next_eq
      subst hnext
      -- nothing is left behind the point
      cases others with
      | nil => rfl
      | cons span others =>
        obtain ⟨_, hspan, hrest⟩ := Lays.cons_iff.mp hrest
        exact absurd (hspan.lt.trans_le hrest.le) hlt

/-- A numeral ends behind the one with which the tokens of a range begin. -/
theorem numeralEnd_eq (hs : survey.Shows marks) (h : survey.Lays marks lo spans hi) :
    survey.numeralEnd lo hi = .ok (lo + (Lexeme.numeral (Span.tokens spans)).length) := by
  obtain ⟨-, hsplit⟩ := Lexeme.eq_digits_append (Span.tokens spans)
  obtain ⟨others, hothers, hlaid, -⟩ := h.chars hs hsplit
  rw [numeralEnd, digitsEnd_eq hs h]
  refine (fractionEnd_eq hs hlaid).trans ?_
  rw [hothers, Lexeme.numeral, List.length_append, Nat.add_assoc]

end FormulaEditor.Survey
