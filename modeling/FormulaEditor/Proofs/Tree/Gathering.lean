import Mathlib.Data.List.TakeWhile
import FormulaEditor.Proofs.Session
import FormulaEditor.Proofs.Tree.Collecting

/-!
# What a numerator takes

Which symbols go into a numerator is decided by the characters before the fraction
(`Numerator.Collects`): a run of letters and digits which cannot be made longer, or a group of
brackets, found by counting backwards. These symbols are moved and nothing else changes
(`Tree.Gathered`): one move shifts a symbol from the end of one list to the front of another one,
and a whole run keeps its order because its last symbol is moved first.
-/

set_option autoImplicit false

namespace FormulaEditor

namespace Numerator

/-- What stands before a fraction is kept up to some point, and the run behind it goes into the
numerator. A run of letters and digits is as long as can be. A group ends with a closing bracket and
begins with the bracket with which, counted backwards, for the first time as many brackets have been
opened as closed. -/
inductive Collects : List Char → List Char → Prop
  | letters {kept run : List Char} (hne : run ≠ [])
      (hrun : ∀ c ∈ run, Text.isAlphanumeric c = true)
      (hkept : ∀ c ∈ kept.getLast?, Text.isAlphanumeric c = false) : Collects kept run
  | group {kept inner : List Char} (hclosed : inner.count ')' = inner.count '(')
      (hinner : ∀ n, (inner.drop n).count '(' ≤ (inner.drop n).count ')') :
      Collects kept ('(' :: (inner ++ [')']))

/-- A closing bracket begins one more group inside of which an opening one has to be found. -/
theorem groupLength_closing (depth : Nat) (precis : List Char) :
    groupLength depth (')' :: precis) = (groupLength (depth + 1) precis).map (· + 1) := by
  conv_lhs => unfold groupLength
  rw [if_pos rfl]

/-- An opening bracket ends one of several groups. -/
theorem groupLength_opening (outer : Nat) (precis : List Char) :
    groupLength (outer + 2) ('(' :: precis) = (groupLength (outer + 1) precis).map (· + 1) := by
  conv_lhs => unfold groupLength
  rw [if_neg (by decide), if_pos rfl]

/-- What is no bracket belongs to the group in which it stands. -/
theorem groupLength_plain {c : Char} (hclosing : c ≠ ')') (hopening : c ≠ '(') (depth : Nat)
    (precis : List Char) :
    groupLength depth (c :: precis) = (groupLength depth precis).map (· + 1) := by
  conv_lhs => unfold groupLength
  rw [if_neg hclosing, if_neg hopening]

/-- A numerator takes at least one character. -/
theorem Collects.ne_nil {kept run : List Char} (h : Collects kept run) : run ≠ [] := by
  cases h with
  | letters hne _ _ => exact hne
  | group _ _ => exact List.cons_ne_nil _ _

/-- A group goes, counted backwards, as far as the depth stays positive. -/
theorem groupLength_append {depth : Nat} {front rest : List Char}
    (hclosed : depth + front.count ')' = front.count '(')
    (hfront : ∀ n, (front.take n).count '(' ≤ depth + (front.take n).count ')') :
    groupLength (depth + 1) (front ++ '(' :: rest) = some (front.length + 1) := by
  induction front generalizing depth with
  | nil =>
    obtain rfl : depth = 0 := by simpa using hclosed
    rfl
  | cons c front ih =>
    have hrest : ∀ n, (c :: front.take n).count '(' ≤ depth + (c :: front.take n).count ')' :=
      fun n => hfront (n + 1)
    rw [List.cons_append, List.length_cons]
    by_cases hclosing : c = ')'
    · subst hclosing
      simp only [List.count_cons_self, List.count_cons_of_ne (by decide : ')' ≠ '(')]
        at hclosed hrest
      have hmore := @ih (depth + 1) (by omega) fun n => by
        have := hrest n
        omega
      rw [groupLength_closing, hmore]
      rfl
    by_cases hopening : c = '('
    · subst hopening
      simp only [List.count_cons_self, List.count_cons_of_ne (by decide : '(' ≠ ')')]
        at hclosed hrest
      obtain ⟨outer, rfl⟩ : ∃ outer, depth = outer + 1 := by
        have := hrest 0
        simp only [List.take_zero, List.count_nil] at this
        exact ⟨depth - 1, by omega⟩
      have hmore := @ih outer (by omega) fun n => by
        have := hrest n
        omega
      rw [groupLength_opening, hmore]
      rfl
    · simp only [List.count_cons_of_ne hclosing, List.count_cons_of_ne hopening]
        at hclosed hrest
      rw [groupLength_plain hclosing hopening, ih hclosed hrest]
      rfl

/-- If a group is found, the depth has stayed positive up to its opening bracket. -/
theorem exists_of_groupLength {depth count : Nat} {precis : List Char}
    (h : groupLength (depth + 1) precis = some count) :
    ∃ front rest, precis = front ++ '(' :: rest ∧ depth + front.count ')' = front.count '(' ∧
      ∀ n, (front.take n).count '(' ≤ depth + (front.take n).count ')' := by
  induction precis generalizing depth count with
  | nil => cases h
  | cons c precis ih =>
    by_cases hclosing : c = ')'
    · subst hclosing
      rw [groupLength_closing] at h
      obtain ⟨found, hfound, -⟩ := Option.map_eq_some_iff.mp h
      obtain ⟨front, rest, rfl, hclosed, hfront⟩ := ih hfound
      refine ⟨')' :: front, rest, rfl, ?_, fun n => ?_⟩
      · rw [List.count_cons_self, List.count_cons_of_ne (by decide)]
        omega
      · cases n with
        | zero => exact Nat.zero_le _
        | succ n =>
          have := hfront n
          rw [List.take_succ_cons, List.count_cons_self, List.count_cons_of_ne (by decide)]
          omega
    by_cases hopening : c = '('
    · subst hopening
      cases depth with
      | zero => exact ⟨[], precis, rfl, rfl, fun n => by simp⟩
      | succ outer =>
        rw [groupLength_opening] at h
        obtain ⟨found, hfound, -⟩ := Option.map_eq_some_iff.mp h
        obtain ⟨front, rest, rfl, hclosed, hfront⟩ := ih hfound
        refine ⟨'(' :: front, rest, rfl, ?_, fun n => ?_⟩
        · rw [List.count_cons_self, List.count_cons_of_ne (by decide)]
          omega
        · cases n with
          | zero => exact Nat.zero_le _
          | succ n =>
            have := hfront n
            rw [List.take_succ_cons, List.count_cons_self, List.count_cons_of_ne (by decide)]
            omega
    · rw [groupLength_plain hclosing hopening] at h
      obtain ⟨found, hfound, -⟩ := Option.map_eq_some_iff.mp h
      obtain ⟨front, rest, rfl, hclosed, hfront⟩ := ih hfound
      refine ⟨c :: front, rest, rfl, ?_, fun n => ?_⟩
      · rwa [List.count_cons_of_ne hclosing, List.count_cons_of_ne hopening]
      · cases n with
        | zero => exact Nat.zero_le _
        | succ n =>
          rw [List.take_succ_cons, List.count_cons_of_ne hclosing, List.count_cons_of_ne hopening]
          exact hfront n

/-- Beginnings of a text given backwards are ends of the text. -/
theorem count_take_reverse (text : List Char) (c : Char) (n : Nat) :
    (text.reverse.take n).count c = (text.drop (text.length - n)).count c := by
  rw [List.take_reverse, List.count_reverse]

/-- A group at the end of a text is found, from its last bracket to its first. -/
theorem groupLength_group (kept : List Char) {inner : List Char}
    (hclosed : inner.count ')' = inner.count '(')
    (hinner : ∀ n, (inner.drop n).count '(' ≤ (inner.drop n).count ')') :
    groupLength 0 (kept ++ '(' :: (inner ++ [')'])).reverse = some (inner.length + 2) := by
  have hgroup : groupLength 1 (inner.reverse ++ '(' :: kept.reverse) =
      some (inner.reverse.length + 1) := by
    refine groupLength_append ?_ fun n => ?_
    · rw [List.count_reverse, List.count_reverse, Nat.zero_add, hclosed]
    · rw [count_take_reverse, count_take_reverse, Nat.zero_add]
      exact hinner _
  have hreverse : (kept ++ '(' :: (inner ++ [')'])).reverse =
      ')' :: (inner.reverse ++ '(' :: kept.reverse) := by simp
  rw [hreverse, groupLength_closing, hgroup, List.length_reverse]
  rfl

/-- The run which a numerator takes is found. -/
theorem Collects.runLength_eq {kept run : List Char} (h : Collects kept run) :
    runLength (kept ++ run).reverse = run.length := by
  rw [List.reverse_append]
  cases h with
  | letters hne hrun hkept =>
    obtain rfl | ⟨front, c, rfl⟩ := List.eq_nil_or_concat run
    · exact absurd rfl hne
    have hletters : ∀ d ∈ (front.concat c).reverse, Text.isAlphanumeric d = true :=
      fun d hd => hrun d (List.mem_reverse.mp hd)
    have hstop : kept.reverse.takeWhile Text.isAlphanumeric = [] := by
      rw [List.takeWhile_eq_nil_iff]
      intro hlt
      have hhead : kept.getLast? = some kept.reverse[0] := by
        rw [← List.head?_reverse, List.head?_eq_getElem?, List.getElem?_eq_getElem hlt]
      rw [List.get_eq_getElem, hkept _ hhead]
      exact Bool.false_ne_true
    have hc : Text.isAlphanumeric c = true := hrun c (by simp)
    have hwhole : ((front.concat c).reverse ++ kept.reverse).takeWhile Text.isAlphanumeric =
        (front.concat c).reverse := by
      rw [List.takeWhile_append_of_pos hletters, hstop, List.append_nil]
    rw [List.concat_eq_append, List.reverse_concat, List.cons_append] at hwhole ⊢
    rw [runLength, if_pos hc, hwhole, List.length_cons, List.length_reverse, List.length_append,
      List.length_singleton]
  | @group inner hclosed hinner =>
    have hgroup := groupLength_group kept hclosed hinner
    have hreverse : (kept ++ '(' :: (inner ++ [')'])).reverse =
        ')' :: (inner.reverse ++ '(' :: kept.reverse) := by simp
    have hletter : Text.isAlphanumeric ')' = false := by decide +kernel
    rw [← List.reverse_append, hreverse, runLength, hletter, if_neg Bool.false_ne_true, if_pos rfl,
      ← hreverse, hgroup]
    simp

/-- If there is a run at all, it is one which a numerator takes. -/
theorem exists_collects {precis : List Char} (h : runLength precis.reverse ≠ 0) :
    ∃ kept run, precis = kept ++ run ∧ Collects kept run := by
  obtain rfl | ⟨front, c, rfl⟩ := List.eq_nil_or_concat precis
  · exact absurd rfl h
  rw [List.concat_eq_append] at h ⊢
  rw [List.reverse_concat, runLength] at h
  by_cases hletter : Text.isAlphanumeric c = true
  · have hsplit := List.takeWhile_append_dropWhile (p := Text.isAlphanumeric)
      (l := c :: front.reverse)
    have hwhole := congrArg List.reverse hsplit
    rw [List.reverse_append, List.reverse_cons, List.reverse_reverse] at hwhole
    refine ⟨_, _, hwhole.symm, .letters ?_ ?_ ?_⟩
    · rw [List.takeWhile_cons_of_pos hletter]
      simp
    · intro d hd
      exact List.mem_takeWhile_imp (List.mem_reverse.mp hd)
    · intro d hd
      rw [List.getLast?_reverse] at hd
      have hnot := List.head?_dropWhile_not Text.isAlphanumeric (c :: front.reverse)
      rw [Option.mem_def.mp hd] at hnot
      exact hnot
  rw [if_neg hletter] at h
  by_cases hclosing : c = ')'
  · subst hclosing
    rw [if_pos rfl, groupLength_closing] at h
    cases hgroup : groupLength 1 front.reverse with
    | none =>
      rw [hgroup] at h
      exact absurd rfl h
    | some count =>
      obtain ⟨inner, kept, hsplit, hclosed, hinner⟩ := exists_of_groupLength hgroup
      have hfront : front = kept.reverse ++ '(' :: inner.reverse := by
        rw [← List.reverse_reverse front, hsplit]
        simp
      refine ⟨kept.reverse, '(' :: (inner.reverse ++ [')']), by rw [hfront]; simp, .group ?_ ?_⟩
      · rw [List.count_reverse, List.count_reverse, ← hclosed, Nat.zero_add]
      · intro n
        have hbound := hinner (inner.length - n)
        rw [Nat.zero_add] at hbound
        rwa [List.drop_reverse, List.count_reverse, List.count_reverse]
  · rw [if_neg hclosing] at h
    exact absurd rfl h

/-- Whether the end of a list goes into a numerator is decided by the characters which stand for its
members. -/
theorem collects_take_drop_iff {α : Type} {items : List α} {precis : List Char}
    (hlength : precis.length = items.length) :
    (∃ kept run, items = kept ++ run ∧
      Collects (precis.take kept.length) (precis.drop kept.length)) ↔
      ∃ kept run, precis = kept ++ run ∧ Collects kept run := by
  constructor
  · rintro ⟨kept, run, -, hcollects⟩
    exact ⟨_, _, (List.take_append_drop kept.length precis).symm, hcollects⟩
  · rintro ⟨kept, run, rfl, hcollects⟩
    have hkept : (items.take kept.length).length = kept.length := by
      rw [List.length_append] at hlength
      rw [List.length_take]
      omega
    refine ⟨_, _, (List.take_append_drop kept.length items).symm, ?_⟩
    rwa [hkept, List.take_left, List.drop_left]

end Numerator

namespace Tree

variable {tree grown : Tree} {id expression numerator denominator start top : NodeId}
  {owner above : Option NodeId} {symbol : Symbol}
  {before after front back inside kept run remaining gathered : List NodeId} {precis : List Char}

/-- A run of symbols has got another parent, which has got another list, as has the expression from
which they come, and everything else is as it was. -/
structure Gathered (tree grown : Tree) (run : List NodeId) (expression numerator : NodeId)
    (remaining gathered : List NodeId) : Prop where
  listing : grown.node? expression =
    (tree.node? expression).map (.mapItems fun _ => remaining)
  filled : grown.node? numerator = (tree.node? numerator).map (.mapItems fun _ => gathered)
  moved : ∀ y ∈ run, grown.node? y = (tree.node? y).map (.withParent (some numerator))
  rest : ∀ y, y ∉ run → y ≠ expression → y ≠ numerator → grown.node? y = tree.node? y

/-! ## One move -/

/-- A symbol which is moved from one expression directly behind the start of another one. -/
theorem WellFormed.gathered_moveAfter (h : tree.WellFormed)
    (hid : tree.node? id = some ⟨some expression, .symbol symbol⟩)
    (hexpression : tree.node? expression = some ⟨owner, .expression (front ++ id :: back)⟩)
    (hnumerator : tree.node? numerator = some ⟨above, .expression (start :: inside)⟩)
    (hne : numerator ≠ expression) :
    Gathered tree (tree.moveAfter start id numerator) [id] expression numerator (front ++ back)
      (start :: id :: inside) := by
  have hdetach := relisting_detach hid hexpression
  have hidNumerator : numerator ≠ id := by
    rintro rfl
    rw [hid] at hnumerator
    cases hnumerator
  have hnumerator' := (hdetach.node?_rest hidNumerator hne).trans hnumerator
  have hattach := relisting_attach hdetach.node?_moved hnumerator' List.mem_cons_self
  have hmove : tree.moveAfter start id numerator =
      (tree.detach id expression).attach start id numerator := by
    rw [Tree.moveAfter, Tree.released, parent?_of_node? hid]
  have herase : (front ++ id :: back).erase id = front ++ back := by
    rw [List.erase_append_right _ (h.notMem_of_split hexpression), List.erase_cons_head]
  have hsplice : spliceAfter start id (start :: inside) = start :: id :: inside := if_pos rfl
  rw [hmove]
  refine ⟨?_, ?_, ?_, ?_⟩
  · rw [hattach.node?_rest hdetach.expression_ne (Ne.symm hne), hdetach.node?_listing, hexpression,
      herase]
    rfl
  · rw [hattach.node?_listing, hnumerator, hsplice]
    rfl
  · refine List.forall_mem_singleton.mpr ?_
    rw [hattach.node?_moved, hid]
    rfl
  · intro y hy hyExpression hyNumerator
    have hyId : y ≠ id := fun heq => hy (heq ▸ List.mem_cons_self)
    rw [hattach.node?_rest hyId hyNumerator, hdetach.node?_rest hyId hyExpression]

/-! ## A whole run -/

/-- Two runs which are moved one after the other are one run. -/
theorem Gathered.trans {middle : Tree} {later : List NodeId}
    (h : Gathered tree middle later expression numerator remaining gathered)
    {remaining' gathered' : List NodeId}
    (h' : Gathered middle grown run expression numerator remaining' gathered')
    (hrun : ∀ y ∈ run, y ∉ later ∧ y ≠ expression ∧ y ≠ numerator)
    (hlater : ∀ y ∈ later, y ≠ expression ∧ y ≠ numerator) :
    Gathered tree grown (run ++ later) expression numerator remaining' gathered' := by
  have htwice : ∀ (node : Option Node) (items items' : List NodeId),
      (node.map (Node.mapItems fun _ => items)).map (Node.mapItems fun _ => items') =
        node.map (Node.mapItems fun _ => items') := by
    intro node items items'
    rw [Option.map_map]
    congr 1
    funext ⟨parent, kind⟩
    cases kind <;> rfl
  refine ⟨?_, ?_, fun y hy => ?_, fun y hy hyExpression hyNumerator => ?_⟩
  · rw [h'.listing, h.listing, htwice]
  · rw [h'.filled, h.filled, htwice]
  · by_cases hmem : y ∈ run
    · obtain ⟨hyLater, hyExpression, hyNumerator⟩ := hrun y hmem
      rw [h'.moved y hmem, h.rest y hyLater hyExpression hyNumerator]
    · have hyLater := (List.mem_append.mp hy).resolve_left hmem
      obtain ⟨hyExpression, hyNumerator⟩ := hlater y hyLater
      rw [h'.rest y hmem hyExpression hyNumerator, h.moved y hyLater]
  · obtain ⟨hyRun, hyLater⟩ := not_or.mp (List.mem_append.not.mp hy)
    rw [h'.rest y hyRun hyExpression hyNumerator, h.rest y hyLater hyExpression hyNumerator]

/-- A run is moved to the front of a numerator, from its last symbol to its first, and keeps its
order. -/
theorem Collectable.run_gather {fraction : NodeId} (h : tree.WellFormed)
    (hrun : tree.Collectable top fraction expression run.reverse)
    (hexpression : tree.node? expression = some ⟨owner, .expression (front ++ (run ++ back))⟩)
    (hnumerator : tree.node? numerator = some ⟨some fraction, .expression (top :: inside)⟩) :
    ∃ grown, (run.reverse.forM (insertAfter top)).run tree = .ok () grown ∧ grown.WellFormed ∧
      Gathered tree grown run expression numerator (front ++ back) (top :: (run ++ inside)) := by
  induction run using List.reverseRecOn generalizing tree inside with
  | nil =>
    refine ⟨tree, rfl, h, ?_, ?_, nofun, fun _ _ _ _ => rfl⟩
    · rw [hexpression]
      rfl
    · rw [hnumerator]
      rfl
  | append_singleton run id ih =>
    rw [List.reverse_append, List.reverse_singleton, List.singleton_append] at hrun ⊢
    have hsymbols : ∀ y ∈ id :: run.reverse, y ≠ expression ∧ y ≠ numerator := by
      intro y hy
      obtain ⟨-, symbol, -, hnode⟩ := hrun.items y hy
      constructor
      · rintro rfl
        rw [hexpression] at hnode
        cases hnode
      · rintro rfl
        rw [hnumerator] at hnode
        cases hnode
    have hne : numerator ≠ expression := by
      rintro rfl
      have hground := h.grounded (isLive_iff.mpr ⟨_, hnumerator⟩)
      exact hground.acyclic (parent?_of_node? hnumerator) (.of_parent hrun.place)
    obtain ⟨numerator', hdest, hrest⟩ := hrun.step h
    obtain rfl : numerator' = numerator := by
      obtain ⟨-, -, -, index, hposition⟩ := destination_eq_ok_iff.mp hdest
      obtain ⟨_, htop⟩ := h.node?_of_position hposition
      obtain ⟨_, htop'⟩ := h.node?_of_mem hnumerator List.mem_cons_self
      rw [htop] at htop'
      cases htop'
      rfl
    obtain ⟨-, symbol, -, hid⟩ := hrun.items id List.mem_cons_self
    have hsplit : front ++ (run ++ [id] ++ back) = front ++ run ++ id :: back := by simp
    rw [hsplit] at hexpression
    have hmove := h.gathered_moveAfter hid hexpression hnumerator hne
    have hexpression' : (tree.moveAfter top id numerator').node? expression =
        some ⟨owner, .expression (front ++ (run ++ back))⟩ := by
      rw [hmove.listing, hexpression, List.append_assoc]
      rfl
    have hnumerator' : (tree.moveAfter top id numerator').node? numerator' =
        some ⟨some fraction, .expression (top :: id :: inside)⟩ := by
      rw [hmove.filled, hnumerator]
      rfl
    obtain ⟨grown, hgrown, hwellFormed, hgathered⟩ :=
      ih (h.moveAfter hdest) hrest hexpression' hnumerator'
    refine ⟨grown, ?_, hwellFormed, ?_⟩
    · show ((insertAfter top id >>= fun _ => run.reverse.forM (insertAfter top)).run tree) = _
      rw [EStateM.run_bind, h.run_insertAfter, hdest]
      exact hgrown
    · have hfresh := (List.nodup_cons.mp hrun.nodup).1
      have hboth := hmove.trans hgathered
        (fun y hy => ⟨fun hmem => hfresh (List.mem_singleton.mp hmem ▸ List.mem_reverse.mpr hy),
          hsymbols y (List.mem_cons_of_mem _ (List.mem_reverse.mpr hy))⟩)
        (List.forall_mem_singleton.mpr (hsymbols id List.mem_cons_self))
      simpa using hboth

/-! ## The whole edit -/

namespace WellFormed

section

variable (h : tree.WellFormed)
  (hid : tree.node? id = some ⟨some expression, .symbol (.fraction numerator denominator)⟩)
  (hexpression : tree.node? expression =
    some ⟨owner, .expression (start :: (before ++ id :: after))⟩)
  (hnumerator : tree.node? numerator = some ⟨some id, .expression (top :: inside)⟩)
  (hprecis : before.mapM (fun item => return (← tree.symbol item).precis) = .ok precis)

include h hid hexpression hnumerator hprecis

/-- What goes into a numerator are the last symbols before the fraction, as many as the run is
long. -/
theorem numeratorRun_eq : tree.numeratorRun id =
    .ok (before.drop (before.length - Numerator.runLength precis.reverse), top) := by
  have hsplit : tree.node? expression =
      some ⟨owner, .expression ((start :: before) ++ id :: after)⟩ := hexpression
  have hposition := h.position_of_split hid hsplit
  rw [List.length_cons] at hposition
  have hfirst : tree.first numerator = .ok top := by
    rw [first, items_of_node? hnumerator]
    rfl
  have htake : ((start :: (before ++ id :: after)).take (before.length + 1)).drop 1 = before := by
    simp
  simp only [numeratorRun, symbol_of_node? hid, bind, Except.bind, hposition,
    items_of_node? hexpression, htake, hfirst] at hprecis ⊢
  rw [hprecis]
  rfl

/-- The run which a numerator takes is moved into it, and nothing else changes. -/
theorem run_fillNumerator_of_collects (hbefore : before = kept ++ run)
    (hcollects : Numerator.Collects (precis.take kept.length) (precis.drop kept.length)) :
    ∃ grown, (fillNumerator id).run tree = .ok true grown ∧ grown.WellFormed ∧
      Gathered tree grown run expression numerator (start :: (kept ++ id :: after))
        (top :: (run ++ inside)) := by
  subst hbefore
  have hlength := length_of_mapM hprecis
  rw [List.length_append] at hlength
  have hcount := hcollects.runLength_eq
  rw [List.take_append_drop, List.length_drop, hlength, Nat.add_sub_cancel_left] at hcount
  have hfound := h.numeratorRun_eq hid hexpression hnumerator hprecis
  rw [hcount, List.length_append, Nat.add_sub_cancel, List.drop_left] at hfound
  obtain ⟨_, _, hfound', hcollectable⟩ := h.exists_numeratorRun hid
  rw [hfound] at hfound'
  cases hfound'
  have hsplit : start :: (kept ++ run ++ id :: after) =
      (start :: kept) ++ (run ++ id :: after) := by simp
  rw [hsplit] at hexpression
  obtain ⟨grown, hgrown, hwellFormed, hgathered⟩ :=
    hcollectable.reverse.run_gather h hexpression hnumerator
  have hne : run ≠ [] := by
    rintro rfl
    rw [List.length_nil, Nat.add_zero] at hlength
    exact hcollects.ne_nil (List.drop_eq_nil_iff.mpr (Nat.le_of_eq hlength))
  refine ⟨grown, ?_, hwellFormed, hgathered⟩
  rw [fillNumerator, EStateM.run_bind, Edit.run_look, hfound]
  show ((run.reverse.forM (insertAfter top) >>= fun _ => pure (!run.isEmpty)).run tree) = _
  rw [EStateM.run_bind, hgrown, List.isEmpty_eq_false_iff.mpr hne]
  rfl

/-- Without a run which a numerator takes nothing changes at all. -/
theorem run_fillNumerator_of_none (hnone : ∀ kept run, before = kept ++ run →
    ¬Numerator.Collects (precis.take kept.length) (precis.drop kept.length)) :
    (fillNumerator id).run tree = .ok false tree := by
  have hcount : Numerator.runLength precis.reverse = 0 := by
    by_contra hcount
    obtain ⟨kept, run, hbefore, hcollects⟩ :=
      (Numerator.collects_take_drop_iff (length_of_mapM hprecis)).mpr
        (Numerator.exists_collects hcount)
    exact hnone kept run hbefore hcollects
  have hfound := h.numeratorRun_eq hid hexpression hnumerator hprecis
  rw [hcount, Nat.sub_zero, List.drop_length] at hfound
  rw [fillNumerator, EStateM.run_bind, Edit.run_look, hfound]
  rfl

/-- Filling a numerator changes nothing, or moves the end of what is before the fraction. -/
theorem fillNumerator_cases {collected : Bool}
    (hrun : (fillNumerator id).run tree = .ok collected grown) :
    grown = tree ∨ ∃ kept run, before = kept ++ run ∧ grown.WellFormed ∧
      Gathered tree grown run expression numerator (start :: (kept ++ id :: after))
        (top :: (run ++ inside)) := by
  by_cases hcollects : ∃ kept run, before = kept ++ run ∧
      Numerator.Collects (precis.take kept.length) (precis.drop kept.length)
  · obtain ⟨kept, run, hbefore, hcollects⟩ := hcollects
    obtain ⟨gathered, hfill, hwellFormed, hgathered⟩ :=
      h.run_fillNumerator_of_collects hid hexpression hnumerator hprecis hbefore hcollects
    rw [hrun] at hfill
    cases hfill
    exact .inr ⟨kept, run, hbefore, hwellFormed, hgathered⟩
  · have hfill := h.run_fillNumerator_of_none hid hexpression hnumerator hprecis
      fun kept run hbefore hrun => hcollects ⟨kept, run, hbefore, hrun⟩
    rw [hrun] at hfill
    cases hfill
    exact .inl rfl

end

end WellFormed

/-- What stands around a fraction: the symbols before and after it in its expression, the symbols in
its numerator already, and the characters of those before it. -/
structure Site (tree : Tree) (id expression numerator start : NodeId) (before after : List NodeId)
    (top : NodeId) (inside : List NodeId) (precis : List Char) : Prop where
  listing : tree.items expression = .ok (start :: (before ++ id :: after))
  slot : tree.items numerator = .ok (top :: inside)
  read : before.mapM (fun item => return (← tree.symbol item).precis) = .ok precis

/-- A fraction in an expression of any tree to which a session leads takes the symbols before it
which a numerator takes, in their order, in front of those which are in its numerator already. Their
parent is the only thing about them which changes, and of all other nodes only the lists of the two
expressions change. If there is nothing to take, the tree is left as it is, with its marks. -/
theorem Reachable.fillNumerator_takes (h : tree.Reachable)
    (hid : tree.symbol id = .ok (.fraction numerator denominator)) {items : List NodeId}
    (hitems : tree.items expression = .ok items) (hmem : id ∈ items) :
    (∃ start before after top inside precis,
      tree.Site id expression numerator start before after top inside precis) ∧
    ∀ start before after top inside precis,
      tree.Site id expression numerator start before after top inside precis →
        tree.symbol start = .ok .start ∧ tree.symbol top = .ok .start ∧
        (∀ kept run, before = kept ++ run →
          Numerator.Collects (precis.take kept.length) (precis.drop kept.length) →
            ∃ grown, (fillNumerator id).run tree = .ok true grown ∧
              Gathered tree grown run expression numerator (start :: (kept ++ id :: after))
                (top :: (run ++ inside))) ∧
        ((∀ kept run, before = kept ++ run →
          ¬Numerator.Collects (precis.take kept.length) (precis.drop kept.length)) →
            (fillNumerator id).run tree = .ok false tree) := by
  have hwell := h.wellFormed
  obtain ⟨owner, hexpression⟩ := items_eq_ok_iff.mp hitems
  obtain ⟨symbol, hnode⟩ := hwell.node?_of_mem hexpression hmem
  rw [symbol_of_node? hnode] at hid
  cases hid
  obtain ⟨list, hnumerator⟩ := (hwell.slots hnode).2 numerator List.mem_cons_self
  obtain ⟨top, inside, rfl, htop, -⟩ := (hwell.lists hnumerator).start
  constructor
  · obtain ⟨start, before, after, hlisting, -⟩ := hwell.exists_front hnode
    obtain ⟨_, hfront⟩ := items_eq_ok_iff.mp hlisting
    obtain ⟨precis, hprecis⟩ := hwell.exists_precis hfront fun item hitem =>
      List.mem_cons_of_mem start (List.mem_append_left _ hitem)
    exact ⟨start, before, after, top, inside, precis, hlisting, items_of_node? hnumerator, hprecis⟩
  · rintro start before after top' inside' precis ⟨hlisting, hslot, hprecis⟩
    rw [items_of_node? hnumerator] at hslot
    cases hslot
    rw [hitems] at hlisting
    cases hlisting
    obtain ⟨first, others, hfirst, hstart, -⟩ := (hwell.lists hexpression).start
    cases hfirst
    refine ⟨symbol_of_node? hstart, symbol_of_node? htop, fun kept run hbefore hcollects => ?_,
      fun hnone => ?_⟩
    · obtain ⟨grown, hgrown, -, hgathered⟩ := hwell.run_fillNumerator_of_collects hnode hexpression
        hnumerator hprecis hbefore hcollects
      exact ⟨grown, hgrown, hgathered⟩
    · exact hwell.run_fillNumerator_of_none hnode hexpression hnumerator hprecis hnone

set_option maxRecDepth 10000 in
/-- From what is typed as `2*(a)` in front of a fraction with the numerator `b`, the brackets and
what is between them go into the numerator. -/
theorem fillNumerator_takes_brackets :
    let tree := empty.run
      [.create (.atom '2'), .insertAfter 1 2, .create (.atom '*'), .insertAfter 2 3,
        .create (.bracket .opening), .insertAfter 3 4, .create (.atom 'a'), .insertAfter 4 5,
        .create (.bracket .closing), .insertAfter 5 6, .create .fraction, .insertAfter 6 7,
        .create (.atom 'b'), .insertAfter 9 12]
    tree.Reachable ∧ tree.symbol 7 = .ok (.fraction 8 10) ∧
      tree.items root = .ok [1, 2, 3, 4, 5, 6, 7] ∧
      ∃ grown, (fillNumerator 7).run tree = .ok true grown ∧
        Gathered tree grown [4, 5, 6] root 8 [1, 2, 3, 7] [9, 4, 5, 6, 12] := by
  intro tree
  have hreach : tree.Reachable := reachable_run _
  have hid : tree.symbol 7 = .ok (.fraction 8 10) := rfl
  have hitems : tree.items root = .ok [1, 2, 3, 4, 5, 6, 7] := rfl
  have hsite : tree.Site 7 root 8 1 [2, 3, 4, 5, 6] [] 9 [12] ['2', '*', '(', 'a', ')'] :=
    ⟨rfl, rfl, rfl⟩
  have hcollects : Numerator.Collects ['2', '*'] ['(', 'a', ')'] :=
    @Numerator.Collects.group _ ['a'] rfl fun n => by cases n <;> simp
  have hall := (hreach.fillNumerator_takes hid hitems (by decide)).2 _ _ _ _ _ _ hsite
  exact ⟨hreach, hid, hitems, hall.2.2.1 [2, 3] [4, 5, 6] rfl hcollects⟩

end Tree

end FormulaEditor
