import FormulaEditor.Proofs.Line.Faults
import FormulaEditor.Proofs.Session
import FormulaEditor.Proofs.Tree.Positions

/-!
# Why an expression has no formula

A name which is not live, or which denotes a symbol, has no formula, nor has an expression with
nothing but its start. Apart from that an expression is refused for a fault of its line or of one
nested in it, or because the delimiters of one of them cannot be paired
(`Tree.Reachable.formula_refused_for`). Once they are paired, reading by positions never comes
across a fence which leaves its range or a delimiter without a partner.
-/

set_option autoImplicit false

namespace FormulaEditor.Tree

open Checked (StopsOnly)

/-- The delimiters of an expression cannot be paired, because of the one at a position. -/
def Mismatched (tree : Tree) (expression : NodeId) (position : Nat) : Prop :=
  ∃ precis c, tree.precis expression = .ok precis ∧
    Fence.partners precis = .error (.refused (.unmatchedDelimiter position)) ∧
    precis[position]? = some c ∧ c ∈ Fence.delimiters

/-- Why reading an expression by positions can stop. -/
inductive StopsFor (tree : Tree) (expression : NodeId) : Halt → Prop
  | line {halt : Halt} (fault : halt.OfLine) : StopsFor tree expression halt
  | empty {start : NodeId} (alone : tree.items expression = .ok [start]) :
      StopsFor tree expression (.refused .emptyExpression)
  | delimiter {nested : NodeId} {position : Nat} (inside : tree.Inside nested expression)
      (mismatched : tree.Mismatched nested position) :
      StopsFor tree expression (.refused (.unmatchedDelimiter position))

variable {tree : Tree} {expression id slot : NodeId} {owner : Option NodeId} {items : List NodeId}

/-! ## Composite symbols -/

/-- What is inside a symbol of an expression can also stop reading the expression. -/
theorem StopsFor.filled {read : Checked Formula} (h : StopsOnly (tree.StopsFor slot) read)
    (hinside : tree.Inside slot expression) :
    StopsOnly (tree.StopsFor expression) (Checked.filled read) := by
  cases read with
  | ok value => exact .ok value
  | error halt =>
    cases h halt rfl with
    | empty _ => exact .error (.line trivial)
    | delimiter inside mismatched =>
      exact .error (.delimiter (inside.trans hinside) mismatched)
    | line fault =>
      have hfilled : Checked.filled (.error halt) = .error halt := by
        cases halt with
        | refused error =>
          cases error with
          | emptyExpression => exact fault.elim
          | _ => rfl
        | _ => rfl
      rw [hfilled]
      exact .error (.line fault)

section

variable {kind : Halt → Prop} {read : NodeId → Checked Formula}

/-- The symbols of an expression are live, and reading their slots stops for reasons of a kind. -/
def SlotsStopOnly (tree : Tree) (kind : Halt → Prop) (read : NodeId → Checked Formula)
    (items : List NodeId) : Prop :=
  ∀ id ∈ items, ∃ symbol, tree.symbol id = .ok symbol ∧
    ∀ slot ∈ symbol.slots, StopsOnly kind (read slot)

/-- The symbol at a position of an expression is read on, if there is one. -/
theorem SlotsStopOnly.bind {α : Type} (h : tree.SlotsStopOnly kind read items)
    (hrange : kind .outOfRange) {next : Symbol → Checked α}
    (hnext : ∀ symbol : Symbol, (∀ slot ∈ symbol.slots, StopsOnly kind (read slot)) →
      StopsOnly kind (next symbol)) (position : Nat) :
    StopsOnly kind (do next (← Checked.answer (tree.symbol (← Checked.item items position)))) := by
  unfold Checked.item
  cases hitem : items[position]? with
  | none => exact .error hrange
  | some id =>
    obtain ⟨symbol, hsymbol, hslots⟩ := h id (List.mem_of_getElem? hitem)
    show StopsOnly kind (Checked.answer (tree.symbol id) >>= next)
    rw [hsymbol]
    exact hnext symbol hslots

/-- Looking up a composite symbol stops only for a fault of the line, or for a reason of its slots.
-/
theorem SlotsStopOnly.compositeAt (h : tree.SlotsStopOnly kind read items)
    (hkind : ∀ halt, halt.OfLine → kind halt) (position : Nat) :
    StopsOnly kind (tree.compositeAt read items position) := by
  refine h.bind (hkind _ trivial) (fun symbol hslots => ?_) position
  cases symbol with
  | start | atom _ | bracket _ | bar | superscript _ => exact .error (hkind _ trivial)
  | fraction numerator denominator =>
    exact (hslots numerator List.mem_cons_self).bind fun _ =>
      (hslots denominator (List.mem_cons_of_mem _ List.mem_cons_self)).bind fun _ => .ok _
  | radical radicand => exact (hslots radicand List.mem_cons_self).bind fun _ => .ok _

/-- Looking up an exponent stops only for a fault of the line, or for a reason of its slot. -/
theorem SlotsStopOnly.exponentAt (h : tree.SlotsStopOnly kind read items)
    (hkind : ∀ halt, halt.OfLine → kind halt) (position : Nat) :
    StopsOnly kind (tree.exponentAt read items position) := by
  refine h.bind (hkind _ trivial) (fun symbol hslots => ?_) position
  cases symbol with
  | start | atom _ | bracket _ | bar | fraction _ _ | radical _ => exact .error (hkind _ trivial)
  | superscript exponent => exact hslots exponent List.mem_cons_self

end

/-! ## Expressions -/

namespace WellFormed

/-- Reading an expression stops for a reason of its own, or for one of an expression nested in it.
-/
theorem stops_readWithin (h : tree.WellFormed) (fuel : Nat)
    (hnode : tree.node? expression = some ⟨owner, .expression items⟩) :
    StopsOnly (tree.StopsFor expression) (tree.readWithin fuel expression) := by
  induction fuel generalizing expression owner items with
  | zero => exact .error (.line trivial)
  | succ fuel ih =>
    have hslots : tree.SlotsStopOnly (tree.StopsFor expression)
        (fun id => Checked.filled (tree.readWithin fuel id)) items := by
      intro id hid
      obtain ⟨symbol, hsymbol⟩ := h.node?_of_mem hnode hid
      refine ⟨symbol, symbol_of_node? hsymbol, fun slot hslot => ?_⟩
      obtain ⟨⟨inner, hslotNode⟩, hslotParent, hidParent⟩ := h.slot_below hsymbol hslot
      exact StopsFor.filled (ih hslotNode) (((Inside.refl slot).parent hslotParent).parent hidParent)
    have hprecis := h.precis_eq hnode
    have hempty : ((items.map tree.token).map Token.precis).length ≤ 1 →
        tree.StopsFor expression (.refused .emptyExpression) := by
      intro hlength
      obtain ⟨first, others, rfl, -, -⟩ := (h.lists hnode).start
      simp only [List.map_cons, List.length_cons, List.length_map] at hlength
      obtain rfl := List.eq_nil_of_length_eq_zero (by omega : others.length = 0)
      exact .empty (items_of_node? hnode)
    rw [readWithin, hprecis]
    show StopsOnly _ (Fence.partners _ >>= _)
    refine StopsOnly.bind (fun halt hhalt => ?_) fun partners => ?_
    · obtain ⟨position, c, rfl, hc, hmem⟩ := Fence.stops_partners _ halt hhalt
      exact .delimiter (Inside.refl expression) ⟨_, c, hprecis, hhalt, hc, hmem⟩
    · rw [items_of_node? hnode]
      exact Survey.stops_read (fun _ => .line) hempty
        (hslots.compositeAt fun _ => .line) (hslots.exponentAt fun _ => .line)

/-- An expression is refused for a reason for which reading it by positions stops. -/
theorem stopsFor_of_formula (h : tree.WellFormed)
    (hnode : tree.node? expression = some ⟨owner, .expression items⟩) {error : Error}
    (herror : tree.formula expression = .error error) :
    tree.StopsFor expression (.refused error) := by
  refine h.stops_readWithin (tree.cells.size + 1) hnode (.refused error) ?_
  have hreading := h.reading_eq expression
  rw [herror] at hreading
  exact hreading

end WellFormed

/-! ## Names -/

/-- What is not live has no formula, since it is not found. -/
theorem formula_of_dead (h : tree.isLive id = false) : tree.formula id = .error .nodeNotFound := by
  have hnode : tree.node? id = none :=
    Option.isNone_iff_eq_none.mp (Option.isSome_eq_false_iff.mp h)
  rw [formula, items, node, hnode]
  rfl

/-- A symbol has no formula, since it is no expression. -/
theorem formula_of_symbol {symbol : Symbol} (h : tree.symbol id = .ok symbol) :
    tree.formula id = .error .invalidNode := by
  obtain ⟨parent, hnode⟩ := symbol_eq_ok_iff.mp h
  rw [formula, items, node, hnode]
  rfl

/-- An expression with nothing but its start is empty. -/
theorem formula_of_alone {start : NodeId} (h : tree.items id = .ok [start])
    (hstart : tree.symbol start = .ok .start) : tree.formula id = .error .emptyExpression := by
  rw [formula, h]
  show Token.formula (Glyph.tokens (tree.line id)) = _
  rw [line, lineWithin_succ, h]
  show Token.formula (Glyph.tokens ([start].filterMap _)) = _
  rw [List.filterMap_cons, hstart]
  rfl

/-- Every expression which is refused is empty, or there is a fault in a line or a delimiter without
a partner. -/
theorem StopsFor.error_cases {error : Error} (h : tree.StopsFor id (.refused error)) :
    (error = .emptyExpression ∧ ∃ start, tree.items id = .ok [start]) ∨
      (∃ fault, error = .cannotParse fault) ∨
      ∃ nested position, error = .unmatchedDelimiter position ∧ tree.Inside nested id ∧
        tree.Mismatched nested position := by
  cases h with
  | line fault =>
    cases error with
    | cannotParse reason => exact .inr (.inl ⟨reason, rfl⟩)
    | _ => exact fault.elim
  | empty alone => exact .inl ⟨rfl, _, alone⟩
  | delimiter inside mismatched => exact .inr (.inr ⟨_, _, rfl, inside, mismatched⟩)

/-- Whatever has no formula is refused for one of five reasons. -/
theorem WellFormed.refused_cases (h : tree.WellFormed) {error : Error}
    (herror : tree.formula id = .error error) :
    (error = .nodeNotFound ∧ tree.isLive id = false) ∨
      (error = .invalidNode ∧ ∃ symbol, tree.symbol id = .ok symbol) ∨
      (error = .emptyExpression ∧
        ∃ start, tree.items id = .ok [start] ∧ tree.symbol start = .ok .start) ∨
      (∃ fault, error = .cannotParse fault) ∨
      ∃ nested position, error = .unmatchedDelimiter position ∧ tree.Inside nested id ∧
        tree.Mismatched nested position := by
  cases hnode : tree.node? id with
  | none =>
    have hdead : tree.isLive id = false := by rw [isLive, hnode]; rfl
    rw [formula_of_dead hdead] at herror
    exact .inl ⟨(Except.error.inj herror).symm, hdead⟩
  | some node =>
    obtain ⟨parent, kind⟩ := node
    cases kind with
    | symbol symbol =>
      have hsymbol := symbol_of_node? hnode
      rw [formula_of_symbol hsymbol] at herror
      exact .inr (.inl ⟨(Except.error.inj herror).symm, symbol, hsymbol⟩)
    | expression items =>
      obtain ⟨rfl, start, halone⟩ | hfault := (h.stopsFor_of_formula hnode herror).error_cases
      · rw [items_of_node? hnode] at halone
        cases halone
        obtain ⟨first, others, hitems, hfirst, -⟩ := (h.lists hnode).start
        cases hitems
        exact .inr (.inr (.inl ⟨rfl, start, items_of_node? hnode, symbol_of_node? hfirst⟩))
      · exact .inr (.inr (.inr hfault))

/-- Why a name has no formula: it is not live, it denotes a symbol, its expression has nothing but
its start, or the line of its expression or of one nested in it has a fault or delimiters which
cannot be paired. After they have been paired, no fence is found to leave the range which is read,
and no delimiter to be without a partner. -/
theorem Reachable.formula_refused_for (h : tree.Reachable) (id : NodeId) :
    (tree.formula id = .error .nodeNotFound ↔ tree.isLive id = false) ∧
    (tree.formula id = .error .invalidNode ↔ ∃ symbol, tree.symbol id = .ok symbol) ∧
    (tree.formula id = .error .emptyExpression ↔
      ∃ start, tree.items id = .ok [start] ∧ tree.symbol start = .ok .start) ∧
    (∀ error, tree.formula id = .error error →
      error = .nodeNotFound ∨ error = .invalidNode ∨ error = .emptyExpression ∨
        (∃ fault, error = .cannotParse fault) ∨
        ∃ nested position, error = .unmatchedDelimiter position ∧ tree.Inside nested id ∧
          tree.Mismatched nested position) ∧
    tree.reading id = Checked.answer (tree.formula id) ∧
    ∀ position, tree.reading id ≠ .error (.straddled position) ∧
      tree.reading id ≠ .error (.unpaired position) := by
  have hcases := @h.wellFormed.refused_cases tree id
  have hreading := h.wellFormed.reading_eq id
  refine ⟨⟨fun herror => ?_, formula_of_dead⟩, ⟨fun herror => ?_, ?_⟩, ⟨fun herror => ?_, ?_⟩, ?_,
    hreading, fun position => ?_⟩
  · obtain ⟨-, h⟩ | ⟨⟨⟩, -⟩ | ⟨⟨⟩, -⟩ | ⟨_, ⟨⟩⟩ | ⟨_, _, ⟨⟩, -⟩ := hcases herror
    exact h
  · obtain ⟨⟨⟩, -⟩ | ⟨-, h⟩ | ⟨⟨⟩, -⟩ | ⟨_, ⟨⟩⟩ | ⟨_, _, ⟨⟩, -⟩ := hcases herror
    exact h
  · rintro ⟨symbol, hsymbol⟩
    exact formula_of_symbol hsymbol
  · obtain ⟨⟨⟩, -⟩ | ⟨⟨⟩, -⟩ | ⟨-, h⟩ | ⟨_, ⟨⟩⟩ | ⟨_, _, ⟨⟩, -⟩ := hcases herror
    exact h
  · rintro ⟨start, halone, hstart⟩
    exact formula_of_alone halone hstart
  · intro error herror
    obtain ⟨rfl, -⟩ | ⟨rfl, -⟩ | ⟨rfl, -⟩ | hfault := hcases herror
    · exact .inl rfl
    · exact .inr (.inl rfl)
    · exact .inr (.inr (.inl rfl))
    · exact .inr (.inr (.inr hfault))
  · rw [hreading]
    cases tree.formula id with
    | ok value => exact ⟨nofun, nofun⟩
    | error error => exact ⟨nofun, nofun⟩

/-- In a fraction which is typed with nothing but an opening bracket above, that bracket is the
reason why there is no formula. -/
theorem refused_open_numerator :
    let tree := empty.run [.create .fraction, .insertAfter 1 2, .create (.bracket .opening),
      .insertAfter 4 7]
    tree.Reachable ∧ tree.formula root = .error (.unmatchedDelimiter 1) ∧
      (∃ nested position, Error.unmatchedDelimiter 1 = .unmatchedDelimiter position ∧
        tree.Inside nested root ∧ tree.Mismatched nested position) ∧
      tree.formula 2 = .error .invalidNode ∧ tree.formula 5 = .error .emptyExpression ∧
      tree.formula 8 = .error .nodeNotFound := by
  intro tree
  have hreach : tree.Reachable := reachable_run _
  have hroot : tree.formula root = .error (.unmatchedDelimiter 1) := rfl
  obtain ⟨-, -, -, hfaults, -⟩ := hreach.formula_refused_for root
  obtain ⟨⟨⟩⟩ | ⟨⟨⟩⟩ | ⟨⟨⟩⟩ | ⟨_, ⟨⟩⟩ | hdelimiter := hfaults _ hroot
  have hsymbol := (hreach.formula_refused_for 2).2.1.mpr ⟨_, rfl⟩
  have halone := (hreach.formula_refused_for 5).2.2.1.mpr ⟨6, rfl, rfl⟩
  have hdead := (hreach.formula_refused_for 8).1.mpr rfl
  exact ⟨hreach, hroot, hdelimiter, hsymbol, halone, hdead⟩

end FormulaEditor.Tree
