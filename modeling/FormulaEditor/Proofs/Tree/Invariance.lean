import FormulaEditor.Proofs.Session
import FormulaEditor.Proofs.Tree.Growth
import FormulaEditor.Proofs.Tree.Removal

/-!
# Well-formedness is kept

The tree with an empty root is well-formed, and every primitive change keeps a tree well-formed. So
all trees which sessions lead to are well-formed (`Tree.Reachable.wellFormed`), whatever names are
passed to the calls and however many of them fail (`Tree.wellFormed_run`).
-/

set_option autoImplicit false

namespace FormulaEditor.Tree

/-- The nodes of the empty tree are the root and its start. -/
theorem node?_empty (y : NodeId) : empty.node? y = if y = root then some ⟨none, .expression [1]⟩
    else if y = 1 then some ⟨some root, .symbol .start⟩ else none := by
  match y with
  | 0 => rfl
  | 1 => rfl
  | y + 2 => rfl

/-- The empty tree is well-formed. -/
theorem wellFormed_empty : empty.WellFormed := by
  have hroot : empty.node? root = some ⟨none, .expression [1]⟩ := rfl
  have hstart : empty.node? 1 = some ⟨some root, .symbol .start⟩ := rfl
  have hcases : ∀ {y node}, empty.node? y = some node →
      y = root ∧ node = ⟨none, .expression [1]⟩ ∨ y = 1 ∧ node = ⟨some root, .symbol .start⟩ := by
    intro y node hy
    rw [node?_empty] at hy
    by_cases h0 : y = root
    · rw [if_pos h0] at hy
      exact Or.inl ⟨h0, (Option.some.inj hy).symm⟩
    · rw [if_neg h0] at hy
      by_cases h1 : y = 1
      · rw [if_pos h1] at hy
        exact Or.inr ⟨h1, (Option.some.inj hy).symm⟩
      · rw [if_neg h1] at hy
        cases hy
  have hground : empty.Grounded root := .orphan hroot rfl
  constructor
  case root => exact ⟨[1], hroot⟩
  case lists =>
    intro expression owner items hnode
    rcases hcases hnode with ⟨rfl, hnew⟩ | ⟨-, ⟨⟩⟩
    cases hnew
    exact ⟨List.nodup_singleton 1, 1, [], rfl, hstart, nofun⟩
  case listed =>
    intro id expression symbol hnode
    rcases hcases hnode with ⟨-, ⟨⟩⟩ | ⟨rfl, hnew⟩
    cases hnew
    exact ⟨none, [1], hroot, List.mem_singleton_self 1⟩
  case slots =>
    intro id parent symbol hnode
    rcases hcases hnode with ⟨-, ⟨⟩⟩ | ⟨-, hnew⟩
    cases hnew
    exact ⟨List.nodup_nil, nofun⟩
  case owned =>
    intro expression owner items hnode hne
    rcases hcases hnode with ⟨rfl, -⟩ | ⟨-, ⟨⟩⟩
    exact absurd rfl hne
  case grounded =>
    intro id hlive
    obtain ⟨node, hnode⟩ := isLive_iff.mp hlive
    rcases hcases hnode with ⟨rfl, -⟩ | ⟨rfl, -⟩
    · exact hground
    · exact .child hstart rfl hground

/-- Every primitive change keeps a tree well-formed. -/
theorem invariant_wellFormed : Invariant WellFormed where
  wellFormed h := h
  empty := wellFormed_empty
  clear := wellFormed_empty.congr fun id => node?_mark _ _ id
  pushSymbol stroke h := h.pushSymbol stroke
  moveAfter h hdest := h.moveAfter hdest
  delete h hdel := h.delete hdel
  unmark h := h.congr fun id => node?_unmark _ id

/-- Every tree to which a session leads is well-formed. -/
theorem Reachable.wellFormed {tree : Tree} (h : tree.Reachable) : tree.WellFormed :=
  invariant_wellFormed.reachable h

/-- After any sequence of calls, with any names and whether they succeed or fail, lists, slots and
parents agree, every expression begins with its only start, and every way up ends. -/
theorem wellFormed_run (calls : List Call) : (empty.run calls).WellFormed :=
  invariant_wellFormed.run wellFormed_empty calls

end FormulaEditor.Tree
