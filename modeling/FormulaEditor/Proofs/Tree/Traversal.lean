import FormulaEditor.Proofs.Tree.Display
import FormulaEditor.Proofs.Tree.Sideways
import Mathlib.Data.List.Chain

/-!
# Going through a line

The way through an expression passes its symbols one by one, and before each composite symbol the
way through its first slot (`Tree.route`). From each symbol on it to the next one leads a move to the
right, and a move to the left leads back (`Tree.WellFormed.isChain_route`). So the way through the
root is what a cursor passes which keeps moving, and no cursor can miss its ends, wherever it starts
(`Tree.Reachable.arrows_traverse`).
-/

set_option autoImplicit false

namespace FormulaEditor.Tree

variable {tree : Tree} {u v w id expression slot start next finish : NodeId}
  {direction : Direction} {owner : Option NodeId} {symbol : Symbol}
  {items slots front back visits : List NodeId}

/-! ## The way through an expression -/

/-- The symbols on the way past a symbol: those on the way through its first slot, if it has one, and
then the symbol itself. -/
def passing (tree : Tree) (route : NodeId → List NodeId) (id : NodeId) : List NodeId :=
  ((tree.symbol id).toOption.bind (·.slots.head?)).elim [] route ++ [id]

/-- The symbols on the way through an expression, as far as the fuel goes. -/
def routeWithin (tree : Tree) : Nat → NodeId → List NodeId
  | 0, _ => []
  | fuel + 1, expression =>
    ((tree.items expression).toOption.getD []).flatMap (tree.passing (routeWithin tree fuel))

/-- The symbols on the way through an expression, from its start to its end. -/
def route (tree : Tree) (expression : NodeId) : List NodeId :=
  tree.routeWithin (tree.cells.size + 1) expression

/-- Past a symbol without slots there is only this symbol. -/
theorem passing_plain {route : NodeId → List NodeId} (hid : tree.symbol id = .ok symbol)
    (plain : symbol.slots = []) : tree.passing route id = [id] := by
  simp [passing, hid, plain, Except.toOption]

/-- The way past a symbol with slots goes through the first one. -/
theorem passing_slot {route : NodeId → List NodeId} (hid : tree.symbol id = .ok symbol)
    (hslots : symbol.slots = slot :: slots) : tree.passing route id = route slot ++ [id] := by
  simp [passing, hid, hslots, Except.toOption]

/-- The way past a symbol ends with the symbol. -/
theorem mem_passing (tree : Tree) (route : NodeId → List NodeId) (id : NodeId) :
    id ∈ tree.passing route id := by
  simp [passing]

/-- The way past a symbol depends only on the ways through its slots. -/
theorem passing_congr {route other : NodeId → List NodeId} (hid : tree.symbol id = .ok symbol)
    (h : ∀ slot ∈ symbol.slots, route slot = other slot) :
    tree.passing route id = tree.passing other id := by
  cases hslots : symbol.slots with
  | nil => rw [passing_plain hid hslots, passing_plain hid hslots]
  | cons slot slots =>
    rw [passing_slot hid hslots, passing_slot hid hslots, h slot (by simp [hslots])]

namespace WellFormed

/-- The way through an expression leads past its symbols. -/
theorem route_eq (h : tree.WellFormed)
    (hnode : tree.node? expression = some ⟨owner, .expression items⟩) :
    tree.route expression = items.flatMap (tree.passing tree.route) := by
  have hitems : (tree.items expression).toOption.getD [] = items := by
    rw [items_of_node? hnode]
    rfl
  rw [route, routeWithin, hitems]
  refine List.flatMap_congr fun id hid => ?_
  obtain ⟨symbol, hsymbol⟩ := h.node?_of_mem hnode hid
  refine passing_congr (symbol_of_node? hsymbol) fun slot hslot => ?_
  obtain ⟨⟨inner, hslotNode⟩, hslotParent, hidParent⟩ := h.slot_below hsymbol hslot
  have hlength := (h.grounded (isLive_iff.mpr ⟨_, hslotNode⟩)).length_ancestors hslotParent
  refine h.walk_eq (fun {fuel more _ _ _} hnode hslots => ?_) hslotNode (by omega) (by omega)
  rw [routeWithin, routeWithin, items_of_node? hnode]
  refine List.flatMap_congr fun id hid => ?_
  obtain ⟨symbol, hsymbol⟩ := h.node?_of_mem hnode hid
  have hid' := symbol_of_node? hsymbol
  exact passing_congr hid' (hslots id hid symbol hid')

/-- The way through an expression begins at its start. -/
theorem route_of_first (h : tree.WellFormed)
    (hnode : tree.node? expression = some ⟨owner, .expression (start :: items)⟩) :
    tree.route expression = start :: items.flatMap (tree.passing tree.route) := by
  rw [h.route_eq hnode, List.flatMap_cons, passing_plain (h.start_of_list hnode) rfl]
  rfl

/-- The way through an expression ends at its last symbol. -/
theorem getLast?_route (h : tree.WellFormed)
    (hnode : tree.node? expression = some ⟨owner, .expression (front ++ [u])⟩) :
    (tree.route expression).getLast? = some u := by
  simp [h.route_eq hnode, passing]

/-- The way through an expression passes all of its symbols. -/
theorem mem_route (h : tree.WellFormed)
    (hnode : tree.node? expression = some ⟨owner, .expression items⟩) (hu : u ∈ items) :
    u ∈ tree.route expression := by
  rw [h.route_eq hnode]
  exact List.mem_flatMap.mpr ⟨u, hu, tree.mem_passing _ u⟩

end WellFormed

/-! ## Step by step -/

/-- A move to the right leads from the one symbol to the other, and a move to the left back. -/
structure Joined (tree : Tree) (u v : NodeId) : Prop where
  right : tree.StepsRight u v
  left : tree.StepsLeft v u

namespace WellFormed

/-- From each symbol on the way past what stands behind a symbol a move leads to the next one, if it
does on the way through every slot further down. -/
theorem isChain_behind (h : tree.WellFormed)
    (hslots : ∀ {id slot items}, tree.parent? id = some expression →
      tree.node? slot = some ⟨some id, .expression items⟩ →
        (tree.route slot).IsChain tree.Joined)
    (hnode : tree.node? expression = some ⟨owner, .expression (front ++ u :: back)⟩) :
    (u :: back.flatMap (tree.passing tree.route)).IsChain tree.Joined := by
  induction back generalizing front u with
  | nil => exact List.isChain_singleton u
  | cons next back ih =>
    have hnext : next ∈ front ++ u :: next :: back := by simp
    obtain ⟨symbol, hid⟩ := h.node?_of_mem hnode hnext
    have hsymbol := symbol_of_node? hid
    have hnode' : tree.node? expression =
        some ⟨owner, .expression (front ++ [u] ++ next :: back)⟩ := by simpa using hnode
    have hrest := ih hnode'
    rw [List.flatMap_cons]
    obtain hplain | ⟨slot, slots, items, hslot, hitems⟩ := h.slots_cases hsymbol
    · rw [passing_plain hsymbol hplain]
      have hjoined : tree.Joined u next :=
        ⟨.next hnode hsymbol hplain, .previous hnode hsymbol hplain⟩
      exact List.isChain_cons_cons.mpr ⟨hjoined, hrest⟩
    · obtain ⟨start, others, hfirst, -, -⟩ := (h.lists hitems).start
      obtain ⟨inner, last, hlast⟩ := h.exists_concat hitems
      have hstart := hfirst ▸ hitems
      have hend := hlast ▸ hitems
      have hinto : tree.Joined u start :=
        ⟨.into hnode hsymbol hslot hstart, .out hstart hnode⟩
      have hout : tree.Joined last next :=
        ⟨.out hend, .into hsymbol hslot hend⟩
      have hinner := hslots (parent?_of_node? hid) hitems
      have hroute := h.route_of_first hstart
      have hroute' := h.getLast?_route hend
      rw [passing_slot hsymbol hslot, List.append_assoc, ← List.cons_append]
      refine List.isChain_append.mpr ⟨?_, hrest, ?_⟩
      · rw [hroute] at hinner ⊢
        exact List.isChain_cons_cons.mpr ⟨hinto, hinner⟩
      · rw [List.getLast?_cons, hroute']
        simpa using hout

/-- From each symbol on the way through an expression a move to the right leads to the next one, and
a move to the left leads back. -/
theorem isChain_route (h : tree.WellFormed)
    (hnode : tree.node? expression = some ⟨owner, .expression items⟩) :
    (tree.route expression).IsChain tree.Joined := by
  induction expression using h.wellFounded_child.transGen.induction generalizing owner items with
  | _ expression ih =>
    obtain ⟨start, others, rfl, -, -⟩ := (h.lists hnode).start
    rw [h.route_of_first hnode]
    rw [← List.nil_append (start :: others)] at hnode
    refine h.isChain_behind (fun hid hslot => ?_) hnode
    exact ih _ (.tail (.single (parent?_of_node? hslot)) hid) hslot

/-- What is on the way past a symbol is a symbol inside it, if what is on the way through a slot is
inside the slot. -/
theorem inside_of_mem_passing (h : tree.WellFormed) (hid : tree.symbol id = .ok symbol)
    (hslots : ∀ {slot items}, tree.node? slot = some ⟨some id, .expression items⟩ →
      ∀ u ∈ tree.route slot, tree.IsSymbol u ∧ tree.Inside u slot)
    (hu : u ∈ tree.passing tree.route id) : tree.IsSymbol u ∧ tree.Inside u id := by
  obtain hplain | ⟨slot, slots, items, hslot, hitems⟩ := h.slots_cases hid
  · rw [passing_plain hid hplain, List.mem_singleton] at hu
    subst hu
    exact ⟨⟨symbol, hid⟩, Inside.refl u⟩
  · rw [passing_slot hid hslot, List.mem_append, List.mem_singleton] at hu
    obtain hu | rfl := hu
    · obtain ⟨hsymbol, hinside⟩ := hslots hitems u hu
      exact ⟨hsymbol, hinside.parent (parent?_of_node? hitems)⟩
    · exact ⟨⟨symbol, hid⟩, Inside.refl u⟩

/-- What is on the way through an expression is a symbol inside it. -/
theorem inside_of_mem_route (h : tree.WellFormed)
    (hnode : tree.node? expression = some ⟨owner, .expression items⟩)
    (hu : u ∈ tree.route expression) : tree.IsSymbol u ∧ tree.Inside u expression := by
  induction expression using h.wellFounded_child.transGen.induction generalizing owner items u with
  | _ expression ih =>
    rw [h.route_eq hnode] at hu
    obtain ⟨id, hid, hmem⟩ := List.mem_flatMap.mp hu
    obtain ⟨symbol, hsymbol⟩ := h.node?_of_mem hnode hid
    have hparent := parent?_of_node? hsymbol
    obtain ⟨hu, hinside⟩ := h.inside_of_mem_passing (symbol_of_node? hsymbol)
      (fun hslot _ => ih _ (.tail (.single (parent?_of_node? hslot)) hparent) hslot) hmem
    exact ⟨hu, hinside.parent hparent⟩

/-- No symbol is passed twice on the way through an expression. -/
theorem nodup_route (h : tree.WellFormed)
    (hnode : tree.node? expression = some ⟨owner, .expression items⟩) :
    (tree.route expression).Nodup := by
  induction expression using h.wellFounded_child.transGen.induction generalizing owner items with
  | _ expression ih =>
    rw [h.route_eq hnode, List.nodup_flatMap]
    constructor
    · intro id hid
      obtain ⟨symbol, hsymbol⟩ := h.node?_of_mem hnode hid
      have hid' := symbol_of_node? hsymbol
      obtain hplain | ⟨slot, slots, items, hslot, hitems⟩ := h.slots_cases hid'
      · simp [passing_plain hid' hplain]
      · have hup := parent?_of_node? hitems
        have hnodup := ih slot (.tail (.single hup) (parent?_of_node? hsymbol)) hitems
        rw [passing_slot hid' hslot, List.nodup_append]
        refine ⟨hnodup, List.nodup_singleton id, fun u hu v hv => ?_⟩
        rw [List.mem_singleton.mp hv]
        rintro rfl
        exact h.not_inside_of_parent hup (h.inside_of_mem_route hitems hu).2
    · refine (h.lists hnode).nodup.pairwise_of_forall_ne fun a ha b hb hne u hua hub => hne ?_
      have hinside : ∀ {id}, id ∈ items → u ∈ tree.passing tree.route id → tree.Inside u id := by
        intro id hid hu
        obtain ⟨symbol, hsymbol⟩ := h.node?_of_mem hnode hid
        exact (h.inside_of_mem_passing (symbol_of_node? hsymbol)
          (fun hslot _ => h.inside_of_mem_route hslot) hu).2
      exact h.eq_of_inside_both (h.parent?_of_mem hnode ha) (h.parent?_of_mem hnode hb)
        (hinside ha hua) (hinside hb hub)

end WellFormed

/-! ## Sequences of moves -/

/-- A cursor goes from one symbol to another one by moves of the given directions. -/
def Leads (tree : Tree) (allowed : List Direction) (u v : NodeId) : Prop :=
  ∃ moves, moves ⊆ allowed ∧ tree.follow moves u = .ok v

/-- Moves can be followed by further moves. -/
theorem follow_append {moves : List Direction} (h : tree.follow moves u = .ok v)
    (more : List Direction) : tree.follow (moves ++ more) u = tree.follow more v := by
  unfold follow at h ⊢
  rw [List.foldlM_append, h]
  rfl

namespace Leads

variable {allowed : List Direction}

/-- Without a move a cursor is where it is. -/
theorem refl (u : NodeId) : tree.Leads allowed u u :=
  ⟨[], List.nil_subset _, rfl⟩

/-- A cursor which can go on from where a move leads can get there from before the move. -/
theorem head (h : tree.navigate u direction = .ok v) (hmem : direction ∈ allowed)
    (hrest : tree.Leads allowed v w) : tree.Leads allowed u w := by
  obtain ⟨moves, hsub, hfollow⟩ := hrest
  exact ⟨direction :: moves, by simp [hmem, hsub], (follow_cons h moves).trans hfollow⟩

/-- A cursor which can get to a symbol can get to wherever it can get from there. -/
theorem trans (h : tree.Leads allowed u v) (hrest : tree.Leads allowed v w) :
    tree.Leads allowed u w := by
  obtain ⟨moves, hsub, hfollow⟩ := h
  obtain ⟨more, hsub', hfollow'⟩ := hrest
  exact ⟨moves ++ more, by simp [hsub, hsub'], (follow_append hfollow more).trans hfollow'⟩

/-- With more directions a cursor can get to wherever it can get with fewer. -/
theorem mono {more : List Direction} (h : tree.Leads allowed u v) (hsub : allowed ⊆ more) :
    tree.Leads more u v := by
  obtain ⟨moves, hmoves, hfollow⟩ := h
  exact ⟨moves, fun _ hmove => hsub (hmoves hmove), hfollow⟩

/-- Moves of one direction are repetitions of it. -/
theorem exists_replicate (h : tree.Leads [direction] u v) :
    ∃ k, tree.follow (List.replicate k direction) u = .ok v := by
  obtain ⟨moves, hsub, hfollow⟩ := h
  have heq := List.eq_replicate_of_mem fun move hmem => List.mem_singleton.mp (hsub hmem)
  exact ⟨moves.length, heq ▸ hfollow⟩

/-- A cursor which keeps moving gets to all symbols of a sequence in which each one is followed by
the one to which a move leads. -/
theorem of_isChain (h : (u :: visits).IsChain fun u v => tree.navigate u direction = .ok v)
    (hv : v ∈ u :: visits) : tree.Leads [direction] u v := by
  induction visits generalizing u with
  | nil =>
    obtain rfl := List.mem_singleton.mp hv
    exact refl v
  | cons next visits ih =>
    obtain ⟨hstep, hrest⟩ := List.isChain_cons_cons.mp h
    obtain rfl | hv := List.mem_cons.mp hv
    · exact refl v
    · exact head hstep List.mem_cons_self (ih hrest hv)

/-- A cursor which keeps moving gets from all symbols of such a sequence to its last one. -/
theorem to_last (h : visits.IsChain fun u v => tree.navigate u direction = .ok v)
    (hu : u ∈ visits) (hfinish : visits.getLast? = some finish) :
    tree.Leads [direction] u finish := by
  obtain ⟨front, back, rfl⟩ := List.append_of_mem hu
  rw [List.getLast?_append_of_ne_nil _ (List.cons_ne_nil u back)] at hfinish
  exact of_isChain (List.isChain_append.mp h).2.1 (List.mem_of_getLast? hfinish)

end Leads

/-- A move which leads nowhere else can be made any number of times. -/
theorem follow_stay (hstay : tree.navigate u direction = .ok u) (k : Nat) :
    tree.follow (List.replicate k direction) u = .ok u := by
  induction k with
  | zero => rfl
  | succ k ih => rw [List.replicate_succ, follow_cons hstay, ih]

/-- A cursor which keeps moving passes a sequence in which each symbol is followed by the one to
which a move leads, and stays at the end of the sequence if it stays there once. -/
theorem follow_replicate (h : visits.IsChain fun u v => tree.navigate u direction = .ok v)
    (hstart : visits.head? = some start) (hfinish : visits.getLast? = some finish)
    (hstay : tree.navigate finish direction = .ok finish) (k : Nat) :
    tree.follow (.replicate k direction) start = .ok (visits[k]?.getD finish) := by
  obtain ⟨visits, rfl⟩ := List.head?_eq_some_iff.mp hstart
  clear hstart
  induction visits generalizing start k with
  | nil =>
    obtain rfl : start = finish := by simpa using hfinish
    rw [follow_stay hstay]
    cases k <;> simp
  | cons next visits ih =>
    obtain ⟨hstep, hrest⟩ := List.isChain_cons_cons.mp h
    cases k with
    | zero => rfl
    | succ k =>
      rw [List.getLast?_cons_cons] at hfinish
      rw [List.replicate_succ, follow_cons hstep, ih k hrest hfinish, List.getElem?_cons_succ]

/-! ## From wherever a cursor starts -/

namespace WellFormed

/-- What holds of the symbols of the root, and of those of a slot if it holds of the symbols among
which the owner stands, holds of all symbols which can be reached from the root. -/
theorem symbol_induction (h : tree.WellFormed) {motive : NodeId → Prop}
    (hroot : ∀ {items u}, tree.node? Tree.root = some ⟨none, .expression items⟩ → u ∈ items →
      motive u)
    (hslot : ∀ {slot id outer previous owner items front back u},
      tree.node? slot = some ⟨some id, .expression items⟩ →
      tree.node? outer = some ⟨owner, .expression (front ++ previous :: id :: back)⟩ →
      (∀ w ∈ front ++ previous :: id :: back, motive w) → u ∈ items → motive u)
    (hu : tree.IsSymbol u) (hreach : tree.isReachable u = true) : motive u := by
  obtain ⟨expression, symbol, hnode, hinside⟩ := h.exists_node?_of_reachable hu hreach
  obtain ⟨_, ⟨⟩, hup⟩ := h.exists_parent_of_inside hnode hinside
  obtain ⟨owner, items, hlist, hmem⟩ := h.listed hnode
  clear hu hreach hnode hinside
  -- the way up from the expression in which the owner stands is two steps shorter
  induction hlength : (tree.ancestors expression).length using Nat.strong_induction_on
    generalizing expression owner items u with
  | _ n ih =>
    cases owner with
    | none =>
      obtain rfl := h.eq_root_of_orphan hlist
      exact hroot hlist hmem
    | some id =>
      obtain ⟨outer, owner, front, previous, back, houterUp, houter⟩ :=
        h.exists_before_owner hlist hup
      have hid : tree.parent? id = some outer := h.parent?_of_mem houter (by simp)
      have hways := h.ancestors_eq expression
      simp only [parent?_of_node? hlist, h.ancestors_eq id, hid] at hways
      simp only [hways, List.length_cons] at hlength
      exact hslot hlist houter (fun w hw => ih _ (by omega) _ houterUp _ _ houter hw rfl) hmem

/-- A move to the right leads from each symbol on the way through an expression to the next one. -/
theorem isChain_right (h : tree.WellFormed)
    (hnode : tree.node? expression = some ⟨owner, .expression items⟩) :
    (tree.route expression).IsChain fun u v => tree.navigate u .right = .ok v :=
  (h.isChain_route hnode).imp fun _ _ hjoined => hjoined.right.navigate_eq h

/-- A move to the left leads from each symbol on the way through an expression to the one before. -/
theorem isChain_left (h : tree.WellFormed)
    (hnode : tree.node? expression = some ⟨owner, .expression items⟩) :
    (tree.route expression).reverse.IsChain fun u v => tree.navigate u .left = .ok v :=
  List.isChain_reverse.mpr
    ((h.isChain_route hnode).imp fun _ _ hjoined => hjoined.left.navigate_eq h)

/-- Moves to the right lead from the start of an expression to all its symbols. -/
theorem leads_from_start (h : tree.WellFormed)
    (hnode : tree.node? expression = some ⟨owner, .expression (start :: items)⟩)
    (hu : u ∈ start :: items) : tree.Leads [.right] start u := by
  have hchain := h.isChain_right hnode
  have hmem := h.mem_route hnode hu
  rw [h.route_of_first hnode] at hchain hmem
  exact .of_isChain hchain hmem

/-- Moves to the right lead from all symbols of an expression to the last one. -/
theorem leads_to_last (h : tree.WellFormed)
    (hnode : tree.node? expression = some ⟨owner, .expression (front ++ [finish])⟩)
    (hu : u ∈ front ++ [finish]) : tree.Leads [.right] u finish :=
  .to_last (h.isChain_right hnode) (h.mem_route hnode hu) (h.getLast?_route hnode)

/-- Moves to the left lead from all symbols of an expression to its start. -/
theorem leads_to_start (h : tree.WellFormed)
    (hnode : tree.node? expression = some ⟨owner, .expression (start :: items)⟩)
    (hu : u ∈ start :: items) : tree.Leads [.left] u start := by
  have hmem := List.mem_reverse.mpr (h.mem_route hnode hu)
  refine .to_last (h.isChain_left hnode) hmem ?_
  simp [h.route_of_first hnode]

/-- Moves to the right lead from everywhere to the last symbol of the root: out of each slot past its
owner. -/
theorem leads_to_last_of_root (h : tree.WellFormed) (hfinish : tree.last Tree.root = .ok finish)
    (hu : tree.IsSymbol u) (hreach : tree.isReachable u = true) :
    tree.Leads [.right] u finish := by
  refine h.symbol_induction (motive := fun u => tree.Leads [.right] u finish)
    (fun {items u} hroot hmem => ?_)
    (fun {slot id outer _ _ items _ _ u} hslot houter ih hmem => ?_) hu hreach
  · obtain ⟨front, rfl⟩ := eq_concat_of_last hroot hfinish
    exact h.leads_to_last hroot hmem
  · obtain ⟨front, last, rfl⟩ := h.exists_concat hslot
    have hout : tree.StepsRight last id := .out hslot
    have habove := ih id (by simp)
    exact (h.leads_to_last hslot hmem).trans (.head (hout.navigate_eq h) List.mem_cons_self habove)

/-- Moves to the left lead from everywhere to the start of the root: out of each slot to before its
owner. -/
theorem leads_to_start_of_root (h : tree.WellFormed) (hstart : tree.first Tree.root = .ok start)
    (hu : tree.IsSymbol u) (hreach : tree.isReachable u = true) :
    tree.Leads [.left] u start := by
  refine h.symbol_induction (motive := fun u => tree.Leads [.left] u start)
    (fun {items u} hroot hmem => ?_)
    (fun {slot id outer previous _ items _ _ u} hslot houter ih hmem => ?_) hu hreach
  · obtain ⟨others, rfl⟩ := eq_cons_of_first hroot hstart
    exact h.leads_to_start hroot hmem
  · obtain ⟨first, others, rfl, -, -⟩ := (h.lists hslot).start
    have hout : tree.StepsLeft first previous := .out hslot houter
    have habove := ih previous (by simp)
    exact (h.leads_to_start hslot hmem).trans (.head (hout.navigate_eq h) List.mem_cons_self habove)

end WellFormed

/-- Keeping to move right from the start of the root leads through the root, and keeping to move left
from its end leads back. -/
theorem Reachable.arrows_traverse (h : tree.Reachable) :
    (∀ expression first items, tree.items expression = .ok (first :: items) →
      tree.symbol first = .ok .start ∧
        tree.route expression = first :: items.flatMap (tree.passing tree.route)) ∧
    ∃ start finish, tree.first root = .ok start ∧ tree.last root = .ok finish ∧
      (tree.route root).Nodup ∧
      (tree.route root).head? = some start ∧ (tree.route root).getLast? = some finish ∧
      (∀ k, tree.follow (.replicate k .right) start = .ok ((tree.route root)[k]?.getD finish)) ∧
      (∀ k, tree.follow (.replicate k .left) finish =
        .ok ((tree.route root).reverse[k]?.getD start)) ∧
      ∀ u, tree.IsSymbol u → tree.isReachable u = true →
        (∃ k, tree.follow (.replicate k .right) u = .ok finish) ∧
          ∃ k, tree.follow (.replicate k .left) u = .ok start := by
  have htree := h.wellFormed
  refine ⟨fun expression first items hitems => ?_, ?_⟩
  · obtain ⟨owner, hnode⟩ := items_eq_ok_iff.mp hitems
    exact ⟨htree.start_of_list hnode, htree.route_of_first hnode⟩
  obtain ⟨items, hroot⟩ := htree.root
  obtain ⟨start, hstart, -⟩ := htree.exists_first hroot
  obtain ⟨finish, hfinish, -⟩ := htree.exists_last hroot
  obtain ⟨others, hbegins⟩ := eq_cons_of_first hroot hstart
  obtain ⟨front, hends⟩ := eq_concat_of_last hroot hfinish
  have hbegin := hbegins ▸ hroot
  have hend := hends ▸ hroot
  have hhead : (tree.route root).head? = some start := by simp [htree.route_of_first hbegin]
  have hlast := htree.getLast?_route hend
  have hright : tree.StepsRight finish finish := .stay hend
  have hleft : tree.StepsLeft start start := .stay hbegin
  refine ⟨start, finish, hstart, hfinish, htree.nodup_route hroot, hhead, hlast, ?_, ?_, ?_⟩
  · exact follow_replicate (htree.isChain_right hroot) hhead hlast (hright.navigate_eq htree)
  · refine follow_replicate (htree.isChain_left hroot) ?_ ?_ (hleft.navigate_eq htree)
    · rwa [List.head?_reverse]
    · rwa [List.getLast?_reverse]
  · intro u hu hreach
    exact ⟨(htree.leads_to_last_of_root hfinish hu hreach).exists_replicate,
      (htree.leads_to_start_of_root hstart hu hreach).exists_replicate⟩

/-- On the way past a fraction and `c` the cursor passes the numerator `a`, but not the denominator
`b`, out of which it gets to the end all the same. -/
theorem arrows_traverse_past_fraction :
    let tree := empty.run [.create .fraction, .insertAfter 1 2, .create (.atom 'a'),
      .insertAfter 4 7, .create (.atom 'b'), .insertAfter 6 8, .create (.atom 'c'),
      .insertAfter 2 9]
    tree.Reachable ∧ tree.route root = [1, 4, 7, 2, 9] ∧
      tree.follow (.replicate 3 .right) 1 = .ok 2 ∧ tree.follow (.replicate 3 .left) 9 = .ok 4 ∧
      ∃ k, tree.follow (.replicate k .right) 8 = .ok 9 := by
  intro tree
  have hreach : tree.Reachable := reachable_run _
  have hroute : tree.route root = [1, 4, 7, 2, 9] := by decide +kernel
  obtain ⟨-, start, finish, -, -, -, hhead, hlast, hright, hleft, hleads⟩ :=
    hreach.arrows_traverse
  obtain rfl : 1 = start := by simpa [hroute] using hhead
  obtain rfl : 9 = finish := by simpa [hroute] using hlast
  have hbelow := hleads 8 ⟨_, rfl⟩ (by decide +kernel)
  exact ⟨hreach, hroute, by simpa [hroute] using hright 3, by simpa [hroute] using hleft 3, hbelow.1⟩

end FormulaEditor.Tree
