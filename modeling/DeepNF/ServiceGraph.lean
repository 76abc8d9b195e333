import DeepNF.ActionTable
import DeepNF.Rounds
import DeepNF.Walk
import Mathlib.Data.Finset.Insert
import Mathlib.Data.Finset.Card
import Mathlib.Data.Finset.Range

/-!
# Service graph nodes (`src/setup/ServiceGraphNode.cpp`)

A pointer to an allocated node is its index in the list of nodes, in the order of allocation; a null
pointer is `none`. Where the code iterates over a `std::set` of pointers it does so in the order of the
addresses, which a `Layout` fixes together with the order in which the hash maps are enumerated.
-/

namespace DeepNF
open Relation

structure ServiceGraphNode where
  nf : String
  neighbors : Finset Nat := ∅
  parents : Finset Nat := ∅

abbrev Nodes := List ServiceGraphNode

/-- What the standard leaves open: the addresses of the `n` nodes, ascending, and the order in which
the keys of `pair_to_conflicts` and of its inner maps are enumerated. -/
structure Layout (n : Nat) where
  addresses : List Nat
  perm : addresses.Perm (List.range n)
  outer : List String → List String
  outer_perm : ∀ l, (outer l).Perm l
  inner : String → List String → List String
  inner_perm : ∀ major l, (inner major l).Perm l

namespace Layout

/-- Nodes at ascending addresses, hash maps in the order of their keys. -/
def ascending (n : Nat) : Layout n where
  addresses := List.range n
  perm := .refl _
  outer := id
  outer_perm := fun _ => .refl _
  inner := fun _ => id
  inner_perm := fun _ _ => .refl _

variable {n : Nat} (ly : Layout n)

def iterate (s : Finset Nat) : List Nat := ly.addresses.filter (· ∈ s)

/-- A set that may hold a null pointer, which comes first. -/
def iterateNull (s : Finset (Option Nat)) : List (Option Nat) :=
  (if none ∈ s then [none] else []) ++ (ly.addresses.filter (some · ∈ s)).map some

variable {ly}

theorem mem_iterate {s : Finset Nat} {x : Nat} : x ∈ ly.iterate s ↔ x < n ∧ x ∈ s := by
  simp [iterate, ly.perm.mem_iff]

theorem mem_iterateNull {s : Finset (Option Nat)} {p : Option Nat} (hs : ∀ x, some x ∈ s → x < n) :
    p ∈ ly.iterateNull s ↔ p ∈ s := by
  cases p with
  | none => by_cases h : none ∈ s <;> simp [iterateNull, h]
  | some x =>
    by_cases h : none ∈ s <;> simp only [iterateNull, h, if_true, if_false, List.mem_append,
      List.mem_map, List.mem_filter, ly.perm.mem_iff, List.mem_range, decide_eq_true_eq] <;>
      simp only [List.mem_singleton, List.not_mem_nil, reduceCtorEq, false_or, Option.some.injEq,
        exists_eq_right, and_iff_right_iff_imp] <;>
      exact hs x

theorem nodup_iterate (s : Finset Nat) : (ly.iterate s).Nodup :=
  (ly.perm.nodup_iff.mpr List.nodup_range).filter _

theorem lt_of_mem_iterateNull {s : Finset (Option Nat)} {x : Nat} (h : some x ∈ ly.iterateNull s) : x < n := by
  rcases List.mem_append.mp h with h | h
  · split at h <;> simp at h
  · obtain ⟨y, hy, he⟩ := List.mem_map.mp h
    cases he
    exact List.mem_range.mp (ly.perm.mem_iff.mp (List.mem_filter.mp hy).1)

end Layout

namespace Nodes

def neighbors (nodes : Nodes) (p : Nat) : Finset Nat := (nodes[p]?.map (·.neighbors)).getD ∅

def parents (nodes : Nodes) (p : Nat) : Finset Nat := (nodes[p]?.map (·.parents)).getD ∅

def name (nodes : Nodes) (p : Option Nat) : Except SetupError String :=
  match p.bind (nodes[·]?) with
  | some node => .ok node.nf
  | none => .error .nullNode

def isLeaf (nodes : Nodes) (p : Nat) : Bool := nodes.neighbors p = ∅

def isRoot (nodes : Nodes) (p : Nat) : Bool := nodes.parents p = ∅

/-- The first parent in the order of the addresses, or a null pointer. -/
def getParent {n : Nat} (ly : Layout n) (nodes : Nodes) (p : Nat) : Option Nat :=
  (ly.iterate (nodes.parents p)).head?

/-- `node1->add_neighbor(node2); node2->add_parent(node1)`. -/
def addEdge (nodes : Nodes) (node1 node2 : Option Nat) : Except SetupError Nodes :=
  match node1, node2 with
  | some p, some q =>
    .ok ((nodes.modify p fun node => { node with neighbors := insert q node.neighbors }).modify q
      fun node => { node with parents := insert p node.parents })
  | _, _ => .error .nullNode

def addEdges : List (Option Nat × Option Nat) → Nodes → Except SetupError Nodes
  | [], nodes => .ok nodes
  | (node1, node2) :: es, nodes => do addEdges es (← nodes.addEdge node1 node2)

/-- `findAllLeaves(root, leaves)`, to a depth of `fuel` calls. -/
def findAllLeaves {n : Nat} (ly : Layout n) (nodes : Nodes) :
    Nat → Nat → Finset Nat → Except SetupError (Finset Nat)
  | 0, _, _ => .error .endless
  | fuel + 1, root, leaves =>
    if nodes.isLeaf root then .ok (insert root leaves)
    else (ly.iterate (nodes.neighbors root)).foldlM (fun leaves neighbor =>
      findAllLeaves ly nodes fuel neighbor leaves) leaves

def Edge (nodes : Nodes) (p q : Nat) : Prop := q ∈ nodes.neighbors p

instance (nodes : Nodes) : DecidableRel nodes.Edge := fun p q =>
  inferInstanceAs (Decidable (q ∈ nodes.neighbors p))

def edges (nodes : Nodes) : List (Nat × Nat) :=
  (List.range nodes.length).flatMap fun p =>
    ((List.range nodes.length).filter fun q => nodes.Edge p q).map fun q => (p, q)

/-! ### Adding edges -/

variable {nodes nodes' : Nodes} {p q x y : Nat}

theorem neighbors_of_length_le (h : nodes.length ≤ p) : nodes.neighbors p = ∅ := by
  simp [neighbors, List.getElem?_eq_none h]

theorem Edge.lt (h : nodes.Edge p q) : p < nodes.length := by
  by_contra hn
  rw [Edge, neighbors_of_length_le (Nat.le_of_not_lt hn)] at h
  cases h

theorem addEdge_eq (hp : p < nodes.length) (hq : q < nodes.length) :
    ∃ nodes', nodes.addEdge (some p) (some q) = .ok nodes' ∧
      (∀ x, nodes'.neighbors x = if p = x then insert q (nodes.neighbors x) else nodes.neighbors x) ∧
      (∀ x, nodes'.parents x = if q = x then insert p (nodes.parents x) else nodes.parents x) ∧
      nodes'.map (·.nf) = nodes.map (·.nf) := by
  refine ⟨_, rfl, fun x => ?_, fun x => ?_, List.ext_getElem? fun x => ?_⟩
  · simp only [neighbors, List.getElem?_modify]
    cases hx : nodes[x]? with
    | none =>
      have := List.getElem?_eq_none_iff.mp hx
      rw [if_neg (by omega)]
      rfl
    | some node => by_cases h₁ : p = x <;> by_cases h₂ : q = x <;> simp [h₁, h₂]
  · simp only [parents, List.getElem?_modify]
    cases hx : nodes[x]? with
    | none =>
      have := List.getElem?_eq_none_iff.mp hx
      rw [if_neg (by omega)]
      rfl
    | some node => by_cases h₁ : p = x <;> by_cases h₂ : q = x <;> simp [h₁, h₂]
  · simp only [List.getElem?_map, List.getElem?_modify]
    cases nodes[x]? with
    | none => rfl
    | some node => by_cases h₁ : p = x <;> by_cases h₂ : q = x <;> simp [h₁, h₂]

/-- Every edge is known at both ends. -/
def Mirror (nodes : Nodes) : Prop := ∀ p q, q ∈ nodes.neighbors p ↔ p ∈ nodes.parents q

/-- What a sequence of calls comes to: no pointer was null, and the edges are the old and the new. -/
theorem addEdges_ok {es : List (Option Nat × Option Nat)}
    (hlt : ∀ e ∈ es, ∀ p, e.1 = some p ∨ e.2 = some p → p < nodes.length) (hm : nodes.Mirror)
    (h : addEdges es nodes = .ok nodes') :
    (∀ e ∈ es, e.1.isSome ∧ e.2.isSome) ∧
      (∀ x y, nodes'.Edge x y ↔ nodes.Edge x y ∨ (some x, some y) ∈ es) ∧
      nodes'.Mirror ∧ nodes'.map (·.nf) = nodes.map (·.nf) := by
  induction es generalizing nodes with
  | nil => cases h; simp [hm]
  | cons e es ih =>
    obtain ⟨node1, node2⟩ := e
    cases node1 with
    | none => cases h
    | some p =>
      cases node2 with
      | none => cases h
      | some q =>
        have hp := hlt _ (List.mem_cons_self ..) p (.inl rfl)
        have hq := hlt _ (List.mem_cons_self ..) q (.inr rfl)
        obtain ⟨nodes₁, h₁, hneigh, hpar, hnf⟩ := addEdge_eq hp hq
        simp only [addEdges, h₁, bind, Except.bind] at h
        have hlen : nodes₁.length = nodes.length := by simpa using congrArg List.length hnf
        have hm₁ : nodes₁.Mirror := by
          intro x y
          rw [hneigh, hpar]
          by_cases hx : p = x <;> by_cases hy : q = y <;>
            simp [hx, hy, hm x y, Ne.symm]
        obtain ⟨hsome, hedge, hm', hnf'⟩ := ih (fun e he => hlen ▸ hlt e (List.mem_cons_of_mem _ he)) hm₁ h
        refine ⟨fun e he => ?_, fun x y => ?_, hm', hnf'.trans hnf⟩
        · rcases List.mem_cons.mp he with rfl | he
          exacts [⟨rfl, rfl⟩, hsome e he]
        · rw [hedge, Edge, hneigh, List.mem_cons, Prod.mk.injEq, Option.some.injEq, Option.some.injEq, Edge]
          by_cases hx : p = x
          · subst hx; simp only [if_true, Finset.mem_insert, true_and]; tauto
          · simp [hx, Ne.symm hx]

theorem addEdges_append (es es' : List (Option Nat × Option Nat)) (nodes : Nodes) :
    addEdges (es ++ es') nodes = addEdges es nodes >>= addEdges es' := by
  induction es generalizing nodes with
  | nil => rfl
  | cons e es ih =>
    obtain ⟨node1, node2⟩ := e
    rw [List.cons_append, addEdges, addEdges]
    cases nodes.addEdge node1 node2 with
    | error e => rfl
    | ok nodes₁ => exact ih nodes₁

theorem addEdges_total {es : List (Option Nat × Option Nat)} (h : ∀ e ∈ es, e.1.isSome ∧ e.2.isSome)
    (nodes : Nodes) : ∃ nodes', addEdges es nodes = .ok nodes' := by
  induction es generalizing nodes with
  | nil => exact ⟨nodes, rfl⟩
  | cons e es ih =>
    obtain ⟨node1, node2⟩ := e
    obtain ⟨h₁, h₂⟩ := h _ (List.mem_cons_self ..)
    obtain ⟨p, rfl⟩ := Option.isSome_iff_exists.mp h₁
    obtain ⟨q, rfl⟩ := Option.isSome_iff_exists.mp h₂
    exact ih (fun e he => h e (List.mem_cons_of_mem _ he)) _

/-! ### The leaf search -/

theorem Mirror.lt (hm : nodes.Mirror) (h : nodes.Edge p q) : q < nodes.length := by
  by_contra hn
  have hq := (hm p q).mp h
  rw [parents, List.getElem?_eq_none (Nat.le_of_not_lt hn)] at hq
  cases hq

theorem Mirror.mem_edges (hm : nodes.Mirror) : (p, q) ∈ nodes.edges ↔ nodes.Edge p q := by
  simp only [edges, List.mem_flatMap, List.mem_range, List.mem_map, List.mem_filter, decide_eq_true_eq]
  constructor
  · rintro ⟨x, -, y, ⟨-, he⟩, heq⟩
    cases heq
    exact he
  · exact fun he => ⟨p, he.lt, q, ⟨hm.lt he, he⟩, rfl⟩

theorem isLeaf_iff : nodes.isLeaf p = true ↔ ∀ q, ¬ nodes.Edge p q := by
  simp [isLeaf, Edge, Finset.eq_empty_iff_forall_notMem]

theorem isRoot_iff (hm : nodes.Mirror) : nodes.isRoot p = true ↔ ∀ q, ¬ nodes.Edge q p := by
  rw [isRoot, decide_eq_true_eq, Finset.eq_empty_iff_forall_notMem]
  exact forall_congr' fun q => not_congr (hm q p).symm

def SinkBelow (nodes : Nodes) (p x : Nat) : Prop := ReflTransGen nodes.Edge p x ∧ ∀ q, ¬ nodes.Edge x q

/-- The search adds exactly the sinks below its root, at least one. -/
theorem mem_findAllLeaves {n : Nat} {ly : Layout n} (hlt : ∀ {p q}, nodes.Edge p q → q < n) {fuel root : Nat}
    {leaves leaves' : Finset Nat} (h : findAllLeaves ly nodes fuel root leaves = .ok leaves') :
    (∀ x, x ∈ leaves' ↔ x ∈ leaves ∨ nodes.SinkBelow root x) ∧ ∃ x, nodes.SinkBelow root x := by
  induction fuel generalizing root leaves leaves' with
  | zero => cases h
  | succ fuel ih =>
    rw [findAllLeaves] at h
    split at h
    · rename_i hleaf
      rw [isLeaf_iff] at hleaf
      cases h
      have hroot : ∀ x, nodes.SinkBelow root x ↔ x = root := fun x => by
        refine ⟨fun hx => ?_, fun hx => by subst hx; exact ⟨.refl, hleaf⟩⟩
        rcases ReflTransGen.cases_head hx.1 with rfl | ⟨y, he, -⟩
        exacts [rfl, absurd he (hleaf y)]
      exact ⟨fun x => by rw [Finset.mem_insert, hroot]; exact or_comm, root, (hroot root).mpr rfl⟩
    · rename_i hleaf
      have hstep : ∀ x, nodes.SinkBelow root x ↔
          ∃ y ∈ ly.iterate (nodes.neighbors root), nodes.SinkBelow y x := by
        intro x
        constructor
        · rintro ⟨hx, hsink⟩
          rcases ReflTransGen.cases_head hx with rfl | ⟨y, he, hyx⟩
          · exact absurd (isLeaf_iff.mpr hsink) hleaf
          · exact ⟨y, Layout.mem_iterate.mpr ⟨hlt he, he⟩, hyx, hsink⟩
        · rintro ⟨y, hy, hyx, hsink⟩
          exact ⟨hyx.head (Layout.mem_iterate.mp hy).2, hsink⟩
      -- the loop adds what is below the neighbors, one after the other
      have hkeep : ∀ done y s s', y ∈ ly.iterate (nodes.neighbors root) →
          ((∀ x, x ∈ s ↔ x ∈ leaves ∨ ∃ y ∈ done, nodes.SinkBelow y x) ∧
            ∀ y ∈ done, ∃ x, nodes.SinkBelow y x) → findAllLeaves ly nodes fuel y s = .ok s' →
          (∀ x, x ∈ s' ↔ x ∈ leaves ∨ ∃ z ∈ done ++ [y], nodes.SinkBelow z x) ∧
            ∀ z ∈ done ++ [y], ∃ x, nodes.SinkBelow z x := by
        intro done y s s' _ ⟨hs, hdone⟩ hf
        obtain ⟨hmem, hex⟩ := ih hf
        refine ⟨fun x => ?_, fun z hz => ?_⟩
        · rw [hmem, hs]
          simp only [List.mem_append, List.mem_singleton, or_and_right, exists_or, exists_eq_left, or_assoc]
        · rcases List.mem_append.mp hz with hz | hz
          · exact hdone z hz
          · exact List.mem_singleton.mp hz ▸ hex
      obtain ⟨hmem, hex⟩ := Rounds.foldlM_induction hkeep ⟨by simp, by simp⟩ h
      refine ⟨fun x => by rw [hmem, hstep], ?_⟩
      rw [isLeaf_iff] at hleaf
      push Not at hleaf
      obtain ⟨y, he⟩ := hleaf
      have hy : y ∈ ly.iterate (nodes.neighbors root) := Layout.mem_iterate.mpr ⟨hlt he, he⟩
      obtain ⟨x, hx⟩ := hex y hy
      exact ⟨x, (hstep x).mpr ⟨y, hy, hx⟩⟩

theorem findAllLeaves_ok {n : Nat} {ly : Layout n} (hn : nodes.length = n) (hm : nodes.Mirror) {fuel root : Nat}
    {leaves leaves' : Finset Nat} (h : findAllLeaves ly nodes fuel root leaves = .ok leaves') :
    (∀ x, x ∈ leaves' ↔ x ∈ leaves ∨ nodes.SinkBelow root x) ∧ ∃ x, nodes.SinkBelow root x :=
  mem_findAllLeaves (fun he => hn ▸ hm.lt he) h

open Classical in
/-- The search comes to an end if it meets no cycle: no call is nested deeper than there are nodes. -/
theorem findAllLeaves_ends {n : Nat} {ly : Layout n} {fuel root : Nat} (hac : Walks.AcyclicBelow nodes.Edge root)
    (hfuel : ((Finset.range n).filter (TransGen nodes.Edge root)).card < fuel) (leaves : Finset Nat) :
    ∃ leaves', findAllLeaves ly nodes fuel root leaves = .ok leaves' := by
  induction fuel generalizing root leaves with
  | zero => omega
  | succ fuel ih =>
    rw [findAllLeaves]
    split
    · exact ⟨_, rfl⟩
    · have hbody : ∀ y ∈ ly.iterate (nodes.neighbors root), ∀ leaves, True →
          ∃ leaves', findAllLeaves ly nodes fuel y leaves = .ok leaves' ∧ True := by
        intro y hy leaves _
        obtain ⟨hlt, he⟩ := Layout.mem_iterate.mp hy
        -- what is below a neighbour is below the root, and the neighbour is not below itself
        have hss : (Finset.range n).filter (TransGen nodes.Edge y) ⊂
            (Finset.range n).filter (TransGen nodes.Edge root) := by
          refine Finset.ssubset_iff_of_subset (fun z hz => ?_) |>.mpr ⟨y, ?_, ?_⟩
          · rw [Finset.mem_filter] at hz ⊢
            exact ⟨hz.1, TransGen.head he hz.2⟩
          · exact Finset.mem_filter.mpr ⟨Finset.mem_range.mpr hlt, .single he⟩
          · exact fun hz => hac y (.single he) (Finset.mem_filter.mp hz).2
        have hcard := Finset.card_lt_card hss
        have hless : ((Finset.range n).filter (TransGen nodes.Edge y)).card < fuel := by omega
        obtain ⟨leaves', h⟩ := ih (hac.succ he) hless leaves
        exact ⟨leaves', h, trivial⟩
      obtain ⟨leaves', h, -⟩ := Rounds.foldlM_total hbody (s := leaves) trivial
      exact ⟨leaves', h⟩

open Classical in
theorem findAllLeaves_total {n : Nat} {ly : Layout n} (hac : Walks.Acyclic nodes.Edge) {fuel root : Nat}
    (hfuel : ((Finset.range n).filter (TransGen nodes.Edge root)).card < fuel) (leaves : Finset Nat) :
    ∃ leaves', findAllLeaves ly nodes fuel root leaves = .ok leaves' :=
  findAllLeaves_ends (hac.below root) hfuel leaves

end Nodes
end DeepNF
