import DeepNF.OrchestratorSpec
import DeepNF.TreeMaps

/-!
# The runtime nodes and the ports

Every runtime node has the neighbors of the graph node that its function's name stands for
(`runtimeNodes_neighbors`), and the merger listens exactly for those without neighbors
(`registered_iff`).
-/

namespace DeepNF
open Std (TreeMap)
open Relation Walks

section Construct
variable {actionTable : ActionTable} {u : UserInput} {ly : Layout u.functions.length} {o : Orchestrator}

theorem construct_graph (h : Orchestrator.construct actionTable u ly = .ok o) :
    buildServiceGraph actionTable u ly = .ok o.graph := by
  obtain ⟨g, hg, h⟩ := Rounds.bind_ok h
  obtain ⟨_, _, h⟩ := Rounds.bind_ok h
  cases h
  exact hg

theorem construct_assembled (h : Orchestrator.construct actionTable u ly = .ok o) :
    Assembled actionTable u o.graph :=
  buildServiceGraph_assembled (construct_graph h)

theorem construct_mergerInfo (h : Orchestrator.construct actionTable u ly = .ok o) :
    o.runtimeNodes = o.graph.runtimeNodes ly u.functions ∧
      o.mergerInfo.portToNodeMap = portToNodeMap o.runtimeNodes ∧
      o.mergerInfo.nodeMap = .ofList (o.runtimeNodes.map fun rnode => (rnode.id, rnode)) ∧
      o.graph.createConflictsList ly = .ok o.mergerInfo.conflictsList := by
  obtain ⟨g, hg, h⟩ := Rounds.bind_ok h
  obtain ⟨l, hl, h⟩ := Rounds.bind_ok h
  cases h
  exact ⟨rfl, rfl, rfl, hl⟩

theorem construct_dest (h : Orchestrator.construct actionTable u ly = .ok o) :
    o.mergerInfo.destIp = u.receiverIp ∧ o.mergerInfo.destPort = u.receiverPort := by
  obtain ⟨g, hg, h⟩ := Rounds.bind_ok h
  obtain ⟨l, hl, h⟩ := Rounds.bind_ok h
  cases h
  exact ⟨rfl, rfl⟩

end Construct

/-! ### Runtime nodes -/

theorem foldl_addNeighbor {α : Type} (f : α → Int) (l : List α) (rnode : RuntimeNode) :
    (l.foldl (fun rnode x => rnode.addNeighbor (f x)) rnode).neighbors = rnode.neighbors ++ l.map f ∧
      (l.foldl (fun rnode x => rnode.addNeighbor (f x)) rnode).id = rnode.id ∧
      (l.foldl (fun rnode x => rnode.addNeighbor (f x)) rnode).nf = rnode.nf := by
  induction l generalizing rnode with
  | nil => simp
  | cons x l ih =>
    obtain ⟨h₁, h₂, h₃⟩ := ih (rnode.addNeighbor (f x))
    refine ⟨?_, h₂, h₃⟩
    rw [List.foldl_cons, h₁, List.map_cons, RuntimeNode.addNeighbor, List.append_assoc, List.singleton_append]

namespace ServiceGraph
variable {n : Nat} {ly : Layout n} {g : ServiceGraph} {functions : List String}

@[simp] theorem runtimeNode_id (function : String) (i : Nat) : (g.runtimeNode ly function i).id = i :=
  (foldl_addNeighbor _ _ _).2.1

@[simp] theorem runtimeNode_nf (function : String) (i : Nat) :
    (g.runtimeNode ly function i).nf = stringToNF function :=
  (foldl_addNeighbor _ _ _).2.2

theorem runtimeNode_neighbors {function : String} {p : Nat} (hp : g.funcToNodes[function]? = some p) (i : Nat) :
    (g.runtimeNode ly function i).neighbors = (ly.iterate (g.nodes.neighbors p)).map g.inxOfNode := by
  rw [runtimeNode, hp]
  exact (foldl_addNeighbor _ _ _).1

theorem getElem?_runtimeNodes (i : Nat) :
    (g.runtimeNodes ly functions)[i]? = functions[i]?.map fun function => g.runtimeNode ly function i := by
  simp [runtimeNodes, List.getElem?_zipIdx, Option.map_map, Function.comp_def]

theorem mem_runtimeNodes {rnode : RuntimeNode} : rnode ∈ g.runtimeNodes ly functions ↔
    ∃ i function, functions[i]? = some function ∧ rnode = g.runtimeNode ly function i := by
  rw [List.mem_iff_getElem?]
  simp only [getElem?_runtimeNodes, Option.map_eq_some_iff]
  exact exists_congr fun i => exists_congr fun function => and_congr_right fun _ => eq_comm

theorem map_id_runtimeNodes :
    (g.runtimeNodes ly functions).map (·.id) = (List.range functions.length).map Nat.cast := by
  have hid : (fun rnode : RuntimeNode => rnode.id) ∘ (fun x : String × Nat => g.runtimeNode ly x.1 x.2) =
      (Nat.cast : Nat → Int) ∘ Prod.snd := by
    funext x
    exact runtimeNode_id ..
  rw [runtimeNodes, List.map_map, hid, ← List.map_map, List.zipIdx_map_snd, List.range_eq_range']

end ServiceGraph

theorem getElem?_portToNodeMap {rnodes : List RuntimeNode} {k i : Int} :
    (portToNodeMap rnodes)[k]? = some i ↔
      (∃ rnode ∈ rnodes, rnode.neighbors = [] ∧ rnode.id = i) ∧ k = 8000 + i + 1 := by
  have hfilter : portToNodeMap rnodes = (rnodes.filter (·.neighbors.length = 0)).foldl
      (fun t rnode => t.insert (8000 + rnode.id + 1) rnode.id) ∅ := by
    rw [portToNodeMap, List.foldl_filter]
    simp only [decide_eq_true_eq]
  have hval : ∀ x ∈ rnodes.filter (·.neighbors.length = 0), ∀ y ∈ rnodes.filter (·.neighbors.length = 0),
      8000 + x.id + 1 = 8000 + y.id + 1 → x.id = y.id := by
    intro x _ y _ h
    omega
  rw [hfilter, TreeMaps.getElem?_foldl_insert_iff (fun rnode : RuntimeNode => 8000 + rnode.id + 1) (·.id) hval]
  simp only [List.mem_filter, decide_eq_true_eq, List.length_eq_zero_iff]
  constructor
  · rintro ⟨rnode, ⟨hr, hn⟩, rfl, rfl⟩
    exact ⟨⟨rnode, hr, hn, rfl⟩, rfl⟩
  · rintro ⟨⟨rnode, hr, hn, rfl⟩, rfl⟩
    exact ⟨rnode, ⟨hr, hn⟩, rfl, rfl⟩

/-- An edge of the final graph. -/
def UserInput.Linked (u : UserInput) (actionTable : ActionTable) (x y : Nat) : Prop :=
  u.Order actionTable x y ∨
    u.hasPositionals ∧ ∃ f, u.positionNode "first" = some f ∧ (u.parts actionTable f).Edge x y

/-! ### Indices of graph nodes and ids of runtime nodes -/

namespace Assembled
variable {actionTable : ActionTable} {u : UserInput} {g : ServiceGraph} {ly : Layout u.functions.length}
  (hA : Assembled actionTable u g) {x y i : Nat} {a : String}
include hA

theorem edge_node (h : g.nodes.Edge x y) : (∃ a, u.node a = some x) ∧ ∃ b, u.node b = some y := by
  have hord : ∀ {x y}, u.Order actionTable x y → (∃ a, u.node a = some x) ∧ ∃ b, u.node b = some y :=
    fun ⟨a, b, _, ha, hb⟩ => ⟨⟨a, ha⟩, b, hb⟩
  have hpos : ∀ {position p}, u.positionNode position = some p → ∃ a, u.node a = some p := fun h => by
    obtain ⟨a, -, ha⟩ := positionNode_some h
    exact ⟨a, ha⟩
  by_cases hp : u.hasPositionals
  · cases hf : g.first with
    | none => exact hord (((hA.unattached hp hf).2.2 x y).mp h)
    | some f =>
      have hfree : ∀ {x}, u.Free actionTable x → ∃ a, u.node a = some x := fun ⟨a, b, _, h⟩ =>
        h.elim (fun h => ⟨a, h⟩) fun h => ⟨b, h⟩
      have hf' := hpos (hA.first.symm.trans hf)
      rcases (hA.attached hp f hf x y).mp h with h | ⟨rfl, hr | hx⟩ | ⟨hl, hx | hx⟩
      · exact hord h
      · obtain ⟨⟨z, hz⟩, -⟩ := parts_root.mp hr
        exact ⟨hf', (hord hz).1⟩
      · exact ⟨hf', hfree hx⟩
      · exact ⟨hfree hx, hpos hl⟩
      · obtain ⟨z, hz | hz⟩ := parts_searched.inner hx
        exacts [⟨(hord hz).1, hpos hl⟩, ⟨(hord hz).2, hpos hl⟩]
  · exact hord ((hA.detached (by simpa using hp) x y).mp h)

theorem edge_iff : g.nodes.Edge x y ↔ u.Linked actionTable x y := by
  unfold UserInput.Linked
  cases hp : u.hasPositionals with
  | false => simp [hA.detached hp]
  | true =>
    cases hf : g.first with
    | none =>
      have hnone : u.positionNode "first" = none := hA.first.symm.trans hf
      simp [(hA.unattached hp hf).2.2, hnone]
    | some f =>
      have hsome : u.positionNode "first" = some f := hA.first.symm.trans hf
      simp only [hA.attached hp f hf, hsome, Option.some.injEq, exists_eq_left', true_and]
      exact (or_iff_right_of_imp .inl).symm

theorem edge_congr {g' : ServiceGraph} (hA' : Assembled actionTable u g') :
    g.nodes.Edge x y ↔ g'.nodes.Edge x y := hA.edge_iff.trans hA'.edge_iff.symm

theorem name_of_node (ha : u.node a = some x) : ∃ node, g.nodes[x]? = some node ∧ node.nf = a := by
  have h := indexOf_some ha
  rw [← hA.names, List.getElem?_map, Option.map_eq_some_iff] at h
  exact h

theorem inxOf_eq (ha : u.node a = some x) : inxOf g.funcToNodes a = x := by
  rw [inxOf, hA.funcToNodes, TreeMap.getD_eq_getD_getElem?]
  rw [UserInput.node] at ha
  rw [ha]; rfl

theorem inxOfNode_eq (ha : u.node a = some x) : g.inxOfNode x = x := by
  obtain ⟨node, hn, rfl⟩ := hA.name_of_node ha
  rw [ServiceGraph.inxOfNode, hn]
  exact hA.inxOf_eq ha

theorem mirror_lt (h : g.nodes.Edge x y) : y < u.functions.length := by
  obtain ⟨-, b, hb⟩ := hA.edge_node h
  exact indexOf_lt hb

theorem mem_neighbors (ha : u.node a = some x) {j : Int} :
    j ∈ (g.runtimeNode ly a i).neighbors ↔ ∃ y : Nat, j = y ∧ g.nodes.Edge x y := by
  rw [ServiceGraph.runtimeNode_neighbors (by rw [hA.funcToNodes]; exact ha), List.mem_map]
  constructor
  · rintro ⟨y, hy, rfl⟩
    have he : g.nodes.Edge x y := (Layout.mem_iterate.mp hy).2
    obtain ⟨-, b, hb⟩ := hA.edge_node he
    exact ⟨y, hA.inxOfNode_eq hb, he⟩
  · rintro ⟨y, rfl, he⟩
    obtain ⟨-, b, hb⟩ := hA.edge_node he
    exact ⟨y, Layout.mem_iterate.mpr ⟨indexOf_lt hb, he⟩, hA.inxOfNode_eq hb⟩

theorem neighbors_eq_nil (ha : u.node a = some x) :
    (g.runtimeNode ly a i).neighbors = [] ↔ ∀ y, ¬ g.nodes.Edge x y := by
  rw [List.eq_nil_iff_forall_not_mem]
  constructor
  · exact fun h y he => h y ((hA.mem_neighbors ha).mpr ⟨y, rfl, he⟩)
  · rintro h j hj
    obtain ⟨y, -, he⟩ := (hA.mem_neighbors ha).mp hj
    exact h y he

theorem registered_iff : (∃ k : Int, (portToNodeMap (g.runtimeNodes ly u.functions))[k]? = some (i : Int)) ↔
    ∃ a x, u.functions[i]? = some a ∧ u.node a = some x ∧ ∀ y, ¬ g.nodes.Edge x y := by
  simp only [getElem?_portToNodeMap, exists_and_left, exists_eq, and_true]
  constructor
  · rintro ⟨rnode, hr, hn, hi⟩
    obtain ⟨j, a, hj, rfl⟩ := ServiceGraph.mem_runtimeNodes.mp hr
    rw [ServiceGraph.runtimeNode_id, Int.natCast_inj] at hi
    subst hi
    obtain ⟨x, hx⟩ := indexOf_mem (List.mem_of_getElem? hj)
    exact ⟨a, hj, x, hx, (hA.neighbors_eq_nil hx).mp hn⟩
  · rintro ⟨a, hi, x, hx, hno⟩
    exact ⟨_, ServiceGraph.mem_runtimeNodes.mpr ⟨i, a, hi, rfl⟩, (hA.neighbors_eq_nil hx).mpr hno,
      ServiceGraph.runtimeNode_id ..⟩

end Assembled
end DeepNF
