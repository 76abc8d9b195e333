import DeepNF.GraphLaws

/-!
# The service graph and the runtime graph

The constructor adds its edges in pairs of calls, one at each end. `MirrorsServiceGraph` says that the two
sets of every node agree between any two of these pairs, and that the runtime nodes and the ports of the merger
repeat the final graph; `construct_mirrors` is the main result.
-/

namespace DeepNF
open Std (TreeMap)
open Relation

/-- The pairs of calls of `add_neighbor` and `add_parent` that the constructor makes: for the order dependencies,
and to attach the roots, the priority nodes and the leaves. -/
def ServiceGraph.edgeCalls {n : Nat} (ly : Layout n) (u : UserInput) (g : ServiceGraph) :
    List (Option Nat × Option Nat) :=
  nodePairs g.funcToNodes g.parsed.parsedOrder ++
    if u.hasPositionals then
      attachEdges g.first g.last (ly.iterate g.rootNodes) (ly.iterateNull g.priorityNodes) (ly.iterate g.leafNodes)
    else []

def ServiceGraph.nodesAfter {n : Nat} (ly : Layout n) (u : UserInput) (g : ServiceGraph) (k : Nat) :
    Except SetupError Nodes :=
  Nodes.addEdges ((g.edgeCalls ly u).take k) (u.functions.map fun f => { nf := f })

structure MirrorsServiceGraph (u : UserInput) (ly : Layout u.functions.length) (o : Orchestrator) : Prop where
  /-- Each phase ends between two pairs of calls. -/
  phases : ∀ k, ∃ nodes, o.graph.nodesAfter ly u k = .ok nodes ∧ nodes.Mirror
  final : o.graph.nodesAfter ly u (o.graph.edgeCalls ly u).length = .ok o.graph.nodes
  /-- The neighbors of a runtime node are the indices of the neighbors of its function's node. -/
  neighbors : ∀ (i : Nat) function, u.functions[i]? = some function → ∃ (rnode : RuntimeNode) (p : Nat),
    o.runtimeNodes[i]? = some rnode ∧ rnode.id = i ∧ o.graph.funcToNodes[function]? = some p ∧ rnode.neighbors.Nodup ∧
    ∀ j, j ∈ rnode.neighbors ↔ ∃ (k : Nat) (neighbor : String) (q : Nat), j = k ∧ u.functions[k]? = some neighbor ∧
      o.graph.funcToNodes[neighbor]? = some q ∧ q ∈ o.graph.nodes.neighbors p
  /-- The merger has a port for the sinks. -/
  ports : ∀ j : Int, (∃ port : Int, o.mergerInfo.portToNodeMap[port]? = some j) ↔
    ∃ (i : Nat) (function : String) (p : Nat), j = i ∧ u.functions[i]? = some function ∧
      o.graph.funcToNodes[function]? = some p ∧ o.graph.nodes.isLeaf p = true

section Build
variable {actionTable : ActionTable} {u : UserInput} {ly : Layout u.functions.length} {g : ServiceGraph}

theorem buildServiceGraph_calls (h : buildServiceGraph actionTable u ly = .ok g) :
    Nodes.addEdges (g.edgeCalls ly u) (u.functions.map fun f => { nf := f }) = .ok g.nodes := by
  obtain ⟨parsed₁, nodes, pairs, lv, hph⟩ := buildServiceGraph_phases h
  have hattach := hph.attach
  rw [ServiceGraph.edgeCalls, Nodes.addEdges_append, hph.funcToNodes, hph.edges]
  show Nodes.addEdges _ nodes = _
  split at hattach
  · rename_i hpos
    rw [if_pos hpos]
    exact hattach
  · rename_i hpos
    rw [if_neg hpos]
    exact hattach

theorem edgeCalls_lt (h : buildServiceGraph actionTable u ly = .ok g) {e : Option Nat × Option Nat}
    (he : e ∈ g.edgeCalls ly u) {p : Nat} (hp : e.1 = some p ∨ e.2 = some p) : p < u.functions.length := by
  obtain ⟨parsed₁, nodes, pairs, lv, hph⟩ := buildServiceGraph_phases h
  rcases List.mem_append.mp he with he | he
  · obtain ⟨d, -, rfl⟩ := List.mem_map.mp he
    rw [hph.funcToNodes] at hp
    exact hp.elim indexOf_lt indexOf_lt
  · split at he
    · rcases attachEdges_components he hp with h' | h' | h' | h' | h'
      · exact positionNode_lt (hph.first.symm.trans h')
      · exact positionNode_lt (hph.last.symm.trans h')
      · exact (Layout.mem_iterate.mp h').1
      · exact Layout.lt_of_mem_iterateNull h'
      · exact (Layout.mem_iterate.mp h').1
    · cases he

theorem mirror_new (functions : List String) : Nodes.Mirror (functions.map fun f => { nf := f }) := by
  intro p q
  simp only [Nodes.neighbors, Nodes.parents, List.getElem?_map]
  cases functions[p]? <;> cases functions[q]? <;> simp

theorem nodesAfter_mirror (h : buildServiceGraph actionTable u ly = .ok g) (k : Nat) :
    ∃ nodes, g.nodesAfter ly u k = .ok nodes ∧ nodes.Mirror := by
  have hcalls := buildServiceGraph_calls h
  rw [← List.take_append_drop k (g.edgeCalls ly u), Nodes.addEdges_append] at hcalls
  obtain ⟨nodes, hnodes, -⟩ := Rounds.bind_ok hcalls
  have hlt : ∀ e ∈ (g.edgeCalls ly u).take k, ∀ p, e.1 = some p ∨ e.2 = some p →
      p < List.length (u.functions.map fun f => ({ nf := f } : ServiceGraphNode)) := by
    intro e he p hp
    rw [List.length_map]
    exact edgeCalls_lt h (List.mem_of_mem_take he) hp
  obtain ⟨-, -, hm, -⟩ := Nodes.addEdges_ok hlt (mirror_new u.functions) hnodes
  exact ⟨nodes, hnodes, hm⟩

end Build

section Construct
variable {actionTable : ActionTable} {u : UserInput} {ly : Layout u.functions.length} {o : Orchestrator}

namespace Assembled
variable {g : ServiceGraph} (hA : Assembled actionTable u g) {a : String} {x i : Nat}
include hA

theorem nodup_neighbors (ha : u.node a = some x) : (g.runtimeNode ly a i).neighbors.Nodup := by
  rw [ServiceGraph.runtimeNode_neighbors (by rw [hA.funcToNodes]; exact ha)]
  refine (Layout.nodup_iterate _).map_on fun y hy z hz he => ?_
  have hinx : ∀ w ∈ ly.iterate (g.nodes.neighbors x), g.inxOfNode w = w := by
    intro w hw
    obtain ⟨-, b, hb⟩ := hA.edge_node (Layout.mem_iterate.mp hw).2
    exact hA.inxOfNode_eq hb
  rw [hinx y hy, hinx z hz] at he
  exact Int.natCast_inj.mp he

end Assembled

/-- The two graphs mirror each other, whatever sets overlap when the edges are added. -/
theorem construct_mirrors (hnd : u.functions.Nodup) (h : Orchestrator.construct actionTable u ly = .ok o) :
    MirrorsServiceGraph u ly o := by
  have hA := construct_assembled h
  have hg := construct_graph h
  obtain ⟨hrn, hport, -⟩ := construct_mergerInfo h
  have hnode : ∀ {b : String} {k : Nat}, o.graph.funcToNodes[b]? = some k ↔ u.functions[k]? = some b := by
    intro b k
    rw [hA.funcToNodes]
    exact indexOf_nodup hnd
  refine ⟨nodesAfter_mirror hg, ?_, fun i function hi => ?_, fun j => ?_⟩
  · rw [ServiceGraph.nodesAfter, List.take_length]
    exact buildServiceGraph_calls hg
  · have hx : u.node function = some i := (indexOf_nodup hnd).mpr hi
    refine ⟨o.graph.runtimeNode ly function i, i, ?_, ServiceGraph.runtimeNode_id .., hnode.mpr hi,
      hA.nodup_neighbors hx, fun j => ?_⟩
    · rw [hrn, ServiceGraph.getElem?_runtimeNodes, hi, Option.map_some]
    · rw [hA.mem_neighbors hx]
      constructor
      · rintro ⟨y, rfl, he⟩
        obtain ⟨-, b, hb⟩ := hA.edge_node he
        exact ⟨y, b, y, rfl, indexOf_some hb, hnode.mpr (indexOf_some hb), he⟩
      · rintro ⟨k, b, q, rfl, hk, hq, he⟩
        obtain rfl : k = q := (List.getElem?_inj (List.getElem?_eq_some_iff.mp hk).1 hnd).mp
          (hk.trans (hnode.mp hq).symm)
        exact ⟨k, rfl, he⟩
  · rw [hport, hrn]
    constructor
    · rintro ⟨port, hp⟩
      obtain ⟨⟨rnode, hr, -, rfl⟩, -⟩ := getElem?_portToNodeMap.mp hp
      obtain ⟨i, a, -, rfl⟩ := ServiceGraph.mem_runtimeNodes.mp hr
      rw [ServiceGraph.runtimeNode_id] at hp ⊢
      obtain ⟨b, x, hi, hx, hno⟩ := hA.registered_iff.mp ⟨port, hp⟩
      exact ⟨i, b, x, rfl, hi, hnode.mpr (indexOf_some hx), Nodes.isLeaf_iff.mpr hno⟩
    · rintro ⟨i, a, p, rfl, hi, hp, hleaf⟩
      exact hA.registered_iff.mpr ⟨a, p, hi, (indexOf_nodup hnd).mpr (hnode.mp hp), Nodes.isLeaf_iff.mp hleaf⟩

end Construct

theorem construct_mirrors_complex : ∃ o,
    Orchestrator.construct actionTableJson inputComplexJson (.ascending 5) = .ok o ∧
    MirrorsServiceGraph inputComplexJson (.ascending 5) o := by
  obtain ⟨o, ho⟩ := inputComplexJson_constructed
  exact ⟨o, ho, construct_mirrors (by decide) ho⟩

end DeepNF
