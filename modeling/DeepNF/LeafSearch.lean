import DeepNF.GraphLaws

/-!
# The leaf search (`Orchestrator::findAllLeaves`)

The search keeps no set of the nodes that it has seen. It comes to an end if and only if no cycle can be
reached from its root (`findAllLeaves_ends_iff`), and then it has collected the sinks that can be reached
(`findAllLeaves_sinks`). The constructor calls it on the nodes of the order dependencies that have no
parent; `leafSearch_ends_iff` says for which user inputs all of these calls end.
-/

namespace DeepNF
open Std (TreeMap)
open Relation Walks

namespace Nodes
variable {n : Nat} {ly : Layout n} {nodes : Nodes} {fuel root : Nat} {leaves leaves' : Finset Nat}

theorem findAllLeaves_acyclicBelow (hlt : ∀ {p q}, nodes.Edge p q → q < n)
    (h : findAllLeaves ly nodes fuel root leaves = .ok leaves') : AcyclicBelow nodes.Edge root := by
  induction fuel generalizing root leaves leaves' with
  | zero => cases h
  | succ fuel ih =>
    rw [findAllLeaves] at h
    split at h
    · rename_i hleaf
      exact .of_succ fun q he => absurd he (isLeaf_iff.mp hleaf q)
    · have hall : ∀ q ∈ ly.iterate (nodes.neighbors root), AcyclicBelow nodes.Edge q := by
        refine Rounds.foldlM_induction (P := fun done _ => ∀ q ∈ done, AcyclicBelow nodes.Edge q) ?_ (by simp) h
        intro done p s s' _ hdone hp q hq
        rcases List.mem_append.mp hq with hq | hq
        · exact hdone q hq
        · exact List.mem_singleton.mp hq ▸ ih hp
      exact .of_succ fun q he => hall q (Layout.mem_iterate.mpr ⟨hlt he, he⟩)

theorem findAllLeaves_of_acyclicBelow (hac : AcyclicBelow nodes.Edge root) (hfuel : n < fuel) (leaves : Finset Nat) :
    ∃ leaves', findAllLeaves ly nodes fuel root leaves = .ok leaves' := by
  classical
  have hcard : ((Finset.range n).filter (TransGen nodes.Edge root)).card ≤ n :=
    (Finset.card_filter_le _ _).trans (Finset.card_range n).le
  exact findAllLeaves_ends hac (hcard.trans_lt hfuel) leaves

/-- The search ends exactly if it meets no cycle, and then it is not nested deeper than there are nodes. -/
theorem findAllLeaves_ends_iff (hlt : ∀ {p q}, nodes.Edge p q → q < n) :
    (∃ fuel leaves', findAllLeaves ly nodes fuel root leaves = .ok leaves') ↔ AcyclicBelow nodes.Edge root := by
  constructor
  · rintro ⟨fuel, leaves', h⟩
    exact findAllLeaves_acyclicBelow hlt h
  · exact fun hac => ⟨n + 1, findAllLeaves_of_acyclicBelow hac (Nat.lt_succ_self n) leaves⟩

theorem findAllLeaves_error {e : SetupError} (h : findAllLeaves ly nodes fuel root leaves = .error e) :
    e = .endless := by
  induction fuel generalizing root leaves with
  | zero => cases h; rfl
  | succ fuel ih =>
    rw [findAllLeaves] at h
    split at h
    · cases h
    · obtain ⟨q, s, -, hq⟩ := Rounds.foldlM_error h
      exact ih hq

/-- On a finite acyclic graph the search adds the sinks that its root reaches, and there is one. -/
theorem findAllLeaves_sinks (ly : Layout nodes.length) (hlt : ∀ p q, nodes.Edge p q → q < nodes.length)
    (hac : Acyclic nodes.Edge) (root : Nat) (leaves : Finset Nat) :
    ∃ leaves', (∀ fuel, nodes.length < fuel → findAllLeaves ly nodes fuel root leaves = .ok leaves') ∧
      (∀ x, x ∈ leaves' ↔ x ∈ leaves ∨ ReflTransGen nodes.Edge root x ∧ nodes.isLeaf x = true) ∧
      ∃ x ∈ leaves', ReflTransGen nodes.Edge root x ∧ nodes.isLeaf x = true := by
  have hrun : ∀ fuel, nodes.length < fuel → ∃ leaves', findAllLeaves ly nodes fuel root leaves = .ok leaves' :=
    fun _ hfuel => findAllLeaves_of_acyclicBelow (hac.below root) hfuel leaves
  obtain ⟨leaves', h⟩ := hrun (nodes.length + 1) (Nat.lt_succ_self _)
  obtain ⟨hmem, x, hx, hsink⟩ := mem_findAllLeaves (fun he => hlt _ _ he) h
  refine ⟨leaves', fun fuel hfuel => ?_, fun x => ?_, x, (hmem x).mpr (.inr ⟨hx, hsink⟩), hx, isLeaf_iff.mpr hsink⟩
  · -- the depth that is allowed does not show in the result
    obtain ⟨leaves'', h'⟩ := hrun fuel hfuel
    have heq : leaves'' = leaves' := Finset.ext fun y => by
      rw [hmem, (mem_findAllLeaves (fun he => hlt _ _ he) h').1]
    rw [h', heq]
  · rw [hmem, SinkBelow, isLeaf_iff]

end Nodes

def diamond : Nodes := [
  { nf := "dnf_loadbalancer", neighbors := {1, 2} },
  { nf := "proxy", neighbors := {3}, parents := {0} },
  { nf := "compressor", neighbors := {3}, parents := {0} },
  { nf := "dnf_firewall", parents := {1, 2} }]

theorem findAllLeaves_diamond : ∃ leaves',
    (∀ fuel, 4 < fuel → diamond.findAllLeaves (.ascending 4) fuel 0 {7} = .ok leaves') ∧
      (∀ x, x ∈ leaves' ↔ x ∈ ({7} : Finset Nat) ∨ ReflTransGen diamond.Edge 0 x ∧ diamond.isLeaf x = true) ∧
      ∃ x ∈ leaves', ReflTransGen diamond.Edge 0 x ∧ diamond.isLeaf x = true := by
  have hedge : ∀ p q, diamond.Edge p q → q ∈ (Finset.range 4).filter (p < ·) := by
    intro p q he
    have hp : p < 4 := he.lt
    have hall : ∀ p ∈ Finset.range 4, ∀ q ∈ diamond.neighbors p, q ∈ (Finset.range 4).filter (p < ·) := by decide
    exact hall p (Finset.mem_range.mpr hp) q he
  exact Nodes.findAllLeaves_sinks (.ascending diamond.length)
    (fun p q he => Finset.mem_range.mp (Finset.mem_filter.mp (hedge p q he)).1)
    (.of_rank id fun p q he => (Finset.mem_filter.mp (hedge p q he)).2) 0 {7}

/-! ### The calls of the constructor -/

/-- What the constructor has when it starts to look for leaves: the parsed dependencies and the nodes with
the edges of the order dependencies. -/
def orderGraph (actionTable : ActionTable) (u : UserInput) : Except SetupError (Parsed × Nodes) := do
  let parsed ← parseOrderDependencies actionTable u.orderDependencies {}
  let parsed ← parsePriorityDependencies actionTable u.priorities parsed
  let nodes ← Nodes.addEdges (nodePairs (indexOf u.functions) parsed.parsedOrder)
    (u.functions.map fun f => { nf := f })
  return (parsed, nodes)

def orderRoots (u : UserInput) (parsed : Parsed) (nodes : Nodes) : Finset Nat :=
  (namedNodes (indexOf u.functions) parsed.parsedOrder).eraseNone.filter fun node => nodes.isRoot node = true

def UserInput.OrderRoot (u : UserInput) (actionTable : ActionTable) (r : Nat) : Prop :=
  (∃ y, u.Order actionTable r y) ∧ ∀ y, ¬ u.Order actionTable y r

/-- No root leads to a cycle of rejected pairs. -/
def UserInput.SearchEnds (u : UserInput) (actionTable : ActionTable) : Prop :=
  ∀ r, u.OrderRoot actionTable r → AcyclicBelow (u.Order actionTable) r

section Constructor
variable {actionTable : ActionTable} {u : UserInput} {ly : Layout u.functions.length} {parsed : Parsed}
  {nodes : Nodes}

theorem orderGraph_ok (h : orderGraph actionTable u = .ok (parsed, nodes)) :
    parsed.parsedOrder = u.parsedOrder actionTable ∧ parsed.parsedPriorities = u.parsedPriorities actionTable ∧
      Forest actionTable u nodes := by
  obtain ⟨parsed₁, hp₁, h⟩ := Rounds.bind_ok h
  obtain ⟨parsed₂, hp, h⟩ := Rounds.bind_ok h
  obtain ⟨nodes', hnodes, h⟩ := Rounds.bind_ok h
  cases h
  obtain ⟨hord, hprio⟩ := parsed_ok hp₁ hp
  rw [hord] at hnodes
  exact ⟨hord, hprio, forest_ok hnodes⟩

theorem mem_orderRoots (ly : Layout u.functions.length) (h : orderGraph actionTable u = .ok (parsed, nodes)) {r : Nat} :
    r ∈ ly.iterate (orderRoots u parsed nodes) ↔ u.OrderRoot actionTable r := by
  obtain ⟨hord, -, hF⟩ := orderGraph_ok h
  rw [orderRoots, hord]
  exact hF.mem_roots

/-- The searches of the constructor all end if and only if no root leads to a cycle. -/
theorem leafSearch_ends_iff (ly : Layout u.functions.length) (h : orderGraph actionTable u = .ok (parsed, nodes)) :
    (∀ root ∈ orderRoots u parsed nodes, ∃ fuel leaves, nodes.findAllLeaves ly fuel root ∅ = .ok leaves) ↔
      u.SearchEnds actionTable := by
  obtain ⟨-, -, hF⟩ := orderGraph_ok h
  have hroot : ∀ r, r ∈ orderRoots u parsed nodes ↔ u.OrderRoot actionTable r := by
    intro r
    rw [← mem_orderRoots ly h, Layout.mem_iterate]
    refine (and_iff_right_of_imp fun hr => ?_).symm
    obtain ⟨a, b, -, ha | hb⟩ := mem_namedNodes.mp (Finset.mem_eraseNone.mp (Finset.mem_filter.mp hr).1)
    exacts [indexOf_lt ha, indexOf_lt hb]
  have hends : ∀ r, (∃ fuel leaves, nodes.findAllLeaves ly fuel r ∅ = .ok leaves) ↔
      AcyclicBelow (u.Order actionTable) r := by
    intro r
    rw [Nodes.findAllLeaves_ends_iff fun he => hF.length ▸ hF.mirror.lt he, hF.edge]
  exact forall_congr' fun r => imp_congr (hroot r) (hends r)

theorem searchEnds_of_acyclic (hac : Acyclic fun a b => (a, b) ∈ u.orderDependencies) :
    u.SearchEnds actionTable :=
  fun r _ => (parts_acyclic (f := r) hac : Acyclic (u.Order actionTable)).below r

end Constructor

theorem leafSearch_ends_complex : ∃ parsed nodes,
    orderGraph actionTableJson inputComplexJson = .ok (parsed, nodes) ∧
      ∀ root ∈ orderRoots inputComplexJson parsed nodes,
        ∃ fuel leaves, nodes.findAllLeaves (.ascending 5) fuel root ∅ = .ok leaves := by
  obtain ⟨⟨parsed, nodes⟩, h, -⟩ := Rounds.exists_ok (P := fun _ => True)
    (x := orderGraph actionTableJson inputComplexJson) (by decide)
  have hends : inputComplexJson.SearchEnds actionTableJson := searchEnds_of_acyclic inputComplexJson_acyclic
  exact ⟨parsed, nodes, h, (leafSearch_ends_iff (u := inputComplexJson) (.ascending 5) h).mpr hends⟩

/-- A packet filter before a detector and a load balancer that wait for each other. -/
def waitingPair : UserInput where
  functions := ["iptables", "snort", "dnf_loadbalancer"]
  positional := []
  orderDependencies := [("iptables", "snort"), ("snort", "dnf_loadbalancer"), ("dnf_loadbalancer", "snort")]
  priorities := []
  receiverIp := "13.58.167.87"
  receiverPort := 11000

/-- The packet filter has no parent, and the search for the leaves below it has no end. -/
theorem leafSearch_waitingPair : ∃ parsed nodes, orderGraph actionTableJson waitingPair = .ok (parsed, nodes) ∧
    0 ∈ orderRoots waitingPair parsed nodes ∧
      ∀ (ly : Layout 3) fuel leaves, nodes.findAllLeaves ly fuel 0 ∅ ≠ .ok leaves := by
  obtain ⟨⟨parsed, nodes⟩, h, hroot, h01, h12, h21⟩ := Rounds.exists_ok
    (P := fun r : Parsed × Nodes => 0 ∈ orderRoots waitingPair r.1 r.2 ∧
      r.2.Edge 0 1 ∧ r.2.Edge 1 2 ∧ r.2.Edge 2 1)
    (x := orderGraph actionTableJson waitingPair) (by decide)
  obtain ⟨-, -, hF⟩ := orderGraph_ok h
  refine ⟨parsed, nodes, h, hroot, fun ly fuel leaves hl => ?_⟩
  have hlen : nodes.length = 3 := hF.length
  have hac : AcyclicBelow nodes.Edge 0 := Nodes.findAllLeaves_acyclicBelow (fun he => hlen ▸ hF.mirror.lt he) hl
  exact hac 1 (.single h01) (.tail (.single h12) h21)

end DeepNF
