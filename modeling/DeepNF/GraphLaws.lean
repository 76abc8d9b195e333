import DeepNF.ConstructTotal

/-!
# What the service graph is meant to guarantee

The order of the dependencies on every path (`EnforcesOrder`), acyclicity, and one path to every node
that the merger listens for (`DeliversOnce`): for each of them the exact condition on the user input
under which the constructed graph has it. The conditions are those of `Attach`, read for the parts of the
input.
-/

namespace DeepNF
open Relation Walks

def UserInput.Mentions (u : UserInput) (function : String) : Prop :=
  ∃ d ∈ u.orderDependencies ++ u.priorities, d.1 = function ∨ d.2 = function

instance (u : UserInput) (function : String) : Decidable (u.Mentions function) :=
  inferInstanceAs (Decidable (∃ d ∈ u.orderDependencies ++ u.priorities, d.1 = function ∨ d.2 = function))

/-- All paths from the first node to the second function of a rejected pair lead through the first
function of the pair. -/
def EnforcesOrder (actionTable : ActionTable) (u : UserInput) (nodes : Nodes) (first : Nat) : Prop :=
  ∀ a b, (a, b) ∈ u.orderDependencies → actionTable.rejects (a, b) = true →
    ∀ x y, u.node a = some x → u.node b = some y → ∀ path, Walk nodes.Edge first path y → x ∈ path

/-- At most one path leads from the first node to a node that the merger listens for. -/
def DeliversOnce (o : Orchestrator) (first : Nat) : Prop :=
  ∀ (k : Int) (i : Nat), o.mergerInfo.portToNodeMap[k]? = some (i : Int) →
    ∀ path path', Walk o.graph.nodes.Edge first path i → Walk o.graph.nodes.Edge first path' i → path = path'

/-! ### The sample input -/

theorem acyclic_of_listed {u : UserInput}
    (h : ∀ d ∈ u.orderDependencies, u.functions.idxOf d.1 < u.functions.idxOf d.2) :
    Acyclic fun a b => (a, b) ∈ u.orderDependencies :=
  .of_rank (u.functions.idxOf ·) fun a b hab => h (a, b) hab

theorem inputComplexJson_acyclic : Acyclic fun a b => (a, b) ∈ inputComplexJson.orderDependencies :=
  acyclic_of_listed (by decide)

theorem inputComplexJson_constructed :
    ∃ o, Orchestrator.construct actionTableJson inputComplexJson (.ascending 5) = .ok o :=
  construct_total (by unfold Usable; decide) inputComplexJson_acyclic (by decide)

theorem inputComplexJson_order {x y : Nat} :
    inputComplexJson.Order actionTableJson x y ↔ x = 2 ∧ (y = 3 ∨ y = 4) := by
  have hord : nodePairs (indexOf inputComplexJson.functions) (inputComplexJson.parsedOrder actionTableJson) =
      [(some 2, some 3), (some 2, some 4)] := by decide
  rw [← mem_nodePairs, hord]
  simp only [List.mem_cons, List.not_mem_nil, or_false, Prod.mk.injEq, Option.some.injEq]
  omega

theorem inputComplexJson_free {x : Nat} : inputComplexJson.Free actionTableJson x ↔ x = 0 ∨ x = 2 := by
  have hfree : namedNodes (indexOf inputComplexJson.functions)
        (inputComplexJson.parsedPriorities actionTableJson) =
      {some 0, some 2} := by decide
  have hmem := @mem_namedNodes inputComplexJson (inputComplexJson.parsedPriorities actionTableJson) (some x)
  rw [hfree, Finset.mem_insert, Finset.mem_singleton, Option.some.injEq, Option.some.injEq] at hmem
  exact hmem.symm

theorem inputComplexJson_last : inputComplexJson.positionNode "last" = none := by decide

theorem inputComplexJson_forced : (inputComplexJson.parts actionTableJson 1).Forced := by
  intro a b hab
  obtain ⟨rfl, hb⟩ := inputComplexJson_order.mp hab
  refine ⟨fun h => ?_, fun c hc => (inputComplexJson_order.mp hc).1⟩
  have := inputComplexJson_free.mp h
  omega

section Laws
variable {actionTable : ActionTable} {u : UserInput} {ly : Layout u.functions.length}
  {o : Orchestrator} {f z : Nat}

theorem not_named {a : String} (ha : u.node a = some z) (h : ¬ u.Mentions a) :
    ¬ (u.parts actionTable f).Named z := by
  have hmem : ∀ {d}, d ∈ u.parsedOrder actionTable ∨ d ∈ u.parsedPriorities actionTable →
      d ∈ u.orderDependencies ++ u.priorities := by
    rintro d (hd | hd)
    exacts [List.mem_append_left _ (List.mem_filter.mp hd).1, (List.mem_filter.mp hd).1]
  rintro (⟨y, ⟨c, d, hcd, hc, hd⟩ | ⟨c, d, hcd, hc, hd⟩⟩ | ⟨c, d, hcd, hc | hd⟩)
  · exact h ⟨_, hmem (.inl hcd), .inl (indexOf_inj hc ha)⟩
  · exact h ⟨_, hmem (.inl hcd), .inr (indexOf_inj hd ha)⟩
  · exact h ⟨_, hmem (.inr hcd), .inl (indexOf_inj hc ha)⟩
  · exact h ⟨_, hmem (.inr hcd), .inr (indexOf_inj hd ha)⟩

theorem enforcesOrder_eq {nodes : Nodes} : EnforcesOrder actionTable u nodes f ↔
    ∀ x y, u.Order actionTable x y → ∀ path, Walk nodes.Edge f path y → x ∈ path := by
  constructor
  · rintro h x y ⟨a, b, hab, ha, hb⟩
    obtain ⟨hmem, hrej⟩ := List.mem_filter.mp hab
    exact h a b hmem hrej x y ha hb
  · exact fun h a b hmem hrej x y ha hb => h x y ⟨a, b, List.mem_filter.mpr ⟨hmem, hrej⟩, ha, hb⟩

theorem edge_eq_parts (hA : Assembled actionTable u o.graph) (hpos : u.hasPositionals)
    (hf : u.positionNode "first" = some f) : o.graph.nodes.Edge = (u.parts actionTable f).Edge := by
  funext x y
  rw [hA.attached hpos f (hA.first.trans hf) x y]

theorem detached_first (hA : Assembled actionTable u o.graph) (hpos : ¬ u.hasPositionals)
    (hfirst : ¬ (u.parts actionTable f).Named f) (y : Nat) : ¬ o.graph.nodes.Edge f y := by
  rw [hA.detached (by simpa using hpos)]
  exact fun h => hfirst (.inl (.of_left h))

/-- The order of the dependencies is enforced exactly if no second function of a rejected pair is in an
accepted pair or in a second rejected pair with another first function. -/
theorem construct_enforcesOrder_iff (h : Orchestrator.construct actionTable u ly = .ok o)
    (hac : Acyclic fun a b => (a, b) ∈ u.orderDependencies) (hfirst : u.positionNode "first" = some f)
    (hpositional : ∀ p ∈ u.positional, ¬ u.Mentions p.1) :
    EnforcesOrder actionTable u o.graph.nodes f ↔ (u.hasPositionals → (u.parts actionTable f).Forced) := by
  have hA := construct_assembled h
  have hapart : ∀ {position z}, u.positionNode position = some z → ¬ (u.parts actionTable f).Named z := by
    intro position z hz
    obtain ⟨a, ha, hn⟩ := positionNode_some hz
    exact not_named hn (hpositional _ ha)
  rw [enforcesOrder_eq]
  by_cases hpos : u.hasPositionals
  · rw [edge_eq_parts hA hpos hfirst]
    exact (Attach.Parts.dominated_iff (parts_acyclic hac) parts_finite (hapart hfirst)
        fun z hz => hapart hz).trans
      ⟨fun h _ => h, fun h => h hpos⟩
  · refine iff_of_true (fun x y hxy path hw => ?_) fun hp => absurd hp hpos
    have hy := (hw.eq_of_no_succ (detached_first hA hpos (hapart hfirst))).2
    exact absurd (.inl (.of_right (hy ▸ hxy))) (hapart hfirst)

theorem construct_enforcesOrder_complex :
    ∃ o, Orchestrator.construct actionTableJson inputComplexJson (.ascending 5) = .ok o ∧
      EnforcesOrder actionTableJson inputComplexJson o.graph.nodes 1 := by
  obtain ⟨o, ho⟩ := inputComplexJson_constructed
  exact ⟨o, ho, (construct_enforcesOrder_iff ho inputComplexJson_acyclic (by decide) (by decide)).mpr
    fun _ => inputComplexJson_forced⟩

def sharedSuccessor : UserInput where
  functions := ["pktgen", "proxy", "dnf_loadbalancer", "dnf_firewall"]
  positional := [("pktgen", "first")]
  orderDependencies := [("proxy", "dnf_loadbalancer")]
  priorities := [("dnf_firewall", "dnf_loadbalancer")]
  receiverIp := "13.58.167.87"
  receiverPort := 11000

theorem sharedSuccessor_constructed :
    ∃ o, Orchestrator.construct actionTableJson sharedSuccessor (.ascending 4) = .ok o ∧
      o.graph.nodes.Edge 0 2 ∧ o.graph.nodes.Edge 0 1 ∧ o.graph.nodes.Edge 1 2 ∧
      o.mergerInfo.portToNodeMap[(8003 : Int)]? = some 2 :=
  Rounds.exists_ok (by decide)

/-- Packets go to the load balancer without passing through the proxy. -/
theorem enforcesOrder_sharedSuccessor :
    sharedSuccessor.functions.Nodup ∧ (Acyclic fun a b => (a, b) ∈ sharedSuccessor.orderDependencies) ∧
      sharedSuccessor.positionNode "first" = some 0 ∧
      (∀ p ∈ sharedSuccessor.positional, ¬ sharedSuccessor.Mentions p.1) ∧
      ∃ o, Orchestrator.construct actionTableJson sharedSuccessor (.ascending 4) = .ok o ∧
        ¬ EnforcesOrder actionTableJson sharedSuccessor o.graph.nodes 0 := by
  refine ⟨by decide, acyclic_of_listed (by decide), by decide, by decide, ?_⟩
  obtain ⟨o, ho, hedge, -⟩ := sharedSuccessor_constructed
  refine ⟨o, ho, fun h => ?_⟩
  have hmem := h "proxy" "dnf_loadbalancer" (by decide) (by decide) 1 2 (by decide)
    (by decide)
    [2, 0] (Walk.start.step hedge)
  simp at hmem

theorem acyclic_of_order {nodes : Nodes} (hac : Acyclic fun a b => (a, b) ∈ u.orderDependencies)
    (h : ∀ x y, nodes.Edge x y ↔ u.Order actionTable x y) : Acyclic nodes.Edge := by
  have hedge : nodes.Edge = u.Order actionTable := by
    funext x y
    rw [h]
  rw [hedge]
  exact parts_acyclic (f := 0) hac

/-- The graph is acyclic exactly if the first and the last function are not attached to themselves: with
something to attach, neither of them is in a rejected or an accepted pair, and they differ. -/
theorem construct_acyclic_iff (h : Orchestrator.construct actionTable u ly = .ok o)
    (hac : Acyclic fun a b => (a, b) ∈ u.orderDependencies) :
    Acyclic o.graph.nodes.Edge ↔ (u.hasPositionals → ∀ f, u.positionNode "first" = some f →
      (∃ x, (u.parts actionTable f).Named x) →
        ¬ (u.parts actionTable f).Named f ∧ (u.parts actionTable f).LastApart) := by
  have hA := construct_assembled h
  by_cases hpos : u.hasPositionals
  · cases hf : u.positionNode "first" with
    | none =>
      refine iff_of_true ?_ fun _ f hf' => by cases hf'
      exact acyclic_of_order hac (hA.unattached hpos (hA.first.trans hf)).2.2
    | some f =>
      rw [edge_eq_parts hA hpos hf]
      refine (Attach.Parts.acyclic_iff (parts_acyclic hac) parts_finite parts_searched).trans
        ⟨fun h _ f' hf' => ?_, fun h => h hpos f rfl⟩
      cases hf'
      exact h
  · refine iff_of_true ?_ fun hp => absurd hp hpos
    exact acyclic_of_order hac (hA.detached (by simpa using hpos))

theorem construct_acyclic_complex :
    ∃ o, Orchestrator.construct actionTableJson inputComplexJson (.ascending 5) = .ok o ∧
      Acyclic o.graph.nodes.Edge := by
  obtain ⟨o, ho⟩ := inputComplexJson_constructed
  have hfirst : inputComplexJson.positionNode "first" = some 1 := by decide
  refine ⟨o, ho, (construct_acyclic_iff ho inputComplexJson_acyclic).mpr fun _ f hf _ => ?_⟩
  obtain rfl := Option.some.inj (hf.symm.trans hfirst)
  have hnode : inputComplexJson.node "pktgen" = some 1 := by decide
  refine ⟨not_named hnode (by decide), fun z hz => ?_⟩
  exact absurd (hz.symm.trans inputComplexJson_last) (by simp)

/-- The service graph of `inputs/input.json`: the last function follows another one. -/
def inputJson : UserInput where
  functions := ["snort", "iptables", "haproxy", "openvpn"]
  positional := [("openvpn", "first"), ("haproxy", "last")]
  orderDependencies := [("iptables", "haproxy")]
  priorities := [("snort", "iptables")]
  receiverIp := "13.58.167.87"
  receiverPort := 11000

/-- `haproxy` becomes its own neighbor. -/
theorem acyclic_inputJson :
    inputJson.functions.Nodup ∧ (Acyclic fun a b => (a, b) ∈ inputJson.orderDependencies) ∧
      (∀ p ∈ inputJson.positional, p.1 ∈ inputJson.functions) ∧
      ∃ o, Orchestrator.construct actionTableJson inputJson (.ascending 4) = .ok o ∧
        ¬ Acyclic o.graph.nodes.Edge := by
  refine ⟨by decide, acyclic_of_listed (by decide), by decide, ?_⟩
  obtain ⟨o, ho, hedge⟩ := Rounds.exists_ok (P := fun o : Orchestrator => o.graph.nodes.Edge 2 2)
    (x := Orchestrator.construct actionTableJson inputJson (.ascending 4)) (by decide)
  exact ⟨o, ho, fun h => h.irrefl hedge⟩

theorem deliversOnce_eq (h : Orchestrator.construct actionTable u ly = .ok o)
    (hfirst : u.positionNode "first" = some f) :
    DeliversOnce o f ↔ ∀ x, (∀ y, ¬ o.graph.nodes.Edge x y) →
      ∀ path path', Walk o.graph.nodes.Edge f path x → Walk o.graph.nodes.Edge f path' x → path = path' := by
  have hA := construct_assembled h
  obtain ⟨hrn, hport, -⟩ := construct_mergerInfo h
  -- a node at the end of a walk stands for a function
  have hnode : ∀ {x path}, Walk o.graph.nodes.Edge f path x → ∃ a, u.node a = some x := by
    intro x path hw
    cases hw with
    | start =>
      obtain ⟨a, -, ha⟩ := positionNode_some hfirst
      exact ⟨a, ha⟩
    | step _ he => exact (hA.edge_node he).2
  rw [DeliversOnce, hport, hrn]
  constructor
  · intro hd x hsink path path' hw hw'
    obtain ⟨a, ha⟩ := hnode hw
    obtain ⟨k, hk⟩ := hA.registered_iff.mpr ⟨a, x, indexOf_some ha, ha, hsink⟩
    exact hd k x hk path path' hw hw'
  · intro hs k i hk path path' hw hw'
    obtain ⟨a, x, hi, hx, hno⟩ := hA.registered_iff.mp ⟨k, hk⟩
    obtain ⟨b, hb⟩ := hnode hw
    have hab : b = a := Option.some.inj ((indexOf_some hb).symm.trans hi)
    have hxi : x = i := Option.some.inj (hx.symm.trans (hab ▸ hb))
    exact hs i (hxi ▸ hno) path path' hw hw'

/-- Packets reach the merger over one path exactly if the order is forced and at most one node is attached
to the last one, or the last node is attached to itself and nothing reaches the merger. -/
theorem construct_deliversOnce_iff (h : Orchestrator.construct actionTable u ly = .ok o)
    (hac : Acyclic fun a b => (a, b) ∈ u.orderDependencies) (hfirst : u.positionNode "first" = some f)
    (hpositional : ∀ p ∈ u.positional, p.2 = "first" → ¬ u.Mentions p.1) :
    DeliversOnce o f ↔ (u.hasPositionals → (u.parts actionTable f).LastApart →
      (u.parts actionTable f).Forced ∧ ((u.parts actionTable f).last.isSome →
        ∀ x y, (u.parts actionTable f).EndPoint x → (u.parts actionTable f).EndPoint y → x = y)) := by
  have hA := construct_assembled h
  have hapart : ¬ (u.parts actionTable f).Named f := by
    obtain ⟨a, ha, hn⟩ := positionNode_some hfirst
    exact not_named hn (hpositional _ ha rfl)
  rw [deliversOnce_eq h hfirst]
  by_cases hpos : u.hasPositionals
  · rw [edge_eq_parts hA hpos hfirst]
    exact (Attach.Parts.unique_walks_iff (parts_acyclic hac) parts_finite parts_searched hapart).trans
      ⟨fun h _ => h, fun h => h hpos⟩
  · refine iff_of_true (fun x _ path path' hw hw' => ?_) fun hp => absurd hp hpos
    have hno := detached_first hA hpos hapart
    rw [(hw.eq_of_no_succ hno).1, (hw'.eq_of_no_succ hno).1]

theorem construct_deliversOnce_complex :
    ∃ o, Orchestrator.construct actionTableJson inputComplexJson (.ascending 5) = .ok o ∧ DeliversOnce o 1 := by
  obtain ⟨o, ho⟩ := inputComplexJson_constructed
  refine ⟨o, ho, (construct_deliversOnce_iff ho inputComplexJson_acyclic (by decide) (by decide)).mpr
    fun _ _ => ⟨inputComplexJson_forced, fun hs => ?_⟩⟩
  rw [UserInput.parts, inputComplexJson_last] at hs
  cases hs

/-- Two paths lead to the load balancer, whose packets the merger receives. -/
theorem deliversOnce_sharedSuccessor :
    sharedSuccessor.functions.Nodup ∧ (Acyclic fun a b => (a, b) ∈ sharedSuccessor.orderDependencies) ∧
      sharedSuccessor.positionNode "first" = some 0 ∧
      (∀ p ∈ sharedSuccessor.positional, p.2 = "first" → ¬ sharedSuccessor.Mentions p.1) ∧
      ∃ o, Orchestrator.construct actionTableJson sharedSuccessor (.ascending 4) = .ok o ∧
        ¬ DeliversOnce o 0 := by
  refine ⟨by decide, acyclic_of_listed (by decide), by decide, by decide, ?_⟩
  obtain ⟨o, ho, h02, h01, h12, hport⟩ := sharedSuccessor_constructed
  refine ⟨o, ho, fun h => ?_⟩
  have heq := h 8003 2 hport [2, 0] [2, 1, 0] (Walk.start.step h02) ((Walk.start.step h01).step h12)
  simp at heq

end Laws
end DeepNF
