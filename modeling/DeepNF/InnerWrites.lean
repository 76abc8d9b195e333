import DeepNF.ConstructSpec
import DeepNF.InnerTrail

/-!
# The write of an inner node of the service graph

A tree with every function, an inner node `v`, and a field that only `v` writes: `construct_innerWrite_iff`
says when the merge of a complete set of packets has the field as the leaves below `v` send it. What the
trail of `DeepNF.InnerTrail` needs to know about the configuration is that every conflict item takes its
major to a parent in the graph.
-/

namespace DeepNF
open Std (TreeMap)
open Relation Walks

/-- The graph is a tree below its first node, with every function. -/
structure Orchestrator.TreeFrom (o : Orchestrator) (u : UserInput) (first : Nat) : Prop where
  named : o.graph.first = some first
  reach : ∀ i < u.functions.length, ReflTransGen o.graph.nodes.Edge first i
  root : ∀ x, ¬ o.graph.nodes.Edge x first
  parent : ∀ x y z, o.graph.nodes.Edge x z → o.graph.nodes.Edge y z → x = y

def Orchestrator.below (o : Orchestrator) (v : Nat) : Set Int :=
  {k | ∃ x : Nat, k = x ∧ ReflTransGen o.graph.nodes.Edge v x}

/-- If all leaves below `v` send the same value of `F`, the merged packet has it. -/
def InnerWriteSurvives (memory : Memory) (o : Orchestrator) (v : Nat) (F : Field) : Prop :=
  ∀ m, CompleteMap o.mergerInfo m → (∀ (k : Int) p, m[k]? = some p → 0 ∉ p.data) →
    ∀ val, (∀ (k : Int) p, m[k]? = some p → k ∈ o.below v → p.value F = val) →
      ∃ enough, ∀ sweeps, enough ≤ sweeps → ∃ r, mergePacket sweeps memory o.mergerInfo m = .ok r ∧ r.value F = val

/-! ### The configuration of the merger -/

section Config
variable {actionTable : ActionTable} {u : UserInput} {ly : Layout u.functions.length} {o : Orchestrator}

theorem Assembled.parentId_cases {g : ServiceGraph} (hA : Assembled actionTable u g)
    (ly : Layout u.functions.length) (p : Nat) :
    (g.parentId ly p = -1 ∧ ∀ q, ¬ g.nodes.Edge q p) ∨ ∃ q : Nat, g.parentId ly p = q ∧ g.nodes.Edge q p := by
  have hmem : ∀ q, q ∈ ly.iterate (g.nodes.parents p) ↔ g.nodes.Edge q p := by
    intro q
    rw [Layout.mem_iterate, ← hA.mirror q p]
    refine and_iff_right_of_imp fun he => ?_
    obtain ⟨⟨a, ha⟩, -⟩ := hA.edge_node he
    exact indexOf_lt ha
  unfold ServiceGraph.parentId Nodes.getParent
  cases hl : ly.iterate (g.nodes.parents p) with
  | nil =>
    rw [hl] at hmem
    exact .inl ⟨rfl, fun q he => List.not_mem_nil ((hmem q).mpr he)⟩
  | cons q l =>
    have he : g.nodes.Edge q p := (hmem q).mp (hl ▸ List.mem_cons_self ..)
    obtain ⟨⟨a, ha⟩, -⟩ := hA.edge_node he
    exact .inr ⟨q, hA.inxOfNode_eq ha, he⟩

theorem conflictsList_parent (h : Orchestrator.construct actionTable u ly = .ok o) {ci : ConflictItem}
    (hci : ci ∈ o.mergerInfo.conflictsList) :
    ∃ p : Nat, ci.major = p ∧ (ci.parent = -1 ∨ ∃ q : Nat, ci.parent = q ∧ o.graph.nodes.Edge q p) := by
  have hA := construct_assembled h
  obtain ⟨lists, hlists, hl⟩ := Rounds.bind_ok (construct_mergerInfo h).2.2.2
  rw [← Except.ok.inj hl] at hci
  obtain ⟨l, hl, hcl⟩ := List.mem_flatten.mp hci
  obtain ⟨major, -, hmajor⟩ := Rounds.mem_of_mapM hlists hl
  split at hmajor
  · cases hmajor
  · rename_i p hp
    cases hmajor
    obtain ⟨minor, -, rfl⟩ := List.mem_map.mp hcl
    rw [hA.funcToNodes] at hp
    exact ⟨p, hA.inxOf_eq hp, (hA.parentId_cases ly p).imp_left And.left⟩

theorem nodeMap_iff (h : Orchestrator.construct actionTable u ly = .ok o) {k : Int} {rnode : RuntimeNode} :
    o.mergerInfo.nodeMap[k]? = some rnode ↔
      ∃ (i : Nat) (a : String), k = i ∧ u.functions[i]? = some a ∧ rnode = o.graph.runtimeNode ly a i := by
  obtain ⟨hrn, -, hmap, -⟩ := construct_mergerInfo h
  have hnd : (o.runtimeNodes.map (·.id)).Nodup := by
    rw [hrn, ServiceGraph.map_id_runtimeNodes]
    exact List.nodup_range.map Nat.cast_injective
  rw [hmap, TreeMaps.getElem?_ofList_map hnd, hrn, ServiceGraph.mem_runtimeNodes]
  constructor
  · rintro ⟨⟨i, a, ha, rfl⟩, rfl⟩
    exact ⟨i, a, ServiceGraph.runtimeNode_id .., ha, rfl⟩
  · rintro ⟨i, a, rfl, ha, rfl⟩
    exact ⟨⟨i, a, ha, rfl⟩, ServiceGraph.runtimeNode_id ..⟩

theorem mem_leaves_iff (h : Orchestrator.construct actionTable u ly = .ok o) {k : Int} :
    k ∈ o.mergerInfo.leaves ↔ ∃ (i : Nat) (a : String) (x : Nat), k = i ∧ u.functions[i]? = some a ∧
      u.node a = some x ∧ ∀ y, ¬ o.graph.nodes.Edge x y := by
  have hA := construct_assembled h
  obtain ⟨hrn, hport, -⟩ := construct_mergerInfo h
  have hmem : k ∈ o.mergerInfo.leaves ↔ ∃ port : Int, o.mergerInfo.portToNodeMap[port]? = some k := by
    simp only [MergerInfo.leaves, List.mem_map, Prod.exists, TreeMap.mem_toList_iff_getElem?_eq_some,
      exists_eq_right]
  rw [hmem, hport, hrn]
  constructor
  · rintro ⟨port, hp⟩
    obtain ⟨⟨rnode, hr, -, rfl⟩, -⟩ := getElem?_portToNodeMap.mp hp
    obtain ⟨i, a, -, rfl⟩ := ServiceGraph.mem_runtimeNodes.mp hr
    rw [ServiceGraph.runtimeNode_id] at hp ⊢
    obtain ⟨b, x, hb, hx, hno⟩ := hA.registered_iff.mp ⟨port, hp⟩
    exact ⟨i, b, x, rfl, hb, hx, hno⟩
  · rintro ⟨i, a, x, rfl, ha, hx, hno⟩
    exact hA.registered_iff.mpr ⟨a, x, ha, hx, hno⟩

theorem leaf_mem_nodeMap (h : Orchestrator.construct actionTable u ly = .ok o) {k : Int}
    (hk : k ∈ o.mergerInfo.leaves) : k ∈ o.mergerInfo.nodeMap := by
  obtain ⟨i, b, -, rfl, hb, -⟩ := (mem_leaves_iff h).mp hk
  rw [TreeMap.mem_iff_isSome_getElem?, (nodeMap_iff h).mpr ⟨i, b, rfl, hb, rfl⟩]
  rfl

theorem nodeWrites_iff (h : Orchestrator.construct actionTable u ly = .ok o) {v : Nat} {a : String} {F : Field}
    (hv : u.functions[v]? = some a) (hw : F ∈ getWriteFields (stringToNF a))
    (hother : ∀ i b, u.functions[i]? = some b → i ≠ v → F ∉ getWriteFields (stringToNF b)) (k : Int) :
    F ∈ nodeWrites o.mergerInfo k ↔ k = v := by
  unfold nodeWrites
  split
  · rename_i rnode hr
    obtain ⟨i, b, rfl, hb, rfl⟩ := (nodeMap_iff h).mp hr
    rw [ServiceGraph.runtimeNode_nf, Int.natCast_inj]
    constructor
    · intro hF
      by_contra hne
      exact hother i b hb hne hF
    · rintro rfl
      rwa [Option.some.inj (hb.symm.trans hv)]
  · rename_i hnone
    refine iff_of_false (Finset.notMem_empty F) ?_
    rintro rfl
    have := (nodeMap_iff h).mpr ⟨v, a, rfl, hv, rfl⟩
    rw [hnone] at this
    cases this

/-! ### A tree -/

section Tree
variable {memory : Memory} {f v : Nat} (h : Orchestrator.construct actionTable u ly = .ok o) (htree : o.TreeFrom u f)
include h htree

theorem tree_node {i : Nat} (hi : i < u.functions.length) :
    ∃ a, u.functions[i]? = some a ∧ u.node a = some i := by
  have hA := construct_assembled h
  have hnode : ∃ a, u.node a = some i := by
    rcases ReflTransGen.cases_tail (htree.reach i hi) with rfl | ⟨x, -, he⟩
    · obtain ⟨a, -, ha⟩ := positionNode_some (hA.first.symm.trans htree.named)
      exact ⟨a, ha⟩
    · exact (hA.edge_node he).2
  obtain ⟨a, ha⟩ := hnode
  exact ⟨a, indexOf_some ha, ha⟩

theorem tree_acyclic : Acyclic o.graph.nodes.Edge := by
  refine .of_tree htree.root htree.parent fun x y he => htree.reach x ?_
  obtain ⟨⟨a, ha⟩, -⟩ := (construct_assembled h).edge_node he
  exact indexOf_lt ha

theorem tree_leaves {k : Int} : k ∈ o.mergerInfo.leaves ↔
    ∃ x : Nat, k = x ∧ x < u.functions.length ∧ ∀ y, ¬ o.graph.nodes.Edge x y := by
  rw [mem_leaves_iff h]
  constructor
  · rintro ⟨i, a, x, rfl, ha, hx, hno⟩
    have hi := (List.getElem?_eq_some_iff.mp ha).1
    obtain ⟨b, hb, hbi⟩ := tree_node h htree hi
    rw [Option.some.inj (hb.symm.trans ha), hx] at hbi
    exact ⟨i, rfl, hi, Option.some.inj hbi ▸ hno⟩
  · rintro ⟨x, rfl, hx, hno⟩
    obtain ⟨a, ha, hax⟩ := tree_node h htree hx
    exact ⟨x, a, x, rfl, ha, hax, hno⟩

theorem tree_leaves_ne_nil : o.mergerInfo.leaves ≠ [] := by
  have hlt : ∀ x y, o.graph.nodes.Edge x y → y < u.functions.length := fun x y he =>
    (construct_assembled h).mirror_lt he
  obtain ⟨l, hl, hno⟩ := (tree_acyclic h htree).exists_sink (Set.finite_lt_nat u.functions.length) hlt f
  refine List.ne_nil_of_mem ((tree_leaves h htree).mpr ⟨l, rfl, ?_, hno⟩)
  rcases ReflTransGen.cases_tail hl with rfl | ⟨x, -, he⟩
  · exact positionNode_lt ((construct_assembled h).first.symm.trans htree.named)
  · exact hlt x l he

open Classical in
theorem tree_stable :
    ∃ enough slots, ∀ sweeps, enough ≤ sweeps → stableSlots sweeps o.mergerInfo = some slots := by
  have hac := tree_acyclic h htree
  -- every conflict item takes its major to an id with fewer ancestors
  refine stableSlots_of_rank (fun k => if k < 0 then 0 else
    ((Finset.range u.functions.length).filter
      (TransGen o.graph.nodes.Edge · k.toNat)).card + 1) fun ci hci => ?_
  obtain ⟨p, hp, hpar⟩ := conflictsList_parent h hci
  rw [hp, if_neg (by omega : ¬ (p : Int) < 0)]
  rcases hpar with hpar | ⟨q, hpar, he⟩
  · rw [hpar, if_pos (by omega)]
    omega
  · rw [hpar, if_neg (by omega : ¬ (q : Int) < 0), Int.toNat_natCast, Int.toNat_natCast]
    refine Nat.succ_lt_succ (Finset.card_lt_card ?_)
    refine (Finset.ssubset_iff_of_subset fun x hx => ?_).mpr ⟨q, ?_, ?_⟩
    · rw [Finset.mem_filter] at hx ⊢
      exact ⟨hx.1, hx.2.tail he⟩
    · obtain ⟨⟨a, ha⟩, -⟩ := (construct_assembled h).edge_node he
      exact Finset.mem_filter.mpr ⟨Finset.mem_range.mpr (indexOf_lt ha), .single he⟩
    · exact fun hx => hac q (Finset.mem_filter.mp hx).2

theorem tree_slotMerge {a : String} {F : Field} (hv : u.functions[v]? = some a)
    (hinner : ∃ y, o.graph.nodes.Edge v y)
    (hF : F ∈ Field.carried) (hw : F ∈ getWriteFields (stringToNF a))
    (hother : ∀ i b, u.functions[i]? = some b → i ≠ v → F ∉ getWriteFields (stringToNF b)) {sweeps : Nat}
    {slots : SlotMap} (hst : stableSlots sweeps o.mergerInfo = some slots) {s : Slot}
    (hs : slotMerge sweeps o.mergerInfo = some s) :
    (s.src F ∈ o.below v ∧ (F = .PAYLOAD → CleanCopies memory (s.copies F))) ↔
      Trail.Leads memory o.mergerInfo v F (o.below v) := by
  -- the id -1, for a parent that does not exist, is above all nodes
  let Below (k : Int) : Set Int := {b | k < 0 ∨ ∃ x : Nat, k = x ∧ b ∈ o.below x}
  have hbelow : Below v = o.below v := by
    ext b
    simp only [Below, Set.mem_ofPred_eq, Int.natCast_inj, exists_eq_left']
    exact or_iff_right (by omega)
  have hnotleaf : (v : Int) ∉ o.mergerInfo.leaves := by
    intro hleaf
    obtain ⟨x, hx, -, hno⟩ := (tree_leaves h htree).mp hleaf
    rw [Int.natCast_inj] at hx
    obtain ⟨y, he⟩ := hinner
    exact hno y (hx ▸ he)
  have hleaves : ∀ k ∈ o.mergerInfo.leaves, k ∈ Below k := by
    intro k hk
    obtain ⟨x, rfl, -, -⟩ := (tree_leaves h htree).mp hk
    exact .inr ⟨x, rfl, x, rfl, .refl⟩
  have hitems : ∀ ci ∈ o.mergerInfo.conflictsList, Below ci.major ⊆ Below ci.parent := by
    intro ci hci
    obtain ⟨p, hp, hpar⟩ := conflictsList_parent h hci
    rintro b (hneg | ⟨x, hx, y, rfl, hxy⟩)
    · omega
    · rw [hp, Int.natCast_inj] at hx
      subst hx
      rcases hpar with hpar | ⟨q, hpar, he⟩
      · exact .inl (by omega)
      · exact .inr ⟨q, hpar, y, rfl, hxy.head he⟩
  have key : (s.src F ∈ Below v ∧ (F = .PAYLOAD → CleanCopies memory (s.copies F))) ↔
      Trail.Leads memory o.mergerInfo v F (Below v) :=
    slotMerge_below_iff hF (nodeWrites_iff h hv hw hother) hnotleaf hleaves hitems hst hs
  rwa [hbelow] at key

/-- The write of an inner node survives the merge exactly if, when the conflict loop is followed on node ids,
a packet that has been lifted to the node is left at the end, or the packet that all others are merged into
comes from a leaf below the node; and, for a payload, a NUL stands behind its buffer wherever it is copied. -/
theorem construct_innerWrite_iff (memory : Memory) {a : String} {F : Field} (hv : u.functions[v]? = some a)
    (hinner : ∃ y, o.graph.nodes.Edge v y) (hF : F ∈ Field.carried) (hw : F ∈ getWriteFields (stringToNF a))
    (hother : ∀ i b, u.functions[i]? = some b → i ≠ v → F ∉ getWriteFields (stringToNF b)) :
    InnerWriteSurvives memory o v F ↔ Trail.Leads memory o.mergerInfo v F (o.below v) := by
  classical
  have hnodes : ∀ k ∈ o.mergerInfo.leaves, k ∈ o.mergerInfo.nodeMap := fun k hk => leaf_mem_nodeMap h hk
  have hne := tree_leaves_ne_nil h htree
  obtain ⟨enough, slots, hst⟩ := tree_stable h htree
  constructor
  · intro hsurv
    have hbye := byePackets_complete o.mergerInfo (· ∈ o.below v)
    obtain ⟨enough', hr⟩ := hsurv _ hbye (fun _ _ => byePackets_data) (bye.value F) fun k p hp hk => by
      rw [byePackets_eq hk hp]
    obtain ⟨r, hr, hval⟩ := hr (max enough enough') (Nat.le_max_right ..)
    have hst := hst (max enough enough') (Nat.le_max_left ..)
    obtain ⟨r', s, hr', hs, hrep⟩ := mergePacket_stable hnodes hne hbye hst
    obtain rfl := Except.ok.inj (hr.symm.trans hr')
    have hsrc := hrep.src_of_bye hF hval
    -- the leaf that the field comes from has sent `bye` as well
    have hleaf : s.src F ∈ o.mergerInfo.leaves := by
      obtain ⟨q, hq⟩ := hrep.exists_src F
      exact (hbye.mem_iff _).mp (TreeMaps.mem_of_getElem? hq)
    have hq : (byePackets o.mergerInfo (· ∈ o.below v))[s.src F]? = some bye := by
      rw [getElem?_byePackets, if_pos hleaf, if_pos hsrc]
    exact (tree_slotMerge h htree hv hinner hF hw hother hst hs).mp
      ⟨hsrc, hrep.clean_of_value hq (byePackets_data hq) hval⟩
  · intro hleads m hm _ val hval
    refine ⟨enough, fun sweeps hs => ?_⟩
    obtain ⟨r, s, hr, hslot, hrep⟩ := mergePacket_stable hnodes hne hm (hst sweeps hs)
    obtain ⟨hsrc, hclean⟩ := (tree_slotMerge h htree hv hinner hF hw hother (hst sweeps hs) hslot).mpr hleads
    obtain ⟨q, hq, hv'⟩ := hrep.value hclean
    exact ⟨r, hr, hv'.trans (hval _ q hq hsrc)⟩

end Tree

theorem treeFrom_of_edges {f : Nat} (h : Orchestrator.construct actionTable u ly = .ok o)
    (hfirst : o.graph.first = some f) (hroot : ∀ e ∈ o.graph.nodes.edges, e.2 ≠ f)
    (hparent : ∀ e ∈ o.graph.nodes.edges, ∀ e' ∈ o.graph.nodes.edges, e.2 = e'.2 → e.1 = e'.1)
    (hreach : ∀ i < u.functions.length, i = f ∨
      ∃ e ∈ o.graph.nodes.edges, e.2 = i ∧ (e.1 = f ∨ (f, e.1) ∈ o.graph.nodes.edges)) : o.TreeFrom u f := by
  have hm := (construct_assembled h).mirror
  refine ⟨hfirst, fun i hi => ?_, fun x he => hroot _ (hm.mem_edges.mpr he) rfl,
    fun x y z hx hy => hparent _ (hm.mem_edges.mpr hx) _ (hm.mem_edges.mpr hy) rfl⟩
  obtain rfl | ⟨⟨p, i⟩, he, rfl, rfl | hp⟩ := hreach i hi
  · exact .refl
  · exact .single (hm.mem_edges.mp he)
  · exact .tail (.single (hm.mem_edges.mp hp)) (hm.mem_edges.mp he)

end Config

/-- The proxy is followed by two functions that can run in parallel, and runs in parallel to the firewall. -/
def proxyWithTwoLeaves : UserInput where
  functions := ["dnf_firewall", "pktgen", "proxy", "dnf_loadbalancer", "NIDScluster"]
  positional := [("pktgen", "first")]
  orderDependencies := [("proxy", "dnf_loadbalancer"), ("proxy", "NIDScluster")]
  priorities := [("dnf_firewall", "proxy")]
  receiverIp := "13.58.167.87"
  receiverPort := 11000

theorem construct_innerWrite_twoLeaves :
    ∃ o, Orchestrator.construct actionTableJson proxyWithTwoLeaves (.ascending 5) = .ok o ∧
      InnerWriteSurvives (fun _ => [65]) o 2 .DIP := by
  obtain ⟨o, ho, hfirst, hedges, hleaves, hitems⟩ := Rounds.exists_ok (P := fun o : Orchestrator =>
      o.graph.first = some 1 ∧ o.graph.nodes.edges = [(1, 0), (1, 2), (2, 3), (2, 4)] ∧
      o.mergerInfo.leaves = [0, 3, 4] ∧ o.mergerInfo.conflictsList = [⟨4, 3, 2⟩, ⟨0, 2, 1⟩, ⟨2, 0, 1⟩])
    (x := Orchestrator.construct actionTableJson proxyWithTwoLeaves (.ascending 5)) (by decide)
  have htree : o.TreeFrom proxyWithTwoLeaves 1 := by
    refine treeFrom_of_edges ho hfirst ?_ ?_ ?_ <;> rw [hedges] <;> decide
  have hinner : o.graph.nodes.Edge 2 3 := by
    rw [← (construct_assembled ho).mirror.mem_edges, hedges]
    decide
  have hother : ∀ i b, proxyWithTwoLeaves.functions[i]? = some b → i ≠ 2 →
      .DIP ∉ getWriteFields (stringToNF b) := by
    intro i b hb hi
    have hlt := (List.getElem?_eq_some_iff.mp hb).1
    have hall : ∀ i < 5, i ≠ 2 → ∀ b ∈ proxyWithTwoLeaves.functions[i]?,
        .DIP ∉ getWriteFields (stringToNF b) := by
      decide
    exact hall i hlt hi b hb
  refine ⟨o, ho, (construct_innerWrite_iff ho htree (fun _ => [65]) (a := "proxy") rfl ⟨3, hinner⟩ (by decide)
    (by decide) hother).mpr ?_⟩
  rw [Trail.Leads, hitems, Trail.start, hleaves]
  exact ⟨2, _, rfl, 1, .inl ⟨by decide, by decide⟩, .inl (by decide), fun h => absurd h (by decide)⟩

def proxyWithOneLeaf : UserInput where
  functions := ["dnf_firewall", "pktgen", "proxy", "dnf_loadbalancer"]
  positional := [("pktgen", "first")]
  orderDependencies := [("proxy", "dnf_loadbalancer")]
  priorities := [("dnf_firewall", "proxy")]
  receiverIp := "13.58.167.87"
  receiverPort := 11000

/-- The packets of the firewall and the load balancer are merged without a conflict item, and the merged
packet has the destination that the firewall has received. -/
theorem innerWrite_oneLeaf :
    ∃ o, Orchestrator.construct actionTableJson proxyWithOneLeaf (.ascending 4) = .ok o ∧
      o.TreeFrom proxyWithOneLeaf 1 ∧ proxyWithOneLeaf.functions[2]? = some "proxy" ∧ o.graph.nodes.Edge 2 3 ∧
      .DIP ∈ getWriteFields (stringToNF "proxy") ∧
      (∀ i < 4, i ≠ 2 → ∀ b ∈ proxyWithOneLeaf.functions[i]?, .DIP ∉ getWriteFields (stringToNF b)) ∧
      ¬ InnerWriteSurvives (fun _ => []) o 2 .DIP := by
  obtain ⟨o, ho, hfirst, hedges, hleaves, hmerge⟩ := Rounds.exists_ok (P := fun o : Orchestrator =>
      o.graph.first = some 1 ∧ o.graph.nodes.edges = [(1, 0), (1, 2), (2, 3)] ∧ o.mergerInfo.leaves = [0, 3] ∧
      (mergePacket 1 (fun _ => []) o.mergerInfo (byePackets o.mergerInfo (· = 3))).toOption.map (·.value .DIP) =
        some (hello.value .DIP))
    (x := Orchestrator.construct actionTableJson proxyWithOneLeaf (.ascending 4)) (by decide)
  have hm := (construct_assembled ho).mirror
  have htree : o.TreeFrom proxyWithOneLeaf 1 := by
    refine treeFrom_of_edges ho hfirst ?_ ?_ ?_ <;> rw [hedges] <;> decide
  have hinner : o.graph.nodes.Edge 2 3 := by
    rw [← hm.mem_edges, hedges]
    decide
  refine ⟨o, ho, htree, rfl, hinner, by decide, by decide, fun hsurv => ?_⟩
  -- of the two leaves only the load balancer is below the proxy
  have hbelow : (0 : Int) ∉ o.below 2 := by
    rintro ⟨x, hx, hreach⟩
    obtain rfl : x = 0 := by omega
    rcases ReflTransGen.cases_tail hreach with h | ⟨y, hy, he⟩
    · cases h
    · rw [← hm.mem_edges, hedges] at he
      simp only [List.mem_cons, Prod.mk.injEq, List.not_mem_nil, or_false] at he
      obtain rfl : y = 1 := by omega
      rcases ReflTransGen.cases_tail hy with h | ⟨z, -, he⟩
      · cases h
      · exact htree.root z he
  obtain ⟨enough, hr⟩ := hsurv _ (byePackets_complete o.mergerInfo (· = 3)) (fun _ _ => byePackets_data)
    (bye.value .DIP) fun k p hp hk => by
      obtain ⟨hleaf, ⟨-, rfl⟩ | ⟨hne, -⟩⟩ := byePackets_cases hp
      · rfl
      · rw [hleaves, List.mem_cons, List.mem_singleton] at hleaf
        obtain rfl := hleaf.resolve_right hne
        exact absurd hk hbelow
  obtain ⟨r, hr, hval⟩ := hr (max 1 enough) (Nat.le_max_right ..)
  cases hone : mergePacket 1 (fun _ => []) o.mergerInfo (byePackets o.mergerInfo (· = 3)) with
  | error e => rw [hone] at hmerge; cases hmerge
  | ok r' =>
    rw [hone] at hmerge
    obtain rfl := Except.ok.inj ((mergePacket_mono hone (Nat.le_max_left 1 enough)).symm.trans hr)
    exact value_bye_ne (by decide) ((Option.some.inj hmerge).symm.trans hval)

end DeepNF
