import DeepNF.Delivery
import DeepNF.FlowRules
import DeepNF.GraphMirror
import DeepNF.ConflictItems
import DeepNF.InnerWrites

/-!
# From the user input to the merged packets

A `Setup` is a user input with what the orchestrator makes of it, and the addresses that the machines are started with.
Its machines form an `Overlay` (`Setup.overlay`) that has an edge where the service graph has one
(`Setup.forwards_iff`), and the merger listens where its leaves send to (`Setup.leafPorts_eq`). So the system as a whole
merges every packet once if there is one walk to each sink of the service graph (`Setup.run_merges`).
-/

namespace DeepNF
open Std (TreeMap)
open Walks Flood Relation
open CText (IsInt)
open MergerOperator (Calm Configured MergesTo deliveries exec)

theorem Assembled.edge_lt {actionTable : ActionTable} {u : UserInput} {g : ServiceGraph}
    (hA : Assembled actionTable u g) {x y : Nat} (h : g.nodes.Edge x y) :
    x < u.functions.length ∧ y < u.functions.length := by
  obtain ⟨⟨a, ha⟩, b, hb⟩ := hA.edge_node h
  exact ⟨indexOf_lt ha, indexOf_lt hb⟩

/-- The packet generator gets packets from nobody, and there are enough ports and addresses. -/
structure Setup where
  actionTable : ActionTable
  input : UserInput
  layout : Layout input.functions.length
  orchestrator : Orchestrator
  constructed : Orchestrator.construct actionTable input layout = .ok orchestrator
  nodup : input.functions.Nodup
  source : ∀ x y, input.node "pktgen" = some y → ¬ input.Linked actionTable x y
  ips : List String
  ips_nodup : ips.Nodup
  ips_ne : ips ≠ []
  hosts : ∀ ip ∈ ips, Host ip
  machineId : Nat → Int
  mergerIp : String
  mergerHost : Host mergerIp
  numPacketsSent : Int
  isInt : IsInt numPacketsSent
  ports : input.functions.length ≤ 7999
  few : ∀ k, (share ips input.functions.length k).length ≤ 253
  apart : ∀ ip ∈ ips, ∀ k, ip ≠ containerIp k
  mergerApart : ∀ k, mergerIp ≠ containerIp k

namespace Setup
variable (S : Setup)

def nodes : List ConfigNode := S.orchestrator.graph.configNodes S.layout S.input.functions S.machineId

def machines : List Machine := dealtMachines S.ips S.input.functions.length

variable {S} {x y i f : Nat} {a : String}

theorem assembled : Assembled S.actionTable S.input S.orchestrator.graph := construct_assembled S.constructed

theorem node_iff : S.input.node a = some x ↔ S.input.functions[x]? = some a := indexOf_nodup S.nodup

theorem mem_nodes {n : ConfigNode} : n ∈ S.nodes ↔ ∃ (i : Nat) (a : String), S.input.functions[i]? = some a ∧
    n = { toRuntimeNode := S.orchestrator.graph.runtimeNode S.layout a i, machineId := S.machineId i } := by
  rw [nodes, ServiceGraph.configNodes, List.mem_map]
  simp only [Prod.exists, List.mem_zipIdx_iff_getElem?, ServiceGraph.getElem?_runtimeNodes, Option.map_eq_some_iff]
  constructor
  · rintro ⟨_, i, ⟨a, ha, rfl⟩, rfl⟩
    exact ⟨i, a, ha, rfl⟩
  · rintro ⟨i, a, ha, rfl⟩
    exact ⟨_, i, ⟨a, ha, rfl⟩, rfl⟩

theorem map_id_nodes : S.nodes.map (·.id) = (List.range S.input.functions.length).map Nat.cast :=
  map_id_configNodes _ _ _

theorem exists_node (hi : i < S.input.functions.length) : ∃ n ∈ S.nodes, n.id = i :=
  ⟨_, mem_nodes.mpr ⟨i, _, List.getElem?_eq_getElem hi, rfl⟩, ServiceGraph.runtimeNode_id ..⟩

theorem id_lt {n : ConfigNode} (hn : n ∈ S.nodes) : ∃ i < S.input.functions.length, n.id = i := by
  obtain ⟨i, a, ha, rfl⟩ := mem_nodes.mp hn
  exact ⟨i, (List.getElem?_eq_some_iff.mp ha).1, ServiceGraph.runtimeNode_id ..⟩

theorem mem_neighbors (ha : S.input.functions[i]? = some a) {j : Int} :
    j ∈ (S.orchestrator.graph.runtimeNode S.layout a i).neighbors ↔
      ∃ y : Nat, j = y ∧ S.orchestrator.graph.nodes.Edge i y :=
  assembled.mem_neighbors (node_iff.mpr ha)

theorem edge_lt (h : S.orchestrator.graph.nodes.Edge x y) :
    x < S.input.functions.length ∧ y < S.input.functions.length :=
  assembled.edge_lt h

theorem mem_machines {m : Machine} : m ∈ S.machines ↔
    ∃ (k : Nat) (ip : String), S.ips[k]? = some ip ∧ m = dealt S.ips (List.range S.input.functions.length) k ip := by
  rw [machines, dealtMachines, List.mem_map]
  simp only [Prod.exists, List.mem_zipIdx_iff_getElem?]
  constructor
  · rintro ⟨ip, k, hk, rfl⟩
    exact ⟨k, ip, hk, rfl⟩
  · rintro ⟨k, ip, hk, rfl⟩
    exact ⟨ip, k, hk, rfl⟩

theorem mem_dealt {k : Nat} {ip : String} {j : Int} :
    j ∈ (dealt S.ips (List.range S.input.functions.length) k ip).nodes ↔
      ∃ i : Nat, j = i ∧ i < S.input.functions.length ∧ i % S.ips.length = k := by
  simp only [dealt, List.mem_map, List.mem_filter, List.mem_range, decide_eq_true_eq]
  constructor
  · rintro ⟨i, ⟨hi, hk⟩, rfl⟩
    exact ⟨i, rfl, hi, hk⟩
  · rintro ⟨i, rfl, hi, hk⟩
    exact ⟨i, ⟨hi, hk⟩, rfl⟩

/-- What the orchestrator hands out is a deployment of its graph. -/
theorem deployment (S : Setup) : Deployment S.machines S.nodes where
  ids := by
    have hlen : S.nodes.length = S.input.functions.length := by
      have h := congrArg List.length (map_id_nodes (S := S))
      simpa using h
    rw [hlen, map_id_nodes]
  ints n hn := by
    obtain ⟨i, hi, hid⟩ := id_lt hn
    have := S.ports
    unfold IsInt
    omega
  nodup_neighbors n hn := by
    obtain ⟨i, a, ha, rfl⟩ := mem_nodes.mp hn
    exact assembled.nodup_neighbors (node_iff.mpr ha)
  mem_neighbors n hn j hj := by
    obtain ⟨i, a, ha, rfl⟩ := mem_nodes.mp hn
    obtain ⟨y, rfl, he⟩ := (mem_neighbors ha).mp hj
    exact exists_node (edge_lt he).2
  one_pktgen n hn n' hn' hpk hpk' := by
    obtain ⟨i, a, ha, rfl⟩ := mem_nodes.mp hn
    obtain ⟨j, b, hb, rfl⟩ := mem_nodes.mp hn'
    rw [ServiceGraph.runtimeNode_nf, stringToNF_pktgen] at hpk hpk'
    subst hpk hpk'
    rw [Option.some.inj ((node_iff.mpr ha).symm.trans (node_iff.mpr hb))]
  pktgen_source n hn n' hn' hpk hmem := by
    obtain ⟨i, a, ha, rfl⟩ := mem_nodes.mp hn
    obtain ⟨j, b, hb, rfl⟩ := mem_nodes.mp hn'
    rw [ServiceGraph.runtimeNode_nf, stringToNF_pktgen] at hpk
    subst hpk
    obtain ⟨y, hy, he⟩ := (mem_neighbors ha).mp hmem
    rw [ServiceGraph.runtimeNode_id, Int.natCast_inj] at hy
    subst hy
    exact S.source i j (node_iff.mpr hb) (assembled.edge_iff.mp he)
  machine_ids := by
    rw [machines, map_id_dealtMachines]
    exact nodup_castRange _
  ips := by
    have hips : S.machines.map (·.ip) = S.ips := by
      rw [machines, dealtMachines, List.map_map]
      exact List.zipIdx_map_fst 0 _
    rw [hips]
    exact S.ips_nodup
  host m hm := by
    obtain ⟨k, ip, hk, rfl⟩ := mem_machines.mp hm
    exact S.hosts ip (List.mem_of_getElem? hk)
  bridge m hm := by
    obtain ⟨k, ip, hk, rfl⟩ := mem_machines.mp hm
    rfl
  nodup_nodes m hm := by
    obtain ⟨k, ip, hk, rfl⟩ := mem_machines.mp hm
    exact (List.nodup_range.filter _).map Nat.cast_injective
  mem_nodes m hm j hj := by
    obtain ⟨k, ip, hk, rfl⟩ := mem_machines.mp hm
    obtain ⟨i, rfl, hi, -⟩ := mem_dealt.mp hj
    exact exists_node hi
  placed n hn := by
    obtain ⟨i, hi, hid⟩ := id_lt hn
    have hlt : i % S.ips.length < S.ips.length := Nat.mod_lt _ (List.length_pos_iff.mpr S.ips_ne)
    exact ⟨_, mem_machines.mpr ⟨_, _, List.getElem?_eq_getElem hlt, rfl⟩, mem_dealt.mpr ⟨i, hid, hi, rfl⟩⟩
  placed_once m hm m' hm' j hj hj' := by
    obtain ⟨k, ip, hk, rfl⟩ := mem_machines.mp hm
    obtain ⟨k', ip', hk', rfl⟩ := mem_machines.mp hm'
    obtain ⟨i, rfl, -, rfl⟩ := mem_dealt.mp hj
    obtain ⟨i', hi', -, rfl⟩ := mem_dealt.mp hj'
    obtain rfl := Int.natCast_inj.mp hi'
    rw [Option.some.inj (hk.symm.trans hk')]

theorem few_machines (S : Setup) : ∀ m ∈ S.machines, m.nodes.length ≤ 253 := by
  rintro m hm
  obtain ⟨k, ip, hk, rfl⟩ := mem_machines.mp hm
  rw [dealt, List.length_map]
  exact S.few k

theorem ports_nodes (S : Setup) : ∀ n ∈ S.nodes, n.id < 7999 := by
  intro n hn
  obtain ⟨i, hi, hid⟩ := id_lt hn
  have := S.ports
  omega

theorem apart_machines (S : Setup) : ∀ m ∈ S.machines, ∀ k, m.ip ≠ containerIp k := by
  intro m hm
  obtain ⟨k, ip, hk, rfl⟩ := mem_machines.mp hm
  exact S.apart ip (List.mem_of_getElem? hk)

/-- The machines with their containers and forwarders. -/
def overlay (S : Setup) : Overlay where
  machines := S.machines
  nodes := S.nodes
  deployment := S.deployment
  mergerIp := S.mergerIp
  numPacketsSent := S.numPacketsSent
  mergerHost := S.mergerHost
  isInt := S.isInt
  few := S.few_machines
  ports := S.ports_nodes
  apart := S.apart_machines
  mergerApart := S.mergerApart

theorem configureMachines_overlay (S : Setup) : configureMachines S.ips S.input.functions S.nodes =
    .ok (S.machines.zipIdx.map fun x => S.overlay.configurator x.2 x.1) :=
  configureMachines_eq S.ips_nodup S.ips_ne S.nodup S.nodes

/-! ### The graph of the overlay -/

theorem forwards_iff {u v : Int} : S.overlay.Forwards u v ↔
    ∃ x y : Nat, u = x ∧ v = y ∧ S.orchestrator.graph.nodes.Edge x y := by
  constructor
  · rintro ⟨n, hn, rfl, hv⟩
    obtain ⟨i, a, ha, rfl⟩ := mem_nodes.mp hn
    obtain ⟨y, rfl, he⟩ := (mem_neighbors ha).mp hv
    exact ⟨i, y, ServiceGraph.runtimeNode_id .., rfl, he⟩
  · rintro ⟨x, y, rfl, rfl, he⟩
    have ha : S.input.functions[x]? = some _ := List.getElem?_eq_getElem (edge_lt he).1
    exact ⟨_, mem_nodes.mpr ⟨x, _, ha, rfl⟩, ServiceGraph.runtimeNode_id .., (mem_neighbors ha).mpr ⟨y, rfl, he⟩⟩

theorem forwards_natCast {v : Int} :
    S.overlay.Forwards x v ↔ ∃ y : Nat, v = y ∧ S.orchestrator.graph.nodes.Edge x y := by
  rw [forwards_iff]
  constructor
  · rintro ⟨x', y, hx, rfl, he⟩
    obtain rfl := Int.natCast_inj.mp hx
    exact ⟨y, rfl, he⟩
  · rintro ⟨y, rfl, he⟩
    exact ⟨x, y, rfl, rfl, he⟩

theorem walk_iff {l : List Int} {v : Int} : Walk S.overlay.Forwards (f : Int) l v ↔
    ∃ (m : List Nat) (y : Nat), l = m.map Nat.cast ∧ v = y ∧ Walk S.orchestrator.graph.nodes.Edge f m y := by
  constructor
  · exact fun h => Walk.exists_map (fun u w h => forwards_natCast.mp h) h
  · rintro ⟨m, y, rfl, rfl, hw⟩
    exact hw.map fun u v he => forwards_natCast.mpr ⟨v, rfl, he⟩

theorem leafPorts_eq (S : Setup) : S.orchestrator.mergerInfo.portToNodeMap = S.overlay.leafPorts := by
  have hrn : S.nodes.map (·.toRuntimeNode) = S.orchestrator.runtimeNodes := by
    rw [(construct_mergerInfo S.constructed).1, nodes, ServiceGraph.configNodes, List.map_map]
    exact List.zipIdx_map_fst 0 _
  rw [(construct_mergerInfo S.constructed).2.1, ← hrn]
  rfl

theorem generator (hpk : S.input.node "pktgen" = some f) (he : S.orchestrator.graph.nodes.Edge f y) :
    ∃ g, S.overlay.Generator g ∧ g.id = f := by
  have ha := node_iff.mp hpk
  refine ⟨_, ⟨mem_nodes.mpr ⟨f, _, ha, rfl⟩, ?_, fun hno => ?_⟩, ServiceGraph.runtimeNode_id ..⟩
  · exact (ServiceGraph.runtimeNode_nf ..).trans (stringToNF_pktgen.mpr rfl)
  · have hy := (mem_neighbors ha).mpr ⟨y, rfl, he⟩
    rw [hno] at hy
    cases hy

/-! ### The merger -/

theorem configured (S : Setup) (hd : ∀ d ∈ S.input.orderDependencies ++ S.input.priorities, d.1 ≠ d.2) :
    Configured S.orchestrator.mergerInfo.numNodes S.orchestrator.mergerInfo where
  nodup := by
    refine (TreeMaps.nodup_map_fst_toList S.orchestrator.mergerInfo.portToNodeMap).of_map _ |>.map_on ?_
    rintro ⟨port, k⟩ hx ⟨port', k'⟩ hy rfl
    rw [TreeMap.mem_toList_iff_getElem?_eq_some, (construct_mergerInfo S.constructed).2.1,
      getElem?_portToNodeMap] at hx hy
    rw [hx.2, hy.2]
  items ci hci he := by
    obtain ⟨a, b, x, y, hrec, hx, hy, rfl⟩ := (mem_conflictsList S.constructed).mp hci
    obtain rfl := Int.natCast_inj.mp he
    obtain rfl := indexOf_inj hx hy
    rcases hrec with hdep | ⟨-, x', y', hx', hy', hne, -⟩
    · exact hd _ (List.mem_filter.mp hdep).1 rfl
    · exact hne (Option.some.inj (hx'.symm.trans hy'))
  nodes k hk := leaf_mem_nodeMap S.constructed hk
  sweeps := Nat.le_refl _

/-- The packet generator feeds the service graph: there is one walk from it to each sink. -/
structure Fed (S : Setup) (f : Nat) : Prop where
  pktgen : S.input.node "pktgen" = some f
  edge : ∃ y, S.orchestrator.graph.nodes.Edge f y
  acyclic : Acyclic S.orchestrator.graph.nodes.Edge
  walk : ∀ x < S.input.functions.length, (∀ y, ¬ S.orchestrator.graph.nodes.Edge x y) →
    ∃! path, Walk S.orchestrator.graph.nodes.Edge f path x

theorem sink_iff {n : ConfigNode} (hx : n.id = x) :
    (∀ v, ¬ S.overlay.Forwards n.id v) ↔ ∀ y, ¬ S.orchestrator.graph.nodes.Edge x y := by
  rw [hx]
  constructor
  · exact fun h y he => h y (forwards_natCast.mpr ⟨y, rfl, he⟩)
  · rintro h v hv
    obtain ⟨y, -, he⟩ := forwards_natCast.mp hv
    exact h y he

theorem Fed.acyclic_overlay (h : S.Fed f) : Acyclic S.overlay.Forwards := by
  have hlift : ∀ u v, TransGen S.overlay.Forwards u v →
      ∃ x y : Nat, u = x ∧ v = y ∧ TransGen S.orchestrator.graph.nodes.Edge x y := by
    intro u v huv
    induction huv with
    | single he =>
      obtain ⟨x, y, hx, hy, he⟩ := forwards_iff.mp he
      exact ⟨x, y, hx, hy, .single he⟩
    | tail _ he ih =>
      obtain ⟨x, y, hx, rfl, hxy⟩ := ih
      obtain ⟨z, rfl, hyz⟩ := forwards_natCast.mp he
      exact ⟨x, z, hx, rfl, hxy.tail hyz⟩
  intro v hv
  obtain ⟨x, y, rfl, hy, hxy⟩ := hlift v v hv
  obtain rfl := Int.natCast_inj.mp hy
  exact h.acyclic x hxy

theorem Fed.routed (h : S.Fed f) (hfew : S.numPacketsSent ≤ 65536) : S.overlay.Routed f where
  few := hfew
  walk n hn hno := by
    obtain ⟨x, hx, hid⟩ := id_lt hn
    obtain ⟨path, hw, huniq⟩ := h.walk x hx ((sink_iff hid).mp hno)
    rw [hid]
    refine ⟨path.map Nat.cast, walk_iff.mpr ⟨path, x, rfl, rfl, hw⟩, fun l hl => ?_⟩
    obtain ⟨path', x', rfl, hx', hw'⟩ := walk_iff.mp hl
    obtain rfl := Int.natCast_inj.mp hx'
    rw [huniq path' hw']
  leaf := by
    have hfin : {x | x < S.input.functions.length}.Finite := Set.finite_lt_nat _
    obtain ⟨x, hfx, hsink⟩ := h.acyclic.exists_sink hfin (fun u v he => (edge_lt he).2) f
    have hx : x < S.input.functions.length := by
      rcases ReflTransGen.cases_tail hfx with rfl | ⟨z, -, he⟩
      · exact indexOf_lt h.pktgen
      · exact (edge_lt he).2
    obtain ⟨n, hn, hid⟩ := exists_node hx
    exact ⟨n, hn, (sink_iff hid).mpr hsink⟩

/-- `r` is the merge of what comes out at the sinks of the service graph for packet `i`. It has the id of that packet,
and is not dropped. -/
structure MergeOf (S : Setup) (f i : Nat) (pkts : TreeMap Int Packet) (r : Packet) : Prop where
  pkts_iff : ∀ (k : Int) (p : Packet), pkts[k]? = some p ↔ ∃ (x : Nat) (path : List Nat), k = x ∧
    (∀ y, ¬ S.orchestrator.graph.nodes.Edge x y) ∧ Walk S.orchestrator.graph.nodes.Edge f path x ∧
    p = S.overlay.along i (path.map Nat.cast)
  merge : MergesTo S.orchestrator.mergerInfo S.orchestrator.mergerInfo.numNodes pkts r
  rawId : r.rawId = (senderPacket i).rawId
  isNull : r.isNull = false

theorem MergeOf.of_overlay {pkts : TreeMap Int Packet} {r : Packet} (h : S.overlay.MergeOf f
    S.orchestrator.mergerInfo.numNodes S.orchestrator.mergerInfo i pkts r) : S.MergeOf f i pkts r where
  pkts_iff k p := by
    rw [h.pkts_iff]
    constructor
    · rintro ⟨hno, l, hw, rfl⟩
      obtain ⟨path, x, rfl, rfl, hpath⟩ := walk_iff.mp hw
      exact ⟨x, path, rfl, fun y he => hno y (forwards_natCast.mpr ⟨y, rfl, he⟩), hpath, rfl⟩
    · rintro ⟨x, path, rfl, hno, hpath, rfl⟩
      refine ⟨fun v hv => ?_, _, walk_iff.mpr ⟨path, x, rfl, rfl, hpath⟩, rfl⟩
      obtain ⟨y, -, he⟩ := forwards_natCast.mp hv
      exact hno y he
  merge := h.merge
  rawId := h.rawId
  isNull := h.isNull

section Run
variable (S) (hd : ∀ d ∈ S.input.orderDependencies ++ S.input.priorities, d.1 ≠ d.2) (hfed : S.Fed f)
  (hfew : S.numPacketsSent ≤ 65536) {s : State Datagram} {acts : List MergerOperator.Action}
  (hacts : deliveries acts = s.handled.filterMap S.overlay.atMerger) {m : MergerOperator.State}
  (hrun : exec S.orchestrator.mergerInfo.numNodes S.orchestrator.mergerInfo acts = some m)
  (hcalm : Calm S.orchestrator.mergerInfo.numNodes S.orchestrator.mergerInfo acts)
include hd hfed hfew hacts hrun hcalm

theorem merged_of_run {n : Nat} (hs : Run S.overlay.react S.overlay.sources n s) :
    (m.merges.map (·.packetId)).Nodup ∧
    ∀ t ∈ m.merges, ∃ i < S.numPacketsSent.toNat, t.packetId = (senderPacket i).rawId ∧
      ∀ pkts r, t.phase.found = some (pkts, r) → S.MergeOf f i pkts r := by
  obtain ⟨y, hy⟩ := hfed.edge
  obtain ⟨g, hg, hid⟩ := generator hfed.pktgen hy
  have hr := hfed.routed hfew
  rw [← hid] at hr
  obtain ⟨hnd, hall⟩ := Overlay.merged_of_run hg hr S.leafPorts_eq (S.configured hd) hacts hrun hcalm hs
  refine ⟨hnd, fun t ht => ?_⟩
  obtain ⟨i, hi, hti, hfound⟩ := hall t ht
  exact ⟨i, hi, hti, fun pkts r hpr => .of_overlay (hid ▸ hfound pkts r hpr)⟩

theorem merged_of_complete (hs : Complete S.overlay.react S.overlay.sources s) (hidle : m.Idle) :
    (m.merges.map (·.packetId)).Perm ((List.range S.numPacketsSent.toNat).map fun i => (senderPacket i).rawId) ∧
    ∀ i < S.numPacketsSent.toNat, ∃ pkts r, m.sentFor (senderPacket i).rawId = [(pkts, r)] ∧
      S.MergeOf f i pkts r := by
  obtain ⟨y, hy⟩ := hfed.edge
  obtain ⟨g, hg, hid⟩ := generator hfed.pktgen hy
  have hr := hfed.routed hfew
  rw [← hid] at hr
  obtain ⟨hperm, hall⟩ :=
    Overlay.merged_of_complete hg hr S.leafPorts_eq (S.configured hd) hacts hrun hcalm hs hidle
  refine ⟨hperm, fun i hi => ?_⟩
  obtain ⟨pkts, r, hsent, hmerge⟩ := hall i hi
  exact ⟨pkts, r, hsent, .of_overlay (hid ▸ hmerge)⟩

end Run

theorem exists_merged (S : Setup) (hd : ∀ d ∈ S.input.orderDependencies ++ S.input.priorities, d.1 ≠ d.2) {f : Nat}
    (hfed : S.Fed f) (hfew : S.numPacketsSent ≤ 65536) :
    ∃ s acts m, Complete S.overlay.react S.overlay.sources s ∧
      deliveries acts = s.handled.filterMap S.overlay.atMerger ∧
      exec S.orchestrator.mergerInfo.numNodes S.orchestrator.mergerInfo acts = some m ∧
      Calm S.orchestrator.mergerInfo.numNodes S.orchestrator.mergerInfo acts ∧ m.Idle ∧ ∀ a ∈ acts, a.Clean := by
  obtain ⟨y, hy⟩ := hfed.edge
  obtain ⟨g, hg, hid⟩ := generator hfed.pktgen hy
  have hr := hfed.routed hfew
  rw [← hid] at hr
  obtain ⟨s, hs⟩ := Overlay.exists_complete hg (hfed.acyclic_overlay.below _)
  obtain ⟨n, hrun⟩ := hs.run
  have hleaves : ∀ x ∈ s.handled.filterMap S.overlay.atMerger, x.1 ∈ S.orchestrator.mergerInfo.leaves := by
    intro x hx
    obtain ⟨d, -, hd⟩ := List.mem_filterMap.mp hx
    exact Overlay.atMerger_mem S.leafPorts_eq hd
  obtain ⟨acts, m, hmerger⟩ :=
    MergerOperator.exists_oneByOne (S.configured hd) (hr.oncePerLeaf hg hrun) hleaves
  exact ⟨s, acts, m, hs, hmerger⟩

/-! ### The sample input -/

theorem inputComplexJson_linked {x y : Nat} : inputComplexJson.Linked actionTableJson x y ↔
    x = 2 ∧ (y = 3 ∨ y = 4) ∨ x = 1 ∧ (y = 0 ∨ y = 2) := by
  have hpos : inputComplexJson.hasPositionals = true := by decide
  have hfirst : inputComplexJson.positionNode "first" = some 1 := by decide
  have hroot : (inputComplexJson.parts actionTableJson 1).Root y ↔ y = 2 := by
    rw [parts_root]
    simp only [inputComplexJson_order]
    constructor
    · rintro ⟨⟨z, rfl, -⟩, -⟩
      rfl
    · rintro rfl
      exact ⟨⟨3, rfl, .inl rfl⟩, fun z hz => by omega⟩
  have hfree : y ∈ (inputComplexJson.parts actionTableJson 1).free ↔ y = 0 ∨ y = 2 := inputComplexJson_free
  have hlast : (inputComplexJson.parts actionTableJson 1).last = none := inputComplexJson_last
  have horder : (inputComplexJson.parts actionTableJson 1).Order x y ↔ x = 2 ∧ (y = 3 ∨ y = 4) := inputComplexJson_order
  have hone : (inputComplexJson.parts actionTableJson 1).first = 1 := rfl
  rw [UserInput.Linked, hpos, hfirst, inputComplexJson_order]
  simp only [true_and, Option.some.injEq, exists_eq_left', Attach.Parts.Edge, horder, hone, hroot, hfree, hlast]
  simp only [reduceCtorEq, false_and, or_false]
  omega

theorem complex_source {x y : Nat} (hy : inputComplexJson.node "pktgen" = some y) :
    ¬ inputComplexJson.Linked actionTableJson x y := by
  intro h
  have hone : inputComplexJson.node "pktgen" = some 1 := by decide
  obtain rfl := Option.some.inj (hone.symm.trans hy)
  have := inputComplexJson_linked.mp h
  omega

theorem complex_hosts : ∀ ip ∈ ["18.0.0.1", "18.0.0.2"], Host ip := by
  intro ip hip
  rcases List.mem_pair.mp hip with rfl | rfl <;> exact ⟨by decide, by decide⟩

theorem complex_few (k : Nat) : (share ["18.0.0.1", "18.0.0.2"] inputComplexJson.functions.length k).length ≤ 253 := by
  refine (List.length_filter_le ..).trans ?_
  rw [List.length_range]
  decide

theorem complex_apart : ∀ ip ∈ ["18.0.0.1", "18.0.0.2"], ∀ k, ip ≠ containerIp k := by
  rintro ip hip
  rcases List.mem_pair.mp hip with rfl | rfl <;> exact Overlay.containerIp_ne (by decide)

/-- `inputs/input_complex.json` on two machines, with ten packets. -/
def complex {o : Orchestrator} (ho : Orchestrator.construct actionTableJson inputComplexJson (.ascending 5) = .ok o) :
    Setup where
  actionTable := actionTableJson
  input := inputComplexJson
  layout := .ascending 5
  orchestrator := o
  constructed := ho
  nodup := by decide
  source _ _ := complex_source
  ips := ["18.0.0.1", "18.0.0.2"]
  ips_nodup := by decide
  ips_ne := by decide
  hosts := complex_hosts
  machineId _ := 0
  mergerIp := "18.0.0.9"
  mergerHost := Overlay.host_sample
  numPacketsSent := 10
  isInt := Overlay.isInt_ten
  ports := by decide
  few := complex_few
  apart := complex_apart
  mergerApart := Overlay.sample_ne_containerIp

theorem complex_items : ∀ d ∈ inputComplexJson.orderDependencies ++ inputComplexJson.priorities, d.1 ≠ d.2 := by
  decide

theorem complex_packets : (10 : Int) ≤ 65536 := by decide

theorem complex_edge {o : Orchestrator}
    (ho : Orchestrator.construct actionTableJson inputComplexJson (.ascending 5) = .ok o) {x y : Nat} :
    o.graph.nodes.Edge x y ↔ x = 2 ∧ (y = 3 ∨ y = 4) ∨ x = 1 ∧ (y = 0 ∨ y = 2) :=
  (construct_assembled ho).edge_iff.trans inputComplexJson_linked

theorem complex_fed {o : Orchestrator}
    (ho : Orchestrator.construct actionTableJson inputComplexJson (.ascending 5) = .ok o) : (complex ho).Fed 1 := by
  have hedge : ∀ x y, (complex ho).orchestrator.graph.nodes.Edge x y ↔
      x = 2 ∧ (y = 3 ∨ y = 4) ∨ x = 1 ∧ (y = 0 ∨ y = 2) := fun _ _ => complex_edge ho
  have hwalk : ∀ x, (∀ y, ¬ (complex ho).orchestrator.graph.nodes.Edge x y) → x < 5 →
      ∃ path, Walk (complex ho).orchestrator.graph.nodes.Edge 1 path x := by
    intro x hx hlt
    have h12 : Walk (complex ho).orchestrator.graph.nodes.Edge 1 [2, 1] 2 :=
      .step .start ((hedge 1 2).mpr (.inr ⟨rfl, .inr rfl⟩))
    obtain rfl | rfl | rfl | rfl | rfl : x = 0 ∨ x = 1 ∨ x = 2 ∨ x = 3 ∨ x = 4 := by omega
    · exact ⟨[0, 1], .step .start ((hedge 1 0).mpr (.inr ⟨rfl, .inl rfl⟩))⟩
    · exact absurd ((hedge 1 0).mpr (.inr ⟨rfl, .inl rfl⟩)) (hx 0)
    · exact absurd ((hedge 2 3).mpr (.inl ⟨rfl, .inl rfl⟩)) (hx 3)
    · exact ⟨[3, 2, 1], h12.step ((hedge 2 3).mpr (.inl ⟨rfl, .inl rfl⟩))⟩
    · exact ⟨[4, 2, 1], h12.step ((hedge 2 4).mpr (.inl ⟨rfl, .inr rfl⟩))⟩
  have hone : inputComplexJson.node "pktgen" = some 1 := by decide
  refine ⟨hone, ⟨0, (hedge 1 0).mpr (.inr ⟨rfl, .inl rfl⟩)⟩, ?_, fun x hlt hx => ?_⟩
  · refine .of_tree (r := 1) (fun u hu => ?_) (fun u u' v h h' => ?_) fun u v h => ?_
    · have := (hedge u 1).mp hu
      omega
    · rw [hedge] at h h'
      omega
    · rcases (hedge u v).mp h with ⟨rfl, -⟩ | ⟨rfl, -⟩
      · exact .single ((hedge 1 2).mpr (.inr ⟨rfl, .inr rfl⟩))
      · exact .refl
  · obtain ⟨path, hw⟩ := hwalk x hx hlt
    refine ⟨path, hw, fun path' hw' => hw'.unique (fun u u' v h h' => ?_) (fun u hu => ?_) hw⟩
    · rw [hedge] at h h'
      omega
    · have := (hedge u 1).mp hu
      omega

/-! ### The whole system -/

/-- The packet generator feeds the service graph, and the merger goes through calm steps. Whatever gets lost and in
whatever order the datagrams are taken, the merger merges no id twice, and each merge is that of what comes out at all
sinks for one packet. If nothing is lost and all threads get through, one packet is sent for each packet of the packet
generator. -/
theorem run_merges (S : Setup) (hd : ∀ d ∈ S.input.orderDependencies ++ S.input.priorities, d.1 ≠ d.2) {f : Nat}
    (hfed : S.Fed f) (hfew : S.numPacketsSent ≤ 65536) {n : Nat} {s : State Datagram}
    (hs : Run S.overlay.react S.overlay.sources n s) {acts : List MergerOperator.Action}
    (hacts : deliveries acts = s.handled.filterMap S.overlay.atMerger) {m : MergerOperator.State}
    (hrun : exec S.orchestrator.mergerInfo.numNodes S.orchestrator.mergerInfo acts = some m)
    (hcalm : Calm S.orchestrator.mergerInfo.numNodes S.orchestrator.mergerInfo acts) :
    (m.merges.map (·.packetId)).Nodup ∧
    (∀ t ∈ m.merges, ∃ i < S.numPacketsSent.toNat, t.packetId = (senderPacket i).rawId ∧
      ∀ pkts r, t.phase.found = some (pkts, r) → S.MergeOf f i pkts r) ∧
    (s.lost = 0 → s.inFlight = 0 → m.Idle →
      (m.merges.map (·.packetId)).Perm ((List.range S.numPacketsSent.toNat).map fun i => (senderPacket i).rawId) ∧
      ∀ i < S.numPacketsSent.toNat, ∃ pkts r, m.sentFor (senderPacket i).rawId = [(pkts, r)] ∧
        S.MergeOf f i pkts r) := by
  obtain ⟨hnd, hall⟩ := merged_of_run S hd hfed hfew hacts hrun hcalm hs
  exact ⟨hnd, hall, fun hlost hquiet hidle =>
    merged_of_complete S hd hfed hfew hacts hrun hcalm ⟨⟨n, hs⟩, hlost, hquiet⟩ hidle⟩

/-- Some run of the machines and of the merger sends the ten packets to the receiver. -/
theorem run_merges_complex : ∃ (o : Orchestrator)
    (ho : Orchestrator.construct actionTableJson inputComplexJson (.ascending 5) = .ok o) (s : State Datagram)
    (acts : List MergerOperator.Action) (m : MergerOperator.State),
    Complete (complex ho).overlay.react (complex ho).overlay.sources s ∧
    deliveries acts = s.handled.filterMap (complex ho).overlay.atMerger ∧
    exec o.mergerInfo.numNodes o.mergerInfo acts = some m ∧
    (m.merges.map (·.packetId)).Perm ((List.range 10).map fun i => (senderPacket i).rawId) := by
  obtain ⟨o, ho⟩ := inputComplexJson_constructed
  obtain ⟨s, acts, m, hs, hacts, hrun, hcalm, hidle, -⟩ :=
    (complex ho).exists_merged complex_items (complex_fed ho) complex_packets
  obtain ⟨n, hn⟩ := hs.run
  obtain ⟨-, -, hall⟩ := run_merges (complex ho) complex_items (complex_fed ho) complex_packets hn hacts hrun hcalm
  exact ⟨o, ho, s, acts, m, hs, hacts, hrun, (hall hs.lost hs.quiet hidle).1⟩

end Setup
end DeepNF
