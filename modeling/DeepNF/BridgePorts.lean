import DeepNF.Traffic

/-!
# The ports and addresses that a machine hands out (`setup_bridge_ports`, `make_flow_rules`)

Four places work out the port on which the merger listens for a leaf, each on its own. `portLeafMap_agrees_iff`
says when they agree. `addressesValid_iff` says for how many nodes the addresses of the containers stay in the
network of the bridge and the ports stay ports.
-/

namespace DeepNF
open Std (TreeMap)
open CText (IsInt atoi)

namespace MachineConfigurator
variable (mc : MachineConfigurator)

/-- The nodes of the other machines, in the order in which `setup_bridge_ports` visits them. -/
def remoteNodes : List RuntimeNode :=
  (mc.machineMap.toList.filter (·.1 ≠ mc.machineId)).flatMap fun (_, mac) =>
    (mc.getNodesForMachine mac.id).map (·.toRuntimeNode)

/-- The entries of `port_leaf_map.json`: a node id and a port for every node without neighbors. -/
def portLeafMap : List (Int × Int) :=
  ((mc.internalNodes.filter (·.neighbors.length = 0)).map fun n => (n.id, 8000 + n.id)) ++
    (mc.remoteNodes.filter (·.neighbors.length = 0)).map fun n => (n.id, 8000 + n.id + 1)

def Places (v : ConfigNode) : Prop := ∃ m ∈ mc.machineMap, v ∈ mc.getNodesForMachine m

/-- Two entries of `port_leaf_map.json` with one port are for the same node. -/
def PortsDistinct : Prop := ∀ i j port, (i, port) ∈ mc.portLeafMap → (j, port) ∈ mc.portLeafMap → i = j

/-- All three know the leaf `v` under this port, and no other: `port_leaf_map.json`, the merger address with
which the machine of `v` starts it (a packet generator is not given one), and `port_to_node_map`. -/
structure PortsAgree (v : ConfigNode) (port : Int) : Prop where
  recorded : ∀ p, (v.id, p) ∈ mc.portLeafMap ↔ p = port
  passed : v.nf ≠ .pktgen → ∀ own : MachineConfigurator, v ∈ own.getNodesForMachine own.machineId →
    ∀ mergerIp numPacketsSent destinations, (∃ cmd ∈ flowRules own mergerIp numPacketsSent,
      cmd.container = getConfigDir v.id ∧ cmd.destinations = destinations) ↔ destinations = [(mergerIp, port)]
  listed : ∀ rnodes, v.toRuntimeNode ∈ rnodes → ∀ p, (portToNodeMap rnodes)[p]? = some v.id ↔ p = port

variable {mc} {v w : ConfigNode} {n : RuntimeNode} {i port : Int}

theorem nodeMap_of_mem {m : Int} (h : v ∈ mc.getNodesForMachine m) : mc.nodeMap[v.id]? = some v := by
  unfold getNodesForMachine at h
  split at h
  · obtain ⟨k, -, hk⟩ := List.mem_filterMap.mp h
    rwa [mc.nodeMap_id k v hk]
  · cases h

theorem places_unique (hv : mc.Places v) (hw : mc.Places w) (h : v.id = w.id) : v = w := by
  obtain ⟨m, -, hv⟩ := hv
  obtain ⟨m', -, hw⟩ := hw
  exact Option.some.inj ((nodeMap_of_mem hv).symm.trans (h ▸ nodeMap_of_mem hw))

theorem mem_internalNodes : n ∈ mc.internalNodes ↔ ∃ v ∈ mc.getNodesForMachine mc.machineId, v.toRuntimeNode = n :=
  List.mem_map

theorem mem_remoteNodes : n ∈ mc.remoteNodes ↔
    ∃ m ∈ mc.machineMap, m ≠ mc.machineId ∧ ∃ v ∈ mc.getNodesForMachine m, v.toRuntimeNode = n := by
  simp only [remoteNodes, List.mem_flatMap, Prod.exists, List.mem_filter, TreeMap.mem_toList_iff_getElem?_eq_some,
    decide_eq_true_eq, List.mem_map]
  constructor
  · rintro ⟨k, mac, ⟨hk, hne⟩, hn⟩
    rw [mc.machineMap_id k mac hk] at hn
    exact ⟨k, TreeMaps.mem_of_getElem? hk, hne, hn⟩
  · rintro ⟨k, hk, hne, hn⟩
    obtain ⟨mac, hmac⟩ := TreeMaps.exists_getElem? hk
    rw [← mc.machineMap_id k mac hmac] at hn
    exact ⟨k, mac, ⟨hmac, hne⟩, hn⟩

theorem places_iff : mc.Places v ↔ v ∈ mc.getNodesForMachine mc.machineId ∨
    ∃ m ∈ mc.machineMap, m ≠ mc.machineId ∧ v ∈ mc.getNodesForMachine m := by
  constructor
  · rintro ⟨m, hm, hv⟩
    by_cases he : m = mc.machineId
    · exact .inl (he ▸ hv)
    · exact .inr ⟨m, hm, he, hv⟩
  · rintro (hv | ⟨m, hm, -, hv⟩)
    exacts [⟨_, mc.machineId_mem, hv⟩, ⟨m, hm, hv⟩]

theorem mem_portLeafMap : (i, port) ∈ mc.portLeafMap ↔
    (∃ n ∈ mc.internalNodes, n.neighbors = [] ∧ n.id = i ∧ 8000 + i = port) ∨
      ∃ n ∈ mc.remoteNodes, n.neighbors = [] ∧ n.id = i ∧ 8000 + i + 1 = port := by
  simp only [portLeafMap, List.mem_append, List.mem_map, List.mem_filter, decide_eq_true_eq,
    List.length_eq_zero_iff, Prod.mk.injEq, and_assoc]
  refine or_congr ?_ ?_ <;>
    exact exists_congr fun n => and_congr_right fun _ => and_congr_right fun _ =>
      and_congr_right fun hid => by rw [hid]

theorem places_of_mem (h : n ∈ mc.internalNodes ∨ n ∈ mc.remoteNodes) : ∃ v, mc.Places v ∧ v.toRuntimeNode = n := by
  rcases h with h | h
  · obtain ⟨v, hv, rfl⟩ := mem_internalNodes.mp h
    exact ⟨v, places_iff.mpr (.inl hv), rfl⟩
  · obtain ⟨m, hm, hne, v, hv, rfl⟩ := mem_remoteNodes.mp h
    exact ⟨v, places_iff.mpr (.inr ⟨m, hm, hne, hv⟩), rfl⟩

theorem flowRules_leaf (hleaf : v.neighbors = []) (hpk : v.nf ≠ .pktgen)
    (hv : v ∈ mc.getNodesForMachine mc.machineId) (mergerIp : String) (numPacketsSent : Int)
    (destinations : List (String × Int)) :
    (∃ cmd ∈ flowRules mc mergerIp numPacketsSent,
      cmd.container = getConfigDir v.id ∧ cmd.destinations = destinations) ↔
      destinations = [(mergerIp, 8000 + v.id + 1)] := by
  have hmerger : (setupBridgePorts mc mergerIp numPacketsSent).mergerIp = mergerIp :=
    (foldl_assign (mc.localAddresses ++ mc.remoteAddresses) _).1
  have hdest : ((setupBridgePorts mc mergerIp numPacketsSent).nodeCommand v.toRuntimeNode).destinations =
      [(mergerIp, 8000 + v.id + 1)] := by
    rw [FlowConfig.nodeCommand, hleaf, hmerger]
    rfl
  have hsame : ∀ n ∈ mc.internalNodes, getConfigDir n.id = getConfigDir v.id → n = v.toRuntimeNode := by
    intro n hn he
    obtain ⟨w, hw, rfl⟩ := mem_internalNodes.mp hn
    rw [places_unique (places_iff.mpr (.inl hw)) (places_iff.mpr (.inl hv)) (getConfigDir_inj he)]
  constructor
  · rintro ⟨cmd, hcmd, hcontainer, rfl⟩
    rw [flowRules, makeFlowRules_eq] at hcmd
    rcases List.mem_append.mp hcmd with hcmd | hcmd
    · obtain ⟨n, hn, rfl⟩ := List.mem_map.mp hcmd
      rw [hsame n (List.mem_filter.mp hn).1 hcontainer, hdest]
    · obtain ⟨n, hn, rfl⟩ := Option.map_eq_some_iff.mp (Option.mem_toList.mp hcmd)
      obtain ⟨hn, hnf⟩ := List.mem_filter.mp (List.mem_of_getLast? hn)
      rw [hsame n hn hcontainer] at hnf
      exact absurd (of_decide_eq_true hnf) hpk
  · rintro rfl
    exact ⟨_, nodeCommand_mem (mem_internalNodes.mpr ⟨v, hv, rfl⟩) hpk, rfl, hdest⟩

/-- A leaf on another machine is recorded under the port that it is told, a leaf on the own machine is not. -/
theorem portsAgree_iff (hv : mc.Places v) (hleaf : v.neighbors = []) :
    (∃ port, mc.PortsAgree v port) ↔ v.toRuntimeNode ∉ mc.internalNodes := by
  have hlisted : ∀ p, (portToNodeMap [v.toRuntimeNode])[p]? = some v.id ↔ p = 8000 + v.id + 1 := by
    intro p
    rw [getElem?_portToNodeMap]
    exact and_iff_right ⟨_, List.mem_singleton.mpr rfl, hleaf, rfl⟩
  constructor
  · rintro ⟨port, h⟩ hin
    have hlocal : 8000 + v.id = port :=
      (h.recorded _).mp (mem_portLeafMap.mpr (.inl ⟨_, hin, hleaf, rfl, rfl⟩))
    have hport : 8000 + v.id + 1 = port :=
      (h.listed _ (List.mem_singleton.mpr rfl) _).mp ((hlisted _).mpr rfl)
    omega
  · intro hout
    refine ⟨8000 + v.id + 1, fun p => ?_, fun hpk own hown mergerIp numPacketsSent destinations =>
      flowRules_leaf hleaf hpk hown mergerIp numPacketsSent destinations, fun rnodes hr p => ?_⟩
    · rw [mem_portLeafMap]
      constructor
      · rintro (⟨n, hn, -, hid, -⟩ | ⟨n, -, -, -, rfl⟩)
        · obtain ⟨w, hw, rfl⟩ := places_of_mem (.inl hn)
          rw [places_unique hw hv hid] at hn
          exact absurd hn hout
        · rfl
      · rintro rfl
        rcases places_iff.mp hv with h | ⟨m, hm, hne, h⟩
        · exact absurd (mem_internalNodes.mpr ⟨v, h, rfl⟩) hout
        · exact .inr ⟨_, mem_remoteNodes.mpr ⟨m, hm, hne, v, h, rfl⟩, hleaf, rfl, rfl⟩
    · rw [getElem?_portToNodeMap]
      exact and_iff_right ⟨_, hr, hleaf, rfl⟩

theorem portsDistinct_iff : mc.PortsDistinct ↔ ∀ n ∈ mc.internalNodes, ∀ n' ∈ mc.remoteNodes,
    n.neighbors = [] → n'.neighbors = [] → n.id ≠ n'.id + 1 := by
  constructor
  · intro h n hn n' hn' hleaf hleaf' hid
    have hsame : n.id = n'.id := h _ _ (8000 + n.id) (mem_portLeafMap.mpr (.inl ⟨n, hn, hleaf, rfl, rfl⟩))
      (mem_portLeafMap.mpr (.inr ⟨n', hn', hleaf', rfl, by omega⟩))
    omega
  · intro h i j port hi hj
    rcases mem_portLeafMap.mp hi with ⟨n, hn, hleaf, rfl, hp⟩ | ⟨n, hn, hleaf, rfl, hp⟩ <;>
      rcases mem_portLeafMap.mp hj with ⟨n', hn', hleaf', rfl, hp'⟩ | ⟨n', hn', hleaf', rfl, hp'⟩
    · omega
    · exact absurd (by omega) (h n hn n' hn' hleaf hleaf')
    · exact absurd (by omega) (h n' hn' n hn hleaf' hleaf)
    · omega

/-- The places agree on every leaf if and only if the machine that writes `port_leaf_map.json` runs no leaf. The
ports are distinct as long as no leaf of this machine follows a leaf of another one in the order of the ids. -/
theorem portLeafMap_agrees_iff (mc : MachineConfigurator) :
    (((∀ v, mc.Places v → v.neighbors = [] → ∃ port, mc.PortsAgree v port) ∧ mc.PortsDistinct) ↔
      ∀ n ∈ mc.internalNodes, n.neighbors ≠ []) ∧
    (mc.PortsDistinct ↔ ∀ n ∈ mc.internalNodes, ∀ n' ∈ mc.remoteNodes,
      n.neighbors = [] → n'.neighbors = [] → n.id ≠ n'.id + 1) := by
  refine ⟨⟨?_, fun h => ⟨fun v hv hleaf => ?_, ?_⟩⟩, portsDistinct_iff⟩
  · rintro ⟨hagree, -⟩ n hn hleaf
    obtain ⟨v, hv, rfl⟩ := places_of_mem (.inl hn)
    exact (portsAgree_iff hv hleaf).mp (hagree v hv hleaf) hn
  · exact (portsAgree_iff hv hleaf).mpr fun hin => h _ hin hleaf
  · exact portsDistinct_iff.mpr fun n hn _ _ hleaf => absurd hleaf (h n hn)

end MachineConfigurator

def inputComplexMachines : Except SetupError (List MachineConfigurator) := do
  let o ← Orchestrator.construct actionTableJson inputComplexJson (.ascending 5)
  configureMachines ["18.217.175.10", "18.188.160.168", "18.217.69.3"] inputComplexJson.functions
    (o.graph.configNodes (.ascending 5) inputComplexJson.functions fun _ => 0)

/-- What the second machine writes is `src/common/port_leaf_map.json`: the leaves 3 and 4 share a port. -/
theorem portLeafMap_complex : ∃ mcs mc, inputComplexMachines = .ok mcs ∧ mcs[1]? = some mc ∧
    mc.portLeafMap = [(4, 8004), (0, 8001), (3, 8004)] ∧ ¬ mc.PortsDistinct ∧
      ∃ v, mc.Places v ∧ v.neighbors = [] ∧ v.id = 4 ∧ ¬ ∃ port, mc.PortsAgree v port := by
  obtain ⟨mcs, hmcs, hmap⟩ := Rounds.exists_ok
    (P := fun mcs : List MachineConfigurator =>
      (mcs[1]?.map fun mc => mc.portLeafMap) = some [(4, 8004), (0, 8001), (3, 8004)])
    (x := inputComplexMachines) (by decide)
  obtain ⟨mc, hmc, hmap⟩ := Option.map_eq_some_iff.mp hmap
  have hmem : ∀ {x : Int × Int}, x ∈ [(4, 8004), (0, 8001), (3, 8004)] → x ∈ mc.portLeafMap := fun h => hmap ▸ h
  refine ⟨mcs, mc, hmcs, hmc, hmap, fun h => ?_, ?_⟩
  · exact absurd (h 4 3 8004 (hmem (by simp)) (hmem (by simp))) (by decide)
  · rcases MachineConfigurator.mem_portLeafMap.mp (hmem (by simp : ((4 : Int), (8004 : Int)) ∈ _)) with
      ⟨n, hn, hleaf, hid, -⟩ | ⟨n, -, -, -, hp⟩
    · obtain ⟨v, hv, rfl⟩ := MachineConfigurator.places_of_mem (.inl hn)
      exact ⟨v, hv, hleaf, hid, fun h => (MachineConfigurator.portsAgree_iff hv hleaf).mp h hn⟩
    · exact absurd hp (by decide)

/-! ### Ranges -/

/-- `fwd_port` in `make_flow_rules`, and the port of a node on another machine in `setup_bridge_ports`. -/
def RuntimeNode.fwdPort (n : RuntimeNode) : Int := 8000 - n.id - 1

def RuntimeNode.mergerPort (n : RuntimeNode) : Int := 8000 + n.id + 1

def IsPort (p : Int) : Prop := 1 ≤ p ∧ p ≤ 65535

/-- An address of the bridge's network, neither that of the bridge nor the broadcast address. -/
def InAddr.Assignable (bridge : InAddr) (ip : String) : Prop :=
  ∃ d, inetPton ip = some { bridge with d } ∧ d ≠ bridge.d ∧ d ≠ 255

/-- What `mc` hands out is usable: every container of its machine gets an address of its own in the network of
the bridge, and the ports are ports. -/
structure AddressesValid (mc : MachineConfigurator) (bridge : InAddr) : Prop where
  containers : ∀ x ∈ mc.localAddresses, bridge.Assignable x.2.1
  distinct : (mc.localAddresses.map fun x => x.2.1).Nodup
  forwarders : ∀ n ∈ mc.internalNodes, IsPort n.fwdPort
  remotes : ∀ x ∈ mc.remoteAddresses, IsPort x.2.2
  mergers : ∀ n ∈ mc.internalNodes, n.neighbors = [] → IsPort n.mergerPort
  recorded : ∀ x ∈ mc.portLeafMap, IsPort x.2

section Ranges
variable {mc : MachineConfigurator} {bridge : InAddr}

theorem map_remoteAddresses : (mc.remoteAddresses.map fun x => x.2.2) = mc.remoteNodes.map (·.fwdPort) := by
  rw [MachineConfigurator.remoteAddresses, MachineConfigurator.remoteNodes, List.map_flatMap, List.map_flatMap]
  simp only [List.map_map]
  rfl

theorem splitLastDot_append {pre last : List Char} (h : '.' ∉ last) :
    splitLastDot (pre ++ '.' :: last) = (pre ++ ['.'], last) := by
  have hlast : ∀ c ∈ last.reverse, decide (c ≠ '.') = true := fun c hc =>
    decide_eq_true fun he => h (List.mem_reverse.mp (he ▸ hc))
  have hrev : (pre ++ '.' :: last).reverse = last.reverse ++ '.' :: pre.reverse := by simp
  rw [splitLastDot, hrev, CText.takeWhile_append_stop hlast (by simp), CText.dropWhile_append_stop hlast (by simp)]
  simp

theorem localAddresses_of_bridge (h : inetPton mc.ownMachine.bridgeIp = some bridge) : mc.localAddresses =
    mc.internalNodes.zipIdx.map fun (n, k) => (n.id, bridge.network ++ toString (bridge.d.toNat + 1 + k), 8000) := by
  have hsplit : splitLastDot mc.ownMachine.bridgeIp.toList =
      (bridge.network.toList, Nat.toDigits 10 bridge.d.toNat) := by
    have hip : mc.ownMachine.bridgeIp.toList = (toString bridge.a.toNat ++ "." ++ toString bridge.b.toNat ++ "." ++
        toString bridge.c.toNat).toList ++ '.' :: Nat.toDigits 10 bridge.d.toNat := by
      rw [← inetNtop_inetPton h]
      simp [inetNtop, String.toList_append]
    rw [hip, splitLastDot_append (dot_notMem_toDigits _)]
    simp [InAddr.network, String.toList_append]
  have hlast : atoi (Nat.toDigits 10 bridge.d.toNat) = bridge.d.toNat := by
    have hlt := bridge.d.toNat_lt
    have hint : IsInt (bridge.d.toNat : Int) := ⟨by omega, by omega⟩
    have hread := CText.stoi_toString_last hint
    rw [CText.toList_toString, if_pos (Int.natCast_nonneg _), Int.toNat_natCast] at hread
    exact CText.atoi_of_stoi hread
  rw [MachineConfigurator.localAddresses, hsplit]
  simp only [hlast, String.ofList_toList]
  rfl

theorem map_localAddresses (h : inetPton mc.ownMachine.bridgeIp = some bridge) :
    mc.localAddresses.map (fun x => x.2.1) = (List.range mc.internalNodes.length).map fun k =>
      bridge.network ++ toString (bridge.d.toNat + 1 + k) := by
  rw [localAddresses_of_bridge h, List.map_map, List.range_eq_range', ← List.zipIdx_map_snd 0 mc.internalNodes,
    List.map_map]
  rfl

theorem assignable_iff (k : Nat) : bridge.Assignable (bridge.network ++ toString (bridge.d.toNat + 1 + k)) ↔
    bridge.d.toNat + 1 + k ≤ 254 := by
  rw [InAddr.Assignable, inetPton_network]
  constructor
  · rintro ⟨d, hd, -, h255⟩
    split at hd
    · rename_i hle
      obtain rfl : UInt8.ofNat (bridge.d.toNat + 1 + k) = d := congrArg InAddr.d (Option.some.inj hd)
      by_contra hgt
      have hk : bridge.d.toNat + 1 + k = 255 := by omega
      rw [hk] at h255
      exact h255 rfl
    · cases hd
  · intro hle
    have hval : (UInt8.ofNat (bridge.d.toNat + 1 + k)).toNat = bridge.d.toNat + 1 + k :=
      UInt8.toNat_ofNat_of_lt' (by show _ < 256; omega)
    refine ⟨UInt8.ofNat (bridge.d.toNat + 1 + k), if_pos (by omega), fun he => ?_, fun he => ?_⟩
    · have := congrArg UInt8.toNat he
      omega
    · have h := congrArg UInt8.toNat he
      rw [hval] at h
      have h255 : (255 : UInt8).toNat = 255 := rfl
      omega

theorem containers_assignable_iff (h : inetPton mc.ownMachine.bridgeIp = some bridge) :
    (∀ x ∈ mc.localAddresses, bridge.Assignable x.2.1) ↔
      mc.internalNodes = [] ∨ bridge.d.toNat + mc.internalNodes.length ≤ 254 := by
  rw [← List.forall_mem_map (f := fun x : Int × String × Int => x.2.1) (P := bridge.Assignable),
    map_localAddresses h, List.forall_mem_map]
  simp only [assignable_iff, List.mem_range]
  constructor
  · intro hall
    rcases Nat.eq_zero_or_pos mc.internalNodes.length with h0 | hpos
    · exact .inl (List.length_eq_zero_iff.mp h0)
    · have := hall (mc.internalNodes.length - 1) (by omega)
      exact .inr (by omega)
  · rintro (hnil | hle) k hk
    · rw [hnil] at hk
      cases hk
    · omega

theorem nodup_localAddresses (h : inetPton mc.ownMachine.bridgeIp = some bridge) :
    (mc.localAddresses.map fun x => x.2.1).Nodup := by
  rw [map_localAddresses h]
  refine List.nodup_range.map fun k k' he => ?_
  have : ((bridge.d.toNat + 1 + k : Nat) : Int) = (bridge.d.toNat + 1 + k' : Nat) := CText.append_toString_inj he
  omega

/-- For a service graph of `count` nodes, everything stays in range if and only if there are at most 7999 nodes and
the machine has a last octet below 255 for each of its containers. -/
theorem addressesValid_iff (h : inetPton mc.ownMachine.bridgeIp = some bridge) {count : Nat}
    (hids : ∀ i : Int, (∃ v, mc.Places v ∧ v.id = i) ↔ 0 ≤ i ∧ i < count) :
    AddressesValid mc bridge ↔
      (mc.internalNodes = [] ∨ bridge.d.toNat + mc.internalNodes.length ≤ 254) ∧ count ≤ 7999 := by
  have hmem : ∀ {n}, n ∈ mc.internalNodes ∨ n ∈ mc.remoteNodes → 0 ≤ n.id ∧ n.id < count := by
    intro n hn
    obtain ⟨v, hv, rfl⟩ := MachineConfigurator.places_of_mem hn
    exact (hids v.id).mp ⟨v, hv, rfl⟩
  have hremotes : (∀ x ∈ mc.remoteAddresses, IsPort x.2.2) ↔ ∀ n ∈ mc.remoteNodes, IsPort n.fwdPort := by
    rw [← List.forall_mem_map (f := fun x : Int × String × Int => x.2.2) (P := IsPort), map_remoteAddresses,
      List.forall_mem_map]
  constructor
  · intro hv
    refine ⟨(containers_assignable_iff h).mp hv.containers, ?_⟩
    by_contra hgt
    obtain ⟨v, hplace, hid⟩ := (hids 7999).mpr ⟨by omega, by omega⟩
    have hport : IsPort v.toRuntimeNode.fwdPort := by
      rcases MachineConfigurator.places_iff.mp hplace with hm | ⟨m, hm, hne, hm'⟩
      · exact hv.forwarders _ (MachineConfigurator.mem_internalNodes.mpr ⟨v, hm, rfl⟩)
      · exact hremotes.mp hv.remotes _ (MachineConfigurator.mem_remoteNodes.mpr ⟨m, hm, hne, v, hm', rfl⟩)
    unfold IsPort RuntimeNode.fwdPort at hport
    omega
  · rintro ⟨hlocal, hcount⟩
    -- the ports are at least 8000 - 7998 - 1 and at most 8000 + 7998 + 1
    have hports : ∀ {n}, n ∈ mc.internalNodes ∨ n ∈ mc.remoteNodes →
        IsPort n.fwdPort ∧ IsPort n.mergerPort ∧ IsPort (8000 + n.id) := by
      intro n hn
      have := hmem hn
      unfold IsPort RuntimeNode.fwdPort RuntimeNode.mergerPort
      omega
    refine ⟨(containers_assignable_iff h).mpr hlocal, nodup_localAddresses h, fun n hn => (hports (.inl hn)).1,
      hremotes.mpr fun n hn => (hports (.inr hn)).1, fun n hn _ => (hports (.inl hn)).2.1, ?_⟩
    rintro ⟨i, port⟩ hx
    rcases MachineConfigurator.mem_portLeafMap.mp hx with ⟨n, hn, -, rfl, rfl⟩ | ⟨n, hn, -, rfl, rfl⟩
    · exact (hports (.inl hn)).2.2
    · exact (hports (.inr hn)).2.1

theorem dealtConfigs_places {ips functions : List String} {nodes : List ConfigNode}
    (hnodes : (nodes.map (·.id)).Perm ((List.range functions.length).map Nat.cast)) (h0 : ips ≠ [])
    (hmc : mc ∈ dealtConfigs ips functions.length nodes) (i : Int) :
    (∃ v, mc.Places v ∧ v.id = i) ↔ 0 ≤ i ∧ i < functions.length := by
  have hnd : (nodes.map (·.id)).Nodup := hnodes.nodup_iff.mpr (nodup_castRange _)
  obtain ⟨k, hk⟩ := List.mem_iff_getElem?.mp hmc
  obtain ⟨machine, hm, rfl⟩ := getElem?_dealtConfigs.mp hk
  constructor
  · rintro ⟨v, ⟨m, -, hv⟩, rfl⟩
    have hin := TreeMaps.mem_of_getElem? (MachineConfigurator.nodeMap_of_mem hv)
    obtain ⟨j, hj, hji⟩ := List.mem_map.mp ((mem_nodeMap hnodes).mp hin)
    have := List.mem_range.mp hj
    omega
  · rintro ⟨hpos, hlt⟩
    obtain ⟨j, rfl⟩ := Int.eq_ofNat_of_zero_le hpos
    have hj : j < functions.length := Int.ofNat_lt.mp hlt
    obtain ⟨v, hv, hid⟩ : ∃ v ∈ nodes, v.id = j :=
      List.mem_map.mp (hnodes.mem_iff.mpr (List.mem_map_of_mem (List.mem_range.mpr hj)))
    have hlen : j % ips.length < ips.length := Nat.mod_lt _ (List.length_pos_iff.mpr h0)
    have hdealt : dealt ips (List.range functions.length) (j % ips.length) ips[j % ips.length] ∈
        dealtMachines ips functions.length :=
      List.mem_of_getElem? (by rw [getElem?_dealtMachines, List.getElem?_eq_getElem hlen, Option.map_some])
    have hmap := (configuratorFor_machineMap nodes (map_id_dealtMachines ▸ nodup_castRange _) hm _ _).mpr
      ⟨hdealt, rfl⟩
    refine ⟨v, ⟨_, TreeMaps.mem_of_getElem? hmap, (MachineConfigurator.mem_getNodesForMachine hmap).mpr ⟨?_, ?_⟩⟩, hid⟩
    · rw [hid]
      exact List.mem_map_of_mem (mem_share.mpr ⟨hj, rfl⟩)
    · exact (configuratorFor_nodeMap hnd _ v).mpr ⟨hv, rfl⟩

/-- The second of three machines on which the five functions of `inputs/input_complex.json` run. -/
theorem addressesValid_complex : ∃ (g : ServiceGraph) (mcs : List MachineConfigurator) (mc : MachineConfigurator),
    configureMachines ["18.217.175.10", "18.188.160.168", "18.217.69.3"] inputComplexJson.functions
      (g.configNodes (.ascending 5) inputComplexJson.functions fun _ => 0) = .ok mcs ∧ mcs[1]? = some mc ∧
      AddressesValid mc ⟨173, 16, 1, 1⟩ := by
  obtain ⟨o, -⟩ := inputComplexJson_constructed
  let ips := ["18.217.175.10", "18.188.160.168", "18.217.69.3"]
  let nodes := o.graph.configNodes (.ascending 5) inputComplexJson.functions fun _ => 0
  have hids : (nodes.map (·.id)).Perm ((List.range inputComplexJson.functions.length).map Nat.cast) :=
    .of_eq (map_id_configNodes (.ascending 5) o.graph fun _ => 0)
  have hmachine : (dealtMachines ips inputComplexJson.functions.length)[1]? =
      some (dealt ips (List.range 5) 1 "18.188.160.168") := rfl
  have hconf : (dealtConfigs ips inputComplexJson.functions.length nodes)[1]? = some _ :=
    getElem?_dealtConfigs.mpr ⟨_, hmachine, rfl⟩
  refine ⟨o.graph, _, _, configureMachines_eq (by decide) (by decide) (by decide) _, hconf, ?_⟩
  refine (addressesValid_iff ?_ (dealtConfigs_places hids (by decide) (List.mem_of_getElem? hconf))).mpr
    ⟨.inr ?_, by decide⟩
  · rw [configuratorFor_ownMachine (map_id_dealtMachines ▸ nodup_castRange _) hmachine]
    decide
  · have hlen := congrArg List.length (configuratorFor_deployed hids hmachine)
    rw [MachineConfigurator.deployed, List.length_map] at hlen
    rw [MachineConfigurator.internalNodes, List.length_map, hlen]
    decide

/-- The container behind a bridge whose last octet is 254 is given the broadcast address. -/
theorem addresses_broadcast : ∃ mc : MachineConfigurator, inetPton mc.ownMachine.bridgeIp = some ⟨10, 0, 0, 254⟩ ∧
    mc.localAddresses = [(0, "10.0.0.255", 8000)] ∧ ¬ AddressesValid mc ⟨10, 0, 0, 254⟩ := by
  let machine : Machine := { id := 0, bridgeIp := "10.0.0.254", nodes := [0] }
  let node : ConfigNode := { id := 0, nf := .dnfFirewall, machineId := 0 }
  have hlocal : (configuratorFor [machine] [node] 0 machine).localAddresses = [(0, "10.0.0.255", 8000)] := by decide
  refine ⟨configuratorFor [machine] [node] 0 machine, by decide, hlocal, fun hv => ?_⟩
  obtain ⟨d, hd, -, h255⟩ := hv.containers (0, "10.0.0.255", 8000) (hlocal ▸ List.mem_singleton.mpr rfl)
  have hread : inetPton "10.0.0.255" = some ⟨10, 0, 0, 255⟩ := by decide
  exact h255 (congrArg InAddr.d (Option.some.inj (hd.symm.trans hread)))

end Ranges
end DeepNF
