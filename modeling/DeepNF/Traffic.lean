import DeepNF.Forwarder
import DeepNF.Partitioning

/-!
# Who sends where (`setup_bridge_ports`, `make_flow_rules`)

Every machine works out alone under which address its functions reach their neighbors: a function on the
same machine in its container, any other one through the forwarder of its machine.
`trafficAddresses`: the machines agree.
-/

namespace DeepNF
open Std (TreeMap)
open CText (IsInt stoi atoi)

/-- `conf.get_machine_with_id(conf.get_machine_id())`. -/
def MachineConfigurator.ownMachine (mc : MachineConfigurator) : Machine :=
  mc.machineMap.get mc.machineId mc.machineId_mem

def MachineConfigurator.internalNodes (mc : MachineConfigurator) : List RuntimeNode :=
  (mc.getNodesForMachine mc.machineId).map (·.toRuntimeNode)

def splitLastDot (cs : List Char) : List Char × List Char :=
  ((cs.reverse.dropWhile (· ≠ '.')).reverse, (cs.reverse.takeWhile (· ≠ '.')).reverse)

/-- The containers of the own machine: consecutive addresses behind that of the bridge. -/
def MachineConfigurator.localAddresses (mc : MachineConfigurator) : List (Int × String × Int) :=
  let (ipAssign, last) := splitLastDot mc.ownMachine.bridgeIp.toList
  let ipInx := atoi last + 1
  mc.internalNodes.zipIdx.map fun (n, k) => (n.id, String.ofList ipAssign ++ toString (ipInx + (k : Int)), 8000)

/-- The forwarders of the other machines. -/
def MachineConfigurator.remoteAddresses (mc : MachineConfigurator) : List (Int × String × Int) :=
  (mc.machineMap.toList.filter (·.1 ≠ mc.machineId)).flatMap fun (_, mac) =>
    (mc.getNodesForMachine mac.id).map fun n => (n.id, mac.ip, 8000 - n.id - 1)

def FlowConfig.assign (conf : FlowConfig) (x : Int × String × Int) : FlowConfig :=
  { conf with
    nodeidToNetwork := conf.nodeidToNetwork.insert x.1 x.2.1
    nodeidToPort := conf.nodeidToPort.insert x.1 x.2.2 }

def setupBridgePorts (mc : MachineConfigurator) (mergerIp : String) (numPacketsSent : Int) : FlowConfig :=
  (mc.localAddresses ++ mc.remoteAddresses).foldl .assign
    { mergerIp, numPacketsSent, nodeidToNetwork := ∅, nodeidToPort := ∅ }

def flowRules (mc : MachineConfigurator) (mergerIp : String) (numPacketsSent : Int) : List Command :=
  makeFlowRules (setupBridgePorts mc mergerIp numPacketsSent) mc.internalNodes

/-- An assignment of the nodes of a service graph to machines. -/
structure Deployment (ms : List Machine) (nodes : List ConfigNode) : Prop where
  ids : (nodes.map (·.id)).Perm ((List.range nodes.length).map Nat.cast)
  ints : ∀ u ∈ nodes, IsInt u.id
  nodup_neighbors : ∀ u ∈ nodes, u.neighbors.Nodup
  mem_neighbors : ∀ u ∈ nodes, ∀ i ∈ u.neighbors, ∃ v ∈ nodes, v.id = i
  one_pktgen : ∀ u ∈ nodes, ∀ v ∈ nodes, u.nf = .pktgen → v.nf = .pktgen → u = v
  pktgen_source : ∀ u ∈ nodes, ∀ v ∈ nodes, v.nf = .pktgen → v.id ∉ u.neighbors
  machine_ids : (ms.map (·.id)).Nodup
  ips : (ms.map (·.ip)).Nodup
  host : ∀ m ∈ ms, Host m.ip
  bridge : ∀ m ∈ ms, m.bridgeIp = "173.16.1.1"
  nodup_nodes : ∀ m ∈ ms, m.nodes.Nodup
  mem_nodes : ∀ m ∈ ms, ∀ i ∈ m.nodes, ∃ u ∈ nodes, u.id = i
  placed : ∀ u ∈ nodes, ∃ m ∈ ms, u.id ∈ m.nodes
  placed_once : ∀ m ∈ ms, ∀ m' ∈ ms, ∀ i ∈ m.nodes, i ∈ m'.nodes → m = m'

structure ContainerOf (mc : MachineConfigurator) (mergerIp : String) (numPacketsSent : Int) (v : ConfigNode)
    (ip : String) (port : Int) : Prop where
  network : (setupBridgePorts mc mergerIp numPacketsSent).nodeidToNetwork[v.id]? = some ip
  alone : ∀ w ∈ mc.internalNodes, w.id ≠ v.id →
    (setupBridgePorts mc mergerIp numPacketsSent).nodeidToNetwork[w.id]? ≠ some ip
  bound : ∃ cmd, (flowRules mc mergerIp numPacketsSent).filter (·.container = getConfigDir v.id) = [cmd] ∧
    boundPort v.nf cmd.program = .ok (some port)

theorem ContainerOf.port_unique {mc : MachineConfigurator} {mergerIp : String} {n : Int} {v : ConfigNode}
    {ip ip' : String} {port port' : Int} (h : ContainerOf mc mergerIp n v ip port)
    (h' : ContainerOf mc mergerIp n v ip' port') : port = port' := by
  obtain ⟨cmd, hcmd, hb⟩ := h.bound
  obtain ⟨cmd', hcmd', hb'⟩ := h'.bound
  obtain rfl := (List.cons.inj (hcmd.symm.trans hcmd')).1
  exact Option.some.inj (Except.ok.inj (hb.symm.trans hb'))

/-- The argument, given to a function on the machine in place `i`, leads to `v` on the machine `mv` in place
`j`. Each machine is started with a merger address and a number of packets of its own. -/
def LeadsTo (ms : List Machine) (nodes : List ConfigNode) (mergerIp : Nat → String) (numPacketsSent : Nat → Int)
    (i j : Nat) (mv : Machine) (v : ConfigNode) (argument : String) : Prop :=
  ∃ ip port, addressFromString argument = .ok (some (ip, port)) ∧
    if i = j then
      ContainerOf (configuratorFor ms nodes j mv) (mergerIp j) (numPacketsSent j) v ip port
    else
      ip = mv.ip ∧ ∃ table ip' port',
        forwarderTable (forwarderTxt
          (setupBridgePorts (configuratorFor ms nodes j mv) (mergerIp j) (numPacketsSent j))
          (configuratorFor ms nodes j mv).internalNodes) = .ok table ∧
        table.filter (·.1 = port) = [(port, some (ip', port'))] ∧
        ContainerOf (configuratorFor ms nodes j mv) (mergerIp j) (numPacketsSent j) v ip' port'

/-! ### One machine -/

theorem foldl_assign (l : List (Int × String × Int)) (conf : FlowConfig) :
    (l.foldl .assign conf).mergerIp = conf.mergerIp ∧
    (l.foldl .assign conf).nodeidToNetwork = l.foldl (fun t x => t.insert x.1 x.2.1) conf.nodeidToNetwork ∧
    (l.foldl .assign conf).nodeidToPort = l.foldl (fun t x => t.insert x.1 x.2.2) conf.nodeidToPort := by
  induction l generalizing conf with
  | nil => exact ⟨rfl, rfl, rfl⟩
  | cons x l ih => exact ih (conf.assign x)

theorem setupBridgePorts_of_forall {mc : MachineConfigurator} {mergerIp : String} {n : Int} {i : Int}
    {ip : String} {port : Int} (hmem : (i, ip, port) ∈ mc.localAddresses ++ mc.remoteAddresses)
    (h : ∀ x ∈ mc.localAddresses ++ mc.remoteAddresses, x.1 = i → x.2 = (ip, port)) :
    (setupBridgePorts mc mergerIp n).nodeidToNetwork[i]? = some ip ∧
      (setupBridgePorts mc mergerIp n).nodeidToPort[i]? = some port := by
  obtain ⟨-, hnet, hport⟩ := foldl_assign (mc.localAddresses ++ mc.remoteAddresses)
    { mergerIp, numPacketsSent := n, nodeidToNetwork := ∅, nodeidToPort := ∅ }
  rw [setupBridgePorts, hnet, hport]
  exact ⟨TreeMaps.getElem?_foldl_insert_of_forall (fun x : Int × String × Int => x.1) (fun x => x.2.1)
      (fun x hx hi => congrArg Prod.fst (h x hx hi)) ∅ (.inl ⟨_, hmem, rfl⟩),
    TreeMaps.getElem?_foldl_insert_of_forall (fun x : Int × String × Int => x.1) (fun x => x.2.2)
      (fun x hx hi => congrArg Prod.snd (h x hx hi)) ∅ (.inl ⟨_, hmem, rfl⟩)⟩

def containerIp (k : Nat) : String := "173.16.1." ++ toString (2 + (k : Int))

theorem containerIp_inj {k k' : Nat} (h : containerIp k = containerIp k') : k = k' := by
  have := CText.append_toString_inj h
  omega

theorem containerIp_plain (k : Nat) : Plain (containerIp k) := by
  have hno : ∀ c : Char, c.isDigit = false → c ≠ '-' → c ∉ "173.16.1.".toList → c ∉ (containerIp k).toList := by
    intro c hd hm hc
    rw [containerIp, String.toList_append, List.mem_append, not_or]
    exact ⟨hc, CText.notMem_toString hd hm⟩
  refine ⟨⟨fun h => ?_, hno _ (by decide) (by decide) (by decide)⟩, hno _ (by decide) (by decide) (by decide),
    hno _ (by decide) (by decide) (by decide)⟩
  have hl := congrArg String.toList h
  rw [containerIp, String.toList_append] at hl
  cases hl

/-! ### The command of one node -/

section Commands

theorem filter_eq_singleton {α β : Type} [DecidableEq β] {f : α → β} {l : List α} (hl : (l.map f).Nodup) {a : α}
    (ha : a ∈ l) : l.filter (fun x => f x = f a) = [a] := by
  induction l with
  | nil => cases ha
  | cons x l ih =>
    obtain ⟨hx, hl⟩ := List.nodup_cons.mp hl
    rcases List.mem_cons.mp ha with rfl | ha
    · have hnil : l.filter (fun x => f x = f a) = [] :=
        List.filter_eq_nil_iff.mpr fun y hy he => hx (List.mem_map.mpr ⟨y, hy, of_decide_eq_true he⟩)
      simp [hnil]
    · have hne : ¬ f x = f a := fun he => hx (List.mem_map.mpr ⟨a, ha, he.symm⟩)
      simp [hne, ih hl ha]

theorem getConfigDir_inj {i j : Int} (h : getConfigDir i = getConfigDir j) : i = j :=
  CText.append_toString_inj h

variable {conf : FlowConfig} {nodes : List RuntimeNode}

def FlowConfig.argument (conf : FlowConfig) (neighbor : Int) : String :=
  conf.nodeidToNetwork.getD neighbor "" ++ ":" ++ toString (conf.nodeidToPort.getD neighbor 0)

def FlowConfig.command (conf : FlowConfig) (node : RuntimeNode) : Command :=
  if node.nf = .pktgen then conf.pktgenCommand node else conf.nodeCommand node

theorem nodup_containers (hids : (nodes.map (·.id)).Nodup) :
    ((makeFlowRules conf nodes).map (·.container)).Nodup := by
  have hdirs : (nodes.map fun node => getConfigDir node.id).Nodup := by
    have h := hids.map (f := getConfigDir) fun _ _ => getConfigDir_inj
    rwa [List.map_map] at h
  rw [makeFlowRules_eq, List.map_append, List.map_map, List.nodup_append]
  refine ⟨hdirs.sublist (List.filter_sublist.map _), ?_, ?_⟩
  · cases (nodes.filter (·.nf = .pktgen)).getLast? <;> simp
  · rintro a ha b hb rfl
    obtain ⟨x, hx, rfl⟩ := List.mem_map.mp ha
    obtain ⟨cmd, hcmd, he⟩ := List.mem_map.mp hb
    rw [Option.mem_toList, Option.map_eq_some_iff] at hcmd
    obtain ⟨y, hy, rfl⟩ := hcmd
    obtain ⟨hx, hxn⟩ := List.mem_filter.mp hx
    obtain ⟨hy, hyn⟩ := List.mem_filter.mp (List.mem_of_getLast? hy)
    obtain rfl := List.inj_on_of_nodup_map hids hy hx (getConfigDir_inj he)
    simp at hxn hyn
    exact hxn hyn

theorem command_mem (hone : ∀ a ∈ nodes, ∀ b ∈ nodes, a.nf = .pktgen → b.nf = .pktgen → a = b)
    {node : RuntimeNode} (hn : node ∈ nodes) : conf.command node ∈ makeFlowRules conf nodes := by
  rw [FlowConfig.command]
  split
  · rename_i hpk
    have hmem : node ∈ nodes.filter (·.nf = .pktgen) := List.mem_filter.mpr ⟨hn, by simpa using hpk⟩
    have hlast : (nodes.filter (·.nf = .pktgen)).getLast? = some node := by
      obtain ⟨last, hlast⟩ := Option.ne_none_iff_exists'.mp
        (mt List.getLast?_eq_none_iff.mp (List.ne_nil_of_mem hmem))
      obtain ⟨hin, hnf⟩ := List.mem_filter.mp (List.mem_of_getLast? hlast)
      rw [hlast, hone last hin node hn (by simpa using hnf) hpk]
    rw [makeFlowRules_eq, hlast]
    exact List.mem_append_right _ (List.mem_singleton.mpr rfl)
  · exact nodeCommand_mem hn ‹_›

theorem makeFlowRules_filter (hids : (nodes.map (·.id)).Nodup)
    (hone : ∀ a ∈ nodes, ∀ b ∈ nodes, a.nf = .pktgen → b.nf = .pktgen → a = b) {node : RuntimeNode}
    (hn : node ∈ nodes) :
    (makeFlowRules conf nodes).filter (·.container = getConfigDir node.id) = [conf.command node] := by
  have hdir : (conf.command node).container = getConfigDir node.id := by
    rw [FlowConfig.command]
    split <;> rfl
  rw [← hdir]
  exact filter_eq_singleton (nodup_containers hids) (command_mem hone hn)

theorem command_arguments {node : RuntimeNode} (hne : node.neighbors ≠ []) :
    (conf.command node).arguments = node.neighbors.map conf.argument := by
  have hdest : (conf.command node).destinations = conf.neighborAddresses node.neighbors := by
    rw [FlowConfig.command]
    split
    · rfl
    · rw [FlowConfig.nodeCommand, if_neg (by simpa using hne)]
      rfl
  rw [Command.arguments, hdest, FlowConfig.neighborAddresses, List.map_map]
  rfl

end Commands

/-! ### The machines of a deployment -/

theorem configuratorFor_ownMachine {ms : List Machine} {nodes : List ConfigNode} {i : Nat} {m : Machine}
    (hms : (ms.map (·.id)).Nodup) (hi : ms[i]? = some m) : (configuratorFor ms nodes i m).ownMachine = m := by
  have hid : (configuratorFor ms nodes i m).machineId = m.id := configuratorFor_machineId
  have hget := (configuratorFor_machineMap nodes hms hi m.id m).mpr ⟨List.mem_of_getElem? hi, rfl⟩
  rw [← hid] at hget
  exact Option.some.inj ((TreeMap.getElem?_eq_some_getElem
    (configuratorFor ms nodes i m).machineId_mem).symm.trans hget)

namespace Deployment
variable {ms : List Machine} {nodes : List ConfigNode} (d : Deployment ms nodes) {i : Nat} {m : Machine}
  (hi : ms[i]? = some m)
include d

theorem nodup_ids : (nodes.map (·.id)).Nodup := d.ids.nodup_iff.mpr (nodup_castRange _)

theorem id_nonneg {u : ConfigNode} (hu : u ∈ nodes) : 0 ≤ u.id := by
  obtain ⟨k, -, hk⟩ := List.mem_map.mp (d.ids.mem_iff.mp (List.mem_map_of_mem hu))
  rw [← hk]
  exact Int.natCast_nonneg k

theorem machine_ext {m m' : Machine} (hm : m ∈ ms) (hm' : m' ∈ ms) (h : m.id = m'.id) : m = m' :=
  List.inj_on_of_nodup_map d.machine_ids hm hm' h

include hi

theorem place_unique {j : Nat} (hj : ms[j]? = some m) : i = j := by
  have hlt := (List.getElem?_eq_some_iff.mp hi).1
  exact (List.getElem?_inj hlt (List.Nodup.of_map _ d.machine_ids)).mp (hi.trans hj.symm)

theorem getElem?_machineMap {m' : Machine} (hm' : m' ∈ ms) :
    (configuratorFor ms nodes i m).machineMap[m'.id]? = some m' :=
  (configuratorFor_machineMap nodes d.machine_ids hi _ _).mpr ⟨hm', rfl⟩

theorem ownMachine_eq : (configuratorFor ms nodes i m).ownMachine = m :=
  configuratorFor_ownMachine d.machine_ids hi

theorem map_id_getNodes {m' : Machine} (hm' : m' ∈ ms) :
    ((configuratorFor ms nodes i m).getNodesForMachine m'.id).map (·.id) = m'.nodes := by
  refine MachineConfigurator.map_id_getNodesForMachine (d.getElem?_machineMap hi hm') fun k hk => ?_
  obtain ⟨u, hu, rfl⟩ := d.mem_nodes m' hm' k hk
  exact TreeMaps.mem_of_getElem? ((configuratorFor_nodeMap d.nodup_ids _ u).mpr ⟨hu, rfl⟩)

theorem mem_getNodes {m' : Machine} (hm' : m' ∈ ms) {u : ConfigNode} :
    u ∈ (configuratorFor ms nodes i m).getNodesForMachine m'.id ↔ u ∈ nodes ∧ u.id ∈ m'.nodes := by
  rw [MachineConfigurator.mem_getNodesForMachine (d.getElem?_machineMap hi hm'),
    configuratorFor_nodeMap d.nodup_ids, and_comm]
  simp

theorem map_id_internalNodes : ((configuratorFor ms nodes i m).internalNodes).map (·.id) = m.nodes := by
  rw [MachineConfigurator.internalNodes, configuratorFor_machineId, List.map_map]
  exact d.map_id_getNodes hi (List.mem_of_getElem? hi)

theorem mem_internalNodes {u : ConfigNode} (hu : u ∈ nodes) :
    u.toRuntimeNode ∈ (configuratorFor ms nodes i m).internalNodes ↔ u.id ∈ m.nodes := by
  have hm := List.mem_of_getElem? hi
  rw [MachineConfigurator.internalNodes, configuratorFor_machineId, List.mem_map]
  constructor
  · rintro ⟨v, hv, he⟩
    have hid : v.id = u.id := congrArg RuntimeNode.id he
    exact hid ▸ ((d.mem_getNodes hi hm).mp hv).2
  · exact fun h => ⟨u, (d.mem_getNodes hi hm).mpr ⟨hu, h⟩, rfl⟩

theorem exists_of_internalNodes {n : RuntimeNode} (hn : n ∈ (configuratorFor ms nodes i m).internalNodes) :
    ∃ u ∈ nodes, u.toRuntimeNode = n ∧ u.id ∈ m.nodes := by
  rw [MachineConfigurator.internalNodes, configuratorFor_machineId, List.mem_map] at hn
  obtain ⟨u, hu, rfl⟩ := hn
  obtain ⟨hu, hm⟩ := (d.mem_getNodes hi (List.mem_of_getElem? hi)).mp hu
  exact ⟨u, hu, rfl, hm⟩

theorem localAddresses_eq : (configuratorFor ms nodes i m).localAddresses =
    (configuratorFor ms nodes i m).internalNodes.zipIdx.map fun (n, k) => (n.id, containerIp k, 8000) := by
  have hsplit : splitLastDot "173.16.1.1".toList = ("173.16.1.".toList, ['1']) := by decide
  have hone : atoi ['1'] = 1 := by decide
  rw [MachineConfigurator.localAddresses, d.ownMachine_eq hi, d.bridge m (List.mem_of_getElem? hi), hsplit]
  simp only [hone, String.ofList_toList]
  rfl

theorem mem_localAddresses {x : Int × String × Int} : x ∈ (configuratorFor ms nodes i m).localAddresses ↔
    ∃ k, m.nodes[k]? = some x.1 ∧ x.2 = (containerIp k, 8000) := by
  rw [d.localAddresses_eq hi, ← d.map_id_internalNodes hi, List.mem_map]
  simp only [Prod.exists, List.mem_zipIdx_iff_getElem?, List.getElem?_map, Option.map_eq_some_iff]
  constructor
  · rintro ⟨n, k, hk, rfl⟩
    exact ⟨k, ⟨n, hk, rfl⟩, rfl⟩
  · rintro ⟨k, ⟨n, hk, hid⟩, hx⟩
    exact ⟨n, k, hk, Prod.ext hid hx.symm⟩

theorem mem_remoteAddresses {x : Int × String × Int} : x ∈ (configuratorFor ms nodes i m).remoteAddresses ↔
    ∃ m' ∈ ms, m' ≠ m ∧ x.1 ∈ m'.nodes ∧ x.2 = (m'.ip, 8000 - x.1 - 1) := by
  have hm := List.mem_of_getElem? hi
  rw [MachineConfigurator.remoteAddresses, List.mem_flatMap]
  simp only [Prod.exists, List.mem_filter, TreeMap.mem_toList_iff_getElem?_eq_some, decide_eq_true_eq,
    configuratorFor_machineId, configuratorFor_machineMap nodes d.machine_ids hi, List.mem_map]
  constructor
  · rintro ⟨k, m', ⟨⟨hm', rfl⟩, hne⟩, u, hu, rfl⟩
    exact ⟨m', hm', fun h => hne (h ▸ rfl), ((d.mem_getNodes hi hm').mp hu).2, rfl⟩
  · rintro ⟨m', hm', hne, hx, he⟩
    obtain ⟨u, hu, hid⟩ := d.mem_nodes m' hm' _ hx
    refine ⟨m'.id, m', ⟨⟨hm', rfl⟩, fun h => hne (d.machine_ext hm' hm h)⟩, u,
      (d.mem_getNodes hi hm').mpr ⟨hu, hid ▸ hx⟩, Prod.ext hid ?_⟩
    rw [he, hid]

variable (mergerIp : String) (n : Int)

theorem container {v : Int} {k : Nat} (hk : m.nodes[k]? = some v) :
    (setupBridgePorts (configuratorFor ms nodes i m) mergerIp n).nodeidToNetwork[v]? = some (containerIp k) ∧
      (setupBridgePorts (configuratorFor ms nodes i m) mergerIp n).nodeidToPort[v]? = some 8000 := by
  have hm := List.mem_of_getElem? hi
  refine setupBridgePorts_of_forall
    (List.mem_append_left _ ((d.mem_localAddresses hi).mpr ⟨k, hk, rfl⟩)) fun x hx hv => ?_
  rcases List.mem_append.mp hx with hx | hx
  · obtain ⟨k', hk', he⟩ := (d.mem_localAddresses hi).mp hx
    have hlt := (List.getElem?_eq_some_iff.mp hk).1
    rw [he, (List.getElem?_inj hlt (d.nodup_nodes m hm)).mp (hk.trans (hv ▸ hk').symm)]
  · obtain ⟨m', hm', hne, hin, -⟩ := (d.mem_remoteAddresses hi).mp hx
    exact absurd (d.placed_once m' hm' m hm x.1 hin (hv ▸ List.mem_of_getElem? hk)) hne

theorem forwarder {m' : Machine} (hm' : m' ∈ ms) (hne : m' ≠ m) {v : Int} (hv : v ∈ m'.nodes) :
    (setupBridgePorts (configuratorFor ms nodes i m) mergerIp n).nodeidToNetwork[v]? = some m'.ip ∧
      (setupBridgePorts (configuratorFor ms nodes i m) mergerIp n).nodeidToPort[v]? = some (8000 - v - 1) := by
  have hm := List.mem_of_getElem? hi
  refine setupBridgePorts_of_forall
    (List.mem_append_right _ ((d.mem_remoteAddresses hi).mpr ⟨m', hm', hne, hv, rfl⟩)) fun x hx hxv => ?_
  rcases List.mem_append.mp hx with hx | hx
  · obtain ⟨k, hk, -⟩ := (d.mem_localAddresses hi).mp hx
    exact absurd (d.placed_once m' hm' m hm v hv (hxv ▸ List.mem_of_getElem? hk)) hne
  · obtain ⟨m'', hm'', -, hin, he⟩ := (d.mem_remoteAddresses hi).mp hx
    rw [he, d.placed_once m'' hm'' m' hm' v (hxv ▸ hin) hv, hxv]

theorem flowRules_filter {u : ConfigNode} (hu : u ∈ nodes) (hum : u.id ∈ m.nodes) :
    (flowRules (configuratorFor ms nodes i m) mergerIp n).filter (·.container = getConfigDir u.id) =
      [(setupBridgePorts (configuratorFor ms nodes i m) mergerIp n).command u.toRuntimeNode] := by
  refine makeFlowRules_filter ?_ (fun a ha b hb hanf hbnf => ?_) ((d.mem_internalNodes hi hu).mpr hum)
  · rw [d.map_id_internalNodes hi]
    exact d.nodup_nodes m (List.mem_of_getElem? hi)
  · obtain ⟨x, hx, rfl, -⟩ := d.exists_of_internalNodes hi ha
    obtain ⟨y, hy, rfl, -⟩ := d.exists_of_internalNodes hi hb
    rw [d.one_pktgen x hx y hy hanf hbnf]

theorem containerOf {v : ConfigNode} (hv : v ∈ nodes) (hpk : v.nf ≠ .pktgen) {k : Nat}
    (hk : m.nodes[k]? = some v.id) : ContainerOf (configuratorFor ms nodes i m) mergerIp n v (containerIp k) 8000 := by
  have hm := List.mem_of_getElem? hi
  obtain ⟨hnet, hport⟩ := d.container hi mergerIp n hk
  refine ⟨hnet, fun w hw hne he => ?_, _, d.flowRules_filter hi mergerIp n hv (List.mem_of_getElem? hk), ?_⟩
  · obtain ⟨u, hu, rfl, hum⟩ := d.exists_of_internalNodes hi hw
    obtain ⟨k', hk'⟩ := List.mem_iff_getElem?.mp hum
    obtain rfl := containerIp_inj (Option.some.inj ((d.container hi mergerIp n hk').1.symm.trans he))
    exact hne (Option.some.inj (hk'.symm.trans hk))
  · rw [FlowConfig.command, if_neg hpk, FlowConfig.nodeCommand, TreeMap.getD_eq_getD_getElem?, hport]
    exact boundPort_program hpk (by decide)

theorem forwarder_parts : ∀ node ∈ (configuratorFor ms nodes i m).internalNodes, IsInt (8000 - node.id - 1) ∧
    Plain ((setupBridgePorts (configuratorFor ms nodes i m) mergerIp n).nodeidToNetwork.getD node.id "") := by
  intro node hn
  obtain ⟨u, hu, rfl, hum⟩ := d.exists_of_internalNodes hi hn
  constructor
  · have hint := d.ints u hu
    have hpos := d.id_nonneg hu
    unfold IsInt at hint ⊢
    omega
  · obtain ⟨k, hk⟩ := List.mem_iff_getElem?.mp hum
    rw [TreeMap.getD_eq_getD_getElem?, (d.container hi mergerIp n hk).1]
    exact containerIp_plain k

theorem forwarderTable_ok : forwarderTable (forwarderTxt
      (setupBridgePorts (configuratorFor ms nodes i m) mergerIp n) (configuratorFor ms nodes i m).internalNodes) =
    .ok ((configuratorFor ms nodes i m).internalNodes.map fun node => (8000 - node.id - 1,
      some ((setupBridgePorts (configuratorFor ms nodes i m) mergerIp n).nodeidToNetwork.getD node.id "", 8000))) :=
  forwarderTable_txt (fun node hn => (d.forwarder_parts hi mergerIp n node hn).2)
    fun node hn => (d.forwarder_parts hi mergerIp n node hn).1

theorem nodup_forwarder_ports :
    ((configuratorFor ms nodes i m).internalNodes.map fun node => 8000 - node.id - 1).Nodup := by
  have hports : (m.nodes.map fun j : Int => 8000 - j - 1).Nodup :=
    (d.nodup_nodes m (List.mem_of_getElem? hi)).map fun a b h => by
      have : 8000 - a - 1 = 8000 - b - 1 := h
      omega
  rwa [← d.map_id_internalNodes hi, List.map_map] at hports

theorem forwarderTable_filter {v : ConfigNode} (hv : v ∈ nodes) {k : Nat} (hk : m.nodes[k]? = some v.id) :
    ((configuratorFor ms nodes i m).internalNodes.map fun node => (8000 - node.id - 1,
      some ((setupBridgePorts (configuratorFor ms nodes i m) mergerIp n).nodeidToNetwork.getD node.id "",
        (8000 : Int)))).filter (·.1 = 8000 - v.id - 1) = [(8000 - v.id - 1, some (containerIp k, 8000))] := by
  refine filter_eq_singleton (f := Prod.fst) ?_ (?_ : (8000 - v.id - 1, some (containerIp k, (8000 : Int))) ∈ _)
  · rw [List.map_map]
    exact d.nodup_forwarder_ports hi
  · refine List.mem_map.mpr ⟨_, (d.mem_internalNodes hi hv).mpr (List.mem_of_getElem? hk), ?_⟩
    rw [TreeMap.getD_eq_getD_getElem?, (d.container hi mergerIp n hk).1]
    rfl

end Deployment

/-! ### All machines together -/

theorem same_container {ms : List Machine} {mv mw : Machine} {j j' : Nat} (hj : ms[j]? = some mv)
    (hj' : ms[j']? = some mw) (hjj' : j' = j) {v w : Int} {k l : Nat} (hk : mv.nodes[k]? = some v)
    (hl : mw.nodes[l]? = some w) (h : containerIp l = containerIp k) : w = v := by
  subst hjj'
  obtain rfl := Option.some.inj (hj.symm.trans hj')
  rw [containerIp_inj h] at hl
  exact Option.some.inj (hl.symm.trans hk)

section Traffic
variable {ms : List Machine} {nodes : List ConfigNode} (d : Deployment ms nodes) {i j : Nat} {mu mv : Machine}
  (hi : ms[i]? = some mu) (hj : ms[j]? = some mv) (mergerIp : Nat → String) (numPacketsSent : Nat → Int)
include d hi hj

theorem Deployment.argument {v : ConfigNode} (hv : v ∈ nodes) {k : Nat} (hk : mv.nodes[k]? = some v.id) :
    addressFromString
      ((setupBridgePorts (configuratorFor ms nodes i mu) (mergerIp i) (numPacketsSent i)).argument v.id) =
    .ok (some (if i = j then (containerIp k, 8000) else (mv.ip, 8000 - v.id - 1))) := by
  have hmv := List.mem_of_getElem? hj
  rw [FlowConfig.argument, TreeMap.getD_eq_getD_getElem?, TreeMap.getD_eq_getD_getElem?]
  split
  · rename_i hij
    subst hij
    obtain rfl := Option.some.inj (hi.symm.trans hj)
    obtain ⟨hnet, hport⟩ := d.container hi (mergerIp i) (numPacketsSent i) hk
    rw [hnet, hport]
    exact addressFromString_argument (containerIp_plain k).toHost (by decide)
  · rename_i hij
    have hne : mv ≠ mu := by
      rintro rfl
      exact hij (d.place_unique hi hj)
    obtain ⟨hnet, hport⟩ := d.forwarder hi (mergerIp i) (numPacketsSent i) hmv hne (List.mem_of_getElem? hk)
    have hint := d.ints v hv
    have hpos := d.id_nonneg hv
    rw [hnet, hport]
    refine addressFromString_argument (d.host mv hmv) ?_
    unfold IsInt at hint ⊢
    show -2147483648 ≤ 8000 - v.id - 1 ∧ 8000 - v.id - 1 < 2147483648
    omega

theorem Deployment.leadsTo {v : ConfigNode} (hv : v ∈ nodes) (hpk : v.nf ≠ .pktgen) (hvm : v.id ∈ mv.nodes) :
    LeadsTo ms nodes mergerIp numPacketsSent i j mv v
      ((setupBridgePorts (configuratorFor ms nodes i mu) (mergerIp i) (numPacketsSent i)).argument v.id) := by
  obtain ⟨k, hk⟩ := List.mem_iff_getElem?.mp hvm
  have harg := d.argument hi hj mergerIp numPacketsSent hv hk
  have hown := d.containerOf hj (mergerIp j) (numPacketsSent j) hv hpk hk
  by_cases hij : i = j
  · rw [if_pos hij] at harg
    exact ⟨_, _, harg, by rwa [if_pos hij]⟩
  · rw [if_neg hij] at harg
    refine ⟨_, _, harg, ?_⟩
    rw [if_neg hij]
    exact ⟨rfl, _, _, _, d.forwarderTable_ok hj (mergerIp j) (numPacketsSent j),
      d.forwarderTable_filter hj (mergerIp j) (numPacketsSent j) hv hk, hown⟩

/-- No other argument leads there: a container has the port 8000 and an address of its own, a forwarder a port
below 8000 that belongs to one node. -/
theorem Deployment.leadsTo_unique {j' : Nat} {mw : Machine} (hj' : ms[j']? = some mw) {v w : ConfigNode}
    (hv : v ∈ nodes) (hpk : v.nf ≠ .pktgen) (hvm : v.id ∈ mv.nodes) (hw : w ∈ nodes) (hwm : w.id ∈ mw.nodes)
    (h : LeadsTo ms nodes mergerIp numPacketsSent i j mv v
      ((setupBridgePorts (configuratorFor ms nodes i mu) (mergerIp i) (numPacketsSent i)).argument w.id)) :
    w.id = v.id := by
  obtain ⟨k, hk⟩ := List.mem_iff_getElem?.mp hvm
  obtain ⟨l, hl⟩ := List.mem_iff_getElem?.mp hwm
  have hwpos := d.id_nonneg hw
  have hown := d.containerOf hj (mergerIp j) (numPacketsSent j) hv hpk hk
  obtain ⟨ip, port, hparse, hlead⟩ := h
  rw [d.argument hi hj' mergerIp numPacketsSent hw hl] at hparse
  replace hparse := Option.some.inj (Except.ok.inj hparse)
  by_cases hij : i = j
  · rw [if_pos hij] at hlead
    have hip := Option.some.inj (hown.network.symm.trans hlead.network)
    have hport := hown.port_unique hlead
    by_cases hij' : i = j'
    · rw [if_pos hij'] at hparse
      exact same_container hj hj' (hij'.symm.trans hij) hk hl ((Prod.mk.inj hparse).1.trans hip.symm)
    · -- a forwarder has no port as high as that of a container
      rw [if_neg hij'] at hparse
      have := (Prod.mk.inj hparse).2
      omega
  · rw [if_neg hij] at hlead
    obtain ⟨hmv, table, ip', port', htable, hfilter, hown'⟩ := hlead
    rw [d.forwarderTable_ok hj] at htable
    obtain rfl := Except.ok.inj htable
    by_cases hij' : i = j'
    · rw [if_pos hij'] at hparse
      have hmem := List.mem_singleton_self (port, some (ip', port'))
      rw [← hfilter, List.mem_filter, List.mem_map] at hmem
      obtain ⟨⟨node, hnode, he⟩, -⟩ := hmem
      obtain ⟨x, hx, rfl, -⟩ := d.exists_of_internalNodes hj hnode
      have hxpos := d.id_nonneg hx
      have hxport := (Prod.mk.inj he).1
      have := (Prod.mk.inj hparse).2
      omega
    · rw [if_neg hij'] at hparse
      obtain ⟨rfl, rfl⟩ := Prod.mk.inj hparse
      have hmw : mw = mv :=
        List.inj_on_of_nodup_map d.ips (List.mem_of_getElem? hj') (List.mem_of_getElem? hj) hmv
      subst hmw
      have hjj' : j' = j := d.place_unique hj' hj
      rw [d.forwarderTable_filter hj (mergerIp j) (numPacketsSent j) hw hl] at hfilter
      have hentry := (Prod.mk.inj (List.cons.inj hfilter).1).2
      have hip := Option.some.inj (hown.network.symm.trans hown'.network)
      exact same_container hj hj' hjj' hk hl ((Prod.mk.inj (Option.some.inj hentry)).1.trans hip.symm)

end Traffic

/-- Each node is started by one command. Of its arguments one, and only one, leads to each of its neighbors; a
node without neighbors is given the address of the merger, with the port under which the merger lists it. -/
theorem trafficAddresses {ms : List Machine} {nodes : List ConfigNode} (d : Deployment ms nodes)
    (mergerIp : Nat → String) (numPacketsSent : Nat → Int) {i : Nat} {mu : Machine} (hi : ms[i]? = some mu)
    {u : ConfigNode} (hu : u ∈ nodes) (hum : u.id ∈ mu.nodes) :
    ∃ cmd, (flowRules (configuratorFor ms nodes i mu) (mergerIp i) (numPacketsSent i)).filter
        (·.container = getConfigDir u.id) = [cmd] ∧
      (∀ (j : Nat) mv v, ms[j]? = some mv → v ∈ nodes → v.id ∈ mv.nodes → v.id ∈ u.neighbors →
        ∃! k : Nat, ∃ argument, cmd.arguments[k]? = some argument ∧
          LeadsTo ms nodes mergerIp numPacketsSent i j mv v argument) ∧
      (u.neighbors = [] → u.nf ≠ .pktgen →
        ∃ port : Int, (portToNodeMap (nodes.map (·.toRuntimeNode)))[port]? = some u.id ∧
          cmd.arguments = [mergerIp i ++ ":" ++ toString port]) := by
  refine ⟨_, d.flowRules_filter hi (mergerIp i) (numPacketsSent i) hu hum, ?_, ?_⟩
  · intro j mv v hj hv hvm hvu
    have hpk : v.nf ≠ .pktgen := fun h => d.pktgen_source u hu v hv h hvu
    obtain ⟨k, hk⟩ := List.mem_iff_getElem?.mp hvu
    rw [command_arguments (List.ne_nil_of_mem hvu)]
    simp only [List.getElem?_map, Option.map_eq_some_iff]
    refine ⟨k, ⟨_, ⟨_, hk, rfl⟩, d.leadsTo hi hj mergerIp numPacketsSent hv hpk hvm⟩, ?_⟩
    rintro k' ⟨_, ⟨x, hx, rfl⟩, hlead⟩
    obtain ⟨w, hw, rfl⟩ := d.mem_neighbors u hu x (List.mem_of_getElem? hx)
    obtain ⟨mw, hmw, hwm⟩ := d.placed w hw
    obtain ⟨j', hj'⟩ := List.mem_iff_getElem?.mp hmw
    have heq := d.leadsTo_unique hi hj mergerIp numPacketsSent hj' hv hpk hvm hw hwm hlead
    have hlt := (List.getElem?_eq_some_iff.mp hx).1
    exact (List.getElem?_inj hlt (d.nodup_neighbors u hu)).mp ((heq ▸ hx).trans hk.symm)
  · intro hno hpk
    refine ⟨8000 + u.id + 1, getElem?_portToNodeMap.mpr ⟨⟨_, List.mem_map_of_mem hu, hno, rfl⟩, rfl⟩, ?_⟩
    have hmerger : (setupBridgePorts (configuratorFor ms nodes i mu) (mergerIp i) (numPacketsSent i)).mergerIp =
        mergerIp i := (foldl_assign _ _).1
    rw [FlowConfig.command, if_neg hpk, FlowConfig.nodeCommand, hno, hmerger]
    rfl

def firstMachine : Machine := { id := 0, ip := "18.0.0.1", bridgeIp := "173.16.1.1", nodes := [0, 1] }

def secondMachine : Machine := { id := 1, ip := "18.0.0.2", bridgeIp := "173.16.1.1", nodes := [2] }

def pktgenNode : ConfigNode := { id := 0, nf := .pktgen, neighbors := [1, 2], machineId := 0 }

def firewallNode : ConfigNode := { id := 1, nf := .dnfFirewall, neighbors := [2], machineId := 0 }

def proxyNode : ConfigNode := { id := 2, nf := .proxy, machineId := 0 }

theorem twoMachines_deployment :
    Deployment [firstMachine, secondMachine] [pktgenNode, firewallNode, proxyNode] where
  ids := by decide
  ints := by decide
  nodup_neighbors := by decide
  mem_neighbors := by decide
  one_pktgen := by decide
  pktgen_source := by decide
  machine_ids := by decide
  ips := by decide
  host m hm :=
    have h : ∀ m ∈ [firstMachine, secondMachine], m.ip ≠ "" ∧ ':' ∉ m.ip.toList := by decide
    ⟨(h m hm).1, (h m hm).2⟩
  bridge := by decide
  nodup_nodes := by decide
  mem_nodes := by decide
  placed := by decide
  placed_once := by decide

/-- The firewall is told one address of the proxy, which is that of the forwarder on the other machine. -/
theorem trafficAddresses_twoMachines : ∃ cmd,
    (flowRules (configuratorFor [firstMachine, secondMachine] [pktgenNode, firewallNode, proxyNode] 0 firstMachine)
      "18.0.0.9" 10).filter (·.container = "c1") = [cmd] ∧
      ∃! k : Nat, ∃ argument, cmd.arguments[k]? = some argument ∧
        LeadsTo [firstMachine, secondMachine] [pktgenNode, firewallNode, proxyNode] (fun _ => "18.0.0.9")
          (fun _ => 10) 0 1 secondMachine proxyNode argument := by
  have hfirst : [firstMachine, secondMachine][0]? = some firstMachine := rfl
  have hfirewall : firewallNode ∈ [pktgenNode, firewallNode, proxyNode] := by decide
  obtain ⟨cmd, hcmd, hlead, -⟩ := trafficAddresses twoMachines_deployment (fun _ => "18.0.0.9") (fun _ => 10)
    hfirst hfirewall (by decide)
  exact ⟨cmd, hcmd, hlead 1 _ _ rfl (by decide) (by decide) (by decide)⟩

end DeepNF
