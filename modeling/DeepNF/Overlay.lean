import DeepNF.NetworkFunctions
import DeepNF.Traffic

/-!
# The machines of a deployment (`configure.cpp`, `forwarder.cpp`, `nf_configs`)

An `Overlay` is a deployment in which `configure` has run on every machine, the containers run the commands that it
made and every machine runs the forwarder on the file that it wrote. `Overlay.react` is what the process at a socket
does with a datagram: it is put together from the programs, which read their addresses as text.
`react_container`, `react_host` and `react_merger` say where the datagrams go then.
-/

namespace DeepNF
open CText (IsInt stoi atoi)

/-- Where a datagram is received: in a container, in the network of the bridge of a machine, or at a public address. -/
inductive Socket
  | container (machine : Nat) (ip : String) (port : Int)
  | host (ip : String) (port : Int)
deriving DecidableEq, Repr

structure Datagram where
  socket : Socket
  bytes : List UInt8
deriving DecidableEq

/-- What `make_flow_rules` starts a network function to do. -/
def NF.started : NF → Behavior
  | .dnfFirewall => .firewall false
  | .dnfLoadbalancer | .pktgen => .loadbalancer false
  | .proxy => .proxy "18.188.160.171" 8888
  | .compressor => .compressor "compressed!"

/-- All machines are started with one address of the merger. There are as many addresses behind a bridge, and as many
ports, as the nodes need; the public addresses are not among those of the bridges. -/
structure Overlay where
  machines : List Machine
  nodes : List ConfigNode
  deployment : Deployment machines nodes
  mergerIp : String
  numPacketsSent : Int
  mergerHost : Host mergerIp
  isInt : IsInt numPacketsSent
  few : ∀ m ∈ machines, m.nodes.length ≤ 253
  ports : ∀ u ∈ nodes, u.id < 7999
  apart : ∀ m ∈ machines, ∀ k, m.ip ≠ containerIp k
  mergerApart : ∀ k, mergerIp ≠ containerIp k

namespace Overlay
variable (net : Overlay)

/-- The machines reach each other, the merger and their containers, and none of them has a broadcast address. -/
def routes : Routes := fun _ => true

/-! ### The processes of a machine -/

section
variable (i : Nat) (m : Machine)

def configurator : MachineConfigurator := configuratorFor net.machines net.nodes i m

def config : FlowConfig := setupBridgePorts (net.configurator i m) net.mergerIp net.numPacketsSent

def commands (node : RuntimeNode) : List Command :=
  (flowRules (net.configurator i m) net.mergerIp net.numPacketsSent).filter (·.container = getConfigDir node.id)

/-- An address of the bridge is looked up in the network of the machine. -/
def route (addr : String × Int) : Socket :=
  if addr.1 ∈ (net.configurator i m).localAddresses.map (·.2.1) then .container i addr.1 addr.2
  else .host addr.1 addr.2

/-- The network functions that have come up in the containers, with their sockets. -/
def containers : List (Socket × Process) :=
  (net.configurator i m).internalNodes.flatMap fun node => (net.commands i m node).filterMap fun cmd =>
    match node.nf.main (cmd.program ++ cmd.arguments) with
    | some (.ok proc) => some (.container i ((net.config i m).nodeidToNetwork.getD node.id "") proc.bindPort, proc)
    | _ => none

def forwarders : List (Int × Option (String × Int)) :=
  match forwarderTable (forwarderTxt (net.config i m) (net.configurator i m).internalNodes) with
  | .ok table => table
  | .error _ => []

def sentDatagrams (events : List Event) : List Datagram :=
  events.filterMap fun event => match event with
    | .sent bytes addr => some ⟨net.route i m addr, bytes⟩
    | .logged .. => none

/-- `run_thread` of the forwarder, for one datagram. -/
def runThread (virtualAddr : Option (String × Int)) (bytes : List UInt8) : Option Datagram := do
  let p ← receivedPacket (some bytes)
  let addr ← virtualAddr
  let bytes ← sendPacket routes p addr
  return ⟨net.route i m addr, bytes⟩

def machineSources : List Datagram :=
  ((net.configurator i m).internalNodes.filter (·.nf = .pktgen)).flatMap fun node =>
    (net.commands i m node).flatMap fun cmd =>
      match senderArguments (cmd.program ++ cmd.arguments) with
      | .ok (numPackets, addresses) =>
        net.sentDatagrams i m (senderLoop routes addresses (List.range numPackets.toNat)).1
      | .error _ => []

end

/-- What the process at the socket sends for a datagram. The merger sends nothing into the network. -/
def react (d : Datagram) : List Datagram :=
  match d.socket with
  | .container i _ _ => net.machines[i]?.toList.flatMap fun m =>
      ((net.containers i m).filter (·.1 = d.socket)).flatMap fun x =>
        net.sentDatagrams i m (x.2.iteration routes (some d.bytes)).1
  | .host ip port => (net.machines.zipIdx.filter (·.1.ip = ip)).flatMap fun x =>
      ((net.forwarders x.2 x.1).filter (·.1 = port)).filterMap fun t => net.runThread x.2 x.1 t.2 d.bytes

/-- What is in flight when the packet generators have sent everything. -/
def sources : List Datagram := net.machines.zipIdx.flatMap fun x => net.machineSources x.2 x.1

/-! ### Where the nodes are -/

def place (v : Int) : Nat × Nat :=
  let i := net.machines.findIdx (v ∈ ·.nodes)
  (i, ((net.machines[i]?.map (·.nodes)).getD []).idxOf v)

def machineIp (v : Int) : String := (net.machines[(net.place v).1]?.map (·.ip)).getD ""

def containerOf (v : Int) : Socket := .container (net.place v).1 (containerIp (net.place v).2) 8000

/-- The socket to which machine `i` sends what is meant for a node. -/
def entry (i : Nat) (v : Int) : Socket :=
  if (net.place v).1 = i then net.containerOf v else .host (net.machineIp v) (8000 - v - 1)

def mergerSocket (v : Int) : Socket := .host net.mergerIp (8000 + v + 1)

def targets (u : ConfigNode) : List Socket :=
  if u.neighbors = [] then [net.mergerSocket u.id] else u.neighbors.map (net.entry (net.place u.id).1)

end Overlay

/-! ### The arguments of a command -/

section Arguments
variable {args : List String} {dests : List (String × Int)}

theorem compressorArguments_compressed
    (hargs : List.Forall₂ (fun arg addr => addressFromString arg = .ok (some addr)) args dests)
    {bindText : String} {bindPort : Int} (hbind : stoi bindText.toList = .ok bindPort) (program : String) :
    compressorArguments (program :: bindText :: "compressed!" :: args) = .ok (bindPort, "compressed!", dests) := by
  have hmsg : addressFromString "compressed!" = .ok none := by decide
  have hstep : addAddress [] "compressed!" = .ok [] := by rw [addAddress, hmsg]; rfl
  show (stoi bindText.toList >>= fun bindPort => ("compressed!" :: args).foldlM addAddress [] >>= fun addresses =>
    pure (bindPort, "compressed!", addresses)) = _
  rw [hbind, List.foldlM_cons, hstep]
  show (args.foldlM addAddress [] >>= _) = _
  rw [foldlM_addAddress hargs]
  rfl

theorem filterMain_ok (hargs : List.Forall₂ (fun arg addr => addressFromString arg = .ok (some addr)) args dests)
    (hne : dests ≠ []) (behavior : Bool → Behavior) (program bindText : String) :
    filterMain behavior (program :: bindText :: "0" :: args) =
      .ok ⟨atoi bindText.toList, behavior false, dests, hne⟩ := by
  have hlen : ¬ (program :: bindText :: "0" :: args).length < 3 := by simp
  have hread : (stoi ((program :: bindText :: "0" :: args).getD 2 "").toList).mapError StartError.exception =
      .ok 0 := by
    have hzero : stoi "0".toList = .ok 0 := by decide
    show (stoi "0".toList).mapError StartError.exception = _
    rw [hzero]
    rfl
  have haddr : (((program :: bindText :: "0" :: args).drop 3).foldlM addAddress []).mapError StartError.exception =
      .ok dests := by
    show (args.foldlM addAddress []).mapError StartError.exception = _
    rw [foldlM_addAddress hargs]
    rfl
  unfold filterMain
  rw [if_neg hlen, hread, haddr]
  exact dif_neg hne

theorem FlowConfig.main_ok {conf : FlowConfig} {nf : NF} (hpk : nf ≠ .pktgen) {port : Int} (hp : IsInt port)
    (hargs : List.Forall₂ (fun arg addr => addressFromString arg = .ok (some addr)) args dests) (hne : dests ≠ []) :
    nf.main (conf.program port nf ++ args) = some (.ok ⟨port, nf.started, dests, hne⟩) := by
  have hstoi := CText.stoi_toString_last hp
  have hatoi : atoi (toString port).toList = port := CText.atoi_of_stoi hstoi
  cases nf with
  | pktgen => exact absurd rfl hpk
  | dnfFirewall =>
    have h := filterMain_ok hargs hne .firewall "./fw" (toString port)
    simp only [hatoi] at h
    exact congrArg some h
  | dnfLoadbalancer =>
    have h := filterMain_ok hargs hne .loadbalancer "./fw" (toString port)
    simp only [hatoi] at h
    exact congrArg some h
  | proxy =>
    have hport : stoi (toString (8888 : Int)).toList = .ok 8888 := CText.stoi_toString_last (by decide)
    have h := proxyArguments_ok hargs hstoi hport "./proxy" "18.188.160.171"
    show some (proxyMain ("./proxy" :: toString port :: "18.188.160.171" :: toString (8888 : Int) :: args)) = _
    rw [proxyMain, h]
    exact congrArg some (dif_neg hne)
  | compressor =>
    have h := compressorArguments_compressed hargs hstoi "./compressor"
    show some (compressorMain ("./compressor" :: toString port :: "compressed!" :: args)) = _
    rw [compressorMain, h]
    exact congrArg some (dif_neg hne)

theorem mapM_addressFromString
    (hargs : List.Forall₂ (fun arg addr => addressFromString arg = .ok (some addr)) args dests) :
    args.mapM addressFromString = .ok (dests.map some) := by
  refine Rounds.mapM_of_forall₂ ?_
  rw [List.forall₂_map_right_iff]
  exact hargs

theorem senderArguments_ok {conf : FlowConfig} (hn : IsInt conf.numPacketsSent) (port : Int)
    (hargs : List.Forall₂ (fun arg addr => addressFromString arg = .ok (some addr)) args dests) (hne : dests ≠ []) :
    senderArguments (conf.program port .pktgen ++ args) = .ok (conf.numPacketsSent, dests.map some) := by
  have hnum : atoi (toString conf.numPacketsSent).toList = conf.numPacketsSent :=
    CText.atoi_of_stoi (CText.stoi_toString_last hn)
  have hopt : getoptN (conf.program port .pktgen ++ args) = (some (toString conf.numPacketsSent), args) := rfl
  have hargsne : args ≠ [] := by
    rintro rfl
    exact hne (List.forall₂_nil_left_iff.mp hargs)
  rw [senderArguments, hopt]
  simp only [hargsne, if_false, mapM_addressFromString hargs, hnum]
  rfl

end Arguments

theorem flatMap_eq_of_nodup {α β : Type} {l : List α} (hl : l.Nodup) {a : α} (ha : a ∈ l) {g : α → List β}
    (h : ∀ x ∈ l, x ≠ a → g x = []) : l.flatMap g = g a := by
  induction l with
  | nil => cases ha
  | cons x l ih =>
    obtain ⟨hx, hl⟩ := List.nodup_cons.mp hl
    rw [List.forall_mem_cons] at h
    rw [List.flatMap_cons]
    rcases List.mem_cons.mp ha with rfl | ha
    · have hnil : l.flatMap g = [] :=
        List.flatMap_eq_nil_iff.mpr fun y hy => h.2 y hy fun he => hx (he ▸ hy)
      rw [hnil, List.append_nil]
    · rw [h.1 fun he => hx (he ▸ ha), List.nil_append]
      exact ih hl ha h.2

theorem foldl_assign_num (l : List (Int × String × Int)) (conf : FlowConfig) :
    (l.foldl .assign conf).numPacketsSent = conf.numPacketsSent := by
  induction l generalizing conf with
  | nil => rfl
  | cons x l ih => exact ih (conf.assign x)

namespace Overlay
variable {net : Overlay} {i k : Nat} {m : Machine} {u v : ConfigNode} {p : Packet}

/-! ### Places -/

theorem place_spec (hu : u ∈ net.nodes) :
    ∃ m, net.machines[(net.place u.id).1]? = some m ∧ m.nodes[(net.place u.id).2]? = some u.id := by
  obtain ⟨m, hm, hum⟩ := net.deployment.placed u hu
  have hlt : net.machines.findIdx (u.id ∈ ·.nodes) < net.machines.length :=
    List.findIdx_lt_length_of_exists ⟨m, hm, by simpa using hum⟩
  have hmem : u.id ∈ (net.machines[net.machines.findIdx (u.id ∈ ·.nodes)]).nodes := by
    simpa using List.findIdx_getElem (w := hlt)
  refine ⟨_, List.getElem?_eq_getElem hlt, ?_⟩
  rw [place]
  simp only [List.getElem?_eq_getElem hlt, Option.map_some, Option.getD_some]
  rw [List.getElem?_eq_getElem (List.idxOf_lt_length_of_mem hmem), List.getElem_idxOf]

theorem place_eq (hu : u ∈ net.nodes) (hi : net.machines[i]? = some m) (hk : m.nodes[k]? = some u.id) :
    net.place u.id = (i, k) := by
  obtain ⟨m', hi', hk'⟩ := place_spec hu
  have hm := List.mem_of_getElem? hi
  obtain rfl := net.deployment.placed_once m hm m' (List.mem_of_getElem? hi') u.id (List.mem_of_getElem? hk)
    (List.mem_of_getElem? hk')
  have hlt := (List.getElem?_eq_some_iff.mp hk').1
  exact Prod.ext (net.deployment.place_unique hi' hi)
    ((List.getElem?_inj hlt (net.deployment.nodup_nodes m hm)).mp (hk'.trans hk.symm))

theorem containerOf_inj (hu : u ∈ net.nodes) (hv : v ∈ net.nodes)
    (h : net.containerOf u.id = net.containerOf v.id) : u.id = v.id := by
  obtain ⟨m, hi, hk⟩ := place_spec hu
  obtain ⟨m', hi', hk'⟩ := place_spec hv
  rw [containerOf, containerOf, Socket.container.injEq] at h
  rw [h.1] at hi
  obtain rfl := Option.some.inj (hi.symm.trans hi')
  rw [containerIp_inj h.2.1] at hk
  exact Option.some.inj (hk.symm.trans hk')

theorem machineIp_eq (hv : v ∈ net.nodes) (hi : net.machines[i]? = some m) (hk : m.nodes[k]? = some v.id) :
    net.machineIp v.id = m.ip := by
  rw [machineIp, place_eq hv hi hk, hi]
  rfl

/-! ### The addresses of a node -/

/-- Under which address machine `i` reaches a node. -/
def addressFrom (net : Overlay) (i : Nat) (v : Int) : String × Int :=
  if (net.place v).1 = i then (containerIp (net.place v).2, 8000) else (net.machineIp v, 8000 - v - 1)

def destinations (net : Overlay) (i : Nat) (u : ConfigNode) : List (String × Int) :=
  if u.neighbors = [] then [(net.mergerIp, 8000 + u.id + 1)] else u.neighbors.map (net.addressFrom i)

theorem destinations_ne : net.destinations i u ≠ [] := by
  rw [destinations]
  split
  · exact List.cons_ne_nil _ _
  · simpa using ‹¬ u.neighbors = []›

theorem reaches_of_port {addr : String × Int} (h : 0 < addr.2) (h' : addr.2 < 65536) : routes.Reaches addr :=
  ⟨htons_ne_zero h h', rfl⟩

theorem reaches_destinations (hu : u ∈ net.nodes) : ∀ addr ∈ net.destinations i u, routes.Reaches addr := by
  intro addr haddr
  rw [destinations] at haddr
  split at haddr
  · rw [List.mem_singleton] at haddr
    subst haddr
    have hpos := net.deployment.id_nonneg hu
    have hlt := net.ports u hu
    exact reaches_of_port (by omega) (by omega)
  · obtain ⟨x, hx, rfl⟩ := List.mem_map.mp haddr
    obtain ⟨v, hv, rfl⟩ := net.deployment.mem_neighbors u hu x hx
    have hpos := net.deployment.id_nonneg hv
    have hlt := net.ports v hv
    rw [addressFrom]
    split <;> exact reaches_of_port (by omega) (by omega)

section Machine
variable (hi : net.machines[i]? = some m)
include hi

theorem argument_read (hv : v ∈ net.nodes) :
    addressFromString ((net.config i m).argument v.id) = .ok (some (net.addressFrom i v.id)) := by
  obtain ⟨m', hj, hk⟩ := place_spec hv
  have h := net.deployment.argument hi hj (fun _ => net.mergerIp) (fun _ => net.numPacketsSent) hv hk
  rw [addressFrom, machineIp_eq hv hj hk]
  simp only [eq_comm (a := (net.place v.id).1)]
  exact h

theorem commands_eq (hu : u ∈ net.nodes) (hum : u.id ∈ m.nodes) :
    net.commands i m u.toRuntimeNode = [(net.config i m).command u.toRuntimeNode] :=
  net.deployment.flowRules_filter hi net.mergerIp net.numPacketsSent hu hum

theorem arguments_read (hu : u ∈ net.nodes) (hserved : u.neighbors = [] → u.nf ≠ .pktgen) :
    List.Forall₂ (fun arg addr => addressFromString arg = .ok (some addr))
      ((net.config i m).command u.toRuntimeNode).arguments (net.destinations i u) := by
  rw [destinations]
  split
  · rename_i hno
    have hmerger : (net.config i m).mergerIp = net.mergerIp := (foldl_assign _ _).1
    have hargs : ((net.config i m).command u.toRuntimeNode).arguments =
        [net.mergerIp ++ ":" ++ toString (8000 + u.id + 1)] := by
      rw [FlowConfig.command, if_neg (hserved hno), FlowConfig.nodeCommand, hno, hmerger]
      rfl
    have hport : IsInt (8000 + u.id + 1) := by
      have hpos := net.deployment.id_nonneg hu
      have hlt := net.ports u hu
      unfold IsInt
      omega
    rw [hargs]
    exact .cons (addressFromString_argument net.mergerHost hport) .nil
  · rename_i hne
    rw [command_arguments hne, List.forall₂_map_left_iff, List.forall₂_map_right_iff, List.forall₂_same]
    intro x hx
    obtain ⟨v, hv, rfl⟩ := net.deployment.mem_neighbors u hu x hx
    exact argument_read hi hv

theorem route_addressFrom (hv : v ∈ net.nodes) : net.route i m (net.addressFrom i v.id) = net.entry i v.id := by
  obtain ⟨m', hj, hk⟩ := place_spec hv
  rw [addressFrom, entry]
  split
  · rename_i hij
    rw [hij] at hj
    obtain rfl := Option.some.inj (hi.symm.trans hj)
    refine (if_pos ?_).trans (by rw [containerOf, hij])
    exact List.mem_map.mpr ⟨(v.id, containerIp (net.place v.id).2, 8000),
      (net.deployment.mem_localAddresses hi).mpr ⟨_, hk, rfl⟩, rfl⟩
  · refine if_neg fun hmem => ?_
    obtain ⟨x, hx, he⟩ := List.mem_map.mp hmem
    obtain ⟨l, -, hxl⟩ := (net.deployment.mem_localAddresses hi).mp hx
    rw [hxl, machineIp_eq hv hj hk] at he
    exact net.apart m' (List.mem_of_getElem? hj) l he.symm

theorem route_merger (port : Int) : net.route i m (net.mergerIp, port) = .host net.mergerIp port := by
  refine if_neg fun hmem => ?_
  obtain ⟨x, hx, he⟩ := List.mem_map.mp hmem
  obtain ⟨l, -, hxl⟩ := (net.deployment.mem_localAddresses hi).mp hx
  rw [hxl] at he
  exact net.mergerApart l he.symm

theorem route_destinations (hu : u ∈ net.nodes) (hum : u.id ∈ m.nodes) :
    (net.destinations i u).map (net.route i m) = net.targets u := by
  obtain ⟨k, hk⟩ := List.mem_iff_getElem?.mp hum
  rw [destinations, targets, place_eq hu hi hk]
  split
  · rw [List.map_singleton, route_merger hi, mergerSocket]
  · rw [List.map_map]
    refine List.map_congr_left fun x hx => ?_
    obtain ⟨v, hv, rfl⟩ := net.deployment.mem_neighbors u hu x hx
    exact route_addressFrom hi hv

theorem sentDatagrams_destinations (hu : u ∈ net.nodes) (hum : u.id ∈ m.nodes) (bytes : List UInt8) :
    net.sentDatagrams i m ((net.destinations i u).map fun addr => .sent bytes addr) =
      (net.targets u).map fun socket => ⟨socket, bytes⟩ := by
  rw [sentDatagrams, List.filterMap_map, ← route_destinations hi hu hum, List.map_map, ← List.filterMap_eq_map]
  rfl

theorem nodup_internalNodes : (net.configurator i m).internalNodes.Nodup := by
  have hnd := net.deployment.nodup_nodes m (List.mem_of_getElem? hi)
  rw [← net.deployment.map_id_internalNodes hi] at hnd
  exact hnd.of_map _

theorem main_started (hu : u ∈ net.nodes) (hk : m.nodes[k]? = some u.id) (hpk : u.nf ≠ .pktgen) :
    u.nf.main (((net.config i m).command u.toRuntimeNode).program ++
      ((net.config i m).command u.toRuntimeNode).arguments) =
    some (.ok ⟨8000, u.nf.started, net.destinations i u, destinations_ne⟩) := by
  have hport := (net.deployment.container hi net.mergerIp net.numPacketsSent hk).2
  have hprogram : ((net.config i m).command u.toRuntimeNode).program = (net.config i m).program 8000 u.nf := by
    rw [FlowConfig.command, if_neg hpk, FlowConfig.nodeCommand, Std.TreeMap.getD_eq_getD_getElem?, config]
    show FlowConfig.program _ (Option.getD (_ : Option Int) 0) _ = _
    rw [show (setupBridgePorts (net.configurator i m) net.mergerIp net.numPacketsSent).nodeidToPort[u.id]? = some 8000
      from hport]
    rfl
  rw [hprogram]
  exact FlowConfig.main_ok hpk (by decide) (arguments_read hi hu fun _ => hpk) destinations_ne

theorem sender_started (hu : u ∈ net.nodes) (hpk : u.nf = .pktgen) (hne : u.neighbors ≠ []) :
    senderArguments (((net.config i m).command u.toRuntimeNode).program ++
      ((net.config i m).command u.toRuntimeNode).arguments) =
    .ok (net.numPacketsSent, (net.destinations i u).map some) := by
  have hargs := arguments_read hi hu fun hno => absurd hno hne
  have hnum : (net.config i m).numPacketsSent = net.numPacketsSent := foldl_assign_num _ _
  have hprogram : ((net.config i m).command u.toRuntimeNode).program = (net.config i m).program 0 .pktgen := by
    rw [FlowConfig.command, if_pos hpk]
    rfl
  rw [hprogram, senderArguments_ok (hnum ▸ net.isInt) 0 hargs destinations_ne, hnum]

theorem containers_filter (hu : u ∈ net.nodes) (hum : u.id ∈ m.nodes) (hpk : u.nf ≠ .pktgen) :
    (net.containers i m).filter (·.1 = net.containerOf u.id) =
      [(net.containerOf u.id, ⟨8000, u.nf.started, net.destinations i u, destinations_ne⟩)] := by
  -- the process of one node
  have hone : ∀ w ∈ net.nodes, w.id ∈ m.nodes → w.nf ≠ .pktgen →
      ((net.commands i m w.toRuntimeNode).filterMap fun cmd =>
        match w.toRuntimeNode.nf.main (cmd.program ++ cmd.arguments) with
        | some (.ok proc) =>
          some (Socket.container i ((net.config i m).nodeidToNetwork.getD w.toRuntimeNode.id "") proc.bindPort, proc)
        | _ => none) =
      [(net.containerOf w.id, ⟨8000, w.nf.started, net.destinations i w, destinations_ne⟩)] := by
    intro w hw hwm hwpk
    obtain ⟨l, hl⟩ := List.mem_iff_getElem?.mp hwm
    have hnet := (net.deployment.container hi net.mergerIp net.numPacketsSent hl).1
    rw [commands_eq hi hw hwm, List.filterMap_cons, main_started hi hw hl hwpk, containerOf, place_eq hw hi hl,
      Std.TreeMap.getD_eq_getD_getElem?,
      show (net.config i m).nodeidToNetwork[w.toRuntimeNode.id]? = some (containerIp l) from hnet]
    rfl
  have hmem := (net.deployment.mem_internalNodes hi hu).mpr hum
  rw [containers, List.filter_flatMap, flatMap_eq_of_nodup (nodup_internalNodes hi) hmem fun x hx hne => ?_,
    hone u hu hum hpk]
  · simp
  · obtain ⟨w, hw, rfl, hwm⟩ := net.deployment.exists_of_internalNodes hi hx
    by_cases hwpk : w.nf = .pktgen
    · simp [hwpk, NF.main]
    · rw [hone w hw hwm hwpk]
      have hsocket : net.containerOf w.id ≠ net.containerOf u.id := by
        intro he
        refine hne ?_
        have hid := containerOf_inj hw hu he
        rw [List.inj_on_of_nodup_map net.deployment.nodup_ids hw hu hid]
      simp [hsocket]

/-- `make_flow_rules` has one command for each node. The program reads its arguments as the addresses that lead to the
targets of the node; a network function comes up at port 8000. -/
theorem command_started (hu : u ∈ net.nodes) (hum : u.id ∈ m.nodes) (hserved : u.neighbors = [] → u.nf ≠ .pktgen) :
    ∃ cmd addresses, net.commands i m u.toRuntimeNode = [cmd] ∧ addresses.map (net.route i m) = net.targets u ∧
      (u.nf = .pktgen →
        senderArguments (cmd.program ++ cmd.arguments) = .ok (net.numPacketsSent, addresses.map some)) ∧
      (u.nf ≠ .pktgen → ∃ hne, u.nf.main (cmd.program ++ cmd.arguments) =
        some (.ok ⟨8000, u.nf.started, addresses, hne⟩)) := by
  obtain ⟨k, hk⟩ := List.mem_iff_getElem?.mp hum
  refine ⟨_, net.destinations i u, commands_eq hi hu hum, route_destinations hi hu hum, fun hpk => ?_, fun hpk => ?_⟩
  · exact sender_started hi hu hpk fun hno => hserved hno hpk
  · exact ⟨destinations_ne, main_started hi hu hk hpk⟩

end Machine

theorem containerIp_ne {ip : String} (h : ¬ "173.16.1.".toList <+: ip.toList) (k : Nat) : ip ≠ containerIp k := by
  rintro rfl
  rw [containerIp, String.toList_append] at h
  exact h (List.prefix_append _ _)

/-! ### Two machines -/

theorem host_sample : Host "18.0.0.9" := ⟨by decide, by decide⟩

theorem sample_ne_containerIp : ∀ k, "18.0.0.9" ≠ containerIp k := containerIp_ne (by decide)

theorem isInt_ten : IsInt 10 := by decide

theorem twoMachines_apart : ∀ m ∈ [firstMachine, secondMachine], ∀ k, m.ip ≠ containerIp k := by
  rintro m hm
  rcases List.mem_pair.mp hm with rfl | rfl <;> exact containerIp_ne (by decide)

/-- The packets of the proxy on the second machine come to it from the packet generator and from the firewall. -/
def twoMachines : Overlay where
  machines := [firstMachine, secondMachine]
  nodes := [pktgenNode, firewallNode, proxyNode]
  deployment := twoMachines_deployment
  mergerIp := "18.0.0.9"
  numPacketsSent := 10
  mergerHost := host_sample
  isInt := isInt_ten
  few := by decide
  ports := by decide
  apart := twoMachines_apart
  mergerApart := sample_ne_containerIp

/-- The firewall on the first machine is told where to send to the proxy on the second one. -/
theorem command_started_twoMachines : ∃ cmd addresses hne,
    twoMachines.commands 0 firstMachine firewallNode.toRuntimeNode = [cmd] ∧
    addresses.map (twoMachines.route 0 firstMachine) = twoMachines.targets firewallNode ∧
    dnfFirewallMain (cmd.program ++ cmd.arguments) = .ok ⟨8000, .firewall false, addresses, hne⟩ := by
  have hfirst : twoMachines.machines[0]? = some firstMachine := rfl
  have hfirewall : firewallNode ∈ twoMachines.nodes := .tail _ (.head _)
  obtain ⟨cmd, addresses, hcmd, hroute, -, hmain⟩ :=
    command_started hfirst hfirewall (by decide) fun hno => absurd hno (by decide)
  obtain ⟨hne, hmain⟩ := hmain (by decide)
  exact ⟨cmd, addresses, hne, hcmd, hroute, Option.some.inj hmain⟩

/-! ### The reactions -/

theorem receivedPacket_pkt (h : p.size ≤ 999) : receivedPacket (some p.pkt) = some p :=
  receivedPacket_eq_some.mpr (List.take_of_length_le h).symm

theorem react_container (hu : u ∈ net.nodes) (hpk : u.nf ≠ .pktgen) (hp : p.size ≤ 999)
    (hq : (u.nf.started.process p).size ≤ 999) :
    net.react ⟨net.containerOf u.id, p.pkt⟩ =
      (net.targets u).map fun socket => ⟨socket, (u.nf.started.process p).pkt⟩ := by
  obtain ⟨m, hi, hk⟩ := place_spec hu
  have hum := List.mem_of_getElem? hk
  have hdigest : ∀ proc : Process, proc.behavior = u.nf.started →
      proc.addresses = net.destinations (net.place u.id).1 u → proc.Digests routes (some p.pkt) := by
    intro proc hproc haddr bytes hbytes
    obtain rfl := Option.some.inj hbytes
    refine .inr ⟨p, (List.take_of_length_le hp).symm, by rw [hproc]; omega, ?_⟩
    rw [haddr]
    exact reaches_destinations hu
  have hfilter := containers_filter hi hu hum hpk
  have hsent := sentDatagrams_destinations hi hu hum (u.nf.started.process p).pkt
  rw [react]
  show (net.machines[(net.place u.id).1]?.toList.flatMap fun m =>
    ((net.containers (net.place u.id).1 m).filter (·.1 = net.containerOf u.id)).flatMap _) = _
  rw [hi, Option.toList_some, List.flatMap_singleton, hfilter, List.flatMap_singleton,
    Process.iteration_of_digests (hdigest _ rfl rfl), receivedPacket_pkt hp, ← hsent]
  simp only [Option.toList_some, List.flatMap_singleton, Process.answer]
  split
  · rfl
  · simp only [sentDatagrams, List.filterMap_append]
    exact List.append_nil _

theorem react_host (hv : v ∈ net.nodes) (hp : p.size ≤ 999) :
    net.react ⟨.host (net.machineIp v.id) (8000 - v.id - 1), p.pkt⟩ = [⟨net.containerOf v.id, p.pkt⟩] := by
  obtain ⟨m, hi, hk⟩ := place_spec hv
  have hmachines : net.machines.zipIdx.filter (·.1.ip = m.ip) = [(m, (net.place v.id).1)] := by
    refine filter_eq_singleton (f := fun x : Machine × Nat => x.1.ip) (a := (m, (net.place v.id).1)) ?_ ?_
    · have hips := net.deployment.ips
      rw [← List.zipIdx_map_fst 0 net.machines, List.map_map] at hips
      exact hips
    · exact List.mem_zipIdx_iff_getElem?.mpr hi
  have htable := net.deployment.forwarderTable_ok hi net.mergerIp net.numPacketsSent
  have hline := net.deployment.forwarderTable_filter hi net.mergerIp net.numPacketsSent hv hk
  have hforwarders : (net.forwarders (net.place v.id).1 m).filter (·.1 = 8000 - v.id - 1) =
      [(8000 - v.id - 1, some (containerIp (net.place v.id).2, 8000))] := by
    rw [forwarders, config, configurator, htable]
    exact hline
  have hroute := route_addressFrom hi hv
  rw [addressFrom, if_pos rfl, entry, if_pos rfl] at hroute
  have hsend : sendPacket routes p (containerIp (net.place v.id).2, 8000) = some p.pkt :=
    sendPacket_eq (reaches_of_port (by omega) (by omega)) (by omega)
  rw [react]
  show ((net.machines.zipIdx.filter (·.1.ip = net.machineIp v.id)).flatMap _) = _
  rw [machineIp_eq hv hi hk, hmachines, List.flatMap_singleton]
  dsimp only
  rw [hforwarders, List.filterMap_cons, runThread, receivedPacket_pkt hp]
  simp [hsend, hroute]

theorem react_merger (hu : u ∈ net.nodes) (bytes : List UInt8) :
    net.react ⟨net.mergerSocket u.id, bytes⟩ = [] := by
  rw [react]
  show ((net.machines.zipIdx.filter (·.1.ip = net.mergerIp)).flatMap fun x =>
    ((net.forwarders x.2 x.1).filter (·.1 = 8000 + u.id + 1)).filterMap _) = _
  refine List.flatMap_eq_nil_iff.mpr fun x hx => ?_
  have hi := List.mem_zipIdx_iff_getElem?.mp (List.mem_filter.mp hx).1
  have htable := net.deployment.forwarderTable_ok hi net.mergerIp net.numPacketsSent
  have hnone : (net.forwarders x.2 x.1).filter (·.1 = 8000 + u.id + 1) = [] := by
    refine List.filter_eq_nil_iff.mpr fun t ht hport => ?_
    rw [forwarders, config, configurator, htable] at ht
    obtain ⟨node, hnode, rfl⟩ := List.mem_map.mp ht
    obtain ⟨w, hw, rfl, -⟩ := net.deployment.exists_of_internalNodes hi hnode
    have hwpos := net.deployment.id_nonneg hw
    have hupos := net.deployment.id_nonneg hu
    have hport : (8000 : Int) - w.id - 1 = 8000 + u.id + 1 := by simpa using hport
    omega
  rw [hnone]
  rfl

/-! ### The sources -/

theorem filter_pktgen (hi : net.machines[i]? = some m) (hu : u ∈ net.nodes) (hum : u.id ∈ m.nodes)
    (hpk : u.nf = .pktgen) : (net.configurator i m).internalNodes.filter (·.nf = .pktgen) = [u.toRuntimeNode] := by
  have hmem := (net.deployment.mem_internalNodes hi hu).mpr hum
  refine List.perm_singleton.mp ?_
  refine (List.perm_ext_iff_of_nodup ((nodup_internalNodes hi).filter _) (List.nodup_singleton _)).mpr fun x => ?_
  rw [List.mem_filter, List.mem_singleton]
  constructor
  · rintro ⟨hx, hnf⟩
    obtain ⟨w, hw, rfl, -⟩ := net.deployment.exists_of_internalNodes hi hx
    rw [net.deployment.one_pktgen w hw u hu (by simpa using hnf) hpk]
  · rintro rfl
    exact ⟨hmem, by simpa using hpk⟩

theorem machineSources_of_ne (hi : net.machines[i]? = some m) (hne : i ≠ (net.place u.id).1) (hu : u ∈ net.nodes)
    (hpk : u.nf = .pktgen) : net.machineSources i m = [] := by
  rw [machineSources]
  refine List.flatMap_eq_nil_iff.mpr fun node hnode => absurd ?_ hne
  obtain ⟨hnode, hnf⟩ := List.mem_filter.mp hnode
  obtain ⟨w, hw, rfl, hwm⟩ := net.deployment.exists_of_internalNodes hi hnode
  obtain rfl := net.deployment.one_pktgen w hw u hu (by simpa using hnf) hpk
  obtain ⟨l, hl⟩ := List.mem_iff_getElem?.mp hwm
  rw [place_eq hw hi hl]

theorem nodup_zipIdx_machines (net : Overlay) : net.machines.zipIdx.Nodup := by
  have hids := net.deployment.machine_ids
  rw [← List.zipIdx_map_fst 0 net.machines, List.map_map] at hids
  exact hids.of_map _

theorem sources_eq (hu : u ∈ net.nodes) (hpk : u.nf = .pktgen) (hne : u.neighbors ≠ []) :
    net.sources = (List.range net.numPacketsSent.toNat).flatMap fun i =>
      (net.targets u).map fun socket => ⟨socket, (senderPacket i).pkt⟩ := by
  obtain ⟨m, hi, hk⟩ := place_spec hu
  have hum := List.mem_of_getElem? hk
  have hsender := sender_started hi hu hpk hne
  have hsize : ∀ i ∈ List.range net.numPacketsSent.toNat, (senderPacket i).size ≤ 65507 := by
    intro i hlt
    have hint := net.isInt
    have hle := size_senderPacket_le (i := i) (by
      have := List.mem_range.mp hlt
      unfold IsInt at hint
      omega)
    omega
  have hother : ∀ x ∈ net.machines.zipIdx, x ≠ (m, (net.place u.id).1) → net.machineSources x.2 x.1 = [] := by
    intro x hx hxne
    have hj := List.mem_zipIdx_iff_getElem?.mp hx
    refine machineSources_of_ne hj (fun he => hxne ?_) hu hpk
    rw [he] at hj
    exact Prod.ext (Option.some.inj (hj.symm.trans hi)) he
  rw [sources, flatMap_eq_of_nodup net.nodup_zipIdx_machines (List.mem_zipIdx_iff_getElem?.mpr hi) hother]
  dsimp only
  rw [machineSources, filter_pktgen hi hu hum hpk, List.flatMap_singleton, commands_eq hi hu hum,
    List.flatMap_singleton, hsender]
  dsimp only
  rw [senderLoop_eq (reaches_destinations hu) hsize]
  dsimp only
  rw [sentDatagrams, List.filterMap_flatMap]
  refine List.flatMap_congr fun i _ => ?_
  exact sentDatagrams_destinations hi hu hum (senderPacket i).pkt

end Overlay
end DeepNF
