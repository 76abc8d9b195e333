import DeepNF.Setup

/-!
# The picture of the service graph (`Orchestrator::write_graph_format`)

The constructor writes the runtime graph to `nodes.txt` and `edges.txt` for the web server, with a node for the merger
behind every node without neighbors and one for the receiver behind the merger. `writeGraphFormat_draws`: it is the
graph in which all sinks of the service graph are drained. So a packet arrives at the merger once for each walk to it in
the picture (`Setup.arrivals_drawn`).
-/

namespace DeepNF
open Std (TreeMap)
open Walks Flood Relation

structure VisNode where
  id : Int
  label : String
  group : String
deriving DecidableEq, Repr

/-- `from` and `to` are the ids of its ends. -/
structure VisEdge where
  fromId : Int
  toId : Int
  arrows : String := "to"
  inherit : String := "from"
deriving DecidableEq, Repr

def nodeLabel (function : String) : String :=
  if function = "dnf_loadbalancer" then "IDS" else if function = "pktgen" then "client" else function

def drawNode (functions : List String) (funcToIp : TreeMap String String) (id : Int) : VisNode :=
  let function := functions.getD id.toNat ""
  { id, label := nodeLabel function, group := funcToIp.getD function "" }

def drawEdges (functions : List String) (node : RuntimeNode) : List VisEdge :=
  (if node.neighbors.length = 0 then [{ fromId := node.id, toId := functions.length }] else []) ++
    node.neighbors.map fun id2 => { fromId := node.id, toId := id2 }

/-- `nodes.txt` and `edges.txt`; `nodes` are those of `idToRuntimeNode`, in the order in which it is iterated over. -/
def writeGraphFormat (nodes : List RuntimeNode) (functions : List String) (funcToIp : TreeMap String String)
    (destIp : String) : List VisNode × List VisEdge :=
  let merger : Int := functions.length
  (nodes.map (fun node => drawNode functions funcToIp node.id) ++
      [{ id := merger, label := "merger", group := "13.58.167.87" },
        { id := merger + 1, label := "server", group := destIp }],
    nodes.flatMap (drawEdges functions) ++ [{ fromId := merger, toId := merger + 1 }])

def Draws (edges : List VisEdge) (x y : Nat) : Prop := ∃ e ∈ edges, e.fromId = x ∧ e.toId = y

instance (edges : List VisEdge) (x y : Nat) : Decidable (Draws edges x y) :=
  inferInstanceAs (Decidable (∃ e ∈ edges, e.fromId = x ∧ e.toId = y))

section
variable {actionTable : ActionTable} {u : UserInput} {ly : Layout u.functions.length} {o : Orchestrator}
  {nodes : List RuntimeNode} {x y : Nat} {e : VisEdge} {functions : List String} {node : RuntimeNode}

theorem mem_drawEdges : e ∈ drawEdges functions node ↔
    node.neighbors = [] ∧ e = { fromId := node.id, toId := functions.length } ∨
      ∃ j ∈ node.neighbors, e = { fromId := node.id, toId := j } := by
  rw [drawEdges, List.mem_append, List.mem_map]
  refine or_congr ?_ (exists_congr fun j => and_congr_right fun _ => eq_comm)
  by_cases h : node.neighbors = []
  · simp [h]
  · simp [h]

theorem fromId_drawEdges (h : e ∈ drawEdges functions node) : e.fromId = node.id := by
  rcases mem_drawEdges.mp h with ⟨-, rfl⟩ | ⟨j, -, rfl⟩ <;> rfl

theorem nodup_drawEdges (h : node.neighbors.Nodup) : (drawEdges functions node).Nodup := by
  rw [drawEdges]
  split
  · rename_i hno
    rw [List.length_eq_zero_iff.mp hno]
    exact List.nodup_singleton _
  · exact h.map fun j k he => (VisEdge.mk.inj he).2.1

/-- The picture that belongs to the graph: its sinks are drained by the merger and the receiver. -/
abbrev ServiceGraph.Picture (u : UserInput) (g : ServiceGraph) : Nat → Nat → Prop :=
  Drained g.nodes.Edge (· < u.functions.length) u.functions.length (u.functions.length + 1)

section Construct
variable (h : Orchestrator.construct actionTable u ly = .ok o) (hnd : u.functions.Nodup)
  (hnodes : nodes.Perm o.runtimeNodes)
include h hnodes

theorem mem_nodes_iff : node ∈ nodes ↔
    ∃ (x : Nat) (a : String), u.functions[x]? = some a ∧ node = o.graph.runtimeNode ly a x := by
  rw [hnodes.mem_iff, (construct_mergerInfo h).1]
  exact ServiceGraph.mem_runtimeNodes

include hnd

theorem mem_edges_iff (funcToIp : TreeMap String String) (destIp : String) :
    e ∈ (writeGraphFormat nodes u.functions funcToIp destIp).2 ↔
      ∃ x y : Nat, e = { fromId := x, toId := y } ∧ o.graph.Picture u x y := by
  have hA := construct_assembled h
  have hneighbors : ∀ {x : Nat} {a : String}, u.functions[x]? = some a → ∀ {j : Int},
      j ∈ (o.graph.runtimeNode ly a x).neighbors ↔ ∃ y : Nat, j = y ∧ o.graph.nodes.Edge x y :=
    fun ha => hA.mem_neighbors ((indexOf_nodup hnd).mpr ha)
  rw [writeGraphFormat, List.mem_append, List.mem_flatMap, List.mem_singleton]
  constructor
  · rintro (⟨node, hnode, he⟩ | rfl)
    · obtain ⟨x, a, ha, rfl⟩ := (mem_nodes_iff h hnodes).mp hnode
      have hx := (List.getElem?_eq_some_iff.mp ha).1
      rcases mem_drawEdges.mp he with ⟨hno, rfl⟩ | ⟨j, hj, rfl⟩
      · refine ⟨x, u.functions.length, by rw [ServiceGraph.runtimeNode_id], .inr (.inl ⟨hx, fun y hy => ?_, rfl⟩)⟩
        have hmem := (hneighbors ha).mpr ⟨y, rfl, hy⟩
        rw [hno] at hmem
        cases hmem
      · obtain ⟨y, rfl, hy⟩ := (hneighbors ha).mp hj
        exact ⟨x, y, by rw [ServiceGraph.runtimeNode_id], .inl hy⟩
    · exact ⟨_, _, by rw [Nat.cast_succ], .inr (.inr ⟨rfl, rfl⟩)⟩
  · rintro ⟨x, y, rfl, hy | ⟨hx, hno, rfl⟩ | ⟨rfl, rfl⟩⟩
    · have ha : u.functions[x]? = some _ := List.getElem?_eq_getElem (hA.edge_lt hy).1
      refine .inl ⟨_, (mem_nodes_iff h hnodes).mpr ⟨x, _, ha, rfl⟩, mem_drawEdges.mpr (.inr ⟨y, ?_, ?_⟩)⟩
      · exact (hneighbors ha).mpr ⟨y, rfl, hy⟩
      · rw [ServiceGraph.runtimeNode_id]
    · have ha : u.functions[x]? = some _ := List.getElem?_eq_getElem hx
      refine .inl ⟨_, (mem_nodes_iff h hnodes).mpr ⟨x, _, ha, rfl⟩, mem_drawEdges.mpr (.inl ⟨?_, ?_⟩)⟩
      · refine List.eq_nil_iff_forall_not_mem.mpr fun j hj => ?_
        obtain ⟨y, -, hy⟩ := (hneighbors ha).mp hj
        exact hno y hy
      · rw [ServiceGraph.runtimeNode_id]
    · exact .inr (by rw [Nat.cast_succ])

theorem draws_eq (funcToIp : TreeMap String String) (destIp : String) :
    Draws (writeGraphFormat nodes u.functions funcToIp destIp).2 = o.graph.Picture u := by
  funext x y
  refine propext ⟨?_, fun hp => ⟨_, (mem_edges_iff h hnd hnodes _ _).mpr ⟨x, y, rfl, hp⟩, rfl, rfl⟩⟩
  rintro ⟨e, he, hx, hy⟩
  obtain ⟨x', y', rfl, hp⟩ := (mem_edges_iff h hnd hnodes _ _).mp he
  obtain rfl := Int.natCast_inj.mp hx
  obtain rfl := Int.natCast_inj.mp hy
  exact hp

theorem nodup_edges (funcToIp : TreeMap String String) (destIp : String) :
    (writeGraphFormat nodes u.functions funcToIp destIp).2.Nodup := by
  have hA := construct_assembled h
  have hids : (nodes.map (·.id)).Nodup := by
    refine (hnodes.map _).nodup_iff.mpr ?_
    rw [(construct_mergerInfo h).1, ServiceGraph.map_id_runtimeNodes]
    exact nodup_castRange _
  have hid : ∀ node ∈ nodes, ∃ x < u.functions.length, node.id = x := by
    intro node hnode
    obtain ⟨x, a, ha, rfl⟩ := (mem_nodes_iff h hnodes).mp hnode
    exact ⟨x, (List.getElem?_eq_some_iff.mp ha).1, ServiceGraph.runtimeNode_id ..⟩
  rw [writeGraphFormat, List.nodup_append]
  refine ⟨List.nodup_flatMap.mpr ⟨fun node hnode => ?_, ?_⟩, List.nodup_singleton _, fun e he e' he' heq => ?_⟩
  · obtain ⟨x, a, ha, rfl⟩ := (mem_nodes_iff h hnodes).mp hnode
    exact nodup_drawEdges (hA.nodup_neighbors ((indexOf_nodup hnd).mpr ha))
  · refine (List.pairwise_map.mp hids).imp fun {a b} hab e he he' => hab ?_
    exact (fromId_drawEdges he).symm.trans (fromId_drawEdges he')
  · -- the last edge is that of the merger
    obtain ⟨node, hnode, he⟩ := List.mem_flatMap.mp he
    obtain ⟨x, hx, hnx⟩ := hid node hnode
    rw [heq, List.mem_singleton.mp he'] at he
    have hfrom := fromId_drawEdges he
    dsimp only at hfrom
    omega

omit hnd in
theorem map_id_writeGraphFormat (funcToIp : TreeMap String String) (destIp : String) :
    ((writeGraphFormat nodes u.functions funcToIp destIp).1.map (·.id)).Perm
      ((List.range (u.functions.length + 2)).map Nat.cast) := by
  have hids : (nodes.map (·.id)).Perm ((List.range u.functions.length).map Nat.cast) := by
    have hrange := congrArg (List.map RuntimeNode.id) (construct_mergerInfo h).1
    rw [ServiceGraph.map_id_runtimeNodes] at hrange
    rw [← hrange]
    exact hnodes.map _
  rw [List.range_succ, List.range_succ, List.append_assoc, List.map_append, writeGraphFormat, List.map_append,
    List.map_map]
  exact hids.append_right _

/-- In whatever order the nodes are written, the picture is the graph with the merger behind its sinks and the receiver
behind the merger: each node has an id of its own, no edge is drawn twice, and a function has the color of the machine
that runs it. -/
theorem writeGraphFormat_draws {ips : List String} (h0 : ips ≠ []) {vis : List VisNode} {edges : List VisEdge}
    (hpage : writeGraphFormat nodes u.functions (roundRobinPartitioning ips u.functions) u.receiverIp = (vis, edges)) :
    (vis.map (·.id)).Perm ((List.range (u.functions.length + 2)).map Nat.cast) ∧ edges.Nodup ∧
    (∀ e, e ∈ edges ↔ ∃ x y : Nat, e = { fromId := x, toId := y } ∧ o.graph.Picture u x y) ∧
    ∀ (x : Nat) function, u.functions[x]? = some function → ∃ m ∈ dealtMachines ips u.functions.length,
      (x : Int) ∈ m.nodes ∧ { id := x, label := nodeLabel function, group := m.ip } ∈ vis := by
  have hids := map_id_writeGraphFormat h hnodes (roundRobinPartitioning ips u.functions) u.receiverIp
  have hedges := nodup_edges h hnd hnodes (roundRobinPartitioning ips u.functions) u.receiverIp
  have hmem := fun e => @mem_edges_iff _ _ _ _ _ e h hnd hnodes (roundRobinPartitioning ips u.functions) u.receiverIp
  rw [hpage] at hids hedges hmem
  refine ⟨hids, hedges, hmem, fun x function hx => ?_⟩
  have hlt : x % ips.length < ips.length := Nat.mod_lt _ (List.length_pos_iff.mpr h0)
  have hxlt := (List.getElem?_eq_some_iff.mp hx).1
  refine ⟨dealt ips (List.range u.functions.length) (x % ips.length) ips[x % ips.length], ?_, ?_, ?_⟩
  · refine List.mem_of_getElem? (i := x % ips.length) ?_
    rw [getElem?_dealtMachines, List.getElem?_eq_getElem hlt]
    rfl
  · exact List.mem_map.mpr ⟨x, by simp [hxlt], rfl⟩
  · have hvis : vis = _ := (congrArg Prod.fst hpage).symm
    rw [hvis, writeGraphFormat, List.mem_append]
    refine .inl (List.mem_map.mpr ⟨_, (mem_nodes_iff h hnodes).mpr ⟨x, function, hx, rfl⟩, ?_⟩)
    have hfunction : u.functions.getD x "" = function := by
      rw [List.getD_eq_getElem?_getD, hx]
      rfl
    rw [ServiceGraph.runtimeNode_id, drawNode, Int.toNat_natCast, hfunction, getD_roundRobinPartitioning hnd hx,
      List.getD_eq_getElem?_getD, List.getElem?_eq_getElem hlt]
    rfl

/-- The picture has a cycle if and only if the service graph has one, and without one everything in it leads to the
receiver. -/
theorem writeGraphFormat_flows (funcToIp : TreeMap String String) (destIp : String) {vis : List VisNode}
    {edges : List VisEdge} (hpage : writeGraphFormat nodes u.functions funcToIp destIp = (vis, edges)) :
    (Acyclic (Draws edges) ↔ Acyclic o.graph.nodes.Edge) ∧
    (Acyclic (Draws edges) → ∀ v ∈ vis, ∃ x : Nat, v.id = x ∧
      ReflTransGen (Draws edges) x (u.functions.length + 1)) := by
  have hA := construct_assembled h
  have hdraws := draws_eq h hnd hnodes funcToIp destIp
  have hids := map_id_writeGraphFormat h hnodes funcToIp destIp
  rw [hpage] at hdraws hids
  have hE : ∀ x y, o.graph.nodes.Edge x y → x < u.functions.length ∧ y < u.functions.length :=
    fun _ _ => hA.edge_lt
  have hiff := acyclic_drained_iff hE (lt_irrefl _) (by omega) (by omega : u.functions.length ≠ u.functions.length + 1)
  rw [hdraws]
  refine ⟨hiff, fun hac v hv => ?_⟩
  obtain ⟨x, hx, hvx⟩ := List.mem_map.mp (hids.mem_iff.mp (List.mem_map_of_mem hv))
  rw [List.mem_range] at hx
  refine ⟨x, hvx.symm, ?_⟩
  obtain hx | rfl | rfl : x < u.functions.length ∨ x = u.functions.length ∨ x = u.functions.length + 1 := by omega
  · exact (hiff.mp hac).reaches_drain hE (Set.finite_lt_nat _) hx
  · exact .single (.inr (.inr ⟨rfl, rfl⟩))
  · exact .refl

end Construct
end

/-- The firewall leads to the merger, and the load balancer has the color of the first machine. -/
theorem writeGraphFormat_draws_complex : ∃ (o : Orchestrator) (vis : List VisNode) (edges : List VisEdge),
    Orchestrator.construct actionTableJson inputComplexJson (.ascending 5) = .ok o ∧
    writeGraphFormat o.runtimeNodes inputComplexJson.functions
      (roundRobinPartitioning ["18.0.0.1", "18.0.0.2"] inputComplexJson.functions) inputComplexJson.receiverIp =
      (vis, edges) ∧
    { fromId := 0, toId := 5 } ∈ edges ∧ { fromId := 5, toId := 6 } ∈ edges ∧
    ∃ m ∈ dealtMachines ["18.0.0.1", "18.0.0.2"] 5, 2 ∈ m.nodes ∧ { id := 2, label := "IDS", group := m.ip } ∈ vis := by
  obtain ⟨o, ho⟩ := inputComplexJson_constructed
  have hnd : inputComplexJson.functions.Nodup := by decide
  have hips : ["18.0.0.1", "18.0.0.2"] ≠ [] := by decide
  obtain ⟨-, -, hedges, hvis⟩ := writeGraphFormat_draws ho hnd (.refl _) hips rfl
  have hsink : ∀ y, ¬ o.graph.nodes.Edge 0 y := fun y hy => by
    have := (Setup.complex_edge ho).mp hy
    omega
  have hfunctions : (0 : Nat) < inputComplexJson.functions.length := by decide
  exact ⟨o, _, _, ho, rfl, (hedges _).mpr ⟨0, 5, rfl, .inr (.inl ⟨hfunctions, hsink, rfl⟩)⟩,
    (hedges _).mpr ⟨5, 6, rfl, .inr (.inr ⟨rfl, rfl⟩)⟩, hvis 2 "dnf_loadbalancer" rfl⟩

theorem writeGraphFormat_flows_complex : ∃ (o : Orchestrator) (vis : List VisNode) (edges : List VisEdge),
    Orchestrator.construct actionTableJson inputComplexJson (.ascending 5) = .ok o ∧
    writeGraphFormat o.runtimeNodes inputComplexJson.functions ∅ "13.58.167.87" = (vis, edges) ∧
    Acyclic (Draws edges) ∧ ∀ v ∈ vis, ∃ x : Nat, v.id = x ∧ ReflTransGen (Draws edges) x 6 := by
  obtain ⟨o, ho⟩ := inputComplexJson_constructed
  have hnd : inputComplexJson.functions.Nodup := by decide
  obtain ⟨hiff, hflows⟩ := writeGraphFormat_flows ho hnd (.refl _) ∅ "13.58.167.87" rfl
  have hac := hiff.mpr (Setup.complex_fed ho).acyclic
  exact ⟨o, _, _, ho, rfl, hac, hflows hac⟩

/-! ### The arrivals at the merger -/

namespace Setup

theorem walk_drawn_iff (S : Setup) {f : Nat} (hpk : S.input.node "pktgen" = some f) {nodes : List RuntimeNode}
    (hnodes : nodes.Perm S.orchestrator.runtimeNodes) {funcToIp : TreeMap String String} {destIp : String}
    {vis : List VisNode} {edges : List VisEdge}
    (hpage : writeGraphFormat nodes S.input.functions funcToIp destIp = (vis, edges)) {path : List Nat} :
    Walk (Draws edges) f (S.input.functions.length :: path) S.input.functions.length ↔
      ∃ x, Walk S.orchestrator.graph.nodes.Edge f path x ∧ ∀ y, ¬ S.orchestrator.graph.nodes.Edge x y := by
  have hdraws := draws_eq S.constructed S.nodup hnodes funcToIp destIp
  rw [hpage] at hdraws
  have hE : ∀ x y, S.orchestrator.graph.nodes.Edge x y →
      x < S.input.functions.length ∧ y < S.input.functions.length := fun _ _ => edge_lt
  rw [hdraws]
  refine (Walk.drained_end_iff hE (lt_irrefl _) (by omega) (by omega) (indexOf_lt hpk)).trans ?_
  constructor
  · rintro ⟨path', x, heq, hw, hsink⟩
    obtain rfl := (List.cons.inj heq).2
    exact ⟨x, hw, hsink⟩
  · rintro ⟨x, hw, hsink⟩
    exact ⟨path, x, rfl, hw, hsink⟩

theorem exists_sink_walk {S : Setup} {f : Nat} {u : Int} {l : List Int} (hw : Walk S.overlay.Forwards f l u)
    (hno : ∀ v, ¬ S.overlay.Forwards u v) : ∃ (x : Nat) (path : List Nat), u = x ∧ l = path.map Nat.cast ∧
      Walk S.orchestrator.graph.nodes.Edge f path x ∧ ∀ y, ¬ S.orchestrator.graph.nodes.Edge x y := by
  obtain ⟨path, x, hl, hx, hpath⟩ := walk_iff.mp hw
  exact ⟨x, path, hx, hl, hpath, fun y hy => hno y (hx ▸ forwards_natCast.mpr ⟨y, rfl, hy⟩)⟩

theorem map_toNat_cast (l : List Nat) : (l.map (Nat.cast : Nat → Int)).map Int.toNat = l := by
  rw [List.map_map, show Int.toNat ∘ (Nat.cast : Nat → Int) = id from funext Int.toNat_natCast, List.map_id]

/-- In a run that loses nothing the merger gets each packet once for each walk from the packet generator to it in the
picture, after the functions on the walk. -/
theorem arrivals_drawn (S : Setup) {f y : Nat} (hpk : S.input.node "pktgen" = some f)
    (he : S.orchestrator.graph.nodes.Edge f y) {nodes : List RuntimeNode}
    (hnodes : nodes.Perm S.orchestrator.runtimeNodes) (funcToIp : TreeMap String String) (destIp : String)
    {vis : List VisNode} {edges : List VisEdge}
    (hpage : writeGraphFormat nodes S.input.functions funcToIp destIp = (vis, edges)) {s : State Datagram}
    (hs : Complete S.overlay.react S.overlay.sources s) :
    ∃ xs : List (Nat × List Nat), xs.Nodup ∧
      (∀ i path, (i, path) ∈ xs ↔ i < S.numPacketsSent.toNat ∧
        Walk (Draws edges) f (S.input.functions.length :: path) S.input.functions.length) ∧
      (s.handled.filterMap S.overlay.atMerger).map (·.2) =
        xs.map fun x => S.overlay.along x.1 (x.2.map Nat.cast) := by
  obtain ⟨g, hg, hid⟩ := generator hpk he
  obtain ⟨xs, hnd, hxs, hread⟩ := Overlay.atMerger_of_complete hg hs
  -- the walks of `xs` as they are in the picture
  have hform : ∀ z ∈ xs, ∃ (x : Nat) (path : List Nat), z.2.1 = x ∧ z.2.2 = path.map Nat.cast ∧
      Walk S.orchestrator.graph.nodes.Edge f path x ∧ ∀ y, ¬ S.orchestrator.graph.nodes.Edge x y := by
    intro z hz
    obtain ⟨⟨-, hw⟩, hno⟩ := (hxs z).mp hz
    rw [hid] at hw
    exact exists_sink_walk hw hno
  refine ⟨xs.map fun z => (z.1, z.2.2.map Int.toNat), hnd.map_on fun z hz z' hz' heq => ?_, fun i path => ?_, ?_⟩
  · obtain ⟨x, path, hx, hl, hw, -⟩ := hform z hz
    obtain ⟨x', path', hx', hl', hw', -⟩ := hform z' hz'
    obtain ⟨hi, hpath⟩ := Prod.mk.inj heq
    rw [hl, hl', map_toNat_cast, map_toNat_cast] at hpath
    subst hpath
    refine Prod.ext hi (Prod.ext ?_ (hl.trans hl'.symm))
    rw [hx, hx', hw.end_unique hw']
  · rw [List.mem_map, S.walk_drawn_iff hpk hnodes hpage]
    constructor
    · rintro ⟨z, hz, heq⟩
      obtain ⟨x, path', -, hl, hw, hsink⟩ := hform z hz
      obtain ⟨rfl, rfl⟩ := Prod.mk.inj heq
      rw [hl, map_toNat_cast]
      exact ⟨((hxs z).mp hz).1.1, x, hw, hsink⟩
    · rintro ⟨hi, x, hw, hsink⟩
      refine ⟨(i, x, path.map Nat.cast), (hxs _).mpr ⟨⟨hi, ?_⟩, fun v hv => ?_⟩, by rw [map_toNat_cast]⟩
      · rw [hid]
        exact walk_iff.mpr ⟨path, x, rfl, rfl, hw⟩
      · obtain ⟨y, -, hy⟩ := forwards_natCast.mp hv
        exact hsink y hy
  · rw [hread, List.map_map, List.map_map]
    refine List.map_congr_left fun z hz => ?_
    obtain ⟨x, path, -, hl, -, -⟩ := hform z hz
    show S.overlay.along z.1 z.2.2 = S.overlay.along z.1 ((z.2.2.map Int.toNat).map Nat.cast)
    rw [hl, map_toNat_cast]

/-- The first packet comes from the firewall. -/
theorem arrivals_drawn_complex : ∃ (o : Orchestrator)
    (ho : Orchestrator.construct actionTableJson inputComplexJson (.ascending 5) = .ok o) (s : State Datagram)
    (xs : List (Nat × List Nat)), Complete (complex ho).overlay.react (complex ho).overlay.sources s ∧
    (s.handled.filterMap (complex ho).overlay.atMerger).map (·.2) =
      xs.map (fun x => (complex ho).overlay.along x.1 (x.2.map Nat.cast)) ∧ (0, [0, 1]) ∈ xs := by
  obtain ⟨o, ho⟩ := inputComplexJson_constructed
  obtain ⟨s, -, -, hs, -⟩ := (complex ho).exists_merged complex_items (complex_fed ho) complex_packets
  obtain ⟨y, hy⟩ := (complex_fed ho).edge
  have hnd : inputComplexJson.functions.Nodup := by decide
  have hdraws := draws_eq ho hnd (.refl _) ∅ "13.58.167.87"
  obtain ⟨xs, -, hxs, hread⟩ := arrivals_drawn (complex ho) (complex_fed ho).pktgen hy (.refl _) ∅ "13.58.167.87" rfl hs
  refine ⟨o, ho, s, xs, hs, hread, (hxs 0 [0, 1]).mpr ⟨(by decide : 0 < (10 : Int).toNat), ?_⟩⟩
  have hsink : ∀ y, ¬ o.graph.nodes.Edge 0 y := fun y hy => by
    have := (complex_edge ho).mp hy
    omega
  have h10 : o.graph.nodes.Edge 1 0 := (complex_edge ho).mpr (.inr ⟨rfl, .inl rfl⟩)
  have hfunctions : (0 : Nat) < inputComplexJson.functions.length := by decide
  have hw : Walk (o.graph.Picture inputComplexJson) 1 [5, 0, 1] 5 :=
    .step (.step .start (.inl h10)) (.inr (.inl ⟨hfunctions, hsink, rfl⟩))
  rw [← hdraws] at hw
  exact hw

end Setup
end DeepNF
