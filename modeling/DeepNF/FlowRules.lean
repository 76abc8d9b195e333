import DeepNF.GraphLaws
import Mathlib.Tactic.IntervalCases

/-!
# Starting the network functions (`src/runtime/config/configure.cpp`)

`makeFlowRules` lists the commands that `make_flow_rules` runs in the containers of a machine, in their
order. The main result, `construct_mergerServed_iff`, says for which user inputs every node that the
merger listens for can be reached from the first one and is told the merger's address.
-/

namespace DeepNF
open Std (TreeMap)
open Relation Walks

/-- The globals that `make_flow_rules` reads. -/
structure FlowConfig where
  mergerIp : String
  nodeidToPort : TreeMap Int Int
  nodeidToNetwork : TreeMap Int String
  numPacketsSent : Int

/-- A command for a container: a program with its arguments, followed by `ip:port` destinations. -/
structure Command where
  container : String
  program : List String
  destinations : List (String × Int)
deriving DecidableEq, Repr

def Command.cmdArguments (cmd : Command) : String :=
  " ".intercalate (cmd.program ++ cmd.destinations.map fun d => d.1 ++ ":" ++ toString d.2)

def getConfigDir (nodeId : Int) : String := "c" ++ toString nodeId

namespace FlowConfig
variable (conf : FlowConfig)

def program (functionPort : Int) : NF → List String
  | .pktgen => ["./sender", "-n", toString conf.numPacketsSent]
  | .dnfFirewall => ["./fw", toString functionPort, "0"]
  | .dnfLoadbalancer => ["./fw", toString functionPort, "0"]
  | .proxy => ["./proxy", toString functionPort, "18.188.160.171", toString (8888 : Int)]
  | .compressor => ["./compressor", toString functionPort, "compressed!"]

def neighborAddresses (neighbors : List Int) : List (String × Int) :=
  neighbors.map fun neighbor => (conf.nodeidToNetwork.getD neighbor "", conf.nodeidToPort.getD neighbor 0)

/-- The body of the loop for a node that is not a packet generator. -/
def nodeCommand (node : RuntimeNode) : Command where
  container := getConfigDir node.id
  program := conf.program (conf.nodeidToPort.getD node.id 0) node.nf
  -- a leaf sends to the merger
  destinations := (if node.neighbors.length = 0 then [(conf.mergerIp, 8000 + node.id + 1)] else []) ++
    conf.neighborAddresses node.neighbors

/-- The packet generator is only told its neighbors. -/
def pktgenCommand (node : RuntimeNode) : Command where
  container := getConfigDir node.id
  program := conf.program 0 .pktgen
  destinations := conf.neighborAddresses node.neighbors

end FlowConfig

def makeFlowRules (conf : FlowConfig) (nodes : List RuntimeNode) : List Command :=
  let (commands, pktgenNode) := nodes.foldl (fun (commands, pktgenNode) node =>
    if node.nf = .pktgen then (commands, some node) else (commands ++ [conf.nodeCommand node], pktgenNode))
    (([], none) : List Command × Option RuntimeNode)
  match pktgenNode with
  | none => commands
  | some node => commands ++ [conf.pktgenCommand node]

/-- All nodes but the packet generators are started in their order, then the last packet generator. -/
theorem makeFlowRules_eq (conf : FlowConfig) (nodes : List RuntimeNode) : makeFlowRules conf nodes =
    (nodes.filter (·.nf ≠ .pktgen)).map conf.nodeCommand ++
      ((nodes.filter (·.nf = .pktgen)).getLast?.map conf.pktgenCommand).toList := by
  have key : ∀ (l : List RuntimeNode) (commands : List Command) (pktgenNode : Option RuntimeNode),
      l.foldl (fun (commands, pktgenNode) node =>
        if node.nf = .pktgen then (commands, some node) else (commands ++ [conf.nodeCommand node], pktgenNode))
        (commands, pktgenNode) =
      (commands ++ (l.filter (·.nf ≠ .pktgen)).map conf.nodeCommand,
        (l.filter (·.nf = .pktgen)).getLast?.or pktgenNode) := by
    intro l
    induction l with
    | nil => simp
    | cons node l ih =>
      intro commands pktgenNode
      rw [List.foldl_cons]
      by_cases hpk : node.nf = .pktgen
      · simp only [hpk, if_true]
        rw [ih]
        cases h : (l.filter (·.nf = .pktgen)).getLast? <;> simp [hpk, List.getLast?_cons, h]
      · simp only [hpk, if_false]
        rw [ih]
        simp [hpk]
  rw [makeFlowRules, key]
  cases (nodes.filter (·.nf = .pktgen)).getLast? <;> simp

theorem nodeCommand_mem {conf : FlowConfig} {nodes : List RuntimeNode} {node : RuntimeNode} (hn : node ∈ nodes)
    (hpk : node.nf ≠ .pktgen) : conf.nodeCommand node ∈ makeFlowRules conf nodes := by
  rw [makeFlowRules_eq]
  exact List.mem_append_left _ (List.mem_map_of_mem (List.mem_filter.mpr ⟨hn, by simpa using hpk⟩))

theorem makeFlowRules_pktgen {conf : FlowConfig} {node : RuntimeNode} (hpk : node.nf = .pktgen)
    (hn : node.neighbors = []) {cmd : Command} (h : cmd ∈ makeFlowRules conf [node]) :
    cmd.destinations = [] := by
  rw [makeFlowRules_eq] at h
  simp only [List.filter_cons, hpk, ne_eq, not_true_eq_false, decide_false, decide_true, List.filter_nil,
    List.map_nil, List.getLast?_singleton, Option.map_some, Option.toList_some, List.nil_append,
    List.mem_singleton, if_true, Bool.false_eq_true, if_false] at h
  rw [h, FlowConfig.pktgenCommand, hn]
  rfl

/-! ### Which nodes the merger can wait for -/

def Orchestrator.Forwards (o : Orchestrator) (i j : Int) : Prop :=
  ∃ rnode ∈ o.runtimeNodes, rnode.id = i ∧ j ∈ rnode.neighbors

/-- Every node that the merger listens for can be reached from the first one and is started with the
address at which the merger listens, on whatever machine it is. -/
def MergerServed (o : Orchestrator) (first : Nat) : Prop :=
  ∀ port i : Int, o.mergerInfo.portToNodeMap[port]? = some i → ReflTransGen o.Forwards first i ∧
    ∀ conf nodes, (∀ rnode ∈ nodes, rnode ∈ o.runtimeNodes) → (∃ rnode ∈ nodes, rnode.id = i) →
      ∃ cmd ∈ makeFlowRules conf nodes,
        cmd.container = getConfigDir i ∧ cmd.destinations = [(conf.mergerIp, port)]

namespace UserInput
variable (u : UserInput) (actionTable : ActionTable) (first : Nat)

/-- The edges of the service graph, told from the input. -/
def FinalEdge (x y : Nat) : Prop :=
  if u.hasPositionals then (u.parts actionTable first).Edge x y else u.Order actionTable x y

/-- Below the first or the last function, a root of the order dependencies or a function in an accepted
pair; without positional functions, below the first function. -/
def Served (x : Nat) : Prop :=
  if u.hasPositionals then ∃ e, (u.parts actionTable first).Entry e ∧ ReflTransGen (u.Order actionTable) e x
  else ReflTransGen (u.Order actionTable) first x

end UserInput

section Served
variable {actionTable : ActionTable} {u : UserInput} {ly : Layout u.functions.length}
  {o : Orchestrator} {f : Nat}

theorem edge_iff_final (hA : Assembled actionTable u o.graph) (hfirst : u.positionNode "first" = some f)
    (x y : Nat) :
    o.graph.nodes.Edge x y ↔ u.FinalEdge actionTable f x y := by
  by_cases hpos : u.hasPositionals
  · rw [UserInput.FinalEdge, if_pos hpos, edge_eq_parts hA hpos hfirst]
  · rw [UserInput.FinalEdge, if_neg hpos, hA.detached (by simpa using hpos)]

theorem reachable_iff_served (hA : Assembled actionTable u o.graph)
    (hfirst : u.positionNode "first" = some f) (x : Nat) :
    ReflTransGen o.graph.nodes.Edge f x ↔ u.Served actionTable f x := by
  by_cases hpos : u.hasPositionals
  · rw [UserInput.Served, if_pos hpos, edge_eq_parts hA hpos hfirst]
    refine Attach.Parts.reachable_iff parts_searched fun r hr => ?_
    obtain ⟨hout, hin⟩ := parts_root.mp hr
    obtain ⟨x, hrx, hno⟩ := hA.below r hout hin
    exact ⟨x, ⟨r, hout, hin, hrx, hno⟩, hrx⟩
  · rw [UserInput.Served, if_neg hpos]
    have hedge : o.graph.nodes.Edge = u.Order actionTable := by
      funext x y
      rw [hA.detached (by simpa using hpos)]
    rw [hedge]

theorem served_iff_named (hac : Acyclic fun a b => (a, b) ∈ u.orderDependencies) (hpos : u.hasPositionals)
    {x : Nat} :
    u.Served actionTable f x ↔ x = f ∨ (u.parts actionTable f).Named x ∨
      (u.parts actionTable f).last = some x ∧ ∃ y, (u.parts actionTable f).Named y := by
  have hroot : ∀ {y}, (u.parts actionTable f).Inner y →
      ∃ r, (u.parts actionTable f).Root r ∧ ReflTransGen (u.Order actionTable) r y :=
    fun hy => Attach.Parts.exists_root (parts_acyclic hac) parts_finite hy
  rw [UserInput.Served, if_pos hpos]
  constructor
  · rintro ⟨e, he, hex⟩
    rcases ReflTransGen.cases_tail hex with rfl | ⟨y, -, h⟩
    · rcases he with rfl | hr | hf | ⟨hl, y, hy⟩
      · exact .inl rfl
      · exact .inr (.inl (.inl hr.1))
      · exact .inr (.inl (.inr hf))
      · exact .inr (.inr ⟨hl, y, hy.imp_left fun hr => hr.1⟩)
    · exact .inr (.inl (.inl (.of_right h)))
  · rintro (rfl | (hi | hf) | ⟨hl, y, hy⟩)
    · exact ⟨x, .inl rfl, .refl⟩
    · obtain ⟨r, hr, hrx⟩ := hroot hi
      exact ⟨r, .inr (.inl hr), hrx⟩
    · exact ⟨x, .inr (.inr (.inl hf)), .refl⟩
    · refine ⟨x, .inr (.inr (.inr ⟨hl, ?_⟩)), .refl⟩
      rcases hy with hi | hf
      · obtain ⟨r, hr, -⟩ := hroot hi
        exact ⟨r, .inl hr⟩
      · exact ⟨y, .inr hf⟩

theorem forwards_iff (h : Orchestrator.construct actionTable u ly = .ok o) {i j : Int} : o.Forwards i j ↔
    ∃ (n : Nat) (a : String) (x y : Nat), i = n ∧ j = y ∧ u.functions[n]? = some a ∧ u.node a = some x ∧
      o.graph.nodes.Edge x y := by
  have hA := construct_assembled h
  rw [Orchestrator.Forwards, (construct_mergerInfo h).1]
  constructor
  · rintro ⟨rnode, hr, rfl, hj⟩
    obtain ⟨n, a, hn, rfl⟩ := ServiceGraph.mem_runtimeNodes.mp hr
    obtain ⟨x, hx⟩ := indexOf_mem (List.mem_of_getElem? hn)
    obtain ⟨y, rfl, he⟩ := (hA.mem_neighbors hx).mp hj
    exact ⟨n, a, x, y, ServiceGraph.runtimeNode_id .., rfl, hn, hx, he⟩
  · rintro ⟨n, a, x, y, rfl, rfl, hn, hx, he⟩
    exact ⟨_, ServiceGraph.mem_runtimeNodes.mpr ⟨n, a, hn, rfl⟩, ServiceGraph.runtimeNode_id ..,
      (hA.mem_neighbors hx).mpr ⟨y, rfl, he⟩⟩

theorem forwards_reaches (h : Orchestrator.construct actionTable u ly = .ok o)
    (hfirst : u.positionNode "first" = some f) {i : Int} : ReflTransGen o.Forwards f i ↔
    ∃ x : Nat, i = x ∧ (∃ a, u.node a = some x) ∧ ReflTransGen o.graph.nodes.Edge f x := by
  have hA := construct_assembled h
  constructor
  · intro hi
    induction hi with
    | refl =>
      obtain ⟨a, -, ha⟩ := positionNode_some hfirst
      exact ⟨f, rfl, ⟨a, ha⟩, .refl⟩
    | tail _ hf ih =>
      obtain ⟨x, rfl, ⟨a, ha⟩, hx⟩ := ih
      obtain ⟨n, b, x', y, hn, rfl, hb, hx', he⟩ := (forwards_iff h).mp hf
      rw [Int.natCast_inj] at hn
      subst hn
      rw [Option.some.inj ((indexOf_some ha).symm.trans hb)] at ha
      rw [Option.some.inj (ha.symm.trans hx')] at hx
      exact ⟨y, rfl, (hA.edge_node he).2, hx.tail he⟩
  · rintro ⟨x, rfl, -, hx⟩
    induction hx with
    | refl => exact .refl
    | tail _ he ih =>
      obtain ⟨⟨a, ha⟩, -⟩ := hA.edge_node he
      exact ih.tail ((forwards_iff h).mpr ⟨_, a, _, _, rfl, rfl, indexOf_some ha, ha, he⟩)

theorem stringToNF_pktgen {a : String} : stringToNF a = .pktgen ↔ a = "pktgen" := by
  unfold stringToNF
  split
  · simp [*]
  · rename_i hne
    refine iff_of_false ?_ hne
    split
    · simp
    split
    · simp
    split <;> simp

/-- The merger is served exactly if every function whose node ends up without neighbors is listed under this
name only here, is no packet generator, and can be reached. -/
theorem construct_mergerServed_iff (h : Orchestrator.construct actionTable u ly = .ok o)
    (hfirst : u.positionNode "first" = some f) :
    MergerServed o f ↔ ∀ (i : Nat) (a : String) (x : Nat), u.functions[i]? = some a → u.node a = some x →
      (∀ y, ¬ u.FinalEdge actionTable f x y) → i = x ∧ u.Served actionTable f x ∧ a ≠ "pktgen" := by
  have hA := construct_assembled h
  obtain ⟨hrn, hport, -⟩ := construct_mergerInfo h
  have hnil : ∀ {a x i}, u.node a = some x →
      ((o.graph.runtimeNode ly a i).neighbors = [] ↔ ∀ y, ¬ u.FinalEdge actionTable f x y) := by
    intro a x i ha
    rw [hA.neighbors_eq_nil ha]
    exact forall_congr' fun y => not_congr (edge_iff_final hA hfirst x y)
  rw [MergerServed, hport]
  simp only [getElem?_portToNodeMap]
  constructor
  · intro hs i a x hi hx hdead
    have hmem : o.graph.runtimeNode ly a i ∈ o.runtimeNodes := by
      rw [hrn]; exact ServiceGraph.mem_runtimeNodes.mpr ⟨i, a, hi, rfl⟩
    have hno := (hnil (i := i) hx).mpr hdead
    obtain ⟨hreach, hstart⟩ := hs (8000 + i + 1) i ⟨⟨_, hmem, hno, ServiceGraph.runtimeNode_id ..⟩, rfl⟩
    obtain ⟨x', hix, ⟨a', ha'⟩, hfx⟩ := (forwards_reaches h hfirst).mp hreach
    rw [Int.natCast_inj] at hix
    subst hix
    rw [Option.some.inj ((indexOf_some ha').symm.trans hi)] at ha'
    obtain rfl := Option.some.inj (ha'.symm.trans hx)
    refine ⟨rfl, (reachable_iff_served hA hfirst _).mp hfx, fun hpk => ?_⟩
    obtain ⟨cmd, hcmd, -, hdest⟩ := hstart ⟨"", ∅, ∅, 0⟩ [o.graph.runtimeNode ly a i]
      (fun r hr => List.mem_singleton.mp hr ▸ hmem)
      ⟨_, List.mem_singleton.mpr rfl, ServiceGraph.runtimeNode_id ..⟩
    rw [makeFlowRules_pktgen (by rw [ServiceGraph.runtimeNode_nf, stringToNF_pktgen, hpk]) hno hcmd] at hdest
    cases hdest
  · rintro hcond port i ⟨⟨rnode, hr, hno, rfl⟩, rfl⟩
    rw [hrn] at hr
    obtain ⟨i, a, hi, rfl⟩ := ServiceGraph.mem_runtimeNodes.mp hr
    obtain ⟨x, hx⟩ := indexOf_mem (List.mem_of_getElem? hi)
    obtain ⟨rfl, hserved, hpk⟩ := hcond i a x hi hx ((hnil hx).mp hno)
    refine ⟨(forwards_reaches h hfirst).mpr ⟨i, ServiceGraph.runtimeNode_id .., ⟨a, hx⟩,
      (reachable_iff_served hA hfirst _).mpr hserved⟩, ?_⟩
    rintro conf nodes hnodes ⟨rnode, hn, hid⟩
    obtain ⟨j, b, hj, rfl⟩ := ServiceGraph.mem_runtimeNodes.mp (hrn ▸ hnodes rnode hn)
    rw [ServiceGraph.runtimeNode_id, ServiceGraph.runtimeNode_id, Int.natCast_inj] at hid
    subst hid
    obtain rfl := Option.some.inj (hj.symm.trans hi)
    refine ⟨_, nodeCommand_mem hn ?_, rfl, ?_⟩
    · rw [ServiceGraph.runtimeNode_nf, ne_eq, stringToNF_pktgen]
      exact hpk
    · rw [FlowConfig.nodeCommand, hno]
      rfl

theorem construct_mergerServed_complex :
    ∃ o, Orchestrator.construct actionTableJson inputComplexJson (.ascending 5) = .ok o ∧ MergerServed o 1 := by
  obtain ⟨o, ho⟩ := inputComplexJson_constructed
  refine ⟨o, ho, (construct_mergerServed_iff ho (by decide)).mpr fun i a x hi hx hdead => ?_⟩
  have hpos : inputComplexJson.hasPositionals = true := by decide
  have hlt := (List.getElem?_eq_some_iff.mp hi).1
  obtain rfl : i = x :=
    (List.getElem?_inj hlt (by decide)).mp (hi.trans ((indexOf_nodup (by decide)).mp hx).symm)
  rw [served_iff_named inputComplexJson_acyclic hpos]
  simp only [UserInput.FinalEdge, hpos, if_true] at hdead
  have hfree : ∀ {y}, y = 0 ∨ y = 2 → y ∈ (inputComplexJson.parts actionTableJson 1).free :=
    fun h => inputComplexJson_free.mpr h
  have horder : ∀ {y}, y = 3 ∨ y = 4 → inputComplexJson.Order actionTableJson 2 y :=
    fun h => inputComplexJson_order.mpr ⟨rfl, h⟩
  replace hlt : i < 5 := hlt
  interval_cases i
  · exact ⟨rfl, .inr (.inl (.inr (hfree (.inl rfl)))), by cases hi; decide⟩
  · exact absurd (.inr (.inl ⟨rfl, .inr (hfree (.inl rfl))⟩)) (hdead 0)
  · exact absurd (.inl (horder (.inl rfl))) (hdead 3)
  · exact ⟨rfl, .inr (.inl (.inl (.of_right (horder (.inl rfl))))), by cases hi; decide⟩
  · exact ⟨rfl, .inr (.inl (.inl (.of_right (horder (.inr rfl))))), by cases hi; decide⟩

/-- No edge leads to `snort`, and the merger waits for it. -/
theorem mergerServed_inputJson : inputJson.positionNode "first" = some 3 ∧
    ∃ o, Orchestrator.construct actionTableJson inputJson (.ascending 4) = .ok o ∧ ¬ MergerServed o 3 := by
  have hfirst : inputJson.positionNode "first" = some 3 := by decide
  refine ⟨hfirst, ?_⟩
  obtain ⟨o, ho, hport, hin⟩ := Rounds.exists_ok (P := fun o : Orchestrator =>
      o.mergerInfo.portToNodeMap[(8001 : Int)]? = some 0 ∧ 0 ∉ (List.range 4).flatMap fun x =>
        (List.range 4).filter (o.graph.nodes.Edge x ·))
    (x := Orchestrator.construct actionTableJson inputJson (.ascending 4)) (by decide)
  refine ⟨o, ho, fun h => ?_⟩
  obtain ⟨x, hx, -, hreach⟩ := (forwards_reaches ho hfirst).mp (h 8001 0 hport).1
  obtain rfl : 0 = x := by exact_mod_cast hx
  rcases ReflTransGen.cases_tail hreach with h0 | ⟨z, -, he⟩
  · cases h0
  · obtain ⟨⟨a, ha⟩, -⟩ := (construct_assembled ho).edge_node he
    refine hin (List.mem_flatMap.mpr ⟨z, List.mem_range.mpr (indexOf_lt ha), List.mem_filter.mpr ⟨?_, ?_⟩⟩)
    · simp
    · simpa using he

end Served
end DeepNF
