import DeepNF.Merger
import DeepNF.ServiceGraph
import Mathlib.Data.Finset.Dedup

/-!
# The orchestrator (`src/setup/Orchestrator.cpp`)

The constructor turns the user input and the action table into a service graph, the runtime nodes and
the configuration of the merger. `buildServiceGraph` is its first half, phase by phase; `construct` adds
the runtime nodes, the ports and the conflict list. A call through a null pointer and a missing row of
the table end it with a `SetupError`. The assignment of the nodes to machines is not part of this
module.
-/

namespace DeepNF
open Std (TreeMap)

/-- What the service graph is built from; a positional entry is the function and its position. -/
structure UserInput where
  functions : List String
  positional : List (String × String)
  orderDependencies : List (String × String)
  priorities : List (String × String)
  receiverIp : String
  receiverPort : Int

/-- `inputs/input_complex.json`. -/
def inputComplexJson : UserInput where
  functions := ["dnf_firewall", "pktgen", "dnf_loadbalancer", "proxy", "compressor"]
  positional := [("pktgen", "first")]
  orderDependencies := [("dnf_loadbalancer", "proxy"), ("dnf_loadbalancer", "compressor")]
  priorities := [("dnf_firewall", "dnf_loadbalancer")]
  receiverIp := "13.58.167.87"
  receiverPort := 11000

/-- One or two entries, and not two for one position. -/
def UserInput.hasPositionals (u : UserInput) : Bool :=
  match u.positional with
  | [_] => true
  | [p, q] => p.2 ≠ q.2
  | _ => false

def stringToNF (function : String) : NF :=
  if function = "pktgen" then .pktgen
  else if function = "compressor" then .compressor
  else if function = "proxy" then .proxy
  else if function = "dnf_loadbalancer" then .dnfLoadbalancer
  else .dnfFirewall

/-- An `unordered_map` of `unordered_map`s. -/
abbrev PairMap (α : Type) := TreeMap String (TreeMap String α)

namespace PairMap
variable {α : Type}

def set (t : PairMap α) (f1 f2 : String) (v : α) : PairMap α := t.insert f1 ((t.getD f1 ∅).insert f2 v)

def get? (t : PairMap α) (f1 f2 : String) : Option α := t[f1]?.bind (·[f2]?)

end PairMap

/-! ### Parsing the dependencies -/

structure Parsed where
  parsedOrder : List (String × String) := []
  parsedPriorities : List (String × String) := []
  pairToConflicts : PairMap (List Field) := ∅

/-- A pair that can run in parallel, with the actions that conflict. -/
def Parsed.accept (p : Parsed) (f1 f2 : String) (conflictingActions : List Field) : Parsed :=
  { p with
    parsedPriorities := p.parsedPriorities ++ [(f1, f2)]
    pairToConflicts :=
      if 0 < conflictingActions.length then p.pairToConflicts.set f1 f2 conflictingActions
      else p.pairToConflicts }

def parseOrderDependencies (actionTable : ActionTable) (dependencies : List (String × String)) (p : Parsed) :
    Except SetupError Parsed :=
  dependencies.foldlM (fun p (f1, f2) => do
    let (parallel, conflictingActions) ← isParallelizable actionTable f1 f2
    if parallel then return p.accept f1 f2 conflictingActions
    else return { p with parsedOrder := p.parsedOrder ++ [(f1, f2)] }) p

def parsePriorityDependencies (actionTable : ActionTable) (priorities : List (String × String)) (p : Parsed) :
    Except SetupError Parsed :=
  priorities.foldlM (fun p (f1, f2) => do
    let (parallel, conflictingActions) ← isParallelizable actionTable f1 f2
    if parallel then return p.accept f1 f2 conflictingActions
    else return p) p

/-! ### The service graph -/

/-- The indices under which `func_to_nodes` and `func_to_inx` know the functions; a name that occurs
twice is known under its last index. -/
def indexOf (functions : List String) : TreeMap String Nat :=
  functions.zipIdx.foldl (fun t x => t.insert x.1 x.2) ∅

/-- `visited_pair`, `pair_to_conflicts` and the pairs reported by `perror`. -/
structure Level where
  visitedPair : PairMap Bool := ∅
  pairToConflicts : PairMap (List Field)
  reports : List (String × String) := []

/-- One pair of different nodes in `checkLevelParallelizability`. -/
def checkPair (actionTable : ActionTable) (nodes : Nodes) (lv : Level) (node1 node2 : Option Nat) :
    Except SetupError Level := do
  let nf1 ← nodes.name node1
  let nf2 ← nodes.name node2
  let (parallelizable, conflictingActions) ← isParallelizable actionTable nf1 nf2
  let visitedPair := lv.visitedPair.set nf1 nf2 parallelizable
  if parallelizable then
    return { lv with visitedPair, pairToConflicts := lv.pairToConflicts.set nf1 nf2 conflictingActions }
  else if nf2 ∈ visitedPair ∧ (visitedPair.get? nf2 nf1).getD false = false then
    return { lv with visitedPair, reports := lv.reports ++ [(nf1, nf2)] }
  else return { lv with visitedPair }

/-- `level` lists the nodes in the order in which the set is iterated over. -/
def checkLevelParallelizability (actionTable : ActionTable) (nodes : Nodes) (level : List (Option Nat))
    (pairToConflicts : PairMap (List Field)) : Except SetupError Level :=
  (level.flatMap fun node1 => (level.filter (· ≠ node1)).map fun node2 => (node1, node2)).foldlM
    (fun lv (node1, node2) => checkPair actionTable nodes lv node1 node2) { pairToConflicts }

structure ServiceGraph where
  funcToNodes : TreeMap String Nat
  parsed : Parsed
  orderTreeNodes : Finset Nat
  priorityNodes : Finset (Option Nat)
  rootNodes : Finset Nat
  leafNodes : Finset Nat
  first : Option Nat
  last : Option Nat
  nodes : Nodes
  pairToConflicts : PairMap (List Field)

def nodePairs (funcToNodes : TreeMap String Nat) (pairs : List (String × String)) :
    List (Option Nat × Option Nat) :=
  pairs.map fun x => (funcToNodes[x.1]?, funcToNodes[x.2]?)

def namedNodes (funcToNodes : TreeMap String Nat) (pairs : List (String × String)) : Finset (Option Nat) :=
  ((nodePairs funcToNodes pairs).flatMap fun e => [e.1, e.2]).toFinset

/-- The loop over the root nodes: collects the leaves below each of them and checks these leaves. -/
def checkTrees {n : Nat} (ly : Layout n) (actionTable : ActionTable) (nodes : Nodes) (rootNodes : List Nat)
    (pairToConflicts : PairMap (List Field)) : Except SetupError (Finset Nat × PairMap (List Field)) :=
  rootNodes.foldlM (fun (leafNodes, pairToConflicts) node => do
    let leavesForRoot ← nodes.findAllLeaves ly (n + 1) node ∅
    let lv ← checkLevelParallelizability actionTable nodes ((ly.iterate leavesForRoot).map some) pairToConflicts
    return (leafNodes ∪ leavesForRoot, lv.pairToConflicts)) (∅, pairToConflicts)

/-- The last positional entry for a position. -/
def positionalNode (funcToNodes : TreeMap String Nat) (positional : List (String × String))
    (position : String) :
    Option Nat :=
  positional.foldl (fun p pos => if pos.2 = position then funcToNodes[pos.1]? else p) none

/-- The calls that attach the root nodes to `first`, the priority nodes to `first` and `last`, and the
leaf nodes to `last`. -/
def attachEdges (first last : Option Nat) (rootNodes : List Nat) (priorityNodes : List (Option Nat))
    (leafNodes : List Nat) : List (Option Nat × Option Nat) :=
  rootNodes.map (fun node => (first, some node)) ++
    priorityNodes.flatMap (fun node => (first, node) :: if last.isSome then [(node, last)] else []) ++
    if last.isSome then leafNodes.map (fun node => (some node, last)) else []

def buildServiceGraph (actionTable : ActionTable) (u : UserInput) (ly : Layout u.functions.length) :
    Except SetupError ServiceGraph := do
  let parsed ← parseOrderDependencies actionTable u.orderDependencies {}
  let parsed ← parsePriorityDependencies actionTable u.priorities parsed
  let funcToNodes := indexOf u.functions
  let nodes ← Nodes.addEdges (nodePairs funcToNodes parsed.parsedOrder) (u.functions.map fun f => { nf := f })
  let orderTreeNodes := (namedNodes funcToNodes parsed.parsedOrder).eraseNone
  let priorityNodes := namedNodes funcToNodes parsed.parsedPriorities
  let rootNodes := orderTreeNodes.filter fun node => nodes.isRoot node = true
  -- one level below each root, then the functions in accepted pairs
  let (leafNodes, pairs) ← checkTrees ly actionTable nodes (ly.iterate rootNodes) parsed.pairToConflicts
  let lv ← checkLevelParallelizability actionTable nodes (ly.iterateNull priorityNodes) pairs
  let first := positionalNode funcToNodes u.positional "first"
  let last := positionalNode funcToNodes u.positional "last"
  let nodes ←
    (if u.hasPositionals then
      Nodes.addEdges (attachEdges first last (ly.iterate rootNodes) (ly.iterateNull priorityNodes)
        (ly.iterate leafNodes)) nodes
    else .ok nodes)
  return { funcToNodes, parsed, orderTreeNodes, priorityNodes, rootNodes, leafNodes, first, last, nodes,
           pairToConflicts := lv.pairToConflicts }

/-! ### Runtime nodes, ports and conflicts -/

/-- `func_to_inx[nf]`; a name that is not there gets the index 0. -/
def inxOf (funcToInx : TreeMap String Nat) (nf : String) : Int := funcToInx.getD nf 0

def ServiceGraph.inxOfNode (g : ServiceGraph) (p : Nat) : Int :=
  match g.nodes[p]? with
  | some node => inxOf g.funcToNodes node.nf
  | none => 0

def ServiceGraph.runtimeNode {n : Nat} (ly : Layout n) (g : ServiceGraph) (function : String) (i : Nat) :
    RuntimeNode :=
  let neighbors := match g.funcToNodes[function]? with
    | some p => ly.iterate (g.nodes.neighbors p)
    | none => []
  neighbors.foldl (fun rnode neighbor => rnode.addNeighbor (g.inxOfNode neighbor))
    { id := i, nf := stringToNF function }

def ServiceGraph.runtimeNodes {n : Nat} (ly : Layout n) (g : ServiceGraph) (functions : List String) :
    List RuntimeNode :=
  functions.zipIdx.map fun x => g.runtimeNode ly x.1 x.2

/-- The port on which the merger listens for each node without neighbors. -/
def portToNodeMap (rnodes : List RuntimeNode) : TreeMap Int Int :=
  rnodes.foldl (fun t rnode =>
    if rnode.neighbors.length = 0 then t.insert (8000 + rnode.id + 1) rnode.id else t) ∅

/-- The id of the first parent, -1 for a node without. -/
def ServiceGraph.parentId {n : Nat} (ly : Layout n) (g : ServiceGraph) (p : Nat) : Int :=
  match g.nodes.getParent ly p with
  | some q => g.inxOfNode q
  | none => -1

def ServiceGraph.createConflictsList {n : Nat} (ly : Layout n) (g : ServiceGraph) :
    Except SetupError (List ConflictItem) := do
  let lists ← (ly.outer g.pairToConflicts.keys).mapM fun major =>
    match g.funcToNodes[major]? with
    | none => .error .nullNode
    | some p =>
      .ok ((ly.inner major (g.pairToConflicts.getD major ∅).keys).map fun minor =>
        { major := inxOf g.funcToNodes major, minor := inxOf g.funcToNodes minor
          parent := g.parentId ly p : ConflictItem })
  return lists.flatten

structure Orchestrator where
  graph : ServiceGraph
  runtimeNodes : List RuntimeNode
  mergerInfo : MergerInfo

def Orchestrator.construct (actionTable : ActionTable) (u : UserInput) (ly : Layout u.functions.length) :
    Except SetupError Orchestrator := do
  let graph ← buildServiceGraph actionTable u ly
  let runtimeNodes := graph.runtimeNodes ly u.functions
  let conflictsList ← graph.createConflictsList ly
  return {
    graph
    runtimeNodes
    mergerInfo :=
      { portToNodeMap := portToNodeMap runtimeNodes
        conflictsList
        nodeMap := .ofList (runtimeNodes.map fun rnode => (rnode.id, rnode))
        destIp := u.receiverIp
        destPort := u.receiverPort } }

end DeepNF
