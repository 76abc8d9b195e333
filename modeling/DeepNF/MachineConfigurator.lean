import DeepNF.Common
import DeepNF.TreeMaps

/-!
# Machines and their configuration (`src/common/Machine.cpp`, `MachineConfigurator.cpp`)

A `MachineConfigurator` is what the orchestrator hands to one machine: all machines, all runtime nodes,
and which of the machines is meant. Its maps only hold entries under their own ids, and the own machine
is among them; the operations keep both.
-/

namespace DeepNF
open Std (TreeMap)

structure Machine where
  id : Int
  ip : String := ""
  bridgeIp : String := ""
  nodes : List Int := []
deriving DecidableEq, Repr

def Machine.addNodeId (m : Machine) (n : Int) : Machine := { m with nodes := m.nodes ++ [n] }

/-- A `RuntimeNode` with the fields that only the configuration carries along; the constructor leaves
`machine_id` unset. -/
structure ConfigNode extends RuntimeNode where
  machineId : Int
  ip : String := ""
deriving DecidableEq, Repr

structure MachineConfigurator where
  machineId : Int
  machineMap : TreeMap Int Machine
  nodeMap : TreeMap Int ConfigNode
  machineMap_id : ∀ (k : Int) m, machineMap[k]? = some m → m.id = k
  nodeMap_id : ∀ (k : Int) n, nodeMap[k]? = some n → n.id = k
  machineId_mem : machineId ∈ machineMap

theorem insertIfNew_id {α : Type} {t : TreeMap Int α} {f : α → Int}
    (ht : ∀ (k : Int) a, t[k]? = some a → f a = k) (a : α) (k : Int) (b : α)
    (h : (t.insertIfNew (f a) a)[k]? = some b) : f b = k := by
  rw [TreeMaps.getElem?_insertIfNew, Option.or_eq_some_iff] at h
  rcases h with h | ⟨-, h⟩
  · exact ht k b h
  · split at h
    · cases h; assumption
    · cases h

namespace MachineConfigurator

def new (m : Machine) : MachineConfigurator where
  machineId := m.id
  machineMap := (∅ : TreeMap Int Machine).insertIfNew m.id m
  nodeMap := ∅
  machineMap_id := insertIfNew_id (t := ∅) (f := Machine.id) (by simp) m
  nodeMap_id _ _ h := by simp at h
  machineId_mem := by simp [TreeMap.mem_insertIfNew]

def addMachine (mc : MachineConfigurator) (m : Machine) : MachineConfigurator where
  machineId := mc.machineId
  machineMap := mc.machineMap.insertIfNew m.id m
  nodeMap := mc.nodeMap
  machineMap_id := insertIfNew_id mc.machineMap_id m
  nodeMap_id := mc.nodeMap_id
  machineId_mem := TreeMap.mem_insertIfNew.mpr (.inr mc.machineId_mem)

def addNode (mc : MachineConfigurator) (n : ConfigNode) : MachineConfigurator where
  machineId := mc.machineId
  machineMap := mc.machineMap
  nodeMap := mc.nodeMap.insertIfNew n.id n
  machineMap_id := mc.machineMap_id
  nodeMap_id := insertIfNew_id (f := fun n : ConfigNode => n.id) mc.nodeMap_id n
  machineId_mem := mc.machineId_mem

def getNodesForMachine (mc : MachineConfigurator) (macId : Int) : List ConfigNode :=
  match mc.machineMap[macId]? with
  | some m => m.nodes.filterMap fun i => mc.nodeMap[i]?
  | none => []

variable {mc : MachineConfigurator}

theorem getElem?_machineMap_new (m : Machine) (k : Int) :
    (new m).machineMap[k]? = if m.id = k then some m else none := by
  rw [new, TreeMaps.getElem?_insertIfNew]
  simp

theorem mem_getNodesForMachine {macId : Int} {m : Machine} (hm : mc.machineMap[macId]? = some m)
    {n : ConfigNode} : n ∈ mc.getNodesForMachine macId ↔ n.id ∈ m.nodes ∧ mc.nodeMap[n.id]? = some n := by
  rw [getNodesForMachine, hm]
  simp only [List.mem_filterMap]
  constructor
  · rintro ⟨i, hi, hn⟩
    rw [mc.nodeMap_id i n hn]
    exact ⟨hi, hn⟩
  · rintro ⟨hi, hn⟩
    exact ⟨n.id, hi, hn⟩

theorem map_id_getNodesForMachine {macId : Int} {m : Machine} (hm : mc.machineMap[macId]? = some m)
    (hin : ∀ i ∈ m.nodes, i ∈ mc.nodeMap) : (mc.getNodesForMachine macId).map (·.id) = m.nodes := by
  rw [getNodesForMachine, hm]
  show (m.nodes.filterMap fun i => mc.nodeMap[i]?).map (·.id) = m.nodes
  generalize m.nodes = l at hin
  induction l with
  | nil => rfl
  | cons i l ih =>
    obtain ⟨n, hn⟩ := TreeMaps.exists_getElem? (hin i (List.mem_cons_self ..))
    rw [List.filterMap_cons_some hn, List.map_cons, mc.nodeMap_id i n hn,
      ih fun j hj => hin j (List.mem_cons_of_mem _ hj)]

theorem foldl_addMachine (mc : MachineConfigurator) (ms : List Machine) :
    (ms.foldl addMachine mc).machineId = mc.machineId ∧
    (ms.foldl addMachine mc).nodeMap = mc.nodeMap ∧
    (ms.foldl addMachine mc).machineMap = ms.foldl (fun t m => t.insertIfNew m.id m) mc.machineMap := by
  induction ms generalizing mc with
  | nil => exact ⟨rfl, rfl, rfl⟩
  | cons m ms ih => exact ih (mc.addMachine m)

theorem foldl_addNode (mc : MachineConfigurator) (ns : List ConfigNode) :
    (ns.foldl addNode mc).machineId = mc.machineId ∧
    (ns.foldl addNode mc).machineMap = mc.machineMap ∧
    (ns.foldl addNode mc).nodeMap = ns.foldl (fun t n => t.insertIfNew n.id n) mc.nodeMap := by
  induction ns generalizing mc with
  | nil => exact ⟨rfl, rfl, rfl⟩
  | cons n ns ih => exact ih (mc.addNode n)

theorem getElem?_machineMap_foldl {ms : List Machine} (hms : (ms.map (·.id)).Nodup) (k : Int)
    (m : Machine) : (ms.foldl addMachine mc).machineMap[k]? = some m ↔
      mc.machineMap[k]? = some m ∨ mc.machineMap[k]? = none ∧ m ∈ ms ∧ m.id = k := by
  rw [(foldl_addMachine mc ms).2.2]
  exact TreeMaps.getElem?_foldl_insertIfNew_self Machine.id hms mc.machineMap k m

theorem getElem?_nodeMap_foldl {ns : List ConfigNode} (hns : (ns.map (·.id)).Nodup) (k : Int)
    (n : ConfigNode) : (ns.foldl addNode mc).nodeMap[k]? = some n ↔
      mc.nodeMap[k]? = some n ∨ mc.nodeMap[k]? = none ∧ n ∈ ns ∧ n.id = k := by
  rw [(foldl_addNode mc ns).2.2]
  exact TreeMaps.getElem?_foldl_insertIfNew_self (fun n : ConfigNode => n.id) hns mc.nodeMap k n

end MachineConfigurator

/-- The configuration of the machine in place `i`: the own machine first, then the others, then all
nodes. -/
def configuratorFor (ms : List Machine) (nodes : List ConfigNode) (i : Nat) (m : Machine) :
    MachineConfigurator :=
  nodes.foldl .addNode ((ms.eraseIdx i).foldl .addMachine (.new m))

section Configurator
variable {ms : List Machine} {nodes : List ConfigNode} {i : Nat} {m : Machine}

theorem configuratorFor_machineId : (configuratorFor ms nodes i m).machineId = m.id := by
  rw [configuratorFor, (MachineConfigurator.foldl_addNode _ _).1, (MachineConfigurator.foldl_addMachine _ _).1]
  rfl

theorem configuratorFor_machineMap (nodes : List ConfigNode) (hms : (ms.map (·.id)).Nodup) (hi : ms[i]? = some m)
    (k : Int) (m' : Machine) :
    (configuratorFor ms nodes i m).machineMap[k]? = some m' ↔ m' ∈ ms ∧ m'.id = k := by
  have hmem : m ∈ ms := List.mem_of_getElem? hi
  rw [configuratorFor, (MachineConfigurator.foldl_addNode _ _).2.1,
    MachineConfigurator.getElem?_machineMap_foldl (hms.sublist ((List.eraseIdx_sublist ..).map _)),
    MachineConfigurator.getElem?_machineMap_new]
  constructor
  · rintro (h | ⟨-, hm', hk⟩)
    · split at h
      · cases h; exact ⟨hmem, ‹_›⟩
      · cases h
    · exact ⟨List.mem_of_mem_eraseIdx hm', hk⟩
  · rintro ⟨hm', rfl⟩
    by_cases he : m.id = m'.id
    · rw [List.inj_on_of_nodup_map hms hmem hm' he]
      simp
    · refine .inr ⟨by simp [he], List.mem_eraseIdx_iff_getElem?.mpr ?_, rfl⟩
      obtain ⟨j, hj⟩ := List.mem_iff_getElem?.mp hm'
      refine ⟨j, ?_, hj⟩
      rintro rfl
      rw [hi] at hj
      cases hj
      exact he rfl

theorem configuratorFor_nodeMap (hns : (nodes.map (·.id)).Nodup) (k : Int) (n : ConfigNode) :
    (configuratorFor ms nodes i m).nodeMap[k]? = some n ↔ n ∈ nodes ∧ n.id = k := by
  rw [configuratorFor, MachineConfigurator.getElem?_nodeMap_foldl hns,
    (MachineConfigurator.foldl_addMachine _ _).2.1, MachineConfigurator.new]
  simp

end Configurator

end DeepNF
