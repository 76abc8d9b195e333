import DeepNF.GraphLaws
import DeepNF.MachineConfigurator
import Mathlib.Data.Int.CardIntervalMod

/-!
# Which machine runs which function (`Orchestrator::round_robin_partitioning` and the loops after it)

The functions are dealt out to the machines in turn; every machine gets a configurator that knows all
machines and all nodes. `configureMachines_deploys`: each node runs on exactly one machine, and no machine
runs more than one node more than another.
-/

namespace DeepNF
open Std (TreeMap)

/-- `func_to_ip`. -/
def roundRobinPartitioning (ips functions : List String) : TreeMap String String :=
  (functions.foldl (fun (funcToIp, currInx) function =>
    (funcToIp.insert function (ips.getD currInx ""), (currInx + 1) % ips.length))
    ((∅ : TreeMap String String), 0)).1

def makeMachines (ips : List String) : TreeMap String Machine :=
  ips.zipIdx.foldl (fun t (ip, i) => t.insert ip { id := i, ip, bridgeIp := "173.16.1.1" }) ∅

/-- A machine is used through the pointer that the map holds. -/
def machineAt (ipToMachines : TreeMap String Machine) (ip : String) : Except SetupError Machine :=
  match ipToMachines[ip]? with
  | none => .error .nullNode
  | some machine => .ok machine

def assignNodes (funcToIp : TreeMap String String) (functions : List String)
    (ipToMachines : TreeMap String Machine) : Except SetupError (TreeMap String Machine) :=
  functions.zipIdx.foldlM (fun t (function, i) => do
    let ip := funcToIp.getD function ""
    let machine ← machineAt t ip
    return t.insert ip (machine.addNodeId i)) ipToMachines

/-- `nodes` lists the runtime nodes in the order in which `idToRuntimeNode` is iterated over. -/
def configureMachines (ips functions : List String) (nodes : List ConfigNode) :
    Except SetupError (List MachineConfigurator) := do
  let ipToMachines ← assignNodes (roundRobinPartitioning ips functions) functions (makeMachines ips)
  let machines ← ips.mapM (machineAt ipToMachines)
  return machines.zipIdx.map fun (machine, i) => configuratorFor machines nodes i machine

/-- `idToRuntimeNode`; `machineId` is what the constructor of `RuntimeNode` leaves unset. -/
def ServiceGraph.configNodes {n : Nat} (ly : Layout n) (g : ServiceGraph) (functions : List String)
    (machineId : Nat → Int) : List ConfigNode :=
  (g.runtimeNodes ly functions).zipIdx.map fun (rnode, i) =>
    { toRuntimeNode := rnode, machineId := machineId i }

/-- The ids of the nodes that the machine starts. -/
def MachineConfigurator.deployed (mc : MachineConfigurator) : List Int :=
  (mc.getNodesForMachine mc.machineId).map (·.id)

/-! ### Dealing out -/

section Deal
variable {ips functions : List String}

theorem roundRobinPartitioning_eq : roundRobinPartitioning ips functions =
    functions.zipIdx.foldl (fun t x => t.insert x.1 (ips.getD (x.2 % ips.length) "")) ∅ := by
  have key : ∀ (l : List String) (s : Nat) (t : TreeMap String String),
      (l.foldl (fun (funcToIp, currInx) function =>
        (funcToIp.insert function (ips.getD currInx ""), (currInx + 1) % ips.length)) (t, s % ips.length)).1 =
      (l.zipIdx s).foldl (fun t x => t.insert x.1 (ips.getD (x.2 % ips.length) "")) t := by
    intro l
    induction l with
    | nil => intro s t; rfl
    | cons function l ih =>
      intro s t
      have hs : (s % ips.length + 1) % ips.length = (s + 1) % ips.length := Nat.mod_add_mod s ips.length 1
      show (l.foldl _ (_, (s % ips.length + 1) % ips.length)).1 = _
      rw [hs, ih (s + 1)]
      rfl
  have h0 := key functions 0 ∅
  rw [Nat.zero_mod] at h0
  exact h0

theorem getD_roundRobinPartitioning (hf : functions.Nodup) {i : Nat} {function : String}
    (hi : functions[i]? = some function) :
    (roundRobinPartitioning ips functions).getD function "" = ips.getD (i % ips.length) "" := by
  have hx : (function, i) ∈ functions.zipIdx := List.mem_zipIdx_iff_getElem?.mpr hi
  rw [roundRobinPartitioning_eq, TreeMap.getD_eq_getD_getElem?,
    TreeMaps.getElem?_foldl_insert Prod.fst (fun x => ips.getD (x.2 % ips.length) "")
      (by rwa [List.zipIdx_map_fst]) ∅ hx]
  rfl

/-- The machine in place `k` once the functions at the positions `done` have been assigned. -/
def dealt (ips : List String) (done : List Nat) (k : Nat) (ip : String) : Machine :=
  { id := k, ip, bridgeIp := "173.16.1.1", nodes := (done.filter (· % ips.length = k)).map Nat.cast }

theorem getElem?_makeMachines (hips : ips.Nodup) {k : Nat} {ip : String} (hk : ips[k]? = some ip) :
    (makeMachines ips)[ip]? = some (dealt ips [] k ip) := by
  have hx : (ip, k) ∈ ips.zipIdx := List.mem_zipIdx_iff_getElem?.mpr hk
  exact TreeMaps.getElem?_foldl_insert (fun x : String × Nat => x.1)
    (fun x => ({ id := x.2, ip := x.1, bridgeIp := "173.16.1.1" } : Machine))
    (by rwa [List.zipIdx_map_fst]) ∅ hx

theorem machineAt_ok {t : TreeMap String Machine} {ip : String} {machine : Machine} :
    machineAt t ip = .ok machine ↔ t[ip]? = some machine := by
  unfold machineAt
  cases t[ip]? <;> simp

def Dealt (ips : List String) (done : List Nat) (t : TreeMap String Machine) : Prop :=
  ∀ k ip, ips[k]? = some ip → t[ip]? = some (dealt ips done k ip)

theorem Dealt.insert {done : List Nat} {t : TreeMap String Machine} (hips : ips.Nodup) (h : Dealt ips done t)
    {i : Nat} {ip : String} (hip : ips[i % ips.length]? = some ip) :
    Dealt ips (done ++ [i]) (t.insert ip ((dealt ips done (i % ips.length) ip).addNodeId i)) := by
  intro k ip' hk
  rw [TreeMap.getElem?_insert]
  by_cases he : i % ips.length = k
  · subst he
    obtain rfl := Option.some.inj (hip.symm.trans hk)
    simp [dealt, Machine.addNodeId, List.filter_append]
  · have hne : ip ≠ ip' := by
      rintro rfl
      exact he ((List.getElem?_inj (List.getElem?_eq_some_iff.mp hip).1 hips).mp (hip.trans hk.symm))
    rw [if_neg (by simpa using hne), h k ip' hk]
    simp [dealt, List.filter_append, he]

theorem assignNodes_ok (hips : ips.Nodup) (h0 : ips ≠ []) (hf : functions.Nodup) :
    ∃ t, assignNodes (roundRobinPartitioning ips functions) functions (makeMachines ips) = .ok t ∧
      Dealt ips (List.range functions.length) t := by
  have hstep : ∀ (done : List Nat) (t : TreeMap String Machine) (x : String × Nat), x ∈ functions.zipIdx →
      Dealt ips done t → ∃ t', (do
        let machine ← machineAt t ((roundRobinPartitioning ips functions).getD x.1 "")
        return t.insert ((roundRobinPartitioning ips functions).getD x.1 "") (machine.addNodeId x.2) :
          Except SetupError (TreeMap String Machine)) = .ok t' ∧ Dealt ips (done ++ [x.2]) t' := by
    rintro done t ⟨function, i⟩ hx ht
    have hlt : i % ips.length < ips.length := Nat.mod_lt _ (List.length_pos_iff.mpr h0)
    have hip : ips[i % ips.length]? = some (ips.getD (i % ips.length) "") := by
      rw [List.getD_eq_getElem?_getD, List.getElem?_eq_getElem hlt]
      rfl
    rw [getD_roundRobinPartitioning hf (List.mem_zipIdx_iff_getElem?.mp hx),
      machineAt_ok.mpr (ht _ _ hip)]
    exact ⟨_, rfl, ht.insert hips hip⟩
  have key : ∀ (l : List (String × Nat)) (done : List Nat) (t : TreeMap String Machine),
      (∀ x ∈ l, x ∈ functions.zipIdx) → Dealt ips done t → ∃ t', l.foldlM (fun t (function, i) => do
        let ip := (roundRobinPartitioning ips functions).getD function ""
        let machine ← machineAt t ip
        return t.insert ip (machine.addNodeId i)) t = (.ok t' : Except SetupError (TreeMap String Machine)) ∧
        Dealt ips (done ++ l.map (·.2)) t' := by
    intro l
    induction l with
    | nil => intro done t _ ht; exact ⟨t, rfl, by simpa using ht⟩
    | cons x l ih =>
      intro done t hl ht
      obtain ⟨t₁, h₁, ht₁⟩ := hstep done t x (hl x (List.mem_cons_self ..)) ht
      obtain ⟨t', h', ht'⟩ := ih _ t₁ (fun y hy => hl y (List.mem_cons_of_mem _ hy)) ht₁
      refine ⟨t', ?_, by simpa using ht'⟩
      rw [List.foldlM_cons]
      exact (congrArg (· >>= _) h₁).trans h'
  obtain ⟨t, ht, hd⟩ := key functions.zipIdx [] _ (fun _ h => h) fun k ip => getElem?_makeMachines hips
  refine ⟨t, ht, ?_⟩
  rw [List.zipIdx_map_snd, List.nil_append, ← List.range_eq_range'] at hd
  exact hd

end Deal

/-! ### The machines that come out -/

section Machines
variable {ips functions : List String}

def dealtMachines (ips : List String) (n : Nat) : List Machine :=
  ips.zipIdx.map fun x => dealt ips (List.range n) x.2 x.1

theorem getElem?_dealtMachines {n k : Nat} :
    (dealtMachines ips n)[k]? = ips[k]?.map (dealt ips (List.range n) k) := by
  simp [dealtMachines, List.getElem?_zipIdx, Option.map_map, Function.comp_def]

theorem map_id_dealtMachines {n : Nat} :
    (dealtMachines ips n).map (·.id) = (List.range ips.length).map Nat.cast := by
  have hid : Machine.id ∘ (fun x : String × Nat => dealt ips (List.range n) x.2 x.1) =
      (Nat.cast : Nat → Int) ∘ Prod.snd := rfl
  rw [dealtMachines, List.map_map, hid, ← List.map_map, List.zipIdx_map_snd, List.range_eq_range']

theorem nodup_castRange (n : Nat) : ((List.range n).map (Nat.cast : Nat → Int)).Nodup :=
  List.nodup_range.map Nat.cast_injective

def dealtConfigs (ips : List String) (n : Nat) (nodes : List ConfigNode) : List MachineConfigurator :=
  (dealtMachines ips n).zipIdx.map fun x => configuratorFor (dealtMachines ips n) nodes x.2 x.1

theorem configureMachines_eq (hips : ips.Nodup) (h0 : ips ≠ []) (hf : functions.Nodup)
    (nodes : List ConfigNode) : configureMachines ips functions nodes =
      .ok (dealtConfigs ips functions.length nodes) := by
  obtain ⟨t, ht, hd⟩ := assignNodes_ok hips h0 hf
  have hm : ips.mapM (machineAt t) = .ok (dealtMachines ips functions.length) := by
    refine Rounds.mapM_of_forall₂ ?_
    rw [dealtMachines, List.forall₂_map_right_iff, ← List.zipIdx_map_fst 0 ips, List.forall₂_map_left_iff,
      List.zipIdx_map_fst, List.forall₂_same]
    exact fun x hx => machineAt_ok.mpr (hd _ _ (List.mem_zipIdx_iff_getElem?.mp hx))
  simp only [configureMachines, ht, hm, bind, Except.bind]
  rfl

def share (ips : List String) (n k : Nat) : List Nat := (List.range n).filter (· % ips.length = k)

theorem mem_share {n k i : Nat} : i ∈ share ips n k ↔ i < n ∧ i % ips.length = k := by
  simp [share]

theorem length_share_le {n k k' : Nat} (h0 : 0 < ips.length) (hk : k < ips.length) (hk' : k' < ips.length) :
    (share ips n k).length ≤ (share ips n k').length + 1 := by
  have hcount : ∀ k < ips.length, (share ips n k).length =
      n / ips.length + if k < n % ips.length then 1 else 0 := by
    intro k hk
    have hmod := Nat.count_modEq_card n h0 k
    rw [Nat.mod_eq_of_lt hk] at hmod
    rw [← hmod, share]
    clear hmod
    induction n with
    | zero => rfl
    | succ n ih =>
      rw [List.range_succ, List.filter_append, List.length_append, ih, Nat.count_succ, List.filter_singleton]
      simp only [Nat.ModEq, Nat.mod_eq_of_lt hk]
      split <;> simp_all
  rw [hcount k hk, hcount k' hk']
  split <;> omega

end Machines

/-! ### The configurations -/

section Configurations
variable {ips functions : List String} {nodes : List ConfigNode}

theorem map_id_configNodes {n : Nat} (ly : Layout n) (g : ServiceGraph) (machineId : Nat → Int) :
    (g.configNodes ly functions machineId).map (·.id) = (List.range functions.length).map Nat.cast := by
  have hfst : (g.configNodes ly functions machineId).map (·.toRuntimeNode) = g.runtimeNodes ly functions := by
    rw [ServiceGraph.configNodes, List.map_map]
    exact List.zipIdx_map_fst 0 _
  rw [← ServiceGraph.map_id_runtimeNodes, ← hfst, List.map_map]
  rfl

variable (hnodes : (nodes.map (·.id)).Perm ((List.range functions.length).map Nat.cast))
include hnodes

theorem mem_nodeMap {ms : List Machine} {k : Nat} {machine : Machine} {i : Int} :
    i ∈ (configuratorFor ms nodes k machine).nodeMap ↔ i ∈ (List.range functions.length).map Nat.cast := by
  have hnd : (nodes.map (·.id)).Nodup := hnodes.nodup_iff.mpr (nodup_castRange _)
  rw [← hnodes.mem_iff, List.mem_map]
  constructor
  · intro hi
    obtain ⟨n, hn⟩ := TreeMaps.exists_getElem? hi
    exact ⟨n, (configuratorFor_nodeMap hnd i n).mp hn⟩
  · rintro ⟨n, hn, rfl⟩
    exact TreeMaps.mem_of_getElem? ((configuratorFor_nodeMap hnd _ n).mpr ⟨hn, rfl⟩)

theorem size_nodeMap {ms : List Machine} {k : Nat} {machine : Machine} :
    (configuratorFor ms nodes k machine).nodeMap.size = functions.length := by
  rw [TreeMaps.size_of_mem_iff (nodup_castRange functions.length) fun i => mem_nodeMap hnodes,
    List.length_map, List.length_range]

theorem configuratorFor_deployed {k : Nat} {machine : Machine}
    (hk : (dealtMachines ips functions.length)[k]? = some machine) :
    (configuratorFor (dealtMachines ips functions.length) nodes k machine).deployed =
      (share ips functions.length k).map Nat.cast := by
  have hmach := (configuratorFor_machineMap nodes (map_id_dealtMachines ▸ nodup_castRange _) hk
    machine.id machine).mpr ⟨List.mem_of_getElem? hk, rfl⟩
  rw [getElem?_dealtMachines, Option.map_eq_some_iff] at hk
  obtain ⟨ip, -, rfl⟩ := hk
  rw [MachineConfigurator.deployed, configuratorFor_machineId]
  refine MachineConfigurator.map_id_getNodesForMachine hmach fun i hi => ?_
  obtain ⟨j, hj, rfl⟩ := List.mem_map.mp hi
  exact (mem_nodeMap hnodes).mpr (List.mem_map_of_mem (List.mem_range.mpr (mem_share.mp hj).1))

omit hnodes

theorem getElem?_dealtConfigs {n k : Nat} {mc : MachineConfigurator} :
    (dealtConfigs ips n nodes)[k]? = some mc ↔
      ∃ machine, (dealtMachines ips n)[k]? = some machine ∧
        configuratorFor (dealtMachines ips n) nodes k machine = mc := by
  simp [dealtConfigs, List.getElem?_zipIdx, Option.map_map, Function.comp_def]

theorem getElem?_dealtMachines_lt {n k : Nat} {machine : Machine}
    (hk : (dealtMachines ips n)[k]? = some machine) : k < ips.length := by
  rw [getElem?_dealtMachines, Option.map_eq_some_iff] at hk
  obtain ⟨ip, hip, -⟩ := hk
  exact (List.getElem?_eq_some_iff.mp hip).1

theorem size_machineMap {n k : Nat} {machine : Machine} (hk : (dealtMachines ips n)[k]? = some machine) :
    (configuratorFor (dealtMachines ips n) nodes k machine).machineMap.size = ips.length := by
  have hms : ((dealtMachines ips n).map (·.id)).Nodup := map_id_dealtMachines ▸ nodup_castRange _
  rw [TreeMaps.size_of_mem_iff hms fun i => ?_, List.length_map, dealtMachines, List.length_map,
    List.length_zipIdx]
  rw [List.mem_map]
  constructor
  · intro hi
    obtain ⟨m, hm⟩ := TreeMaps.exists_getElem? hi
    exact ⟨m, (configuratorFor_machineMap nodes hms hk i m).mp hm⟩
  · rintro ⟨m, hm, rfl⟩
    exact TreeMaps.mem_of_getElem? ((configuratorFor_machineMap nodes hms hk _ m).mpr ⟨hm, rfl⟩)

/-- Each node runs on exactly one machine, and once; every configuration holds all nodes and all machines;
two machines differ by one node at most. -/
theorem configureMachines_deploys (hips : ips.Nodup) (h0 : ips ≠ []) (hf : functions.Nodup) {n : Nat}
    (ly : Layout n) (g : ServiceGraph) (machineId : Nat → Int)
    (hnodes : nodes.Perm (g.configNodes ly functions machineId)) :
    ∃ mcs : List MachineConfigurator, configureMachines ips functions nodes = .ok mcs ∧
      mcs.length = ips.length ∧
      (∀ i < functions.length, ∃! k : Nat, ∃ mc, mcs[k]? = some mc ∧ (i : Int) ∈ mc.deployed) ∧
      (∀ mc ∈ mcs, mc.deployed.Nodup ∧
        mc.nodeMap.size = functions.length ∧ (∀ node ∈ nodes, mc.nodeMap[node.id]? = some node) ∧
        mc.machineMap.size = ips.length ∧
        ∀ (k : Nat) ip, ips[k]? = some ip → ∃ machine, mc.machineMap[(k : Int)]? = some machine ∧
          machine.ip = ip) ∧
      ∀ mc ∈ mcs, ∀ mc' ∈ mcs, mc.deployed.length ≤ mc'.deployed.length + 1 := by
  have hids : (nodes.map (·.id)).Perm ((List.range functions.length).map Nat.cast) :=
    map_id_configNodes ly g machineId ▸ hnodes.map _
  have hnd : (nodes.map (·.id)).Nodup := hids.nodup_iff.mpr (nodup_castRange _)
  have hms : ((dealtMachines ips functions.length).map (·.id)).Nodup :=
    map_id_dealtMachines ▸ nodup_castRange _
  have hpos : 0 < ips.length := List.length_pos_iff.mpr h0
  refine ⟨_, configureMachines_eq hips h0 hf nodes, by simp [dealtConfigs, dealtMachines], ?_, ?_, ?_⟩
  · intro i hi
    have hlt : i % ips.length < ips.length := Nat.mod_lt _ hpos
    have hin : ∀ {k mc}, (dealtConfigs ips functions.length nodes)[k]? = some mc →
        ((i : Int) ∈ mc.deployed ↔ i % ips.length = k) := by
      intro k mc hk
      obtain ⟨machine, hm, rfl⟩ := getElem?_dealtConfigs.mp hk
      rw [configuratorFor_deployed hids hm, List.mem_map_of_injective Nat.cast_injective, mem_share]
      exact and_iff_right hi
    have hmc : (dealtMachines ips functions.length)[i % ips.length]? =
        some (dealt ips (List.range functions.length) (i % ips.length) ips[i % ips.length]) := by
      rw [getElem?_dealtMachines, List.getElem?_eq_getElem hlt, Option.map_some]
    have hconf : (dealtConfigs ips functions.length nodes)[i % ips.length]? = some _ :=
      getElem?_dealtConfigs.mpr ⟨_, hmc, rfl⟩
    exact ⟨i % ips.length, ⟨_, hconf, (hin hconf).mpr rfl⟩, fun k ⟨mc, hk, hd⟩ => ((hin hk).mp hd).symm⟩
  · intro mc hmc
    obtain ⟨k, hk⟩ := List.mem_iff_getElem?.mp hmc
    obtain ⟨machine, hm, rfl⟩ := getElem?_dealtConfigs.mp hk
    refine ⟨?_, size_nodeMap hids, fun node hn => (configuratorFor_nodeMap hnd _ node).mpr ⟨hn, rfl⟩,
      size_machineMap hm, ?_⟩
    · rw [configuratorFor_deployed hids hm]
      exact (List.nodup_range.filter _).map Nat.cast_injective
    · intro j ip hj
      have hmem : dealt ips (List.range functions.length) j ip ∈ dealtMachines ips functions.length :=
        List.mem_of_getElem? (by rw [getElem?_dealtMachines, hj, Option.map_some])
      exact ⟨_, (configuratorFor_machineMap nodes hms hm _ _).mpr ⟨hmem, rfl⟩, rfl⟩
  · intro mc hmc mc' hmc'
    obtain ⟨k, hk⟩ := List.mem_iff_getElem?.mp hmc
    obtain ⟨k', hk'⟩ := List.mem_iff_getElem?.mp hmc'
    obtain ⟨machine, hm, rfl⟩ := getElem?_dealtConfigs.mp hk
    obtain ⟨machine', hm', rfl⟩ := getElem?_dealtConfigs.mp hk'
    rw [configuratorFor_deployed hids hm, configuratorFor_deployed hids hm', List.length_map, List.length_map]
    exact length_share_le hpos (getElem?_dealtMachines_lt hm) (getElem?_dealtMachines_lt hm')

/-- Five functions on two machines. -/
theorem configureMachines_deploys_complex :
    ∃ (g : ServiceGraph) (mcs : List MachineConfigurator),
      configureMachines ["18.0.0.1", "18.0.0.2"] inputComplexJson.functions
        (g.configNodes (.ascending 5) inputComplexJson.functions fun _ => 7) = .ok mcs ∧ mcs.length = 2 := by
  obtain ⟨o, -⟩ := inputComplexJson_constructed
  have hips : ["18.0.0.1", "18.0.0.2"].Nodup := by decide
  have hfunctions : inputComplexJson.functions.Nodup := by decide
  obtain ⟨mcs, h, hlen, -⟩ := configureMachines_deploys hips (by decide) hfunctions (.ascending 5) o.graph
    (fun _ => 7) (.refl _)
  exact ⟨o.graph, mcs, h, hlen⟩

end Configurations

end DeepNF
