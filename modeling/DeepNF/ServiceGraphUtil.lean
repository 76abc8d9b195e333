import DeepNF.CText
import DeepNF.MachineConfigurator
import DeepNF.Rounds
import Mathlib.Data.List.Perm.Basic
import Std.Data.ExtTreeMap.Lemmas

/-!
# Configurations as messages (`src/common/ServiceGraphUtil.cpp`, `src/proto/Machine.proto`)

A `MachineConfigurator` travels as a protobuf message, whose numbers are all `uint64` and whose maps have
no order. Serialising a message is protobuf's own and a parameter here; the two conversions around it are
inverse to each other (`stringToMachineConfigurator_toString`).
-/

namespace DeepNF
open Std (TreeMap ExtTreeMap)
open CText (IsInt)

/-! ### Numbers -/

/-- An `int` where an `uint64` is expected: sign extension. -/
def toUInt64 (i : Int) : UInt64 := UInt64.ofInt i

/-- An `uint64` where an `int` is expected: the low 32 bits. -/
def toInt (u : UInt64) : Int := (u.toNat : Int).bmod 4294967296

theorem toNat_toUInt64 (i : Int) : ((toUInt64 i).toNat : Int) = i % 18446744073709551616 := by
  have hpos : 0 ≤ i % 2 ^ 64 := Int.emod_nonneg i (by decide)
  have hlt : i % 2 ^ 64 < 2 ^ 64 := Int.emod_lt_of_pos i (by decide)
  rw [toUInt64, UInt64.ofInt, UInt64.toNat_ofNat', Nat.mod_eq_of_lt (by omega), Int.toNat_of_nonneg hpos]
  rfl

theorem toInt_toUInt64 {i : Int} (hi : IsInt i) : toInt (toUInt64 i) = i := by
  obtain ⟨hlo, hhi⟩ := hi
  unfold toInt
  rw [toNat_toUInt64, Int.bmod_def]
  omega

theorem map_toInt_toUInt64 {l : List Int} (hl : ∀ i ∈ l, IsInt i) : (l.map toUInt64).map toInt = l := by
  rw [List.map_map]
  refine (List.map_congr_left fun i hi => ?_).trans (List.map_id l)
  rw [Function.comp_apply, toInt_toUInt64 (hl i hi), id]

theorem toUInt64_inj {i j : Int} (hi : IsInt i) (hj : IsInt j) (h : toUInt64 i = toUInt64 j) : i = j := by
  rw [← toInt_toUInt64 hi, h, toInt_toUInt64 hj]

/-! ### Messages -/

/-- `RuntimeNodeMsg::NFMsg`; a parsed message may hold a number without a name. -/
inductive NFMsg
  | DNF_FIREWALL | DNF_LOADBALANCER | PROXY | COMPRESSOR | PKTGEN
  | unrecognized (value : Int)
deriving DecidableEq, Repr

structure MachineMsg where
  id : UInt64 := 0
  ip : String := ""
  bridgeIp : String := ""
  nodes : List UInt64 := []
deriving DecidableEq, Repr

structure RuntimeNodeMsg where
  id : UInt64 := 0
  nf : NFMsg := .DNF_FIREWALL
  neighbors : List UInt64 := []
  inport : UInt64 := 0
  outport : UInt64 := 0
  machineId : UInt64 := 0
  ip : String := ""
deriving DecidableEq, Repr

structure MachineConfiguratorMsg where
  machineId : UInt64 := 0
  machineMap : ExtTreeMap UInt64 MachineMsg := ∅
  nodeMap : ExtTreeMap UInt64 RuntimeNodeMsg := ∅

/-- How a loop visits the entries of a protobuf map; the library leaves the order open. -/
structure MapOrder where
  iterate : {α : Type} → ExtTreeMap UInt64 α → List (UInt64 × α)
  perm : ∀ {α : Type} (t : ExtTreeMap UInt64 α), (iterate t).Perm t.toList

inductive UtilError
  | invalidArgument (message : String)
deriving DecidableEq, Repr

def machineFromMessage (message : MachineMsg) : Machine :=
  (message.nodes.map toInt).foldl .addNodeId
    { id := toInt message.id, ip := message.ip, bridgeIp := message.bridgeIp }

def messageFromMachine (m : Machine) : MachineMsg where
  id := toUInt64 m.id
  ip := m.ip
  bridgeIp := m.bridgeIp
  nodes := m.nodes.map toUInt64

def nfFromMessage : NFMsg → Except UtilError NF
  | .DNF_FIREWALL => .ok .dnfFirewall
  | .DNF_LOADBALANCER => .ok .dnfLoadbalancer
  | .PROXY => .ok .proxy
  | .COMPRESSOR => .ok .compressor
  | .PKTGEN => .ok .pktgen
  | .unrecognized _ => .error (.invalidArgument "Message has unknown NF type")

def messageFromNf : NF → NFMsg
  | .dnfFirewall => .DNF_FIREWALL
  | .dnfLoadbalancer => .DNF_LOADBALANCER
  | .proxy => .PROXY
  | .compressor => .COMPRESSOR
  | .pktgen => .PKTGEN

def ConfigNode.addNeighbor (n : ConfigNode) (nodeId : Int) : ConfigNode :=
  { n with toRuntimeNode := n.toRuntimeNode.addNeighbor nodeId }

def runtimeNodeFromMessage (message : RuntimeNodeMsg) : Except UtilError ConfigNode := do
  let nf ← nfFromMessage message.nf
  return (message.neighbors.map toInt).foldl .addNeighbor
    { id := toInt message.id, nf, inport := toInt message.inport, outport := toInt message.outport
      machineId := toInt message.machineId, ip := message.ip }

def messageFromRuntimeNode (rn : ConfigNode) : RuntimeNodeMsg where
  id := toUInt64 rn.id
  nf := messageFromNf rn.nf
  neighbors := rn.neighbors.map toUInt64
  inport := toUInt64 rn.inport
  outport := toUInt64 rn.outport
  machineId := toUInt64 rn.machineId
  ip := rn.ip

/-- `(*map)[key] = message` for every entry of a `std::map`. -/
def messageMap {α β : Type} (f : α → β) (t : TreeMap Int α) : ExtTreeMap UInt64 β :=
  .ofList (t.toList.map fun x => (toUInt64 x.1, f x.2))

def messageFromMachineConfigurator (mc : MachineConfigurator) : MachineConfiguratorMsg where
  machineId := toUInt64 mc.machineId
  machineMap := messageMap messageFromMachine mc.machineMap
  nodeMap := messageMap messageFromRuntimeNode mc.nodeMap

/-- The own machine is looked up with `[]`, which adds a default message if it is not there. -/
def machineConfiguratorFromMessage (order : MapOrder) (message : MachineConfiguratorMsg) :
    Except UtilError MachineConfigurator := do
  let machineId := toInt message.machineId
  let machineMap := message.machineMap.insertIfNew (toUInt64 machineId) {}
  let m := machineFromMessage (machineMap.getD (toUInt64 machineId) {})
  let mc := (order.iterate machineMap).foldl (fun mc (key, msg) =>
    if toInt key ≠ machineId then mc.addMachine (machineFromMessage msg) else mc) (MachineConfigurator.new m)
  (order.iterate message.nodeMap).foldlM (fun mc (_, msg) => do
    let node ← runtimeNodeFromMessage msg
    return mc.addNode node) mc

def machineConfiguratorToString (serializeToString : MachineConfiguratorMsg → List UInt8)
    (mc : MachineConfigurator) : List UInt8 :=
  serializeToString (messageFromMachineConfigurator mc)

def stringToMachineConfigurator (parseFromString : List UInt8 → MachineConfiguratorMsg) (order : MapOrder)
    (msg : List UInt8) : Except UtilError MachineConfigurator :=
  machineConfiguratorFromMessage order (parseFromString msg)

/-! ### There and back -/

structure Machine.Ints (m : Machine) : Prop where
  id : IsInt m.id
  nodes : ∀ i ∈ m.nodes, IsInt i

structure ConfigNode.Ints (n : ConfigNode) : Prop where
  id : IsInt n.id
  neighbors : ∀ i ∈ n.neighbors, IsInt i
  inport : IsInt n.inport
  outport : IsInt n.outport
  machineId : IsInt n.machineId

/-- All numbers in the configuration are values of an `int`. -/
structure MachineConfigurator.Ints (mc : MachineConfigurator) : Prop where
  machines : ∀ (k : Int) m, mc.machineMap[k]? = some m → m.Ints
  nodes : ∀ (k : Int) n, mc.nodeMap[k]? = some n → n.Ints

theorem foldl_addNodeId (l : List Int) (m : Machine) :
    l.foldl .addNodeId m = { m with nodes := m.nodes ++ l } := by
  induction l generalizing m with
  | nil => simp
  | cons i l ih => rw [List.foldl_cons, ih, Machine.addNodeId, List.append_assoc, List.singleton_append]

theorem machineFromMessage_message {m : Machine} (hm : m.Ints) :
    machineFromMessage (messageFromMachine m) = m := by
  rw [machineFromMessage, messageFromMachine, foldl_addNodeId, toInt_toUInt64 hm.id,
    map_toInt_toUInt64 hm.nodes]
  rfl

theorem nfFromMessage_message (nf : NF) : nfFromMessage (messageFromNf nf) = .ok nf := by
  cases nf <;> rfl

theorem ConfigNode.foldl_addNeighbor (l : List Int) (n : ConfigNode) :
    l.foldl .addNeighbor n = { n with neighbors := n.neighbors ++ l } := by
  induction l generalizing n with
  | nil => simp
  | cons i l ih =>
    rw [List.foldl_cons, ih, ConfigNode.addNeighbor, RuntimeNode.addNeighbor, List.append_assoc,
      List.singleton_append]

theorem runtimeNodeFromMessage_message {n : ConfigNode} (hn : n.Ints) :
    runtimeNodeFromMessage (messageFromRuntimeNode n) = .ok n := by
  simp only [runtimeNodeFromMessage, messageFromRuntimeNode, nfFromMessage_message, bind, Except.bind, pure,
    Except.pure]
  rw [ConfigNode.foldl_addNeighbor, map_toInt_toUInt64 hn.neighbors, toInt_toUInt64 hn.id,
    toInt_toUInt64 hn.inport, toInt_toUInt64 hn.outport, toInt_toUInt64 hn.machineId]
  rfl

/-! ### Maps of messages -/

section Maps
variable {α β : Type} {f : α → β} {t : TreeMap Int α}

theorem getElem?_messageMap (ht : ∀ k ∈ t, IsInt k) {u : UInt64} {b : β} :
    (messageMap f t)[u]? = some b ↔ ∃ (k : Int) (a : α), t[k]? = some a ∧ toUInt64 k = u ∧ f a = b := by
  have hmem : ∀ {x}, x ∈ t.toList → IsInt x.1 := fun {x} hx =>
    ht x.1 (TreeMaps.mem_of_getElem? (TreeMap.mem_toList_iff_getElem?_eq_some.mp hx))
  have hdist : (t.toList.map fun x => (toUInt64 x.1, f x.2)).Pairwise fun x y => ¬ compare x.1 y.1 = .eq := by
    refine List.pairwise_map.mpr (TreeMap.distinct_keys_toList.imp_of_mem fun {x y} hx hy hne he => hne ?_)
    rw [Std.LawfulEqOrd.compare_eq_iff_eq] at he ⊢
    exact toUInt64_inj (hmem hx) (hmem hy) he
  constructor
  · intro h
    by_cases hu : u ∈ (t.toList.map fun x => (toUInt64 x.1, f x.2)).map Prod.fst
    · obtain ⟨y, hy, rfl⟩ := List.mem_map.mp hu
      rw [messageMap, ExtTreeMap.getElem?_ofList_of_mem (by simp) hdist (v := y.2) hy] at h
      obtain ⟨x, hx, rfl⟩ := List.mem_map.mp hy
      exact ⟨x.1, x.2, TreeMap.mem_toList_iff_getElem?_eq_some.mp hx, rfl, Option.some.inj h⟩
    · rw [messageMap, ExtTreeMap.getElem?_ofList_of_contains_eq_false (by simpa using hu)] at h
      cases h
  · rintro ⟨k, a, ha, rfl, rfl⟩
    refine ExtTreeMap.getElem?_ofList_of_mem (k := toUInt64 k) (by simp) hdist ?_
    exact List.mem_map.mpr ⟨(k, a), TreeMap.mem_toList_iff_getElem?_eq_some.mpr ha, rfl⟩

theorem iterate_messageMap (order : MapOrder) (ht : ∀ k ∈ t, IsInt k) :
    ∃ l : List (Int × α), order.iterate (messageMap f t) = l.map (fun x => (toUInt64 x.1, f x.2)) ∧
      l.Perm t.toList := by
  have hnd : ∀ {κ γ : Type} [Ord κ] [Std.TransOrd κ] {l : List (κ × γ)},
      (l.Pairwise fun x y => ¬ compare x.1 y.1 = .eq) → l.Nodup := fun h =>
    h.imp fun hne he => hne (by rw [he]; exact Std.ReflCmp.compare_self)
  have hmem : ∀ {x}, x ∈ t.toList → IsInt x.1 := fun {x} hx =>
    ht x.1 (TreeMaps.mem_of_getElem? (TreeMap.mem_toList_iff_getElem?_eq_some.mp hx))
  have hperm : (order.iterate (messageMap f t)).Perm (t.toList.map fun x => (toUInt64 x.1, f x.2)) := by
    refine (order.perm _).trans ((List.perm_ext_iff_of_nodup (hnd ExtTreeMap.distinct_keys_toList)
      (hnd ?_)).mpr ?_)
    · refine List.pairwise_map.mpr (TreeMap.distinct_keys_toList.imp_of_mem fun {x y} hx hy hne he => hne ?_)
      rw [Std.LawfulEqOrd.compare_eq_iff_eq] at he ⊢
      exact toUInt64_inj (hmem hx) (hmem hy) he
    · rintro ⟨u, b⟩
      rw [ExtTreeMap.mem_toList_iff_getElem?_eq_some, getElem?_messageMap ht, List.mem_map]
      simp only [Prod.exists, TreeMap.mem_toList_iff_getElem?_eq_some, Prod.mk.injEq]
  have hcomp := List.eq_map_comp_perm (fun x : Int × α => (toUInt64 x.1, f x.2))
  exact (congrFun (congrFun hcomp _) _).mpr hperm

end Maps

/-! ### The whole configuration -/

section Configuration
variable {mc : MachineConfigurator} (hmc : mc.Ints)
include hmc

theorem isInt_machineMap : ∀ k ∈ mc.machineMap, IsInt k := by
  intro k hk
  obtain ⟨m, hm⟩ := TreeMaps.exists_getElem? hk
  exact mc.machineMap_id k m hm ▸ (hmc.machines k m hm).id

theorem isInt_nodeMap : ∀ k ∈ mc.nodeMap, IsInt k := by
  intro k hk
  obtain ⟨n, hn⟩ := TreeMaps.exists_getElem? hk
  exact mc.nodeMap_id k n hn ▸ (hmc.nodes k n hn).id

theorem insertIfNew_own : (messageMap messageFromMachine mc.machineMap).insertIfNew (toUInt64 mc.machineId) {} =
    messageMap messageFromMachine mc.machineMap := by
  obtain ⟨m, hm⟩ := TreeMaps.exists_getElem? mc.machineId_mem
  have hin := (getElem?_messageMap (f := messageFromMachine) (isInt_machineMap hmc)).mpr ⟨_, m, hm, rfl, rfl⟩
  refine ExtTreeMap.ext_getElem? fun {u} => ?_
  rw [ExtTreeMap.getElem?_insertIfNew, if_neg]
  rintro ⟨-, hnot⟩
  exact hnot (ExtTreeMap.mem_iff_isSome_getElem?.mpr (by rw [hin]; rfl))

omit hmc in
theorem foldl_machines (mc' : MachineConfigurator) {l : List (Int × Machine)}
    (hl : ∀ x ∈ l, IsInt x.1 ∧ x.2.Ints) :
    (l.map fun x => (toUInt64 x.1, messageFromMachine x.2)).foldl (fun mc' (key, msg) =>
      if toInt key ≠ mc.machineId then mc'.addMachine (machineFromMessage msg) else mc') mc' =
    ((l.filter (·.1 ≠ mc.machineId)).map (·.2)).foldl .addMachine mc' := by
  induction l generalizing mc' with
  | nil => rfl
  | cons x l ih =>
    obtain ⟨hx, hm⟩ := hl x (List.mem_cons_self ..)
    have ih := fun mc' => ih mc' fun y hy => hl y (List.mem_cons_of_mem _ hy)
    simp only [List.map_cons, List.foldl_cons, toInt_toUInt64 hx, machineFromMessage_message hm, ih]
    by_cases he : x.1 = mc.machineId
    · simp [he]
    · simp [he]

omit hmc in
theorem foldlM_nodes (mc' : MachineConfigurator) {l : List (Int × ConfigNode)} (hl : ∀ x ∈ l, x.2.Ints) :
    (l.map fun x => (toUInt64 x.1, messageFromRuntimeNode x.2)).foldlM (fun mc' (_, msg) => do
      let node ← runtimeNodeFromMessage msg
      return mc'.addNode node) mc' =
    (.ok ((l.map (·.2)).foldl .addNode mc') : Except UtilError MachineConfigurator) := by
  induction l generalizing mc' with
  | nil => rfl
  | cons x l ih =>
    simp only [List.map_cons, List.foldlM_cons, List.foldl_cons,
      runtimeNodeFromMessage_message (hl x (List.mem_cons_self ..))]
    exact ih _ fun y hy => hl y (List.mem_cons_of_mem _ hy)

theorem machineConfiguratorFromMessage_message {order : MapOrder} {own : Machine}
    (hown : mc.machineMap[mc.machineId]? = some own) {lm : List (Int × Machine)} {ln : List (Int × ConfigNode)}
    (hlm : order.iterate (messageMap messageFromMachine mc.machineMap) =
      lm.map fun x => (toUInt64 x.1, messageFromMachine x.2))
    (hln : order.iterate (messageMap messageFromRuntimeNode mc.nodeMap) =
      ln.map fun x => (toUInt64 x.1, messageFromRuntimeNode x.2))
    (hm : ∀ x ∈ lm, mc.machineMap[x.1]? = some x.2) (hn : ∀ x ∈ ln, mc.nodeMap[x.1]? = some x.2) :
    machineConfiguratorFromMessage order (messageFromMachineConfigurator mc) =
      .ok ((ln.map (·.2)).foldl .addNode
        (((lm.filter (·.1 ≠ mc.machineId)).map (·.2)).foldl .addMachine (.new own))) := by
  have hid : toInt (toUInt64 mc.machineId) = mc.machineId :=
    toInt_toUInt64 (isInt_machineMap hmc _ mc.machineId_mem)
  have hget : machineFromMessage ((messageMap messageFromMachine mc.machineMap).getD (toUInt64 mc.machineId) {}) =
      own := by
    rw [ExtTreeMap.getD_eq_getD_getElem?,
      (getElem?_messageMap (isInt_machineMap hmc)).mpr ⟨_, own, hown, rfl, rfl⟩]
    exact machineFromMessage_message (hmc.machines _ own hown)
  simp only [machineConfiguratorFromMessage, messageFromMachineConfigurator, hid, insertIfNew_own hmc, hget,
    hlm, hln]
  rw [foldl_machines _ fun x hx => ⟨isInt_machineMap hmc _ (TreeMaps.mem_of_getElem? (hm x hx)),
    hmc.machines _ _ (hm x hx)⟩]
  exact foldlM_nodes _ fun x hx => hmc.nodes _ _ (hn x hx)

omit hmc in
theorem getElem?_machineMap_decoded {own : Machine} (hown : mc.machineMap[mc.machineId]? = some own)
    {lm : List (Int × Machine)} (ns : List ConfigNode) (hperm : lm.Perm mc.machineMap.toList) (k : Int) :
    (ns.foldl MachineConfigurator.addNode
      (((lm.filter (·.1 ≠ mc.machineId)).map (·.2)).foldl .addMachine (.new own))).machineMap[k]? =
    mc.machineMap[k]? := by
  have hmem : ∀ x, x ∈ lm ↔ mc.machineMap[x.1]? = some x.2 := fun x =>
    hperm.mem_iff.trans TreeMap.mem_toList_iff_getElem?_eq_some
  have hids : lm.map (·.2.id) = lm.map (·.1) :=
    List.map_congr_left fun x hx => mc.machineMap_id _ _ ((hmem x).mp hx)
  have hnd : (lm.map (·.2.id)).Nodup :=
    hids ▸ (hperm.map _).nodup_iff.mpr (TreeMaps.nodup_map_fst_toList _)
  refine Option.ext fun m => ?_
  rw [(MachineConfigurator.foldl_addNode _ _).2.1, MachineConfigurator.getElem?_machineMap_foldl,
    MachineConfigurator.getElem?_machineMap_new, mc.machineMap_id _ _ hown]
  · simp only [List.mem_map, List.mem_filter, decide_eq_true_eq]
    constructor
    · rintro (h | ⟨-, ⟨x, ⟨hx, -⟩, rfl⟩, rfl⟩)
      · split at h
        · rename_i hk
          rw [← hk, hown, h]
        · cases h
      · have hget := (hmem x).mp hx
        rwa [mc.machineMap_id _ _ hget]
    · intro hm
      by_cases hk : mc.machineId = k
      · rw [if_pos hk]
        exact .inl (hown.symm.trans (hk ▸ hm))
      · exact .inr ⟨if_neg hk, ⟨(k, m), ⟨(hmem (k, m)).mpr hm, Ne.symm hk⟩, rfl⟩, mc.machineMap_id _ _ hm⟩
  · rw [List.map_map]
    exact hnd.sublist (List.filter_sublist.map _)

omit hmc in
theorem getElem?_nodeMap_decoded (own : Machine) (ms : List Machine) {ln : List (Int × ConfigNode)}
    (hperm : ln.Perm mc.nodeMap.toList) (k : Int) :
    ((ln.map (·.2)).foldl MachineConfigurator.addNode (ms.foldl .addMachine (.new own))).nodeMap[k]? =
      mc.nodeMap[k]? := by
  have hmem : ∀ x, x ∈ ln ↔ mc.nodeMap[x.1]? = some x.2 := fun x =>
    hperm.mem_iff.trans TreeMap.mem_toList_iff_getElem?_eq_some
  have hids : ln.map (·.2.id) = ln.map (·.1) :=
    List.map_congr_left fun x hx => mc.nodeMap_id _ _ ((hmem x).mp hx)
  refine Option.ext fun n => ?_
  rw [MachineConfigurator.getElem?_nodeMap_foldl, (MachineConfigurator.foldl_addMachine _ _).2.1]
  · show (∅ : TreeMap Int ConfigNode)[k]? = some n ∨ (∅ : TreeMap Int ConfigNode)[k]? = none ∧ _ ↔ _
    simp only [TreeMap.getElem?_emptyc, reduceCtorEq, false_or, true_and, List.mem_map]
    constructor
    · rintro ⟨⟨x, hx, rfl⟩, rfl⟩
      have hget := (hmem x).mp hx
      rwa [mc.nodeMap_id _ _ hget]
    · exact fun hn => ⟨⟨(k, n), (hmem (k, n)).mpr hn, rfl⟩, mc.nodeMap_id _ _ hn⟩
  · rw [List.map_map]
    exact hids ▸ (hperm.map _).nodup_iff.mpr (TreeMaps.nodup_map_fst_toList _)

/-- What is read back is the configuration that was written. -/
theorem stringToMachineConfigurator_toString {serializeToString : MachineConfiguratorMsg → List UInt8}
    {parseFromString : List UInt8 → MachineConfiguratorMsg} (order : MapOrder)
    (hparse : parseFromString (serializeToString (messageFromMachineConfigurator mc)) =
      messageFromMachineConfigurator mc) :
    ∃ mc', stringToMachineConfigurator parseFromString order
        (machineConfiguratorToString serializeToString mc) = .ok mc' ∧
      mc'.machineId = mc.machineId ∧ (∀ k : Int, mc'.machineMap[k]? = mc.machineMap[k]?) ∧
      ∀ k : Int, mc'.nodeMap[k]? = mc.nodeMap[k]? := by
  obtain ⟨own, hown⟩ := TreeMaps.exists_getElem? mc.machineId_mem
  obtain ⟨lm, hlm, hpm⟩ := iterate_messageMap (f := messageFromMachine) order (isInt_machineMap hmc)
  obtain ⟨ln, hln, hpn⟩ := iterate_messageMap (f := messageFromRuntimeNode) order (isInt_nodeMap hmc)
  have hdec := machineConfiguratorFromMessage_message hmc hown hlm hln
    (fun x hx => TreeMap.mem_toList_iff_getElem?_eq_some.mp (hpm.mem_iff.mp hx))
    (fun x hx => TreeMap.mem_toList_iff_getElem?_eq_some.mp (hpn.mem_iff.mp hx))
  refine ⟨_, (congrArg (machineConfiguratorFromMessage order) hparse).trans hdec, ?_,
    getElem?_machineMap_decoded hown _ hpm, getElem?_nodeMap_decoded own _ hpn⟩
  rw [(MachineConfigurator.foldl_addNode _ _).1, (MachineConfigurator.foldl_addMachine _ _).1]
  exact mc.machineMap_id _ _ hown

omit hmc

/-- Node 1, a proxy on machine 0, whose `machine_id` happens to be -1. -/
def oneProxy : MachineConfigurator :=
  (MachineConfigurator.new { id := 0, ip := "a", nodes := [1] }).addNode
    { id := 1, nf := .proxy, machineId := -1 }

def oneProxyBytes : List UInt8 :=
  [0x12, 10, 0x08, 0, 0x12, 6, 0x12, 1, 97, 0x22, 1, 1,
   0x1A, 19, 0x08, 1, 0x12, 15, 0x08, 1, 0x10, 2, 0x30, 255, 255, 255, 255, 255, 255, 255, 255, 255, 1]

theorem oneProxy_ints : oneProxy.Ints where
  machines k m hm := by
    rw [oneProxy, MachineConfigurator.addNode, MachineConfigurator.getElem?_machineMap_new] at hm
    split at hm
    · cases hm
      exact ⟨by decide, by decide⟩
    · cases hm
  nodes k n hn := by
    rw [oneProxy, MachineConfigurator.addNode, TreeMaps.getElem?_insertIfNew, MachineConfigurator.new] at hn
    simp only [TreeMap.getElem?_emptyc, Option.none_or] at hn
    split at hn
    · cases hn
      exact ⟨by decide, by decide, by decide, by decide, by decide⟩
    · cases hn

theorem stringToMachineConfigurator_oneProxy :
    ∃ mc', stringToMachineConfigurator
        (fun s => if s = oneProxyBytes then messageFromMachineConfigurator oneProxy else {})
        ⟨fun t => t.toList, fun _ => .refl _⟩ (machineConfiguratorToString (fun _ => oneProxyBytes) oneProxy) =
          .ok mc' ∧
      mc'.machineId = oneProxy.machineId ∧ (∀ k : Int, mc'.machineMap[k]? = oneProxy.machineMap[k]?) ∧
      ∀ k : Int, mc'.nodeMap[k]? = oneProxy.nodeMap[k]? :=
  stringToMachineConfigurator_toString oneProxy_ints _ (if_pos rfl)

end Configuration

end DeepNF
