import DeepNF.Merger
import Mathlib.Logic.Function.Basic

/-!
# The threads of the merger (`run_node_thread`, `run_merge_packet`)

One thread for each leaf receives packets: it inserts a packet into `packet_map` under
`packet_map_mutex`, and tests later, without the lock, whether the node map it still points to is
full. A full map starts a detached merge thread, which looks the id up and merges, erases the id under
the mutex and sends. `step` makes one of these steps; a run is a list of actions, in any order, each merge with
what it finds behind its buffers.

A merge writes into the buffers of the packets it has found. The model keeps the packets as they were
received, so what it says a second merge of the same id finds is right in the ids, not in the fields.
-/

namespace DeepNF
open Std (TreeMap)

/-- `ip_header->ip_id` without `ntohs`, the key of `packet_map`. -/
def Packet.rawId (p : Packet) : Int := p.ipId.lo.toNat * 256 + p.ipId.hi.toNat

namespace MergerOperator

/-- How far a merge thread is: from the lookup on it has the packets found and their merge. -/
inductive Phase
  | started
  | merged (thisPktMap : TreeMap Int Packet) (mergedPkt : Packet)
  | erased (thisPktMap : TreeMap Int Packet) (mergedPkt : Packet)
  | sent (thisPktMap : TreeMap Int Packet) (mergedPkt : Packet)

def Phase.found : Phase → Option (TreeMap Int Packet × Packet)
  | .started => none
  | .merged m r | .erased m r | .sent m r => some (m, r)

structure MergeThread where
  packetId : Int
  phase : Phase

/-- `heap` are the node maps that were ever allocated, a pointer is an index. `tests` are the node
threads between the insertion and the test, with the id of the packet and their `this_pkt_map`.
`aborted`: the process has died. -/
structure State where
  heap : List (TreeMap Int Packet) := []
  packetMap : TreeMap Int Nat := ∅
  tests : Int → Option (Int × Nat) := fun _ => none
  merges : List MergeThread := []
  aborted : Bool := false

namespace State

def deref (s : State) (h : Nat) : TreeMap Int Packet := s.heap[h]?.getD ∅

/-- `packet_map.at(id)`, behind the branch that makes a new node map. -/
def nodeMapOf (s : State) (id : Int) : State × Nat :=
  match s.packetMap[id]? with
  | some h => (s, h)
  | none =>
    ({ s with heap := s.heap ++ [∅], packetMap := s.packetMap.insertIfNew id s.heap.length },
      s.heap.length)

/-- The locked part of `run_node_thread`. -/
def insertPacket (s : State) (nodeId : Int) (p : Packet) : State :=
  let (s, thisPktMap) := s.nodeMapOf p.rawId
  { s with
    heap := s.heap.modify thisPktMap (·.insertIfNew nodeId p)
    packetMap := s.packetMap.insertIfNew p.rawId thisPktMap
    tests := Function.update s.tests nodeId (some (p.rawId, thisPktMap)) }

section
variable (s : State) (nodeId : Int) (p : Packet)

theorem insertPacket_tests : (s.insertPacket nodeId p).tests =
    Function.update s.tests nodeId (some (p.rawId, (s.nodeMapOf p.rawId).2)) := by
  simp only [insertPacket, nodeMapOf]
  cases s.packetMap[p.rawId]? <;> rfl

theorem insertPacket_merges : (s.insertPacket nodeId p).merges = s.merges := by
  simp only [insertPacket, nodeMapOf]
  cases s.packetMap[p.rawId]? <;> rfl

theorem insertPacket_aborted : (s.insertPacket nodeId p).aborted = s.aborted := by
  simp only [insertPacket, nodeMapOf]
  cases s.packetMap[p.rawId]? <;> rfl

end

/-- The test behind the unlock. -/
def testSize (mi : MergerInfo) (s : State) (nodeId id : Int) (thisPktMap : Nat) : State :=
  let s' := { s with tests := Function.update s.tests nodeId none }
  if (s.deref thisPktMap).size = mi.numNodes then
    { s' with merges := s.merges ++ [⟨id, .started⟩] }
  else s'

def setPhase (s : State) (t : Nat) (phase : Phase) : State :=
  { s with merges := s.merges.modify t fun mt => { mt with phase } }

/-- `merge_packet`: `at` throws for an id that is not there, and an invalid node id exits; there is
no step if the conflict loop does not end. -/
def lookup (sweeps : Nat) (memory : Memory) (mi : MergerInfo) (s : State) (t : Nat) (id : Int) : Option State :=
  match s.packetMap[id]? with
  | none => some { s with aborted := true }
  | some h =>
    match mergePacket sweeps memory mi (s.deref h) with
    | .ok r => some (s.setPhase t (.merged (s.deref h) r))
    | .error .sweeps => none
    | .error _ => some { s with aborted := true }

end State

inductive Action
  | receive (nodeId : Int) (p : Packet)
  | test (nodeId : Int)
  | lookup (thread : Nat) (memory : Memory)
  | erase (thread : Nat)
  | send (thread : Nat)

/-- A NUL stands behind every buffer that a merge reads. -/
def Action.Clean (a : Action) : Prop := ∀ i memory, a = .lookup i memory → ∀ left, Packet.stray (memory left) = []

/-- One atomic step; `none` if the thread is not at that point. -/
def step (sweeps : Nat) (mi : MergerInfo) (s : State) (a : Action) : Option State :=
  if s.aborted then none
  else
    match a with
    | .receive nodeId p =>
      if nodeId ∈ mi.leaves ∧ s.tests nodeId = none then some (s.insertPacket nodeId p) else none
    | .test nodeId =>
      match s.tests nodeId with
      | some (id, thisPktMap) => some (s.testSize mi nodeId id thisPktMap)
      | none => none
    | .lookup t memory =>
      match s.merges[t]? with
      | some ⟨id, .started⟩ => s.lookup sweeps memory mi t id
      | _ => none
    | .erase t =>
      match s.merges[t]? with
      | some ⟨id, .merged m r⟩ =>
        some ({ s with packetMap := s.packetMap.erase id }.setPhase t (.erased m r))
      | _ => none
    | .send t =>
      -- the socket that the thread has opened stays open; a failing `socket` or `sendto` is not modelled
      match s.merges[t]? with
      | some ⟨_, .erased m r⟩ => some (s.setPhase t (.sent m r))
      | _ => none

def exec (sweeps : Nat) (mi : MergerInfo) (acts : List Action) : Option State :=
  acts.foldlM (step sweeps mi) {}

/-- The run rule: what holds at the start and is kept by every step holds after every run. -/
theorem exec_induction {sweeps : Nat} {mi : MergerInfo} {P : List Action → State → Prop} (h0 : P [] {})
    (hstep : ∀ acts a s s', exec sweeps mi acts = some s → P acts s → step sweeps mi s a = some s' →
      P (acts ++ [a]) s') {acts : List Action} {s : State} (h : exec sweeps mi acts = some s) :
    P acts s := by
  induction acts using List.reverseRecOn generalizing s with
  | nil => cases h; exact h0
  | append_singleton acts a ih =>
    simp only [exec, List.foldlM_append, List.foldlM_cons, List.foldlM_nil, bind_pure] at h
    obtain ⟨s₁, h₁, hs⟩ := Option.bind_eq_some_iff.mp h
    exact hstep acts a s₁ s h₁ (ih h₁) hs

/-! ### What the leaves have delivered -/

def deliveries (acts : List Action) : List (Int × Packet) :=
  acts.filterMap fun
    | .receive nodeId p => some (nodeId, p)
    | _ => none

section
variable (mi : MergerInfo) (ds : List (Int × Packet))

def OncePerLeaf : Prop := (ds.map fun x => (x.1, x.2.rawId)).Nodup

instance : Decidable (OncePerLeaf ds) := inferInstanceAs (Decidable (List.Nodup _))

def Delivered (nodeId id : Int) : Prop := ∃ p, (nodeId, p) ∈ ds ∧ p.rawId = id

def Complete (id : Int) : Prop := ∀ k ∈ mi.leaves, Delivered ds k id

/-- `m` has exactly the packets delivered for `id`. -/
def Collects (id : Int) (m : TreeMap Int Packet) : Prop :=
  ∀ (k : Int) (p : Packet), m[k]? = some p ↔ (k, p) ∈ ds ∧ p.rawId = id

/-- A merge of the packets in `m` may return `r`. -/
def MergesTo (sweeps : Nat) (m : TreeMap Int Packet) (r : Packet) : Prop :=
  ∃ memory, mergePacket sweeps memory mi m = .ok r

end

end MergerOperator
end DeepNF
