import DeepNF.InnerWrites

/-!
# The order of the conflict list

The conflict list comes out of two hash maps, and the parent of an item out of a set of pointers; a `Layout`
fixes both orders. The leaves do not depend on it, the merged packet does: an item that fires takes two packets
away from all other items, and may find the id of its parent taken.
-/

namespace DeepNF
open Std (TreeMap)

section
variable {actionTable : ActionTable} {u : UserInput} {ly ly' : Layout u.functions.length} {o o' : Orchestrator}

theorem mem_leaves_congr (h : Orchestrator.construct actionTable u ly = .ok o)
    (h' : Orchestrator.construct actionTable u ly' = .ok o') {k : Int} :
    k ∈ o.mergerInfo.leaves ↔ k ∈ o'.mergerInfo.leaves := by
  rw [mem_leaves_iff h, mem_leaves_iff h']
  simp only [(construct_assembled h).edge_congr (construct_assembled h')]

theorem PacketsOf.congr {m : TreeMap Int Packet} (h : Orchestrator.construct actionTable u ly = .ok o)
    (h' : Orchestrator.construct actionTable u ly' = .ok o') (hm : CompleteMap o.mergerInfo m) :
    CompleteMap o'.mergerInfo m :=
  ⟨fun k => (hm.mem_iff k).trans (mem_leaves_congr h h'), hm.isNull⟩

end

end DeepNF
