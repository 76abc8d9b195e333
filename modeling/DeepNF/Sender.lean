import DeepNF.MergeRuns

/-!
# From the sender to the merger (`src/runtime/nf_configs/pktgen/pkt_sender.cpp`)

`pktSender` is the sending loop of `main`. Its packets go through the network functions to the leaves
(`Emits`), and a run of the merger may be fed with any of them, in any order: what is lost does not
occur in the run. The loop numbers its packets with ids of 16 bits, so the packets of two iterations
can have one id. `exec_oneIteration_iff` says when the merger keeps them apart.
-/

namespace DeepNF
open Std (TreeMap)

/-- The packet of iteration `i`: `(int)pow(2, 15) + i` is cut to 16 bits by `htons`. -/
def senderPacket (i : Nat) : Packet :=
  .make "173.16.1.2" 800 "173.16.1.4" 800 (32768 + i) ("hello" ++ toString i).toUTF8.toList

/-- The loop over `num_packets` and the addresses: what is sent to whom, with the iteration. -/
def pktSender (numPackets : Int) (addresses : List Int) : List (Nat × Int × Packet) :=
  (List.range numPackets.toNat).flatMap fun i => addresses.map fun addr => (i, addr, senderPacket i)

theorem mem_pktSender {numPackets : Int} {addresses : List Int} {i : Nat} {addr : Int} {p : Packet} :
    (i, addr, p) ∈ pktSender numPackets addresses ↔
      (i : Int) < numPackets ∧ addr ∈ addresses ∧ p = senderPacket i := by
  simp only [pktSender, List.mem_flatMap, List.mem_range, List.mem_map, Prod.mk.injEq]
  constructor
  · rintro ⟨i, hi, addr, ha, rfl, rfl, rfl⟩
    exact ⟨by omega, ha, rfl⟩
  · rintro ⟨hi, ha, rfl⟩
    exact ⟨i, by omega, addr, ha, rfl, rfl, rfl⟩

theorem Packet.rawId_eq_iff {p q : Packet} : p.rawId = q.rawId ↔ p.ipId = q.ipId := by
  constructor
  · intro h
    have h₁ := p.ipId.lo.toNat_lt
    have h₂ := p.ipId.hi.toNat_lt
    have h₃ := q.ipId.lo.toNat_lt
    have h₄ := q.ipId.hi.toNat_lt
    refine ntohs_inj ?_
    simp only [Packet.rawId, ntohs] at h ⊢
    omega
  · intro h
    simp only [Packet.rawId, h]

theorem senderPacket_rawId {i j : Nat} :
    (senderPacket i).rawId = (senderPacket j).rawId ↔ i % 65536 = j % 65536 := by
  simp only [Packet.rawId_eq_iff, senderPacket, Packet.ipId_make]
  constructor
  · intro h
    have h' := congrArg ntohs h
    rw [ntohs_htons, ntohs_htons] at h'
    omega
  · intro h
    refine ntohs_inj ?_
    rw [ntohs_htons, ntohs_htons]
    omega

/-! ### Through the service graph -/

/-- What an instance of a network function may send on for a packet; it may keep a state, so this need
not be the same each time. The id is kept, and a drop is a null packet. -/
structure NetworkFunction where
  answers : Packet → Packet → Prop
  total : ∀ p, ∃ q, answers p q
  keepsId : ∀ {p q}, answers p q → q.ipId = p.ipId

def MergerInfo.Forwards (mi : MergerInfo) (u v : Int) : Prop :=
  ∃ rn, mi.nodeMap[u]? = some rn ∧ v ∈ rn.neighbors

inductive MergerInfo.Sourced (mi : MergerInfo) : Int → Prop
  | generated {u v : Int} {rn : RuntimeNode} : mi.nodeMap[u]? = some rn → rn.nf = .pktgen →
      v ∈ rn.neighbors → mi.Sourced v
  | forwarded {u v : Int} : mi.Sourced u → mi.Forwards u v → mi.Sourced v

section
variable (mi : MergerInfo) (nfs : Int → NetworkFunction) (numPackets : Int)

/-- `p` is a packet that the node sends on for iteration `i`. -/
inductive Emits (i : Nat) : Int → Packet → Prop
  | generated {u v : Int} {rn : RuntimeNode} {p q : Packet} : mi.nodeMap[u]? = some rn → rn.nf = .pktgen →
      (i, v, p) ∈ pktSender numPackets rn.neighbors → (nfs v).answers p q → Emits i v q
  | forwarded {u v : Int} {p q : Packet} : Emits i u p → mi.Forwards u v → (nfs v).answers p q →
      Emits i v q

/-- The packets of two leaves do not stem from two iterations. -/
def OneIteration (m : TreeMap Int Packet) : Prop :=
  ∀ k k' p p', k ≠ k' → m[k]? = some p → m[k']? = some p' →
    ∀ i j, Emits mi nfs numPackets i k p → Emits mi nfs numPackets j k' p' → i = j

/-- The leaves deliver what they send on, any part of it in any order. -/
def Feeds (ds : List (Int × Packet)) : Prop := ∀ k p, (k, p) ∈ ds → ∃ i, Emits mi nfs numPackets i k p

end

section
variable {mi : MergerInfo} {nfs : Int → NetworkFunction} {numPackets : Int} {i j : Nat} {k : Int} {p : Packet}

theorem Emits.lt (h : Emits mi nfs numPackets i k p) : (i : Int) < numPackets := by
  induction h with
  | generated _ _ hs _ => exact (mem_pktSender.mp hs).1
  | forwarded _ _ _ ih => exact ih

theorem Emits.ipId (h : Emits mi nfs numPackets i k p) : p.ipId = (senderPacket i).ipId := by
  induction h with
  | generated _ _ hs hq =>
    obtain ⟨-, -, rfl⟩ := mem_pktSender.mp hs
    exact (nfs _).keepsId hq
  | forwarded _ _ hq ih => exact ((nfs _).keepsId hq).trans ih

theorem Emits.rawId (h : Emits mi nfs numPackets i k p) : p.rawId = (senderPacket i).rawId :=
  Packet.rawId_eq_iff.mpr h.ipId

theorem Emits.sourced (h : Emits mi nfs numPackets i k p) : mi.Sourced k := by
  induction h with
  | generated hu hpk hs _ => exact .generated hu hpk (mem_pktSender.mp hs).2.1
  | forwarded _ hf _ ih => exact .forwarded ih hf

theorem MergerInfo.Sourced.emits (h : mi.Sourced k) (hi : (i : Int) < numPackets) :
    ∃ p, Emits mi nfs numPackets i k p := by
  induction h with
  | @generated u v rn hu hpk hv =>
    obtain ⟨q, hq⟩ := (nfs v).total (senderPacket i)
    exact ⟨q, .generated hu hpk (mem_pktSender.mpr ⟨hi, hv, rfl⟩) hq⟩
  | @forwarded u v _ hf ih =>
    obtain ⟨p, hp⟩ := ih
    obtain ⟨q, hq⟩ := (nfs v).total p
    exact ⟨q, .forwarded hp hf hq⟩

theorem Emits.iteration_eq {k' : Int} {p' : Packet} (hn : numPackets ≤ 65536)
    (h : Emits mi nfs numPackets i k p) (h' : Emits mi nfs numPackets j k' p')
    (hid : p.rawId = p'.rawId) : i = j := by
  have hi := h.lt
  have hj := h'.lt
  rw [h.rawId, h'.rawId, senderPacket_rawId] at hid
  omega

end

/-! ### In the merger -/

namespace MergerOperator

variable {sweeps : Nat} {mi : MergerInfo} {ds : List (Int × Packet)} {s s' : State} {n : Int} {p : Packet}

def State.Merges (s : State) (m : TreeMap Int Packet) : Prop :=
  ∃ t ∈ s.merges, (∃ r, t.phase.found = some (m, r)) ∨
    t.phase = .started ∧ ∃ h, s.packetMap[t.packetId]? = some h ∧ m = s.deref h

/-- Every leaf has its own port and has delivered something. -/
structure Full (mi : MergerInfo) (ds : List (Int × Packet)) : Prop where
  nodup : mi.leaves.Nodup
  delivered : ∀ k ∈ mi.leaves, ∃ p, (k, p) ∈ ds

/-- The node maps hold delivered packets, those in `packet_map` under their id; no two ids share a node
map. Unlike `Inv`, this also holds when a leaf delivers an id again. -/
structure Sorted (mi : MergerInfo) (ds : List (Int × Packet)) (s : State) : Prop where
  heap : ∀ (h : Nat) (k : Int) (p : Packet), (s.deref h)[k]? = some p → (k, p) ∈ ds ∧ k ∈ mi.leaves
  alloc : ∀ (id : Int) (h : Nat), s.packetMap[id]? = some h → h < s.heap.length
  entry : ∀ (id : Int) (h : Nat), s.packetMap[id]? = some h →
    ∀ (k : Int) (p : Packet), (s.deref h)[k]? = some p → p.rawId = id
  inj : ∀ (id id' : Int) (h : Nat), s.packetMap[id]? = some h → s.packetMap[id']? = some h → id = id'
  full : ∀ t ∈ s.merges, Full mi ds
  found : ∀ t ∈ s.merges, ∀ m r, t.phase.found = some (m, r) →
    ∀ (k : Int) (p : Packet), m[k]? = some p → (k, p) ∈ ds ∧ k ∈ mi.leaves ∧ p.rawId = t.packetId

theorem Full.mono {es : List (Int × Packet)} (h : Full mi ds) : Full mi (ds ++ es) :=
  ⟨h.nodup, fun k hk => (h.delivered k hk).imp fun _ => List.mem_append_left _⟩

theorem Full.of_size {m : TreeMap Int Packet} (hm : ∀ k p, m[k]? = some p → (k, p) ∈ ds ∧ k ∈ mi.leaves)
    (hsize : m.size = mi.numNodes) : Full mi ds := by
  have hsub : m.keys ⊆ mi.leaves := by
    intro k hk
    obtain ⟨p, hp⟩ := TreeMaps.exists_getElem? (TreeMap.mem_keys.mp hk)
    exact (hm k p hp).2
  have hperm : m.keys.Perm mi.leaves := by
    refine (List.subperm_of_subset (TreeMaps.nodup_keys m) hsub).perm_of_length_le ?_
    rw [TreeMap.length_keys, hsize, mi.numNodes_eq]
  refine ⟨hperm.nodup_iff.mp (TreeMaps.nodup_keys m), fun k hk => ?_⟩
  obtain ⟨p, hp⟩ := TreeMaps.exists_getElem? (TreeMap.mem_keys.mp (hperm.mem_iff.mpr hk))
  exact ⟨p, (hm k p hp).1⟩

namespace Sorted

theorem init : Sorted mi [] {} where
  heap := by intro h k p hp; simp [State.deref] at hp
  alloc := by intro id h he; simp at he
  entry := by intro id h he; simp at he
  inj := by intro id id' h he; simp at he
  full := by intro t ht; cases ht
  found := by intro t ht; cases ht

theorem mono (hs : Sorted mi ds s) (es : List (Int × Packet)) : Sorted mi (ds ++ es) s where
  heap h k p hp := (hs.heap h k p hp).imp_left (List.mem_append_left _)
  alloc := hs.alloc
  entry := hs.entry
  inj := hs.inj
  full t ht := (hs.full t ht).mono
  found t ht m r hf k p hp := (hs.found t ht m r hf k p hp).imp_left (List.mem_append_left _)

theorem nodeMapOf (hs : Sorted mi ds s) (id : Int) :
    Sorted mi ds (s.nodeMapOf id).1 ∧ (s.nodeMapOf id).1.packetMap[id]? = some (s.nodeMapOf id).2 := by
  cases he : s.packetMap[id]? with
  | some h =>
    rw [State.nodeMapOf, he]
    exact ⟨hs, he⟩
  | none =>
    obtain ⟨hnew, hlen, hmap, hderef⟩ := State.nodeMapOf_new he
    have hmerges : (s.nodeMapOf id).1.merges = s.merges := by rw [State.nodeMapOf, he]
    refine ⟨⟨fun h k p hp => hs.heap h k p (by rwa [hderef] at hp), fun j h hj => ?_, fun j h hj k p hp => ?_,
      fun j j' h hj hj' => ?_, hmerges ▸ hs.full, hmerges ▸ hs.found⟩, by rw [hmap, if_pos rfl, hnew]⟩
    · rw [hmap] at hj
      rw [hlen]
      split at hj
      · cases hj; omega
      · have := hs.alloc j h hj
        omega
    · rw [hmap] at hj
      rw [hderef] at hp
      split at hj
      · cases hj; simp [State.deref] at hp
      · exact hs.entry j h hj k p hp
    · rw [hmap] at hj hj'
      split at hj <;> split at hj'
      · subst id; assumption
      · cases hj
        exact absurd (hs.alloc j' _ hj') (Nat.lt_irrefl _)
      · cases hj'
        exact absurd (hs.alloc j _ hj) (Nat.lt_irrefl _)
      · exact hs.inj j j' h hj hj'

theorem insertPacket (hs : Sorted mi ds s) (hn : n ∈ mi.leaves) :
    Sorted mi (ds ++ [(n, p)]) (s.insertPacket n p) := by
  obtain ⟨h₁, he⟩ := hs.nodeMapOf p.rawId
  generalize hs₁ : s.nodeMapOf p.rawId = x at h₁ he
  obtain ⟨s₁, h⟩ := x
  dsimp only at h₁ he
  obtain ⟨hlen, hmap, hat⟩ := State.insertPacket_at (n := n) hs₁ (h₁.alloc _ _ he) he
  have hmerges : (s.insertPacket n p).merges = s₁.merges := by rw [State.insertPacket, hs₁]
  have hderef : ∀ g k q, ((s.insertPacket n p).deref g)[k]? = some q →
      (s₁.deref g)[k]? = some q ∨ g = h ∧ k = n ∧ q = p := by
    intro g k q hq
    rw [hat] at hq
    split at hq
    · rw [TreeMaps.getElem?_insertIfNew, Option.or_eq_some_iff] at hq
      rcases hq with hq | ⟨-, hq⟩
      · exact .inl hq
      · split at hq
        · cases hq; exact .inr ⟨Eq.symm ‹_›, Eq.symm ‹_›, rfl⟩
        · cases hq
    · exact .inl hq
  refine ⟨fun g k q hq => ?_, fun j g hj => ?_, fun j g hj k q hq => ?_, fun j j' g hj hj' => ?_,
    hmerges ▸ (h₁.mono _).full, hmerges ▸ (h₁.mono _).found⟩
  · rcases hderef g k q hq with hq | ⟨-, rfl, rfl⟩
    · exact (h₁.heap g k q hq).imp_left (List.mem_append_left _)
    · exact ⟨by simp, hn⟩
  · rw [hlen]
    exact h₁.alloc j g (by rwa [hmap] at hj)
  · rw [hmap] at hj
    rcases hderef g k q hq with hq | ⟨rfl, -, rfl⟩
    · exact h₁.entry j g hj k q hq
    · exact h₁.inj _ _ _ he hj
  · rw [hmap] at hj hj'
    exact h₁.inj j j' g hj hj'

theorem testSize (hs : Sorted mi ds s) (id : Int) (h : Nat) : Sorted mi ds (s.testSize mi n id h) := by
  unfold State.testSize
  split
  · rename_i hsize
    refine ⟨hs.heap, hs.alloc, hs.entry, hs.inj, fun t ht => ?_, fun t ht m r hf => ?_⟩
    · rcases List.mem_append.mp ht with ht | ht
      · exact hs.full t ht
      · exact Full.of_size (hs.heap h) hsize
    · rcases List.mem_append.mp ht with ht | ht
      · exact hs.found t ht m r hf
      · obtain rfl := List.mem_singleton.mp ht
        cases hf
  · exact ⟨hs.heap, hs.alloc, hs.entry, hs.inj, hs.full, hs.found⟩

theorem setPhase (hs : Sorted mi ds s) {i : Nat} {t : MergeThread} (ht : s.merges[i]? = some t) {ph : Phase}
    (hph : ∀ m r, ph.found = some (m, r) → ∀ (k : Int) (p : Packet), m[k]? = some p →
      (k, p) ∈ ds ∧ k ∈ mi.leaves ∧ p.rawId = t.packetId) : Sorted mi ds (s.setPhase i ph) := by
  refine ⟨hs.heap, hs.alloc, hs.entry, hs.inj, fun t' ht' => ?_, fun t' ht' m r hf => ?_⟩
  · obtain ⟨t₀, ht₀, -⟩ := mem_setPhase ht'
    exact hs.full t₀ ht₀
  · obtain ⟨j, hj⟩ := List.mem_iff_getElem?.mp ht'
    rw [getElem?_setPhase, Option.map_eq_some_iff] at hj
    obtain ⟨t₀, ht₀, rfl⟩ := hj
    by_cases hij : i = j
    · subst hij
      obtain rfl := Option.some.inj (ht.symm.trans ht₀)
      rw [if_pos rfl] at hf ⊢
      exact hph m r hf
    · rw [if_neg hij] at hf ⊢
      exact hs.found t₀ (List.mem_of_getElem? ht₀) m r hf

theorem erase (hs : Sorted mi ds s) (id : Int) : Sorted mi ds { s with packetMap := s.packetMap.erase id } := by
  have hmap : ∀ (j : Int) (h : Nat), (s.packetMap.erase id)[j]? = some h → s.packetMap[j]? = some h := by
    intro j h hj
    rw [TreeMap.getElem?_erase] at hj
    split at hj
    · cases hj
    · exact hj
  exact ⟨hs.heap, fun j h hj => hs.alloc j h (hmap j h hj), fun j h hj => hs.entry j h (hmap j h hj),
    fun j j' h hj hj' => hs.inj j j' h (hmap j h hj) (hmap j' h hj'), hs.full, hs.found⟩

theorem of_step {acts : List Action} {a : Action} (hi : Sorted mi (deliveries acts) s)
    (hs : step sweeps mi s a = some s') : Sorted mi (deliveries (acts ++ [a])) s' := by
  obtain ⟨-, hs⟩ := step_cases hs
  cases a with
  | receive n p =>
    obtain ⟨hn, -, rfl⟩ := hs
    rw [deliveries_receive]
    exact hi.insertPacket hn
  | test n =>
    obtain ⟨id, h, -, rfl⟩ := hs
    rw [deliveries_append (by simp)]
    exact hi.testSize id h
  | lookup i =>
    rw [deliveries_append (by simp)]
    obtain ⟨id, ht, ⟨-, rfl⟩ | ⟨h, he, ⟨e, -, rfl⟩ | ⟨r, -, rfl⟩⟩⟩ := hs
    · exact ⟨hi.heap, hi.alloc, hi.entry, hi.inj, hi.full, hi.found⟩
    · exact ⟨hi.heap, hi.alloc, hi.entry, hi.inj, hi.full, hi.found⟩
    · refine hi.setPhase ht fun m r hf k p hp => ?_
      cases hf
      obtain ⟨hd, hk⟩ := hi.heap h k p hp
      exact ⟨hd, hk, hi.entry id h he k p hp⟩
  | erase i =>
    obtain ⟨id, m, r, ht, rfl⟩ := hs
    rw [deliveries_append (by simp)]
    refine (hi.erase id).setPhase (t := ⟨id, .merged m r⟩) ht fun m' r' hf => ?_
    exact hi.found _ (List.mem_of_getElem? ht) m' r' hf
  | send i =>
    obtain ⟨id, m, r, ht, rfl⟩ := hs
    rw [deliveries_append (by simp)]
    exact hi.setPhase ht fun m' r' hf => hi.found _ (List.mem_of_getElem? ht) m' r' hf

theorem merges (hs : Sorted mi ds s) {m : TreeMap Int Packet} (hm : s.Merges m) :
    Full mi ds ∧ ∃ id, ∀ (k : Int) (p : Packet), m[k]? = some p →
      (k, p) ∈ ds ∧ k ∈ mi.leaves ∧ p.rawId = id := by
  obtain ⟨t, ht, ⟨r, hr⟩ | ⟨-, h, he, rfl⟩⟩ := hm
  · exact ⟨hs.full t ht, t.packetId, hs.found t ht m r hr⟩
  · refine ⟨hs.full t ht, t.packetId, fun k p hp => ?_⟩
    obtain ⟨hd, hk⟩ := hs.heap h k p hp
    exact ⟨hd, hk, hs.entry _ h he k p hp⟩

end Sorted

theorem exec_sorted {acts : List Action} (h : exec sweeps mi acts = some s) : Sorted mi (deliveries acts) s :=
  exec_induction (P := fun acts s => Sorted mi (deliveries acts) s) Sorted.init
    (fun _ _ _ _ _ hi hs => hi.of_step hs) h

/-! ### A run that merges given packets -/

theorem exec_snoc {acts : List Action} {a : Action} (h : exec sweeps mi acts = some s)
    (hs : step sweeps mi s a = some s') : exec sweeps mi (acts ++ [a]) = some s' := by
  simp only [exec, List.foldlM_append, List.foldlM_cons, List.foldlM_nil, bind_pure]
  exact Option.bind_eq_some_iff.mpr ⟨s, h, hs⟩

theorem exec_receives {ds : List (Int × Packet)} (hnd : (ds.map (·.1)).Nodup)
    (hds : ∀ x ∈ ds, x.1 ∈ mi.leaves) :
    ∃ acts s, deliveries acts = ds ∧ exec sweeps mi acts = some s ∧ s.aborted = false ∧ s.merges = [] ∧
      ∀ k, s.tests k = none ↔ k ∉ ds.map (·.1) := by
  induction ds using List.reverseRecOn with
  | nil => exact ⟨[], {}, rfl, rfl, rfl, rfl, fun k => by simp⟩
  | append_singleton ds x ih =>
    rw [List.map_append, List.map_singleton] at hnd
    obtain ⟨acts, s, hdel, hs, hab, hm, ht⟩ :=
      ih hnd.of_append_left fun y hy => hds y (List.mem_append_left _ hy)
    have hx : x.1 ∉ ds.map (·.1) := fun h => List.disjoint_of_nodup_append hnd h (by simp)
    have hn : x.1 ∈ mi.leaves := hds x (by simp)
    have hnone : s.tests x.1 = none := (ht x.1).mpr hx
    refine ⟨acts ++ [.receive x.1 x.2], s.insertPacket x.1 x.2, by rw [deliveries_receive, hdel], ?_,
      (s.insertPacket_aborted _ _).trans hab, (s.insertPacket_merges _ _).trans hm, fun k => ?_⟩
    · exact exec_snoc hs (by simp [step, hab, hn, hnone])
    · rw [State.insertPacket_tests, List.map_append, List.map_singleton, List.mem_append, not_or, ← ht k,
        List.mem_singleton]
      by_cases hk : k = x.1
      · subst hk; simp
      · rw [Function.update_of_ne hk]
        exact ⟨fun h => ⟨h, hk⟩, fun h => h.1⟩

theorem exec_gathers (hnd : mi.leaves.Nodup) (hne : mi.leaves ≠ []) {f : Int → Packet} {id : Int}
    (hf : ∀ k ∈ mi.leaves, (f k).rawId = id) :
    ∃ acts s m, deliveries acts = mi.leaves.map (fun k => (k, f k)) ∧ exec sweeps mi acts = some s ∧
      s.Merges m ∧ ∀ k ∈ mi.leaves, m[k]? = some (f k) := by
  obtain ⟨k₀, hk₀⟩ := List.exists_mem_of_ne_nil _ hne
  have hfst : (mi.leaves.map fun k => (k, f k)).map (·.1) = mi.leaves := by
    simp [List.map_map, Function.comp_def]
  have hds : ∀ x ∈ mi.leaves.map fun k => (k, f k), x.1 ∈ mi.leaves := by
    intro x hx
    obtain ⟨k, hk, rfl⟩ := List.mem_map.mp hx
    exact hk
  obtain ⟨acts, s, hdel, hs, hab, hmerges, htests⟩ := exec_receives (hfst.symm ▸ hnd) hds
  have ho : OncePerLeaf (deliveries acts) := by
    rw [hdel, OncePerLeaf, List.map_map]
    refine hnd.map fun k k' h => ?_
    exact congrArg Prod.fst h
  have hi := exec_inv hnd ho hs
  have hmem : ∀ {k p}, (k, p) ∈ deliveries acts ↔ k ∈ mi.leaves ∧ p = f k := by
    intro k p
    simp only [hdel, List.mem_map, Prod.mk.injEq]
    constructor
    · rintro ⟨_, hk, rfl, hp⟩
      exact ⟨hk, hp.symm⟩
    · rintro ⟨hk, hp⟩
      exact ⟨k, hk, rfl, hp.symm⟩
  have hall : ∀ k ∈ mi.leaves, Delivered (deliveries acts) k id := fun k hk =>
    ⟨f k, hmem.mpr ⟨hk, rfl⟩, hf k hk⟩
  obtain ⟨⟨id', h⟩, ht⟩ : ∃ x, s.tests k₀ = some x := by
    refine Option.ne_none_iff_exists'.mp fun hn => ?_
    rw [htests, hfst] at hn
    exact hn hk₀
  obtain ⟨hh, ⟨p, hp, rfl⟩, -⟩ := hi.test k₀ id' h ht
  obtain rfl := (hmem.mp hp).2
  obtain rfl := hf k₀ hk₀
  obtain ⟨g, hg⟩ : ∃ g, s.packetMap[(f k₀).rawId]? = some g := by
    refine Option.ne_none_iff_exists'.mp fun hn => ?_
    obtain ⟨t, ht, -⟩ := hi.erased k₀ _ (hall k₀ hk₀) hn
    rw [hmerges] at ht; cases ht
  have hsize := (hi.size_eq hnd hh).mpr fun k hk => hall k hk
  refine ⟨acts ++ [.test k₀], s.testSize mi k₀ (f k₀).rawId h, s.deref g, ?_, ?_, ?_, fun k hk => ?_⟩
  · rw [deliveries_append (by simp), hdel]
  · exact exec_snoc hs (by simp [step, hab, ht])
  · refine ⟨⟨(f k₀).rawId, .started⟩, ?_, .inr ⟨rfl, g, ?_, ?_⟩⟩
    · simp [State.testSize, hsize]
    · rw [testSize_packetMap, hg]
    · simp only [State.testSize, hsize, if_true]; rfl
  · exact ((hi.entry _ g hg).collects k (f k)).mpr ⟨hmem.mpr ⟨hk, rfl⟩, hf k hk⟩

/-! ### Packets of different originals -/

/-- A merge can start: every leaf has its own port and a packet generator above it. -/
def Completable (mi : MergerInfo) : Prop := mi.leaves.Nodup ∧ ∀ k ∈ mi.leaves, mi.Sourced k

/-- Where the id comes round again, there is a run that merges packets of different iterations: one leaf delivers
its first packet, the others one that comes `2^16` iterations later. -/
theorem exec_mixes {nfs : Int → NetworkFunction} {numPackets : Int} (hn : 65536 < numPackets)
    (hlen : 1 < mi.leaves.length) (hcomp : Completable mi) :
    ∃ acts s m, Feeds mi nfs numPackets (deliveries acts) ∧ exec sweeps mi acts = some s ∧ s.Merges m ∧
      ¬ OneIteration mi nfs numPackets m := by
  obtain ⟨hnd, hsrc⟩ := hcomp
  obtain ⟨k, k', rest, hl⟩ : ∃ k k' rest, mi.leaves = k :: k' :: rest := by
    match mi.leaves, hlen with
    | k :: k' :: rest, _ => exact ⟨k, k', rest, rfl⟩
  have hk : k ∈ mi.leaves := by simp [hl]
  have hk' : k' ∈ mi.leaves := by simp [hl]
  have hne : k ≠ k' := by
    rw [hl] at hnd
    rintro rfl
    simp at hnd
  -- `k` delivers its first packet, the others the next one with the same id
  let it : Int → Nat := fun l => if l = k then 0 else 65536
  have hem : ∀ l ∈ mi.leaves, ∃ p, Emits mi nfs numPackets (it l) l p := fun l hl =>
    (hsrc l hl).emits (by simp only [it]; split <;> omega)
  have : Nonempty Packet := ⟨senderPacket 0⟩
  choose! f hf using hem
  have hid : ∀ l ∈ mi.leaves, (f l).rawId = (senderPacket 0).rawId := fun l hl => by
    rw [(hf l hl).rawId, senderPacket_rawId]
    simp only [it]; split <;> rfl
  obtain ⟨acts, s, m, hdel, hs, hm, hfound⟩ := exec_gathers hnd (by simp [hl]) hid
  refine ⟨acts, s, m, fun l p hp => ?_, hs, hm, fun hone => ?_⟩
  · rw [hdel] at hp
    obtain ⟨l', hl', heq⟩ := List.mem_map.mp hp
    cases heq
    exact ⟨it l, hf l hl'⟩
  · have hsame := hone k k' _ _ hne (hfound k hk) (hfound k' hk') _ _ (hf k hk) (hf k' hk')
    simp [it, hne.symm] at hsame

/-- Packets of different iterations are kept apart, in every run, if and only if the 16 bits of the id
are enough for all of them, or there is nothing to be merged. -/
theorem exec_oneIteration_iff {nfs : Int → NetworkFunction} {numPackets : Int} :
    (∀ acts s, Feeds mi nfs numPackets (deliveries acts) → exec sweeps mi acts = some s →
      ∀ m, s.Merges m → OneIteration mi nfs numPackets m) ↔
    numPackets ≤ 65536 ∨ mi.leaves.length ≤ 1 ∨ ¬ Completable mi := by
  constructor
  · intro h
    by_contra hcon
    push Not at hcon
    obtain ⟨hn, hlen, hcomp⟩ := hcon
    obtain ⟨acts, s, m, hfeeds, hs, hm, hmixed⟩ := exec_mixes hn hlen hcomp
    exact hmixed (h acts s hfeeds hs m hm)
  · intro hcond acts s hfeeds hs m hm k k' p p' hne hp hp' i j hi hj
    obtain ⟨hfull, id, hid⟩ := (exec_sorted hs).merges hm
    obtain ⟨-, hk, hpid⟩ := hid k p hp
    obtain ⟨-, hk', hpid'⟩ := hid k' p' hp'
    rcases hcond with hn | hlen | hcomp
    · exact hi.iteration_eq hn hj (hpid.trans hpid'.symm)
    · refine absurd ?_ hne
      match hl : mi.leaves, hlen with
      | [], _ => rw [hl] at hk; cases hk
      | [l], _ =>
        rw [hl, List.mem_singleton] at hk hk'
        exact hk.trans hk'.symm
    · refine absurd ⟨hfull.nodup, fun l hl => ?_⟩ hcomp
      obtain ⟨q, hq⟩ := hfull.delivered l hl
      obtain ⟨_, hem⟩ := hfeeds l q hq
      exact hem.sourced

/-- A packet generator in front of a firewall and a load balancer. -/
def generatorInfo : MergerInfo where
  portToNodeMap := .ofList ([(8002, 1), (8003, 2)] : List (Int × Int))
  conflictsList := []
  nodeMap := .ofList ([(0, { id := 0, nf := .pktgen, neighbors := [1, 2] }),
    (1, { id := 1, nf := .dnfFirewall }), (2, { id := 2, nf := .dnfLoadbalancer })] : List (Int × RuntimeNode))
  destIp := "127.0.0.1"
  destPort := 9999

def relay : NetworkFunction where
  answers p q := q = p
  total p := ⟨p, rfl⟩
  keepsId h := congrArg Packet.ipId h

/-- With one packet more than there are ids, the first packet, of which the firewall's copy came through
and the load balancer's was lost, is merged with the load balancer's copy of the last one. -/
theorem exec_oneIteration_wrapped : ∃ acts s m,
    Feeds generatorInfo (fun _ => relay) 65537 (deliveries acts) ∧ exec 2 generatorInfo acts = some s ∧
    s.Merges m ∧ m[(1 : Int)]? = some (senderPacket 0) ∧ m[(2 : Int)]? = some (senderPacket 65536) ∧
    ¬ OneIteration generatorInfo (fun _ => relay) 65537 m := by
  have hleaves : generatorInfo.leaves = [1, 2] := by decide
  have hem : ∀ (i : Nat) (k : Int), i < 65537 → k ∈ generatorInfo.leaves →
      Emits generatorInfo (fun _ => relay) 65537 i k (senderPacket i) := by
    intro i k hi hk
    have h0 : generatorInfo.nodeMap[(0 : Int)]? = some { id := 0, nf := .pktgen, neighbors := [1, 2] } := by
      decide
    refine .generated h0 rfl (mem_pktSender.mpr ⟨by omega, ?_, rfl⟩) rfl
    rwa [hleaves] at hk
  have hid : ∀ k ∈ generatorInfo.leaves,
      (senderPacket (if k = 1 then 0 else 65536)).rawId = (senderPacket 0).rawId := by
    intro k _
    rw [senderPacket_rawId]
    split <;> rfl
  have hnd : generatorInfo.leaves.Nodup := by rw [hleaves]; decide
  obtain ⟨acts, s, m, hdel, hs, hm, hfound⟩ := exec_gathers hnd (by rw [hleaves]; simp) hid
  have h₁ : (1 : Int) ∈ generatorInfo.leaves := by rw [hleaves]; decide
  have h₂ : (2 : Int) ∈ generatorInfo.leaves := by rw [hleaves]; decide
  refine ⟨acts, s, m, fun k p hp => ?_, hs, hm, hfound 1 h₁, hfound 2 h₂, fun h => ?_⟩
  · rw [hdel] at hp
    obtain ⟨k', hk', heq⟩ := List.mem_map.mp hp
    cases heq
    exact ⟨_, hem _ k (by split <;> omega) hk'⟩
  · have := h 1 2 _ _ (by decide) (hfound 1 h₁) (hfound 2 h₂) 0 65536 (hem 0 1 (by omega) h₁)
      (hem 65536 2 (by omega) h₂)
    cases this

end MergerOperator
end DeepNF
