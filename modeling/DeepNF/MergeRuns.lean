import DeepNF.NullPackets
import DeepNF.ThreadsInv

/-!
# Which merges a run starts

No completed packet is forgotten and no incomplete one is merged (`exec_noneForgotten`). That a packet
is merged once only does not follow: the test for a full map is made behind the unlock, so two leaves
can both find it full, and the second merge thread may look up an id that the first has erased. It
holds in the runs in which the last packet of an id arrives when no test for it is pending
(`exec_mergesOnce`).
-/

namespace DeepNF.MergerOperator
open Std (TreeMap)

variable {sweeps : Nat} {mi : MergerInfo} {acts : List Action} {ds : List (Int × Packet)} {s s' : State}

/-! ### No completed packet is forgotten -/

/-- What the state `s` after the run `acts` and every step from it respect. -/
structure NoneForgotten (sweeps : Nat) (mi : MergerInfo) (acts : List Action) (s : State) : Prop where
  /-- A merge is started for an id only behind the insertions of all leaves. -/
  started : ∀ a s', step sweeps mi s a = some s' → ∀ i t, s.merges.length ≤ i → s'.merges[i]? = some t →
    Complete mi (deliveries acts) t.packetId
  /-- The first merge to look an id up sees exactly one packet of every leaf, all with that id. -/
  lookup : ∀ i memory id s', s.merges[i]? = some ⟨id, .started⟩ →
    (∀ t ∈ s.merges, t.packetId = id → t.phase.found = none) → step sweeps mi s (.lookup i memory) = some s' →
    ∃ (h : Nat) (m : TreeMap Int Packet), s.packetMap[id]? = some h ∧ s.heap[h]? = some m ∧
      (∀ k, k ∈ m ↔ k ∈ mi.leaves) ∧ Collects (deliveries acts) id m ∧
      (s'.aborted = true ∨ ∃ r, s'.merges[i]? = some ⟨id, .merged m r⟩)
  /-- If no test is pending, every complete id has had a merge started. -/
  triggered : (∀ k, s.tests k = none) → ∀ k id, Delivered (deliveries acts) k id →
    Complete mi (deliveries acts) id → ∃ t ∈ s.merges, t.packetId = id
  /-- Only a complete id is erased. -/
  erased : ∀ a s', step sweeps mi s a = some s' → ∀ id ∈ s.packetMap, id ∉ s'.packetMap →
    Complete mi (deliveries acts) id

theorem mem_insertPacket (n : Int) (p : Packet) {id : Int} (h : id ∈ s.packetMap) :
    id ∈ (s.insertPacket n p).packetMap := by
  simp only [State.insertPacket, State.nodeMapOf]
  cases s.packetMap[p.rawId]? <;> simp [TreeMap.mem_insertIfNew, h]

theorem testSize_packetMap (n id : Int) (h : Nat) : (s.testSize mi n id h).packetMap = s.packetMap := by
  unfold State.testSize; split <;> rfl

theorem length_setPhase (i : Nat) (ph : Phase) : (s.setPhase i ph).merges.length = s.merges.length := by
  simp [State.setPhase]

theorem Inv.started (hnd : mi.leaves.Nodup) (hi : Inv mi ds s) {a : Action}
    (hs : step sweeps mi s a = some s') {i : Nat} {t : MergeThread} (hlen : s.merges.length ≤ i)
    (ht : s'.merges[i]? = some t) : Complete mi ds t.packetId := by
  have hlt := (List.getElem?_eq_some_iff.mp ht).1
  obtain ⟨-, hs⟩ := step_cases hs
  cases a with
  | receive n p =>
    obtain ⟨-, -, rfl⟩ := hs
    rw [State.insertPacket_merges] at hlt; omega
  | test n =>
    obtain ⟨id, h, hn, rfl⟩ := hs
    have hh := (hi.test n id h hn).1
    unfold State.testSize at ht hlt
    split at ht
    · rename_i hsize
      rw [List.getElem?_append_right hlen, List.getElem?_singleton] at ht
      split at ht
      · cases ht; exact (hi.size_eq hnd hh).mp hsize
      · cases ht
    · exact absurd (List.getElem?_eq_some_iff.mp ht).1 (by simpa using hlen)
  | lookup i' =>
    obtain ⟨id, -, ⟨-, rfl⟩ | ⟨h, -, ⟨e, -, rfl⟩ | ⟨r, -, rfl⟩⟩⟩ := hs
    · exact absurd hlt (Nat.not_lt.mpr hlen)
    · exact absurd hlt (Nat.not_lt.mpr hlen)
    · rw [length_setPhase] at hlt; omega
  | erase i' =>
    obtain ⟨id, m, r, -, rfl⟩ := hs
    rw [length_setPhase] at hlt
    exact absurd hlt (Nat.not_lt.mpr hlen)
  | send i' =>
    obtain ⟨id, m, r, -, rfl⟩ := hs
    rw [length_setPhase] at hlt; omega

theorem Inv.present (hi : Inv mi ds s) {t : MergeThread} (ht : t ∈ s.merges)
    (hf : ∀ t' ∈ s.merges, t'.packetId = t.packetId → t'.phase.found = none) :
    ∃ h : Nat, s.packetMap[t.packetId]? = some h := by
  obtain ⟨-, k, hk⟩ := hi.thread t ht
  cases he : s.packetMap[t.packetId]? with
  | some h => exact ⟨h, rfl⟩
  | none =>
    obtain ⟨t', ht', hid, hsome⟩ := hi.erased k _ hk he
    rw [hf t' ht' hid] at hsome; cases hsome

theorem Inv.lookup (hi : Inv mi ds s) {i : Nat} {memory : Memory} {id : Int} (ht : s.merges[i]? = some ⟨id, .started⟩)
    (hf : ∀ t ∈ s.merges, t.packetId = id → t.phase.found = none)
    (hs : step sweeps mi s (.lookup i memory) = some s') :
    ∃ (h : Nat) (m : TreeMap Int Packet), s.packetMap[id]? = some h ∧ s.heap[h]? = some m ∧
      (∀ k, k ∈ m ↔ k ∈ mi.leaves) ∧ Collects ds id m ∧
      (s'.aborted = true ∨ ∃ r, s'.merges[i]? = some ⟨id, .merged m r⟩) := by
  have hmem := List.mem_of_getElem? ht
  obtain ⟨h, he⟩ := hi.present hmem hf
  have hh := hi.entry id h he
  refine ⟨h, s.deref h, he, ?_, fun k => ?_, hh.collects, ?_⟩
  · rw [State.deref, List.getElem?_eq_getElem hh.alloc, Option.getD_some]
  · rw [hh.collects.mem_iff]
    exact ⟨hi.leaf k id, (hi.thread _ hmem).1 k⟩
  · obtain ⟨-, id', ht', ⟨-, rfl⟩ | ⟨h', he', ⟨e, -, rfl⟩ | ⟨r, -, rfl⟩⟩⟩ := step_cases hs
    · exact .inl rfl
    · exact .inl rfl
    · rw [ht] at ht'; cases ht'
      dsimp only at he
      rw [he] at he'; cases he'
      exact .inr ⟨r, by simp [getElem?_setPhase, ht]⟩

theorem Inv.only_complete_erased (hi : Inv mi ds s) {a : Action} (hs : step sweeps mi s a = some s') {id : Int}
    (hid : id ∈ s.packetMap) (hid' : id ∉ s'.packetMap) : Complete mi ds id := by
  obtain ⟨-, hs⟩ := step_cases hs
  cases a with
  | receive n p =>
    obtain ⟨-, -, rfl⟩ := hs
    exact absurd (mem_insertPacket n p hid) hid'
  | test n =>
    obtain ⟨id', h, -, rfl⟩ := hs
    rw [testSize_packetMap] at hid'
    exact absurd hid hid'
  | lookup i =>
    obtain ⟨id', -, ⟨-, rfl⟩ | ⟨h, -, ⟨e, -, rfl⟩ | ⟨r, -, rfl⟩⟩⟩ := hs <;> exact absurd hid hid'
  | erase i =>
    obtain ⟨id', m, r, ht, rfl⟩ := hs
    have hc := (hi.thread _ (List.mem_of_getElem? ht)).1
    have : id' = id := by
      by_contra hne
      exact hid' (TreeMap.mem_erase.mpr ⟨by simpa using hne, hid⟩)
    exact this ▸ hc
  | send i =>
    obtain ⟨id', m, r, -, rfl⟩ := hs
    exact absurd hid hid'

/-- No completed packet is forgotten and no incomplete one is merged, whatever the order of the
steps. -/
theorem exec_noneForgotten (hnd : mi.leaves.Nodup) (ho : OncePerLeaf (deliveries acts))
    (h : exec sweeps mi acts = some s) : NoneForgotten sweeps mi acts s := by
  have hi := exec_inv hnd ho h
  refine ⟨fun a s' hs i t hlen ht => hi.started hnd hs hlen ht, fun i memory id s' ht hf hs => hi.lookup ht hf hs,
    fun hidle k id hk hc => ?_, fun a s' hs id hid hid' => hi.only_complete_erased hs hid hid'⟩
  refine (hi.trigger k id hk hc).resolve_right ?_
  rintro ⟨k', g, hk'⟩
  rw [hidle k'] at hk'; cases hk'

/-- Two leaves that insert before either tests: two merges of one id, the second of which looks up
what the first has erased. -/
def race : List Action :=
  [.receive 0 hello, .receive 1 hello, .test 0, .test 1, .lookup 0 .clean, .erase 0, .lookup 1 .clean]

theorem exec_noneForgotten_race : ∃ s, exec 2 getDummyMergerInfo race = some s ∧
    NoneForgotten 2 getDummyMergerInfo race s := by
  obtain ⟨s, hs⟩ := Option.isSome_iff_exists.mp
    (by decide : (exec 2 getDummyMergerInfo race).isSome)
  exact ⟨s, hs, exec_noneForgotten (by decide) (by decide) hs⟩

/-! ### A packet is merged once, if its last insertion meets no pending test -/

/-- Inserting the packet of leaf `n` completes `id`. -/
def Completes (mi : MergerInfo) (ds : List (Int × Packet)) (n id : Int) : Prop :=
  ∀ k ∈ mi.leaves, k = n ∨ Delivered ds k id

/-- The condition on one step, from the state `s` that the run `acts` has led to. -/
def CalmStep (mi : MergerInfo) (acts : List Action) (s : State) (a : Action) : Prop :=
  ∀ n p, a = .receive n p → Completes mi (deliveries acts) n p.rawId →
    ∀ k h, s.tests k ≠ some (p.rawId, h)

def Calm (sweeps : Nat) (mi : MergerInfo) (acts : List Action) : Prop :=
  ∀ i a, acts[i]? = some a → ∀ s, exec sweeps mi (acts.take i) = some s → CalmStep mi (acts.take i) s a

theorem Calm.of_snoc {a : Action} (h : Calm sweeps mi (acts ++ [a])) :
    Calm sweeps mi acts ∧ ∀ s, exec sweeps mi acts = some s → CalmStep mi acts s a := by
  refine ⟨fun i b hb s hs => ?_, fun s hs => ?_⟩
  · have hi := (List.getElem?_eq_some_iff.mp hb).1
    have htake : (acts ++ [a]).take i = acts.take i := List.take_append_of_le_length (by omega)
    exact htake ▸ h i b (by rw [List.getElem?_append_left hi, hb]) s (htake ▸ hs)
  · have htake : (acts ++ [a]).take acts.length = acts := by simp
    exact htake ▸ h acts.length a (by simp) s (htake.symm ▸ hs)

/-- What the condition adds to `Inv`: one merge thread or one pending test for a complete id. -/
structure Single (sweeps : Nat) (mi : MergerInfo) (ds : List (Int × Packet)) (s : State) : Prop where
  alive : s.aborted = false
  nodup : (s.merges.map (·.packetId)).Nodup
  test : ∀ id, Complete mi ds id → ∀ k h k' h', s.tests k = some (id, h) → s.tests k' = some (id, h') → k = k'
  excl : ∀ t ∈ s.merges, ∀ k h, s.tests k ≠ some (t.packetId, h)
  found : ∀ t ∈ s.merges, ∀ m r, t.phase.found = some (m, r) →
    Collects ds t.packetId m ∧ MergesTo mi sweeps m r

theorem Single.init : Single sweeps mi [] {} where
  alive := rfl
  nodup := .nil
  test := by intro id _ k h k' h' hk; cases hk
  excl := by intro t ht; cases ht
  found := by intro t ht; cases ht

theorem tests_insertPacket {n : Int} {p : Packet} {k id : Int} {h : Nat}
    (hk : (s.insertPacket n p).tests k = some (id, h)) :
    k = n ∧ id = p.rawId ∨ k ≠ n ∧ s.tests k = some (id, h) := by
  rw [State.insertPacket_tests] at hk
  by_cases hkn : k = n
  · subst hkn
    rw [Function.update_self, Option.some.injEq, Prod.mk.injEq] at hk
    exact .inl ⟨rfl, hk.1.symm⟩
  · exact .inr ⟨hkn, by rwa [Function.update_of_ne hkn] at hk⟩

theorem Single.receive {n : Int} {p : Packet} (hi : Inv mi ds s) (hu : Single sweeps mi ds s)
    (ho : OncePerLeaf (ds ++ [(n, p)])) (hn : n ∈ mi.leaves)
    (hcalm : Completes mi ds n p.rawId → ∀ k h, s.tests k ≠ some (p.rawId, h)) :
    Single sweeps mi (ds ++ [(n, p)]) (s.insertPacket n p) := by
  have hne : ∀ t ∈ s.merges, p.rawId ≠ t.packetId := fun t ht heq =>
    ho.fresh (heq ▸ (hi.thread t ht).1 n hn)
  have hold : ∀ {k id}, p.rawId ≠ id → Delivered (ds ++ [(n, p)]) k id → Delivered ds k id :=
    fun hid hk => (delivered_receive.mp hk).resolve_right fun h => hid h.2
  refine ⟨?_, ?_, fun id hc k h k' h' hk hk' => ?_, fun t ht k h hk => ?_, fun t ht m r hf => ?_⟩
  · rw [State.insertPacket_aborted]; exact hu.alive
  · rw [State.insertPacket_merges]; exact hu.nodup
  · by_cases hid : p.rawId = id
    · subst hid
      have hno := hcalm fun k hk => ((delivered_receive.mp (hc k hk)).imp_right (·.1)).symm
      rcases tests_insertPacket hk with ⟨rfl, -⟩ | ⟨-, hk⟩
      · rcases tests_insertPacket hk' with ⟨rfl, -⟩ | ⟨-, hk'⟩
        exacts [rfl, absurd hk' (hno k' h')]
      · exact absurd hk (hno k h)
    · have hk := (tests_insertPacket hk).resolve_left fun h => hid h.2.symm
      have hk' := (tests_insertPacket hk').resolve_left fun h => hid h.2.symm
      exact hu.test id (fun k hk => hold hid (hc k hk)) k h k' h' hk.2 hk'.2
  · rw [State.insertPacket_merges] at ht
    rcases tests_insertPacket hk with ⟨-, hid⟩ | ⟨-, hk⟩
    exacts [hne t ht hid.symm, hu.excl t ht k h hk]
  · rw [State.insertPacket_merges] at ht
    obtain ⟨hm, hr⟩ := hu.found t ht m r hf
    exact ⟨hm.receive (hne t ht), hr⟩

theorem Single.testSize (hnd : mi.leaves.Nodup) (hi : Inv mi ds s) (hu : Single sweeps mi ds s) {n id : Int}
    {h : Nat} (ht : s.tests n = some (id, h)) : Single sweeps mi ds (s.testSize mi n id h) := by
  have htests : ∀ k x, Function.update s.tests n none k = some x → k ≠ n ∧ s.tests k = some x := by
    intro k x hk
    by_cases hkn : k = n
    · subst hkn; simp at hk
    · rw [Function.update_of_ne hkn] at hk
      exact ⟨hkn, hk⟩
  unfold State.testSize
  split
  · rename_i hsize
    have hc := (hi.size_eq hnd (hi.test n id h ht).1).mp hsize
    refine ⟨hu.alive, ?_, fun j hc' k g k' g' hk hk' => ?_, fun t htm k g hk => ?_, fun t htm m r hf => ?_⟩
    · rw [List.map_append, List.nodup_append]
      refine ⟨hu.nodup, by simp, fun x hx y hy => ?_⟩
      obtain ⟨t, htm, rfl⟩ := List.mem_map.mp hx
      obtain rfl : y = id := by simpa using hy
      exact fun heq => hu.excl t htm n h (heq ▸ ht)
    · exact hu.test j hc' k g k' g' (htests k _ hk).2 (htests k' _ hk').2
    · obtain ⟨hkn, hk⟩ := htests k _ hk
      rcases List.mem_append.mp htm with htm | htm
      · exact hu.excl t htm k g hk
      · obtain rfl := List.mem_singleton.mp htm
        exact hkn (hu.test id hc k g n h hk ht)
    · rcases List.mem_append.mp htm with htm | htm
      · exact hu.found t htm m r hf
      · obtain rfl := List.mem_singleton.mp htm
        cases hf
  · exact ⟨hu.alive, hu.nodup,
      fun j hc' k g k' g' hk hk' => hu.test j hc' k g k' g' (htests k _ hk).2 (htests k' _ hk').2,
      fun t htm k g hk => hu.excl t htm k g (htests k _ hk).2, hu.found⟩

theorem map_packetId_setPhase (i : Nat) (ph : Phase) :
    (s.setPhase i ph).merges.map (·.packetId) = s.merges.map (·.packetId) := by
  refine List.ext_getElem? fun j => ?_
  rw [List.getElem?_map, List.getElem?_map, getElem?_setPhase, Option.map_map]
  congr 1
  funext t
  dsimp only [Function.comp]
  split <;> rfl

theorem Single.setPhase (hu : Single sweeps mi ds s) {i : Nat} {t : MergeThread} {m : TreeMap Int Packet}
    {r : Packet} {ph : Phase} (ht : s.merges[i]? = some t) (hph : ph.found = some (m, r))
    (hm : Collects ds t.packetId m ∧ MergesTo mi sweeps m r) :
    Single sweeps mi ds (s.setPhase i ph) := by
  refine ⟨hu.alive, ?_, hu.test, fun t' ht' k h => ?_, fun t' ht' m' r' hf => ?_⟩
  · rw [map_packetId_setPhase]; exact hu.nodup
  · obtain ⟨t₀, ht₀, hid⟩ := mem_setPhase ht'
    exact hid ▸ hu.excl t₀ ht₀ k h
  · obtain ⟨j, hj⟩ := List.mem_iff_getElem?.mp ht'
    rw [getElem?_setPhase, Option.map_eq_some_iff] at hj
    obtain ⟨t₀, ht₀, rfl⟩ := hj
    split at hf
    · subst i
      rw [ht] at ht₀; cases ht₀
      rw [hph] at hf; cases hf
      rw [if_pos rfl]; exact hm
    · rw [if_neg ‹_›]
      exact hu.found t₀ (List.mem_of_getElem? ht₀) m' r' hf

/-- The configuration that the orchestrator is to hand over: every leaf is a node, every conflict
item names two of them, and the conflict loop may make a sweep for each leaf. -/
structure Configured (sweeps : Nat) (mi : MergerInfo) : Prop where
  nodup : mi.leaves.Nodup
  items : ∀ ci ∈ mi.conflictsList, ci.major ≠ ci.minor
  nodes : ∀ k ∈ mi.leaves, k ∈ mi.nodeMap
  sweeps : mi.numNodes ≤ sweeps

theorem Configured.mergePacket (hcfg : Configured sweeps mi) (hi : Inv mi ds s) {id : Int} {h : Nat}
    (hh : Holds ds s id h) (memory : Memory) : ∃ r, mergePacket sweeps memory mi (s.deref h) = .ok r := by
  have hmem : ∀ k ∈ s.deref h, k ∈ mi.leaves := fun k hk => hi.leaf k id (hh.collects.mem_iff.mp hk)
  have hle : (s.deref h).size ≤ mi.numNodes := mi.numNodes_eq ▸ TreeMaps.size_le_length hmem
  obtain ⟨k, hk⟩ := hh.nonempty
  obtain ⟨r, hr, -⟩ := mergePacket_isNull hcfg.items
    (TreeMaps.size_pos_iff.mpr ⟨k, hh.collects.mem_iff.mpr hk⟩) (fun k hk => hcfg.nodes k (hmem k hk))
    (hle.trans hcfg.sweeps)
  exact ⟨r, hr⟩

theorem Single.present (hi : Inv mi ds s) (hu : Single sweeps mi ds s) {i : Nat} {id : Int}
    (ht : s.merges[i]? = some ⟨id, .started⟩) : ∃ h : Nat, s.packetMap[id]? = some h := by
  refine hi.present (List.mem_of_getElem? ht) fun t' ht' hid => ?_
  rw [List.inj_on_of_nodup_map hu.nodup ht' (List.mem_of_getElem? ht) hid]
  rfl

theorem Single.of_step (hcfg : Configured sweeps mi) (hi : Inv mi (deliveries acts) s)
    (hu : Single sweeps mi (deliveries acts) s) {a : Action} (ho : OncePerLeaf (deliveries (acts ++ [a])))
    (hcalm : CalmStep mi acts s a) (hs : step sweeps mi s a = some s') :
    Single sweeps mi (deliveries (acts ++ [a])) s' := by
  obtain ⟨-, hs⟩ := step_cases hs
  cases a with
  | receive n p =>
    obtain ⟨hn, -, rfl⟩ := hs
    rw [deliveries_receive] at ho ⊢
    exact hu.receive hi ho hn (hcalm n p rfl)
  | test n =>
    obtain ⟨id, h, ht, rfl⟩ := hs
    rw [deliveries_append (by simp)]
    exact hu.testSize hcfg.nodup hi ht
  | lookup i memory =>
    rw [deliveries_append (by simp)]
    obtain ⟨id, ht, ⟨he, -⟩ | ⟨h, he, ⟨e, hr, -⟩ | ⟨r, hr, rfl⟩⟩⟩ := hs
    · obtain ⟨h, he'⟩ := hu.present hi ht
      rw [he] at he'; cases he'
    · obtain ⟨r, hr'⟩ := hcfg.mergePacket hi (hi.entry id h he) memory
      rw [hr] at hr'; cases hr'
    · exact hu.setPhase ht rfl ⟨(hi.entry id h he).collects, memory, hr⟩
  | erase i =>
    obtain ⟨id, m, r, ht, rfl⟩ := hs
    rw [deliveries_append (by simp)]
    exact Single.setPhase (s := { s with packetMap := s.packetMap.erase id })
      ⟨hu.alive, hu.nodup, hu.test, hu.excl, hu.found⟩ ht rfl
      (hu.found _ (List.mem_of_getElem? ht) m r rfl)
  | send i =>
    obtain ⟨id, m, r, ht, rfl⟩ := hs
    rw [deliveries_append (by simp)]
    exact hu.setPhase ht rfl (hu.found _ (List.mem_of_getElem? ht) m r rfl)

theorem exec_single (hcfg : Configured sweeps mi) (ho : OncePerLeaf (deliveries acts))
    (hcalm : Calm sweeps mi acts) (h : exec sweeps mi acts = some s) :
    Single sweeps mi (deliveries acts) s := by
  refine exec_induction (P := fun acts s => OncePerLeaf (deliveries acts) → Calm sweeps mi acts →
    Single sweeps mi (deliveries acts) s) (fun _ _ => Single.init)
    (fun acts a s s' hrun ih hs ho hcalm => ?_) h ho hcalm
  exact (ih ho.of_snoc hcalm.of_snoc.1).of_step hcfg (exec_inv hcfg.nodup ho.of_snoc hrun) ho
    (hcalm.of_snoc.2 s hrun) hs

def State.Idle (s : State) : Prop :=
  (∀ k, s.tests k = none) ∧ ∀ t ∈ s.merges, ∃ m r, t.phase = .sent m r

def Phase.sent? : Phase → Option (TreeMap Int Packet × Packet)
  | .sent m r => some (m, r)
  | _ => none

def State.mergesOf (s : State) (id : Int) : List MergeThread := s.merges.filter (·.packetId = id)

/-- The packets sent for an id, each behind the packets it was made of. -/
def State.sentFor (s : State) (id : Int) : List (TreeMap Int Packet × Packet) :=
  (s.mergesOf id).filterMap (·.phase.sent?)

theorem Single.mergesOf_le (hu : Single sweeps mi ds s) (id : Int) : (s.mergesOf id).length ≤ 1 := by
  have hc := List.nodup_iff_count_le_one.mp hu.nodup id
  rw [List.count_eq_countP, List.countP_map, List.countP_eq_length_filter] at hc
  simpa [State.mergesOf, Function.comp_def, BEq.beq] using hc

theorem Single.mergesOf_eq (hu : Single sweeps mi ds s) {t : MergeThread} (ht : t ∈ s.merges) :
    s.mergesOf t.packetId = [t] := by
  have hmem : t ∈ s.mergesOf t.packetId := List.mem_filter.mpr ⟨ht, by simp⟩
  have hle := hu.mergesOf_le t.packetId
  match h : s.mergesOf t.packetId with
  | [] => rw [h] at hmem; cases hmem
  | [t'] => rw [h] at hmem; rw [List.mem_singleton.mp hmem]
  | _ :: _ :: _ => rw [h] at hle; simp at hle

/-- In a state that is not idle some thread other than a receiving one can take a step. -/
theorem Single.progress (hcfg : Configured sweeps mi) (hi : Inv mi ds s) (hu : Single sweeps mi ds s)
    (hidle : ¬ s.Idle) : ∃ a, ((∀ n p, a ≠ .receive n p) ∧ a.Clean) ∧ (step sweeps mi s a).isSome := by
  rw [State.Idle, not_and_or] at hidle
  rcases hidle with htest | hthread
  · push Not at htest
    obtain ⟨k, hk⟩ := htest
    obtain ⟨x, hx⟩ := Option.ne_none_iff_exists'.mp hk
    exact ⟨.test k, by simp [Action.Clean], by simp [step, hu.alive, hx]⟩
  · push Not at hthread
    obtain ⟨⟨id, ph⟩, htm, hph⟩ := hthread
    obtain ⟨i, ht⟩ := List.mem_iff_getElem?.mp htm
    cases ph with
    | started =>
      obtain ⟨h, he⟩ := hu.present hi ht
      obtain ⟨r, hr⟩ := hcfg.mergePacket hi (hi.entry id h he) Memory.clean
      refine ⟨.lookup i .clean, ⟨by simp, ?_⟩, by simp [step, hu.alive, ht, State.lookup, he, hr]⟩
      rintro _ _ ⟨⟩ left
      rfl
    | merged m r => exact ⟨.erase i, by simp [Action.Clean], by simp [step, hu.alive, ht]⟩
    | erased m r => exact ⟨.send i, by simp [Action.Clean], by simp [step, hu.alive, ht]⟩
    | sent m r => exact absurd rfl (hph m r)

/-- In a run whose steps all meet the condition each id is merged at most once, the lookup never
fails, and once all threads are through exactly one packet has been sent for each complete id: the
merge of the packets its leaves have delivered. -/
theorem exec_mergesOnce (hcfg : Configured sweeps mi) (ho : OncePerLeaf (deliveries acts))
    (hcalm : Calm sweeps mi acts) (h : exec sweeps mi acts = some s) :
    s.aborted = false ∧ (∀ id, (s.mergesOf id).length ≤ 1 ∧ (s.sentFor id).length ≤ 1) ∧
      (s.Idle → ∀ k id, Delivered (deliveries acts) k id → Complete mi (deliveries acts) id →
        ∃ m r, s.sentFor id = [(m, r)] ∧ Collects (deliveries acts) id m ∧ MergesTo mi sweeps m r) ∧
      (¬ s.Idle → ∃ a, (∀ n p, a ≠ .receive n p) ∧ (step sweeps mi s a).isSome) := by
  have hi := exec_inv hcfg.nodup ho h
  have hu := exec_single hcfg ho hcalm h
  refine ⟨hu.alive, fun id => ⟨hu.mergesOf_le id, ?_⟩, fun hidle k id hk hc => ?_, fun hidle => ?_⟩
  · exact (List.length_filterMap_le ..).trans (hu.mergesOf_le id)
  · obtain ⟨t, ht, rfl⟩ := (hi.trigger k id hk hc).resolve_right (by
      rintro ⟨k', g, hk'⟩; rw [hidle.1 k'] at hk'; cases hk')
    obtain ⟨m, r, hph⟩ := hidle.2 t ht
    obtain ⟨hm, hr⟩ := hu.found t ht m r (by rw [hph]; rfl)
    exact ⟨m, r, by simp [State.sentFor, hu.mergesOf_eq ht, hph, Phase.sent?], hm, hr⟩
  · obtain ⟨a, ⟨ha, -⟩, hsome⟩ := hu.progress hcfg hi hidle
    exact ⟨a, ha, hsome⟩

theorem configured_dummy : Configured 2 getDummyMergerInfo where
  nodup := by decide
  items := by decide
  nodes := by decide
  sweeps := by decide

/-- The condition fails in `race`: the process dies, although each leaf delivers one packet. If both
threads look the id up first, two packets are sent. -/
theorem race_aborted : OncePerLeaf (deliveries race) ∧ Configured 2 getDummyMergerInfo ∧
    (∃ s, exec 2 getDummyMergerInfo race = some s ∧ s.aborted = true ∧
      (s.mergesOf hello.rawId).length = 2) ∧
    ∃ s, exec 2 getDummyMergerInfo (race.take 4 ++
        [.lookup 0 .clean, .lookup 1 .clean, .erase 0, .erase 1, .send 0, .send 1]) = some s ∧
      (s.sentFor hello.rawId).length = 2 := by
  refine ⟨by decide, configured_dummy, ?_, ?_⟩
  · obtain ⟨s, hs⟩ := Option.isSome_iff_exists.mp
      (by decide : (exec 2 getDummyMergerInfo race).isSome)
    have h : (exec 2 getDummyMergerInfo race).map
        (fun s => (s.aborted, (s.mergesOf hello.rawId).length)) = some (true, 2) := by decide
    rw [hs] at h
    simp only [Option.map_some, Option.some.injEq, Prod.mk.injEq] at h
    exact ⟨s, hs, h⟩
  · obtain ⟨s, hs⟩ := Option.isSome_iff_exists.mp (by decide : (exec 2 getDummyMergerInfo
      (race.take 4 ++ [.lookup 0 .clean, .lookup 1 .clean, .erase 0, .erase 1, .send 0, .send 1])).isSome)
    have h : (exec 2 getDummyMergerInfo (race.take 4 ++
        [.lookup 0 .clean, .lookup 1 .clean, .erase 0, .erase 1, .send 0, .send 1])).map
        (fun s => (s.sentFor hello.rawId).length) = some 2 := by decide
    rw [hs] at h
    exact ⟨s, hs, by simpa using h⟩

theorem exec_mergesOnce_dummy : ∃ s, exec 2 getDummyMergerInfo
      [.receive 0 hello, .test 0, .receive 1 hello, .test 1, .lookup 0 .clean, .erase 0, .send 0] = some s ∧
    s.aborted = false ∧ (s.sentFor hello.rawId).length ≤ 1 := by
  obtain ⟨s, hs⟩ := Option.isSome_iff_exists.mp (by decide : (exec 2 getDummyMergerInfo
    [.receive 0 hello, .test 0, .receive 1 hello, .test 1, .lookup 0 .clean, .erase 0, .send 0]).isSome)
  have hcalm : Calm 2 getDummyMergerInfo
      [.receive 0 hello, .test 0, .receive 1 hello, .test 1, .lookup 0 .clean, .erase 0, .send 0] := by
    intro i a ha s hs n p hap hc k h hk
    subst hap
    match i, ha with
    | 0, ha =>
      cases ha
      obtain ⟨q, hq, -⟩ := (hc 1 (by decide)).resolve_left (by decide)
      cases hq
    | 2, ha =>
      cases ha
      obtain ⟨-, ⟨q, hq, -⟩, -⟩ := (exec_inv (by decide) (by decide) hs).test k _ h hk
      have hk0 : k = 0 := congrArg Prod.fst (List.mem_singleton.mp hq)
      have h0 : (exec 2 getDummyMergerInfo [.receive 0 hello, .test 0]).map (·.tests 0) = some none := by
        decide
      rw [show exec 2 getDummyMergerInfo [.receive 0 hello, .test 0] = some s from hs, hk0.symm] at h0
      rw [Option.map_some, hk] at h0
      cases h0
    | i + 3, ha =>
      have hmem : Action.receive n p ∈ [.test 1, .lookup 0 .clean, .erase 0, .send 0] :=
        List.mem_of_getElem? (i := i) ha
      simp at hmem
  obtain ⟨h₁, h₂, -⟩ := exec_mergesOnce configured_dummy (by decide) hcalm hs
  exact ⟨s, hs, h₁, (h₂ _).2⟩

end DeepNF.MergerOperator
