import DeepNF.Threads
import DeepNF.TreeMaps

/-!
# The invariant of the merger's threads

`Inv` ties `packet_map`, the pointers that the node threads keep after the unlock and the merge
threads to the packets delivered so far. One lemma for each kind of step shows that it is kept
(`Inv.of_step`), so it holds after every run (`exec_inv`).
-/

namespace DeepNF.MergerOperator
open Std (TreeMap)

variable {sweeps : Nat} {mi : MergerInfo} {ds : List (Int × Packet)} {s s' : State} {n : Int} {p : Packet}

/-! ### Deliveries -/

@[simp] theorem deliveries_receive (acts : List Action) :
    deliveries (acts ++ [.receive n p]) = deliveries acts ++ [(n, p)] := by
  simp [deliveries]

theorem deliveries_append {acts : List Action} {a : Action} (ha : ∀ n p, a ≠ .receive n p) :
    deliveries (acts ++ [a]) = deliveries acts := by
  cases a with
  | receive n p => exact absurd rfl (ha n p)
  | _ => simp [deliveries]

theorem OncePerLeaf.of_append {es : List (Int × Packet)} (h : OncePerLeaf (ds ++ es)) :
    OncePerLeaf ds := by
  rw [OncePerLeaf, List.map_append] at h
  exact h.of_append_left

theorem OncePerLeaf.fresh (h : OncePerLeaf (ds ++ [(n, p)])) : ¬ Delivered ds n p.rawId := by
  rintro ⟨q, hq, hid⟩
  rw [OncePerLeaf, List.map_append] at h
  refine List.disjoint_of_nodup_append h (List.mem_map_of_mem hq) ?_
  simp [hid]

theorem delivered_receive {n k id : Int} {p : Packet} :
    Delivered (ds ++ [(n, p)]) k id ↔ Delivered ds k id ∨ k = n ∧ p.rawId = id := by
  simp only [Delivered, List.mem_append, List.mem_singleton, Prod.mk.injEq]
  constructor
  · rintro ⟨q, hq | ⟨rfl, rfl⟩, h⟩
    exacts [.inl ⟨q, hq, h⟩, .inr ⟨rfl, h⟩]
  · rintro (⟨q, hq, h⟩ | ⟨rfl, h⟩)
    exacts [⟨q, .inl hq, h⟩, ⟨p, .inr ⟨rfl, rfl⟩, h⟩]

theorem Complete.receive {n id : Int} {p : Packet} (h : Complete mi ds id) :
    Complete mi (ds ++ [(n, p)]) id :=
  fun k hk => delivered_receive.mpr (.inl (h k hk))

theorem Collects.mem_iff {id k : Int} {m : TreeMap Int Packet} (h : Collects ds id m) :
    k ∈ m ↔ Delivered ds k id := by
  rw [TreeMap.mem_iff_isSome_getElem?, Option.isSome_iff_exists]
  exact exists_congr fun p => h k p

theorem Collects.id_eq {id id' k : Int} {m : TreeMap Int Packet} (h : Collects ds id m)
    (h' : Collects ds id' m) (hk : Delivered ds k id) : id = id' := by
  obtain ⟨p, hp, rfl⟩ := hk
  exact ((h' k p).mp ((h k p).mpr ⟨hp, rfl⟩)).2

theorem Collects.insert {n : Int} {p : Packet} {m : TreeMap Int Packet} (h : Collects ds p.rawId m)
    (hn : ¬ Delivered ds n p.rawId) :
    Collects (ds ++ [(n, p)]) p.rawId (m.insertIfNew n p) := by
  intro k q
  have hnone : m[n]? = none := by
    refine Option.eq_none_iff_forall_ne_some.mpr fun q hq => hn ⟨q, ?_⟩
    exact (h n q).mp hq
  rw [TreeMaps.getElem?_insertIfNew, List.mem_append, List.mem_singleton]
  by_cases hk : n = k
  · subst hk
    have : (n, q) ∉ ds ∨ q.rawId ≠ p.rawId := by
      by_contra hq
      push Not at hq
      exact hn ⟨q, hq⟩
    simp only [hnone, Option.none_or, if_true, Option.some.injEq, Prod.mk.injEq, true_and]
    constructor
    · rintro rfl; exact ⟨.inr rfl, rfl⟩
    · rintro ⟨hq | rfl, hid⟩
      exacts [absurd hid (this.resolve_left (not_not_intro hq)), rfl]
  · simp only [hk, if_false, Option.or_none, h k q, Prod.mk.injEq, Ne.symm hk, false_and, or_false]

theorem Collects.receive {n id : Int} {p : Packet} {m : TreeMap Int Packet} (h : Collects ds id m)
    (hid : p.rawId ≠ id) : Collects (ds ++ [(n, p)]) id m := by
  intro k q
  rw [h k q, List.mem_append, List.mem_singleton, Prod.mk.injEq]
  constructor
  · exact fun ⟨hq, hi⟩ => ⟨.inl hq, hi⟩
  · rintro ⟨hq | ⟨rfl, rfl⟩, hi⟩
    exacts [⟨hq, hi⟩, absurd hi hid]

/-! ### The two halves of an insertion -/

namespace State

theorem nodeMapOf_new {id : Int} (he : s.packetMap[id]? = none) :
    (s.nodeMapOf id).2 = s.heap.length ∧ (s.nodeMapOf id).1.heap.length = s.heap.length + 1 ∧
      (∀ j : Int, (s.nodeMapOf id).1.packetMap[j]? = if id = j then some s.heap.length else s.packetMap[j]?) ∧
      ∀ h, (s.nodeMapOf id).1.deref h = s.deref h := by
  unfold nodeMapOf
  rw [he]
  refine ⟨rfl, by simp, fun j => ?_, fun h => ?_⟩
  · rw [TreeMaps.getElem?_insertIfNew]
    by_cases hj : id = j
    · subst hj; simp [he]
    · simp [hj]
  · show ((s.heap ++ [∅])[h]?).getD ∅ = (s.heap[h]?).getD ∅
    rw [List.getElem?_append]
    split
    · rfl
    · rw [List.getElem?_singleton, List.getElem?_eq_none (by omega)]
      split <;> rfl

theorem insertPacket_at {s₁ : State} {h : Nat} (hs₁ : s.nodeMapOf p.rawId = (s₁, h)) (halloc : h < s₁.heap.length)
    (he : s₁.packetMap[p.rawId]? = some h) :
    (s.insertPacket n p).heap.length = s₁.heap.length ∧
      (∀ j : Int, (s.insertPacket n p).packetMap[j]? = s₁.packetMap[j]?) ∧
      ∀ g, (s.insertPacket n p).deref g = if h = g then (s₁.deref g).insertIfNew n p else s₁.deref g := by
  unfold insertPacket
  rw [hs₁]
  refine ⟨List.length_modify .., fun j => ?_, fun g => ?_⟩
  · rw [TreeMaps.getElem?_insertIfNew]
    by_cases hj : p.rawId = j
    · subst hj; rw [he]; rfl
    · simp [hj]
  · simp only [deref, List.getElem?_modify]
    by_cases hg : h = g
    · subst hg; simp [halloc]
    · simp [hg]

end State

/-! ### The invariant -/

/-- The node map at `h` is the one of `id`, and not empty. -/
structure Holds (ds : List (Int × Packet)) (s : State) (id : Int) (h : Nat) : Prop where
  alloc : h < s.heap.length
  collects : Collects ds id (s.deref h)
  nonempty : ∃ k, Delivered ds k id

structure Inv (mi : MergerInfo) (ds : List (Int × Packet)) (s : State) : Prop where
  leaf : ∀ k id, Delivered ds k id → k ∈ mi.leaves
  entry : ∀ (id : Int) (h : Nat), s.packetMap[id]? = some h → Holds ds s id h
  test : ∀ k id h, s.tests k = some (id, h) →
    Holds ds s id h ∧ Delivered ds k id ∧ (s.packetMap[id]? = some h ∨ Complete mi ds id)
  thread : ∀ t ∈ s.merges, Complete mi ds t.packetId ∧ ∃ k, Delivered ds k t.packetId
  erased : ∀ k id, Delivered ds k id → s.packetMap[id]? = none →
    ∃ t ∈ s.merges, t.packetId = id ∧ t.phase.found.isSome
  trigger : ∀ k id, Delivered ds k id → Complete mi ds id →
    (∃ t ∈ s.merges, t.packetId = id) ∨ ∃ k h, s.tests k = some (id, h)

theorem Inv.init : Inv mi [] {} where
  leaf := by rintro k id ⟨p, hp, -⟩; cases hp
  entry := by intro id h he; simp at he
  test := by intro k id h ht; cases ht
  thread := by intro t ht; cases ht
  erased := by rintro k id ⟨p, hp, -⟩; cases hp
  trigger := by rintro k id ⟨p, hp, -⟩; cases hp

theorem Inv.size_eq (hnd : mi.leaves.Nodup) (hi : Inv mi ds s) {id : Int} {h : Nat}
    (hh : Holds ds s id h) : (s.deref h).size = mi.numNodes ↔ Complete mi ds id := by
  rw [mi.numNodes_eq, TreeMaps.size_eq_length_iff hnd fun k hk => hi.leaf k id (hh.collects.mem_iff.mp hk)]
  exact forall₂_congr fun k _ => hh.collects.mem_iff

/-! ### Receiving a packet -/

theorem Inv.nodeMapOf (hi : Inv mi ds s) {id : Int} (hc : ¬ Complete mi ds id) :
    ∃ s₁ h, s.nodeMapOf id = (s₁, h) ∧
      (∀ j : Int, s₁.packetMap[j]? = if j = id then some h else s.packetMap[j]?) ∧
      (∀ g, s.packetMap[id]? = some g → g = h) ∧
      h < s₁.heap.length ∧ Collects ds id (s₁.deref h) ∧
      ∀ j g, Holds ds s j g → Holds ds s₁ j g := by
  cases he : s.packetMap[id]? with
  | some h =>
    have hh := hi.entry id h he
    refine ⟨s, h, by rw [State.nodeMapOf, he], fun j => ?_, fun g hg => by cases hg; rfl, hh.alloc, hh.collects,
      fun _ _ h => h⟩
    split
    · subst j; exact he
    · rfl
  | none =>
    -- a complete id has a merge thread, so nobody has delivered this one
    have hno : ∀ k, ¬ Delivered ds k id := fun k hk => by
      obtain ⟨t, ht, rfl, -⟩ := hi.erased k id hk he
      exact hc (hi.thread t ht).1
    obtain ⟨hnew, hlen, hmap, hderef⟩ := State.nodeMapOf_new he
    refine ⟨(s.nodeMapOf id).1, (s.nodeMapOf id).2, rfl, fun j => ?_, fun g hg => (by cases hg), by omega, ?_,
      fun j g hg => ⟨?_, ?_, hg.nonempty⟩⟩
    · rw [hmap, hnew]
      simp only [eq_comm]
    · intro k p
      rw [hderef, hnew, State.deref, List.getElem?_eq_none (Nat.le_refl _)]
      simp only [Option.getD_none, TreeMap.getElem?_emptyc]
      exact ⟨fun h => (by cases h), fun h => absurd ⟨p, h⟩ (hno k)⟩
    · rw [hlen]
      exact Nat.lt_succ_of_lt hg.alloc
    · rw [hderef]
      exact hg.collects

/-- What the insertion does: the packet is in the cell of its id, which is the cell of no other id, and
the size test of the leaf is pending. -/
theorem Inv.insertPacket (ho : OncePerLeaf (ds ++ [(n, p)])) (hi : Inv mi ds s)
    (hc : ¬ Complete mi ds p.rawId) :
    ∃ h, (∀ j : Int, (s.insertPacket n p).packetMap[j]? = if j = p.rawId then some h else s.packetMap[j]?) ∧
      (∀ g, s.packetMap[p.rawId]? = some g → g = h) ∧
      (s.insertPacket n p).tests = Function.update s.tests n (some (p.rawId, h)) ∧
      (s.insertPacket n p).merges = s.merges ∧ Holds (ds ++ [(n, p)]) (s.insertPacket n p) p.rawId h ∧
      ∀ j g, Holds ds s j g → p.rawId ≠ j → Holds (ds ++ [(n, p)]) (s.insertPacket n p) j g := by
  obtain ⟨s₁, h, hs₁, hmap, hsame, halloc, hcoll, hholds⟩ := hi.nodeMapOf hc
  have htests : (s.insertPacket n p).tests = Function.update s.tests n (some (p.rawId, h)) := by
    rw [s.insertPacket_tests n p, hs₁]
  have hmerges := s.insertPacket_merges n p
  obtain ⟨hlen, hpm, hderef⟩ := State.insertPacket_at (n := n) hs₁ halloc (by rw [hmap, if_pos rfl])
  refine ⟨h, fun j => (hpm j).trans (hmap j), hsame, htests, hmerges, ?_, fun j g hg hj => ?_⟩
  · exact ⟨hlen ▸ halloc, by rw [hderef, if_pos rfl]; exact hcoll.insert ho.fresh, n,
      delivered_receive.mpr (.inr ⟨rfl, rfl⟩)⟩
  · have hg₁ := hholds j g hg
    obtain ⟨k, hk⟩ := hg₁.nonempty
    refine ⟨hlen ▸ hg₁.alloc, ?_, k, delivered_receive.mpr (.inl hk)⟩
    rw [hderef, if_neg]
    · exact hg₁.collects.receive hj
    · rintro rfl; exact hj (hg₁.collects.id_eq hcoll hk).symm

theorem Inv.receive (ho : OncePerLeaf (ds ++ [(n, p)])) (hi : Inv mi ds s) (hn : n ∈ mi.leaves)
    (ht : s.tests n = none) : Inv mi (ds ++ [(n, p)]) (s.insertPacket n p) := by
  have hc : ¬ Complete mi ds p.rawId := fun h => ho.fresh (h n hn)
  obtain ⟨h, hmap, hsame, htests, hmerges, hnew, hold⟩ := hi.insertPacket ho hc
  refine ⟨?_, ?_, ?_, ?_, ?_, ?_⟩
  · rintro k id hk
    rcases delivered_receive.mp hk with hk | ⟨rfl, -⟩
    exacts [hi.leaf k id hk, hn]
  · intro id g he
    rw [hmap] at he
    split at he
    · cases he; subst id; exact hnew
    · exact hold id g (hi.entry id g he) (Ne.symm ‹_›)
  · intro k id g hk
    rw [htests] at hk
    by_cases hkn : k = n
    · subst hkn
      simp only [Function.update_self, Option.some.injEq, Prod.mk.injEq] at hk
      obtain ⟨rfl, rfl⟩ := hk
      exact ⟨hnew, delivered_receive.mpr (.inr ⟨rfl, rfl⟩), .inl (by rw [hmap, if_pos rfl])⟩
    · rw [Function.update_of_ne hkn] at hk
      obtain ⟨hg, hd, hm⟩ := hi.test k id g hk
      by_cases hid : p.rawId = id
      · subst hid
        obtain rfl := hsame g (hm.resolve_right hc)
        exact ⟨hnew, delivered_receive.mpr (.inl hd), .inl (by rw [hmap, if_pos rfl])⟩
      · refine ⟨hold id g hg hid, delivered_receive.mpr (.inl hd), ?_⟩
        rw [hmap, if_neg (Ne.symm hid)]
        exact hm.imp_right Complete.receive
  · intro t ht
    rw [hmerges] at ht
    obtain ⟨hc, k, hk⟩ := hi.thread t ht
    exact ⟨hc.receive, k, delivered_receive.mpr (.inl hk)⟩
  · intro k id hk he
    rw [hmap] at he
    split at he
    · cases he
    · rename_i hid
      rw [hmerges]
      exact hi.erased k id ((delivered_receive.mp hk).resolve_right fun h => hid h.2.symm) he
  · intro k id hk hc'
    rw [hmerges, htests]
    -- for the id of the packet it is the test of this thread that is to come
    by_cases hid : p.rawId = id
    · exact .inr ⟨n, h, by simp [hid]⟩
    · have hd : ∀ {k}, Delivered (ds ++ [(n, p)]) k id → Delivered ds k id :=
        fun hk => (delivered_receive.mp hk).resolve_right fun h => hid h.2
      refine (hi.trigger k id (hd hk) fun k hk => hd (hc' k hk)).imp_right ?_
      rintro ⟨k', g, hk'⟩
      have hkn : k' ≠ n := by rintro rfl; rw [ht] at hk'; cases hk'
      exact ⟨k', g, by rw [Function.update_of_ne hkn, hk']⟩

/-! ### The other steps -/

theorem Holds.of_heap {id : Int} {h : Nat} (hh : Holds ds s id h) (he : s'.heap = s.heap) :
    Holds ds s' id h :=
  ⟨he ▸ hh.alloc, by rw [State.deref, he]; exact hh.collects, hh.nonempty⟩

theorem Inv.testSize (hnd : mi.leaves.Nodup) (hi : Inv mi ds s) {id : Int} {h : Nat}
    (ht : s.tests n = some (id, h)) : Inv mi ds (s.testSize mi n id h) := by
  obtain ⟨hh, hd, -⟩ := hi.test n id h ht
  have htests : ∀ k x, Function.update s.tests n none k = some x → s.tests k = some x := by
    intro k x hk
    by_cases hkn : k = n
    · subst hkn; simp at hk
    · rwa [Function.update_of_ne hkn] at hk
  -- a pending test of another id is still pending
  have hrest : ∀ k id' g, s.tests k = some (id', g) → id' ≠ id →
      Function.update s.tests n none k = some (id', g) := by
    intro k id' g hk hne
    rw [Function.update_of_ne, hk]
    rintro rfl; rw [ht] at hk; cases hk; exact hne rfl
  unfold State.testSize
  split
  · rename_i hsize
    have hc := (hi.size_eq hnd hh).mp hsize
    refine ⟨hi.leaf, fun j g he => (hi.entry j g he).of_heap rfl, fun k j g hk => ?_, fun t ht => ?_,
      fun k j hk he => ?_, fun k j hk hc' => ?_⟩
    · exact (hi.test k j g (htests k _ hk)).imp_left fun hh => hh.of_heap rfl
    · rcases List.mem_append.mp ht with ht | ht
      · exact hi.thread t ht
      · obtain rfl := List.mem_singleton.mp ht
        exact ⟨hc, n, hd⟩
    · obtain ⟨t, ht, h⟩ := hi.erased k j hk he
      exact ⟨t, List.mem_append_left _ ht, h⟩
    · by_cases hj : j = id
      · exact .inl ⟨⟨id, .started⟩, by simp, hj.symm⟩
      · rcases hi.trigger k j hk hc' with ⟨t, ht, h⟩ | ⟨k', g, hk'⟩
        · exact .inl ⟨t, List.mem_append_left _ ht, h⟩
        · exact .inr ⟨k', g, hrest k' j g hk' hj⟩
  · rename_i hsize
    refine ⟨hi.leaf, fun j g he => (hi.entry j g he).of_heap rfl, fun k j g hk => ?_, hi.thread,
      hi.erased, fun k j hk hc' => ?_⟩
    · exact (hi.test k j g (htests k _ hk)).imp_left fun hh => hh.of_heap rfl
    · have hj : j ≠ id := by
        rintro rfl; exact hsize ((hi.size_eq hnd hh).mpr hc')
      exact (hi.trigger k j hk hc').imp_right fun ⟨k', g, hk'⟩ => ⟨k', g, hrest k' j g hk' hj⟩

theorem Inv.of_merges (hi : Inv mi ds s) (hheap : s'.heap = s.heap) (htests : s'.tests = s.tests)
    (hmap : ∀ (id : Int) h, s'.packetMap[id]? = some h → s.packetMap[id]? = some h)
    (hgone : ∀ id : Int, s'.packetMap[id]? = none → s.packetMap[id]? = none ∨
      ∃ t ∈ s.merges, t.packetId = id ∧ t.phase.found.isSome)
    (hback : ∀ t ∈ s'.merges, ∃ t₀ ∈ s.merges, t₀.packetId = t.packetId)
    (hkeep : ∀ t ∈ s.merges, ∃ t' ∈ s'.merges, t'.packetId = t.packetId ∧
      (t.phase.found.isSome → t'.phase.found.isSome)) : Inv mi ds s' := by
  refine ⟨hi.leaf, fun id h he => (hi.entry id h (hmap id h he)).of_heap hheap, fun k id h hk => ?_,
    fun t ht => ?_, fun k id hk he => ?_, fun k id hk hc => ?_⟩
  · obtain ⟨hh, hd, hm⟩ := hi.test k id h (htests ▸ hk)
    refine ⟨hh.of_heap hheap, hd, ?_⟩
    rcases hm with hm | hc
    · cases he : s'.packetMap[id]? with
      | some g => exact .inl ((hmap id g he).symm.trans hm)
      | none =>
        rcases hgone id he with hn | ⟨t, ht, rfl, -⟩
        · rw [hm] at hn; cases hn
        · exact .inr (hi.thread t ht).1
    · exact .inr hc
  · obtain ⟨t₀, ht₀, hid⟩ := hback t ht
    exact hid ▸ hi.thread t₀ ht₀
  · have hold : ∃ t ∈ s.merges, t.packetId = id ∧ t.phase.found.isSome := by
      rcases hgone id he with hn | h
      exacts [hi.erased k id hk hn, h]
    obtain ⟨t, ht, hid, hf⟩ := hold
    obtain ⟨t', ht', hid', hf'⟩ := hkeep t ht
    exact ⟨t', ht', hid'.trans hid, hf' hf⟩
  · rcases hi.trigger k id hk hc with ⟨t, ht, hid⟩ | h
    · obtain ⟨t', ht', hid', -⟩ := hkeep t ht
      exact .inl ⟨t', ht', hid'.trans hid⟩
    · exact .inr (htests ▸ h)

theorem getElem?_setPhase (i j : Nat) (ph : Phase) : (s.setPhase i ph).merges[j]? =
    s.merges[j]?.map fun t => if i = j then { t with phase := ph } else t := by
  simp only [State.setPhase, List.getElem?_modify]
  cases s.merges[j]? <;> rfl

theorem mem_setPhase {i : Nat} {ph : Phase} {t : MergeThread} (ht : t ∈ (s.setPhase i ph).merges) :
    ∃ t₀ ∈ s.merges, t₀.packetId = t.packetId := by
  obtain ⟨j, hj⟩ := List.mem_iff_getElem?.mp ht
  rw [getElem?_setPhase, Option.map_eq_some_iff] at hj
  obtain ⟨t₀, ht₀, rfl⟩ := hj
  exact ⟨t₀, List.mem_of_getElem? ht₀, by split <;> rfl⟩

theorem exists_setPhase {i : Nat} {ph : Phase} (hph : ph.found.isSome) {t : MergeThread} (ht : t ∈ s.merges) :
    ∃ t' ∈ (s.setPhase i ph).merges, t'.packetId = t.packetId ∧
      (t.phase.found.isSome → t'.phase.found.isSome) := by
  obtain ⟨j, hj⟩ := List.mem_iff_getElem?.mp ht
  refine ⟨if i = j then { t with phase := ph } else t, ?_, ?_⟩
  · exact List.mem_of_getElem? (i := j) (by rw [getElem?_setPhase, hj]; rfl)
  · split
    exacts [⟨rfl, fun _ => hph⟩, ⟨rfl, fun h => h⟩]

theorem found_setPhase {R : TreeMap Int Packet → Packet → Prop} {i : Nat} {ph : Phase} {m : TreeMap Int Packet}
    {r : Packet} (h : ∀ t ∈ s.merges, ∀ m r, t.phase.found = some (m, r) → R m r) (hr : R m r)
    (hph : ph.found = some (m, r) := by rfl) :
    ∀ t ∈ (s.setPhase i ph).merges, ∀ m r, t.phase.found = some (m, r) → R m r := by
  intro t ht m' r' hf
  obtain ⟨j, hj⟩ := List.mem_iff_getElem?.mp ht
  rw [getElem?_setPhase, Option.map_eq_some_iff] at hj
  obtain ⟨t₀, ht₀, rfl⟩ := hj
  split at hf
  · cases hph.symm.trans hf
    exact hr
  · exact h t₀ (List.mem_of_getElem? ht₀) m' r' hf

/-- Inversion of `step`: what each action needs and does. -/
theorem step_cases {a : Action} (hs : step sweeps mi s a = some s') :
    s.aborted = false ∧
    match a with
    | .receive n p => n ∈ mi.leaves ∧ s.tests n = none ∧ s' = s.insertPacket n p
    | .test n => ∃ id h, s.tests n = some (id, h) ∧ s' = s.testSize mi n id h
    | .lookup t memory => ∃ id, s.merges[t]? = some ⟨id, .started⟩ ∧
        (s.packetMap[id]? = none ∧ s' = { s with aborted := true } ∨
          ∃ h, s.packetMap[id]? = some h ∧
            ((∃ e, mergePacket sweeps memory mi (s.deref h) = .error e ∧ s' = { s with aborted := true }) ∨
              ∃ r, mergePacket sweeps memory mi (s.deref h) = .ok r ∧ s' = s.setPhase t (.merged (s.deref h) r)))
    | .erase t => ∃ id m r, s.merges[t]? = some ⟨id, .merged m r⟩ ∧
        s' = { s with packetMap := s.packetMap.erase id }.setPhase t (.erased m r)
    | .send t => ∃ id m r, s.merges[t]? = some ⟨id, .erased m r⟩ ∧ s' = s.setPhase t (.sent m r) := by
  unfold step at hs
  split at hs
  · cases hs
  · refine ⟨by simpa using ‹¬ s.aborted = true›, ?_⟩
    cases a with
    | receive n p =>
      dsimp only at hs ⊢
      split at hs
      · rename_i h; cases hs; exact ⟨h.1, h.2, rfl⟩
      · cases hs
    | test n =>
      dsimp only at hs ⊢
      split at hs
      · rename_i h; cases hs; exact ⟨_, _, h, rfl⟩
      · cases hs
    | lookup t =>
      dsimp only at hs ⊢
      split at hs
      · rename_i id h
        refine ⟨id, h, ?_⟩
        unfold State.lookup at hs
        split at hs
        · rename_i he; cases hs; exact .inl ⟨he, rfl⟩
        · rename_i g he
          refine .inr ⟨g, he, ?_⟩
          split at hs
          · rename_i r hr; cases hs; exact .inr ⟨r, hr, rfl⟩
          · cases hs
          · rename_i e _ hr; cases hs; exact .inl ⟨e, hr, rfl⟩
      · cases hs
    | erase t =>
      dsimp only at hs ⊢
      split at hs
      · rename_i h; cases hs; exact ⟨_, _, _, h, rfl⟩
      · cases hs
    | send t =>
      dsimp only at hs ⊢
      split at hs
      · rename_i h; cases hs; exact ⟨_, _, _, h, rfl⟩
      · cases hs

theorem Inv.abort (hi : Inv mi ds s) : Inv mi ds { s with aborted := true } :=
  hi.of_merges rfl rfl (fun _ _ h => h) (fun _ h => .inl h) (fun t ht => ⟨t, ht, rfl⟩)
    fun t ht => ⟨t, ht, rfl, id⟩

theorem Inv.setPhase (hi : Inv mi ds s) {i : Nat} {ph : Phase} (hph : ph.found.isSome) :
    Inv mi ds (s.setPhase i ph) :=
  hi.of_merges rfl rfl (fun _ _ h => h) (fun _ h => .inl h) (fun _ => mem_setPhase)
    fun _ => exists_setPhase hph

theorem Inv.erase (hi : Inv mi ds s) {t : MergeThread} (ht : t ∈ s.merges) (hf : t.phase.found.isSome) :
    Inv mi ds { s with packetMap := s.packetMap.erase t.packetId } := by
  refine hi.of_merges rfl rfl (fun id h he => ?_) (fun id he => ?_) (fun t ht => ⟨t, ht, rfl⟩)
    fun t ht => ⟨t, ht, rfl, fun h => h⟩
  · rw [TreeMap.getElem?_erase] at he
    split at he
    · cases he
    · exact he
  · rw [TreeMap.getElem?_erase] at he
    split at he
    · exact .inr ⟨t, ht, by simpa using ‹compare t.packetId id = .eq›, hf⟩
    · exact .inl he

theorem Inv.of_step (hnd : mi.leaves.Nodup) {acts : List Action} {a : Action}
    (ho : OncePerLeaf (deliveries (acts ++ [a]))) (hi : Inv mi (deliveries acts) s)
    (hs : step sweeps mi s a = some s') : Inv mi (deliveries (acts ++ [a])) s' := by
  obtain ⟨-, hs⟩ := step_cases hs
  cases a with
  | receive n p =>
    obtain ⟨hn, ht, rfl⟩ := hs
    rw [deliveries_receive] at ho ⊢
    exact hi.receive ho hn ht
  | test n =>
    obtain ⟨id, h, ht, rfl⟩ := hs
    rw [deliveries_append (by simp)]
    exact hi.testSize hnd ht
  | lookup t =>
    rw [deliveries_append (by simp)]
    obtain ⟨id, -, ⟨-, rfl⟩ | ⟨h, -, ⟨e, -, rfl⟩ | ⟨r, -, rfl⟩⟩⟩ := hs
    exacts [hi.abort, hi.abort, hi.setPhase rfl]
  | erase t =>
    obtain ⟨id, m, r, ht, rfl⟩ := hs
    rw [deliveries_append (by simp)]
    exact (hi.erase (List.mem_of_getElem? ht) rfl).setPhase rfl
  | send t =>
    obtain ⟨id, m, r, ht, rfl⟩ := hs
    rw [deliveries_append (by simp)]
    exact hi.setPhase rfl

theorem OncePerLeaf.of_snoc {acts : List Action} {a : Action}
    (ho : OncePerLeaf (deliveries (acts ++ [a]))) : OncePerLeaf (deliveries acts) := by
  by_cases ha : ∀ n p, a ≠ .receive n p
  · rwa [deliveries_append ha] at ho
  · push Not at ha
    obtain ⟨n, p, rfl⟩ := ha
    rw [deliveries_receive] at ho
    exact ho.of_append

theorem exec_inv (hnd : mi.leaves.Nodup) {acts : List Action} (ho : OncePerLeaf (deliveries acts))
    (h : exec sweeps mi acts = some s) : Inv mi (deliveries acts) s := by
  refine exec_induction (P := fun acts s => OncePerLeaf (deliveries acts) → Inv mi (deliveries acts) s)
    (fun _ => Inv.init) (fun acts a s s' _ ih hs ho => ?_) h ho
  exact Inv.of_step hnd ho (ih ho.of_snoc) hs

/-- What every merge of a run returns, its threads send. -/
theorem exec_found {R : TreeMap Int Packet → Packet → Prop} {acts : List Action}
    (hR : ∀ a ∈ acts, ∀ i memory, a = .lookup i memory → ∀ m r, mergePacket sweeps memory mi m = .ok r → R m r)
    (h : exec sweeps mi acts = some s) : ∀ t ∈ s.merges, ∀ m r, t.phase.found = some (m, r) → R m r := by
  refine exec_induction (P := fun acts s => (∀ a ∈ acts, ∀ i memory, a = .lookup i memory → ∀ m r,
    mergePacket sweeps memory mi m = .ok r → R m r) → ∀ t ∈ s.merges, ∀ m r, t.phase.found = some (m, r) → R m r)
    (fun _ t ht => nomatch ht) (fun acts a s s' _ ih hs hR => ?_) h hR
  have hold : ∀ t ∈ s.merges, ∀ m r, t.phase.found = some (m, r) → R m r :=
    ih fun b hb => hR b (List.mem_append_left _ hb)
  have hnew := hR a (List.mem_append_right _ (List.mem_singleton.mpr rfl))
  obtain ⟨-, hs⟩ := step_cases hs
  cases a with
  | receive n p =>
    obtain ⟨-, -, rfl⟩ := hs
    rwa [State.insertPacket_merges]
  | test n =>
    obtain ⟨id, h, -, rfl⟩ := hs
    intro t ht m r hf
    rw [State.testSize] at ht
    split at ht
    · rcases List.mem_append.mp ht with ht | ht
      · exact hold t ht m r hf
      · -- the new thread has found nothing yet
        obtain rfl := List.mem_singleton.mp ht
        cases hf
    · exact hold t ht m r hf
  | lookup i memory =>
    obtain ⟨id, -, ⟨-, rfl⟩ | ⟨h, -, ⟨e, -, rfl⟩ | ⟨r, hr, rfl⟩⟩⟩ := hs
    · exact hold
    · exact hold
    · exact found_setPhase hold (hnew i memory rfl _ r hr)
  | erase i =>
    obtain ⟨id, m, r, ht, rfl⟩ := hs
    exact found_setPhase hold (hold _ (List.mem_of_getElem? ht) m r rfl)
  | send i =>
    obtain ⟨id, m, r, ht, rfl⟩ := hs
    exact found_setPhase hold (hold _ (List.mem_of_getElem? ht) m r rfl)

end DeepNF.MergerOperator
