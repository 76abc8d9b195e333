import DeepNF.NullPackets

/-!
# The conflict loop comes to its end

Whatever the conflict list is, as long as no item names one node twice: an item fires only if two
entries are left, and it leaves one entry less, or two if its parent is taken already.
-/

namespace DeepNF
open Std (TreeMap)

variable {memory : Memory} {mi : MergerInfo} {ci : ConflictItem} {m : TreeMap Int Packet} {infos infos' : PktInfoMap}

theorem mem_nodeMap_of_ok (h : packetMapToPacketInfoMap mi m = .ok infos) : ∀ k ∈ m, k ∈ mi.nodeMap := by
  have key := Rounds.foldlM_induction (P := fun done _ => ∀ x ∈ done, x.1 ∈ mi.nodeMap) ?_ (by simp) h
  · intro k hk
    obtain ⟨p, hp⟩ := TreeMaps.exists_getElem? hk
    exact key (k, p) (TreeMap.mem_toList_iff_getElem?_eq_some.mpr hp)
  · rintro done ⟨k, p⟩ t t' - hdone ht x hx
    rcases List.mem_append.mp hx with hx | hx
    · exact hdone x hx
    · obtain rfl := List.mem_singleton.mp hx
      obtain ⟨pi, hpi, -⟩ := Rounds.bind_ok ht
      rw [packetToPacketInfo] at hpi
      split at hpi
      · cases hpi
      · rename_i rn hrn
        exact TreeMaps.mem_of_getElem? hrn

theorem packetMapToPacketInfoMap_error {e : MergeError} (h : packetMapToPacketInfoMap mi m = .error e) :
    ∃ k ∈ m, k ∉ mi.nodeMap ∧ e = .invalidNodeId k := by
  have key : ∀ (l : List (Int × Packet)) (t : PktInfoMap),
      l.foldlM (fun retMap x => do
        return retMap.insertIfNew x.1 (← packetToPacketInfo mi x.2 x.1)) t = .error e →
      ∃ x ∈ l, x.1 ∉ mi.nodeMap ∧ e = .invalidNodeId x.1 := by
    intro l
    induction l with
    | nil => intro t h; cases h
    | cons x l ih =>
      obtain ⟨k, p⟩ := x
      intro t h
      by_cases hk : k ∈ mi.nodeMap
      · rw [List.foldlM_cons] at h
        simp only [packetToPacketInfo_eq hk] at h
        obtain ⟨y, hy, h⟩ := ih _ h
        exact ⟨y, List.mem_cons_of_mem _ hy, h⟩
      · refine ⟨(k, p), List.mem_cons_self .., hk, ?_⟩
        have hp : packetToPacketInfo mi p k = .error (.invalidNodeId k) := by
          rw [packetToPacketInfo, TreeMap.getElem?_eq_none hk]
        rw [List.foldlM_cons] at h
        simp only [hp] at h
        cases h
        rfl
  obtain ⟨⟨k, p⟩, hx, hk, he⟩ := key _ _ h
  exact ⟨k, TreeMaps.mem_of_getElem? (TreeMap.mem_toList_iff_getElem?_eq_some.mp hx), hk, he⟩

theorem size_of_ok (h : packetMapToPacketInfoMap mi m = .ok infos) : infos.size = m.size := by
  obtain ⟨infos', h', hget⟩ := packetMapToPacketInfoMap_ok (mem_nodeMap_of_ok h)
  rw [h] at h'
  cases h'
  exact TreeMaps.size_congr fun k => by rw [hget, Option.isSome_map]

theorem tryConflict_two_le (hci : ci.major ≠ ci.minor) {r : Except Packet PktInfoMap}
    (h : tryConflict memory mi ci infos = some r) : 2 ≤ infos.size := by
  obtain ⟨a, b, ha, hb, -⟩ := tryConflict_cases h
  have hmin : ci.minor ∈ infos.erase ci.major := by
    rw [TreeMap.mem_erase]
    exact ⟨fun h => hci (Std.LawfulEqOrd.compare_eq_iff_eq.mp h), TreeMaps.mem_of_getElem? hb⟩
  have := TreeMaps.size_erase_of_mem (TreeMaps.mem_of_getElem? ha)
  have := TreeMaps.size_pos_iff.mpr ⟨_, hmin⟩
  omega

/-- The log of the loop: at most one call less than there are packets. -/
theorem firings_tryConflict (hl : ∀ ci ∈ mi.conflictsList, ci.major ≠ ci.minor) {sweeps : Nat}
    (h0 : 0 < infos.size) {r : Except (Packet × List PktInfoMap) (PktInfoMap × List PktInfoMap)}
    (h : Rounds.run (Rounds.logged (tryConflict memory mi)) mi.conflictsList sweeps (infos, []) = some r) :
    (Rounds.firings r).length ≤ infos.size - 1 ∧ ∀ t ∈ Rounds.firings r, 0 < t.size := by
  refine Rounds.firings_le (P := fun t => 0 < t.size) (v := fun t => t.size - 1) ?_ ?_ h0 h
  · intro ci hci t r _ hf
    have := tryConflict_two_le (hl ci hci) hf
    show 0 < t.size - 1
    omega
  · intro ci hci t t' ht hf
    have := tryConflict_size (hl ci hci) hf
    exact ⟨this.1, by omega⟩

/-- The only way to fail is an id that is no node; the loop itself makes at most one call less than there
are packets, on maps that are not empty, and at its normal exit no item is left with both its members. -/
theorem mergePacket_ends (memory : Memory) (mi : MergerInfo) (hl : ∀ ci ∈ mi.conflictsList, ci.major ≠ ci.minor)
    (m : TreeMap Int Packet) (h0 : 0 < m.size) (sweeps : Nat) (hs : m.size ≤ sweeps) :
    ((∃ r, mergePacket sweeps memory mi m = .ok r) ∨
      ∃ k ∈ m, k ∉ mi.nodeMap ∧ mergePacket sweeps memory mi m = .error (.invalidNodeId k)) ∧
    ∀ infos, packetMapToPacketInfoMap mi m = .ok infos →
      ∃ r, Rounds.run (Rounds.logged (tryConflict memory mi)) mi.conflictsList sweeps (infos, []) = some r ∧
        Rounds.run (tryConflict memory mi) mi.conflictsList sweeps infos = some (Rounds.unlogged r) ∧
        (Rounds.firings r).length ≤ m.size - 1 ∧ (∀ t ∈ Rounds.firings r, 0 < t.size) ∧
        ∀ pktInfoMap log, r = .ok (pktInfoMap, log) →
          0 < pktInfoMap.size ∧
            ∀ ci ∈ mi.conflictsList, ¬ (ci.major ∈ pktInfoMap ∧ ci.minor ∈ pktInfoMap) := by
  refine ⟨?_, fun infos hi => ?_⟩
  · cases hi : packetMapToPacketInfoMap mi m with
    | ok infos =>
      obtain ⟨r, hr, -⟩ := mergePacket_isNull hl h0 (mem_nodeMap_of_ok hi) hs
      exact .inl ⟨r, hr⟩
    | error e =>
      obtain ⟨k, hk, hn, rfl⟩ := packetMapToPacketInfoMap_error hi
      exact .inr ⟨k, hk, hn, by rw [mergePacket, hi]; rfl⟩
  · have hsize := size_of_ok hi
    obtain ⟨res, hres⟩ := run_tryConflict hl (hsize ▸ h0) (hsize ▸ hs)
    rw [← Rounds.run_logged sweeps infos []] at hres
    obtain ⟨r, hr, -⟩ := Option.map_eq_some_iff.mp hres
    have hrun : Rounds.run (tryConflict memory mi) mi.conflictsList sweeps infos = some (Rounds.unlogged r) := by
      rw [← Rounds.run_logged sweeps infos [], hr, Option.map_some]
    obtain ⟨hlen, hlog⟩ := firings_tryConflict hl (hsize ▸ h0) hr
    refine ⟨r, hr, hrun, hsize ▸ hlen, hlog, ?_⟩
    rintro pktInfoMap log rfl
    exact ⟨run_size_pos hl (hsize ▸ h0) hrun, fun ci hci =>
      tryConflict_eq_none.mp (Rounds.run_stable hrun ci hci)⟩

/-- Three packets under a list that is cyclic and puts every result back under one of its members. -/
theorem mergePacket_ends_cyclic :
    let mi : MergerInfo :=
      { getDummyMergerInfo with
        conflictsList := [⟨0, 1, 0⟩, ⟨1, 0, 1⟩, ⟨1, 2, -1⟩, ⟨2, 0, 2⟩]
        nodeMap := .ofList ([(0, { id := 0, nf := .dnfFirewall }), (1, { id := 1, nf := .proxy }),
          (2, { id := 2, nf := .compressor })] : List (Int × RuntimeNode)) }
    ∃ infos r,
      packetMapToPacketInfoMap mi (.ofList [((0 : Int), hello), (1, hello), (2, hello)]) = .ok infos ∧
      Rounds.run (Rounds.logged (tryConflict (fun _ => [65]) mi)) mi.conflictsList 3 (infos, []) = some r ∧
      (Rounds.firings r).length ≤ 2 := by
  intro mi
  have hm : ∀ k ∈ TreeMap.ofList [((0 : Int), hello), (1, hello), (2, hello)], k ∈ mi.nodeMap := fun k hk =>
    (by decide : ∀ k ∈ [(0 : Int), 1, 2], k ∈ mi.nodeMap) k (by simpa using hk)
  obtain ⟨infos, hi, -⟩ := packetMapToPacketInfoMap_ok hm
  obtain ⟨r, hr, -, hlen, -⟩ :=
    (mergePacket_ends (fun _ => [65]) mi (by decide) _ (by decide) 3 (by decide)).2 infos hi
  exact ⟨infos, r, hi, hr, hlen⟩

end DeepNF
