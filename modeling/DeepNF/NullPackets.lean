import DeepNF.MergeSpec

/-!
# Null packets through the merge

A dropped packet is passed on as a null packet. `mergePacket_isNull`: the merged packet is null
exactly if a leaf packet is. In the loop a null packet either stays in the map, because items that do
not name it only touch other slots and `insertIfNew` overwrites nothing, or ends the loop.
-/

namespace DeepNF
open Std (TreeMap)

def HasNull (infos : PktInfoMap) : Prop :=
  ∃ (k : Int) (pi : PacketInfo), infos[k]? = some pi ∧ pi.pkt.isNull = true

variable {memory : Memory} {mi : MergerInfo} {ci : ConflictItem} {infos : PktInfoMap} {a b : PacketInfo}

theorem hasNull_mergedMap (hmaj : infos[ci.major]? = some a) (hmin : infos[ci.minor]? = some b)
    (ha : a.pkt.isNull = false) (hb : b.pkt.isNull = false) :
    HasNull (mergedMap memory mi ci infos a b) ↔ HasNull infos := by
  have hnew : (addNodeWrites mi (resolvePacketConflict (memory infos.size) a b (some ci))).pkt.isNull = false := by
    simp [addNodeWrites, isNull_resolve, ha, hb]
  constructor
  · rintro ⟨k, pi, hk, hn⟩
    rw [mergedMap, TreeMaps.getElem?_merge, Option.or_eq_some_iff] at hk
    rcases hk with hk | ⟨-, hk⟩
    · split at hk
      · cases hk
      · exact ⟨k, pi, hk, hn⟩
    · split at hk
      · cases hk; rw [hnew] at hn; cases hn
      · cases hk
  · rintro ⟨k, pi, hk, hn⟩
    refine ⟨k, pi, ?_, hn⟩
    have h₁ : k ≠ ci.major := by
      rintro rfl; rw [hmaj] at hk; cases hk; rw [ha] at hn; cases hn
    have h₂ : k ≠ ci.minor := by
      rintro rfl; rw [hmin] at hk; cases hk; rw [hb] at hn; cases hn
    simp [mergedMap, TreeMaps.getElem?_merge, h₁, h₂, hk]

theorem run_hasNull {sweeps : Nat} {r : Except Packet PktInfoMap}
    (hr : Rounds.run (tryConflict memory mi) mi.conflictsList sweeps infos = some r) :
    Rounds.Ends (fun infos' => HasNull infos' ↔ HasNull infos)
      (fun p => p.isNull = true ∧ HasNull infos) r := by
  refine Rounds.run_induction ?_ Iff.rfl hr
  intro ci _ t r ht hf
  obtain ⟨a, b, hmaj, hmin, ⟨hn, rfl⟩ | ⟨ha, hb, rfl⟩⟩ := tryConflict_cases hf
  · refine ⟨by rw [isNull_resolve, hn], ht.mp ?_⟩
    rcases Bool.or_eq_true_iff.mp hn with hn | hn
    exacts [⟨_, _, hmaj, hn⟩, ⟨_, _, hmin, hn⟩]
  · exact (hasNull_mergedMap hmaj hmin ha hb).trans ht

theorem isNull_mergeAll (p : PacketInfo) (ps : List PacketInfo) :
    (mergeAll memory p ps).pkt.isNull = true ↔ ∃ q ∈ p :: ps, q.pkt.isNull = true := by
  induction ps generalizing p with
  | nil => simp [mergeAll]
  | cons q ps ih => simp [mergeAll, ih, isNull_resolve, or_assoc]

theorem mergeRest_isNull (h0 : 0 < infos.size) :
    ∃ r, mergeRest memory (infos.toList.map (·.2)) = .ok r ∧ (r.isNull = true ↔ HasNull infos) := by
  have hmem : HasNull infos ↔ ∃ q ∈ infos.toList.map (·.2), q.pkt.isNull = true := by
    simp only [HasNull, List.mem_map, Prod.exists, TreeMap.mem_toList_iff_getElem?_eq_some,
      exists_eq_right]
    exact ⟨fun ⟨k, q, h, hn⟩ => ⟨q, ⟨k, h⟩, hn⟩, fun ⟨q, ⟨k, h⟩, hn⟩ => ⟨k, q, h, hn⟩⟩
  have hlen : (infos.toList.map (·.2)).length = infos.size := by
    rw [List.length_map, TreeMap.length_toList]
  rw [hmem]
  cases hl : infos.toList.map (·.2) with
  | nil => rw [hl] at hlen; simp at hlen; omega
  | cons p ps => exact ⟨_, rfl, isNull_mergeAll p ps⟩

/-- The merge returns a packet, and it is null exactly if a leaf packet is. -/
theorem mergePacket_isNull (hl : ∀ ci ∈ mi.conflictsList, ci.major ≠ ci.minor) {m : TreeMap Int Packet}
    (h0 : 0 < m.size) (hm : ∀ k ∈ m, k ∈ mi.nodeMap) {sweeps : Nat} (hs : m.size ≤ sweeps) :
    ∃ r, mergePacket sweeps memory mi m = .ok r ∧
      (r.isNull = true ↔ ∃ (k : Int) (p : Packet), m[k]? = some p ∧ p.isNull = true) := by
  obtain ⟨infos, hi, hget⟩ := packetMapToPacketInfoMap_ok hm
  have hnull : HasNull infos ↔ ∃ (k : Int) (p : Packet), m[k]? = some p ∧ p.isNull = true := by
    simp only [HasNull, hget, Option.map_eq_some_iff]
    exact ⟨fun ⟨k, _, ⟨p, hp, h⟩, hn⟩ => ⟨k, p, hp, by subst h; exact hn⟩,
      fun ⟨k, p, hp, hn⟩ => ⟨k, _, ⟨p, hp, rfl⟩, hn⟩⟩
  have hsize : infos.size = m.size := by
    exact TreeMaps.size_congr fun k => by rw [hget]; simp
  obtain ⟨r, hr⟩ : ∃ r, Rounds.run (tryConflict memory mi) mi.conflictsList sweeps infos = some r :=
    run_tryConflict hl (hsize ▸ h0) (hsize ▸ hs)
  have hend := run_hasNull hr
  rw [← hnull]
  simp only [mergePacket, hi, hr, bind, Except.bind]
  cases r with
  | error p => exact ⟨p, rfl, iff_of_true hend.1 hend.2⟩
  | ok infos' =>
    obtain ⟨r, hr', hn⟩ := mergeRest_isNull (run_size_pos hl (hsize ▸ h0) hr)
    exact ⟨r, hr', hn.trans hend⟩

/-- Rewriting the packets on their way to the merger does not matter: a dropped packet stays dropped,
and nothing else is dropped. -/
theorem mergePacket_calls_isNull (hl : ∀ ci ∈ mi.conflictsList, ci.major ≠ ci.minor)
    {m : TreeMap Int Packet} (h0 : 0 < m.size) (hm : ∀ k ∈ m, k ∈ mi.nodeMap) {cs : Int → List Call}
    (hcs : ∀ k, ∀ c ∈ cs k, c.Valid ∧ c ≠ .nullify) {sweeps : Nat} (hs : m.size ≤ sweeps) :
    ∃ r, mergePacket sweeps memory mi (m.map fun k p => Packet.calls p (cs k)) = .ok r ∧
      (r.isNull = true ↔ ∃ (k : Int) (p : Packet), m[k]? = some p ∧ p.isNull = true) := by
  have hsize : (m.map fun k p => Packet.calls p (cs k)).size = m.size := TreeMap.size_map
  have hm' : ∀ k ∈ m.map fun k p => Packet.calls p (cs k), k ∈ mi.nodeMap := fun k hk =>
    hm k (TreeMap.mem_map.mp hk)
  obtain ⟨r, hr, hn⟩ := mergePacket_isNull hl (by omega) hm' (hsize.le.trans hs)
  have hcall (k : Int) (p : Packet) : (p.calls (cs k)).isNull = p.isNull :=
    Packet.isNull_calls (fun h => (hcs k _ h).2 rfl) p
  refine ⟨r, hr, hn.trans ⟨?_, ?_⟩⟩
  · rintro ⟨k, q, hq, hn⟩
    rw [TreeMap.getElem?_map, Option.map_eq_some_iff] at hq
    obtain ⟨p, hp, rfl⟩ := hq
    exact ⟨k, p, hp, (hcall k p).symm.trans hn⟩
  · rintro ⟨k, p, hp, hn⟩
    exact ⟨k, _, by rw [TreeMap.getElem?_map, hp]; rfl, (hcall k p).trans hn⟩

/-- The dummy configuration with a conflict item: the firewall drops `hello`, and something behind it
rewrites the null packet. -/
theorem mergePacket_calls_isNull_dummy : ∃ r,
    mergePacket 2 (fun _ => [65]) { getDummyMergerInfo with conflictsList := [⟨1, 0, -1⟩] }
      ((TreeMap.ofList [((0 : Int), hello.nullify), (1, hello)]).map fun k p =>
        Packet.calls p (if k = 0 then [.writeDestIp "10.0.0.9", .writeDestPort 8080] else [])) = .ok r ∧
    r.isNull = true := by
  have hnodes : ∀ k ∈ TreeMap.ofList [((0 : Int), hello.nullify), (1, hello)],
      k ∈ getDummyMergerInfo.nodeMap := fun k hk =>
    (by decide : ∀ k ∈ [(0 : Int), 1], k ∈ getDummyMergerInfo.nodeMap) k (by simpa using hk)
  have hcalls : ∀ k : Int, ∀ c ∈ (if k = 0 then [Call.writeDestIp "10.0.0.9", .writeDestPort 8080] else []),
      c.Valid ∧ c ≠ .nullify := fun k c hc => by
    split at hc
    · exact (by decide : ∀ c ∈ [Call.writeDestIp "10.0.0.9", .writeDestPort 8080],
        c.Valid ∧ c ≠ .nullify) c hc
    · cases hc
  have hitems : ∀ ci ∈ [ConflictItem.mk 1 0 (-1)], ci.major ≠ ci.minor := by decide
  obtain ⟨r, hr, hn⟩ := @mergePacket_calls_isNull (fun _ => [65])
    { getDummyMergerInfo with conflictsList := [⟨1, 0, -1⟩] } hitems _ (by decide) hnodes _ hcalls 2
    (by decide)
  exact ⟨r, hr, hn.mpr ⟨0, hello.nullify, by decide, by decide⟩⟩

end DeepNF
