import DeepNF.Merger
import DeepNF.TreeMaps

/-!
# What one step of the merge does

One lemma for each function of `DeepNF.Merger`: the value of every field after
`resolvePacketConflict`, the content of the initial map, the two ways a conflict item fires. On top
of them, that the loop ends (`run_tryConflict`).
-/

namespace DeepNF
open Std (TreeMap)

/-! ### `resolvePacketConflict` -/

section Resolve
variable {behind : List UInt8} {p q : Packet} {a b : PacketInfo} {c : Option ConflictItem}

theorem value_copyField (F G : Field) :
    (copyField behind q p G).value F = if F = G ∧ F ∈ Field.carried then q.read behind F else p.value F := by
  cases G <;> cases F <;>
    simp [copyField, Packet.value, Packet.read, Field.carried, Packet.getDestIp_writeDestIp,
      Packet.getDestPort_writeDestPort, Packet.payload_writePayload] <;>
    simp [Packet.getSrcIp, Packet.getSrcPort, Packet.getDestIp, Packet.getDestPort, Packet.payload]

theorem data_copyField (G : Field) :
    (copyField behind q p G).data = if G = .PAYLOAD then q.getPayload behind else p.data := by
  cases G <;> simp [copyField]

@[simp] theorem ipSrc_copyField (G : Field) : (copyField behind q p G).ipSrc = p.ipSrc := by
  cases G <;> simp [copyField]

@[simp] theorem source_copyField (G : Field) : (copyField behind q p G).source = p.source := by
  cases G <;> simp [copyField]

@[simp] theorem ipId_copyField (G : Field) : (copyField behind q p G).ipId = p.ipId := by
  cases G <;> simp [copyField]

theorem addWrites_header (fs : Finset Field) (l : List Field) :
    (addWrites behind fs q l p).ipSrc = p.ipSrc ∧ (addWrites behind fs q l p).source = p.source ∧
      (addWrites behind fs q l p).ipId = p.ipId := by
  induction l generalizing p with
  | nil => exact ⟨rfl, rfl, rfl⟩
  | cons G l ih =>
    rw [addWrites]
    split
    · exact ih
    · obtain ⟨h₁, h₂, h₃⟩ := ih (p := copyField behind q p G)
      exact ⟨h₁.trans (ipSrc_copyField G), h₂.trans (source_copyField G), h₃.trans (ipId_copyField G)⟩

theorem value_addWrites (fs : Finset Field) (l : List Field) (F : Field) :
    (addWrites behind fs q l p).value F =
      if F ∈ l ∧ F ∉ fs ∧ F ∈ Field.carried then q.read behind F else p.value F := by
  induction l generalizing p with
  | nil => simp [addWrites]
  | cons G l ih =>
    rw [addWrites, ih]
    by_cases hG : G ∈ fs
    · by_cases hFG : F = G
      · subst hFG; simp [hG]
      · simp [hG, hFG]
    · rw [if_neg hG, value_copyField]
      by_cases hFG : F = G
      · subst hFG; simp only [List.mem_cons, true_or, true_and]; split_ifs <;> simp_all
      · simp [hFG]

theorem data_addWrites (fs : Finset Field) (l : List Field) :
    (addWrites behind fs q l p).data =
      if .PAYLOAD ∈ l ∧ .PAYLOAD ∉ fs then q.getPayload behind else p.data := by
  induction l generalizing p with
  | nil => simp [addWrites]
  | cons G l ih =>
    rw [addWrites, ih]
    by_cases hG : G ∈ fs
    · by_cases hP : Field.PAYLOAD = G
      · subst hP; simp [hG]
      · simp [hG, hP]
    · rw [if_neg hG, data_copyField]
      by_cases hP : Field.PAYLOAD = G
      · subst hP; simp only [List.mem_cons, true_or, true_and, if_true]; split_ifs <;> simp_all
      · simp [hP, Ne.symm hP]

theorem isNull_resolve : (resolvePacketConflict behind a b c).pkt.isNull = (a.pkt.isNull || b.pkt.isNull) := by
  by_cases h : (a.pkt.isNull || b.pkt.isNull) = true
  · simp [resolvePacketConflict, h]
  · simp only [resolvePacketConflict, h, Bool.false_eq_true, if_false]
    obtain ⟨h₁, h₂, -⟩ := @addWrites_header behind a.pkt b.pkt a.writtenFields
      (Field.iterate b.writtenFields)
    rw [Packet.isNull_congr h₂ h₁]
    simp at h
    exact h.1

/-- Of two packets that are not null, the minor's value, as its getter returns it, is taken for the fields only it
has written and the merge can carry. -/
theorem value_resolve (ha : a.pkt.isNull = false) (hb : b.pkt.isNull = false) (F : Field) :
    (resolvePacketConflict behind a b c).pkt.value F =
      if F ∈ b.writtenFields ∧ F ∉ a.writtenFields ∧ F ∈ Field.carried then b.pkt.read behind F
      else a.pkt.value F := by
  simp [resolvePacketConflict, ha, hb, value_addWrites]

theorem data_resolve (ha : a.pkt.isNull = false) (hb : b.pkt.isNull = false) :
    (resolvePacketConflict behind a b c).pkt.data =
      if .PAYLOAD ∈ b.writtenFields ∧ .PAYLOAD ∉ a.writtenFields then b.pkt.getPayload behind else a.pkt.data := by
  simp [resolvePacketConflict, ha, hb, data_addWrites]

theorem header_resolve (ha : a.pkt.isNull = false) (hb : b.pkt.isNull = false) :
    (resolvePacketConflict behind a b c).pkt.ipSrc = a.pkt.ipSrc ∧
      (resolvePacketConflict behind a b c).pkt.source = a.pkt.source ∧
      (resolvePacketConflict behind a b c).pkt.ipId = a.pkt.ipId := by
  simpa [resolvePacketConflict, ha, hb] using
    @addWrites_header behind a.pkt b.pkt a.writtenFields (Field.iterate b.writtenFields)

theorem writtenFields_resolve (ha : a.pkt.isNull = false) (hb : b.pkt.isNull = false) :
    (resolvePacketConflict behind a b c).writtenFields = b.writtenFields ∪ a.writtenFields := by
  simp [resolvePacketConflict, ha, hb]

@[simp] theorem nodeId_resolve (ci : ConflictItem) :
    (resolvePacketConflict behind a b (some ci)).nodeId = ci.parent := by
  simp only [resolvePacketConflict]; split <;> rfl

end Resolve

/-! ### The initial map -/

section Initial
variable {mi : MergerInfo} {m : TreeMap Int Packet} {infos : PktInfoMap}

def leafInfo (mi : MergerInfo) (nodeId : Int) (pkt : Packet) : PacketInfo :=
  { nodeId, pkt, writtenFields := nodeWrites mi nodeId }

theorem packetToPacketInfo_eq {k : Int} (hk : k ∈ mi.nodeMap) (p : Packet) :
    packetToPacketInfo mi p k = .ok (leafInfo mi k p) := by
  obtain ⟨rn, hrn⟩ := TreeMaps.exists_getElem? hk
  simp [packetToPacketInfo, leafInfo, nodeWrites, hrn]

theorem packetMapToPacketInfoMap_eq (hm : ∀ k ∈ m, k ∈ mi.nodeMap) :
    packetMapToPacketInfoMap mi m =
      .ok (m.toList.foldl (fun t x => t.insertIfNew x.1 (leafInfo mi x.1 x.2)) ∅) := by
  have key : ∀ (l : List (Int × Packet)) (t : PktInfoMap), (∀ x ∈ l, x.1 ∈ mi.nodeMap) →
      l.foldlM (fun retMap x => do
        return retMap.insertIfNew x.1 (← packetToPacketInfo mi x.2 x.1)) t =
      (.ok (l.foldl (fun t x => t.insertIfNew x.1 (leafInfo mi x.1 x.2)) t) :
        Except MergeError PktInfoMap) := by
    intro l
    induction l with
    | nil => intro t _; rfl
    | cons x l ih =>
      obtain ⟨k, p⟩ := x
      intro t hl
      have hk := packetToPacketInfo_eq (hl (k, p) (List.mem_cons_self ..)) p
      simp only [List.foldlM_cons, List.foldl_cons, hk]
      exact ih _ fun y hy => hl y (List.mem_cons_of_mem _ hy)
  refine key _ _ fun x hx => hm x.1 ?_
  rw [TreeMap.mem_iff_isSome_getElem?, TreeMap.mem_toList_iff_getElem?_eq_some.mp hx]
  rfl

theorem packetMapToPacketInfoMap_ok (hm : ∀ k ∈ m, k ∈ mi.nodeMap) :
    ∃ infos, packetMapToPacketInfoMap mi m = .ok infos ∧
      ∀ k : Int, infos[k]? = m[k]?.map (leafInfo mi k) := by
  refine ⟨_, packetMapToPacketInfoMap_eq hm, fun k => Option.ext fun v => ?_⟩
  have hd : m.toList.Pairwise fun x y => x.1 ≠ y.1 :=
    TreeMap.distinct_keys_toList.imp fun h heq => h (by simp [heq])
  rw [TreeMaps.getElem?_foldl_insertIfNew (fun x : Int × Packet => x.1) (fun x => leafInfo mi x.1 x.2) hd]
  simp only [TreeMap.getElem?_emptyc, Option.map_eq_some_iff, reduceCtorEq, false_or, true_and]
  constructor
  · rintro ⟨⟨k', p⟩, hp, rfl, rfl⟩
    exact ⟨p, TreeMap.mem_toList_iff_getElem?_eq_some.mp hp, rfl⟩
  · rintro ⟨p, hp, rfl⟩
    exact ⟨(k, p), TreeMap.mem_toList_iff_getElem?_eq_some.mpr hp, rfl, rfl⟩

end Initial

/-! ### The conflict loop -/

section Loop
variable {memory : Memory} {mi : MergerInfo} {ci : ConflictItem} {infos infos' : PktInfoMap}

/-- The working map after `ci` has fired on `a` and `b`. -/
def mergedMap (memory : Memory) (mi : MergerInfo) (ci : ConflictItem) (infos : PktInfoMap) (a b : PacketInfo) :
    PktInfoMap :=
  ((infos.erase ci.major).erase ci.minor).insertIfNew ci.parent
    (addNodeWrites mi (resolvePacketConflict (memory infos.size) a b (some ci)))

/-- A conflict item fires exactly if both its members are in the map; then it returns a null packet
if one of them is null, and replaces them by their merge otherwise. -/
theorem tryConflict_cases {r : Except Packet PktInfoMap} (h : tryConflict memory mi ci infos = some r) :
    ∃ a b, infos[ci.major]? = some a ∧ infos[ci.minor]? = some b ∧
      ((a.pkt.isNull || b.pkt.isNull) = true ∧
          r = .error (resolvePacketConflict (memory infos.size) a b (some ci)).pkt ∨
        a.pkt.isNull = false ∧ b.pkt.isNull = false ∧ r = .ok (mergedMap memory mi ci infos a b)) := by
  unfold tryConflict at h
  split at h
  · rename_i a b ha hb
    refine ⟨a, b, ha, hb, ?_⟩
    simp only [isNull_resolve] at h
    split at h
    · cases h; exact .inl ⟨‹_›, rfl⟩
    · rename_i hn
      rw [Bool.or_eq_true, not_or, Bool.not_eq_true, Bool.not_eq_true] at hn
      cases h; exact .inr ⟨hn.1, hn.2, rfl⟩
  · cases h

theorem tryConflict_eq_none : tryConflict memory mi ci infos = none ↔ ¬ (ci.major ∈ infos ∧ ci.minor ∈ infos) := by
  simp only [TreeMap.mem_iff_isSome_getElem?]
  unfold tryConflict
  cases infos[ci.major]? <;> cases infos[ci.minor]? <;> simp
  split <;> simp

theorem tryConflict_size (hci : ci.major ≠ ci.minor) (h : tryConflict memory mi ci infos = some (.ok infos')) :
    0 < infos'.size ∧ infos'.size < infos.size := by
  obtain ⟨a, b, ha, hb, ⟨-, he⟩ | ⟨-, -, he⟩⟩ := tryConflict_cases h
  · cases he
  · cases he
    refine ⟨TreeMaps.size_pos_iff.mpr ⟨ci.parent, ?_⟩, TreeMaps.size_merge_lt hci ?_ ?_ _⟩
    · simp [mergedMap, TreeMap.mem_insertIfNew]
    · exact TreeMaps.mem_of_getElem? ha
    · exact TreeMaps.mem_of_getElem? hb

theorem run_tryConflict (hl : ∀ ci ∈ mi.conflictsList, ci.major ≠ ci.minor) {sweeps : Nat}
    (h0 : 0 < infos.size) (hs : infos.size ≤ sweeps) :
    ∃ r, Rounds.run (tryConflict memory mi) mi.conflictsList sweeps infos = some r := by
  refine Rounds.run_terminates (P := fun t => 0 < t.size) (v := fun t => t.size - 1) ?_ h0 (by omega)
  intro ci hci t t' ht hf
  have := tryConflict_size (hl ci hci) hf
  exact ⟨this.1, by omega⟩

theorem run_size_pos (hl : ∀ ci ∈ mi.conflictsList, ci.major ≠ ci.minor) {sweeps : Nat} (h0 : 0 < infos.size)
    (h : Rounds.run (tryConflict memory mi) mi.conflictsList sweeps infos = some (.ok infos')) : 0 < infos'.size := by
  refine Rounds.run_induction (P := fun t => 0 < t.size) (Q := fun _ => True) ?_ h0 h
  intro ci hci t r _ hf
  cases r with
  | error p => trivial
  | ok t' => exact (tryConflict_size (hl ci hci) hf).1

end Loop

theorem mergePacket_mono {memory : Memory} {mi : MergerInfo} {m : TreeMap Int Packet} {sweeps sweeps' : Nat}
    {r : Packet}
    (h : mergePacket sweeps memory mi m = .ok r) (hs : sweeps ≤ sweeps') : mergePacket sweeps' memory mi m = .ok r := by
  obtain ⟨infos, hi, h⟩ := Rounds.bind_ok h
  cases hrun : Rounds.run (tryConflict memory mi) mi.conflictsList sweeps infos with
  | none => rw [hrun] at h; cases h
  | some res =>
    rw [hrun] at h
    simp only [mergePacket, hi, bind, Except.bind, Rounds.run_mono hrun hs]
    exact h

end DeepNF
