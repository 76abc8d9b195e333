import DeepNF.MergeLoop
import DeepNF.MergeSlots

/-!
# What a merge can show

`resolvePacketConflict` copies fields, and the `switch` in it knows three of the five: a source address
or port that only the minor has written stays behind, although it counts as written from then on, and a payload
takes up what stands behind the minor's buffer (`resolvePacketConflict_merges_iff`). Every header field of the
merged packet is the field of one of the leaf packets. So is the payload, if and only if a NUL stands behind
its buffer wherever the merge copies it (`mergePacket_provenance_iff`).
-/

namespace DeepNF
open Std (TreeMap)

/-! ### One merge -/

/-- "A merged packet containing both major_p and minor_p's writes." -/
def Merges (major minor r : PacketInfo) : Prop :=
  (∀ F, r.pkt.value F = if F ∈ minor.writtenFields ∧ F ∉ major.writtenFields then minor.pkt.value F
    else major.pkt.value F) ∧
  r.writtenFields = minor.writtenFields ∪ major.writtenFields

theorem not_carried {F : Field} : F ∉ Field.carried ↔ F = .SIP ∨ F = .SPORT := by
  cases F <;> decide

/-- The merge of two packets has all writes exactly if the sources agree where only the minor has written, and
a payload that it copies ends with the minor's data. -/
theorem resolvePacketConflict_merges_iff (behind : List UInt8) (major minor : PacketInfo)
    (conflict : Option ConflictItem) (hmajor : major.pkt.isNull = false) (hminor : minor.pkt.isNull = false) :
    Merges major minor (resolvePacketConflict behind major minor conflict) ↔
      (∀ F, F = .SIP ∨ F = .SPORT → F ∈ minor.writtenFields → F ∉ major.writtenFields →
        minor.pkt.value F = major.pkt.value F) ∧
      (.PAYLOAD ∈ minor.writtenFields → .PAYLOAD ∉ major.writtenFields → minor.pkt.ReadsOwn behind) := by
  have hfield : ∀ F, (resolvePacketConflict behind major minor conflict).pkt.value F =
      (if F ∈ minor.writtenFields ∧ F ∉ major.writtenFields then minor.pkt.value F else major.pkt.value F) ↔
      (F ∈ minor.writtenFields → F ∉ major.writtenFields →
        if F ∈ Field.carried then F = .PAYLOAD → minor.pkt.ReadsOwn behind
        else minor.pkt.value F = major.pkt.value F) := by
    intro F
    rw [value_resolve hmajor hminor]
    by_cases hF : F ∈ minor.writtenFields ∧ F ∉ major.writtenFields
    · by_cases hc : F ∈ Field.carried
      · rw [if_pos ⟨hF.1, hF.2, hc⟩, if_pos hF, if_pos hc, Packet.read_eq_iff]
        exact ⟨fun h _ _ => h, fun h => h hF.1 hF.2⟩
      · rw [if_neg fun h => hc h.2.2, if_pos hF, if_neg hc]
        exact ⟨fun h _ _ => h.symm, fun h => (h hF.1 hF.2).symm⟩
    · rw [if_neg fun h => hF ⟨h.1, h.2.1⟩, if_neg hF]
      exact iff_of_true rfl fun hm hn => absurd ⟨hm, hn⟩ hF
  unfold Merges
  rw [and_iff_left (writtenFields_resolve hmajor hminor)]
  simp only [hfield]
  constructor
  · intro h
    refine ⟨fun F hF hm hn => ?_, fun hm hn => ?_⟩
    · simpa only [not_carried.mpr hF, if_false] using h F hm hn
    · have hc : Field.PAYLOAD ∈ Field.carried := by decide
      simpa only [hc, if_true, true_implies] using h .PAYLOAD hm hn
  · rintro ⟨hsource, hpayload⟩ F hm hn
    split
    · rintro rfl
      exact hpayload hm hn
    · exact hsource F (not_carried.mp ‹_›) hm hn

/-- Two packets with the same source, of which the minor has not written the payload. -/
theorem resolvePacketConflict_merges_hello :
    Merges ⟨0, hello, {.DIP}⟩ ⟨1, hello.writeDestPort 8080, {.SIP, .DPORT}⟩
      (resolvePacketConflict [65] ⟨0, hello, {.DIP}⟩ ⟨1, hello.writeDestPort 8080, {.SIP, .DPORT}⟩ none) := by
  have hnull : (hello.writeDestPort 8080).isNull = false := by decide
  have hiff := resolvePacketConflict_merges_iff [65] ⟨0, hello, {.DIP}⟩
    ⟨1, hello.writeDestPort 8080, {.SIP, .DPORT}⟩ none (by decide) hnull
  refine hiff.mpr ⟨?_, fun h => absurd h (by decide)⟩
  rintro F (rfl | rfl) - - <;> decide

/-- The source address that the minor has written is not in the merged packet. -/
theorem resolvePacketConflict_loses_source :
    let minor : Packet := .make "10.0.0.9" 80 "10.0.0.2" 90 7 [104, 101, 108, 108, 111]
    let r := resolvePacketConflict [] ⟨0, hello, ∅⟩ ⟨1, minor, {.SIP}⟩ none
    hello.isNull = false ∧ minor.isNull = false ∧ ¬ Merges ⟨0, hello, ∅⟩ ⟨1, minor, {.SIP}⟩ r ∧
      minor.getSrcIp = "10.0.0.9" ∧ r.pkt.getSrcIp = "10.0.0.1" ∧ r.writtenFields = {.SIP} := by
  refine ⟨by decide, by decide, fun h => ?_, by decide, by decide, by decide⟩
  have hsip := h.1 .SIP
  revert hsip
  decide

/-! ### The merge of a map of packets -/

/-- Every header field of `p` is that of a packet in `m`; the source and the id are all from one of them. -/
structure Stems (m : TreeMap Int Packet) (p : Packet) : Prop where
  isNull : p.isNull = false
  header : ∃ (k : Int) (q : Packet), m[k]? = some q ∧ p.ipSrc = q.ipSrc ∧ p.source = q.source ∧ p.ipId = q.ipId
  value : ∀ F, F ≠ .PAYLOAD → ∃ (k : Int) (q : Packet), m[k]? = some q ∧ p.value F = q.value F

def AllStem (m : TreeMap Int Packet) (infos : PktInfoMap) : Prop :=
  ∀ (k : Int) pi, infos[k]? = some pi → Stems m pi.pkt

section
variable {memory : Memory} {mi : MergerInfo} {ci : ConflictItem} {m : TreeMap Int Packet} {infos : PktInfoMap}
  {a b : PacketInfo}

theorem Stems.resolve (behind : List UInt8) (c : Option ConflictItem) (ha : Stems m a.pkt) (hb : Stems m b.pkt) :
    Stems m (resolvePacketConflict behind a b c).pkt where
  isNull := by rw [isNull_resolve, ha.isNull, hb.isNull]; rfl
  header := by
    obtain ⟨k, q, hq, hsrc, hport, hid⟩ := ha.header
    obtain ⟨h₁, h₂, h₃⟩ := @header_resolve behind a b c ha.isNull hb.isNull
    exact ⟨k, q, hq, h₁.trans hsrc, h₂.trans hport, h₃.trans hid⟩
  value F hF := by
    rw [value_resolve ha.isNull hb.isNull, Packet.read_of_ne hF]
    split
    · exact hb.value F hF
    · exact ha.value F hF

theorem AllStem.merge (h : AllStem m infos) (ha : Stems m a.pkt) (hb : Stems m b.pkt) :
    AllStem m (mergedMap memory mi ci infos a b) := by
  intro k pi hk
  rw [mergedMap, TreeMaps.getElem?_merge, Option.or_eq_some_iff] at hk
  rcases hk with hk | ⟨-, hk⟩ <;> split at hk
  · cases hk
  · exact h k pi hk
  · cases hk
    exact ha.resolve _ (some ci) hb
  · cases hk

theorem AllStem.run {sweeps : Nat} {r : Except Packet PktInfoMap} (h : AllStem m infos)
    (hr : Rounds.run (tryConflict memory mi) mi.conflictsList sweeps infos = some r) :
    Rounds.Ends (AllStem m) (fun _ => False) r := by
  refine Rounds.run_induction (fun ci _ t r ht hf => ?_) h hr
  obtain ⟨a, b, ha, hb, ⟨hn, -⟩ | ⟨-, -, rfl⟩⟩ := tryConflict_cases hf
  · rw [(ht _ _ ha).isNull, (ht _ _ hb).isNull] at hn
    cases hn
  · exact ht.merge (ht _ _ ha) (ht _ _ hb)

theorem stems_mergeAll {l : List PacketInfo} (hl : ∀ q ∈ l, Stems m q.pkt) (ha : Stems m a.pkt) :
    Stems m (mergeAll memory a l).pkt := by
  induction l generalizing a with
  | nil => exact ha
  | cons b l ih =>
    obtain ⟨hb, hl⟩ := List.forall_mem_cons.mp hl
    exact ih hl (ha.resolve _ none hb)

theorem AllStem.rest (h : AllStem m infos) {r : Packet} (hr : mergeRest memory (infos.toList.map (·.2)) = .ok r) :
    Stems m r := by
  have hall : ∀ q ∈ infos.toList.map (·.2), Stems m q.pkt := by
    intro q hq
    obtain ⟨⟨k, q⟩, hx, rfl⟩ := List.mem_map.mp hq
    exact h k q (TreeMap.mem_toList_iff_getElem?_eq_some.mp hx)
  generalize infos.toList.map (·.2) = l at hr hall
  cases l with
  | nil => cases hr
  | cons q l =>
    cases hr
    obtain ⟨hq, hl⟩ := List.forall_mem_cons.mp hall
    exact stems_mergeAll hl hq

theorem mergePacket_stems (hnull : ∀ (k : Int) p, m[k]? = some p → p.isNull = false) {sweeps : Nat} {r : Packet}
    (h : mergePacket sweeps memory mi m = .ok r) : Stems m r := by
  obtain ⟨infos, hi, h⟩ := Rounds.bind_ok h
  obtain ⟨infos', hi', hget⟩ := packetMapToPacketInfoMap_ok (mem_nodeMap_of_ok hi)
  obtain rfl := Except.ok.inj (hi.symm.trans hi')
  have hinit : AllStem m infos := by
    intro k pi hk
    rw [hget, Option.map_eq_some_iff] at hk
    obtain ⟨p, hp, rfl⟩ := hk
    exact ⟨hnull k p hp, ⟨k, p, hp, rfl, rfl, rfl⟩, fun _ _ => ⟨k, p, hp, rfl⟩⟩
  cases hrun : Rounds.run (tryConflict memory mi) mi.conflictsList sweeps infos with
  | none => rw [hrun] at h; cases h
  | some res =>
    rw [hrun] at h
    have hend := hinit.run hrun
    cases res with
    | error p => exact hend.elim
    | ok infos' => exact hend.rest h

end

/-- Every field of `r` is that of one of the packets in `m`; the source address, the source port and the id are all
taken from one of them. -/
structure FromLeaves (m : TreeMap Int Packet) (r : Packet) : Prop where
  header : ∃ (k : Int) (q : Packet), m[k]? = some q ∧ r.getSrcIp = q.getSrcIp ∧ r.getSrcPort = q.getSrcPort ∧
    r.getPktId = q.getPktId
  destIp : ∃ (k : Int) (q : Packet), m[k]? = some q ∧ r.getDestIp = q.getDestIp
  destPort : ∃ (k : Int) (q : Packet), m[k]? = some q ∧ r.getDestPort = q.getDestPort
  payload : ∃ (k : Int) (q : Packet), m[k]? = some q ∧ r.payload = q.payload

/-- With how many packets left the payload of the merged packet has been copied; only the ids of the nodes are
needed to tell. -/
def payloadCopies (mi : MergerInfo) (keys : List Int) : List Nat :=
  ((slotMerge keys.length mi keys).map (·.copies .PAYLOAD)).getD []

section
variable {memory : Memory} {mi : MergerInfo} {m : TreeMap Int Packet} {keys : List Int}

theorem slotMerge_mono {sweeps sweeps' : Nat} {s : Slot} (h : slotMerge sweeps mi keys = some s)
    (hs : sweeps ≤ sweeps') : slotMerge sweeps' mi keys = some s := by
  cases hst : stableSlots sweeps mi keys with
  | none => rw [slotMerge, hst] at h; cases h
  | some slots =>
    have hst' := stableSlots_eq_some.mpr (Rounds.run_mono (stableSlots_eq_some.mp hst) hs)
    rw [slotMerge, hst] at h
    rw [slotMerge, hst']
    exact h

theorem Stems.fromLeaves {r : Packet} (h : Stems m r)
    (hpayload : ∃ (k : Int) (q : Packet), m[k]? = some q ∧ r.payload = q.payload) : FromLeaves m r where
  header := by
    obtain ⟨k, q, hq, hsrc, hport, hid⟩ := h.header
    exact ⟨k, q, hq, congrArg inetNtop hsrc, congrArg ntohs hport, congrArg ntohs hid⟩
  destIp := by
    obtain ⟨k, q, hq, hv⟩ := h.value .DIP (by decide)
    exact ⟨k, q, hq, Value.ip.inj hv⟩
  destPort := by
    obtain ⟨k, q, hq, hv⟩ := h.value .DPORT (by decide)
    exact ⟨k, q, hq, Value.port.inj hv⟩
  payload := hpayload

theorem mergePacket_copies (hl : ∀ ci ∈ mi.conflictsList, ci.major ≠ ci.minor) (hnodes : ∀ k ∈ keys, k ∈ mi.nodeMap)
    (hne : keys ≠ []) (hm : PacketsOf keys m) {sweeps : Nat} (hs : keys.length ≤ sweeps) :
    ∃ r s, mergePacket sweeps memory mi m = .ok r ∧ Rep memory m r s ∧ s.copies .PAYLOAD = payloadCopies mi keys := by
  obtain ⟨-, s₀, -, hs₀, -⟩ := @mergePacket_slots memory mi m keys hl hnodes hne hm _ (Nat.le_refl _)
  obtain ⟨r, s, hr, hslots, hrep⟩ := @mergePacket_slots memory mi m keys hl hnodes hne hm _ hs
  obtain rfl := Option.some.inj ((slotMerge_mono hs₀ hs).symm.trans hslots)
  exact ⟨r, s₀, hr, hrep, by rw [payloadCopies, hs₀]; rfl⟩

/-- The merge returns a packet if the nodes of the packets exist. For all packets of these nodes, every field of it is
that of one of them exactly if a NUL stands behind the payload wherever the merge copies it. -/
theorem mergePacket_provenance_iff (memory : Memory) (mi : MergerInfo)
    (hl : ∀ ci ∈ mi.conflictsList, ci.major ≠ ci.minor) (hne : keys ≠ []) {sweeps : Nat}
    (hs : keys.length ≤ sweeps) :
    (∀ m, PacketsOf keys m → (∀ k ∈ keys, k ∈ mi.nodeMap) → ∃ r, mergePacket sweeps memory mi m = .ok r) ∧
    ((∀ m, PacketsOf keys m → (∀ (k : Int) p, m[k]? = some p → 0 ∉ p.data) →
        ∀ r, mergePacket sweeps memory mi m = .ok r → FromLeaves m r) ↔
      ((∀ k ∈ keys, k ∈ mi.nodeMap) → CleanCopies memory (payloadCopies mi keys))) := by
  refine ⟨fun m hm hnodes => ?_, fun hall hnodes => ?_, fun hclean m hm _ r hr => ?_⟩
  · obtain ⟨r, -, hr, -⟩ := mergePacket_copies hl hnodes hne hm hs
    exact ⟨r, hr⟩
  · -- the same packet everywhere: its payload comes back as it is only if nothing is taken up
    have hm : PacketsOf keys (TreeMaps.tabulate (fun _ => hello) keys) := packetsOf_tabulate fun _ => by decide
    have hpkt : ∀ (k : Int) p, (TreeMaps.tabulate (fun _ => hello) keys)[k]? = some p → p = hello := by
      intro k p hp
      rw [TreeMaps.getElem?_tabulate] at hp
      split at hp <;> cases hp
      rfl
    have hfree : 0 ∉ hello.data := by decide
    obtain ⟨r, s, hr, hrep, hcopies⟩ := mergePacket_copies hl hnodes hne hm hs
    obtain ⟨j, q, hq, hv⟩ := (hall _ hm (fun k p hp => hpkt k p hp ▸ hfree) r hr).payload
    obtain ⟨q', hq'⟩ := hrep.exists_src .PAYLOAD
    rw [← hcopies]
    refine hrep.clean_of_value hq' (hpkt _ _ hq' ▸ hfree) (congrArg Value.payload ?_) rfl
    rw [hv, hpkt j q hq, hpkt _ q' hq']
  · have hnodes : ∀ k ∈ keys, k ∈ mi.nodeMap := by
      obtain ⟨infos, hi, -⟩ := Rounds.bind_ok hr
      exact fun k hk => mem_nodeMap_of_ok hi k ((hm.mem_iff k).mpr hk)
    obtain ⟨r', s, hr', hrep, hcopies⟩ := mergePacket_copies hl hnodes hne hm hs
    obtain rfl := Except.ok.inj (hr.symm.trans hr')
    obtain ⟨q, hq, hv⟩ := hrep.value (F := .PAYLOAD) fun _ => hcopies ▸ hclean hnodes
    exact (mergePacket_stems hm.isNull hr).fromLeaves ⟨_, q, hq, Value.payload.inj hv⟩

end

def firewallCompressor : MergerInfo :=
  { getDummyMergerInfo with
    nodeMap := .ofList ([(0, { id := 0, nf := .dnfFirewall }), (1, { id := 1, nf := .compressor })] :
      List (Int × RuntimeNode)) }

def helloAndHi : TreeMap Int Packet :=
  TreeMaps.tabulate (fun k => if k = 1 then hello.writePayload [104, 105] else hello) [0, 1]

theorem helloAndHi_packetsOf : PacketsOf [0, 1] helloAndHi :=
  packetsOf_tabulate fun k => by split <;> decide

theorem helloAndHi_payload {k : Int} {p : Packet} (hp : helloAndHi[k]? = some p) :
    0 ∉ p.data ∧ (p.payload = [104, 101, 108, 108, 111] ∨ p.payload = [104, 105]) := by
  rw [helloAndHi, TreeMaps.getElem?_tabulate] at hp
  split at hp <;> cases hp
  split <;> decide

/-- A NUL stands behind the compressor's payload. -/
theorem mergePacket_provenance_compressor : ∃ r,
    mergePacket 2 (fun _ => [0, 65]) firewallCompressor helloAndHi = .ok r ∧ FromLeaves helloAndHi r := by
  obtain ⟨hreturns, hiff⟩ := @mergePacket_provenance_iff [0, 1] (fun _ => [0, 65]) firewallCompressor
    (by decide) (by decide) 2 (Nat.le_refl 2)
  obtain ⟨r, hr⟩ := hreturns helloAndHi helloAndHi_packetsOf (by decide)
  refine ⟨r, hr, hiff.mpr (fun _ => ?_) helloAndHi helloAndHi_packetsOf (fun k p hp => (helloAndHi_payload hp).1) r hr⟩
  unfold CleanCopies
  decide

/-- An 'A' stands there. -/
theorem mergePacket_invents_payload :
    (∀ ci ∈ firewallCompressor.conflictsList, ci.major ≠ ci.minor) ∧ PacketsOf [0, 1] helloAndHi ∧
      (∀ (k : Int) p, helloAndHi[k]? = some p → 0 ∉ p.data) ∧
      ∃ r, mergePacket 2 (fun _ => [65]) firewallCompressor helloAndHi = .ok r ∧ r.payload = [104, 105, 65] ∧
        ¬ FromLeaves helloAndHi r := by
  obtain ⟨r, hr, hpay⟩ := Rounds.exists_ok (P := fun r : Packet => r.payload = [104, 105, 65])
    (x := mergePacket 2 (fun _ => [65]) firewallCompressor helloAndHi) (by decide)
  refine ⟨by decide, helloAndHi_packetsOf, fun k p hp => (helloAndHi_payload hp).1, r, hr, hpay, fun h => ?_⟩
  obtain ⟨k, q, hq, hv⟩ := h.payload
  rw [hpay] at hv
  rcases (helloAndHi_payload hq).2 with h | h <;> rw [h] at hv <;> exact absurd hv (by decide)

end DeepNF
