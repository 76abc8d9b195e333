import DeepNF.Bracketing
import DeepNF.MergeSlots

/-!
# Merging without conflicts

The final phase of `mergePacket` counts on packets without conflicts, so that it may "randomly select major
and minor". For packets that were made of one packet by functions with disjoint write sets this is right but for
the payload: the merge of the family has every write, in any order and with any brackets, exactly if a NUL stands
behind the payload wherever it is copied (`resolve_orderFree_iff`), also in the order of the final phase
(`mergeRest_orderFree`).
-/

namespace DeepNF

/-- `a` is `p` with new values for the fields in `a.writtenFields`. -/
structure Derived (p : Packet) (a : PacketInfo) : Prop where
  isNull : a.pkt.isNull = false
  id : a.pkt.getPktId = p.getPktId
  carried : a.writtenFields ⊆ Field.carried
  unwritten : ∀ F, F ∉ a.writtenFields → a.pkt.value F = p.value F

/-- `r` is `p` with the writes of every member of the family. -/
structure Updated (p : Packet) (family : List PacketInfo) (r : PacketInfo) : Prop extends Derived p r where
  writtenFields : ∀ F, F ∈ r.writtenFields ↔ ∃ a ∈ family, F ∈ a.writtenFields
  written : ∀ a ∈ family, ∀ F ∈ a.writtenFields, r.pkt.value F = a.pkt.value F

/-- A fold of packets without conflict items; every merge finds bytes behind the buffer of the minor. -/
abbrev MergeTree := Bracketing (List UInt8) PacketInfo

namespace MergeTree

def merge (t : MergeTree) : PacketInfo :=
  t.eval fun behind major minor => resolvePacketConflict behind major minor none

def WritesPayload (t : MergeTree) : Prop := ∃ a ∈ t.leaves, .PAYLOAD ∈ a.writtenFields

instance (t : MergeTree) : Decidable t.WritesPayload := inferInstanceAs (Decidable (∃ a ∈ t.leaves, _))

/-- A NUL stands behind the payload wherever it is the minor's and copied. -/
def Clean : MergeTree → Prop
  | .of _ => True
  | .mul behind s t => if WritesPayload t then Packet.stray behind = [] ∧ Clean t else Clean s

def strays : MergeTree → List UInt8
  | .of _ => []
  | .mul behind s t => if WritesPayload t then strays t ++ Packet.stray behind else strays s

theorem strays_eq_nil_iff : ∀ t : MergeTree, strays t = [] ↔ Clean t
  | .of _ => iff_of_true rfl trivial
  | .mul behind s t => by
    rw [strays, Clean]
    split
    · rw [List.append_eq_nil_iff, strays_eq_nil_iff t, and_comm]
    · exact strays_eq_nil_iff s

theorem writesPayload_of_strays : ∀ t : MergeTree, strays t ≠ [] → WritesPayload t
  | .of _, h => absurd rfl h
  | .mul behind s t, h => by
    rw [strays] at h
    split at h
    · rename_i hw
      exact hw.imp fun _ ha => ⟨List.mem_append_right _ ha.1, ha.2⟩
    · exact (writesPayload_of_strays s h).imp fun _ ha => ⟨List.mem_append_left _ ha.1, ha.2⟩

end MergeTree

/-- `r` is `p` with the writes of every member of the family, the payload with `extra` behind it. -/
structure Combined (p : Packet) (family : List PacketInfo) (extra : List UInt8) (r : PacketInfo) : Prop
    extends Derived p r where
  free : 0 ∉ r.pkt.data
  writtenFields : ∀ F, F ∈ r.writtenFields ↔ ∃ a ∈ family, F ∈ a.writtenFields
  written : ∀ a ∈ family, ∀ F ∈ a.writtenFields, F ≠ .PAYLOAD → r.pkt.value F = a.pkt.value F
  payload : ∀ a ∈ family, .PAYLOAD ∈ a.writtenFields → r.pkt.data = a.pkt.data ++ extra

section
variable {p : Packet} {l l' family : List PacketInfo} {a b : PacketInfo} {x y : List UInt8}

theorem Derived.combined (h : Derived p a) (hfree : 0 ∉ a.pkt.data) : Combined p [a] [] a where
  toDerived := h
  free := hfree
  writtenFields F := by simp
  written b hb F _ _ := by rw [List.mem_singleton.mp hb]
  payload b hb _ := by rw [List.mem_singleton.mp hb, List.append_nil]

theorem Combined.resolve (ha : Combined p l x a) (hb : Combined p l' y b)
    (hdisj : ∀ c ∈ l, ∀ d ∈ l', Disjoint c.writtenFields d.writtenFields) (behind : List UInt8) :
    Combined p (l ++ l') (if ∃ d ∈ l', .PAYLOAD ∈ d.writtenFields then y ++ Packet.stray behind else x)
      (resolvePacketConflict behind a b none) := by
  have hwritten := @writtenFields_resolve behind a b none ha.isNull hb.isNull
  have hvalue := @value_resolve behind a b none ha.isNull hb.isNull
  have hdata := @data_resolve behind a b none ha.isNull hb.isNull
  have hnot : ∀ F, F ∈ b.writtenFields → F ∉ a.writtenFields := by
    intro F hFb hFa
    obtain ⟨c, hc, hFc⟩ := (ha.writtenFields F).mp hFa
    obtain ⟨d, hd, hFd⟩ := (hb.writtenFields F).mp hFb
    exact Finset.disjoint_left.mp (hdisj c hc d hd) hFc hFd
  -- the minor's fields are exactly those that are copied
  have hminor : ∀ F, F ∈ b.writtenFields → F ≠ .PAYLOAD →
      (resolvePacketConflict behind a b none).pkt.value F = b.pkt.value F := fun F hF hp => by
    rw [hvalue, if_pos ⟨hF, hnot F hF, hb.carried hF⟩, Packet.read_of_ne hp]
  have hmajor : ∀ F, F ∉ b.writtenFields →
      (resolvePacketConflict behind a b none).pkt.value F = a.pkt.value F := fun F hF => by
    rw [hvalue, if_neg fun h => hF h.1]
  have hcopied : .PAYLOAD ∈ b.writtenFields →
      (resolvePacketConflict behind a b none).pkt.data = b.pkt.data ++ Packet.stray behind := fun hF => by
    rw [hdata, if_pos ⟨hF, hnot _ hF⟩, Packet.getPayload_of_free hb.free]
  have hkept : .PAYLOAD ∉ b.writtenFields →
      (resolvePacketConflict behind a b none).pkt.data = a.pkt.data := fun hF => by
    rw [hdata, if_neg fun h => hF h.1]
  refine { isNull := ?_, id := ?_, carried := ?_, unwritten := ?_, free := ?_, writtenFields := ?_,
           written := ?_, payload := ?_ }
  · rw [isNull_resolve, ha.isNull, hb.isNull]
    rfl
  · exact (congrArg ntohs (header_resolve ha.isNull hb.isNull).2.2).trans ha.id
  · rw [hwritten]
    exact Finset.union_subset hb.carried ha.carried
  · intro F hF
    rw [hwritten, Finset.mem_union, not_or] at hF
    rw [hmajor F hF.1, ha.unwritten F hF.2]
  · by_cases hF : .PAYLOAD ∈ b.writtenFields
    · rw [hcopied hF, List.mem_append, not_or]
      exact ⟨hb.free, Packet.zero_notMem_takeWhile behind⟩
    · rw [hkept hF]
      exact ha.free
  · intro F
    rw [hwritten, Finset.mem_union, ha.writtenFields, hb.writtenFields, or_comm]
    simp only [List.mem_append, or_and_right, exists_or]
  · intro c hc F hF hp
    rcases List.mem_append.mp hc with hc | hc
    · have hFa := (ha.writtenFields F).mpr ⟨c, hc, hF⟩
      rw [hmajor F fun hFb => hnot F hFb hFa, ha.written c hc F hF hp]
    · rw [hminor F ((hb.writtenFields F).mpr ⟨c, hc, hF⟩) hp, hb.written c hc F hF hp]
  · intro c hc hF
    rcases List.mem_append.mp hc with hc | hc
    · have hFb : .PAYLOAD ∉ b.writtenFields := fun h => hnot _ h ((ha.writtenFields _).mpr ⟨c, hc, hF⟩)
      rw [hkept hFb, if_neg fun h => hFb ((hb.writtenFields _).mpr h), ha.payload c hc hF]
    · rw [hcopied ((hb.writtenFields _).mpr ⟨c, hc, hF⟩), if_pos ⟨c, hc, hF⟩, hb.payload c hc hF, List.append_assoc]

theorem combined_merge (t : MergeTree) (hfam : ∀ a ∈ t.leaves, Derived p a) (hfree : ∀ a ∈ t.leaves, 0 ∉ a.pkt.data)
    (hdisj : t.leaves.Pairwise fun a b => Disjoint a.writtenFields b.writtenFields) :
    Combined p t.leaves t.strays t.merge := by
  refine Bracketing.eval_rule (P := fun t r => (∀ a ∈ t.leaves, Derived p a) → (∀ a ∈ t.leaves, 0 ∉ a.pkt.data) →
    t.leaves.Pairwise (fun a b => Disjoint a.writtenFields b.writtenFields) →
    Combined p t.leaves (MergeTree.strays t) r) ?_ ?_ t hfam hfree hdisj
  · intro a ha hf _
    exact (ha a (List.mem_singleton_self a)).combined (hf a (List.mem_singleton_self a))
  · intro behind s t a b ha hb hall hf hpair
    obtain ⟨hs, ht, hcross⟩ := List.pairwise_append.mp hpair
    have ha := ha (fun c hc => hall c (List.mem_append_left _ hc)) (fun c hc => hf c (List.mem_append_left _ hc)) hs
    have hb := hb (fun c hc => hall c (List.mem_append_right _ hc)) (fun c hc => hf c (List.mem_append_right _ hc)) ht
    exact ha.resolve hb hcross behind

theorem Combined.updated_iff (h : Combined p l x a) (hx : x ≠ [] → ∃ c ∈ l, .PAYLOAD ∈ c.writtenFields)
    (hfree : ∀ c ∈ l, 0 ∉ c.pkt.data) : Updated p l a ↔ x = [] := by
  have hpayload : ∀ c ∈ l, .PAYLOAD ∈ c.writtenFields →
      (a.pkt.value .PAYLOAD = c.pkt.value .PAYLOAD ↔ x = []) := by
    intro c hc hF
    rw [Packet.value, Packet.value, Value.payload.injEq, Packet.payload_of_free h.free,
      Packet.payload_of_free (hfree c hc), h.payload c hc hF, List.append_right_eq_self]
  constructor
  · intro hu
    by_contra hne
    obtain ⟨c, hc, hF⟩ := hx hne
    exact hne ((hpayload c hc hF).mp (hu.written c hc _ hF))
  · intro hnil
    refine { toDerived := h.toDerived, writtenFields := h.writtenFields, written := fun c hc F hF => ?_ }
    by_cases hp : F = .PAYLOAD
    · subst hp
      exact (hpayload c hc hF).mpr hnil
    · exact h.written c hc F hF hp

theorem Updated.perm (h : Updated p l a) (hl : l.Perm family) : Updated p family a where
  toDerived := h.toDerived
  writtenFields F := by
    rw [h.writtenFields]
    exact exists_congr fun b => and_congr_left fun _ => hl.mem_iff
  written b hb := h.written b (hl.mem_iff.mpr hb)

/-- Merging packets that were made of one packet, with disjoint writes: whatever the order and the brackets, the
result is that packet with all writes, exactly if a NUL stands behind the payload wherever it is copied. -/
theorem resolve_orderFree_iff (hfam : ∀ a ∈ family, Derived p a) (hfree : ∀ a ∈ family, 0 ∉ a.pkt.data)
    (hdisj : family.Pairwise fun a b => Disjoint a.writtenFields b.writtenFields) (t : MergeTree)
    (ht : t.leaves.Perm family) : Updated p family t.merge ↔ t.Clean := by
  have hfree' : ∀ a ∈ t.leaves, 0 ∉ a.pkt.data := fun a ha => hfree a (ht.mem_iff.mp ha)
  have h := combined_merge t (fun a ha => hfam a (ht.mem_iff.mp ha)) hfree'
    (hdisj.perm ht.symm fun h => Disjoint.symm h)
  rw [← t.strays_eq_nil_iff, ← h.updated_iff t.writesPayload_of_strays hfree']
  exact ⟨fun hu => hu.perm ht.symm, fun hu => hu.perm ht⟩

theorem mergeAll_eq_merge (memory : Memory) (t : MergeTree) (l : List PacketInfo) :
    mergeAll memory t.merge l = MergeTree.merge (t.left memory l) := by
  induction l generalizing t with
  | nil => rfl
  | cons a l ih => exact ih (.mul (memory (l.length + 2)) t (.of a))

theorem mergeRest_orderFree {memory : Memory} (hfam : ∀ a ∈ family, Derived p a)
    (hfree : ∀ a ∈ family, 0 ∉ a.pkt.data)
    (hdisj : family.Pairwise fun a b => Disjoint a.writtenFields b.writtenFields) (hl : l.Perm family) {r : Packet}
    (hr : mergeRest memory l = .ok r) :
    ∃ (t : MergeTree) (info : PacketInfo), t.leaves = l ∧ info.pkt = r ∧ (Updated p family info ↔ t.Clean) := by
  cases l with
  | nil => cases hr
  | cons a l =>
    cases hr
    have hleaves : (Bracketing.left memory (.of a) l).leaves = a :: l := Bracketing.leaves_left ..
    refine ⟨Bracketing.left memory (.of a) l, mergeAll memory a l, hleaves, rfl, ?_⟩
    have h := resolve_orderFree_iff hfam hfree hdisj (Bracketing.left memory (.of a) l) (by rwa [hleaves])
    rwa [← mergeAll_eq_merge] at h

end

/-! ### A proxy and a compressor that work on `hello` -/

def proxied : PacketInfo := ⟨1, hello.writeDestPort 8080, {.DIP, .DPORT}⟩

def compressed : PacketInfo := ⟨2, hello.writePayload [104, 105], {.PAYLOAD}⟩

theorem derived_proxied : Derived hello proxied := by
  refine ⟨by decide, by decide, by decide, fun F hF => ?_⟩
  cases F <;> first | exact absurd (by decide) hF | simp [proxied, Packet.value, Packet.getSrcIp, Packet.getSrcPort,
    Packet.payload]

theorem derived_compressed : Derived hello compressed := by
  refine ⟨by decide, by decide, by decide, fun F hF => ?_⟩
  cases F <;> first | exact absurd (by decide) hF | simp [compressed, Packet.value, Packet.getSrcIp,
    Packet.getSrcPort, Packet.getDestIp, Packet.getDestPort]

theorem disjoint_proxied_compressed :
    (∀ a ∈ [proxied, compressed], Derived hello a) ∧ (∀ a ∈ [proxied, compressed], 0 ∉ a.pkt.data) ∧
      [proxied, compressed].Pairwise fun a b => Disjoint a.writtenFields b.writtenFields := by
  refine ⟨fun a ha => ?_, fun a ha => ?_, List.pairwise_pair.mpr (by decide)⟩ <;>
    rcases List.mem_pair.mp ha with rfl | rfl
  exacts [derived_proxied, derived_compressed, by decide, by decide]

/-- The compressor's packet is the major, and its payload is not copied. -/
theorem resolve_orderFree_hello :
    Updated hello [proxied, compressed] (MergeTree.merge (.mul [65] (.of compressed) (.of proxied))) := by
  obtain ⟨hfam, hfree, hdisj⟩ := disjoint_proxied_compressed
  have hperm : [compressed, proxied].Perm [proxied, compressed] := .swap proxied compressed []
  have hclean : MergeTree.Clean (.mul [65] (.of compressed) (.of proxied)) := by
    rw [MergeTree.Clean, if_neg (by decide)]
    trivial
  exact (resolve_orderFree_iff hfam hfree hdisj (.mul [65] (.of compressed) (.of proxied)) hperm).mpr hclean

/-- The compressor's packet is the minor, and an 'A' stands behind its payload "hi". -/
theorem resolve_orderFree_stray :
    (∀ a ∈ [proxied, compressed], Derived hello a) ∧ (∀ a ∈ [proxied, compressed], 0 ∉ a.pkt.data) ∧
      ([proxied, compressed].Pairwise fun a b => Disjoint a.writtenFields b.writtenFields) ∧
      (MergeTree.merge (.mul [65] (.of proxied) (.of compressed))).pkt.payload = [104, 105, 65] ∧
      ¬ Updated hello [proxied, compressed] (MergeTree.merge (.mul [65] (.of proxied) (.of compressed))) := by
  obtain ⟨hfam, hfree, hdisj⟩ := disjoint_proxied_compressed
  have hpay : (MergeTree.merge (.mul [65] (.of proxied) (.of compressed))).pkt.payload = [104, 105, 65] := by decide
  refine ⟨hfam, hfree, hdisj, hpay, fun h => ?_⟩
  have hwritten : Value.payload _ = Value.payload _ := h.written compressed (by simp) .PAYLOAD (by decide)
  rw [hpay] at hwritten
  exact absurd hwritten (by decide)

end DeepNF
