import DeepNF.MergeSlots
import Mathlib.Data.Finset.Erase

/-!
# The writes of a leaf

A field that only one leaf has written is carried by every merge of its packet with another. It can
only be lost with the whole packet: `insert` leaves an entry that is already there alone, so a merged
packet whose parent id is taken by a third packet disappears. `Track` replays the conflict loop on node
ids and follows the packet of one leaf; the write survives exactly if the packet does, and a payload if
nothing is read behind its buffer where it is copied (`mergePacket_carries_iff`).
-/

namespace DeepNF
open Std (TreeMap)

/-- The ids that have a packet, the id that the packet of a certain leaf has, until it is lost, and the merges that
have copied what the leaf has written. -/
structure Track where
  held : Finset Int
  pos : Option Int
  copies : List Nat

/-- A conflict item on ids: an item that takes the packet to an id that is still held loses it. -/
def Track.fire (ci : ConflictItem) (t : Track) : Option (Except Empty Track) :=
  if ci.major ∈ t.held ∧ ci.minor ∈ t.held then
    let rest := (t.held.erase ci.major).erase ci.minor
    some (.ok
      { held := insert ci.parent rest
        pos :=
          if t.pos = some ci.major ∨ t.pos = some ci.minor then
            if ci.parent ∈ rest then none else some ci.parent
          else t.pos
        copies := if t.pos = some ci.minor then t.copies ++ [t.held.card] else t.copies })
  else none

def Track.start (mi : MergerInfo) (nodeId : Int) : Track := ⟨mi.leaves.toFinset, some nodeId, []⟩

def Track.allCopies (t : Track) : List Nat := t.copies ++ (t.pos.map (lastCopy t.held)).getD []

def Track.run (mi : MergerInfo) (nodeId : Int) : Option Track :=
  match Rounds.run Track.fire mi.conflictsList mi.leaves.length (Track.start mi nodeId) with
  | some (.ok t) => some t
  | _ => none

/-- No item that fires loses the packet of the leaf. -/
def keeps (mi : MergerInfo) (nodeId : Int) : Bool := ((Track.run mi nodeId).bind (·.pos)).isSome

def copiesOf (mi : MergerInfo) (nodeId : Int) : List Nat := ((Track.run mi nodeId).map (·.allCopies)).getD []

section
variable {memory : Memory} {mi : MergerInfo} {slots : SlotMap} {t : Track} {L : Int} {F : Field} {ci : ConflictItem}

/-- The slot that `t` follows is the one with `F` written, and the only one with `F` from `L`. -/
structure Follows (L : Int) (F : Field) (slots : SlotMap) (t : Track) : Prop where
  mem_iff : ∀ k, k ∈ slots ↔ k ∈ t.held
  fields : ∀ (k : Int) s, slots[k]? = some s → (F ∈ s.fields ↔ t.pos = some k)
  src : ∀ (k : Int) s, slots[k]? = some s → (s.src F = L ↔ t.pos = some k)
  pos : ∀ k, t.pos = some k → k ∈ t.held
  copies : ∀ (k : Int) s, slots[k]? = some s → t.pos = some k → s.copies F = t.copies

theorem follows_start (hL : L ∈ mi.leaves) (hw : F ∈ nodeWrites mi L)
    (hother : ∀ k ∈ mi.leaves, k ≠ L → F ∉ nodeWrites mi k) :
    Follows L F (leafSlots mi) (Track.start mi L) := by
  refine ⟨fun k => ?_, fun k s hs => ?_, fun k s hs => ?_, fun k hk => ?_, fun k s hs _ => ?_⟩
  · rw [mem_leafSlots, Track.start, List.mem_toFinset]
  · obtain ⟨hk, rfl⟩ := getElem?_leafSlots hs
    simp only [leafSlot, Track.start, Option.some.injEq]
    refine ⟨fun h => ?_, fun h => h ▸ hw⟩
    by_contra hne
    exact hother k hk (Ne.symm hne) h
  · obtain ⟨-, rfl⟩ := getElem?_leafSlots hs
    simp only [leafSlot, Track.start, Option.some.injEq]
    exact eq_comm
  · cases hk
    simpa [Track.start] using hL
  · obtain ⟨-, rfl⟩ := getElem?_leafSlots hs
    rfl

theorem Slot.src_resolve {left : Nat} {a b : Slot} (hF : F ∈ Field.carried) (ha : F ∈ a.fields ↔ a.src F = L)
    (hb : F ∈ b.fields ↔ b.src F = L) :
    ((a.resolve left b).src F = L ↔ a.src F = L ∨ b.src F = L) ∧
      (F ∈ (a.resolve left b).fields ↔ a.src F = L ∨ b.src F = L) := by
  constructor
  · simp only [Slot.resolve, hF, and_true]
    split
    · rename_i h
      simp [hb.mp h.1]
    · rename_i h
      by_cases hba : b.src F = L
      · have : F ∈ a.fields := by
          by_contra hna; exact h ⟨hb.mpr hba, hna⟩
        simp [ha.mp this]
      · simp [hba]
  · simp only [Slot.resolve, Finset.mem_union, ha, hb]
    exact or_comm

theorem Slot.src_lift (left : Nat) {a b : Slot} (hF : F ∈ Field.carried) (hpar : F ∉ nodeWrites mi ci.parent)
    (ha : F ∈ a.fields ↔ a.src F = L) (hb : F ∈ b.fields ↔ b.src F = L) :
    ((Slot.lift left mi ci a b).src F = L ↔ a.src F = L ∨ b.src F = L) ∧
      (F ∈ (Slot.lift left mi ci a b).fields ↔ a.src F = L ∨ b.src F = L) := by
  obtain ⟨hsrc, hfields⟩ := Slot.src_resolve hF ha hb
  exact ⟨hsrc, by rw [Slot.lift, Finset.mem_union, hfields, or_iff_left hpar]⟩

theorem getElem?_lift {a b : Slot} {k : Int} {s : Slot}
    (h : (((slots.erase ci.major).erase ci.minor).insertIfNew ci.parent
      (Slot.lift slots.size mi ci a b))[k]? = some s) :
    (k ≠ ci.major ∧ k ≠ ci.minor ∧ slots[k]? = some s) ∨
      (k = ci.parent ∧ s = Slot.lift slots.size mi ci a b ∧ (k ∈ slots → k = ci.major ∨ k = ci.minor)) := by
  rw [TreeMaps.getElem?_merge, Option.or_eq_some_iff] at h
  rcases h with h | ⟨hnone, h⟩
  · split at h
    · cases h
    · rename_i hk
      rw [not_or] at hk
      exact .inl ⟨hk.1, hk.2, h⟩
  · split at h
    · rename_i hk
      cases h
      refine .inr ⟨hk.symm, rfl, fun hmem => ?_⟩
      by_contra hne
      rw [if_neg hne] at hnone
      rw [TreeMap.mem_iff_isSome_getElem?, hnone] at hmem
      cases hmem
    · cases h

/-! What a fired item does to the ids and to the followed packet. -/

section
variable {t' : Track} {k : Int}

theorem Track.mem_fire (h : t.fire ci = some (.ok t')) :
    k ∈ t'.held ↔ k = ci.parent ∨ (k ≠ ci.minor ∧ k ≠ ci.major ∧ k ∈ t.held) := by
  unfold Track.fire at h
  split at h
  · cases h; simp
  · cases h

theorem Track.pos_fire_of_ne (h : t.fire ci = some (.ok t')) (h₁ : k ≠ ci.major) (h₂ : k ≠ ci.minor)
    (hk : k ∈ t.held) : t'.pos = some k ↔ t.pos = some k := by
  unfold Track.fire at h
  split at h
  · cases h
    have hkr : k ∈ (t.held.erase ci.major).erase ci.minor := by simp [h₁, h₂, hk]
    show (if t.pos = some ci.major ∨ t.pos = some ci.minor then _ else t.pos) = some k ↔ _
    split
    · rename_i hc
      refine iff_of_false ?_ ?_
      · split
        · simp
        · rintro hpk
          cases hpk
          contradiction
      · intro hpk
        rw [hpk, Option.some.injEq, Option.some.injEq] at hc
        exact hc.elim h₁ h₂
    · rfl
  · cases h

theorem Track.pos_fire_parent (h : t.fire ci = some (.ok t')) (hpos : ∀ k, t.pos = some k → k ∈ t.held)
    (hfree : ci.parent ∈ t.held → ci.parent = ci.major ∨ ci.parent = ci.minor) :
    t'.pos = some ci.parent ↔ t.pos = some ci.major ∨ t.pos = some ci.minor := by
  unfold Track.fire at h
  split at h
  · cases h
    show (if t.pos = some ci.major ∨ t.pos = some ci.minor then _ else t.pos) = some ci.parent ↔ _
    split
    · rename_i hc
      rw [if_neg, iff_true_right hc]
      intro hk
      simp only [Finset.mem_erase] at hk
      exact (hfree hk.2.2).elim hk.2.1 hk.1
    · rename_i hc
      refine iff_of_false (fun hpk => hc ?_) hc
      rw [hpk, Option.some.injEq, Option.some.injEq]
      exact hfree (hpos _ hpk)
  · cases h

theorem Track.pos_fire_mem (h : t.fire ci = some (.ok t')) (hpos : ∀ k, t.pos = some k → k ∈ t.held)
    (hk : t'.pos = some k) : k ∈ t'.held := by
  unfold Track.fire at h
  split at h
  · cases h
    dsimp only at hk ⊢
    split at hk
    · split at hk
      · cases hk
      · cases hk; exact Finset.mem_insert_self ..
    · rename_i hc
      rw [not_or] at hc
      simp only [Finset.mem_insert, Finset.mem_erase]
      exact .inr ⟨fun h => hc.2 (h ▸ hk), fun h => hc.1 (h ▸ hk), hpos k hk⟩
  · cases h

theorem Track.copies_fire (h : t.fire ci = some (.ok t')) :
    t'.copies = if t.pos = some ci.minor then t.copies ++ [t.held.card] else t.copies := by
  unfold Track.fire at h
  split at h
  · cases h; rfl
  · cases h

end

theorem size_eq_card {held : Finset Int} (h : ∀ k, k ∈ slots ↔ k ∈ held) : slots.size = held.card := by
  rw [← Finset.length_toList]
  exact TreeMaps.size_of_mem_iff held.nodup_toList fun k => (h k).trans Finset.mem_toList.symm

theorem keys_eq_held {held : Finset Int} (h : ∀ k, k ∈ slots ↔ k ∈ held) : slots.keys.toFinset = held := by
  ext k
  rw [List.mem_toFinset, TreeMap.mem_keys, h]

theorem Follows.copies_lift (hF : F ∈ Field.carried) (hci : ci.major ≠ ci.minor) (h : Follows L F slots t) {a b : Slot}
    (ha : slots[ci.major]? = some a) (hb : slots[ci.minor]? = some b)
    (hpos : t.pos = some ci.major ∨ t.pos = some ci.minor) :
    (Slot.lift slots.size mi ci a b).copies F =
      if t.pos = some ci.minor then t.copies ++ [t.held.card] else t.copies := by
  have hfa := h.fields _ a ha
  have hfb := h.fields _ b hb
  by_cases hmin : t.pos = some ci.minor
  · have hmaj : t.pos ≠ some ci.major := fun hmaj => hci (Option.some.inj (hmaj.symm.trans hmin))
    rw [if_pos hmin, ← h.copies _ b hb hmin, ← size_eq_card h.mem_iff]
    exact (Slot.resolve_minor _ ⟨hfb.mpr hmin, hF⟩ fun hc => hmaj (hfa.mp hc.1)).2
  · have hmaj := hpos.resolve_right hmin
    rw [if_neg hmin, ← h.copies _ a ha hmaj]
    exact (Slot.resolve_major _ fun _ => ⟨hfa.mpr hmaj, hF⟩).2

theorem Follows.fire (hF : F ∈ Field.carried) (hci : ci.major ≠ ci.minor) (hpar : F ∉ nodeWrites mi ci.parent)
    (h : Follows L F slots t) :
    Option.Rel (Rounds.Agree (Follows L F) fun _ _ => False) (trySlots mi ci slots) (t.fire ci) := by
  refine trySlots_rel h.mem_iff (fun hn => if_neg hn) fun a b ha hb hheld => ?_
  obtain ⟨t', ht⟩ : ∃ t', t.fire ci = some (.ok t') := ⟨_, if_pos hheld⟩
  refine ⟨t', ht, ?_⟩
  obtain ⟨hsrc, hfields⟩ := Slot.src_lift slots.size hF hpar ((h.fields _ a ha).trans (h.src _ a ha).symm)
    ((h.fields _ b hb).trans (h.src _ b hb).symm)
  rw [h.src _ a ha, h.src _ b hb] at hsrc hfields
  have hold : ∀ (k : Int) s, k ≠ ci.major → k ≠ ci.minor → slots[k]? = some s →
      (t.pos = some k ↔ t'.pos = some k) := fun k s h₁ h₂ hs =>
    (Track.pos_fire_of_ne ht h₁ h₂ ((h.mem_iff k).mp (TreeMaps.mem_of_getElem? hs))).symm
  have hnew := fun hfree : ci.parent ∈ slots → ci.parent = ci.major ∨ ci.parent = ci.minor =>
    (Track.pos_fire_parent ht h.pos fun hk => hfree ((h.mem_iff _).mpr hk)).symm
  refine ⟨fun k => ?_, fun k s hs => ?_, fun k s hs => ?_, fun k hk => Track.pos_fire_mem ht h.pos hk,
    fun k s hs hk => ?_⟩
  · rw [Track.mem_fire ht]
    simp only [TreeMap.mem_insertIfNew, TreeMap.mem_erase, Std.LawfulEqOrd.compare_eq_iff_eq,
      h.mem_iff k, ne_eq]
    rw [eq_comm, eq_comm (a := ci.minor), eq_comm (a := ci.major)]
  · rcases getElem?_lift hs with ⟨h₁, h₂, hs⟩ | ⟨rfl, rfl, hfree⟩
    · exact (h.fields k s hs).trans (hold k s h₁ h₂ hs)
    · exact hfields.trans (hnew hfree)
  · rcases getElem?_lift hs with ⟨h₁, h₂, hs⟩ | ⟨rfl, rfl, hfree⟩
    · exact (h.src k s hs).trans (hold k s h₁ h₂ hs)
    · exact hsrc.trans (hnew hfree)
  · rw [Track.copies_fire ht]
    rcases getElem?_lift hs with ⟨h₁, h₂, hs⟩ | ⟨rfl, rfl, hfree⟩
    · have hpos := (hold k s h₁ h₂ hs).mpr hk
      rw [h.copies k s hs hpos, if_neg fun hmin => h₂ (Option.some.inj (hpos.symm.trans hmin))]
    · exact h.copies_lift hF hci ha hb ((hnew hfree).mpr hk)

theorem Follows.rest_src_iff (hF : F ∈ Field.carried) (h : Follows L F slots t) {s : Slot}
    (hs : restSlots (slots.toList.map (·.2)) = some s) :
    (s.src F = L ↔ t.pos.isSome = true) ∧ (s.src F = L → s.copies F = t.allCopies) := by
  obtain ⟨k, a, ha, hsrc, hcopies, ⟨hc, -⟩ | hnone⟩ := restSlots_src F hs
  · have hpos := (h.fields k a ha).mp hc.1
    refine ⟨iff_of_true (hsrc.trans ((h.src k a ha).mpr hpos)) (by rw [hpos]; rfl), fun _ => ?_⟩
    rw [hcopies, h.copies k a ha hpos, keys_eq_held h.mem_iff, Track.allCopies, hpos]
    rfl
  · have hne : ∀ (j : Int) b, slots[j]? = some b → t.pos ≠ some j := fun j b hb hpos =>
      (hnone j b hb).1 ⟨(h.fields j b hb).mpr hpos, hF⟩
    have hL : s.src F ≠ L := fun hL => hne k a ha ((h.src k a ha).mp (hsrc.symm.trans hL))
    refine ⟨iff_of_false hL fun hp => ?_, fun h => absurd h hL⟩
    obtain ⟨j, hj⟩ := Option.isSome_iff_exists.mp hp
    obtain ⟨b, hb⟩ := TreeMaps.exists_getElem? ((h.mem_iff j).mpr (h.pos j hj))
    exact hne j b hb hj

theorem slotMerge_src_iff (hitems : ∀ ci ∈ mi.conflictsList, ci.major ≠ ci.minor) (hF : F ∈ Field.carried)
    (hL : L ∈ mi.leaves) (hw : F ∈ nodeWrites mi L) (hother : ∀ k ∈ mi.leaves, k ≠ L → F ∉ nodeWrites mi k)
    (hpar : ∀ ci ∈ mi.conflictsList, F ∉ nodeWrites mi ci.parent) {sweeps : Nat} {s : Slot}
    (hs : mi.leaves.length ≤ sweeps) (h : slotMerge sweeps mi = some s) :
    (s.src F = L ↔ keeps mi L = true) ∧ (s.src F = L → s.copies F = copiesOf mi L) := by
  obtain ⟨slots, hslots⟩ := stableSlots_exists hitems (List.ne_nil_of_mem hL)
  obtain ⟨t, ht, hfol⟩ := stableSlots_rel (fun ci hci slots t h => Follows.fire hF (hitems ci hci) (hpar ci hci) h)
    (follows_start hL hw hother) (hslots _ (Nat.le_refl _))
  simp only [slotMerge, hslots sweeps hs, bind, Option.bind] at h
  rw [keeps, copiesOf, Track.run, ht]
  exact hfol.rest_src_iff hF h

/-- A packet that differs from `hello` in every field the merge can carry. -/
def bye : Packet := .make "10.0.0.1" 80 "10.0.0.9" 91 7 [98, 121, 101]

theorem value_bye_ne (hF : F ∈ Field.carried) : hello.value F ≠ bye.value F := by
  have : ∀ F ∈ Field.carried, hello.value F ≠ bye.value F := by decide
  exact this F hF

def byePackets (mi : MergerInfo) (P : Int → Prop) [DecidablePred P] : TreeMap Int Packet :=
  TreeMaps.tabulate (fun k => if P k then bye else hello) mi.leaves

theorem getElem?_byePackets (P : Int → Prop) [DecidablePred P] (k : Int) :
    (byePackets mi P)[k]? = if k ∈ mi.leaves then some (if P k then bye else hello) else none :=
  TreeMaps.getElem?_tabulate ..

theorem byePackets_cases {P : Int → Prop} [DecidablePred P] {k : Int} {p : Packet}
    (h : (byePackets mi P)[k]? = some p) : k ∈ mi.leaves ∧ (P k ∧ p = bye ∨ ¬ P k ∧ p = hello) := by
  rw [getElem?_byePackets] at h
  split at h
  · rename_i hk
    cases h
    by_cases hP : P k
    · exact ⟨hk, .inl ⟨hP, if_pos hP⟩⟩
    · exact ⟨hk, .inr ⟨hP, if_neg hP⟩⟩
  · cases h

theorem byePackets_complete (mi : MergerInfo) (P : Int → Prop) [DecidablePred P] :
    CompleteMap mi (byePackets mi P) :=
  packetsOf_tabulate fun k => by split <;> decide

theorem byePackets_data {P : Int → Prop} [DecidablePred P] {k : Int} {p : Packet}
    (h : (byePackets mi P)[k]? = some p) : 0 ∉ p.data := by
  rcases (byePackets_cases h).2 with ⟨-, rfl⟩ | ⟨-, rfl⟩ <;> decide

theorem byePackets_eq {P : Int → Prop} [DecidablePred P] {k : Int} {p : Packet} (hk : P k)
    (hp : (byePackets mi P)[k]? = some p) : p = bye :=
  ((byePackets_cases hp).2.resolve_right fun h => h.1 hk).2

/-- A merged packet shows whether a carried field comes from one of the leaves with `P`: also with more bytes behind
it, `hello` does not read like `bye`. -/
theorem Rep.src_of_bye {P : Int → Prop} [DecidablePred P] (hF : F ∈ Field.carried) {r : Packet} {s : Slot}
    (h : Rep memory (byePackets mi P) r s) (hv : r.value F = bye.value F) : P (s.src F) := by
  by_cases hp : F = .PAYLOAD
  · subst hp
    obtain ⟨q, hq, -⟩ := h.data
    rcases (byePackets_cases hq).2 with ⟨hsrc, -⟩ | ⟨-, rfl⟩
    · exact hsrc
    · have hpayload := h.payload_of_free hq (by decide)
      rw [Value.payload.inj hv] at hpayload
      exact absurd (congrArg List.head? hpayload) (by simp [hello, bye, Packet.payload])
  · obtain ⟨q, hq, hv'⟩ := h.header F hp
    rcases (byePackets_cases hq).2 with ⟨hsrc, -⟩ | ⟨-, rfl⟩
    · exact hsrc
    · exact absurd (hv'.symm.trans hv) (value_bye_ne hF)

/-- The write of a leaf survives the merge, for every complete map of packets, exactly if the conflict
loop keeps the leaf's packet and, for a payload, a NUL stands behind its buffer wherever it is copied. -/
theorem mergePacket_carries_iff (memory : Memory) (hitems : ∀ ci ∈ mi.conflictsList, ci.major ≠ ci.minor)
    (hnodes : ∀ k ∈ mi.leaves, k ∈ mi.nodeMap) (hF : F ∈ Field.carried)
    (hL : L ∈ mi.leaves) (hw : F ∈ nodeWrites mi L) (hother : ∀ k ∈ mi.leaves, k ≠ L → F ∉ nodeWrites mi k)
    (hpar : ∀ ci ∈ mi.conflictsList, F ∉ nodeWrites mi ci.parent) :
    (∀ m, CompleteMap mi m → (∀ (k : Int) p, m[k]? = some p → 0 ∉ p.data) →
      ∀ sweeps, mi.leaves.length ≤ sweeps →
        ∃ r p, mergePacket sweeps memory mi m = .ok r ∧ m[L]? = some p ∧ r.value F = p.value F) ↔
      keeps mi L = true ∧ (F = .PAYLOAD → CleanCopies memory (copiesOf mi L)) := by
  have hne := List.ne_nil_of_mem hL
  constructor
  · intro h
    have hbye := byePackets_complete mi (· = L)
    obtain ⟨r, p, hr, hp, hv⟩ := h _ hbye (fun _ _ => byePackets_data) _ (Nat.le_refl _)
    obtain ⟨r', s, hr', hs, hrep⟩ := mergePacket_slots hitems hnodes hne hbye (Nat.le_refl _)
    rw [hr] at hr'; cases hr'
    obtain rfl := byePackets_eq (P := (· = L)) rfl hp
    obtain ⟨hiff, hcopies⟩ := slotMerge_src_iff hitems hF hL hw hother hpar (Nat.le_refl _) hs
    have hsrc := hrep.src_of_bye hF hv
    have hq : (byePackets mi (· = L))[s.src F]? = some bye := by rw [hsrc]; exact hp
    rw [← hcopies hsrc]
    exact ⟨hiff.mp hsrc, hrep.clean_of_value hq (byePackets_data hq) hv⟩
  · rintro ⟨hkeeps, hclean⟩ m hm _ sweeps hs
    obtain ⟨r, s, hr, hslot, hrep⟩ := mergePacket_slots hitems hnodes hne hm hs
    obtain ⟨hiff, hcopies⟩ := slotMerge_src_iff hitems hF hL hw hother hpar hs hslot
    have hsrc := hiff.mpr hkeeps
    obtain ⟨p, hp, hv⟩ := hrep.value (by rw [hcopies hsrc]; exact hclean)
    rw [hsrc] at hp
    exact ⟨r, p, hr, hp, hv⟩

end

/-- Two pairs of leaves with one parent: a proxy and a firewall, a compressor and a firewall. -/
def twoPairs : MergerInfo where
  portToNodeMap := .ofList ([(8001, 0), (8002, 1), (8003, 2), (8004, 3)] : List (Int × Int))
  conflictsList := [⟨0, 1, 4⟩, ⟨2, 3, 4⟩]
  nodeMap := .ofList
    ([(0, { id := 0, nf := .proxy }), (1, { id := 1, nf := .dnfFirewall }),
      (2, { id := 2, nf := .compressor }), (3, { id := 3, nf := .dnfFirewall }),
      (4, { id := 4, nf := .dnfFirewall, neighbors := [0, 1, 2, 3] })] : List (Int × RuntimeNode))
  destIp := "127.0.0.1"
  destPort := 9999

/-- The second pair is merged to an id that is taken: the payload of the compressor is lost. -/
theorem mergePacket_loses_twoPairs :
    (∀ ci ∈ twoPairs.conflictsList, ci.major ≠ ci.minor ∧ ci.parent ∉ twoPairs.leaves ∧
      .PAYLOAD ∉ nodeWrites twoPairs ci.parent) ∧
    (∀ k ∈ twoPairs.leaves, k ∈ twoPairs.nodeMap ∧ (.PAYLOAD ∈ nodeWrites twoPairs k ↔ k = 2)) ∧
    ∃ m, CompleteMap twoPairs m ∧ (∀ (k : Int) p, m[k]? = some p → 0 ∉ p.data) ∧ m[(2 : Int)]? = some bye ∧
      ∃ r, mergePacket 4 (fun _ => []) twoPairs m = .ok r ∧ r.value .PAYLOAD ≠ bye.value .PAYLOAD := by
  refine ⟨by decide, by decide, _, byePackets_complete twoPairs (· = 2), fun _ _ => byePackets_data,
    by decide, ?_⟩
  have h : (mergePacket 4 (fun _ => []) twoPairs (byePackets twoPairs (· = 2))).toOption.map (·.value .PAYLOAD) =
      some (hello.value .PAYLOAD) := by
    decide
  cases hr : mergePacket 4 (fun _ => []) twoPairs (byePackets twoPairs (· = 2)) with
  | error e => rw [hr] at h; cases h
  | ok r =>
    rw [hr] at h
    simp only [Except.toOption, Option.map_some, Option.some.injEq] at h
    exact ⟨r, rfl, h ▸ value_bye_ne (by decide)⟩

theorem mergePacket_carries_dummy :
    keeps { getDummyMergerInfo with conflictsList := [⟨0, 1, -1⟩] } 1 = true ∧
      ∀ m, CompleteMap { getDummyMergerInfo with conflictsList := [⟨0, 1, -1⟩] } m →
        (∀ (k : Int) p, m[k]? = some p → 0 ∉ p.data) → ∀ sweeps, 2 ≤ sweeps →
          ∃ r p, mergePacket sweeps (fun _ => [65]) { getDummyMergerInfo with conflictsList := [⟨0, 1, -1⟩] } m =
            .ok r ∧ m[(1 : Int)]? = some p ∧ r.value .DIP = p.value .DIP := by
  have hkeeps : keeps { getDummyMergerInfo with conflictsList := [⟨0, 1, -1⟩] } 1 = true := by decide
  exact ⟨hkeeps, (mergePacket_carries_iff (fun _ => [65]) (by decide) (by decide) (by decide) (by decide) (by decide)
    (by decide) (by decide)).mpr ⟨hkeeps, fun h => absurd h (by decide)⟩⟩

end DeepNF
