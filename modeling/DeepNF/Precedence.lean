import DeepNF.LeafWrites

/-!
# Precedence among any number of leaves

A conflict item fires only while both its leaves have a packet of their own. Where every two leaves of a set
are in conflict, the loop therefore pairs them off in the order of the list (`pairUp`): the packet of a pair
lies at the parent's id, where no other item looks for it. The final phase knows nothing of precedence
and takes, of the pairs and of the leaf that is left over, the one with the lowest id
(`slotMerge_holds`). Only there a payload is copied, unless all others are merged into that packet.
-/

namespace DeepNF
open Std (TreeMap)

def ConflictItem.touches (ci : ConflictItem) (k : Int) : Bool := ci.major == k || ci.minor == k

def ConflictItem.shares (ci c : ConflictItem) : Bool := c.touches ci.major || c.touches ci.minor

def pairItem (paired : List ConflictItem) (ci : ConflictItem) : List ConflictItem :=
  if paired.any ci.shares then paired else paired ++ [ci]

/-- The items that fire: those that share no member with one that fires before. -/
def pairUp (items : List ConflictItem) : List ConflictItem := items.foldl pairItem []

/-- The packet that is left at `k` counts `F` as written, and has it from the leaf `x`. -/
def Holds (mi : MergerInfo) (F : Field) (k x : Int) : Prop :=
  (x = k ∧ k ∈ mi.leaves ∧ F ∈ nodeWrites mi k ∧ ∀ c ∈ pairUp mi.conflictsList, c.touches k = false) ∨
    ∃ c, (pairUp mi.conflictsList).find? (·.parent == k) = some c ∧ x = c.major

def heldIds (mi : MergerInfo) : Finset Int :=
  (mi.leaves.filter (fun k => (pairUp mi.conflictsList).all fun c => !c.touches k) ++
    (pairUp mi.conflictsList).map (·.parent)).toFinset

/-- The packet that has `F` from `top` lies lowest among those that count `F` as written; a payload is read up to its
end. -/
def HeldFirst (memory : Memory) (mi : MergerInfo) (F : Field) (top : Int) : Prop :=
  ∃ k, Holds mi F k top ∧ (∀ j x, Holds mi F j x → k ≤ j) ∧
    (F = .PAYLOAD → CleanCopies memory (lastCopy (heldIds mi) k))

/-- The conflict list is a strict total order on `S`, leaves that write `F`, and nothing else. -/
structure Precedence (mi : MergerInfo) (F : Field) (S : Finset Int) : Prop where
  leaf : ∀ k ∈ S, k ∈ mi.leaves ∧ F ∈ nodeWrites mi k
  members : ∀ ci ∈ mi.conflictsList, ci.major ∈ S ∧ ci.minor ∈ S ∧ ci.major ≠ ci.minor
  one : ∀ a ∈ S, ∀ b ∈ S, a ≠ b → mi.conflictsList.countP (fun ci => ci.touches a && ci.touches b) = 1
  trans : ∀ c ∈ mi.conflictsList, ∀ d ∈ mi.conflictsList, c.minor = d.major →
    ∃ e ∈ mi.conflictsList, e.major = c.major ∧ e.minor = d.minor
  parent : ∀ ci ∈ mi.conflictsList, ci.parent ∈ mi.nodeMap ∧ ci.parent ∉ mi.leaves ∧
    F ∉ nodeWrites mi ci.parent

def Highest (mi : MergerInfo) (S : Finset Int) (top : Int) : Prop :=
  top ∈ S ∧ ∀ b ∈ S, b ≠ top → ∃ ci ∈ mi.conflictsList, ci.major = top ∧ ci.minor = b

/-! ### The loop pairs the leaves off -/

def pairFire (ci : ConflictItem) (paired : List ConflictItem) : Option (Except Empty (List ConflictItem)) :=
  if paired.any ci.shares then none else some (.ok (paired ++ [ci]))

theorem ConflictItem.touches_iff {ci : ConflictItem} {k : Int} :
    ci.touches k = true ↔ k = ci.major ∨ k = ci.minor := by
  rw [touches, Bool.or_eq_true, beq_iff_eq, beq_iff_eq, eq_comm, eq_comm (a := ci.minor)]

theorem any_shares (paired : List ConflictItem) (ci : ConflictItem) :
    paired.any ci.shares = (paired.any (·.touches ci.major) || paired.any (·.touches ci.minor)) := by
  induction paired with
  | nil => rfl
  | cons c paired ih =>
    simp only [List.any_cons, ih, ConflictItem.shares]
    ac_rfl

theorem pairItem_subset (paired : List ConflictItem) (ci : ConflictItem) : paired ⊆ pairItem paired ci := by
  unfold pairItem
  split
  · exact fun _ h => h
  · exact List.subset_append_left ..

theorem foldl_pairItem_subset (items paired : List ConflictItem) : paired ⊆ items.foldl pairItem paired := by
  induction items generalizing paired with
  | nil => exact fun _ h => h
  | cons ci items ih => exact fun c hc => ih _ (pairItem_subset paired ci hc)

theorem any_shares_pairUp {items : List ConflictItem} {ci : ConflictItem} (h : ci ∈ items) :
    (pairUp items).any ci.shares = true := by
  obtain ⟨before, after, rfl⟩ := List.append_of_mem h
  rw [pairUp, List.foldl_append, List.foldl_cons]
  generalize before.foldl pairItem [] = paired
  obtain ⟨c, hc, hshare⟩ : ∃ c ∈ pairItem paired ci, ci.shares c = true := by
    unfold pairItem
    split
    · exact List.any_eq_true.mp ‹_›
    · exact ⟨ci, by simp, by simp [ConflictItem.shares, ConflictItem.touches]⟩
  exact List.any_eq_true.mpr ⟨c, foldl_pairItem_subset after _ hc, hshare⟩

theorem pairUp_subset (items : List ConflictItem) : pairUp items ⊆ items := by
  have key : ∀ todo paired : List ConflictItem, ∀ c ∈ todo.foldl pairItem paired, c ∈ paired ∨ c ∈ todo := by
    intro todo
    induction todo with
    | nil => exact fun paired c hc => .inl hc
    | cons ci todo ih =>
      intro paired c hc
      rcases ih _ c hc with hc | hc
      · unfold pairItem at hc
        split at hc
        · exact .inl hc
        · rcases List.mem_append.mp hc with hc | hc
          · exact .inl hc
          · rw [List.mem_singleton.mp hc]; exact .inr (List.mem_cons_self ..)
      · exact .inr (List.mem_cons_of_mem _ hc)
  exact fun c hc => (key items [] c hc).resolve_left (List.not_mem_nil)

theorem run_pairFire (items : List ConflictItem) : Rounds.run pairFire items 2 [] = some (.ok (pairUp items)) := by
  have hitem : ∀ paired ci, (pairFire ci paired = none ∧ pairItem paired ci = paired) ∨
      pairFire ci paired = some (.ok (pairItem paired ci)) := by
    intro paired ci
    unfold pairFire pairItem
    split
    · exact .inl ⟨rfl, rfl⟩
    · exact .inr rfl
  obtain ⟨c, hpass⟩ := Rounds.pass_of_foldl hitem [] false
  exact Rounds.run_of_pass hpass fun ci hci => if_pos (any_shares_pairUp hci)

section
variable {memory : Memory} {mi : MergerInfo} {slots : SlotMap} {paired : List ConflictItem} {ci : ConflictItem}
  {F : Field} {S : Finset Int} {top : Int}

/-- The slot at `k` once the items of `paired` have fired; when the pair was merged does not matter. -/
def PairedSlot (mi : MergerInfo) (paired : List ConflictItem) (k : Int) (s : Option Slot) : Prop :=
  if k ∈ mi.leaves then s = if paired.any (·.touches k) then none else some (leafSlot mi k)
  else ∃ left, s = (paired.find? (·.parent == k)).map fun c =>
    Slot.lift left mi c (leafSlot mi c.major) (leafSlot mi c.minor)

theorem pairedSlot_leaf {k : Int} {s : Option Slot} (hk : k ∈ mi.leaves) : PairedSlot mi paired k s ↔
    s = if paired.any (·.touches k) then none else some (leafSlot mi k) := by rw [PairedSlot, if_pos hk]

theorem pairedSlot_parent {k : Int} {s : Option Slot} (hk : k ∉ mi.leaves) : PairedSlot mi paired k s ↔
    ∃ left, s = (paired.find? (·.parent == k)).map fun c =>
      Slot.lift left mi c (leafSlot mi c.major) (leafSlot mi c.minor) := by rw [PairedSlot, if_neg hk]

theorem trySlots_pairFire (hmajor : ci.major ∈ mi.leaves) (hminor : ci.minor ∈ mi.leaves)
    (hpar : ci.parent ∉ mi.leaves) (h : ∀ k : Int, PairedSlot mi paired k slots[k]?) :
    Option.Rel (Rounds.Agree (fun (slots : SlotMap) paired => ∀ k : Int, PairedSlot mi paired k slots[k]?)
      fun _ _ => False) (trySlots mi ci slots) (pairFire ci paired) := by
  have ha := (pairedSlot_leaf hmajor).mp (h ci.major)
  have hb := (pairedSlot_leaf hminor).mp (h ci.minor)
  unfold trySlots pairFire
  rw [ha, hb, any_shares]
  cases paired.any (·.touches ci.major) with
  | true => exact .none
  | false =>
    cases paired.any (·.touches ci.minor) with
    | true => exact .none
    | false =>
      refine .some (.ok fun k => ?_)
      rw [TreeMaps.getElem?_merge]
      by_cases hk : k ∈ mi.leaves
      · have hne : ci.parent ≠ k := fun he => hpar (he ▸ hk)
        rw [pairedSlot_leaf hk, (pairedSlot_leaf hk).mp (h k), List.any_append, if_neg hne, Option.or_none]
        by_cases ht : k = ci.major ∨ k = ci.minor
        · simp [ht, ConflictItem.touches_iff.mpr ht]
        · simp [ht, Bool.eq_false_iff.mpr (mt ConflictItem.touches_iff.mp ht)]
      · have ht : ¬ (k = ci.major ∨ k = ci.minor) := by
          rintro (rfl | rfl)
          exacts [hk hmajor, hk hminor]
        obtain ⟨left, hleft⟩ := (pairedSlot_parent hk).mp (h k)
        rw [if_neg ht, hleft, pairedSlot_parent hk, List.find?_append]
        cases paired.find? (·.parent == k) with
        | some c => exact ⟨left, rfl⟩
        | none =>
          refine ⟨slots.size, ?_⟩
          by_cases hc : ci.parent = k <;> simp [hc]

theorem pairedSlot_nil (k : Int) : PairedSlot mi [] k (leafSlots mi)[k]? := by
  rw [leafSlots, TreeMaps.getElem?_tabulate]
  by_cases hk : k ∈ mi.leaves
  · rw [pairedSlot_leaf hk, if_pos hk]
    rfl
  · rw [pairedSlot_parent hk, if_neg hk]
    exact ⟨0, rfl⟩

theorem stableSlots_paired (h : Precedence mi F S) {sweeps : Nat} (hst : stableSlots sweeps mi = some slots) (k : Int) :
    PairedSlot mi (pairUp mi.conflictsList) k slots[k]? := by
  obtain ⟨paired, hrun, hslots⟩ := stableSlots_rel (fun ci hci slots paired hs =>
    trySlots_pairFire (h.leaf _ (h.members ci hci).1).1 (h.leaf _ (h.members ci hci).2.1).1 (h.parent ci hci).2.1 hs)
    pairedSlot_nil hst
  cases Rounds.run_det hrun (run_pairFire mi.conflictsList)
  exact hslots k

/-! ### What is left for the final phase -/

theorem src_pair (h : Precedence mi F S) (hci : ci ∈ mi.conflictsList) (left : Nat) :
    F ∈ (Slot.lift left mi ci (leafSlot mi ci.major) (leafSlot mi ci.minor)).fields ∧
      (Slot.lift left mi ci (leafSlot mi ci.major) (leafSlot mi ci.minor)).src F = ci.major ∧
      (Slot.lift left mi ci (leafSlot mi ci.major) (leafSlot mi ci.minor)).copies F = [] := by
  have hw : F ∈ nodeWrites mi ci.major := (h.leaf _ (h.members ci hci).1).2
  have hno : ¬ (F ∈ nodeWrites mi ci.minor ∧ F ∉ nodeWrites mi ci.major ∧ F ∈ Field.carried) := fun hc => hc.2.1 hw
  refine ⟨?_, if_neg hno, if_neg hno⟩
  simp [Slot.lift, Slot.resolve, leafSlot, hw]

theorem find?_parent_leaf (h : Precedence mi F S) {k : Int} (hk : k ∈ mi.leaves) :
    (pairUp mi.conflictsList).find? (·.parent == k) = none := by
  refine List.find?_eq_none.mpr fun c hc hpar => ?_
  have hpar : c.parent = k := by simpa using hpar
  exact (h.parent c (pairUp_subset _ hc)).2.1 (hpar ▸ hk)

theorem exists_holds (h : Precedence mi F S) {b : Int} (hb : b ∈ S) : ∃ k x, Holds mi F k x := by
  obtain ⟨hleaf, hw⟩ := h.leaf b hb
  by_cases hfree : ∀ c ∈ pairUp mi.conflictsList, c.touches b = false
  · exact ⟨b, b, .inl ⟨rfl, hleaf, hw, hfree⟩⟩
  · obtain ⟨c, hc, -⟩ : ∃ c, c ∈ pairUp mi.conflictsList ∧ ¬ c.touches b = false := by simpa using hfree
    cases hfind : (pairUp mi.conflictsList).find? (·.parent == c.parent) with
    | none => exact absurd (List.find?_eq_none.mp hfind c hc) (by simp)
    | some d => exact ⟨c.parent, d.major, .inr ⟨d, hfind, rfl⟩⟩

section
variable {sweeps : Nat} (h : Precedence mi F S) (hst : stableSlots sweeps mi = some slots)
include h hst

theorem slot_leaf {k : Int} (hk : k ∈ mi.leaves) {a : Slot} : slots[k]? = some a ↔
    (∀ c ∈ pairUp mi.conflictsList, c.touches k = false) ∧ a = leafSlot mi k := by
  rw [(pairedSlot_leaf hk).mp (stableSlots_paired h hst k)]
  cases hany : (pairUp mi.conflictsList).any (·.touches k) with
  | true =>
    obtain ⟨c, hc, ht⟩ := List.any_eq_true.mp hany
    refine iff_of_false (by simp) fun hall => ?_
    rw [hall.1 c hc] at ht
    cases ht
  | false =>
    have hfree : ∀ c ∈ pairUp mi.conflictsList, c.touches k = false := by simpa using hany
    rw [if_neg (by simp), Option.some.injEq, eq_comm, and_iff_right hfree]

theorem slot_parent {k : Int} (hk : k ∉ mi.leaves) {a : Slot} (ha : slots[k]? = some a) :
    ∃ left c, (pairUp mi.conflictsList).find? (·.parent == k) = some c ∧
      a = Slot.lift left mi c (leafSlot mi c.major) (leafSlot mi c.minor) := by
  obtain ⟨left, hleft⟩ := (pairedSlot_parent hk).mp (stableSlots_paired h hst k)
  rw [ha] at hleft
  obtain ⟨c, hc, rfl⟩ := Option.map_eq_some_iff.mp hleft.symm
  exact ⟨left, c, hc, rfl⟩

theorem holds_iff {k x : Int} : Holds mi F k x ↔ ∃ a, slots[k]? = some a ∧ F ∈ a.fields ∧ a.src F = x := by
  by_cases hk : k ∈ mi.leaves
  · have hnone := find?_parent_leaf h hk
    constructor
    · rintro (⟨rfl, -, hw, hfree⟩ | ⟨c, hc, -⟩)
      · exact ⟨_, (slot_leaf h hst hk).mpr ⟨hfree, rfl⟩, hw, rfl⟩
      · rw [hnone] at hc
        cases hc
    · rintro ⟨a, ha, hf, rfl⟩
      obtain ⟨hfree, rfl⟩ := (slot_leaf h hst hk).mp ha
      exact .inl ⟨rfl, hk, hf, hfree⟩
  · constructor
    · rintro (⟨-, hk', -⟩ | ⟨c, hc, rfl⟩)
      · exact absurd hk' hk
      · obtain ⟨left, hleft⟩ := (pairedSlot_parent hk).mp (stableSlots_paired h hst k)
        rw [hc] at hleft
        obtain ⟨hf, hsrc, -⟩ := src_pair h (pairUp_subset _ (List.mem_of_find?_eq_some hc)) left
        exact ⟨_, hleft, hf, hsrc⟩
    · rintro ⟨a, ha, -, rfl⟩
      obtain ⟨left, c, hc, rfl⟩ := slot_parent h hst hk ha
      exact .inr ⟨c, hc, (src_pair h (pairUp_subset _ (List.mem_of_find?_eq_some hc)) left).2.1⟩

theorem copies_paired {k : Int} {a : Slot} (ha : slots[k]? = some a) : a.copies F = [] := by
  by_cases hk : k ∈ mi.leaves
  · obtain ⟨-, rfl⟩ := (slot_leaf h hst hk).mp ha
    rfl
  · obtain ⟨left, c, hc, rfl⟩ := slot_parent h hst hk ha
    exact (src_pair h (pairUp_subset _ (List.mem_of_find?_eq_some hc)) left).2.2

theorem mem_heldIds (k : Int) : k ∈ slots ↔ k ∈ heldIds mi := by
  have hheld : k ∈ heldIds mi ↔ (k ∈ mi.leaves ∧ ∀ c ∈ pairUp mi.conflictsList, c.touches k = false) ∨
      ∃ c ∈ pairUp mi.conflictsList, c.parent = k := by simp [heldIds]
  rw [hheld, TreeMap.mem_iff_isSome_getElem?, Option.isSome_iff_exists]
  constructor
  · rintro ⟨a, ha⟩
    by_cases hk : k ∈ mi.leaves
    · exact .inl ⟨hk, ((slot_leaf h hst hk).mp ha).1⟩
    · obtain ⟨-, c, hc, -⟩ := slot_parent h hst hk ha
      exact .inr ⟨c, List.mem_of_find?_eq_some hc, by simpa using List.find?_some hc⟩
  · rintro (⟨hk, hfree⟩ | ⟨c, hc, rfl⟩)
    · exact ⟨_, (slot_leaf h hst hk).mpr ⟨hfree, rfl⟩⟩
    · have hk : c.parent ∉ mi.leaves := (h.parent c (pairUp_subset _ hc)).2.1
      obtain ⟨left, hleft⟩ := (pairedSlot_parent hk).mp (stableSlots_paired h hst c.parent)
      cases hfind : (pairUp mi.conflictsList).find? (·.parent == c.parent) with
      | none => exact absurd (List.find?_eq_none.mp hfind c hc) (by simp)
      | some d => exact ⟨_, hleft.trans (congrArg _ hfind)⟩

/-- The merge takes the field from the packet with the lowest id among those that count it as written. -/
theorem slotMerge_holds (hF : F ∈ Field.carried) {b : Int} (hb : b ∈ S) {s : Slot}
    (hs : slotMerge sweeps mi = some s) :
    ∃ k, Holds mi F k (s.src F) ∧ (∀ j x, Holds mi F j x → k ≤ j) ∧ s.copies F = lastCopy (heldIds mi) k := by
  simp only [slotMerge, hst, bind, Option.bind] at hs
  obtain ⟨k, a, ha, hsrc, hcopies, ⟨hc, hle⟩ | hnone⟩ := restSlots_src F hs
  · rw [copies_paired h hst ha, keys_eq_held (mem_heldIds h hst), List.nil_append] at hcopies
    refine ⟨k, (holds_iff h hst).mpr ⟨a, ha, hc.1, hsrc.symm⟩, fun j x hj => ?_, hcopies⟩
    obtain ⟨d, hd, hfd, -⟩ := (holds_iff h hst).mp hj
    exact hle j d hd ⟨hfd, hF⟩
  · obtain ⟨j, x, hj⟩ := exists_holds h hb
    obtain ⟨d, hd, hfd, -⟩ := (holds_iff h hst).mp hj
    exact absurd ⟨hfd, hF⟩ (hnone j d hd).1

theorem slotMerge_top_iff (htop : Highest mi S top) (hF : F ∈ Field.carried) {s : Slot}
    (hs : slotMerge sweeps mi = some s) :
    (s.src F = top ∧ (F = .PAYLOAD → CleanCopies memory (s.copies F))) ↔ HeldFirst memory mi F top := by
  obtain ⟨k, hk, hle, hcopies⟩ := slotMerge_holds h hst hF htop.1 hs
  rw [hcopies]
  constructor
  · rintro ⟨rfl, hclean⟩
    exact ⟨k, hk, hle, hclean⟩
  · rintro ⟨j, hj, hjle, hclean⟩
    obtain rfl : j = k := le_antisymm (hjle k _ hk) (hle j _ hj)
    obtain ⟨a, ha, -, hak⟩ := (holds_iff h hst).mp hk
    obtain ⟨b, hb, -, hbj⟩ := (holds_iff h hst).mp hj
    rw [ha] at hb
    cases hb
    exact ⟨hak.symm.trans hbj, hclean⟩

end

/-- The merged packet has the field from the leaf with the highest precedence, for every complete map of
packets, exactly if the packet that it ends up in lies lowest and, for a payload, a NUL stands behind the buffer
that the final phase may copy it from. -/
theorem mergePacket_precedence_iff (memory : Memory) (h : Precedence mi F S) (htop : Highest mi S top)
    (hnodes : ∀ k ∈ mi.leaves, k ∈ mi.nodeMap) (hF : F ∈ Field.carried) :
    (∀ m, CompleteMap mi m → (∀ (k : Int) p, m[k]? = some p → 0 ∉ p.data) →
      ∀ sweeps, mi.leaves.length ≤ sweeps →
        ∃ r p, mergePacket sweeps memory mi m = .ok r ∧ m[top]? = some p ∧ r.value F = p.value F) ↔
      HeldFirst memory mi F top := by
  have hne := List.ne_nil_of_mem (h.leaf top htop.1).1
  obtain ⟨slots, hslots⟩ := stableSlots_exists (fun ci hci => (h.members ci hci).2.2) hne
  constructor
  · intro hall
    have hbye := byePackets_complete mi (· = top)
    obtain ⟨r, p, hr, hp, hv⟩ := hall _ hbye (fun _ _ => byePackets_data) _ (Nat.le_refl _)
    obtain ⟨r', s, hr', hs, hrep⟩ := mergePacket_stable hnodes hne hbye (hslots _ (Nat.le_refl _))
    rw [hr] at hr'
    cases hr'
    obtain rfl := byePackets_eq (P := (· = top)) rfl hp
    have hsrc := hrep.src_of_bye hF hv
    have hq : (byePackets mi (· = top))[s.src F]? = some bye := by rw [hsrc]; exact hp
    exact (slotMerge_top_iff h (hslots _ (Nat.le_refl _)) htop hF hs).mp
      ⟨hsrc, hrep.clean_of_value hq (byePackets_data hq) hv⟩
  · intro hfirst m hm _ sweeps hsweeps
    obtain ⟨r, s, hr, hs, hrep⟩ := mergePacket_stable hnodes hne hm (hslots sweeps hsweeps)
    obtain ⟨hsrc, hclean⟩ := (slotMerge_top_iff h (hslots sweeps hsweeps) htop hF hs).mpr hfirst
    obtain ⟨p, hp, hv⟩ := hrep.value hclean
    rw [hsrc] at hp
    exact ⟨r, p, hr, hp, hv⟩

end

/-- Three proxies below a firewall; a proxy with a higher id has precedence. -/
def threeProxies (conflictsList : List ConflictItem) : MergerInfo where
  portToNodeMap := .ofList ([(8002, 2), (8003, 3), (8004, 4)] : List (Int × Int))
  conflictsList
  nodeMap := .ofList
    ([(1, { id := 1, nf := .dnfFirewall, neighbors := [2, 3, 4] }), (2, { id := 2, nf := .proxy }),
      (3, { id := 3, nf := .proxy }), (4, { id := 4, nf := .proxy })] : List (Int × RuntimeNode))
  destIp := "127.0.0.1"
  destPort := 9999

/-- The two lower proxies are paired first: their packet lies below that of the proxy with precedence. -/
theorem mergePacket_precedence_threeProxies :
    Precedence (threeProxies [⟨3, 2, 1⟩, ⟨4, 3, 1⟩, ⟨4, 2, 1⟩]) .DIP {2, 3, 4} ∧
    Highest (threeProxies [⟨3, 2, 1⟩, ⟨4, 3, 1⟩, ⟨4, 2, 1⟩]) {2, 3, 4} 4 ∧
    ∃ m, CompleteMap (threeProxies [⟨3, 2, 1⟩, ⟨4, 3, 1⟩, ⟨4, 2, 1⟩]) m ∧
      (∀ (k : Int) p, m[k]? = some p → 0 ∉ p.data) ∧ m[(4 : Int)]? = some bye ∧
      ∃ r, mergePacket 3 (fun _ => []) (threeProxies [⟨3, 2, 1⟩, ⟨4, 3, 1⟩, ⟨4, 2, 1⟩]) m = .ok r ∧
        r.value .DIP ≠ bye.value .DIP := by
  refine ⟨⟨by decide, by decide, by decide, by decide, by decide⟩, ⟨by decide, by decide⟩, _,
    byePackets_complete _ (· = 4), fun _ _ => byePackets_data, by decide, ?_⟩
  exact Rounds.exists_ok (by decide)

theorem mergePacket_precedence_top :
    HeldFirst (fun _ => [65]) (threeProxies [⟨4, 3, 1⟩, ⟨4, 2, 1⟩, ⟨3, 2, 1⟩]) .DIP 4 ∧
      ∀ m, CompleteMap (threeProxies [⟨4, 3, 1⟩, ⟨4, 2, 1⟩, ⟨3, 2, 1⟩]) m →
        (∀ (k : Int) p, m[k]? = some p → 0 ∉ p.data) → ∀ sweeps, 3 ≤ sweeps →
          ∃ r p, mergePacket sweeps (fun _ => [65]) (threeProxies [⟨4, 3, 1⟩, ⟨4, 2, 1⟩, ⟨3, 2, 1⟩]) m = .ok r ∧
            m[(4 : Int)]? = some p ∧ r.value .DIP = p.value .DIP := by
  have hfirst : HeldFirst (fun _ => [65]) (threeProxies [⟨4, 3, 1⟩, ⟨4, 2, 1⟩, ⟨3, 2, 1⟩]) .DIP 4 := by
    refine ⟨1, .inr ⟨⟨4, 3, 1⟩, by decide, rfl⟩, ?_, fun h => absurd h (by decide)⟩
    rintro j x (⟨-, hj, -⟩ | ⟨c, hc, -⟩)
    · have hleaf : ∀ k ∈ (threeProxies [⟨4, 3, 1⟩, ⟨4, 2, 1⟩, ⟨3, 2, 1⟩]).leaves, 1 ≤ k := by decide
      exact hleaf j hj
    · have hpair : ∀ c ∈ pairUp [⟨4, 3, 1⟩, ⟨4, 2, 1⟩, ⟨3, 2, 1⟩], 1 ≤ c.parent := by decide
      have hj : c.parent = j := by simpa using List.find?_some hc
      exact hj ▸ hpair c (List.mem_of_find?_eq_some hc)
  exact ⟨hfirst, (mergePacket_precedence_iff (fun _ => [65])
    (⟨by decide, by decide, by decide, by decide, by decide⟩ : Precedence _ .DIP {2, 3, 4}) ⟨by decide, by decide⟩
    (by decide) (by decide)).mpr hfirst⟩

end DeepNF
