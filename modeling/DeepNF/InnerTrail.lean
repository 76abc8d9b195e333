import DeepNF.LeafWrites

/-!
# The write of an inner node in the merge

The packets of the leaves carry the writes of their ancestors, but in the merge a field counts as
written by an inner node `v` only from the point where a conflict item lifts a pair to `v`. `Trail`
replays the conflict loop on node ids and notes which packets have been lifted to `v`, and from which
leaf the other ones come, back along the majors. The merge has the field from a leaf below `v` exactly if
such a packet is left at the end, or none is and the packet with the lowest id comes from below `v`
(`slotMerge_below_iff`). A payload must not take up anything on the way: `Trail` also counts where it is
copied.
-/

namespace DeepNF
open Std (TreeMap)

/-- The ids that have a packet, those whose packet has been lifted to `v` since, the leaf that every packet is based
on, and the merges that have copied what `v` has written. -/
structure Trail where
  held : Finset Int
  marked : Finset Int
  base : Int → Int
  copies : Int → List Nat

namespace Trail

def start (mi : MergerInfo) : Trail := ⟨mi.leaves.toFinset, ∅, id, fun _ => []⟩

/-- A conflict item on ids; a packet for an id that is still held is lost. -/
def fire (v : Int) (ci : ConflictItem) (t : Trail) : Option (Except Empty Trail) :=
  if ci.major ∈ t.held ∧ ci.minor ∈ t.held then
    let rest := (t.held.erase ci.major).erase ci.minor
    let marked := (t.marked.erase ci.major).erase ci.minor
    some (.ok
      (if ci.parent ∈ rest then { t with held := rest, marked }
      else
        { held := insert ci.parent rest
          marked :=
            if ci.parent = v ∨ ci.major ∈ t.marked ∨ ci.minor ∈ t.marked then insert ci.parent marked
            else marked
          base := Function.update t.base ci.parent (t.base ci.major)
          copies := Function.update t.copies ci.parent
            (if ci.minor ∈ t.marked ∧ ci.major ∉ t.marked then t.copies ci.minor ++ [t.held.card]
            else t.copies ci.major) }))
  else none

/-- The packet that the final phase takes the field from. -/
def Carrier (t : Trail) (k : Int) : Prop :=
  (k ∈ t.marked ∧ ∀ j ∈ t.marked, k ≤ j) ∨ (t.marked = ∅ ∧ k ∈ t.held ∧ ∀ j ∈ t.held, k ≤ j)

/-- That packet has been lifted to `v`, or comes from `below`; a payload is read up to its end. -/
def Ends (memory : Memory) (F : Field) (below : Set Int) (t : Trail) : Prop :=
  ∃ k, t.Carrier k ∧ (k ∈ t.marked ∨ t.base k ∈ below) ∧
    (F = .PAYLOAD → CleanCopies memory (t.copies k ++ lastCopy t.held k))

def Leads (memory : Memory) (mi : MergerInfo) (v : Int) (F : Field) (below : Set Int) : Prop :=
  ∃ sweeps t, Rounds.run (Trail.fire v) mi.conflictsList sweeps (Trail.start mi) = some (.ok t) ∧
    t.Ends memory F below

theorem Carrier.unique {t : Trail} {j k : Int} (hj : t.Carrier j) (hk : t.Carrier k) :
    j = k := by
  rcases hj with ⟨hj, hlej⟩ | ⟨hnone, hj, hlej⟩ <;> rcases hk with ⟨hk, hlek⟩ | ⟨hnone', hk, hlek⟩
  · exact le_antisymm (hlej k hk) (hlek j hj)
  · exact absurd hj (hnone' ▸ Finset.notMem_empty j)
  · exact absurd hk (hnone ▸ Finset.notMem_empty k)
  · exact le_antisymm (hlej k hk) (hlek j hj)

end Trail

section
variable {memory : Memory} {mi : MergerInfo} {slots : SlotMap} {t : Trail} {v : Int} {F : Field} {ci : ConflictItem}
  {Below : Int → Set Int}

/-- The marked slots have `F` written, and from below `v`; the others have it from their base. -/
structure Trails (Below : Int → Set Int) (v : Int) (F : Field) (slots : SlotMap) (t : Trail) : Prop where
  mem_iff : ∀ k, k ∈ slots ↔ k ∈ t.held
  fields : ∀ (k : Int) s, slots[k]? = some s → (F ∈ s.fields ↔ k ∈ t.marked)
  marked : ∀ (k : Int) s, slots[k]? = some s → k ∈ t.marked → s.src F ∈ Below v
  base : ∀ (k : Int) s, slots[k]? = some s → k ∉ t.marked → s.src F = t.base k
  below : ∀ k ∈ t.held, t.base k ∈ Below k
  subset : t.marked ⊆ t.held
  copies : ∀ (k : Int) s, slots[k]? = some s → s.copies F = t.copies k

theorem trails_start (hw : ∀ k, F ∈ nodeWrites mi k ↔ k = v) (hv : v ∉ mi.leaves)
    (hleaf : ∀ k ∈ mi.leaves, k ∈ Below k) : Trails Below v F (leafSlots mi) (Trail.start mi) := by
  refine ⟨fun k => ?_, fun k s hs => ?_, fun k s _ hk => absurd hk (Finset.notMem_empty k), fun k s hs _ => ?_,
    fun k hk => hleaf k (List.mem_toFinset.mp hk), Finset.empty_subset _, fun k s hs => ?_⟩
  · rw [mem_leafSlots, Trail.start, List.mem_toFinset]
  · obtain ⟨hk, rfl⟩ := getElem?_leafSlots hs
    refine iff_of_false (fun h => ?_) (Finset.notMem_empty k)
    rw [(hw k).mp h] at hk
    exact hv hk
  · obtain ⟨-, rfl⟩ := getElem?_leafSlots hs
    rfl
  · obtain ⟨-, rfl⟩ := getElem?_leafSlots hs
    rfl

theorem Slot.lift_src (left : Nat) (ci : ConflictItem) (a b : Slot) (hF : F ∈ Field.carried)
    (hw : ∀ k, F ∈ nodeWrites mi k ↔ k = v) :
    ((Slot.lift left mi ci a b).src F = if F ∈ b.fields ∧ F ∉ a.fields then b.src F else a.src F) ∧
      ((Slot.lift left mi ci a b).copies F =
        if F ∈ b.fields ∧ F ∉ a.fields then b.copies F ++ [left] else a.copies F) ∧
      (F ∈ (Slot.lift left mi ci a b).fields ↔ ci.parent = v ∨ F ∈ a.fields ∨ F ∈ b.fields) := by
  refine ⟨?_, ?_, ?_⟩
  · simp only [Slot.lift, Slot.resolve, hF, and_true]
  · simp only [Slot.lift, Slot.resolve, hF, and_true]
  · simp only [Slot.lift, Slot.resolve, Finset.mem_union, hw]
    tauto

section Fire
variable {a b : Slot}

def Trail.rest (t : Trail) (ci : ConflictItem) : Finset Int := (t.held.erase ci.major).erase ci.minor

theorem Trail.mem_rest {k : Int} : k ∈ t.rest ci ↔ k ≠ ci.minor ∧ k ≠ ci.major ∧ k ∈ t.held := by
  simp [Trail.rest]

theorem mem_erase_members {s : Finset Int} {k : Int} :
    k ∈ (s.erase ci.major).erase ci.minor ↔ k ≠ ci.minor ∧ k ≠ ci.major ∧ k ∈ s := by simp

theorem Trails.mem_merged (h : Trails Below v F slots t) (k : Int) :
    k ∈ ((slots.erase ci.major).erase ci.minor).insertIfNew ci.parent (Slot.lift slots.size mi ci a b) ↔
      k ∈ insert ci.parent (t.rest ci) := by
  simp only [TreeMap.mem_insertIfNew, TreeMap.mem_erase, Std.LawfulEqOrd.compare_eq_iff_eq,
    Finset.mem_insert, Trail.mem_rest, h.mem_iff k, ne_eq]
  rw [eq_comm, eq_comm (a := ci.minor), eq_comm (a := ci.major)]

theorem Trails.lose (h : Trails Below v F slots t) (hpar : ci.parent ∈ t.rest ci) :
    Trails Below v F (((slots.erase ci.major).erase ci.minor).insertIfNew ci.parent (Slot.lift slots.size mi ci a b))
      { t with held := t.rest ci, marked := (t.marked.erase ci.major).erase ci.minor } := by
  have hold : ∀ (k : Int) s,
      (((slots.erase ci.major).erase ci.minor).insertIfNew ci.parent (Slot.lift slots.size mi ci a b))[k]? = some s →
      k ≠ ci.major ∧ k ≠ ci.minor ∧ slots[k]? = some s := by
    intro k s hs
    rcases getElem?_lift hs with hs | ⟨rfl, -, hfree⟩
    · exact hs
    · obtain ⟨h₁, h₂, h₃⟩ := Trail.mem_rest.mp hpar
      exact ((hfree ((h.mem_iff _).mpr h₃)).elim h₂ h₁).elim
  refine ⟨fun k => by rw [h.mem_merged, Finset.insert_eq_of_mem hpar], fun k s hs => ?_, fun k s hs hk => ?_,
    fun k s hs hk => ?_, fun k hk => h.below k (Trail.mem_rest.mp hk).2.2, fun k hk => ?_,
    fun k s hs => h.copies k s (hold k s hs).2.2⟩
  · obtain ⟨h₁, h₂, hs⟩ := hold k s hs
    rw [h.fields k s hs, mem_erase_members]
    exact ⟨fun hk => ⟨h₂, h₁, hk⟩, fun hk => hk.2.2⟩
  · obtain ⟨-, -, hs⟩ := hold k s hs
    exact h.marked k s hs (mem_erase_members.mp hk).2.2
  · obtain ⟨h₁, h₂, hs⟩ := hold k s hs
    exact h.base k s hs fun hm => hk (mem_erase_members.mpr ⟨h₂, h₁, hm⟩)
  · obtain ⟨h₁, h₂, h₃⟩ := mem_erase_members.mp hk
    exact Trail.mem_rest.mpr ⟨h₁, h₂, h.subset h₃⟩

/-- The lifted slot has `F` from its major, unless the minor has it written and the major has not; it
counts as written if it did in a member, or now. -/
theorem Trails.lifted (hF : F ∈ Field.carried) (hw : ∀ k, F ∈ nodeWrites mi k ↔ k = v)
    (hci : Below ci.major ⊆ Below ci.parent) (h : Trails Below v F slots t) (ha : slots[ci.major]? = some a)
    (hb : slots[ci.minor]? = some b) :
    (F ∈ (Slot.lift slots.size mi ci a b).fields ↔ ci.parent = v ∨ ci.major ∈ t.marked ∨ ci.minor ∈ t.marked) ∧
      (F ∈ (Slot.lift slots.size mi ci a b).fields → (Slot.lift slots.size mi ci a b).src F ∈ Below v) ∧
      (F ∉ (Slot.lift slots.size mi ci a b).fields → (Slot.lift slots.size mi ci a b).src F = t.base ci.major) ∧
      (Slot.lift slots.size mi ci a b).copies F = if ci.minor ∈ t.marked ∧ ci.major ∉ t.marked then
        t.copies ci.minor ++ [t.held.card] else t.copies ci.major := by
  obtain ⟨hsrc, hcopies, hfields⟩ := Slot.lift_src slots.size ci a b hF hw
  have hmajor : ci.major ∈ t.held := (h.mem_iff _).mp (TreeMaps.mem_of_getElem? ha)
  simp only [h.fields _ a ha, h.fields _ b hb] at hsrc hcopies hfields
  rw [h.copies _ a ha, h.copies _ b hb, size_eq_card h.mem_iff] at hcopies
  refine ⟨hfields, fun hl => ?_, fun hl => ?_, by rw [size_eq_card h.mem_iff]; exact hcopies⟩
  · rw [hsrc]
    split
    · rename_i hc
      exact h.marked _ b hb hc.1
    · rename_i hc
      by_cases hma : ci.major ∈ t.marked
      · exact h.marked _ a ha hma
      · -- neither of the two has been lifted to `v`: this item does it
        have hpar : ci.parent = v := by
          rcases hfields.mp hl with hv | hm | hm
          exacts [hv, absurd hm hma, absurd ⟨hm, hma⟩ hc]
        rw [h.base _ a ha hma, ← hpar]
        exact hci (h.below _ hmajor)
  · rw [hfields, not_or, not_or] at hl
    rw [hsrc, if_neg fun hc => hl.2.2 hc.1]
    exact h.base _ a ha hl.2.1

theorem Trails.lift (hF : F ∈ Field.carried) (hw : ∀ k, F ∈ nodeWrites mi k ↔ k = v)
    (hci : Below ci.major ⊆ Below ci.parent) (h : Trails Below v F slots t) (ha : slots[ci.major]? = some a)
    (hb : slots[ci.minor]? = some b) (hpar : ci.parent ∉ t.rest ci) {m : Finset Int}
    (hm : ∀ k, k ∈ m ↔ k ∈ (t.marked.erase ci.major).erase ci.minor ∨
      k = ci.parent ∧ (ci.parent = v ∨ ci.major ∈ t.marked ∨ ci.minor ∈ t.marked)) :
    Trails Below v F (((slots.erase ci.major).erase ci.minor).insertIfNew ci.parent (Slot.lift slots.size mi ci a b))
      { held := insert ci.parent (t.rest ci), marked := m,
        base := Function.update t.base ci.parent (t.base ci.major)
        copies := Function.update t.copies ci.parent (if ci.minor ∈ t.marked ∧ ci.major ∉ t.marked then
          t.copies ci.minor ++ [t.held.card] else t.copies ci.major) } := by
  obtain ⟨hfields, hmark, hbase, hcopies⟩ := h.lifted hF hw hci ha hb
  have hmajor : ci.major ∈ t.held := (h.mem_iff _).mp (TreeMaps.mem_of_getElem? ha)
  have hparent : ci.parent ∈ m ↔ F ∈ (Slot.lift slots.size mi ci a b).fields := by
    rw [hm, hfields, mem_erase_members]
    refine ⟨fun h' => ?_, fun h' => .inr ⟨rfl, h'⟩⟩
    rcases h' with ⟨h₁, h₂, h₃⟩ | ⟨-, h'⟩
    · exact absurd (Trail.mem_rest.mpr ⟨h₁, h₂, h.subset h₃⟩) hpar
    · exact h'
  have hother : ∀ {k}, k ≠ ci.parent → (k ∈ m ↔ k ≠ ci.minor ∧ k ≠ ci.major ∧ k ∈ t.marked) := by
    intro k hk
    rw [hm, mem_erase_members]
    exact or_iff_left fun h' => hk h'.1
  -- nothing is left under the id of the parent, so the lifted slot gets it
  have hne : ∀ {k : Int} {s}, slots[k]? = some s → k ≠ ci.major → k ≠ ci.minor → k ≠ ci.parent := by
    rintro k s hs h₁ h₂ rfl
    exact hpar (Trail.mem_rest.mpr ⟨h₂, h₁, (h.mem_iff _).mp (TreeMaps.mem_of_getElem? hs)⟩)
  refine ⟨h.mem_merged, fun k s hs => ?_, fun k s hs hk => ?_, fun k s hs hk => ?_, fun k hk => ?_,
    fun k hk => ?_, fun k s hs => ?_⟩
  · rcases getElem?_lift hs with ⟨h₁, h₂, hs⟩ | ⟨rfl, rfl, -⟩
    · rw [h.fields k s hs, hother (hne hs h₁ h₂)]
      exact ⟨fun hk => ⟨h₂, h₁, hk⟩, fun hk => hk.2.2⟩
    · exact hparent.symm
  · rcases getElem?_lift hs with ⟨h₁, h₂, hs⟩ | ⟨rfl, rfl, -⟩
    · exact h.marked k s hs ((hother (hne hs h₁ h₂)).mp hk).2.2
    · exact hmark (hparent.mp hk)
  · rcases getElem?_lift hs with ⟨h₁, h₂, hs⟩ | ⟨rfl, rfl, -⟩
    · have hkp := hne hs h₁ h₂
      show s.src F = Function.update t.base ci.parent (t.base ci.major) k
      rw [Function.update_of_ne hkp]
      exact h.base k s hs fun hm => hk ((hother hkp).mpr ⟨h₂, h₁, hm⟩)
    · show _ = Function.update t.base ci.parent (t.base ci.major) ci.parent
      rw [Function.update_self]
      exact hbase fun hm => hk (hparent.mpr hm)
  · show Function.update t.base ci.parent (t.base ci.major) k ∈ Below k
    rcases Finset.mem_insert.mp hk with rfl | hk
    · rw [Function.update_self]
      exact hci (h.below _ hmajor)
    · rw [Function.update_of_ne fun he : k = ci.parent => hpar (he ▸ hk)]
      exact h.below k (Trail.mem_rest.mp hk).2.2
  · by_cases hkp : k = ci.parent
    · exact hkp ▸ Finset.mem_insert_self ..
    · obtain ⟨h₁, h₂, h₃⟩ := (hother hkp).mp hk
      exact Finset.mem_insert_of_mem (Trail.mem_rest.mpr ⟨h₁, h₂, h.subset h₃⟩)
  · show _ = Function.update t.copies ci.parent _ k
    rcases getElem?_lift hs with ⟨h₁, h₂, hs⟩ | ⟨rfl, rfl, -⟩
    · rw [Function.update_of_ne (hne hs h₁ h₂)]
      exact h.copies k s hs
    · rw [Function.update_self]
      exact hcopies

theorem Trails.fire (hF : F ∈ Field.carried) (hw : ∀ k, F ∈ nodeWrites mi k ↔ k = v)
    (hci : Below ci.major ⊆ Below ci.parent) (h : Trails Below v F slots t) :
    Option.Rel (Rounds.Agree (Trails Below v F) fun _ _ => False) (trySlots mi ci slots) (t.fire v ci) := by
  refine trySlots_rel h.mem_iff (fun hn => if_neg hn) fun a b ha hb hheld => ⟨_, if_pos hheld, ?_⟩
  split
  · rename_i hpar
    exact h.lose hpar
  · rename_i hpar
    refine h.lift hF hw hci ha hb hpar fun k => ?_
    split
    · rename_i hc
      rw [Finset.mem_insert, or_comm, and_iff_left hc]
    · rename_i hc
      exact (or_iff_left fun h' => hc h'.2).symm

end Fire

/-! ### The rest -/

theorem Trails.rest_src (hF : F ∈ Field.carried) (h : Trails Below v F slots t) {s : Slot}
    (hs : restSlots (slots.toList.map (·.2)) = some s) :
    ∃ k, t.Carrier k ∧ s.copies F = t.copies k ++ lastCopy t.held k ∧
      (s.src F ∈ Below v ↔ k ∈ t.marked ∨ t.base k ∈ Below v) := by
  obtain ⟨k, a, ha, hsrc, hcopies, hlow⟩ := restSlots_src F hs
  rw [h.copies k a ha, keys_eq_held h.mem_iff] at hcopies
  have hslot : ∀ j ∈ t.held, ∃ b, slots[j]? = some b := fun j hj => TreeMaps.exists_getElem? ((h.mem_iff j).mpr hj)
  rcases hlow with ⟨hc, hle⟩ | hnone
  · have hk := (h.fields k a ha).mp hc.1
    refine ⟨k, .inl ⟨hk, fun j hj => ?_⟩, hcopies, iff_of_true (hsrc ▸ h.marked k a ha hk) (.inl hk)⟩
    obtain ⟨b, hb⟩ := hslot j (h.subset hj)
    exact hle j b hb ⟨(h.fields j b hb).mpr hj, hF⟩
  · have hmark : ∀ j, j ∉ t.marked := by
      intro j hj
      obtain ⟨b, hb⟩ := hslot j (h.subset hj)
      exact (hnone j b hb).1 ⟨(h.fields j b hb).mpr hj, hF⟩
    have hk : k ∈ t.held := (h.mem_iff k).mp (TreeMaps.mem_of_getElem? ha)
    refine ⟨k, .inr ⟨Finset.eq_empty_of_forall_notMem hmark, hk, fun j hj => ?_⟩, hcopies, ?_⟩
    · obtain ⟨b, hb⟩ := hslot j hj
      exact (hnone j b hb).2
    · rw [hsrc, h.base k a ha (hmark k), or_iff_right (hmark k)]

/-- The merge has the field from a leaf below `v`, and a payload as it was sent, exactly if the replay of the loop
leads there. -/
theorem slotMerge_below_iff (hF : F ∈ Field.carried) (hw : ∀ k, F ∈ nodeWrites mi k ↔ k = v)
    (hv : v ∉ mi.leaves)
    (hleaf : ∀ k ∈ mi.leaves, k ∈ Below k) (hitems : ∀ ci ∈ mi.conflictsList, Below ci.major ⊆ Below ci.parent)
    {sweeps : Nat} (hst : stableSlots sweeps mi = some slots) {s : Slot} (hs : slotMerge sweeps mi = some s) :
    (s.src F ∈ Below v ∧ (F = .PAYLOAD → CleanCopies memory (s.copies F))) ↔
      Trail.Leads memory mi v F (Below v) := by
  obtain ⟨t, ht, htr⟩ := stableSlots_rel (fun ci hci slots t h => Trails.fire hF hw (hitems ci hci) h)
    (trails_start hw hv hleaf) hst
  simp only [slotMerge, hst, bind, Option.bind] at hs
  obtain ⟨k, hk, hcopies, hbelow⟩ := htr.rest_src hF hs
  rw [hcopies, hbelow]
  constructor
  · exact fun he => ⟨sweeps, t, ht, k, hk, he⟩
  · rintro ⟨sweeps', t', ht', k', hk', he⟩
    cases Rounds.run_det ht ht'
    cases hk.unique hk'
    exact he

end
end DeepNF
