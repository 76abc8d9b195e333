import DeepNF.MergeSpec
import Mathlib.Data.Finset.Dedup

/-!
# Where the fields of the merged packet come from

The merge never looks at the value of a field. A `Slot` is a packet of the working map without its
contents: for every field the leaf that it comes from, the merges that have copied it since, and whether it
counts as written. `slotMerge` runs the merge on slots, so it depends on the configuration only.
`mergePacket` refines it (`mergePacket_slots`): the merged packet has every field as the leaf has sent it
that `slotMerge` names, but for what a payload has taken up behind a buffer when it was copied (`Rep`).
-/

namespace DeepNF
open Std (TreeMap)

/-- `copies` are the merges that have copied a field, by the number of packets that were left. -/
structure Slot where
  src : Field → Int
  fields : Finset Field
  copies : Field → List Nat

def Slot.resolve (left : Nat) (major minor : Slot) : Slot where
  src F := if F ∈ minor.fields ∧ F ∉ major.fields ∧ F ∈ Field.carried then minor.src F else major.src F
  fields := minor.fields ∪ major.fields
  copies F :=
    if F ∈ minor.fields ∧ F ∉ major.fields ∧ F ∈ Field.carried then minor.copies F ++ [left] else major.copies F

/-- The slot that a conflict item puts in the place of its members. -/
def Slot.lift (left : Nat) (mi : MergerInfo) (ci : ConflictItem) (major minor : Slot) : Slot :=
  { major.resolve left minor with fields := (major.resolve left minor).fields ∪ nodeWrites mi ci.parent }

abbrev SlotMap := TreeMap Int Slot

def trySlots (mi : MergerInfo) (ci : ConflictItem) (slots : SlotMap) : Option (Except Empty SlotMap) :=
  match slots[ci.major]?, slots[ci.minor]? with
  | some a, some b =>
    some (.ok (((slots.erase ci.major).erase ci.minor).insertIfNew ci.parent (Slot.lift slots.size mi ci a b)))
  | _, _ => none

def leafSlot (mi : MergerInfo) (nodeId : Int) : Slot := ⟨fun _ => nodeId, nodeWrites mi nodeId, fun _ => []⟩

/-- A packet of each node in `keys`: usually all leaves. -/
def leafSlots (mi : MergerInfo) (keys : List Int := mi.leaves) : SlotMap := TreeMaps.tabulate (leafSlot mi) keys

def Slot.mergeAll (merged : Slot) : List Slot → Slot
  | [] => merged
  | s :: ss => Slot.mergeAll (merged.resolve (ss.length + 2) s) ss

def restSlots : List Slot → Option Slot
  | [] => none
  | s :: ss => some (s.mergeAll ss)

def stableSlots (sweeps : Nat) (mi : MergerInfo) (keys : List Int := mi.leaves) : Option SlotMap :=
  match Rounds.run (trySlots mi) mi.conflictsList sweeps (leafSlots mi keys) with
  | some (.ok slots) => some slots
  | _ => none

def slotMerge (sweeps : Nat) (mi : MergerInfo) (keys : List Int := mi.leaves) : Option Slot := do
  restSlots ((← stableSlots sweeps mi keys).toList.map (·.2))

/-! ### The final phase -/

/-- A merge with the packet carries `F` over. -/
def Slot.Carries (F : Field) (s : Slot) : Prop := F ∈ s.fields ∧ F ∈ Field.carried

instance (F : Field) : DecidablePred (Slot.Carries F) := fun s =>
  inferInstanceAs (Decidable (F ∈ s.fields ∧ F ∈ Field.carried))

/-- The final phase copies from the packet at `k`, unless all others are merged into that one. -/
def lastCopy (held : Finset Int) (k : Int) : List Nat :=
  if ∀ j ∈ held, k ≤ j then [] else [(held.filter (k ≤ ·)).card + 1]

namespace Slot
variable {F : Field} {a b : Slot}

theorem carries_resolve {left : Nat} : (a.resolve left b).Carries F ↔ b.Carries F ∨ a.Carries F := by
  unfold resolve Carries
  rw [Finset.mem_union, or_and_right]

theorem resolve_minor (left : Nat) (hb : b.Carries F) (ha : ¬ a.Carries F) :
    (a.resolve left b).src F = b.src F ∧ (a.resolve left b).copies F = b.copies F ++ [left] := by
  have h : F ∈ b.fields ∧ F ∉ a.fields ∧ F ∈ Field.carried := ⟨hb.1, fun h => ha ⟨h, hb.2⟩, hb.2⟩
  exact ⟨if_pos h, if_pos h⟩

theorem resolve_major (left : Nat) (h : b.Carries F → a.Carries F) :
    (a.resolve left b).src F = a.src F ∧ (a.resolve left b).copies F = a.copies F := by
  have h : ¬ (F ∈ b.fields ∧ F ∉ a.fields ∧ F ∈ Field.carried) := fun hc => hc.2.1 (h ⟨hc.1, hc.2.2⟩).1
  exact ⟨if_neg h, if_neg h⟩

theorem mergeAll_base {l : List Slot} (h : a.Carries F ∨ ∀ b ∈ l, ¬ b.Carries F) :
    (a.mergeAll l).src F = a.src F ∧ (a.mergeAll l).copies F = a.copies F := by
  induction l generalizing a with
  | nil => exact ⟨rfl, rfl⟩
  | cons b l ih =>
    have hmajor : b.Carries F → a.Carries F := fun hb => h.resolve_right fun hl => hl b (List.mem_cons_self ..) hb
    obtain ⟨hsrc, hcopies⟩ := resolve_major (l.length + 2) hmajor
    obtain ⟨h₁, h₂⟩ := ih (a := a.resolve (l.length + 2) b) (by
      rcases h with ha | hl
      · exact .inl (carries_resolve.mpr (.inr ha))
      · exact .inr fun c hc => hl c (List.mem_cons_of_mem _ hc))
    exact ⟨h₁.trans hsrc, h₂.trans hcopies⟩

theorem mergeAll_first (rest : List Slot) {done : List Slot} (ha : ¬ a.Carries F) (hdone : ∀ c ∈ done, ¬ c.Carries F)
    (hb : b.Carries F) : (a.mergeAll (done ++ b :: rest)).src F = b.src F ∧
      (a.mergeAll (done ++ b :: rest)).copies F = b.copies F ++ [rest.length + 2] := by
  induction done generalizing a with
  | nil =>
    obtain ⟨hsrc, hcopies⟩ := resolve_minor (rest.length + 2) hb ha
    obtain ⟨h₁, h₂⟩ := mergeAll_base (a := a.resolve (rest.length + 2) b) (l := rest)
      (.inl (carries_resolve.mpr (.inl hb)))
    exact ⟨h₁.trans hsrc, h₂.trans hcopies⟩
  | cons c done ih =>
    obtain ⟨hc, hdone⟩ := List.forall_mem_cons.mp hdone
    exact ih (fun h => (carries_resolve.mp h).elim hc ha) hdone

end Slot

theorem lastCopy_append {done rest : List Int} {k : Int} (h : (done ++ k :: rest).Pairwise (· < ·)) :
    lastCopy (done ++ k :: rest).toFinset k = if done = [] then [] else [rest.length + 2] := by
  obtain ⟨-, hrest, hdone⟩ := List.pairwise_append.mp h
  have habove : ∀ j ∈ rest, k < j := (List.pairwise_cons.mp hrest).1
  have hbelow : ∀ j ∈ done, j < k := fun j hj => hdone j hj k (List.mem_cons_self ..)
  rcases done with _ | ⟨i, done⟩
  · refine if_pos fun j hj => ?_
    rcases List.mem_cons.mp (List.mem_toFinset.mp hj) with rfl | hj
    exacts [le_refl _, le_of_lt (habove j hj)]
  · have hi := hbelow i (List.mem_cons_self ..)
    have hfilter : ((i :: done ++ k :: rest).toFinset.filter (k ≤ ·)) = (k :: rest).toFinset := by
      ext j
      rw [Finset.mem_filter, List.mem_toFinset, List.mem_toFinset, List.mem_append]
      constructor
      · rintro ⟨hj | hj, hle⟩
        exacts [absurd (hbelow j hj) (not_lt.mpr hle), hj]
      · intro hj
        refine ⟨.inr hj, ?_⟩
        rcases List.mem_cons.mp hj with rfl | hj
        exacts [le_refl _, le_of_lt (habove j hj)]
    rw [lastCopy, if_neg fun hall => absurd (hall i (by simp)) (not_le.mpr hi), hfilter,
      List.toFinset_card_of_nodup (hrest.imp fun h => ne_of_lt h)]
    rfl

/-- The final phase has a field from the packet with the lowest id among those that count it as written, or,
if none does, from the one with the lowest id of all. -/
theorem restSlots_src (F : Field) {slots : SlotMap} {s : Slot}
    (h : restSlots (slots.toList.map (·.2)) = some s) :
    ∃ (k : Int) (a : Slot), slots[k]? = some a ∧ s.src F = a.src F ∧
      s.copies F = a.copies F ++ lastCopy slots.keys.toFinset k ∧
      ((a.Carries F ∧ ∀ (j : Int) b, slots[j]? = some b → b.Carries F → k ≤ j) ∨
        ∀ (j : Int) b, slots[j]? = some b → ¬ b.Carries F ∧ k ≤ j) := by
  have hmem : ∀ {k : Int} {a}, (k, a) ∈ slots.toList ↔ slots[k]? = some a :=
    TreeMap.mem_toList_iff_getElem?_eq_some
  have hsorted : (slots.toList.map (·.1)).Pairwise (· < ·) :=
    List.pairwise_map.mpr (TreeMap.ordered_keys_toList.imp fun h => Std.compare_eq_lt.mp h)
  rw [← TreeMap.map_fst_toList_eq_keys]
  generalize slots.toList = l at h hmem hsorted
  cases l with
  | nil => cases h
  | cons x l =>
    cases h
    have hlow : ∀ y ∈ x :: l, x.1 ≤ y.1 := by
      intro y hy
      rcases List.mem_cons.mp hy with rfl | hy
      exacts [le_refl _, le_of_lt ((List.pairwise_cons.mp hsorted).1 _ (List.mem_map_of_mem hy))]
    have hbase : ∀ hx : x.2.Carries F ∨ ∀ b ∈ l.map (·.2), ¬ b.Carries F,
        (x.2.mergeAll (l.map (·.2))).src F = x.2.src F ∧ (x.2.mergeAll (l.map (·.2))).copies F =
          x.2.copies F ++ lastCopy ((x :: l).map (·.1)).toFinset x.1 := fun hx => by
      have hlast : lastCopy ((x :: l).map (·.1)).toFinset x.1 = [] := by
        rw [List.map_cons, ← List.nil_append (x.1 :: _), lastCopy_append hsorted, if_pos rfl]
      rw [hlast, List.append_nil]
      exact Slot.mergeAll_base hx
    by_cases hx : x.2.Carries F
    · obtain ⟨hsrc, hcopies⟩ := hbase (.inl hx)
      exact ⟨x.1, x.2, hmem.mp (List.mem_cons_self ..), hsrc, hcopies,
        .inl ⟨hx, fun j b hb _ => hlow _ (hmem.mpr hb)⟩⟩
    -- the first packet carries nothing, so the field comes from the first one behind it that does
    cases hfind : l.find? fun y => decide (y.2.Carries F) with
    | none =>
      have hnone : ∀ y ∈ l, ¬ y.2.Carries F := by simpa using hfind
      obtain ⟨hsrc, hcopies⟩ := hbase (.inr (List.forall_mem_map.mpr hnone))
      refine ⟨x.1, x.2, hmem.mp (List.mem_cons_self ..), hsrc, hcopies, .inr fun j b hb =>
        ⟨?_, hlow _ (hmem.mpr hb)⟩⟩
      rcases List.mem_cons.mp (hmem.mpr hb) with h | hjb
      · rwa [← congrArg Prod.snd h] at hx
      · exact hnone _ hjb
    | some y =>
      obtain ⟨hy, done, rest, rfl, hdone⟩ := List.find?_eq_some_iff_append.mp hfind
      have hy : y.2.Carries F := by simpa using hy
      have hdone : ∀ z ∈ done, ¬ z.2.Carries F := by simpa using hdone
      obtain ⟨hsrc, hcopies⟩ := Slot.mergeAll_first (rest.map (·.2)) hx
        (List.forall_mem_map (f := fun z : Int × Slot => z.2).mpr hdone) hy
      rw [← List.map_cons, ← List.map_append] at hsrc hcopies
      rw [List.map_cons, List.map_append, List.map_cons, ← List.cons_append] at hsorted
      have hlast := lastCopy_append hsorted
      rw [if_neg (List.cons_ne_nil _ _), List.length_map] at hlast
      refine ⟨y.1, y.2, hmem.mp (by simp), hsrc, ?_, .inl ⟨hy, fun j b hb hc => ?_⟩⟩
      · rw [hcopies, List.length_map, List.map_cons, List.map_append, List.map_cons, ← List.cons_append, hlast]
      · rcases List.mem_cons.mp (hmem.mpr hb) with h | hjb
        · exact absurd hc (by rwa [← congrArg Prod.snd h] at hx)
        rcases List.mem_append.mp hjb with hjb | hjb
        · exact absurd hc (hdone _ hjb)
        rcases List.mem_cons.mp hjb with h | hjb
        · exact le_of_eq (congrArg Prod.fst h).symm
        · exact le_of_lt ((List.pairwise_cons.mp (List.pairwise_append.mp hsorted).2.1).1 _
            (List.mem_map_of_mem hjb))

theorem getElem?_leafSlots {mi : MergerInfo} {keys : List Int} {k : Int} {s : Slot}
    (h : (leafSlots mi keys)[k]? = some s) : k ∈ keys ∧ s = leafSlot mi k := by
  rw [leafSlots, TreeMaps.getElem?_tabulate] at h
  split at h
  · cases h; exact ⟨‹_›, rfl⟩
  · cases h

theorem mem_leafSlots {mi : MergerInfo} {keys : List Int} {k : Int} : k ∈ leafSlots mi keys ↔ k ∈ keys :=
  TreeMaps.mem_tabulate

theorem trySlots_cases {mi : MergerInfo} {ci : ConflictItem} {slots : SlotMap} {r : Except Empty SlotMap}
    (h : trySlots mi ci slots = some r) :
    ∃ a b, slots[ci.major]? = some a ∧ slots[ci.minor]? = some b ∧
      r = .ok (((slots.erase ci.major).erase ci.minor).insertIfNew ci.parent (Slot.lift slots.size mi ci a b)) := by
  unfold trySlots at h
  split at h
  · cases h; exact ⟨_, _, ‹_›, ‹_›, rfl⟩
  · cases h

/-- The rule for a replay `o` of a conflict item that knows the ids only. -/
theorem trySlots_rel {mi : MergerInfo} {ci : ConflictItem} {slots : SlotMap} {τ : Type*}
    {R : SlotMap → τ → Prop} {held : Finset Int} {o : Option (Except Empty τ)}
    (hmem : ∀ k, k ∈ slots ↔ k ∈ held) (hnone : ¬ (ci.major ∈ held ∧ ci.minor ∈ held) → o = none)
    (hsome : ∀ a b, slots[ci.major]? = some a → slots[ci.minor]? = some b →
      ci.major ∈ held ∧ ci.minor ∈ held → ∃ t, o = some (.ok t) ∧
        R (((slots.erase ci.major).erase ci.minor).insertIfNew ci.parent (Slot.lift slots.size mi ci a b)) t) :
    Option.Rel (Rounds.Agree R fun _ _ => False) (trySlots mi ci slots) o := by
  have hmaj := hmem ci.major
  have hmin := hmem ci.minor
  rw [TreeMap.mem_iff_isSome_getElem?] at hmaj hmin
  unfold trySlots
  cases ha : slots[ci.major]? with
  | none =>
    rw [hnone fun h => by simpa [ha] using hmaj.mpr h.1]
    exact .none
  | some a =>
    cases hb : slots[ci.minor]? with
    | none =>
      rw [hnone fun h => by simpa [hb] using hmin.mpr h.2]
      exact .none
    | some b =>
      obtain ⟨t, rfl, ht⟩ := hsome a b ha hb ⟨hmaj.mp (by rw [ha]; rfl), hmin.mp (by rw [hb]; rfl)⟩
      exact .some (.ok ht)

theorem stableSlots_eq_some {mi : MergerInfo} {keys : List Int} {slots : SlotMap} {sweeps : Nat} :
    stableSlots sweeps mi keys = some slots ↔
      Rounds.run (trySlots mi) mi.conflictsList sweeps (leafSlots mi keys) = some (.ok slots) := by
  unfold stableSlots
  split
  · rename_i heq
    rw [heq]
    simp
  · rename_i hne
    exact iff_of_false (by simp) (hne slots)

theorem stableSlots_rel {mi : MergerInfo} {slots : SlotMap} {sweeps : Nat} {τ : Type*} {R : SlotMap → τ → Prop}
    {fire : ConflictItem → τ → Option (Except Empty τ)} {t : τ}
    (hf : ∀ ci ∈ mi.conflictsList, ∀ slots t, R slots t →
      Option.Rel (Rounds.Agree R fun _ _ => False) (trySlots mi ci slots) (fire ci t))
    (h0 : R (leafSlots mi) t) (h : stableSlots sweeps mi = some slots) :
    ∃ t', Rounds.run fire mi.conflictsList sweeps t = some (.ok t') ∧ R slots t' :=
  Rounds.Agree.ok_left (Rounds.run_rel hf sweeps h0) (stableSlots_eq_some.mp h)

theorem stableSlots_exists {mi : MergerInfo} (hitems : ∀ ci ∈ mi.conflictsList, ci.major ≠ ci.minor)
    {keys : List Int} (hne : keys ≠ []) :
    ∃ slots, ∀ sweeps, keys.length ≤ sweeps → stableSlots sweeps mi keys = some slots := by
  obtain ⟨k, hk⟩ := List.exists_mem_of_ne_nil _ hne
  have h0 : 0 < (leafSlots mi keys).size := TreeMaps.size_pos_iff.mpr ⟨k, mem_leafSlots.mpr hk⟩
  have hle : (leafSlots mi keys).size ≤ keys.length := TreeMaps.size_le_length fun k => mem_leafSlots.mp
  obtain ⟨r, hr⟩ := Rounds.run_terminates (P := fun t : SlotMap => 0 < t.size) (v := fun t => t.size - 1)
    (fun ci hci t t' ht hf => by
      obtain ⟨a, b, ha, hb, he⟩ := trySlots_cases hf
      cases he
      have hlt := TreeMaps.size_merge_lt (c := ci.parent) (hitems ci hci)
        (TreeMaps.mem_of_getElem? ha) (TreeMaps.mem_of_getElem? hb) (Slot.lift t.size mi ci a b)
      have hpos : 0 < (((t.erase ci.major).erase ci.minor).insertIfNew ci.parent (Slot.lift t.size mi ci a b)).size :=
        TreeMaps.size_pos_iff.mpr ⟨ci.parent, by simp [TreeMap.mem_insertIfNew]⟩
      exact ⟨hpos, by omega⟩) h0 (by omega : (leafSlots mi keys).size - 1 < keys.length)
  cases r with
  | error e => cases e
  | ok slots => exact ⟨slots, fun sweeps hs => stableSlots_eq_some.mpr (Rounds.run_mono hr hs)⟩

theorem stableSlots_of_rank {mi : MergerInfo} (rank : Int → Nat)
    (hitems : ∀ ci ∈ mi.conflictsList, rank ci.parent < rank ci.major) :
    ∃ enough slots, ∀ sweeps, enough ≤ sweeps → stableSlots sweeps mi = some slots := by
  have hfire : ∀ ci ∈ mi.conflictsList, ∀ t t' : SlotMap, True → trySlots mi ci t = some (.ok t') →
      True ∧ ∑ k ∈ t'.keys.toFinset, rank k < ∑ k ∈ t.keys.toFinset, rank k := by
    intro ci hci t t' _ hf
    obtain ⟨a, b, ha, -, he⟩ := trySlots_cases hf
    cases he
    have hmajor : ci.major ∈ t := TreeMaps.mem_of_getElem? ha
    exact ⟨trivial, TreeMaps.sum_merge_lt hmajor (hitems ci hci) (Slot.lift t.size mi ci a b)⟩
  obtain ⟨r, hr⟩ := Rounds.run_terminates hfire trivial (Nat.lt_succ_self _)
  cases r with
  | error e => cases e
  | ok slots => exact ⟨_, slots, fun sweeps hs => stableSlots_eq_some.mpr (Rounds.run_mono hr hs)⟩

/-! ### The refinement -/

/-- The data after it has been read and written again, each time with so many packets left. -/
def reread (memory : Memory) (copies : List Nat) (data : List UInt8) : List UInt8 :=
  copies.foldl (fun data left => (data ++ memory left).takeWhile (· ≠ 0)) data

/-- A NUL follows the buffer whenever the payload is copied. -/
def CleanCopies (memory : Memory) (copies : List Nat) : Prop := ∀ left ∈ copies, Packet.stray (memory left) = []

theorem reread_append (memory : Memory) (copies : List Nat) (left : Nat) (data : List UInt8) :
    reread memory (copies ++ [left]) data = (reread memory copies data ++ memory left).takeWhile (· ≠ 0) := by
  rw [reread, List.foldl_append]
  rfl

theorem reread_of_free {memory : Memory} {data : List UInt8} (h : 0 ∉ data) (copies : List Nat) :
    reread memory copies data = data ++ copies.flatMap fun left => Packet.stray (memory left) := by
  have hstray : ∀ copies : List Nat, 0 ∉ data ++ copies.flatMap fun left => Packet.stray (memory left) := by
    intro copies hmem
    rcases List.mem_append.mp hmem with hmem | hmem
    · exact h hmem
    · obtain ⟨left, -, hleft⟩ := List.mem_flatMap.mp hmem
      exact Packet.zero_notMem_takeWhile _ hleft
  induction copies using List.reverseRecOn with
  | nil => exact (List.append_nil _).symm
  | append_singleton copies left ih =>
    have hpos : ∀ b ∈ data ++ copies.flatMap fun left => Packet.stray (memory left), (b ≠ 0 : Bool) = true :=
      fun b hb => by simpa using fun h0 : b = 0 => hstray copies (h0 ▸ hb)
    rw [reread_append, ih, List.takeWhile_append_of_pos hpos, List.flatMap_append, List.flatMap_singleton,
      List.append_assoc]
    rfl

theorem payload_reread_of_clean {memory : Memory} {copies : List Nat} (h : CleanCopies memory copies)
    (data : List UInt8) : (reread memory copies data).takeWhile (· ≠ 0) = data.takeWhile (· ≠ 0) := by
  induction copies using List.reverseRecOn with
  | nil => rfl
  | append_singleton copies left ih =>
    rw [reread_append, List.takeWhile_idem, Packet.takeWhile_append_of_stray (h left (by simp))]
    exact ih fun l hl => h l (List.mem_append_left _ hl)

/-- `p` has its fields from the leaf packets that `s` names; the headers come from the base packet,
which is the one of the source address. -/
structure Rep (memory : Memory) (m : TreeMap Int Packet) (p : Packet) (s : Slot) : Prop where
  isNull : p.isNull = false
  header : ∀ F, F ≠ .PAYLOAD → ∃ q : Packet, m[s.src F]? = some q ∧ p.value F = q.value F
  data : ∃ q : Packet, m[s.src .PAYLOAD]? = some q ∧ p.data = reread memory (s.copies .PAYLOAD) q.data
  base : ∃ q : Packet, m[s.src .SIP]? = some q ∧ p.ipId = q.ipId

section
variable {memory : Memory} {m : TreeMap Int Packet} {p : Packet} {s : Slot}

/-- Every field is that of its leaf, the payload if a NUL followed wherever it was copied. -/
theorem Rep.value (h : Rep memory m p s) {F : Field} (hF : F = .PAYLOAD → CleanCopies memory (s.copies F)) :
    ∃ q : Packet, m[s.src F]? = some q ∧ p.value F = q.value F := by
  by_cases hp : F = .PAYLOAD
  · subst hp
    obtain ⟨q, hq, hdata⟩ := h.data
    refine ⟨q, hq, congrArg Value.payload ?_⟩
    rw [Packet.payload, hdata, payload_reread_of_clean (hF rfl)]
    rfl
  · exact h.header F hp

theorem Rep.exists_src (h : Rep memory m p s) (F : Field) : ∃ q : Packet, m[s.src F]? = some q := by
  by_cases hp : F = .PAYLOAD
  · subst hp
    exact h.data.imp fun _ hq => hq.1
  · exact (h.header F hp).imp fun _ hq => hq.1

theorem Rep.payload_of_free (h : Rep memory m p s) {q : Packet} (hq : m[s.src .PAYLOAD]? = some q)
    (hfree : 0 ∉ q.data) :
    p.payload = q.payload ++ (s.copies .PAYLOAD).flatMap fun left => Packet.stray (memory left) := by
  obtain ⟨q', hq', hdata⟩ := h.data
  obtain rfl := Option.some.inj (hq.symm.trans hq')
  have hp : 0 ∉ p.data := by
    rw [hdata, reread_of_free hfree]
    intro hmem
    rcases List.mem_append.mp hmem with hmem | hmem
    · exact hfree hmem
    · obtain ⟨left, -, hleft⟩ := List.mem_flatMap.mp hmem
      exact Packet.zero_notMem_takeWhile _ hleft
  rw [Packet.payload_of_free hp, Packet.payload_of_free hfree, hdata, reread_of_free hfree]

theorem Rep.clean_of_value (h : Rep memory m p s) {F : Field} {q : Packet} (hq : m[s.src F]? = some q)
    (hfree : 0 ∉ q.data) (hv : p.value F = q.value F) (hF : F = .PAYLOAD) : CleanCopies memory (s.copies F) := by
  subst hF
  have hpayload : p.payload = q.payload := Value.payload.inj hv
  rw [h.payload_of_free hq hfree, List.append_right_eq_self, List.flatMap_eq_nil_iff] at hpayload
  exact hpayload

end

def InfoRep (memory : Memory) (m : TreeMap Int Packet) (pi : PacketInfo) (s : Slot) : Prop :=
  Rep memory m pi.pkt s ∧ pi.writtenFields = s.fields

def MapRep (memory : Memory) (m : TreeMap Int Packet) (infos : PktInfoMap) (slots : SlotMap) : Prop :=
  ∀ k : Int, Option.Rel (InfoRep memory m) infos[k]? slots[k]?

section
variable {memory : Memory} {mi : MergerInfo} {m : TreeMap Int Packet} {infos : PktInfoMap} {slots : SlotMap}
  {keys : List Int}

theorem InfoRep.resolve {a b : PacketInfo} {s t : Slot} (left : Nat) (c : Option ConflictItem)
    (ha : InfoRep memory m a s) (hb : InfoRep memory m b t) :
    InfoRep memory m (resolvePacketConflict (memory left) a b c) (s.resolve left t) := by
  obtain ⟨ha, hfa⟩ := ha
  obtain ⟨hb, hfb⟩ := hb
  refine ⟨⟨by simp [isNull_resolve, ha.isNull, hb.isNull], fun F hF => ?_, ?_, ?_⟩, ?_⟩
  · rw [value_resolve ha.isNull hb.isNull, hfa, hfb, Packet.read_of_ne hF]
    dsimp only [Slot.resolve]
    split
    · exact hb.header F hF
    · exact ha.header F hF
  · have hcarried : Field.PAYLOAD ∈ Field.carried := by decide
    rw [data_resolve ha.isNull hb.isNull, hfa, hfb]
    simp only [Slot.resolve, hcarried, and_true]
    split
    · obtain ⟨q, hq, hdata⟩ := hb.data
      exact ⟨q, hq, by rw [reread_append, ← hdata, Packet.getPayload]⟩
    · exact ha.data
  · obtain ⟨q, hq, hid⟩ := ha.base
    have hsip : (s.resolve left t).src .SIP = s.src .SIP := if_neg fun h => absurd h.2.2 (by decide)
    exact ⟨q, by rw [hsip, hq], (header_resolve ha.isNull hb.isNull).2.2.trans hid⟩
  · rw [writtenFields_resolve ha.isNull hb.isNull, hfa, hfb]
    rfl

theorem InfoRep.lift {a b : PacketInfo} {s t : Slot} (left : Nat) (ci : ConflictItem) (ha : InfoRep memory m a s)
    (hb : InfoRep memory m b t) :
    InfoRep memory m (addNodeWrites mi (resolvePacketConflict (memory left) a b (some ci)))
      (Slot.lift left mi ci s t) := by
  obtain ⟨h, hf⟩ := InfoRep.resolve left (some ci) ha hb
  exact ⟨⟨h.isNull, h.header, h.data, h.base⟩, by simp only [addNodeWrites, nodeId_resolve, hf, Slot.lift]⟩

theorem MapRep.size_eq (h : MapRep memory m infos slots) : infos.size = slots.size := TreeMaps.size_congr fun k => by
  have hk := h k
  generalize infos[k]? = x, slots[k]? = y at hk
  cases hk <;> rfl

theorem MapRep.merge {ci : ConflictItem} {a b : PacketInfo} {s t : Slot} (h : MapRep memory m infos slots)
    (ha : InfoRep memory m a s) (hb : InfoRep memory m b t) :
    MapRep memory m (mergedMap memory mi ci infos a b)
      (((slots.erase ci.major).erase ci.minor).insertIfNew ci.parent (Slot.lift slots.size mi ci s t)) := by
  intro k
  rw [mergedMap, TreeMaps.getElem?_merge, TreeMaps.getElem?_merge, h.size_eq]
  have hk := h k
  by_cases hmem : k = ci.major ∨ k = ci.minor
  · rw [if_pos hmem, if_pos hmem, Option.none_or, Option.none_or]
    split
    · exact .some (ha.lift _ ci hb)
    · exact .none
  · rw [if_neg hmem, if_neg hmem]
    generalize infos[k]? = x, slots[k]? = y at hk
    cases hk with
    | some h => exact .some h
    | none =>
      rw [Option.none_or, Option.none_or]
      split
      · exact .some (ha.lift _ ci hb)
      · exact .none

/-- The two loop bodies go in step; no packet is null, so neither returns early. -/
theorem tryConflict_trySlots (ci : ConflictItem) (h : MapRep memory m infos slots) :
    Option.Rel (Rounds.Agree (MapRep memory m) fun _ _ => False) (tryConflict memory mi ci infos)
      (trySlots mi ci slots) := by
  have hmaj := h ci.major
  have hmin := h ci.minor
  unfold tryConflict trySlots
  generalize ha : infos[ci.major]? = oa, hb : infos[ci.minor]? = ob, slots[ci.major]? = os,
    slots[ci.minor]? = ot at hmaj hmin
  cases hmaj with
  | none => exact .none
  | @some a s has =>
    cases hmin with
    | none => exact .none
    | @some b t hbt =>
      have hnull : (resolvePacketConflict (memory infos.size) a b (some ci)).pkt.isNull = false :=
        (has.resolve _ (some ci) hbt).1.isNull
      simp only [hnull, Bool.false_eq_true, if_false]
      exact .some (.ok (h.merge has hbt))

theorem mergeAll_rep {l : List PacketInfo} {l' : List Slot} (h : List.Forall₂ (InfoRep memory m) l l')
    {a : PacketInfo} {s : Slot} (ha : InfoRep memory m a s) :
    InfoRep memory m (mergeAll memory a l) (s.mergeAll l') := by
  induction h generalizing a s with
  | nil => exact ha
  | cons hbt hl ih =>
    rw [mergeAll, Slot.mergeAll, hl.length_eq]
    exact ih (ha.resolve _ none hbt)

theorem mergeRest_restSlots {l : List PacketInfo} {l' : List Slot} (h : List.Forall₂ (InfoRep memory m) l l')
    (hl : l ≠ []) : ∃ r s, mergeRest memory l = .ok r ∧ restSlots l' = some s ∧ Rep memory m r s := by
  cases h with
  | nil => exact absurd rfl hl
  | cons ha h => exact ⟨_, _, rfl, rfl, (mergeAll_rep h ha).1⟩

structure PacketsOf (keys : List Int) (m : TreeMap Int Packet) : Prop where
  mem_iff : ∀ k, k ∈ m ↔ k ∈ keys
  isNull : ∀ (k : Int) p, m[k]? = some p → p.isNull = false

abbrev CompleteMap (mi : MergerInfo) (m : TreeMap Int Packet) : Prop := PacketsOf mi.leaves m

theorem packetsOf_tabulate {f : Int → Packet} (hf : ∀ k, (f k).isNull = false) :
    PacketsOf keys (TreeMaps.tabulate f keys) where
  mem_iff k := TreeMaps.mem_tabulate
  isNull k p hp := by
    rw [TreeMaps.getElem?_tabulate] at hp
    split at hp
    · cases hp; exact hf k
    · cases hp

theorem mapRep_init (hm : PacketsOf keys m) (hinfos : ∀ k : Int, infos[k]? = m[k]?.map (leafInfo mi k)) :
    MapRep memory m infos (leafSlots mi keys) := by
  intro k
  have hk := hm.mem_iff k
  rw [hinfos, leafSlots, TreeMaps.getElem?_tabulate]
  rw [TreeMap.mem_iff_isSome_getElem?] at hk
  cases hp : m[k]? with
  | none =>
    rw [hp] at hk
    rw [if_neg (by simpa using hk)]
    exact .none
  | some p =>
    rw [hp] at hk
    rw [if_pos (hk.mp rfl)]
    exact .some ⟨⟨hm.isNull k p hp, fun _ _ => ⟨p, hp, rfl⟩, ⟨p, hp, rfl⟩, p, hp, rfl⟩, rfl⟩

theorem stableSlots_size_pos (hne : keys ≠ []) {sweeps : Nat} (h : stableSlots sweeps mi keys = some slots) :
    0 < slots.size := by
  obtain ⟨k, hk⟩ := List.exists_mem_of_ne_nil _ hne
  have h0 : 0 < (leafSlots mi keys).size := TreeMaps.size_pos_iff.mpr ⟨k, mem_leafSlots.mpr hk⟩
  refine Rounds.run_induction (P := fun t : SlotMap => 0 < t.size) (Q := fun _ => True)
    (fun ci _ t r _ hf => ?_)
    h0 (stableSlots_eq_some.mp h)
  obtain ⟨a, b, -, -, rfl⟩ := trySlots_cases hf
  exact TreeMaps.size_pos_iff.mpr ⟨ci.parent, by simp [TreeMap.mem_insertIfNew]⟩

/-- The merge refines the merge of the slots, if its loop ends. -/
theorem mergePacket_stable (hnodes : ∀ k ∈ keys, k ∈ mi.nodeMap) (hne : keys ≠ [])
    (hm : PacketsOf keys m) {sweeps : Nat} (hst : stableSlots sweeps mi keys = some slots) :
    ∃ r s, mergePacket sweeps memory mi m = .ok r ∧ slotMerge sweeps mi keys = some s ∧ Rep memory m r s := by
  obtain ⟨infos, hi, hget⟩ := packetMapToPacketInfoMap_ok fun k hk => hnodes k ((hm.mem_iff k).mp hk)
  have hpos := stableSlots_size_pos hne hst
  have hrel := Rounds.run_rel (l := mi.conflictsList)
    (fun ci _ infos slots h => @tryConflict_trySlots memory mi m infos slots ci h) sweeps
    (mapRep_init hm hget)
  obtain ⟨infos', hr, hrep⟩ := Rounds.Agree.ok_right hrel (stableSlots_eq_some.mp hst)
  have hlist : infos'.toList.map (·.2) ≠ [] := by
    rw [← hrep.size_eq, ← TreeMap.length_toList] at hpos
    exact List.ne_nil_of_length_pos (by simpa using hpos)
  obtain ⟨r, s, hr', hs', h⟩ := mergeRest_restSlots (TreeMaps.forall₂_toList hrep) hlist
  refine ⟨r, s, ?_, ?_, h⟩
  · simp only [mergePacket, hi, hr, bind, Except.bind, hr']
  · simp only [slotMerge, hst, bind, Option.bind, hs']

theorem mergePacket_slots (hitems : ∀ ci ∈ mi.conflictsList, ci.major ≠ ci.minor)
    (hnodes : ∀ k ∈ keys, k ∈ mi.nodeMap) (hne : keys ≠ []) (hm : PacketsOf keys m) {sweeps : Nat}
    (hs : keys.length ≤ sweeps) :
    ∃ r s, mergePacket sweeps memory mi m = .ok r ∧ slotMerge sweeps mi keys = some s ∧ Rep memory m r s := by
  obtain ⟨slots, hslots⟩ := stableSlots_exists hitems hne
  exact mergePacket_stable hnodes hne hm (hslots sweeps hs)

end

end DeepNF
