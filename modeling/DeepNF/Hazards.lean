import DeepNF.ActionTable
import DeepNF.TreeMaps

/-!
# Which pairs `isParallelizable` accepts

A function may not run in parallel to one that reads what it writes. `isParallelizable` turns `R/W` into a
write and forgets the read, so it refuses a write that the other function only reads and accepts one that it
reads and writes (`isParallelizable_accepts_iff`). `isParallelizable_hazardFree_iff`: that is all that it gets
wrong; the conflicts it reports are the right ones.
-/

namespace DeepNF
open Std (TreeMap)

/-- A row of the table: the fields are marked `null`, `R`, `W` or `R/W`, the two flags `null` or `T`. -/
structure Row.WellFormed (row : Row) : Prop where
  keys : ∀ loc ∈ row, (∃ F : Field, loc = F.location) ∨ loc = "Add/Rm" ∨ loc = "Drop"
  fields : ∀ (F : Field) val, row[F.location]? = some val → val ∈ ["null", "R", "W", "R/W"]
  flags : ∀ loc val, loc = "Add/Rm" ∨ loc = "Drop" → row[loc]? = some val → val ∈ ["null", "T"]

def Row.resizes (row : Row) : Prop := row["Drop"]? = some "T" ∨ row["Add/Rm"]? = some "T"

/-- `nf1` can run in parallel to `nf2`: it takes no packet away and writes nothing that `nf2` reads. -/
def HazardFree (row1 row2 : Row) : Prop := ¬ row1.resizes ∧ ∀ F, row1.writes F → ¬ row2.reads F

def ConflictFields (row1 row2 : Row) (conflictingActions : List Field) : Prop :=
  conflictingActions.Nodup ∧
    ∀ F, F ∈ conflictingActions ↔ row2.writes F ∧ (row1.reads F ∨ row1.writes F)

/-! ### Rows of the table -/

section Rows
variable {actionTable : ActionTable} {nf1 nf2 : String} {row1 row2 : Row}

theorem stringToField_location (F : Field) : stringToField F.location = F := by cases F <;> decide

variable (hw1 : row1.WellFormed) (hw2 : row2.WellFormed) (hkeys : ∀ loc, loc ∈ row1 ↔ loc ∈ row2)

include hkeys in
theorem marked {loc val : String} (h : row1[loc]? = some val) : row2[loc]? = some (row2.getD loc "") := by
  have hmem : loc ∈ row2 := (hkeys loc).mp (TreeMap.mem_iff_isSome_getElem?.mpr (by rw [h]; rfl))
  rw [TreeMap.mem_iff_isSome_getElem?, Option.isSome_iff_exists] at hmem
  obtain ⟨val2, h2⟩ := hmem
  rw [TreeMap.getD_eq_getD_getElem?, h2, Option.getD_some]

include hw1 in
theorem Row.WellFormed.cases (hno : ¬ row1.resizes) {loc val : String} (h : row1[loc]? = some val) :
    (∃ F : Field, loc = F.location ∧ val ∈ ["null", "R", "W", "R/W"]) ∨ val = "null" := by
  rcases hw1.keys loc (TreeMap.mem_iff_isSome_getElem?.mpr (by rw [h]; rfl)) with ⟨F, rfl⟩ | hflag
  · exact .inl ⟨F, rfl, hw1.fields F val h⟩
  · right
    rcases List.mem_pair.mp (hw1.flags loc val hflag h) with rfl | rfl
    · rfl
    · rcases hflag with rfl | rfl
      exacts [absurd (.inr h) hno, absurd (.inl h) hno]

include hw1 hkeys in
theorem stops_iff : (∀ x ∈ row1.toList, ¬ Stops row2 x) ↔
    ¬ row1.resizes ∧ ∀ F : Field, row1.writes F → row2[F.location]? ≠ some "R" := by
  simp only [Prod.forall, TreeMap.mem_toList_iff_getElem?_eq_some]
  constructor
  · intro hall
    refine ⟨?_, fun F hF h2 => ?_⟩
    · rintro (hd | ha)
      exacts [hall _ _ hd (.inl ⟨.inl rfl, rfl⟩), hall _ _ ha (.inl ⟨.inr rfl, rfl⟩)]
    · have hgetD : row2.getD F.location "" = "R" := by rw [TreeMap.getD_eq_getD_getElem?, h2]; rfl
      have hmark : ∀ val, val = "W" ∨ val = "R/W" → val ≠ "null" ∧ val ≠ "R" := by
        rintro val (rfl | rfl) <;> decide
      rcases hF with h1 | h1
      · exact hall _ _ h1 (.inr ⟨(hmark _ (.inl rfl)).1, (hmark _ (.inl rfl)).2, hgetD⟩)
      · exact hall _ _ h1 (.inr ⟨(hmark _ (.inr rfl)).1, (hmark _ (.inr rfl)).2, hgetD⟩)
  · rintro ⟨hno, hall⟩ loc val h (⟨hflag, rfl⟩ | ⟨hnull, hR, h2⟩)
    · rcases hflag with rfl | rfl
      exacts [hno (.inl h), hno (.inr h)]
    · rcases hw1.cases hno h with ⟨F, rfl, hval⟩ | rfl
      · have hmark := marked hkeys h
        rw [h2] at hmark
        refine hall F ?_ hmark
        simp only [List.mem_cons, List.not_mem_nil, or_false] at hval
        rcases hval with rfl | rfl | rfl | rfl
        exacts [absurd rfl hnull, absurd rfl hR, .inl h, .inr h]
      · exact absurd rfl hnull

include hw1 hw2 hkeys in
theorem conflictFields_pushes (hno : ¬ row1.resizes) :
    ConflictFields row1 row2 ((row1.toList.filter (Pushes row2 ·)).map (stringToField ·.1)) := by
  have hfield : ∀ x ∈ row1.toList.filter (Pushes row2 ·), ∃ F : Field, x.1 = F.location ∧
      row1[F.location]? = some x.2 ∧ (row1.reads F ∨ row1.writes F) ∧ row2.writes F := by
    rintro ⟨loc, val⟩ hx
    obtain ⟨hx, hp⟩ := List.mem_filter.mp hx
    obtain ⟨hnull, hnull2, hR⟩ : Pushes row2 (loc, val) := of_decide_eq_true hp
    have h := TreeMap.mem_toList_iff_getElem?_eq_some.mp hx
    rcases hw1.cases hno h with ⟨F, rfl, hval⟩ | rfl
    · have hmark := marked hkeys h
      have hval2 := hw2.fields F _ hmark
      simp only [List.mem_cons, List.not_mem_nil, or_false] at hval hval2
      refine ⟨F, rfl, h, ?_, ?_⟩
      · rcases hval with rfl | rfl | rfl | rfl
        exacts [absurd rfl hnull, .inl (.inl h), .inr (.inl h), .inl (.inr h)]
      · rcases hval2 with hv | hv | hv | hv
        exacts [absurd hv hnull2, absurd hv hR, .inl (hv ▸ hmark), .inr (hv ▸ hmark)]
    · exact absurd rfl hnull
  refine ⟨?_, fun F => ?_⟩
  · -- two entries with one field have one key
    have hnd : row1.toList.Nodup := .of_map _ (TreeMaps.nodup_map_fst_toList row1)
    refine (hnd.filter _).map_on fun x hx y hy he => ?_
    obtain ⟨F, hFx, h1, -⟩ := hfield x hx
    obtain ⟨G, hGy, h2, -⟩ := hfield y hy
    rw [hFx, hGy, stringToField_location, stringToField_location] at he
    subst he
    exact Prod.ext (hFx.trans hGy.symm) (Option.some.inj (h1.symm.trans h2))
  · rw [List.mem_map]
    constructor
    · rintro ⟨x, hx, rfl⟩
      obtain ⟨G, hG, -, h1, h2⟩ := hfield x hx
      rw [hG, stringToField_location]
      exact ⟨h2, h1⟩
    · rintro ⟨h2, h1⟩
      obtain ⟨val, hval, hnull⟩ : ∃ val, row1[F.location]? = some val ∧ val ≠ "null" := by
        rcases h1 with (h | h) | (h | h) <;> exact ⟨_, h, by decide⟩
      have hpush : row2.getD F.location "" ≠ "null" ∧ row2.getD F.location "" ≠ "R" := by
        rw [TreeMap.getD_eq_getD_getElem?]
        rcases h2 with h | h <;> rw [h] <;> decide
      refine ⟨(F.location, val), List.mem_filter.mpr ⟨TreeMap.mem_toList_iff_getElem?_eq_some.mpr hval, ?_⟩,
        stringToField_location F⟩
      exact decide_eq_true ⟨hnull, hpush⟩

variable (h1 : actionTable[nf1]? = some row1) (h2 : actionTable[nf2]? = some row2)
include hw1 hw2 hkeys h1 h2

/-- What the code decides: a write is refused where the other function only reads. -/
theorem isParallelizable_accepts_iff : ∃ b conflictingActions,
    isParallelizable actionTable nf1 nf2 = .ok (b, conflictingActions) ∧
      (b = true ↔ ¬ row1.resizes ∧ ∀ F : Field, row1.writes F → row2[F.location]? ≠ some "R") ∧
      (b = true → ConflictFields row1 row2 conflictingActions) := by
  have hrun : compareRows row2 row1.toList [] = (_, _) := (Prod.eta _).symm
  obtain ⟨hb, hpush⟩ := compareRows_eq hrun
  rw [stops_iff hw1 hkeys] at hb
  refine ⟨(compareRows row2 row1.toList []).1, (compareRows row2 row1.toList []).2, ?_, hb, fun htrue => ?_⟩
  · simp only [isParallelizable, ActionTable.row, h1, h2]
    rfl
  · rw [hpush htrue, List.nil_append]
    exact conflictFields_pushes hw1 hw2 hkeys (hb.mp htrue).1

/-- The pair is classified as its hazards demand exactly if it is refused for another reason, or no field that
the first function writes is both read and written by the second. -/
theorem isParallelizable_hazardFree_iff : ∃ b conflictingActions,
    isParallelizable actionTable nf1 nf2 = .ok (b, conflictingActions) ∧
      ((b = true ↔ HazardFree row1 row2) ∧ (b = true → ConflictFields row1 row2 conflictingActions) ↔
        row1.resizes ∨ (∃ F : Field, row1.writes F ∧ row2[F.location]? = some "R") ∨
          ∀ F : Field, row1.writes F → row2[F.location]? ≠ some "R/W") := by
  obtain ⟨b, c, hpar, hb, hc⟩ := isParallelizable_accepts_iff hw1 hw2 hkeys h1 h2
  refine ⟨b, c, hpar, ?_⟩
  rw [and_iff_left hc, hb, HazardFree]
  constructor
  · intro hiff
    by_contra hno
    push Not at hno
    obtain ⟨hsize, hread, F, hF, hRW⟩ := hno
    exact (hiff.mp ⟨hsize, hread⟩).2 F hF (.inr hRW)
  · rintro (hsize | ⟨F, hF, hR⟩ | hRW)
    · exact iff_of_false (fun h => h.1 hsize) fun h => h.1 hsize
    · exact iff_of_false (fun h => h.2 F hF hR) fun h => h.2 F hF (.inl hR)
    · refine and_congr_right fun _ => forall_congr' fun F => imp_congr_right fun hF => ?_
      exact ⟨fun hR h => h.elim hR (hRW F hF), fun h hR => h (.inl hR)⟩

end Rows

/-! ### The table of the repository -/

section Table
variable {sip dip sport dport payload addRm drop : String}

theorem row_toList : (actionTableJson.row sip dip sport dport payload addRm drop).toList =
    [("Add/Rm", addRm), ("DIP", dip), ("DPORT", dport), ("Drop", drop), ("Payload", payload), ("SIP", sip),
      ("SPORT", sport)] := rfl

theorem mem_row {loc : String} : loc ∈ actionTableJson.row sip dip sport dport payload addRm drop ↔
    loc ∈ ["Add/Rm", "DIP", "DPORT", "Drop", "Payload", "SIP", "SPORT"] := by
  rw [← TreeMap.mem_keys, ← TreeMap.map_fst_toList_eq_keys, row_toList]
  rfl

theorem getElem?_row {loc val : String}
    (h : (actionTableJson.row sip dip sport dport payload addRm drop)[loc]? = some val) :
    (loc, val) ∈ [("Add/Rm", addRm), ("DIP", dip), ("DPORT", dport), ("Drop", drop), ("Payload", payload),
      ("SIP", sip), ("SPORT", sport)] :=
  TreeMap.mem_toList_iff_getElem?_eq_some.mpr h

theorem wellFormed_row (hfields : ∀ val ∈ [sip, dip, sport, dport, payload], val ∈ ["null", "R", "W", "R/W"])
    (hflags : ∀ val ∈ [addRm, drop], val ∈ ["null", "T"]) :
    (actionTableJson.row sip dip sport dport payload addRm drop).WellFormed where
  keys loc hloc := by
    rw [mem_row] at hloc
    have hall : ∀ loc ∈ ["Add/Rm", "DIP", "DPORT", "Drop", "Payload", "SIP", "SPORT"],
        (∃ F : Field, loc = F.location) ∨ loc = "Add/Rm" ∨ loc = "Drop" := by decide
    exact hall loc hloc
  fields F val h := by
    refine hfields val ?_
    have hmem := getElem?_row h
    cases F <;> simp [Field.location] at hmem <;> simp [hmem]
  flags loc val hloc h := by
    refine hflags val ?_
    have hmem := getElem?_row h
    rcases hloc with rfl | rfl <;> simp at hmem <;> simp [hmem]

end Table

def compressRow : Row := actionTableJson.row "R" "null" "R" "null" "R/W" "null" "null"

def ciscoIOSRow : Row := actionTableJson.row "null" "null" "null" "null" "R/W" "null" "null"

def netFlowRow : Row := actionTableJson.row "null" "R" "R" "R" "null" "null" "null"

theorem isParallelizable_hazardFree_netFlow : ∃ b conflictingActions,
    isParallelizable actionTableJson "NetFlow" "compressor" = .ok (b, conflictingActions) ∧
      (b = true ↔ HazardFree netFlowRow compressRow) := by
  have hnone : ∀ F : Field, ¬ netFlowRow.writes F := by decide
  have hw1 : netFlowRow.WellFormed := wellFormed_row (by decide) (by decide)
  have hw2 : compressRow.WellFormed := wellFormed_row (by decide) (by decide)
  obtain ⟨b, c, hpar, hiff⟩ := isParallelizable_hazardFree_iff hw1 hw2 (fun loc => mem_row.trans mem_row.symm)
    (rfl : actionTableJson["NetFlow"]? = some netFlowRow) (rfl : actionTableJson["compressor"]? = some compressRow)
  exact ⟨b, c, hpar, (hiff.mpr (.inr (.inr fun F hF => absurd hF (hnone F)))).1⟩

/-- The second compressor reads the payload that the first one writes. -/
theorem isParallelizable_hazard_compressors :
    compressRow.WellFormed ∧ ciscoIOSRow.WellFormed ∧ (∀ loc, loc ∈ compressRow ↔ loc ∈ ciscoIOSRow) ∧
      actionTableJson["compressor"]? = some compressRow ∧ actionTableJson["CiscoIOS"]? = some ciscoIOSRow ∧
      isParallelizable actionTableJson "compressor" "CiscoIOS" = .ok (true, [.PAYLOAD]) ∧
      compressRow.writes .PAYLOAD ∧ ciscoIOSRow.reads .PAYLOAD ∧ ¬ HazardFree compressRow ciscoIOSRow := by
  have hwrite : compressRow.writes .PAYLOAD := .inr rfl
  have hread : ciscoIOSRow.reads .PAYLOAD := .inr rfl
  exact ⟨wellFormed_row (by decide) (by decide), wellFormed_row (by decide) (by decide),
    fun loc => mem_row.trans mem_row.symm, rfl, rfl, by decide, hwrite, hread,
    fun h => h.2 .PAYLOAD hwrite hread⟩

end DeepNF
