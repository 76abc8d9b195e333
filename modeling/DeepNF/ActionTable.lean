import DeepNF.Common
import Std.Data.TreeMap.Lemmas

/-!
# The action table and `isParallelizable` (`src/setup/Orchestrator.cpp`)

A row of the action table says for every packet location whether a network function reads it, writes
it or leaves it alone (`"null"`). `isParallelizable` compares two rows, in the order of the first
one's keys; what it pushes to `conflictingActions` before it returns is part of its result.
-/

namespace DeepNF
open Std (TreeMap)

/-- How the construction of a service graph ends without one. -/
inductive SetupError
  | noRow (nf : String)
  | nullNode
  | endless
deriving DecidableEq, Repr

inductive Action
  | READ | WRITE
deriving DecidableEq, Repr

def stringToAction (action : String) : Action := if action = "R" then .READ else .WRITE

def stringToField (field : String) : Field :=
  if field = "SIP" then .SIP
  else if field = "DIP" then .DIP
  else if field = "SPORT" then .SPORT
  else if field = "DPORT" then .DPORT
  else .PAYLOAD

/-- A row of the table: what a network function does to each packet location. -/
abbrev Row := TreeMap String String

abbrev ActionTable := TreeMap String Row

/-- The table in `inputs/action_table.json`. -/
def actionTableJson : ActionTable := .ofList [
    ("iptables", row "R" "R" "R" "R" "null" "null" "T"),
    ("NIDScluster", row "R" "R" "R" "R" "R" "null" "null"),
    ("snort", row "R" "R" "R" "R" "R" "null" "T"),
    ("CiscoMGX", row "R" "R" "null" "null" "null" "null" "null"),
    ("haproxy", row "R/W" "R/W" "R" "R" "null" "null" "null"),
    ("A10", row "R/W" "R/W" "R" "R" "null" "null" "null"),
    ("Nginx", row "R" "null" "R" "null" "R" "null" "null"),
    ("openvpn", row "R" "R" "null" "null" "R/W" "T" "null"),
    ("Squid", row "R/W" "R/W" "null" "null" "null" "null" "null"),
    ("CiscoIOS", row "null" "null" "null" "null" "R/W" "null" "null"),
    ("Linuxtc", row "null" "null" "null" "null" "null" "null" "null"),
    ("NetFlow", row "null" "R" "R" "R" "null" "null" "null"),
    ("dnf_firewall", row "R" "null" "R" "null" "null" "null" "null"),
    ("dnf_loadbalancer", row "R" "R" "R" "R" "null" "null" "T"),
    ("proxy", row "R" "R/W" "R" "R/W" "null" "null" "null"),
    ("compressor", row "R" "null" "R" "null" "R/W" "null" "null")]
where
  row (sip dip sport dport payload addRm drop : String) : Row := .ofList [("SIP", sip), ("DIP", dip),
    ("SPORT", sport), ("DPORT", dport), ("Payload", payload), ("Add/Rm", addRm), ("Drop", drop)]

/-- `actionTable[nf]`, converted to a `std::map`; the conversion throws for a function without row. -/
def ActionTable.row (actionTable : ActionTable) (nf : String) : Except SetupError Row :=
  match actionTable[nf]? with
  | some row => .ok row
  | none => .error (.noRow nf)

/-- The loop of `isParallelizable` over the locations of `nf1`. -/
def compareRows (nf2 : Row) : List (String × String) → List Field → Bool × List Field
  | [], conflictingActions => (true, conflictingActions)
  | (packetLocation, val) :: rest, conflictingActions =>
    let val2 := nf2.getD packetLocation ""
    if (packetLocation = "Drop" ∨ packetLocation = "Add/Rm") ∧ val = "T" then (false, conflictingActions)
    else if val ≠ "null" ∧ val2 ≠ "null" then
      let a1 := stringToAction val
      let a2 := stringToAction val2
      if (a1 = .READ ∨ a1 = .WRITE) ∧ a2 = .WRITE then
        compareRows nf2 rest (conflictingActions ++ [stringToField packetLocation])
      -- here `nf2` only reads what `nf1` writes
      else if a1 = .WRITE then (false, conflictingActions)
      else compareRows nf2 rest conflictingActions
    else compareRows nf2 rest conflictingActions

def isParallelizable (actionTable : ActionTable) (nf1 nf2 : String) :
    Except SetupError (Bool × List Field) := do
  let row1 ← actionTable.row nf1
  let row2 ← actionTable.row nf2
  return compareRows row2 row1.toList []

/-! ### What a row says -/

/-- The key of a field in the rows of the table. -/
def Field.location : Field → String
  | .SIP => "SIP"
  | .DIP => "DIP"
  | .SPORT => "SPORT"
  | .DPORT => "DPORT"
  | .PAYLOAD => "Payload"

namespace Row

def reads (row : Row) (F : Field) : Prop :=
  row[F.location]? = some "R" ∨ row[F.location]? = some "R/W"

def writes (row : Row) (F : Field) : Prop :=
  row[F.location]? = some "W" ∨ row[F.location]? = some "R/W"

instance (row : Row) : DecidablePred row.writes := fun F =>
  inferInstanceAs (Decidable (row[F.location]? = some "W" ∨ row[F.location]? = some "R/W"))

def drops (row : Row) : Prop := row["Drop"]? = some "T"

def writtenFields (row : Row) : Finset Field := Finset.univ.filter row.writes

@[simp] theorem mem_writtenFields {row : Row} {F : Field} : F ∈ row.writtenFields ↔ row.writes F := by
  simp [writtenFields]

end Row

/-! ### The loop -/

theorem stringToAction_eq_READ {s : String} : stringToAction s = .READ ↔ s = "R" := by
  unfold stringToAction; split <;> simp [*]

def Stops (nf2 : Row) (x : String × String) : Prop :=
  (x.1 = "Drop" ∨ x.1 = "Add/Rm") ∧ x.2 = "T" ∨
    x.2 ≠ "null" ∧ x.2 ≠ "R" ∧ nf2.getD x.1 "" = "R"

def Pushes (nf2 : Row) (x : String × String) : Prop :=
  x.2 ≠ "null" ∧ nf2.getD x.1 "" ≠ "null" ∧ nf2.getD x.1 "" ≠ "R"

instance (nf2 : Row) : DecidablePred (Pushes nf2) := fun x =>
  inferInstanceAs (Decidable (x.2 ≠ "null" ∧ nf2.getD x.1 "" ≠ "null" ∧ nf2.getD x.1 "" ≠ "R"))

theorem stringToAction_eq_WRITE {s : String} : stringToAction s = .WRITE ↔ s ≠ "R" := by
  unfold stringToAction; split <;> simp [*]

theorem compareRows_eq {nf2 : Row} {l : List (String × String)} {c c' : List Field} {b : Bool}
    (h : compareRows nf2 l c = (b, c')) :
    (b = true ↔ ∀ x ∈ l, ¬ Stops nf2 x) ∧
      (b = true → c' = c ++ (l.filter (Pushes nf2 ·)).map (stringToField ·.1)) := by
  induction l generalizing c with
  | nil => cases h; simp
  | cons x l ih =>
    obtain ⟨loc, val⟩ := x
    -- the loop returns at this entry
    have hstop : Stops nf2 (loc, val) → (b, c') = (false, c) →
        (b = true ↔ ∀ x ∈ (loc, val) :: l, ¬ Stops nf2 x) ∧
          (b = true → c' = c ++ (((loc, val) :: l).filter (Pushes nf2 ·)).map (stringToField ·.1)) := by
      intro hs he
      cases he
      exact ⟨iff_of_false Bool.false_ne_true fun h => h _ (List.mem_cons_self ..) hs,
        fun h => absurd h Bool.false_ne_true⟩
    -- the loop goes on, with the conflict of this entry if it is one
    have hgo : ∀ {d}, ¬ Stops nf2 (loc, val) → compareRows nf2 l (c ++ d) = (b, c') →
        d = (if Pushes nf2 (loc, val) then [stringToField loc] else []) →
        (b = true ↔ ∀ x ∈ (loc, val) :: l, ¬ Stops nf2 x) ∧
          (b = true → c' = c ++ (((loc, val) :: l).filter (Pushes nf2 ·)).map (stringToField ·.1)) := by
      intro d hs hc hd
      obtain ⟨hb, hpush⟩ := ih hc
      refine ⟨?_, fun hb => ?_⟩
      · rw [hb, List.forall_mem_cons, and_iff_right hs]
      · rw [hpush hb, hd, List.append_assoc, List.filter_cons]
        by_cases hp : Pushes nf2 (loc, val) <;> simp [hp]
    simp only [compareRows, stringToAction_eq_WRITE, stringToAction_eq_READ] at h
    split at h
    · rename_i hflag
      exact hstop (.inl hflag) h.symm
    rename_i hflag
    split at h
    · rename_i hnull
      split at h
      · rename_i hw
        refine hgo (fun hs => ?_) h (if_pos ⟨hnull.1, hnull.2, hw.2⟩).symm
        rcases hs with hs | hs
        exacts [hflag hs, hw.2 hs.2.2]
      rename_i hw
      have h2 : nf2.getD loc "" = "R" := by
        by_contra h2
        exact hw ⟨em _, h2⟩
      split at h
      · rename_i h1
        exact hstop (.inr ⟨hnull.1, h1, h2⟩) h.symm
      · rename_i h1
        rw [← List.append_nil c] at h
        refine hgo (fun hs => ?_) h (if_neg fun hp => hp.2.2 h2).symm
        rcases hs with hs | hs
        exacts [hflag hs, h1 hs.2.1]
    · rename_i hnull
      rw [← List.append_nil c] at h
      refine hgo (fun hs => ?_) h (if_neg fun hp => hnull ⟨hp.1, hp.2.1⟩).symm
      rcases hs with hs | ⟨hn, -, h2⟩
      · exact hflag hs
      · exact hnull ⟨hn, by rw [h2]; decide⟩

/-! ### What a positive answer without conflicts means -/

/-- Two entries of one location are independent: one of them is `"null"`, or both are `"R"`. -/
def Independent (val val2 : String) : Prop := val = "null" ∨ val2 = "null" ∨ val = "R" ∧ val2 = "R"

/-- If `isParallelizable` finds no conflict, the first function does not drop, and no field is written
by one of the two and touched by the other. -/
theorem isParallelizable_nil {actionTable : ActionTable} {nf1 nf2 : String} {row1 row2 : Row}
    (h1 : actionTable[nf1]? = some row1) (h2 : actionTable[nf2]? = some row2)
    (h : isParallelizable actionTable nf1 nf2 = .ok (true, [])) :
    ¬ row1.drops ∧ ∀ loc val, row1[loc]? = some val → Independent val (row2.getD loc "") := by
  simp only [isParallelizable, ActionTable.row, h1, h2, bind, Except.bind, pure, Except.pure,
    Except.ok.injEq] at h
  obtain ⟨hb, hpush⟩ := compareRows_eq h
  have hstop := hb.mp rfl
  have hnone : ∀ x ∈ row1.toList, ¬ Pushes row2 x := by
    have hnil := hpush rfl
    rw [List.nil_append, eq_comm, List.map_eq_nil_iff, List.filter_eq_nil_iff] at hnil
    simpa using hnil
  refine ⟨fun hd => ?_, fun loc val hv => ?_⟩
  · exact hstop ("Drop", "T") (TreeMap.mem_toList_iff_getElem?_eq_some.mpr hd) (.inl ⟨.inl rfl, rfl⟩)
  · have hx : (loc, val) ∈ row1.toList := TreeMap.mem_toList_iff_getElem?_eq_some.mpr hv
    by_cases hval : val = "null"
    · exact .inl hval
    by_cases hval2 : row2.getD loc "" = "null"
    · exact .inr (.inl hval2)
    have hR2 : row2.getD loc "" = "R" := by
      by_contra hR
      exact hnone _ hx ⟨hval, hval2, hR⟩
    have hR : val = "R" := by
      by_contra hR
      exact hstop _ hx (.inr ⟨hval, hR, hR2⟩)
    exact .inr (.inr ⟨hR, hR2⟩)

end DeepNF
