import DeepNF.ConflictItems
import Mathlib.Data.Sym.Sym2

/-!
# The check of a level (`checkLevelParallelizability`)

The double loop over the nodes of a level fills `visited_pair` row by row, and reports a pair when it meets
it for the second time: only then the other node has a row. `checkLevel_reports`: whatever the order of the
nodes, each impossible pair is reported once, and exactly the pairs that can run in parallel are recorded.
-/

namespace DeepNF
open Std (TreeMap)

/-- What is known when the ordered pairs in `done` have been compared. -/
structure LevelInv (actionTable : ActionTable) (pairs : PairMap (List Field)) (done : List (String × String))
    (lv : Level) : Prop where
  visited : ∀ a b, lv.visitedPair.get? a b = if (a, b) ∈ done then some (actionTable.accepts (a, b)) else none
  row : ∀ a, a ∈ lv.visitedPair ↔ ∃ b, (a, b) ∈ done
  reported : ∀ a b, s(a, b) ∈ lv.reports.map (fun x => s(x.1, x.2)) ↔
    ((a, b) ∈ done ∧ (b, a) ∈ done) ∧ actionTable.accepts (a, b) = false ∧ actionTable.accepts (b, a) = false
  once : (lv.reports.map fun x => s(x.1, x.2)).Nodup
  recorded : ∀ a b c, (a, b) ∈ done → isParallelizable actionTable a b = .ok (true, c) →
    lv.pairToConflicts.get? a b = some c
  kept : ∀ a b, ¬ ((a, b) ∈ done ∧ actionTable.accepts (a, b)) → lv.pairToConflicts.get? a b = pairs.get? a b

section Step
variable {actionTable : ActionTable} {nodes : Nodes} {level : List (Option Nat)} {pairs : PairMap (List Field)}
  {done : List (String × String)} {lv lv' : Level} {a b : String} {node1 node2 : Option Nat}

theorem mem_snoc {x y : String} : (x, y) ∈ done ++ [(a, b)] ↔ (x, y) ∈ done ∨ a = x ∧ b = y := by
  rw [List.mem_append, List.mem_singleton, Prod.mk.injEq, eq_comm, @eq_comm _ y]

theorem LevelInv.init : LevelInv actionTable pairs [] { pairToConflicts := pairs } where
  visited a b := by simp [PairMap.get?]
  row a := by simp
  reported a b := by simp
  once := List.nodup_nil
  recorded a b c h := by cases h
  kept a b _ := rfl

theorem checkPair_eq (h1 : nodes.name node1 = .ok a) (h2 : nodes.name node2 = .ok b)
    (h : checkPair actionTable nodes lv node1 node2 = .ok lv') :
    lv'.visitedPair = lv.visitedPair.set a b (actionTable.accepts (a, b)) ∧
      ((∃ c, isParallelizable actionTable a b = .ok (true, c) ∧
          lv'.pairToConflicts = lv.pairToConflicts.set a b c ∧ lv'.reports = lv.reports) ∨
        actionTable.accepts (a, b) = false ∧ lv'.pairToConflicts = lv.pairToConflicts ∧
          lv'.reports = if b ∈ lv'.visitedPair ∧ (lv'.visitedPair.get? b a).getD false = false then
            lv.reports ++ [(a, b)] else lv.reports) := by
  obtain ⟨nf1, hnf1, h⟩ := Rounds.bind_ok h
  obtain ⟨nf2, hnf2, h⟩ := Rounds.bind_ok h
  obtain rfl := Except.ok.inj (h1.symm.trans hnf1)
  obtain rfl := Except.ok.inj (h2.symm.trans hnf2)
  obtain ⟨⟨parallelizable, c⟩, hpar, h⟩ := Rounds.bind_ok h
  have hacc : actionTable.accepts (a, b) = parallelizable := by simp [ActionTable.accepts, hpar]
  rw [hacc]
  cases parallelizable with
  | true =>
    cases h
    exact ⟨rfl, .inl ⟨c, hpar, rfl, rfl⟩⟩
  | false =>
    simp only [Bool.false_eq_true, if_false] at h
    split at h <;> rename_i hrow <;> cases h
    · exact ⟨rfl, .inr ⟨rfl, rfl, (if_pos hrow).symm⟩⟩
    · exact ⟨rfl, .inr ⟨rfl, rfl, (if_neg hrow).symm⟩⟩

variable (hinv : LevelInv actionTable pairs done lv) (hne : a ≠ b) (hnew : (a, b) ∉ done)
include hinv hne hnew

omit hnew in
theorem LevelInv.row_iff (horder : ∀ y, (b, y) ∈ done → (b, a) ∈ done) {v : Bool} :
    (b ∈ lv.visitedPair.set a b v ∧ ((lv.visitedPair.set a b v).get? b a).getD false = false) ↔
      (b, a) ∈ done ∧ actionTable.accepts (b, a) = false := by
  rw [PairMap.mem_set, or_iff_right hne, PairMap.get?_set, if_neg fun h => hne h.1, hinv.visited, hinv.row]
  constructor
  · rintro ⟨⟨y, hy⟩, hv⟩
    have hba := horder y hy
    rw [if_pos hba] at hv
    exact ⟨hba, hv⟩
  · rintro ⟨hba, hv⟩
    exact ⟨⟨a, hba⟩, by rw [if_pos hba]; exact hv⟩

theorem LevelInv.reported_step (hno : actionTable.accepts (a, b) = false) {reports : List (String × String)}
    (hreports : reports = if (b, a) ∈ done ∧ actionTable.accepts (b, a) = false then lv.reports ++ [(a, b)]
      else lv.reports) :
    (∀ x y, s(x, y) ∈ reports.map (fun x => s(x.1, x.2)) ↔
      ((x, y) ∈ done ++ [(a, b)] ∧ (y, x) ∈ done ++ [(a, b)]) ∧ actionTable.accepts (x, y) = false ∧
        actionTable.accepts (y, x) = false) ∧
    (reports.map fun x => s(x.1, x.2)).Nodup := by
  have hmem : ∀ x y, ((x, y) ∈ done ++ [(a, b)] ∧ (y, x) ∈ done ++ [(a, b)]) ↔
      ((x, y) ∈ done ∧ (y, x) ∈ done) ∨ s(x, y) = s(a, b) ∧ (b, a) ∈ done := by
    intro x y
    simp only [List.mem_append, List.mem_singleton, Prod.mk.injEq, Sym2.eq_iff]
    constructor
    · rintro ⟨h1 | ⟨hx, hy⟩, h2 | ⟨hy', hx'⟩⟩
      · exact .inl ⟨h1, h2⟩
      · subst hy' hx'
        exact .inr ⟨.inr ⟨rfl, rfl⟩, h1⟩
      · subst hx hy
        exact .inr ⟨.inl ⟨rfl, rfl⟩, h2⟩
      · exact absurd (hx.symm.trans hx') hne
    · rintro (⟨h1, h2⟩ | ⟨⟨rfl, rfl⟩ | ⟨rfl, rfl⟩, h⟩)
      exacts [⟨.inl h1, .inl h2⟩, ⟨.inr ⟨rfl, rfl⟩, .inl h⟩, ⟨.inl h, .inr ⟨rfl, rfl⟩⟩]
  -- it is reported when it is met for the second time, if neither order is possible
  by_cases hrep : (b, a) ∈ done ∧ actionTable.accepts (b, a) = false
  · rw [if_pos hrep] at hreports
    rw [hreports, List.map_append, List.map_singleton]
    have hfresh : s(a, b) ∉ lv.reports.map fun x => s(x.1, x.2) := fun h =>
      hnew ((hinv.reported a b).mp h).1.1
    refine ⟨fun x y => ?_, List.nodup_append.mpr ⟨hinv.once, List.nodup_singleton _, ?_⟩⟩
    · rw [List.mem_append, List.mem_singleton, hinv.reported, hmem, or_and_right]
      refine or_congr_right ⟨fun h => ⟨⟨h, hrep.1⟩, ?_⟩, fun h => h.1.1⟩
      rcases Sym2.eq_iff.mp h with ⟨rfl, rfl⟩ | ⟨rfl, rfl⟩
      exacts [⟨hno, hrep.2⟩, ⟨hrep.2, hno⟩]
    · intro x hx y hy
      obtain rfl := List.mem_singleton.mp hy
      rintro rfl
      exact hfresh hx
  · rw [if_neg hrep] at hreports
    rw [hreports]
    refine ⟨fun x y => ?_, hinv.once⟩
    rw [hinv.reported, hmem, or_and_right]
    refine (or_iff_left ?_).symm
    rintro ⟨⟨he, hba⟩, hx, hy⟩
    rcases Sym2.eq_iff.mp he with ⟨rfl, rfl⟩ | ⟨rfl, rfl⟩
    exacts [hrep ⟨hba, hy⟩, hrep ⟨hba, hx⟩]

omit hnew hne in
theorem LevelInv.visited_step (hvisited : lv'.visitedPair = lv.visitedPair.set a b (actionTable.accepts (a, b))) :
    (∀ x y, lv'.visitedPair.get? x y =
      if (x, y) ∈ done ++ [(a, b)] then some (actionTable.accepts (x, y)) else none) ∧
    ∀ x, x ∈ lv'.visitedPair ↔ ∃ y, (x, y) ∈ done ++ [(a, b)] := by
  refine ⟨fun x y => ?_, fun x => ?_⟩
  · rw [hvisited, PairMap.get?_set, hinv.visited]
    by_cases hxy : a = x ∧ b = y
    · obtain ⟨rfl, rfl⟩ := hxy
      rw [if_pos ⟨rfl, rfl⟩, if_pos (mem_snoc.mpr (.inr ⟨rfl, rfl⟩))]
    · rw [if_neg hxy]
      exact if_congr (by rw [mem_snoc, or_iff_left hxy]) rfl rfl
  · rw [hvisited, PairMap.mem_set, hinv.row, or_comm]
    simp only [mem_snoc, exists_or]
    exact or_congr_right ⟨fun hx => ⟨b, hx, rfl⟩, fun ⟨_, hx, _⟩ => hx⟩

omit hnew hne in
theorem LevelInv.reported_accept (hacc : actionTable.accepts (a, b) = true) (x y : String) :
    s(x, y) ∈ lv.reports.map (fun x => s(x.1, x.2)) ↔
      ((x, y) ∈ done ++ [(a, b)] ∧ (y, x) ∈ done ++ [(a, b)]) ∧ actionTable.accepts (x, y) = false ∧
        actionTable.accepts (y, x) = false := by
  rw [hinv.reported]
  refine ⟨fun ⟨⟨hx, hy⟩, h⟩ => ⟨⟨mem_snoc.mpr (.inl hx), mem_snoc.mpr (.inl hy)⟩, h⟩, ?_⟩
  rintro ⟨⟨hx, hy⟩, hacc1, hacc2⟩
  refine ⟨⟨(mem_snoc.mp hx).resolve_right ?_, (mem_snoc.mp hy).resolve_right ?_⟩, hacc1, hacc2⟩
  · rintro ⟨rfl, rfl⟩
    exact absurd (hacc1.symm.trans hacc) Bool.false_ne_true
  · rintro ⟨rfl, rfl⟩
    exact absurd (hacc2.symm.trans hacc) Bool.false_ne_true

omit hnew hne in
theorem LevelInv.pairs_accept {c : List Field} (hpar : isParallelizable actionTable a b = .ok (true, c)) :
    (∀ x y d, (x, y) ∈ done ++ [(a, b)] → isParallelizable actionTable x y = .ok (true, d) →
      (lv.pairToConflicts.set a b c).get? x y = some d) ∧
    ∀ x y, ¬ ((x, y) ∈ done ++ [(a, b)] ∧ actionTable.accepts (x, y)) →
      (lv.pairToConflicts.set a b c).get? x y = pairs.get? x y := by
  refine ⟨fun x y d hxy hd => ?_, fun x y hxy => ?_⟩
  · rw [PairMap.get?_set]
    by_cases hab : a = x ∧ b = y
    · obtain ⟨rfl, rfl⟩ := hab
      rw [hpar] at hd
      cases hd
      exact if_pos ⟨rfl, rfl⟩
    · rw [if_neg hab]
      exact hinv.recorded x y d ((mem_snoc.mp hxy).resolve_right hab) hd
  · rw [PairMap.get?_set, if_neg]
    · exact hinv.kept x y fun ⟨hd, ha⟩ => hxy ⟨mem_snoc.mpr (.inl hd), ha⟩
    · rintro ⟨rfl, rfl⟩
      exact hxy ⟨mem_snoc.mpr (.inr ⟨rfl, rfl⟩), by rw [ActionTable.accepts, hpar]⟩

omit hnew hne in
theorem LevelInv.pairs_reject (hno : actionTable.accepts (a, b) = false) :
    (∀ x y d, (x, y) ∈ done ++ [(a, b)] → isParallelizable actionTable x y = .ok (true, d) →
      lv.pairToConflicts.get? x y = some d) ∧
    ∀ x y, ¬ ((x, y) ∈ done ++ [(a, b)] ∧ actionTable.accepts (x, y)) →
      lv.pairToConflicts.get? x y = pairs.get? x y := by
  refine ⟨fun x y d hxy hd => ?_, fun x y hxy => ?_⟩
  · refine hinv.recorded x y d ((mem_snoc.mp hxy).resolve_right ?_) hd
    rintro ⟨rfl, rfl⟩
    rw [ActionTable.accepts, hd] at hno
    cases hno
  · exact hinv.kept x y fun h => hxy ⟨mem_snoc.mpr (.inl h.1), h.2⟩

theorem LevelInv.step (horder : ∀ y, (b, y) ∈ done → (b, a) ∈ done) (h1 : nodes.name node1 = .ok a)
    (h2 : nodes.name node2 = .ok b) (h : checkPair actionTable nodes lv node1 node2 = .ok lv') :
    LevelInv actionTable pairs (done ++ [(a, b)]) lv' := by
  obtain ⟨hvisited, hcases⟩ := checkPair_eq h1 h2 h
  obtain ⟨hlv, hrow⟩ := hinv.visited_step hvisited
  rcases hcases with ⟨c, hpar, hpairs, hreports⟩ | ⟨hno, hpairs, hreports⟩
  · have hacc : actionTable.accepts (a, b) = true := by rw [ActionTable.accepts, hpar]
    obtain ⟨hrec, hkept⟩ := hinv.pairs_accept hpar
    rw [← hpairs] at hrec hkept
    exact { visited := hlv, row := hrow, reported := hreports ▸ hinv.reported_accept hacc,
            once := hreports ▸ hinv.once, recorded := hrec, kept := hkept }
  · rw [hvisited, if_congr (hinv.row_iff hne horder) rfl rfl] at hreports
    obtain ⟨hrep, honce⟩ := hinv.reported_step hne hnew hno hreports
    obtain ⟨hrec, hkept⟩ := hinv.pairs_reject hno
    rw [← hpairs] at hrec hkept
    exact { visited := hlv, row := hrow, reported := hrep, once := honce, recorded := hrec, kept := hkept }

end Step

section Level
variable {actionTable : ActionTable} {nodes : Nodes} {level : List (Option Nat)} {pairs : PairMap (List Field)}
  {nfs : List String} (hnames : level.map nodes.name = nfs.map .ok) (hnd : nfs.Nodup)
include hnames

theorem exists_name {node : Option Nat} (hnode : node ∈ level) : ∃ nf ∈ nfs, nodes.name node = .ok nf := by
  have hmem : nodes.name node ∈ nfs.map .ok := hnames ▸ List.mem_map_of_mem hnode
  obtain ⟨nf, hnf, he⟩ := List.mem_map.mp hmem
  exact ⟨nf, hnf, he.symm⟩

include hnd

theorem checkLevel_inv {lv : Level} (h : checkLevelParallelizability actionTable nodes level pairs = .ok lv) :
    LevelInv actionTable pairs (Rounds.pairs nfs) lv := by
  let nameOf (node : Option Nat) : String := ((nodes.name node).toOption).getD ""
  have hnameOf : ∀ {node nf}, nodes.name node = .ok nf → nameOf node = nf := fun {node nf} h => by
    show ((nodes.name node).toOption).getD "" = nf
    rw [h]
    rfl
  have hmap : level.map nameOf = nfs := by
    have h := congrArg (List.map fun x => (Except.toOption x).getD "") hnames
    rw [List.map_map, List.map_map] at h
    exact h.trans (List.map_id nfs)
  have hinj : ∀ a ∈ level, ∀ b ∈ level, nameOf a = nameOf b → a = b := fun a ha b hb he =>
    List.inj_on_of_nodup_map (hmap ▸ hnd) ha hb he
  -- the invariant is about names, which tell the nodes of a level apart
  have hpairs : (Rounds.pairs level).map (Prod.map nameOf nameOf) = Rounds.pairs nfs := by
    rw [Rounds.pairs_map hinj, hmap]
  rw [← hpairs]
  refine Rounds.foldlM_prefix (l := Rounds.pairs level)
    (P := fun done lv => LevelInv actionTable pairs (done.map (Prod.map nameOf nameOf)) lv) ?_ LevelInv.init h
  rintro done ⟨node1, node2⟩ todo lv lv' hl hinv hs
  have hmem : (node1, node2) ∈ Rounds.pairs level := by
    rw [← hl]
    exact List.mem_append_right _ (List.mem_cons_self ..)
  obtain ⟨hm1, hm2, -⟩ := Rounds.mem_pairs.mp hmem
  obtain ⟨a, -, h1⟩ := exists_name hnames hm1
  obtain ⟨b, -, h2⟩ := exists_name hnames hm2
  have hl' : done.map (Prod.map nameOf nameOf) ++ (a, b) :: todo.map (Prod.map nameOf nameOf) =
      Rounds.pairs nfs := by
    rw [← hpairs, ← hl, List.map_append, List.map_cons, Prod.map_apply, hnameOf h1, hnameOf h2]
  have hnodup := Rounds.nodup_pairs hnd
  rw [← hl'] at hnodup
  have hab : (a, b) ∈ Rounds.pairs nfs := by
    rw [← hl']
    exact List.mem_append_right _ (List.mem_cons_self ..)
  have hnew : (a, b) ∉ done.map (Prod.map nameOf nameOf) := fun hd =>
    (List.nodup_append.mp hnodup).2.2 _ hd _ (List.mem_cons_self ..) rfl
  rw [List.map_append, List.map_singleton, Prod.map_apply, hnameOf h1, hnameOf h2]
  exact hinv.step (Rounds.mem_pairs.mp hab).2.2 hnew (fun y hy => Rounds.pairs_prefix hl' hy) h1 h2 hs

/-- For every order of the nodes: an impossible pair is reported once and no other pair is; the conflicts of
the pairs that can run in parallel are recorded, and everything else is left alone. -/
theorem checkLevel_reports :
    ((∀ nf ∈ nfs, nf ∈ actionTable) →
      ∃ lv, checkLevelParallelizability actionTable nodes level pairs = .ok lv) ∧
    ∀ lv, checkLevelParallelizability actionTable nodes level pairs = .ok lv →
      (∀ a b, (lv.reports.map fun x => s(x.1, x.2)).count s(a, b) =
        if (a ∈ nfs ∧ b ∈ nfs ∧ a ≠ b) ∧ actionTable.accepts (a, b) = false ∧ actionTable.accepts (b, a) = false
        then 1 else 0) ∧
      (∀ a b c, a ∈ nfs → b ∈ nfs → a ≠ b → isParallelizable actionTable a b = .ok (true, c) →
        lv.pairToConflicts.get? a b = some c) ∧
      ∀ a b, ¬ ((a ∈ nfs ∧ b ∈ nfs ∧ a ≠ b) ∧ actionTable.accepts (a, b)) →
        lv.pairToConflicts.get? a b = pairs.get? a b := by
  refine ⟨fun hrows => ?_, fun lv hlv => ?_⟩
  · have husable : LevelUsable actionTable (nfs ++ pairs.keys) nodes level := fun node hnode => by
      obtain ⟨nf, hnf, h⟩ := exists_name hnames hnode
      exact ⟨nf, h, List.mem_append_left _ hnf, hrows nf hnf⟩
    have hlisted : Listed (nfs ++ pairs.keys) pairs := fun k hk =>
      List.mem_append_right _ (TreeMap.mem_keys.mpr hk)
    obtain ⟨lv, hlv, -⟩ := checkLevel_total husable hlisted
    exact ⟨lv, hlv⟩
  · have hinv := checkLevel_inv hnames hnd hlv
    refine ⟨fun a b => ?_, fun a b c ha hb hne hc => ?_, fun a b hab => ?_⟩
    · rw [hinv.once.count]
      refine if_congr ((hinv.reported a b).trans (and_congr_left fun _ => ?_)) rfl rfl
      rw [Rounds.mem_pairs, Rounds.mem_pairs]
      exact ⟨fun h => h.1, fun h => ⟨h, h.2.1, h.1, Ne.symm h.2.2⟩⟩
    · exact hinv.recorded a b c (Rounds.mem_pairs.mpr ⟨ha, hb, hne⟩) hc
    · exact hinv.kept a b fun ⟨hd, ha⟩ => hab ⟨Rounds.mem_pairs.mp hd, ha⟩

end Level

/-- The load balancer reads what the proxy writes, and drops packets. -/
theorem checkLevel_reports_proxy : ∃ lv,
    checkLevelParallelizability actionTableJson [{ nf := "proxy" }, { nf := "dnf_loadbalancer" }] [some 1, some 0] ∅ =
      .ok lv ∧
    (lv.reports.map fun x => s(x.1, x.2)).count s("proxy", "dnf_loadbalancer") = 1 := by
  have hnames : [some 1, some 0].map (Nodes.name [{ nf := "proxy" }, { nf := "dnf_loadbalancer" }]) =
      ["dnf_loadbalancer", "proxy"].map .ok := rfl
  obtain ⟨htotal, hlevel⟩ := @checkLevel_reports actionTableJson _ _ ∅ _ hnames (by decide)
  obtain ⟨lv, hlv⟩ := htotal (by decide)
  refine ⟨lv, hlv, ?_⟩
  rw [(hlevel lv hlv).1, if_pos (by decide)]

end DeepNF
