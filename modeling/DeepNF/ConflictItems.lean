import DeepNF.ConstructTotal
import DeepNF.Parallel

/-!
# Which conflict items the merger gets

`pair_to_conflicts` is filled by the order dependencies, the priorities and the level checks.
`mem_conflictsList` says in terms of the input which pairs of functions get an item. A level check
records a pair in both directions if it can, also against a priority of the user
(`construct_priority_iff`), and the item of an order dependency prefers the function that comes first
(`construct_sequential_iff`).
-/

namespace DeepNF
open Std (TreeMap)
open Relation Walks

/-! ### The recorded pairs -/

namespace PairMap
variable {α : Type} {t : PairMap α} {a b f1 f2 : String} {v : α}

def Has (t : PairMap α) (a b : String) : Prop := (t.get? a b).isSome

theorem get?_set : (t.set f1 f2 v).get? a b = if f1 = a ∧ f2 = b then some v else t.get? a b := by
  simp only [get?, set, TreeMap.getElem?_insert, Std.LawfulEqOrd.compare_eq_iff_eq]
  by_cases ha : f1 = a
  · subst ha
    simp only [if_true, Option.bind_some, TreeMap.getElem?_insert, Std.LawfulEqOrd.compare_eq_iff_eq,
      TreeMap.getD_eq_getD_getElem?, true_and]
    refine ite_congr rfl (fun _ => rfl) fun _ => ?_
    cases t[f1]? <;> simp
  · simp only [ha, if_false, false_and]

theorem mem_set : a ∈ t.set f1 f2 v ↔ f1 = a ∨ a ∈ t := by
  rw [set, TreeMap.mem_insert, Std.LawfulEqOrd.compare_eq_iff_eq]

theorem has_set : (t.set f1 f2 v).Has a b ↔ t.Has a b ∨ a = f1 ∧ b = f2 := by
  rw [Has, get?_set]
  by_cases h : f1 = a ∧ f2 = b
  · rw [if_pos h]
    exact iff_of_true rfl (.inr ⟨h.1.symm, h.2.symm⟩)
  · rw [if_neg h]
    exact (or_iff_left fun h' => h ⟨h'.1.symm, h'.2.symm⟩).symm

theorem has_iff : t.Has a b ↔ b ∈ (t.getD a ∅).keys := by
  rw [Has, get?, TreeMap.mem_keys, TreeMap.getD_eq_getD_getElem?, TreeMap.mem_iff_isSome_getElem?]
  cases t[a]? <;> simp

theorem Has.mem_keys (h : t.Has a b) : a ∈ t.keys := by
  rw [TreeMap.mem_keys, TreeMap.mem_iff_isSome_getElem?]
  rw [Has, get?] at h
  cases ha : t[a]? with
  | none => rw [ha] at h; cases h
  | some m => rfl

end PairMap

/-- `isParallelizable` accepts the pair and names conflicts. -/
def ActionTable.conflicting (actionTable : ActionTable) (x : String × String) : Bool :=
  match isParallelizable actionTable x.1 x.2 with
  | .ok (parallel, conflictingActions) => parallel && 0 < conflictingActions.length
  | .error _ => false

section Parse
variable {actionTable : ActionTable} {deps : List (String × String)} {p p' : Parsed} {a b : String}

theorem has_accept {f1 f2 : String} {c : List Field} : (p.accept f1 f2 c).pairToConflicts.Has a b ↔
    p.pairToConflicts.Has a b ∨ (a = f1 ∧ b = f2) ∧ 0 < c.length := by
  unfold Parsed.accept
  by_cases hc : 0 < c.length
  · simp only [hc, if_true, PairMap.has_set, and_true]
  · simp only [hc, if_false, and_false, or_false]

section Steps
variable {P : List (String × String) → PairMap (List Field) → Prop}
  (hstep : ∀ done f1 f2 (p : Parsed) (parallel : Bool) c, isParallelizable actionTable f1 f2 = .ok (parallel, c) →
    P done p.pairToConflicts →
      P (done ++ [(f1, f2)]) (if parallel then (p.accept f1 f2 c).pairToConflicts else p.pairToConflicts))
  (h0 : P [] p.pairToConflicts)
include hstep h0

theorem parseOrderDependencies_pairs (h : parseOrderDependencies actionTable deps p = .ok p') :
    P deps p'.pairToConflicts := by
  refine Rounds.foldlM_induction (P := fun done (p : Parsed) => P done p.pairToConflicts) ?_ h0 h
  rintro done ⟨f1, f2⟩ p p' - hP hs
  obtain ⟨⟨parallel, c⟩, hpar, hs⟩ := Rounds.bind_ok hs
  have hnext := hstep done f1 f2 p parallel c hpar hP
  cases parallel <;> cases hs <;> exact hnext

theorem parsePriorityDependencies_pairs (h : parsePriorityDependencies actionTable deps p = .ok p') :
    P deps p'.pairToConflicts := by
  refine Rounds.foldlM_induction (P := fun done (p : Parsed) => P done p.pairToConflicts) ?_ h0 h
  rintro done ⟨f1, f2⟩ p p' - hP hs
  obtain ⟨⟨parallel, c⟩, hpar, hs⟩ := Rounds.bind_ok hs
  have hnext := hstep done f1 f2 p parallel c hpar hP
  cases parallel <;> cases hs <;> exact hnext

end Steps

theorem has_step {t : PairMap (List Field)} {done : List (String × String)} {f1 f2 : String} {parallel : Bool}
    {c : List Field} (hpar : isParallelizable actionTable f1 f2 = .ok (parallel, c))
    (hp : p.pairToConflicts.Has a b ↔ t.Has a b ∨ (a, b) ∈ done.filter actionTable.conflicting) :
    PairMap.Has (if parallel then (p.accept f1 f2 c).pairToConflicts else p.pairToConflicts) a b ↔
      t.Has a b ∨ (a, b) ∈ (done ++ [(f1, f2)]).filter actionTable.conflicting := by
  have hconf : actionTable.conflicting (f1, f2) = (parallel && decide (0 < c.length)) := by
    simp [ActionTable.conflicting, hpar]
  rw [List.filter_append, List.mem_append, ← or_assoc, ← hp, List.filter_singleton, hconf]
  cases parallel with
  | false => simp
  | true =>
    rw [if_pos rfl, has_accept]
    refine or_congr_right ?_
    by_cases hc : 0 < c.length <;> simp [hc]

theorem parseOrderDependencies_has (h : parseOrderDependencies actionTable deps p = .ok p') :
    p'.pairToConflicts.Has a b ↔ p.pairToConflicts.Has a b ∨ (a, b) ∈ deps.filter actionTable.conflicting :=
  parseOrderDependencies_pairs (P := fun done t => t.Has a b ↔
    p.pairToConflicts.Has a b ∨ (a, b) ∈ done.filter actionTable.conflicting)
    (fun _ _ _ _ _ _ hpar hp => has_step hpar hp) (by simp) h

theorem parsePriorityDependencies_has (h : parsePriorityDependencies actionTable deps p = .ok p') :
    p'.pairToConflicts.Has a b ↔ p.pairToConflicts.Has a b ∨ (a, b) ∈ deps.filter actionTable.conflicting :=
  parsePriorityDependencies_pairs (P := fun done t => t.Has a b ↔
    p.pairToConflicts.Has a b ∨ (a, b) ∈ done.filter actionTable.conflicting)
    (fun _ _ _ _ _ _ hpar hp => has_step hpar hp) (by simp) h

end Parse

/-! ### Level checks -/

section Level
variable {actionTable : ActionTable} {nodes : Nodes} {level : List (Option Nat)}
  {pairs : PairMap (List Field)} {lv lv' : Level} {a b : String} {node1 node2 : Option Nat}

/-- Two different nodes of the level with these functions, in an order in which they can run in parallel. -/
def LevelPair (actionTable : ActionTable) (nodes : Nodes) (level : List (Option Nat)) (a b : String) : Prop :=
  actionTable.accepts (a, b) ∧
    ∃ node1 ∈ level, ∃ node2 ∈ level, node1 ≠ node2 ∧ nodes.name node1 = .ok a ∧ nodes.name node2 = .ok b

theorem checkPair_ok (h : checkPair actionTable nodes lv node1 node2 = .ok lv') :
    ∃ nf1 nf2, nodes.name node1 = .ok nf1 ∧ nodes.name node2 = .ok nf2 ∧ ∀ a b,
      lv'.pairToConflicts.Has a b ↔
        lv.pairToConflicts.Has a b ∨ (a = nf1 ∧ b = nf2) ∧ actionTable.accepts (nf1, nf2) := by
  obtain ⟨nf1, h1, h⟩ := Rounds.bind_ok h
  obtain ⟨nf2, h2, h⟩ := Rounds.bind_ok h
  obtain ⟨⟨parallelizable, c⟩, hpar, h⟩ := Rounds.bind_ok h
  have hacc : actionTable.accepts (nf1, nf2) = parallelizable := by simp [ActionTable.accepts, hpar]
  refine ⟨nf1, nf2, h1, h2, fun a b => ?_⟩
  rw [hacc]
  cases parallelizable with
  | true => cases h; simp only [PairMap.has_set, and_true]
  | false =>
    simp only [Bool.false_eq_true, if_false, and_false, or_false] at h ⊢
    split at h <;> cases h <;> exact Iff.rfl

theorem checkLevel_ok (h : checkLevelParallelizability actionTable nodes level pairs = .ok lv) :
    (∀ node1 ∈ level, ∀ node2 ∈ level, node1 ≠ node2 → ∃ nf, nodes.name node1 = .ok nf) ∧
      ∀ a b, lv.pairToConflicts.Has a b ↔ pairs.Has a b ∨ LevelPair actionTable nodes level a b := by
  have hmem : ∀ node1 node2, (node1, node2) ∈ Rounds.pairs level ↔ node1 ∈ level ∧ node2 ∈ level ∧ node1 ≠ node2 :=
    fun _ _ => Rounds.mem_pairs
  have key := Rounds.foldlM_induction (P := fun (done : List (Option Nat × Option Nat)) (lv : Level) =>
    (∀ e ∈ done, ∃ nf, nodes.name e.1 = .ok nf) ∧ ∀ a b, lv.pairToConflicts.Has a b ↔
      pairs.Has a b ∨ actionTable.accepts (a, b) ∧
        ∃ e ∈ done, nodes.name e.1 = .ok a ∧ nodes.name e.2 = .ok b) ?_ (by simp) h
  · obtain ⟨hname, hpairs⟩ := key
    refine ⟨fun node1 h1 node2 h2 hne => hname (node1, node2) ((hmem _ _).mpr ⟨h1, h2, hne⟩), fun a b => ?_⟩
    rw [hpairs]
    refine or_congr_right (and_congr_right fun _ => ⟨?_, ?_⟩)
    · rintro ⟨⟨node1, node2⟩, he, ha, hb⟩
      obtain ⟨h1, h2, hne⟩ := (hmem _ _).mp he
      exact ⟨node1, h1, node2, h2, hne, ha, hb⟩
    · rintro ⟨node1, h1, node2, h2, hne, ha, hb⟩
      exact ⟨(node1, node2), (hmem _ _).mpr ⟨h1, h2, hne⟩, ha, hb⟩
  · rintro done ⟨node1, node2⟩ lv lv' - ⟨hname, hpairs⟩ hs
    obtain ⟨nf1, nf2, h1, h2, hset⟩ := checkPair_ok hs
    refine ⟨fun e he => ?_, fun a b => ?_⟩
    · rcases List.mem_append.mp he with he | he
      · exact hname e he
      · obtain rfl := List.mem_singleton.mp he
        exact ⟨nf1, h1⟩
    · rw [hset, hpairs, or_assoc]
      refine or_congr_right ?_
      constructor
      · rintro (⟨hacc, e, he, ha, hb⟩ | ⟨⟨rfl, rfl⟩, hacc⟩)
        · exact ⟨hacc, e, List.mem_append_left _ he, ha, hb⟩
        · exact ⟨hacc, (node1, node2), by simp, h1, h2⟩
      · rintro ⟨hacc, e, he, ha, hb⟩
        rcases List.mem_append.mp he with he | he
        · exact .inl ⟨hacc, e, he, ha, hb⟩
        · obtain rfl := List.mem_singleton.mp he
          obtain rfl := Except.ok.inj (h1.symm.trans ha)
          obtain rfl := Except.ok.inj (h2.symm.trans hb)
          exact .inr ⟨⟨rfl, rfl⟩, hacc⟩

theorem checkTrees_has {n : Nat} {ly : Layout n} {roots : List Nat} {r : Finset Nat × PairMap (List Field)}
    (hn : nodes.length = n) (hm : nodes.Mirror) (h : checkTrees ly actionTable nodes roots pairs = .ok r) :
    r.2.Has a b ↔ pairs.Has a b ∨ ∃ root ∈ roots, ∃ leaves : Finset Nat,
      (∀ x, x ∈ leaves ↔ nodes.SinkBelow root x) ∧
        LevelPair actionTable nodes ((ly.iterate leaves).map some) a b := by
  refine Rounds.foldlM_induction (P := fun done (r : Finset Nat × PairMap (List Field)) =>
    r.2.Has a b ↔ pairs.Has a b ∨ ∃ root ∈ done, ∃ leaves : Finset Nat,
      (∀ x, x ∈ leaves ↔ nodes.SinkBelow root x) ∧
        LevelPair actionTable nodes ((ly.iterate leaves).map some) a b) ?_ (by simp) h
  rintro done root ⟨leafNodes, ps⟩ r' - hps hf
  obtain ⟨new, hnew, hf⟩ := Rounds.bind_ok hf
  obtain ⟨lv, hlv, hf⟩ := Rounds.bind_ok hf
  cases hf
  obtain ⟨hmem, -⟩ := Nodes.findAllLeaves_ok hn hm hnew
  simp only [Finset.notMem_empty, false_or] at hmem
  dsimp only at hps ⊢
  rw [(checkLevel_ok hlv).2, hps, or_assoc]
  refine or_congr_right ?_
  simp only [List.mem_append, List.mem_singleton, or_and_right, exists_or, exists_eq_left]
  refine or_congr_right ⟨fun hp => ⟨new, hmem, hp⟩, ?_⟩
  rintro ⟨leaves, hleaves, hp⟩
  rwa [Finset.ext fun x => (hleaves x).trans (hmem x).symm] at hp

end Level

/-! ### The conflict list -/

namespace UserInput
variable (u : UserInput) (actionTable : ActionTable)

/-- A leaf of the order tree with the root `r`. -/
def LeafBelow (r x : Nat) : Prop :=
  (∃ z, u.Order actionTable r z) ∧ (∀ z, ¬ u.Order actionTable z r) ∧
    ReflTransGen (u.Order actionTable) r x ∧ ∀ z, ¬ u.Order actionTable x z

def SameLevel (x y : Nat) : Prop :=
  x ≠ y ∧ (u.Free actionTable x ∧ u.Free actionTable y ∨
    ∃ r, u.LeafBelow actionTable r x ∧ u.LeafBelow actionTable r y)

/-- The pairs that are recorded: the user's own if they conflict, and what the level checks accept. -/
def Recorded (a b : String) : Prop :=
  (a, b) ∈ (u.orderDependencies ++ u.priorities).filter actionTable.conflicting ∨
    actionTable.accepts (a, b) ∧ ∃ x y, u.node a = some x ∧ u.node b = some y ∧ u.SameLevel actionTable x y

end UserInput

section Items
variable {actionTable : ActionTable} {u : UserInput} {ly : Layout u.functions.length} {g : ServiceGraph}
  {o : Orchestrator} {nodes : Nodes} {a b : String} {x y : Nat}

theorem Forest.name_iff (hF : Forest actionTable u nodes) {a' : String} (hx : u.node a' = some x) :
    nodes.name (some x) = .ok a ↔ u.node a = some x := by
  constructor
  · intro h
    obtain rfl := Except.ok.inj ((name_some hF.names hx).symm.trans h)
    exact hx
  · exact name_some hF.names

theorem ActionTable.accepts_of_conflicting (h : actionTable.conflicting (a, b)) :
    actionTable.accepts (a, b) := by
  cases hpar : isParallelizable actionTable a b with
  | error e => simp [ActionTable.conflicting, hpar] at h
  | ok r =>
    simp only [ActionTable.conflicting, hpar, Bool.and_eq_true] at h
    simpa only [ActionTable.accepts, hpar] using h.1

theorem UserInput.LeafBelow.named {r : Nat} (h : u.LeafBelow actionTable r x) : ∃ a, u.node a = some x := by
  obtain ⟨⟨z, hz⟩, -, hrx, -⟩ := h
  rcases ReflTransGen.cases_tail hrx with rfl | ⟨w, -, he⟩
  · obtain ⟨a, -, -, ha, -⟩ := hz
    exact ⟨a, ha⟩
  · obtain ⟨-, b, -, -, hb⟩ := he
    exact ⟨b, hb⟩

theorem UserInput.Free.named (h : u.Free actionTable x) : ∃ a, u.node a = some x := by
  obtain ⟨a, b, -, ha | hb⟩ := h
  exacts [⟨a, ha⟩, ⟨b, hb⟩]

theorem Forest.levelPair_iff (hF : Forest actionTable u nodes) {level : List (Option Nat)}
    (hnamed : ∀ x, some x ∈ level → ∃ a, u.node a = some x) :
    LevelPair actionTable nodes level a b ↔ actionTable.accepts (a, b) ∧
      ∃ x y, u.node a = some x ∧ u.node b = some y ∧ x ≠ y ∧ some x ∈ level ∧ some y ∈ level := by
  refine and_congr_right fun _ => ⟨?_, ?_⟩
  · rintro ⟨node1, h1, node2, h2, hne, ha, hb⟩
    cases node1 with
    | none => cases ha
    | some x =>
      cases node2 with
      | none => cases hb
      | some y =>
        obtain ⟨a', hx⟩ := hnamed x h1
        obtain ⟨b', hy⟩ := hnamed y h2
        exact ⟨x, y, (hF.name_iff hx).mp ha, (hF.name_iff hy).mp hb, fun h => hne (congrArg some h), h1, h2⟩
  · rintro ⟨x, y, ha, hb, hne, h1, h2⟩
    exact ⟨some x, h1, some y, h2, fun h => hne (Option.some.inj h), (hF.name_iff ha).mpr ha,
      (hF.name_iff hb).mpr hb⟩

theorem Forest.mem_level (hF : Forest actionTable u nodes) {r : Nat} {leaves : Finset Nat}
    (hr : (∃ z, u.Order actionTable r z) ∧ ∀ z, ¬ u.Order actionTable z r)
    (hleaves : ∀ x, x ∈ leaves ↔ nodes.SinkBelow r x) (x : Nat) :
    some x ∈ (ly.iterate leaves).map some ↔ u.LeafBelow actionTable r x := by
  rw [List.mem_map]
  simp only [Option.some.injEq, exists_eq_right, Layout.mem_iterate, hleaves, Nodes.SinkBelow, hF.edge]
  constructor
  · rintro ⟨-, h⟩
    exact ⟨hr.1, hr.2, h⟩
  · intro h
    obtain ⟨a, ha⟩ := h.named
    exact ⟨indexOf_lt ha, h.2.2⟩

theorem Forest.trees_iff (hF : Forest actionTable u nodes) {roots : List Nat}
    (hroots : ∀ r, r ∈ roots ↔ (∃ z, u.Order actionTable r z) ∧ ∀ z, ¬ u.Order actionTable z r) :
    (∃ root ∈ roots, ∃ leaves : Finset Nat, (∀ x, x ∈ leaves ↔ nodes.SinkBelow root x) ∧
      LevelPair actionTable nodes ((ly.iterate leaves).map some) a b) ↔
    actionTable.accepts (a, b) ∧ ∃ x y, u.node a = some x ∧ u.node b = some y ∧ x ≠ y ∧
      ∃ r, u.LeafBelow actionTable r x ∧ u.LeafBelow actionTable r y := by
  constructor
  · rintro ⟨r, hr, leaves, hleaves, hpair⟩
    have hmem : ∀ x, some x ∈ (ly.iterate leaves).map some ↔ _ := hF.mem_level ((hroots r).mp hr) hleaves
    obtain ⟨hacc, x, y, ha, hb, hne, hx, hy⟩ := (hF.levelPair_iff fun x hx => ((hmem x).mp hx).named).mp hpair
    exact ⟨hacc, x, y, ha, hb, hne, r, (hmem x).mp hx, (hmem y).mp hy⟩
  · classical
    rintro ⟨hacc, x, y, ha, hb, hne, r, hx, hy⟩
    have hleaves : ∀ z, z ∈ (Finset.range u.functions.length).filter (nodes.SinkBelow r) ↔
        nodes.SinkBelow r z := by
      intro z
      rw [Finset.mem_filter, Finset.mem_range]
      refine and_iff_right_of_imp fun hz => ?_
      rw [Nodes.SinkBelow, hF.edge] at hz
      obtain ⟨c, hc⟩ := UserInput.LeafBelow.named ⟨hx.1, hx.2.1, hz⟩
      exact indexOf_lt hc
    have hmem : ∀ z, some z ∈ (ly.iterate _).map some ↔ _ := hF.mem_level ⟨hx.1, hx.2.1⟩ hleaves
    exact ⟨r, (hroots r).mpr ⟨hx.1, hx.2.1⟩, _, hleaves,
      (hF.levelPair_iff fun z hz => ((hmem z).mp hz).named).mpr
        ⟨hacc, x, y, ha, hb, hne, (hmem x).mpr hx, (hmem y).mpr hy⟩⟩

theorem buildServiceGraph_has (h : buildServiceGraph actionTable u ly = .ok g) :
    (∀ a b, g.pairToConflicts.Has a b ↔ u.Recorded actionTable a b) ∧
      ∀ a b, u.Recorded actionTable a b → (u.node a).isSome → (u.node b).isSome := by
  obtain ⟨parsed₁, nodes, pairs, lv, hph⟩ := buildServiceGraph_phases h
  have hF := hph.forest
  obtain ⟨hnames, hlevel⟩ := checkLevel_ok hph.level
  have hfree : ∀ x, some x ∈ ly.iterateNull g.priorityNodes ↔ u.Free actionTable x := fun x => hph.mem_priorities ly
  refine ⟨fun a b => ?_, fun a b hrec ha => ?_⟩
  · have hempty : ¬ PairMap.Has (∅ : PairMap (List Field)) a b := by simp [PairMap.Has, PairMap.get?]
    rw [hph.pairToConflicts, hlevel, checkTrees_has hF.length hF.mirror hph.trees, hF.trees_iff fun r => hph.mem_roots,
      parsePriorityDependencies_has hph.priorities, parseOrderDependencies_has hph.order, or_iff_right hempty,
      hF.levelPair_iff fun x hx => ((hfree x).mp hx).named, UserInput.Recorded, List.filter_append,
      List.mem_append]
    simp only [hfree, UserInput.SameLevel]
    constructor
    · rintro ((h | ⟨hacc, x, y, ha, hb, hne, h⟩) | ⟨hacc, x, y, ha, hb, hne, h⟩)
      · exact .inl h
      · exact .inr ⟨hacc, x, y, ha, hb, hne, .inr h⟩
      · exact .inr ⟨hacc, x, y, ha, hb, hne, .inl h⟩
    · rintro (h | ⟨hacc, x, y, ha, hb, hne, h | h⟩)
      · exact .inl (.inl h)
      · exact .inr ⟨hacc, x, y, ha, hb, hne, h⟩
      · exact .inl (.inr ⟨hacc, x, y, ha, hb, hne, h⟩)
  · obtain hdep | ⟨-, -, y, -, hb, -⟩ := hrec
    · obtain ⟨x, hx⟩ := Option.isSome_iff_exists.mp ha
      have hpair : (a, b) ∈ u.parsedPriorities actionTable := by
        obtain ⟨hd, hc⟩ := List.mem_filter.mp hdep
        exact List.mem_filter.mpr ⟨hd, ActionTable.accepts_of_conflicting hc⟩
      -- else the priority nodes would be a known node and a null pointer
      by_contra hno
      rw [Option.not_isSome_iff_eq_none] at hno
      obtain ⟨nf, hnf⟩ := hnames none ((hph.mem_priorities ly).mpr ⟨a, b, hpair, .inr hno⟩) (some x)
        ((hph.mem_priorities ly).mpr ⟨a, b, hpair, .inl hx⟩) (by simp)
      cases hnf
    · exact Option.isSome_iff_exists.mpr ⟨y, hb⟩

/-- The items of the conflict list, whatever the order of the hash maps and of the pointers: the order only
decides where in the list an item is, and which of several parents it names. -/
theorem mem_conflictsList (h : Orchestrator.construct actionTable u ly = .ok o) {ci : ConflictItem} :
    ci ∈ o.mergerInfo.conflictsList ↔ ∃ a b x y, u.Recorded actionTable a b ∧ u.node a = some x ∧
      u.node b = some y ∧ ci = { major := x, minor := y, parent := o.graph.parentId ly x } := by
  have hA := construct_assembled h
  obtain ⟨hhas, hknown⟩ := buildServiceGraph_has (construct_graph h)
  obtain ⟨lists, hlists, hl⟩ := Rounds.bind_ok (construct_mergerInfo h).2.2.2
  rw [← Except.ok.inj hl, List.mem_flatten]
  constructor
  · rintro ⟨l, hl, hci⟩
    obtain ⟨a, ha, hmajor⟩ := Rounds.mem_of_mapM hlists hl
    split at hmajor
    · cases hmajor
    · rename_i x hx
      cases hmajor
      obtain ⟨b, hb, rfl⟩ := List.mem_map.mp hci
      have hrec := (hhas a b).mp (PairMap.has_iff.mpr ((ly.inner_perm _ _).mem_iff.mp hb))
      rw [hA.funcToNodes] at hx
      obtain ⟨y, hy⟩ := Option.isSome_iff_exists.mp (hknown a b hrec (Option.isSome_iff_exists.mpr ⟨x, hx⟩))
      exact ⟨a, b, x, y, hrec, hx, hy, by rw [hA.inxOf_eq hx, hA.inxOf_eq hy]⟩
  · rintro ⟨a, b, x, y, hrec, hx, hy, rfl⟩
    have hkey := (hhas a b).mpr hrec
    obtain ⟨l, hl, hmajor⟩ := Rounds.exists_of_mapM hlists ((ly.outer_perm _).mem_iff.mpr hkey.mem_keys)
    have hx' : o.graph.funcToNodes[a]? = some x := by rw [hA.funcToNodes]; exact hx
    rw [hx'] at hmajor
    cases hmajor
    refine ⟨_, hl, List.mem_map.mpr ⟨b, (ly.inner_perm _ _).mem_iff.mpr (PairMap.has_iff.mp hkey), ?_⟩⟩
    rw [hA.inxOf_eq hx, hA.inxOf_eq hy]

/-- Every recorded pair has its item: the constructor does not come to its end if a function is not listed. -/
theorem recorded_named (h : Orchestrator.construct actionTable u ly = .ok o)
    (hrec : u.Recorded actionTable a b) :
    ∃ x y, u.node a = some x ∧ u.node b = some y := by
  have hA := construct_assembled h
  obtain ⟨hhas, hknown⟩ := buildServiceGraph_has (construct_graph h)
  obtain ⟨lists, hlists, -⟩ := Rounds.bind_ok (construct_mergerInfo h).2.2.2
  have hkey := ((hhas a b).mpr hrec).mem_keys
  obtain ⟨l, -, hmajor⟩ := Rounds.exists_of_mapM hlists ((ly.outer_perm _).mem_iff.mpr hkey)
  split at hmajor
  · cases hmajor
  · rename_i x hx
    rw [hA.funcToNodes] at hx
    obtain ⟨y, hy⟩ := Option.isSome_iff_exists.mp (hknown a b hrec (Option.isSome_iff_exists.mpr ⟨x, hx⟩))
    exact ⟨x, y, hx, hy⟩

/-- The conflict list has an item in which the node of `a` has precedence over the node of `b`. -/
def Orchestrator.Prefers (o : Orchestrator) (a b : String) : Prop :=
  ∃ ci ∈ o.mergerInfo.conflictsList,
    ci.major = inxOf o.graph.funcToNodes a ∧ ci.minor = inxOf o.graph.funcToNodes b

theorem prefers_iff (h : Orchestrator.construct actionTable u ly = .ok o) (ha : u.node a = some x)
    (hb : u.node b = some y) : o.Prefers a b ↔ u.Recorded actionTable a b := by
  have hA := construct_assembled h
  rw [Orchestrator.Prefers, hA.inxOf_eq ha, hA.inxOf_eq hb]
  constructor
  · rintro ⟨ci, hci, hmajor, hminor⟩
    obtain ⟨a', b', x', y', hrec, ha', hb', rfl⟩ := (mem_conflictsList h).mp hci
    obtain rfl := Int.natCast_inj.mp hmajor
    obtain rfl := Int.natCast_inj.mp hminor
    rwa [indexOf_inj ha ha', indexOf_inj hb hb']
  · intro hrec
    exact ⟨_, (mem_conflictsList h).mpr ⟨a, b, x, y, hrec, ha, hb, rfl⟩, rfl, rfl⟩

theorem recorded_of_conflicting {c : List Field} (hdep : (a, b) ∈ u.orderDependencies ++ u.priorities)
    (hpar : isParallelizable actionTable a b = .ok (true, c)) (hc : c ≠ []) : u.Recorded actionTable a b := by
  have hlen := List.length_pos_iff.mpr hc
  exact .inl (List.mem_filter.mpr ⟨hdep, by simp [ActionTable.conflicting, hpar, hlen]⟩)

/-! ### A priority of the user -/

/-- The level check of the functions in accepted pairs compares the two functions of a priority as well. The
priority keeps its meaning if and only if they cannot run in parallel the other way round. -/
theorem construct_priority_iff (h : Orchestrator.construct actionTable u ly = .ok o) {c : List Field}
    (hprio : (a, b) ∈ u.priorities) (hpar : isParallelizable actionTable a b = .ok (true, c)) (hc : c ≠ [])
    (hno : (b, a) ∉ u.priorities) (hno' : (b, a) ∉ u.orderDependencies) :
    o.Prefers a b ∧ ¬ o.Prefers b a ↔ actionTable.accepts (b, a) = false := by
  have hrec := recorded_of_conflicting (List.mem_append_right _ hprio) hpar hc
  obtain ⟨x, y, ha, hb⟩ := recorded_named h hrec
  rw [prefers_iff h ha hb, prefers_iff h hb ha, and_iff_right hrec, ← Bool.not_eq_true, not_iff_not]
  constructor
  · rintro (hdep | ⟨hacc, -⟩)
    · exact absurd (List.mem_filter.mp hdep).1 (by simp [hno, hno'])
    · exact hacc
  · intro hacc
    have hpair : (a, b) ∈ u.parsedPriorities actionTable :=
      List.mem_filter.mpr ⟨List.mem_append_right _ hprio, by simp [ActionTable.accepts, hpar]⟩
    have hne : y ≠ x := by
      rintro rfl
      obtain rfl := indexOf_inj ha hb
      exact hno hprio
    exact .inr ⟨hacc, y, x, hb, ha, hne, .inl ⟨⟨a, b, hpair, .inr hb⟩, a, b, hpair, .inl ha⟩⟩

/-- A monitor that reads what the proxy writes. -/
def monitoredProxy : UserInput where
  functions := ["pktgen", "NetFlow", "proxy"]
  positional := [("pktgen", "first")]
  orderDependencies := []
  priorities := [("NetFlow", "proxy")]
  receiverIp := "13.58.167.87"
  receiverPort := 11000

theorem construct_priority_monitoredProxy :
    ∃ o, Orchestrator.construct actionTableJson monitoredProxy (.ascending 3) = .ok o ∧
      o.Prefers "NetFlow" "proxy" ∧ ¬ o.Prefers "proxy" "NetFlow" := by
  have hpar : isParallelizable actionTableJson "NetFlow" "proxy" = .ok (true, [.DIP, .DPORT]) := by decide
  obtain ⟨o, ho⟩ : ∃ o, Orchestrator.construct actionTableJson monitoredProxy (.ascending 3) = .ok o :=
    construct_total (by unfold Usable; decide) (.of_rank (fun _ => 0) fun _ _ h => nomatch h) (by decide)
  exact ⟨o, ho, (construct_priority_iff ho (by decide) hpar (by decide) (by decide) (by decide)).mpr (by decide)⟩

def twoPayloads : UserInput where
  functions := ["pktgen", "compressor", "CiscoIOS"]
  positional := [("pktgen", "first")]
  orderDependencies := []
  priorities := [("compressor", "CiscoIOS")]
  receiverIp := "13.58.167.87"
  receiverPort := 11000

/-- The user prefers the compressor, the merger also gets the opposite item. -/
theorem construct_priority_inverted :
    ("compressor", "CiscoIOS") ∈ twoPayloads.priorities ∧
      isParallelizable actionTableJson "compressor" "CiscoIOS" = .ok (true, [.PAYLOAD]) ∧
      ("CiscoIOS", "compressor") ∉ twoPayloads.priorities ++ twoPayloads.orderDependencies ∧
      ∃ o, Orchestrator.construct actionTableJson twoPayloads (.ascending 3) = .ok o ∧
        o.mergerInfo.conflictsList =
          [{ major := 2, minor := 1, parent := 0 }, { major := 1, minor := 2, parent := 0 }] ∧
        o.Prefers "compressor" "CiscoIOS" ∧ o.Prefers "CiscoIOS" "compressor" := by
  refine ⟨by decide, by decide, by decide, ?_⟩
  obtain ⟨o, ho, hlist, hfirst, hsecond⟩ := Rounds.exists_ok (P := fun o : Orchestrator =>
      o.mergerInfo.conflictsList =
        [{ major := 2, minor := 1, parent := 0 }, { major := 1, minor := 2, parent := 0 }] ∧
      inxOf o.graph.funcToNodes "compressor" = 1 ∧ inxOf o.graph.funcToNodes "CiscoIOS" = 2)
    (x := Orchestrator.construct actionTableJson twoPayloads (.ascending 3)) (by decide)
  refine ⟨o, ho, hlist, ?_, ?_⟩ <;> rw [Orchestrator.Prefers, hlist, hfirst, hsecond]
  · exact ⟨_, List.mem_cons_of_mem _ (List.mem_cons_self ..), rfl, rfl⟩
  · exact ⟨_, List.mem_cons_self .., rfl, rfl⟩

/-! ### An order dependency that runs in parallel -/

/-- The item of an order dependency prefers the function that comes first: a field that it writes keeps its
value in the merge. That is the value of the sequence if and only if the second function, which gets the
packet of the first one there, leaves the field as it is. -/
theorem construct_sequential_iff (h : Orchestrator.construct actionTable u ly = .ok o) {f1 f2 : String}
    {c : List Field} (hdep : (f1, f2) ∈ u.orderDependencies)
    (hpar : isParallelizable actionTable f1 f2 = .ok (true, c)) (hc : c ≠ []) {row1 row2 : Row}
    {b1 b2 : Behaviour} {p : Packet} (hp1 : (b1.run p).isNull = false) (hp2 : (b2.run p).isNull = false)
    (behind : List UInt8) {F : Field} (hw1 : row1.writes F) :
    o.Prefers f1 f2 ∧ ∀ ci ∈ o.mergerInfo.conflictsList, ci.major = inxOf o.graph.funcToNodes f1 →
      ci.minor = inxOf o.graph.funcToNodes f2 →
      ((resolvePacketConflict behind (b1.info row1 ci.major p) (b2.info row2 ci.minor p) (some ci)).pkt.value F =
          (b2.run (b1.run p)).value F ↔
        (b2.run (b1.run p)).value F = (b1.run p).value F) := by
  have hrec := recorded_of_conflicting (List.mem_append_left _ hdep) hpar hc
  obtain ⟨x, y, ha, hb⟩ := recorded_named h hrec
  refine ⟨(prefers_iff h ha hb).mpr hrec, fun ci _ _ _ => ?_⟩
  have hmajor : F ∈ (b1.info row1 ci.major p).writtenFields := Row.mem_writtenFields.mpr hw1
  have ha : (b1.info row1 ci.major p).pkt.isNull = false := hp1
  have hb : (b2.info row2 ci.minor p).pkt.isNull = false := hp2
  rw [value_resolve ha hb, if_neg fun h => h.2.1 hmajor]
  exact eq_comm

end Items

def stampRow : Row := actionTableJson.row "null" "null" "null" "null" "W" "null" "null"

def stampTable : ActionTable := .ofList [("stampA", stampRow), ("stampB", stampRow)]

def stamp (c : UInt8) : Behaviour := ⟨fun p => p.writePayload [c], fun _ => false⟩

def twoStamps : UserInput where
  functions := ["pktgen", "stampA", "stampB"]
  positional := [("pktgen", "first")]
  orderDependencies := [("stampA", "stampB")]
  priorities := []
  receiverIp := "13.58.167.87"
  receiverPort := 11000

theorem conforms_stamp (c : UInt8) : Conforms stampRow (stamp c) where
  ipId _ := by simp [stamp]
  unmarked p F hF := by
    have : F ≠ .PAYLOAD := by rintro rfl; exact hF (by decide)
    cases F <;> simp_all [stamp, Packet.value, Packet.getSrcIp, Packet.getSrcPort, Packet.getDestIp,
      Packet.getDestPort]
  drop _ h := by cases h
  drop_congr _ _ _ := rfl
  written_congr p q F _ hF := by
    have hpayload : ∀ F, stampRow.writes F → F = .PAYLOAD := by decide
    rw [hpayload F hF]
    exact .inl (by simp only [stamp, Packet.value, Packet.payload, Packet.data_writePayload])

theorem twoStamps_constructed : ∃ o, Orchestrator.construct stampTable twoStamps (.ascending 3) = .ok o ∧
    { major := 1, minor := 2, parent := 0 } ∈ o.mergerInfo.conflictsList ∧
    inxOf o.graph.funcToNodes "stampA" = 1 ∧ inxOf o.graph.funcToNodes "stampB" = 2 :=
  Rounds.exists_ok (by decide)

theorem twoStamps_parallel : isParallelizable stampTable "stampA" "stampB" = .ok (true, [.PAYLOAD]) := by decide

/-- Two stamps with the same text. -/
theorem construct_sequential_twoStamps : ∃ o,
    Orchestrator.construct stampTable twoStamps (.ascending 3) = .ok o ∧
    (resolvePacketConflict [65] ((stamp 97).info stampRow 1 hello) ((stamp 97).info stampRow 2 hello)
      (some { major := 1, minor := 2, parent := 0 })).pkt.value .PAYLOAD =
        ((stamp 97).run ((stamp 97).run hello)).value .PAYLOAD := by
  obtain ⟨o, ho, hci, hmajor, hminor⟩ := twoStamps_constructed
  refine ⟨o, ho, ?_⟩
  exact ((construct_sequential_iff ho (List.mem_singleton.mpr rfl) twoStamps_parallel (by decide) (by decide)
    (by decide) [65] (by decide)).2 _ hci hmajor.symm hminor.symm).mpr (by decide)

/-- The second stamp is lost. -/
theorem construct_sequential_lost :
    ("stampA", "stampB") ∈ twoStamps.orderDependencies ∧
      isParallelizable stampTable "stampA" "stampB" = .ok (true, [.PAYLOAD]) ∧
      stampTable["stampA"]? = some stampRow ∧ stampTable["stampB"]? = some stampRow ∧
      Conforms stampRow (stamp 97) ∧ Conforms stampRow (stamp 98) ∧ stampRow.writes .PAYLOAD ∧
      ¬ stampRow.reads .PAYLOAD ∧
      ((stamp 97).run hello).isNull = false ∧ ((stamp 98).run hello).isNull = false ∧
      ∃ o, Orchestrator.construct stampTable twoStamps (.ascending 3) = .ok o ∧
        { major := 1, minor := 2, parent := 0 } ∈ o.mergerInfo.conflictsList ∧
        inxOf o.graph.funcToNodes "stampA" = 1 ∧ inxOf o.graph.funcToNodes "stampB" = 2 ∧
        (resolvePacketConflict [] ((stamp 97).info stampRow 1 hello) ((stamp 98).info stampRow 2 hello)
          (some { major := 1, minor := 2, parent := 0 })).pkt.value .PAYLOAD = .payload [97] ∧
        ((stamp 98).run ((stamp 97).run hello)).value .PAYLOAD = .payload [98] := by
  obtain ⟨o, ho, hci, hmajor, hminor⟩ := twoStamps_constructed
  exact ⟨by decide, twoStamps_parallel, rfl, rfl, conforms_stamp 97, conforms_stamp 98, by decide,
    by unfold Row.reads; decide, by decide, by decide, o, ho, hci, hmajor, hminor, by decide, by decide⟩

end DeepNF
