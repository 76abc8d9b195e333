import DeepNF.ConflictParents
import DeepNF.LeafSearch

/-!
# Null pointers in the constructor

A name that is not among the functions has no node, and there may be no first node. Phase by phase, this module
says for which user inputs the constructor follows such a pointer. `construct_nullNode_iff`: if all functions in
dependencies and priorities have a row in the action table, these are its only failures, apart from the leaf
search that has no end.
-/

namespace DeepNF
open Std (TreeMap)
open Relation Walks
open Rounds (OkIff)

def Occurs (pairs : List (String × String)) (a : String) : Prop := ∃ d ∈ pairs, d.1 = a ∨ d.2 = a

namespace UserInput
variable (u : UserInput) (actionTable : ActionTable)

def RejectedListed : Prop := ∀ a, Occurs (u.parsedOrder actionTable) a → a ∈ u.functions

/-- What the phases behind the leaf search need. -/
structure Attachable : Prop where
  /-- A null pointer among the priority nodes is not compared with another node. -/
  compared : (∀ a, Occurs (u.parsedPriorities actionTable) a → a ∈ u.functions) ∨
    ∀ a, Occurs (u.parsedPriorities actionTable) a → a ∉ u.functions
  roots : u.hasPositionals → (∃ r, u.OrderRoot actionTable r) → (u.positionNode "first").isSome
  accepted : u.hasPositionals → ∀ a, Occurs (u.parsedPriorities actionTable) a →
    a ∈ u.functions ∧ (u.positionNode "first").isSome
  /-- The conflict list looks up the major of every pair with conflicts. -/
  majors : ∀ a b, (a, b) ∈ u.orderDependencies ++ u.priorities → actionTable.conflicting (a, b) = true →
    a ∈ u.functions

end UserInput

/-! ### The phases -/

section Phases
variable {actionTable : ActionTable} {u : UserInput} {nodes : Nodes}

theorem Nodes.addEdges_okIff (es : List (Option Nat × Option Nat)) (nodes : Nodes) :
    OkIff (Nodes.addEdges es nodes) (∀ e ∈ es, e.1.isSome ∧ e.2.isSome) .nullNode := by
  refine ⟨fun h => Nodes.addEdges_total h nodes, fun h => ?_⟩
  induction es generalizing nodes with
  | nil => exact absurd (by simp) h
  | cons e es ih =>
    obtain ⟨node1, node2⟩ := e
    cases node1 with
    | none => rfl
    | some p =>
      cases node2 with
      | none => rfl
      | some q =>
        refine ih _ fun hes => h ?_
        simpa using hes

theorem attachEdges_isSome_iff {first last : Option Nat} {roots leaves : List Nat} {prios : List (Option Nat)} :
    (∀ e ∈ attachEdges first last roots prios leaves, e.1.isSome ∧ e.2.isSome) ↔
      (∀ r ∈ roots, first.isSome) ∧ ∀ p ∈ prios, first.isSome ∧ p.isSome := by
  refine ⟨fun h => ⟨fun r hr => (h (first, some r) ?_).1, fun p hp => h (first, p) ?_⟩,
    fun h => attachEdges_isSome h.1 h.2⟩
  · exact List.mem_append_left _ (List.mem_append_left _ (List.mem_map.mpr ⟨r, hr, rfl⟩))
  · exact List.mem_append_left _ (List.mem_append_right _ (List.mem_flatMap.mpr ⟨p, hp, List.mem_cons_self ..⟩))

theorem name_okIff (p : Option Nat) : OkIff (nodes.name p) (∃ nf, nodes.name p = .ok nf) .nullNode := by
  refine ⟨id, fun h => ?_⟩
  unfold Nodes.name at h ⊢
  cases hp : p.bind (nodes[·]?) with
  | none => rfl
  | some node => exact absurd ⟨node.nf, by rw [hp]⟩ h

theorem checkPair_okIff (lv : Level) {node1 node2 : Option Nat}
    (hrow : ∀ p, p = node1 ∨ p = node2 → ∀ nf, nodes.name p = .ok nf → nf ∈ actionTable) :
    OkIff (checkPair actionTable nodes lv node1 node2)
      ((∃ nf, nodes.name node1 = .ok nf) ∧ ∃ nf, nodes.name node2 = .ok nf) .nullNode := by
  refine ((name_okIff node1).bind fun nf1 h1 => (name_okIff node2).bind (Q := True) fun nf2 h2 => ?_).congr (by simp)
  obtain ⟨⟨parallel, c⟩, hr⟩ := isParallelizable_total (hrow _ (.inl rfl) nf1 h1) (hrow _ (.inr rfl) nf2 h2)
  simp only [hr, bind, Except.bind]
  cases parallel with
  | true => exact .of_ok rfl trivial
  | false =>
    simp only [Bool.false_eq_true, if_false]
    split <;> exact .of_ok rfl trivial

theorem checkLevel_okIff {level : List (Option Nat)} (pairs : PairMap (List Field))
    (hrow : ∀ p ∈ level, ∀ nf, nodes.name p = .ok nf → nf ∈ actionTable) :
    OkIff (checkLevelParallelizability actionTable nodes level pairs)
      (∀ e ∈ Rounds.pairs level, (∃ nf, nodes.name e.1 = .ok nf) ∧ ∃ nf, nodes.name e.2 = .ok nf) .nullNode := by
  have hpair : ∀ e ∈ Rounds.pairs level, ∀ lv, OkIff (checkPair actionTable nodes lv e.1 e.2)
      ((∃ nf, nodes.name e.1 = .ok nf) ∧ ∃ nf, nodes.name e.2 = .ok nf) .nullNode := by
    rintro ⟨node1, node2⟩ he lv
    obtain ⟨h1, h2, -⟩ := Rounds.mem_pairs.mp he
    refine checkPair_okIff lv fun p hp => hrow p ?_
    rcases hp with rfl | rfl
    exacts [h1, h2]
  exact OkIff.foldlM hpair _

end Phases

section Construct
variable {actionTable : ActionTable} {u : UserInput} {ly : Layout u.functions.length} {parsed : Parsed}
  {nodes : Nodes}

theorem occurs_row (hrow : ∀ d ∈ u.orderDependencies ++ u.priorities, d.1 ∈ actionTable ∧ d.2 ∈ actionTable)
    {a : String} (ha : Occurs (u.parsedOrder actionTable) a ∨ Occurs (u.parsedPriorities actionTable) a) :
    a ∈ actionTable := by
  have hdep : ∀ d ∈ u.orderDependencies ++ u.priorities, d.1 = a ∨ d.2 = a → a ∈ actionTable := by
    rintro d hd (rfl | rfl)
    exacts [(hrow d hd).1, (hrow d hd).2]
  rcases ha with ⟨d, hd, hda⟩ | ⟨d, hd, hda⟩
  · exact hdep d (List.mem_append_left _ (List.mem_filter.mp hd).1) hda
  · exact hdep d (List.mem_filter.mp hd).1 hda

theorem node_isSome_iff {a : String} : (u.node a).isSome ↔ a ∈ u.functions := by
  refine ⟨fun h => ?_, node_isSome⟩
  obtain ⟨x, hx⟩ := Option.isSome_iff_exists.mp h
  exact List.mem_of_getElem? (indexOf_some hx)

theorem parse_exists (hrow : ∀ d ∈ u.orderDependencies ++ u.priorities, d.1 ∈ actionTable ∧ d.2 ∈ actionTable) :
    ∃ parsed₁ parsed, parseOrderDependencies actionTable u.orderDependencies {} = .ok parsed₁ ∧
      parsePriorityDependencies actionTable u.priorities parsed₁ = .ok parsed := by
  have husable : ∀ d ∈ u.orderDependencies ++ u.priorities,
      Usable actionTable ((u.orderDependencies ++ u.priorities).flatMap fun d => [d.1, d.2]) d := by
    intro d hd
    have hmem : ∀ x ∈ [d.1, d.2], x ∈ (u.orderDependencies ++ u.priorities).flatMap fun d => [d.1, d.2] :=
      fun x hx => List.mem_flatMap.mpr ⟨d, hd, hx⟩
    exact ⟨⟨hmem _ (by simp), (hrow d hd).1⟩, hmem _ (by simp), (hrow d hd).2⟩
  obtain ⟨parsed₁, h₁, hl⟩ := parseOrderDependencies_total (p := {})
    (fun d hd => husable d (List.mem_append_left _ hd)) (fun major hm => by simp at hm)
  obtain ⟨parsed, h, -⟩ := parsePriorityDependencies_total (fun d hd => husable d (List.mem_append_right _ hd)) hl
  exact ⟨parsed₁, parsed, h₁, h⟩

theorem orderGraph_okIff
    (hrow : ∀ d ∈ u.orderDependencies ++ u.priorities, d.1 ∈ actionTable ∧ d.2 ∈ actionTable) :
    OkIff (orderGraph actionTable u) (u.RejectedListed actionTable) .nullNode := by
  obtain ⟨parsed₁, parsed, h₁, h⟩ := parse_exists hrow
  simp only [orderGraph, h₁, h, bind, Except.bind]
  have hpairs : (∀ e ∈ nodePairs (indexOf u.functions) parsed.parsedOrder, e.1.isSome ∧ e.2.isSome) ↔
      u.RejectedListed actionTable := by
    rw [(parsed_ok h₁ h).1]
    constructor
    · rintro hsome a ⟨d, hd, rfl | rfl⟩
      · exact node_isSome_iff.mp (hsome _ (List.mem_map.mpr ⟨d, hd, rfl⟩)).1
      · exact node_isSome_iff.mp (hsome _ (List.mem_map.mpr ⟨d, hd, rfl⟩)).2
    · intro hlisted e he
      obtain ⟨d, hd, rfl⟩ := List.mem_map.mp he
      exact ⟨node_isSome_iff.mpr (hlisted _ ⟨d, hd, .inl rfl⟩), node_isSome_iff.mpr (hlisted _ ⟨d, hd, .inr rfl⟩)⟩
  exact (((Nodes.addEdges_okIff _ _).congr hpairs).bind (Q := True) fun _ _ => .of_ok rfl trivial).congr (by simp)

theorem checkTrees_okIff
    (hrow : ∀ d ∈ u.orderDependencies ++ u.priorities, d.1 ∈ actionTable ∧ d.2 ∈ actionTable)
    (hrej : u.RejectedListed actionTable) (h : orderGraph actionTable u = .ok (parsed, nodes)) :
    OkIff (checkTrees ly actionTable nodes (ly.iterate (orderRoots u parsed nodes)) parsed.pairToConflicts)
      (u.SearchEnds actionTable) .endless := by
  obtain ⟨hord, -, hF⟩ := orderGraph_ok h
  have hlt : ∀ {p q}, nodes.Edge p q → q < u.functions.length := fun he => hF.length ▸ hF.mirror.lt he
  have husable : ∀ d ∈ u.parsedOrder actionTable, Usable actionTable u.functions d := fun d hd =>
    ⟨⟨hrej _ ⟨d, hd, .inl rfl⟩, occurs_row hrow (.inl ⟨d, hd, .inl rfl⟩)⟩,
      hrej _ ⟨d, hd, .inr rfl⟩, occurs_row hrow (.inl ⟨d, hd, .inr rfl⟩)⟩
  have hbody : ∀ root ∈ ly.iterate (orderRoots u parsed nodes), ∀ r : Finset Nat × PairMap (List Field),
      OkIff (do
        let leavesForRoot ← nodes.findAllLeaves ly (u.functions.length + 1) root ∅
        let lv ← checkLevelParallelizability actionTable nodes ((ly.iterate leavesForRoot).map some) r.2
        return (r.1 ∪ leavesForRoot, lv.pairToConflicts)) (AcyclicBelow nodes.Edge root) SetupError.endless := by
    intro root hroot r
    have hsearch : OkIff (nodes.findAllLeaves ly (u.functions.length + 1) root ∅) (AcyclicBelow nodes.Edge root)
        .endless := by
      refine ⟨fun hac => Nodes.findAllLeaves_of_acyclicBelow hac (Nat.lt_succ_self _) ∅, fun hac => ?_⟩
      cases hs : nodes.findAllLeaves ly (u.functions.length + 1) root ∅ with
      | error e => rw [Nodes.findAllLeaves_error hs]
      | ok leaves => exact absurd (Nodes.findAllLeaves_acyclicBelow hlt hs) hac
    refine (hsearch.bind (Q := True) fun leaves hs => ?_).congr (and_iff_left trivial)
    have hnamed : ∀ p ∈ (ly.iterate leaves).map some, ∃ nf, nodes.name p = .ok nf ∧ nf ∈ actionTable := by
      intro p hp
      obtain ⟨x, hx, rfl⟩ := List.mem_map.mp hp
      have hbelow := (((Nodes.mem_findAllLeaves hlt hs).1 x).mp (Layout.mem_iterate.mp hx).2).resolve_left
        (Finset.notMem_empty x)
      rw [orderRoots, hord] at hroot
      obtain ⟨a, ha, harow⟩ := hF.exists_row husable hroot hbelow.1
      exact ⟨a, name_some hF.names ha, harow⟩
    have hlevel : ∃ lv, checkLevelParallelizability actionTable nodes ((ly.iterate leaves).map some) r.2 = .ok lv := by
      refine (checkLevel_okIff r.2 fun p hp nf hnf => ?_).ok ?_
      · obtain ⟨nf', hnf', hin⟩ := hnamed p hp
        rwa [Except.ok.inj (hnf.symm.trans hnf')]
      · rintro ⟨node1, node2⟩ he
        obtain ⟨h1, h2, -⟩ := Rounds.mem_pairs.mp he
        exact ⟨(hnamed _ h1).imp fun _ h => h.1, (hnamed _ h2).imp fun _ h => h.1⟩
    obtain ⟨lv, hlv⟩ := hlevel
    exact .of_ok (by rw [hlv]; rfl) trivial
  refine (OkIff.foldlM hbody (∅, parsed.pairToConflicts)).congr ?_
  rw [hF.edge]
  exact forall_congr' fun r => imp_congr (mem_orderRoots ly h) Iff.rfl

theorem mem_priorities {p : Option Nat} :
    p ∈ ly.iterateNull (namedNodes (indexOf u.functions) (u.parsedPriorities actionTable)) ↔
      ∃ a, Occurs (u.parsedPriorities actionTable) a ∧ u.node a = p := by
  rw [mem_priorityNodes]
  constructor
  · rintro ⟨a, b, hab, rfl | rfl⟩
    exacts [⟨a, ⟨_, hab, .inl rfl⟩, rfl⟩, ⟨b, ⟨_, hab, .inr rfl⟩, rfl⟩]
  · rintro ⟨a, ⟨⟨b, c⟩, hd, rfl | rfl⟩, rfl⟩
    exacts [⟨b, c, hd, .inl rfl⟩, ⟨b, c, hd, .inr rfl⟩]

/-- A null pointer among the priority nodes does no harm while it is alone. -/
theorem checkPriorities_okIff
    (hrow : ∀ d ∈ u.orderDependencies ++ u.priorities, d.1 ∈ actionTable ∧ d.2 ∈ actionTable)
    (hF : Forest actionTable u nodes) (pairs : PairMap (List Field)) :
    OkIff (checkLevelParallelizability actionTable nodes
        (ly.iterateNull (namedNodes (indexOf u.functions) (u.parsedPriorities actionTable))) pairs)
      ((∀ a, Occurs (u.parsedPriorities actionTable) a → a ∈ u.functions) ∨
        ∀ a, Occurs (u.parsedPriorities actionTable) a → a ∉ u.functions) .nullNode := by
  have hname : ∀ a, (∃ nf, nodes.name (u.node a) = .ok nf) ↔ a ∈ u.functions := by
    intro a
    rw [← node_isSome_iff]
    cases ha : u.node a with
    | none => simp [Nodes.name]
    | some x => exact iff_of_true ⟨a, name_some hF.names ha⟩ rfl
  refine (checkLevel_okIff pairs fun p hp nf hnf => ?_).congr ⟨fun h => ?_, ?_⟩
  · obtain ⟨a, hocc, rfl⟩ := mem_priorities.mp hp
    obtain ⟨x, hx⟩ := indexOf_mem ((hname a).mp ⟨nf, hnf⟩)
    have hx' : u.node a = some x := hx
    rw [hx', name_some hF.names hx'] at hnf
    exact Except.ok.inj hnf ▸ occurs_row hrow (.inr hocc)
  · refine or_iff_not_imp_left.mpr fun hnot b hb hbin => ?_
    push Not at hnot
    obtain ⟨a, ha, han⟩ := hnot
    have hne : u.node a ≠ u.node b := fun he =>
      han (node_isSome_iff.mp (he ▸ node_isSome_iff.mpr hbin))
    exact han ((hname a).mp (h _ (Rounds.mem_pairs.mpr
      ⟨mem_priorities.mpr ⟨a, ha, rfl⟩, mem_priorities.mpr ⟨b, hb, rfl⟩, hne⟩)).1)
  · rintro hall ⟨node1, node2⟩ he
    obtain ⟨h1, h2, hne⟩ := Rounds.mem_pairs.mp he
    obtain ⟨a, ha, rfl⟩ := mem_priorities.mp h1
    obtain ⟨b, hb, rfl⟩ := mem_priorities.mp h2
    rcases hall with hall | hall
    · exact ⟨(hname a).mpr (hall a ha), (hname b).mpr (hall b hb)⟩
    · have hnone : ∀ c, Occurs (u.parsedPriorities actionTable) c → u.node c = none := fun c hc =>
        Option.not_isSome_iff_eq_none.mp fun hsome => hall c hc (node_isSome_iff.mp hsome)
      exact absurd ((hnone a ha).trans (hnone b hb).symm) hne

theorem attach_okIff (h : orderGraph actionTable u = .ok (parsed, nodes)) (leaves : List Nat) :
    OkIff (if u.hasPositionals then
        Nodes.addEdges (attachEdges (u.positionNode "first") (u.positionNode "last")
          (ly.iterate (orderRoots u parsed nodes))
          (ly.iterateNull (namedNodes (indexOf u.functions) (u.parsedPriorities actionTable))) leaves) nodes
      else .ok nodes)
      ((u.hasPositionals → (∃ r, u.OrderRoot actionTable r) → (u.positionNode "first").isSome) ∧
        (u.hasPositionals → ∀ a, Occurs (u.parsedPriorities actionTable) a →
          a ∈ u.functions ∧ (u.positionNode "first").isSome)) .nullNode := by
  split
  · rename_i hpos
    refine ((Nodes.addEdges_okIff _ _).congr attachEdges_isSome_iff).congr (and_congr ?_ ?_)
    · simp only [hpos, forall_const, mem_orderRoots ly h, forall_exists_index]
    · simp only [hpos, forall_const, mem_priorities, forall_exists_index, and_imp]
      constructor
      · exact fun hall a ha => ⟨node_isSome_iff.mp (hall _ a ha rfl).2, (hall _ a ha rfl).1⟩
      · rintro hall p a ha rfl
        exact ⟨(hall a ha).2, node_isSome_iff.mpr (hall a ha).1⟩
  · rename_i hpos
    exact .of_ok rfl ⟨fun h => absurd h hpos, fun h => absurd h hpos⟩

theorem createConflictsList_okIff {g : ServiceGraph} (h : buildServiceGraph actionTable u ly = .ok g) :
    OkIff (g.createConflictsList ly)
      (∀ a b, (a, b) ∈ u.orderDependencies ++ u.priorities → actionTable.conflicting (a, b) = true →
        a ∈ u.functions) .nullNode := by
  have hA := buildServiceGraph_assembled h
  unfold ServiceGraph.createConflictsList
  refine ((OkIff.mapM (Q := (· ∈ u.functions)) fun major _ => ?_).bind (Q := True) fun lists _ =>
    .of_ok rfl trivial).congr ?_
  · rw [hA.funcToNodes, ← node_isSome_iff, UserInput.node]
    cases (indexOf u.functions)[major]? with
    | none => exact ⟨fun h => absurd h Bool.false_ne_true, fun _ => rfl⟩
    | some p => exact .of_ok rfl rfl
  rw [and_iff_left trivial]
  have hkey : ∀ a, a ∈ ly.outer g.pairToConflicts.keys ↔ ∃ b, u.Recorded actionTable a b := fun a => by
    rw [(ly.outer_perm _).mem_iff, TreeMap.mem_keys, major_iff h]
  simp only [hkey, forall_exists_index]
  constructor
  · exact fun hall a b hdep hc => hall a b (.inl (List.mem_filter.mpr ⟨hdep, hc⟩))
  · rintro hall a b (hdep | ⟨-, x, -, hx, -⟩)
    · exact hall a b (List.mem_filter.mp hdep).1 (List.mem_filter.mp hdep).2
    · exact List.mem_of_getElem? (indexOf_some hx)

theorem buildServiceGraph_eq : buildServiceGraph actionTable u ly = (do
    let (parsed, nodes) ← orderGraph actionTable u
    let (leafNodes, pairs) ← checkTrees ly actionTable nodes (ly.iterate (orderRoots u parsed nodes))
      parsed.pairToConflicts
    let priorityNodes := namedNodes (indexOf u.functions) parsed.parsedPriorities
    let lv ← checkLevelParallelizability actionTable nodes (ly.iterateNull priorityNodes) pairs
    let final ← (if u.hasPositionals then
        Nodes.addEdges (attachEdges (u.positionNode "first") (u.positionNode "last")
          (ly.iterate (orderRoots u parsed nodes)) (ly.iterateNull priorityNodes) (ly.iterate leafNodes)) nodes
      else .ok nodes)
    return { funcToNodes := indexOf u.functions, parsed
             orderTreeNodes := (namedNodes (indexOf u.functions) parsed.parsedOrder).eraseNone
             priorityNodes, rootNodes := orderRoots u parsed nodes, leafNodes
             first := u.positionNode "first", last := u.positionNode "last", nodes := final
             pairToConflicts := lv.pairToConflicts }) := by
  simp only [orderGraph, bind_assoc, pure_bind]
  rfl

section Behind
variable (hrow : ∀ d ∈ u.orderDependencies ++ u.priorities, d.1 ∈ actionTable ∧ d.2 ∈ actionTable)
  (hrej : u.RejectedListed actionTable) (hends : u.SearchEnds actionTable)
include hrow hrej hends

theorem buildServiceGraph_okIff : OkIff (buildServiceGraph actionTable u ly)
    (((∀ a, Occurs (u.parsedPriorities actionTable) a → a ∈ u.functions) ∨
        ∀ a, Occurs (u.parsedPriorities actionTable) a → a ∉ u.functions) ∧
      (u.hasPositionals → (∃ r, u.OrderRoot actionTable r) → (u.positionNode "first").isSome) ∧
        (u.hasPositionals → ∀ a, Occurs (u.parsedPriorities actionTable) a →
          a ∈ u.functions ∧ (u.positionNode "first").isSome)) .nullNode := by
  obtain ⟨⟨parsed, nodes⟩, hgraph⟩ := (orderGraph_okIff hrow).ok hrej
  obtain ⟨-, hprio, hF⟩ := orderGraph_ok hgraph
  obtain ⟨⟨leafNodes, pairs⟩, htrees⟩ : ∃ r, checkTrees ly actionTable nodes
      (ly.iterate (orderRoots u parsed nodes)) parsed.pairToConflicts = .ok r :=
    (checkTrees_okIff hrow hrej hgraph).ok hends
  rw [buildServiceGraph_eq, hgraph]
  show OkIff (checkTrees .. >>= _) _ _
  rw [htrees]
  show OkIff (checkLevelParallelizability .. >>= _) _ _
  rw [hprio]
  exact (checkPriorities_okIff hrow hF pairs).bind fun lv _ =>
    ((attach_okIff hgraph (ly.iterate leafNodes)).bind (Q := True) fun final _ => .of_ok rfl trivial).congr
      (and_iff_left trivial)

theorem construct_okIff : OkIff (Orchestrator.construct actionTable u ly) (u.Attachable actionTable) .nullNode := by
  refine ((buildServiceGraph_okIff hrow hrej hends).bind fun g hg =>
    ((createConflictsList_okIff hg).bind (Q := True) fun conflictsList _ => .of_ok rfl trivial).congr
      (and_iff_left trivial)).congr ⟨?_, fun h => ⟨⟨h.compared, h.roots, h.accepted⟩, h.majors⟩⟩
  rintro ⟨⟨hcompared, hroots, haccepted⟩, hmajors⟩
  exact ⟨hcompared, hroots, haccepted, hmajors⟩

end Behind

/-- The constructor follows no null pointer if and only if the rejected pairs are listed and, should it come so far,
the roots and the accepted pairs can be attached. It ends if moreover the leaf search does. -/
theorem construct_nullNode_iff (ly : Layout u.functions.length)
    (hrow : ∀ d ∈ u.orderDependencies ++ u.priorities, d.1 ∈ actionTable ∧ d.2 ∈ actionTable) :
    (Orchestrator.construct actionTable u ly ≠ .error .nullNode ↔
      u.RejectedListed actionTable ∧ (u.SearchEnds actionTable → u.Attachable actionTable)) ∧
    ((∃ o, Orchestrator.construct actionTable u ly = .ok o) ↔
      u.RejectedListed actionTable ∧ u.SearchEnds actionTable ∧ u.Attachable actionTable) := by
  by_cases hrej : u.RejectedListed actionTable
  · by_cases hends : u.SearchEnds actionTable
    · have hok : OkIff (Orchestrator.construct actionTable u ly) (u.Attachable actionTable) .nullNode :=
        construct_okIff hrow hrej hends
      refine ⟨?_, ?_⟩
      · by_cases hatt : u.Attachable actionTable
        · obtain ⟨o, ho⟩ := hok.ok hatt
          simp [ho, hrej, hatt]
        · simp [hok.error hatt, hends, hatt]
      · rw [hok.exists_ok_iff]
        simp [hrej, hends]
    · obtain ⟨⟨parsed, nodes⟩, hgraph⟩ := (orderGraph_okIff hrow).ok hrej
      have hendless : Orchestrator.construct actionTable u ly = .error .endless := by
        rw [Orchestrator.construct, buildServiceGraph_eq, hgraph]
        show (checkTrees .. >>= _) >>= _ = _
        rw [(checkTrees_okIff hrow hrej hgraph).error hends]
        rfl
      simp [hendless, hrej, hends]
  · have hnull : Orchestrator.construct actionTable u ly = .error .nullNode := by
      rw [Orchestrator.construct, buildServiceGraph_eq, (orderGraph_okIff hrow).error hrej]
      rfl
    simp [hnull, hrej]

end Construct

theorem construct_nullNode_complex :
    Orchestrator.construct actionTableJson inputComplexJson (.ascending 5) ≠ .error .nullNode := by
  have hlisted : ∀ d ∈ inputComplexJson.orderDependencies ++ inputComplexJson.priorities,
      d.1 ∈ inputComplexJson.functions ∧ d.2 ∈ inputComplexJson.functions := by decide
  have hfirst : (inputComplexJson.positionNode "first").isSome := by decide
  have hocc : ∀ {pairs : List (String × String)} {a : String},
      (∀ d ∈ pairs, d ∈ inputComplexJson.orderDependencies ++ inputComplexJson.priorities) → Occurs pairs a →
        a ∈ inputComplexJson.functions := by
    rintro pairs a hsub ⟨d, hd, rfl | rfl⟩
    exacts [(hlisted d (hsub d hd)).1, (hlisted d (hsub d hd)).2]
  have hprio : ∀ a, Occurs (inputComplexJson.parsedPriorities actionTableJson) a → a ∈ inputComplexJson.functions :=
    fun a => hocc fun d hd => (List.mem_filter.mp hd).1
  refine (construct_nullNode_iff (u := inputComplexJson) (.ascending 5) (by decide)).1.mpr
    ⟨fun a => hocc ?_, fun _ => ?_⟩
  · exact fun d hd => List.mem_append_left _ (List.mem_filter.mp hd).1
  · exact ⟨.inl hprio, fun _ _ => hfirst, fun _ a ha => ⟨hprio a ha, hfirst⟩, fun a b hd _ => (hlisted _ hd).1⟩

/-- A proxy at the end and nothing at the beginning. -/
def lastOnly : UserInput where
  functions := ["dnf_loadbalancer", "proxy"]
  positional := [("proxy", "last")]
  orderDependencies := [("dnf_loadbalancer", "proxy")]
  priorities := []
  receiverIp := "13.58.167.87"
  receiverPort := 11000

/-- The load balancer is attached to a first node that is null. -/
theorem construct_nullNode_lastOnly :
    (∀ d ∈ lastOnly.orderDependencies ++ lastOnly.priorities, d.1 ∈ actionTableJson ∧ d.2 ∈ actionTableJson) ∧
      ∀ ly, Orchestrator.construct actionTableJson lastOnly ly = .error .nullNode := by
  have hrow : ∀ d ∈ lastOnly.orderDependencies ++ lastOnly.priorities,
      d.1 ∈ actionTableJson ∧ d.2 ∈ actionTableJson := by decide
  have horder : lastOnly.parsedOrder actionTableJson = [("dnf_loadbalancer", "proxy")] := by decide
  have hrej : lastOnly.RejectedListed actionTableJson := by
    rintro a ⟨d, hd, ha⟩
    rw [horder, List.mem_singleton] at hd
    subst hd
    rcases ha with rfl | rfl <;> simp [lastOnly]
  have hroot : lastOnly.OrderRoot actionTableJson 0 := by
    refine ⟨⟨1, "dnf_loadbalancer", "proxy", ?_, by decide, by decide⟩, ?_⟩
    · rw [horder]
      exact List.mem_singleton.mpr rfl
    · rintro y ⟨a, b, hab, -, hb⟩
      rw [horder, List.mem_singleton] at hab
      cases hab
      exact absurd hb (by decide)
  refine ⟨hrow, fun ly => (construct_okIff hrow hrej ?_).error fun h => ?_⟩
  · exact searchEnds_of_acyclic (acyclic_of_listed (by decide))
  · exact absurd (h.roots rfl ⟨0, hroot⟩) (by decide)

end DeepNF
