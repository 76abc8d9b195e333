import DeepNF.ConstructSpec

/-!
# The constructor comes to an end

For acyclic order dependencies between listed functions that all have a row in the action table, and a first
function if something is to be attached, the constructor meets no null pointer and no missing row, and its
leaf search ends (`construct_total`).
-/

namespace DeepNF
open Std (TreeMap)
open Relation Walks

section Parallel
variable {actionTable : ActionTable} {a b : String}

theorem isParallelizable_total (ha : a ∈ actionTable) (hb : b ∈ actionTable) :
    ∃ r, isParallelizable actionTable a b = .ok r := by
  obtain ⟨row1, h1⟩ := TreeMaps.exists_getElem? ha
  obtain ⟨row2, h2⟩ := TreeMaps.exists_getElem? hb
  exact ⟨_, by simp only [isParallelizable, ActionTable.row, h1, h2, bind, Except.bind]; rfl⟩

/-- The majors of the recorded conflicts are listed functions. -/
def Listed (functions : List String) (pairs : PairMap (List Field)) : Prop := ∀ major ∈ pairs, major ∈ functions

theorem Listed.set {functions : List String} {pairs : PairMap (List Field)} (h : Listed functions pairs)
    (ha : a ∈ functions) (c : List Field) : Listed functions (pairs.set a b c) := by
  intro major hm
  rw [PairMap.set, TreeMap.mem_insert, Std.LawfulEqOrd.compare_eq_iff_eq] at hm
  rcases hm with rfl | hm
  exacts [ha, h major hm]

theorem Listed.accept {functions : List String} {p : Parsed} (h : Listed functions p.pairToConflicts)
    (ha : a ∈ functions) (c : List Field) : Listed functions (p.accept a b c).pairToConflicts := by
  unfold Parsed.accept
  dsimp only
  split
  exacts [h.set ha c, h]

end Parallel

section Total
variable {actionTable : ActionTable} {functions : List String}

def Usable (actionTable : ActionTable) (functions : List String) (d : String × String) : Prop :=
  (d.1 ∈ functions ∧ d.1 ∈ actionTable) ∧ d.2 ∈ functions ∧ d.2 ∈ actionTable

theorem parse_total {f : Parsed → String × String → Except SetupError Parsed}
    (hf : ∀ p f1 f2 parallel c, isParallelizable actionTable f1 f2 = .ok (parallel, c) → ∃ p', f p (f1, f2) = .ok p' ∧
      p'.pairToConflicts = if parallel then (p.accept f1 f2 c).pairToConflicts else p.pairToConflicts)
    {deps : List (String × String)} (hd : ∀ d ∈ deps, Usable actionTable functions d) {p : Parsed}
    (hp : Listed functions p.pairToConflicts) :
    ∃ p', deps.foldlM f p = .ok p' ∧ Listed functions p'.pairToConflicts := by
  refine Rounds.foldlM_total (P := fun p : Parsed => Listed functions p.pairToConflicts) ?_ hp
  rintro ⟨f1, f2⟩ hmem p hp
  obtain ⟨h1, h2⟩ := hd _ hmem
  obtain ⟨⟨parallel, c⟩, hr⟩ := isParallelizable_total h1.2 h2.2
  obtain ⟨p', hp', hpairs⟩ := hf p f1 f2 parallel c hr
  refine ⟨p', hp', ?_⟩
  rw [hpairs]
  cases parallel
  exacts [hp, hp.accept h1.1 c]

theorem parseOrderDependencies_total {deps : List (String × String)}
    (hd : ∀ d ∈ deps, Usable actionTable functions d) {p : Parsed} (hp : Listed functions p.pairToConflicts) :
    ∃ p', parseOrderDependencies actionTable deps p = .ok p' ∧ Listed functions p'.pairToConflicts := by
  refine parse_total (fun p f1 f2 parallel c hr => ?_) hd hp
  simp only [hr, bind, Except.bind]
  cases parallel <;> exact ⟨_, rfl, rfl⟩

theorem parsePriorityDependencies_total {deps : List (String × String)}
    (hd : ∀ d ∈ deps, Usable actionTable functions d) {p : Parsed} (hp : Listed functions p.pairToConflicts) :
    ∃ p', parsePriorityDependencies actionTable deps p = .ok p' ∧ Listed functions p'.pairToConflicts := by
  refine parse_total (fun p f1 f2 parallel c hr => ?_) hd hp
  simp only [hr, bind, Except.bind]
  cases parallel <;> exact ⟨_, rfl, rfl⟩

def LevelUsable (actionTable : ActionTable) (functions : List String) (nodes : Nodes)
    (level : List (Option Nat)) : Prop :=
  ∀ p ∈ level, ∃ a, nodes.name p = .ok a ∧ a ∈ functions ∧ a ∈ actionTable

theorem checkLevel_total {nodes : Nodes} {level : List (Option Nat)} {pairs : PairMap (List Field)}
    (hl : LevelUsable actionTable functions nodes level) (hp : Listed functions pairs) :
    ∃ lv, checkLevelParallelizability actionTable nodes level pairs = .ok lv ∧
      Listed functions lv.pairToConflicts := by
  refine Rounds.foldlM_total (P := fun lv : Level => Listed functions lv.pairToConflicts) ?_ hp
  rintro ⟨node1, node2⟩ hmem lv hlv
  obtain ⟨n1, hn1, hn2⟩ := List.mem_flatMap.mp hmem
  obtain ⟨n2, hn2, heq⟩ := List.mem_map.mp hn2
  cases heq
  obtain ⟨nf1, hnf1, hf1, ht1⟩ := hl node1 hn1
  obtain ⟨nf2, hnf2, -, ht2⟩ := hl node2 (List.mem_filter.mp hn2).1
  obtain ⟨⟨parallel, c⟩, hr⟩ := isParallelizable_total ht1 ht2
  simp only [checkPair, hnf1, hnf2, hr, bind, Except.bind]
  cases parallel with
  | true => exact ⟨_, rfl, hlv.set hf1 c⟩
  | false =>
    simp only [Bool.false_eq_true, if_false]
    split <;> exact ⟨_, rfl, hlv⟩

theorem checkTrees_total {n : Nat} {ly : Layout n} {nodes : Nodes} {roots : List Nat}
    {pairs : PairMap (List Field)}
    (hn : nodes.length = n) (hm : nodes.Mirror) (hac : Acyclic nodes.Edge)
    (hl : ∀ root ∈ roots, ∀ x, ReflTransGen nodes.Edge root x →
      LevelUsable actionTable functions nodes [some x])
    (hp : Listed functions pairs) :
    ∃ r, checkTrees ly actionTable nodes roots pairs = .ok r ∧ Listed functions r.2 := by
  classical
  refine Rounds.foldlM_total (P := fun r : Finset Nat × PairMap (List Field) => Listed functions r.2) ?_ hp
  rintro root hroot ⟨leaves, pairs⟩ hp
  have hfuel : ((Finset.range n).filter (TransGen nodes.Edge root)).card < n + 1 := by
    have := Finset.card_filter_le (Finset.range n) (TransGen nodes.Edge root)
    rw [Finset.card_range] at this
    omega
  have hsearch : ∃ new, nodes.findAllLeaves ly (n + 1) root ∅ = .ok new := Nodes.findAllLeaves_total hac hfuel ∅
  obtain ⟨new, hnew⟩ := hsearch
  obtain ⟨hmem, -⟩ := Nodes.findAllLeaves_ok hn hm hnew
  have hlevel : LevelUsable actionTable functions nodes ((ly.iterate new).map some) := by
    intro p hp
    obtain ⟨x, hx, rfl⟩ := List.mem_map.mp hp
    have hx := ((hmem x).mp (Layout.mem_iterate.mp hx).2).resolve_left (Finset.notMem_empty x)
    exact hl root hroot x hx.1 _ (List.mem_singleton.mpr rfl)
  obtain ⟨lv, hlv, hlist⟩ := checkLevel_total hlevel hp
  exact ⟨_, by simp only [hnew, hlv, bind, Except.bind]; rfl, hlist⟩

end Total

section Construct
variable {actionTable : ActionTable} {u : UserInput} {ly : Layout u.functions.length}

theorem createConflictsList_total {g : ServiceGraph} (hfun : g.funcToNodes = indexOf u.functions)
    (hl : Listed u.functions g.pairToConflicts) : ∃ l, g.createConflictsList ly = .ok l ∧ True := by
  refine Rounds.bind_total (P := fun _ => True) ?_ fun lists _ _ => ⟨_, rfl, trivial⟩
  refine (Rounds.mapM_total fun major hm => ?_).imp fun lists h => ⟨h, trivial⟩
  have hkey : major ∈ g.pairToConflicts := TreeMap.mem_keys.mp ((ly.outer_perm _).mem_iff.mp hm)
  obtain ⟨p, hp⟩ := indexOf_mem (hl major hkey)
  rw [hfun, hp]
  exact ⟨_, rfl⟩

theorem attachEdges_isSome {first last : Option Nat} {roots leaves : List Nat} {prios : List (Option Nat)}
    (hroots : ∀ r ∈ roots, first.isSome) (hprios : ∀ p ∈ prios, first.isSome ∧ p.isSome) :
    ∀ e ∈ attachEdges first last roots prios leaves, e.1.isSome ∧ e.2.isSome := by
  intro e he
  simp only [attachEdges, List.mem_append, List.mem_map, List.mem_flatMap, List.mem_cons] at he
  rcases he with (⟨r, hr, rfl⟩ | ⟨p, hp, rfl | he⟩) | he
  · exact ⟨hroots r hr, rfl⟩
  · exact hprios p hp
  · split at he
    · rename_i hlast
      obtain rfl := List.mem_singleton.mp he
      exact ⟨(hprios p hp).2, hlast⟩
    · cases he
  · split at he
    · rename_i hlast
      obtain ⟨l, -, rfl⟩ := List.mem_map.mp he
      exact ⟨rfl, hlast⟩
    · cases he

theorem node_isSome {a : String} (ha : a ∈ u.functions) : (u.node a).isSome :=
  Option.isSome_iff_exists.mpr (indexOf_mem ha)

theorem name_some {nodes : Nodes} (hnames : nodes.map (·.nf) = u.functions) {a : String} {x : Nat}
    (ha : u.node a = some x) : nodes.name (some x) = .ok a := by
  have h := indexOf_some ha
  rw [← hnames, List.getElem?_map, Option.map_eq_some_iff] at h
  obtain ⟨node, hn, rfl⟩ := h
  rw [Nodes.name, Option.bind_some, hn]

theorem Forest.exists_row {nodes : Nodes} (hF : Forest actionTable u nodes)
    (horder : ∀ d ∈ u.parsedOrder actionTable, Usable actionTable u.functions d) {root x : Nat}
    (hroot : root ∈ ly.iterate ((namedNodes (indexOf u.functions) (u.parsedOrder actionTable)).eraseNone.filter
      (fun node => nodes.isRoot node = true))) (hx : ReflTransGen nodes.Edge root x) :
    ∃ a, u.node a = some x ∧ a ∈ actionTable := by
  rcases ReflTransGen.cases_tail hx with rfl | ⟨y, -, he⟩
  · obtain ⟨⟨y, a, b, hab, ha, -⟩, -⟩ := hF.mem_roots.mp hroot
    exact ⟨a, ha, (horder _ hab).1.2⟩
  · rw [hF.edge] at he
    obtain ⟨a, b, hab, -, hb⟩ := he
    exact ⟨b, hb, (horder _ hab).2.2⟩

theorem exists_row_of_priority (hprio : ∀ d ∈ u.parsedPriorities actionTable, Usable actionTable u.functions d)
    {p : Option Nat}
    (hp : p ∈ ly.iterateNull (namedNodes (indexOf u.functions) (u.parsedPriorities actionTable))) :
    ∃ x, p = some x ∧ ∃ a, u.node a = some x ∧ a ∈ actionTable := by
  have hrow : ∀ {a : String}, a ∈ u.functions ∧ a ∈ actionTable → ∃ x, u.node a = some x ∧
      ∃ a, u.node a = some x ∧ a ∈ actionTable := fun {a} h => by
    obtain ⟨x, hx⟩ := Option.isSome_iff_exists.mp (node_isSome h.1)
    exact ⟨x, hx, a, hx, h.2⟩
  obtain ⟨a, b, hab, rfl | rfl⟩ := mem_priorityNodes.mp hp
  exacts [hrow (hprio _ hab).1, hrow (hprio _ hab).2]

theorem buildServiceGraph_total
    (hd : ∀ d ∈ u.orderDependencies ++ u.priorities, Usable actionTable u.functions d)
    (hac : Acyclic fun a b => (a, b) ∈ u.orderDependencies)
    (hfirst : u.hasPositionals → (u.positionNode "first").isSome) :
    ∃ g, buildServiceGraph actionTable u ly = .ok g ∧ Listed u.functions g.pairToConflicts := by
  have horder : ∀ d ∈ u.parsedOrder actionTable, Usable actionTable u.functions d := fun d hm =>
    hd d (List.mem_append_left _ (List.mem_filter.mp hm).1)
  have hprio : ∀ d ∈ u.parsedPriorities actionTable, Usable actionTable u.functions d := fun d hm =>
    hd d (List.mem_filter.mp hm).1
  refine Rounds.bind_total (parseOrderDependencies_total (fun d hm => hd d (List.mem_append_left _ hm))
    (fun major hm => by simp at hm)) fun parsed₁ hp₁ hl₁ => ?_
  refine Rounds.bind_total (parsePriorityDependencies_total (fun d hm => hd d (List.mem_append_right _ hm)) hl₁)
    fun parsed hp hl => ?_
  obtain ⟨hord, hpri⟩ := parsed_ok hp₁ hp
  dsimp only
  rw [hord, hpri]
  refine Rounds.bind_total (P := Forest actionTable u) ?_ fun nodes hnodes hF => ?_
  · have hsome : ∀ e ∈ nodePairs (indexOf u.functions) (u.parsedOrder actionTable),
        e.1.isSome ∧ e.2.isSome := by
      intro e he
      obtain ⟨d, hm, rfl⟩ := List.mem_map.mp he
      exact ⟨node_isSome (horder d hm).1.1, node_isSome (horder d hm).2.1⟩
    obtain ⟨nodes, hnodes⟩ := Nodes.addEdges_total hsome (u.functions.map fun f => { nf := f })
    exact ⟨nodes, hnodes, forest_ok hnodes⟩
  have hacyc : Acyclic nodes.Edge := hF.edge ▸ parts_acyclic (f := 0) hac
  have husable : ∀ {a x}, u.node a = some x → a ∈ actionTable →
      LevelUsable actionTable u.functions nodes [some x] := fun ha hrow p hp => by
    obtain rfl := List.mem_singleton.mp hp
    exact ⟨_, name_some hF.names ha, List.mem_of_getElem? (indexOf_some ha), hrow⟩
  refine Rounds.bind_total (checkTrees_total hF.length hF.mirror hacyc (fun root hroot x hx => ?_) hl)
    fun ⟨leafNodes, pairs⟩ htrees hl' => ?_
  · obtain ⟨a, ha, hrow⟩ := hF.exists_row horder hroot hx
    exact husable ha hrow
  refine Rounds.bind_total (checkLevel_total (fun p hp => ?_) hl') fun lv hlv hl'' => ?_
  · obtain ⟨x, rfl, a, ha, hrow⟩ := exists_row_of_priority hprio hp
    exact husable ha hrow _ (List.mem_singleton.mpr rfl)
  refine Rounds.bind_total (P := fun _ => True) ?_ fun nodes' _ _ => ⟨_, rfl, hl''⟩
  split
  · rename_i hpos
    refine (Nodes.addEdges_total (attachEdges_isSome (fun _ _ => hfirst hpos) fun p hp => ?_) nodes).imp fun _ h =>
      ⟨h, trivial⟩
    obtain ⟨x, rfl, -⟩ := exists_row_of_priority hprio hp
    exact ⟨hfirst hpos, rfl⟩
  · exact ⟨nodes, rfl, trivial⟩

/-- The constructor comes to an end. -/
theorem construct_total (hd : ∀ d ∈ u.orderDependencies ++ u.priorities, Usable actionTable u.functions d)
    (hac : Acyclic fun a b => (a, b) ∈ u.orderDependencies)
    (hfirst : u.hasPositionals → (u.positionNode "first").isSome) :
    ∃ o, Orchestrator.construct actionTable u ly = .ok o := by
  obtain ⟨o, ho, -⟩ : ∃ o, Orchestrator.construct actionTable u ly = .ok o ∧ True :=
    Rounds.bind_total (buildServiceGraph_total hd hac hfirst) fun g hg hl =>
      Rounds.bind_total (createConflictsList_total (buildServiceGraph_assembled hg).funcToNodes hl)
        fun l _ _ => ⟨_, rfl, trivial⟩
  exact ⟨o, ho⟩

end Construct
end DeepNF
