import DeepNF.Attach
import DeepNF.Orchestrator
import DeepNF.TreeMaps

/-!
# What the constructor builds

`UserInput.parts` says in terms of the input what the service graph is assembled from: the order
dependencies that cannot run in parallel, the functions that an accepted pair names, the first and the
last function. `buildServiceGraph_assembled`: if the constructor comes to an end, its graph has exactly
the edges that `Attach.Parts.Edge` describes for these parts, or only the order edges if nothing is to be
attached.
-/

namespace DeepNF
open Std (TreeMap)
open Relation Walks

/-! ### The parsed dependencies -/

/-- `isParallelizable` refuses the pair: its order has to be kept. -/
def ActionTable.rejects (actionTable : ActionTable) (x : String × String) : Bool :=
  match isParallelizable actionTable x.1 x.2 with
  | .ok (parallel, _) => !parallel
  | .error _ => false

def ActionTable.accepts (actionTable : ActionTable) (x : String × String) : Bool :=
  match isParallelizable actionTable x.1 x.2 with
  | .ok (parallel, _) => parallel
  | .error _ => false

section Parse
variable {actionTable : ActionTable} {deps : List (String × String)} {p p' : Parsed}

theorem parseOrderDependencies_ok (h : parseOrderDependencies actionTable deps p = .ok p') :
    p'.parsedOrder = p.parsedOrder ++ deps.filter actionTable.rejects ∧
      p'.parsedPriorities = p.parsedPriorities ++ deps.filter actionTable.accepts := by
  refine Rounds.foldlM_induction (P := fun done q =>
    q.parsedOrder = p.parsedOrder ++ done.filter actionTable.rejects ∧
      q.parsedPriorities = p.parsedPriorities ++ done.filter actionTable.accepts) ?_ (by simp) h
  rintro done ⟨f1, f2⟩ q q' _ ⟨ho, hp⟩ hf
  obtain ⟨⟨parallel, conflicts⟩, hpar, hf⟩ := Rounds.bind_ok hf
  have hrej : actionTable.rejects (f1, f2) = !parallel := by simp [ActionTable.rejects, hpar]
  have hacc : actionTable.accepts (f1, f2) = parallel := by simp [ActionTable.accepts, hpar]
  cases parallel <;> cases hf <;> simp [List.filter_append, hrej, hacc, ho, hp, Parsed.accept]

theorem parsePriorityDependencies_ok (h : parsePriorityDependencies actionTable deps p = .ok p') :
    p'.parsedOrder = p.parsedOrder ∧
      p'.parsedPriorities = p.parsedPriorities ++ deps.filter actionTable.accepts := by
  refine Rounds.foldlM_induction (P := fun done q => q.parsedOrder = p.parsedOrder ∧
    q.parsedPriorities = p.parsedPriorities ++ done.filter actionTable.accepts) ?_ (by simp) h
  rintro done ⟨f1, f2⟩ q q' _ ⟨ho, hp⟩ hf
  obtain ⟨⟨parallel, conflicts⟩, hpar, hf⟩ := Rounds.bind_ok hf
  have hacc : actionTable.accepts (f1, f2) = parallel := by simp [ActionTable.accepts, hpar]
  cases parallel <;> cases hf <;> simp [List.filter_append, hacc, ho, hp, Parsed.accept]

end Parse

/-! ### The indices of the functions -/

theorem indexOf_some {functions : List String} {name : String} {i : Nat}
    (h : (indexOf functions)[name]? = some i) : functions[i]? = some name := by
  have key : ∀ (l : List (String × Nat)) (t : TreeMap String Nat),
      (l.foldl (fun t x => t.insert x.1 x.2) t)[name]? = some i → (name, i) ∈ l ∨ t[name]? = some i := by
    intro l
    induction l with
    | nil => intro t h; exact .inr h
    | cons x l ih =>
      intro t h
      rcases ih _ h with h | h
      · exact .inl (List.mem_cons_of_mem _ h)
      · rw [TreeMap.getElem?_insert] at h
        split at h
        · rename_i hx
          cases h
          rw [Std.LawfulEqOrd.compare_eq_iff_eq] at hx
          exact .inl (by rw [← hx]; exact List.mem_cons_self ..)
        · exact .inr h
  rcases key _ _ h with h | h
  · rwa [List.mem_zipIdx_iff_getElem?] at h
  · simp at h

theorem indexOf_lt {functions : List String} {name : String} {i : Nat}
    (h : (indexOf functions)[name]? = some i) : i < functions.length :=
  (List.getElem?_eq_some_iff.mp (indexOf_some h)).1

theorem indexOf_inj {functions : List String} {a b : String} {i : Nat}
    (ha : (indexOf functions)[a]? = some i) (hb : (indexOf functions)[b]? = some i) : a = b := by
  have := (indexOf_some ha).symm.trans (indexOf_some hb)
  exact Option.some.inj this

theorem indexOf_mem {functions : List String} {name : String} (h : name ∈ functions) :
    ∃ i, (indexOf functions)[name]? = some i := by
  have key : ∀ (l : List (String × Nat)) (t : TreeMap String Nat), (∃ i, (name, i) ∈ l) ∨ name ∈ t →
      name ∈ l.foldl (fun t x => t.insert x.1 x.2) t := by
    intro l
    induction l with
    | nil => rintro t (⟨i, h⟩ | h); exacts [absurd h List.not_mem_nil, h]
    | cons x l ih =>
      rintro t (⟨i, h⟩ | h)
      · rcases List.mem_cons.mp h with rfl | h
        · exact ih _ (.inr (by simp))
        · exact ih _ (.inl ⟨i, h⟩)
      · exact ih _ (.inr (by simp [h]))
  obtain ⟨i, hi⟩ := List.mem_iff_getElem?.mp h
  have hmem : (name, i) ∈ functions.zipIdx := by rw [List.mem_zipIdx_iff_getElem?]; exact hi
  exact TreeMaps.exists_getElem? (key _ ∅ (.inl ⟨i, hmem⟩))

theorem indexOf_nodup {functions : List String} (hnd : functions.Nodup) {name : String} {i : Nat} :
    (indexOf functions)[name]? = some i ↔ functions[i]? = some name := by
  refine ⟨indexOf_some, fun h => ?_⟩
  obtain ⟨j, hj⟩ := indexOf_mem (List.mem_of_getElem? h)
  have hi := (List.getElem?_eq_some_iff.mp h).1
  rw [hj, (List.getElem?_inj hi hnd).mp (h.trans (indexOf_some hj).symm)]

/-! ### The parts -/

namespace UserInput
variable (u : UserInput) (actionTable : ActionTable)

def parsedOrder : List (String × String) := u.orderDependencies.filter actionTable.rejects

def parsedPriorities : List (String × String) :=
  (u.orderDependencies ++ u.priorities).filter actionTable.accepts

def node (function : String) : Option Nat := (indexOf u.functions)[function]?

/-- An edge of the forest of order dependencies. -/
def Order (x y : Nat) : Prop :=
  ∃ a b, (a, b) ∈ u.parsedOrder actionTable ∧ u.node a = some x ∧ u.node b = some y

/-- The node belongs to a function in an accepted pair. -/
def Free (x : Nat) : Prop :=
  ∃ a b, (a, b) ∈ u.parsedPriorities actionTable ∧ (u.node a = some x ∨ u.node b = some x)

def positionNode (position : String) : Option Nat := positionalNode (indexOf u.functions) u.positional position

def parts (first : Nat) : Attach.Parts Nat where
  Order := u.Order actionTable
  free := {x | u.Free actionTable x}
  leaves := {x | ∃ r, (∃ y, u.Order actionTable r y) ∧ (∀ y, ¬ u.Order actionTable y r) ∧
    ReflTransGen (u.Order actionTable) r x ∧ ∀ y, ¬ u.Order actionTable x y}
  first := first
  last := u.positionNode "last"

end UserInput

section Parts
variable {u : UserInput} {actionTable : ActionTable} {f x y : Nat}

theorem mem_nodePairs : (some x, some y) ∈ nodePairs (indexOf u.functions) (u.parsedOrder actionTable) ↔
    u.Order actionTable x y := by
  simp only [nodePairs, List.mem_map, Prod.mk.injEq, UserInput.Order, UserInput.node, Prod.exists]

theorem mem_namedNodes {pairs : List (String × String)} {p : Option Nat} :
    p ∈ namedNodes (indexOf u.functions) pairs ↔ ∃ a b, (a, b) ∈ pairs ∧ (u.node a = p ∨ u.node b = p) := by
  simp only [namedNodes, nodePairs, List.mem_toFinset, List.mem_flatMap, List.mem_map, Prod.exists,
    List.mem_cons, List.not_mem_nil, or_false, UserInput.node]
  constructor
  · rintro ⟨_, _, ⟨a, b, hab, heq⟩, hp⟩
    cases heq
    exact ⟨a, b, hab, hp.imp Eq.symm Eq.symm⟩
  · rintro ⟨a, b, hab, hp⟩
    exact ⟨_, _, ⟨a, b, hab, rfl⟩, hp.imp Eq.symm Eq.symm⟩

theorem UserInput.Order.lt (h : u.Order actionTable x y) : x < u.functions.length ∧ y < u.functions.length := by
  obtain ⟨a, b, -, ha, hb⟩ := h
  exact ⟨indexOf_lt ha, indexOf_lt hb⟩

theorem parts_finite : {x | (u.parts actionTable f).Inner x}.Finite := by
  refine (Set.finite_lt_nat u.functions.length).subset fun x hx => ?_
  rcases hx with ⟨y, h | h⟩
  exacts [h.lt.1, h.lt.2]

theorem parts_root : (u.parts actionTable f).Root x ↔
    (∃ y, u.Order actionTable x y) ∧ ∀ y, ¬ u.Order actionTable y x := by
  refine ⟨fun ⟨⟨y, h⟩, hno⟩ => ⟨⟨y, h.resolve_right (hno y)⟩, hno⟩, fun ⟨⟨y, h⟩, hno⟩ => ⟨⟨y, .inl h⟩, hno⟩⟩

theorem parts_searched : (u.parts actionTable f).Searched where
  sink := fun _ ⟨_, _, _, _, hno⟩ => hno
  below := fun _ ⟨r, hout, hin, hrx, _⟩ => ⟨r, parts_root.mpr ⟨hout, hin⟩, hrx⟩
  found := fun r _ hr hrx hno => ⟨r, (parts_root.mp hr).1, (parts_root.mp hr).2, hrx, hno⟩

theorem parts_acyclic (hac : Acyclic fun a b => (a, b) ∈ u.orderDependencies) :
    Acyclic (u.parts actionTable f).Order := by
  intro v hv
  have key : ∀ x y, TransGen (u.Order actionTable) x y → ∀ a b, u.node a = some x → u.node b = some y →
      TransGen (fun a b => (a, b) ∈ u.orderDependencies) a b := by
    intro x y h
    induction h with
    | single h =>
      rintro a b ha hb
      obtain ⟨a', b', hab, ha', hb'⟩ := h
      rw [indexOf_inj ha ha', indexOf_inj hb hb']
      exact .single (List.mem_filter.mp hab).1
    | tail _ h ih =>
      rintro a b ha hb
      obtain ⟨c, b', hcb, hc, hb'⟩ := h
      rw [indexOf_inj hb hb']
      exact (ih a c ha hc).tail (List.mem_filter.mp hcb).1
  obtain ⟨y, ⟨a, _, _, ha, _⟩, -⟩ := TransGen.head'_iff.mp hv
  exact hac a (key v v hv a a ha ha)

end Parts

/-! ### The built graph -/

theorem mem_attachEdges {first last : Option Nat} {roots leaves : List Nat} {prios : List (Option Nat)}
    {x y : Nat} :
    (some x, some y) ∈ attachEdges first last roots prios leaves ↔
      (first = some x ∧ (y ∈ roots ∨ some y ∈ prios)) ∨ (last = some y ∧ (some x ∈ prios ∨ x ∈ leaves)) := by
  cases last with
  | none =>
    simp only [attachEdges, Option.isSome_none, Bool.false_eq_true, if_false, List.append_nil, List.mem_append,
      List.mem_map, List.mem_flatMap, List.mem_singleton, Prod.mk.injEq, Option.some.injEq]
    constructor
    · rintro (⟨r, hr, rfl, rfl⟩ | ⟨p, hp, h, rfl⟩)
      exacts [.inl ⟨rfl, .inl hr⟩, .inl ⟨h.symm, .inr hp⟩]
    · rintro (⟨rfl, hr | hp⟩ | ⟨h, -⟩)
      exacts [.inl ⟨y, hr, rfl, rfl⟩, .inr ⟨some y, hp, rfl, rfl⟩, by cases h]
  | some z =>
    simp only [attachEdges, Option.isSome_some, if_true, List.mem_append, List.mem_map, List.mem_flatMap,
      List.mem_cons, List.not_mem_nil, or_false, Prod.mk.injEq, Option.some.injEq]
    constructor
    · rintro ((⟨r, hr, rfl, rfl⟩ | ⟨p, hp, ⟨h, rfl⟩ | ⟨rfl, rfl⟩⟩) | ⟨l, hl, rfl, rfl⟩)
      exacts [.inl ⟨rfl, .inl hr⟩, .inl ⟨h.symm, .inr hp⟩, .inr ⟨rfl, .inl hp⟩, .inr ⟨rfl, .inr hl⟩]
    · rintro (⟨rfl, hr | hp⟩ | ⟨rfl, hp | hl⟩)
      · exact .inl (.inl ⟨y, hr, rfl, rfl⟩)
      · exact .inl (.inr ⟨some y, hp, .inl ⟨rfl, rfl⟩⟩)
      · exact .inl (.inr ⟨some x, hp, .inr ⟨rfl, rfl⟩⟩)
      · exact .inr ⟨x, hl, rfl, rfl⟩

theorem attachEdges_components {first last : Option Nat} {roots leaves : List Nat} {prios : List (Option Nat)}
    {e : Option Nat × Option Nat} (he : e ∈ attachEdges first last roots prios leaves) {p : Nat}
    (hp : e.1 = some p ∨ e.2 = some p) :
    first = some p ∨ last = some p ∨ p ∈ roots ∨ some p ∈ prios ∨ p ∈ leaves := by
  simp only [attachEdges, List.mem_append, List.mem_map, List.mem_flatMap, List.mem_cons] at he
  rcases he with (⟨r, hr, rfl⟩ | ⟨q, hq, rfl | he⟩) | he
  · exact hp.elim .inl fun h => .inr (.inr (.inl (by cases h; exact hr)))
  · exact hp.elim .inl fun h => .inr (.inr (.inr (.inl (by cases h; exact hq))))
  · split at he
    · obtain rfl := List.mem_singleton.mp he
      exact hp.elim (fun h => .inr (.inr (.inr (.inl (by cases h; exact hq))))) fun h => .inr (.inl h)
    · cases he
  · split at he
    · obtain ⟨l, hl, rfl⟩ := List.mem_map.mp he
      exact hp.elim (fun h => .inr (.inr (.inr (.inr (by cases h; exact hl))))) fun h => .inr (.inl h)
    · cases he

theorem positionNode_some {u : UserInput} {position : String} {p : Nat} (h : u.positionNode position = some p) :
    ∃ a, (a, position) ∈ u.positional ∧ u.node a = some p := by
  have key : ∀ (l : List (String × String)) q, (∀ x ∈ l, x ∈ u.positional) →
      (q = some p → ∃ a, (a, position) ∈ u.positional ∧ u.node a = some p) →
      l.foldl (fun p pos => if pos.2 = position then (indexOf u.functions)[pos.1]? else p) q = some p →
      ∃ a, (a, position) ∈ u.positional ∧ u.node a = some p := by
    intro l
    induction l with
    | nil => exact fun q _ hq h => hq h
    | cons x l ih =>
      intro q hl hq h
      refine ih _ (fun y hy => hl y (List.mem_cons_of_mem _ hy)) (fun hx => ?_) h
      dsimp only at hx
      split at hx
      · rename_i hpos
        exact ⟨x.1, hpos ▸ hl x (List.mem_cons_self ..), hx⟩
      · exact hq hx
  exact key _ none (fun _ hx => hx) (fun h => by cases h) h

theorem positionNode_lt {u : UserInput} {position : String} {p : Nat} (h : u.positionNode position = some p) :
    p < u.functions.length := by
  obtain ⟨a, -, ha⟩ := positionNode_some h
  exact indexOf_lt ha

theorem checkTrees_ok {n : Nat} {ly : Layout n} {actionTable : ActionTable} {nodes : Nodes} {roots : List Nat}
    {pairs : PairMap (List Field)} {r : Finset Nat × PairMap (List Field)} (hn : nodes.length = n)
    (hm : nodes.Mirror)
    (h : checkTrees ly actionTable nodes roots pairs = .ok r) :
    (∀ x, x ∈ r.1 ↔ ∃ root ∈ roots, nodes.SinkBelow root x) ∧ ∀ root ∈ roots, ∃ x, nodes.SinkBelow root x := by
  refine Rounds.foldlM_induction (P := fun done (r : Finset Nat × PairMap (List Field)) =>
    (∀ x, x ∈ r.1 ↔ ∃ root ∈ done, nodes.SinkBelow root x) ∧ ∀ root ∈ done, ∃ x, nodes.SinkBelow root x)
    ?_ ⟨by simp, by simp⟩ h
  rintro done root ⟨leaves, ps⟩ r' - ⟨hleaves, hdone⟩ hf
  obtain ⟨new, hnew, hf⟩ := Rounds.bind_ok hf
  obtain ⟨lv, -, hf⟩ := Rounds.bind_ok hf
  cases hf
  obtain ⟨hmem, hex⟩ := Nodes.findAllLeaves_ok hn hm hnew
  refine ⟨fun x => ?_, fun z hz => ?_⟩
  · rw [Finset.mem_union, hleaves, hmem]
    simp only [Finset.notMem_empty, false_or, List.mem_append, List.mem_singleton, or_and_right, exists_or,
      exists_eq_left]
  · rcases List.mem_append.mp hz with hz | hz
    · exact hdone z hz
    · exact List.mem_singleton.mp hz ▸ hex

/-- The nodes after the first phase: the forest of the order dependencies. -/
structure Forest (actionTable : ActionTable) (u : UserInput) (nodes : Nodes) : Prop where
  edge : nodes.Edge = u.Order actionTable
  mirror : nodes.Mirror
  names : nodes.map (·.nf) = u.functions
  /-- Every function in a rejected pair has a node. -/
  known : ∀ a b, (a, b) ∈ u.parsedOrder actionTable → (u.node a).isSome ∧ (u.node b).isSome

section Forest
variable {actionTable : ActionTable} {u : UserInput} {ly : Layout u.functions.length} {nodes : Nodes}

theorem forest_ok (h : Nodes.addEdges (nodePairs (indexOf u.functions) (u.parsedOrder actionTable))
    (u.functions.map fun f => { nf := f }) = .ok nodes) : Forest actionTable u nodes := by
  set nodes₀ : Nodes := u.functions.map fun f => { nf := f } with hnodes₀
  have hnames₀ : nodes₀.map (·.nf) = u.functions := by simp [hnodes₀, Function.comp_def]
  have hempty : ∀ x y, ¬ nodes₀.Edge x y := by
    intro x y
    simp only [Nodes.Edge, Nodes.neighbors, hnodes₀, List.getElem?_map]
    cases u.functions[x]? <;> simp
  have hempty' : ∀ x y, x ∉ nodes₀.parents y := by
    intro x y
    simp only [Nodes.parents, hnodes₀, List.getElem?_map]
    cases u.functions[y]? <;> simp
  have hlt : ∀ e ∈ nodePairs (indexOf u.functions) (u.parsedOrder actionTable), ∀ p,
      e.1 = some p ∨ e.2 = some p → p < nodes₀.length := by
    intro e he p hp
    obtain ⟨x, -, rfl⟩ := List.mem_map.mp he
    rw [hnodes₀, List.length_map]
    exact hp.elim indexOf_lt indexOf_lt
  obtain ⟨hsome, hedge, hm, hnf⟩ := Nodes.addEdges_ok hlt (fun x y => iff_of_false (hempty x y) (hempty' x y)) h
  refine ⟨?_, hm, hnf.trans hnames₀, fun a b hab => hsome _ (List.mem_map.mpr ⟨(a, b), hab, rfl⟩)⟩
  funext x y
  rw [hedge, mem_nodePairs, eq_iff_iff]
  exact or_iff_right (hempty x y)

namespace Forest
variable (hF : Forest actionTable u nodes)
include hF

theorem length : nodes.length = u.functions.length := by
  rw [← hF.names, List.length_map]

theorem mem_roots {r : Nat} :
    r ∈ ly.iterate ((namedNodes (indexOf u.functions) (u.parsedOrder actionTable)).eraseNone.filter
      fun node => nodes.isRoot node = true) ↔
    (∃ y, u.Order actionTable r y) ∧ ∀ y, ¬ u.Order actionTable y r := by
  rw [Layout.mem_iterate, Finset.mem_filter, Finset.mem_eraseNone, mem_namedNodes,
    Nodes.isRoot_iff hF.mirror, hF.edge]
  constructor
  · rintro ⟨-, ⟨a, b, hab, ha | hb⟩, hno⟩
    · obtain ⟨y, hy⟩ := Option.isSome_iff_exists.mp (hF.known a b hab).2
      exact ⟨⟨y, a, b, hab, ha, hy⟩, hno⟩
    · obtain ⟨y, hy⟩ := Option.isSome_iff_exists.mp (hF.known a b hab).1
      exact absurd ⟨a, b, hab, hy, hb⟩ (hno y)
  · rintro ⟨⟨y, a, b, hab, ha, hb⟩, hno⟩
    exact ⟨indexOf_lt ha, ⟨a, b, hab, .inl ha⟩, hno⟩

theorem mem_leaves {roots : List Nat} {leafNodes : Finset Nat} {pairs pairs' : PairMap (List Field)} {f : Nat}
    (hroots : ∀ r, r ∈ roots ↔ (∃ y, u.Order actionTable r y) ∧ ∀ y, ¬ u.Order actionTable y r)
    (h : checkTrees ly actionTable nodes roots pairs = .ok (leafNodes, pairs')) :
    (∀ x, x ∈ ly.iterate leafNodes ↔ x ∈ (u.parts actionTable f).leaves) ∧
      ∀ r ∈ roots, ∃ x, ReflTransGen (u.Order actionTable) r x ∧ ∀ y, ¬ u.Order actionTable x y := by
  obtain ⟨hleaf, hbelow⟩ := checkTrees_ok hF.length hF.mirror h
  simp only [Nodes.SinkBelow, hF.edge] at hleaf hbelow
  refine ⟨fun x => ?_, hbelow⟩
  rw [Layout.mem_iterate, hleaf]
  constructor
  · rintro ⟨-, r, hr, hrx, hno⟩
    exact ⟨r, ((hroots r).mp hr).1, ((hroots r).mp hr).2, hrx, hno⟩
  · rintro ⟨r, hout, hin, hrx, hno⟩
    refine ⟨?_, r, (hroots r).mpr ⟨hout, hin⟩, hrx, hno⟩
    rcases ReflTransGen.cases_tail hrx with rfl | ⟨y, -, he⟩
    · obtain ⟨y, he⟩ := hout
      exact he.lt.1
    · exact he.lt.2

theorem attach_ok {first : Option Nat} {roots leaves : List Nat} {prios : List (Option Nat)} {nodes' : Nodes}
    (hfirst : first = u.positionNode "first")
    (hlt : ∀ p, p ∈ roots ∨ some p ∈ prios ∨ p ∈ leaves → p < u.functions.length)
    (h : Nodes.addEdges (attachEdges first (u.positionNode "last") roots prios leaves) nodes = .ok nodes') :
    (∀ p ∈ prios, first.isSome ∧ p.isSome) ∧ (∀ r ∈ roots, first.isSome) ∧
      (∀ x y, nodes'.Edge x y ↔
        u.Order actionTable x y ∨
          (some x, some y) ∈ attachEdges first (u.positionNode "last") roots prios leaves) ∧
      nodes'.Mirror ∧ nodes'.map (·.nf) = u.functions := by
  have hlt' : ∀ e ∈ attachEdges first (u.positionNode "last") roots prios leaves, ∀ p,
      e.1 = some p ∨ e.2 = some p → p < nodes.length := by
    intro e he p hp
    rw [hF.length]
    rcases attachEdges_components he hp with h | h | h
    · exact positionNode_lt (hfirst.symm.trans h)
    · exact positionNode_lt h
    · exact hlt p h
  obtain ⟨hsome, hedge, hm, hnf⟩ := Nodes.addEdges_ok hlt' hF.mirror h
  rw [hF.edge] at hedge
  refine ⟨fun p hp => hsome (first, p) ?_, fun r hr => (hsome (first, some r) ?_).1, hedge, hm,
    hnf.trans hF.names⟩
  · exact List.mem_append_left _ (List.mem_append_right _ (List.mem_flatMap.mpr ⟨p, hp, List.mem_cons_self ..⟩))
  · exact List.mem_append_left _ (List.mem_append_left _ (List.mem_map.mpr ⟨r, hr, rfl⟩))

end Forest

theorem mem_priorityNodes {p : Option Nat} :
    p ∈ ly.iterateNull (namedNodes (indexOf u.functions) (u.parsedPriorities actionTable)) ↔
      ∃ a b, (a, b) ∈ u.parsedPriorities actionTable ∧ (u.node a = p ∨ u.node b = p) := by
  rw [Layout.mem_iterateNull, mem_namedNodes]
  intro x hx
  obtain ⟨a, b, -, ha | hb⟩ := mem_namedNodes.mp hx
  exacts [indexOf_lt ha, indexOf_lt hb]

end Forest

theorem parsed_ok {actionTable : ActionTable} {u : UserInput} {parsed₁ parsed : Parsed}
    (h₁ : parseOrderDependencies actionTable u.orderDependencies {} = .ok parsed₁)
    (h : parsePriorityDependencies actionTable u.priorities parsed₁ = .ok parsed) :
    parsed.parsedOrder = u.parsedOrder actionTable ∧
      parsed.parsedPriorities = u.parsedPriorities actionTable := by
  obtain ⟨ho₁, hp₁⟩ := parseOrderDependencies_ok h₁
  obtain ⟨ho, hp⟩ := parsePriorityDependencies_ok h
  refine ⟨by rw [ho, ho₁, UserInput.parsedOrder]; rfl, ?_⟩
  rw [hp, hp₁, UserInput.parsedPriorities, List.filter_append]
  rfl

/-- What the constructor has built. -/
structure Assembled (actionTable : ActionTable) (u : UserInput) (g : ServiceGraph) : Prop where
  funcToNodes : g.funcToNodes = indexOf u.functions
  first : g.first = u.positionNode "first"
  names : g.nodes.map (·.nf) = u.functions
  mirror : g.nodes.Mirror
  /-- Every function in a rejected pair has a node. -/
  known : ∀ a b, (a, b) ∈ u.parsedOrder actionTable → (u.node a).isSome ∧ (u.node b).isSome
  below : ∀ r, (∃ y, u.Order actionTable r y) → (∀ y, ¬ u.Order actionTable y r) →
    ∃ x, ReflTransGen (u.Order actionTable) r x ∧ ∀ y, ¬ u.Order actionTable x y
  detached : u.hasPositionals = false → ∀ x y, g.nodes.Edge x y ↔ u.Order actionTable x y
  attached : u.hasPositionals → ∀ f, g.first = some f → ∀ x y,
    g.nodes.Edge x y ↔ (u.parts actionTable f).Edge x y
  /-- Without a first node there is nothing to attach. -/
  unattached : u.hasPositionals → g.first = none →
    (∀ r, (∃ y, u.Order actionTable r y) → ∃ y, u.Order actionTable y r) ∧ (∀ x, ¬ u.Free actionTable x) ∧
      ∀ x y, g.nodes.Edge x y ↔ u.Order actionTable x y
  /-- Every function in an accepted pair has a node if it is attached. -/
  knownFree : u.hasPositionals → ∀ a b, (a, b) ∈ u.parsedPriorities actionTable →
    (u.node a).isSome ∧ (u.node b).isSome

/-- The phases of the constructor, with what they hand on to each other and to the service graph. -/
structure Phases (actionTable : ActionTable) (u : UserInput) (ly : Layout u.functions.length) (g : ServiceGraph)
    (parsed₁ : Parsed) (nodes : Nodes) (pairs : PairMap (List Field)) (lv : Level) : Prop where
  order : parseOrderDependencies actionTable u.orderDependencies {} = .ok parsed₁
  priorities : parsePriorityDependencies actionTable u.priorities parsed₁ = .ok g.parsed
  edges : Nodes.addEdges (nodePairs (indexOf u.functions) g.parsed.parsedOrder)
    (u.functions.map fun f => { nf := f }) = .ok nodes
  trees : checkTrees ly actionTable nodes (ly.iterate g.rootNodes) g.parsed.pairToConflicts =
    .ok (g.leafNodes, pairs)
  level : checkLevelParallelizability actionTable nodes (ly.iterateNull g.priorityNodes) pairs = .ok lv
  attach : (if u.hasPositionals then
      Nodes.addEdges (attachEdges g.first g.last (ly.iterate g.rootNodes) (ly.iterateNull g.priorityNodes)
        (ly.iterate g.leafNodes)) nodes
    else .ok nodes) = .ok g.nodes
  funcToNodes : g.funcToNodes = indexOf u.functions
  rootNodes : g.rootNodes = (namedNodes (indexOf u.functions) g.parsed.parsedOrder).eraseNone.filter
    fun node => nodes.isRoot node = true
  priorityNodes : g.priorityNodes = namedNodes (indexOf u.functions) g.parsed.parsedPriorities
  first : g.first = u.positionNode "first"
  last : g.last = u.positionNode "last"
  pairToConflicts : g.pairToConflicts = lv.pairToConflicts

theorem buildServiceGraph_phases {actionTable : ActionTable} {u : UserInput} {ly : Layout u.functions.length}
    {g : ServiceGraph} (h : buildServiceGraph actionTable u ly = .ok g) :
    ∃ parsed₁ nodes pairs lv, Phases actionTable u ly g parsed₁ nodes pairs lv := by
  obtain ⟨parsed₁, hp₁, h⟩ := Rounds.bind_ok h
  obtain ⟨parsed, hp, h⟩ := Rounds.bind_ok h
  obtain ⟨nodes, hnodes, h⟩ := Rounds.bind_ok h
  obtain ⟨⟨leafNodes, pairs⟩, htrees, h⟩ := Rounds.bind_ok h
  obtain ⟨lv, hlv, h⟩ := Rounds.bind_ok h
  obtain ⟨nodes', hattach, h⟩ := Rounds.bind_ok h
  cases h
  exact ⟨parsed₁, nodes, pairs, lv, hp₁, hp, hnodes, htrees, hlv, hattach, rfl, rfl, rfl, rfl, rfl, rfl⟩

namespace Phases
variable {actionTable : ActionTable} {u : UserInput} {ly : Layout u.functions.length} {g : ServiceGraph}
  {parsed₁ : Parsed} {nodes : Nodes} {pairs : PairMap (List Field)} {lv : Level}
  (hph : Phases actionTable u ly g parsed₁ nodes pairs lv)
include hph

theorem forest : Forest actionTable u nodes := by
  have h := hph.edges
  rw [(parsed_ok hph.order hph.priorities).1] at h
  exact forest_ok h

theorem mem_roots {r : Nat} : r ∈ ly.iterate g.rootNodes ↔
    (∃ y, u.Order actionTable r y) ∧ ∀ y, ¬ u.Order actionTable y r := by
  rw [hph.rootNodes, (parsed_ok hph.order hph.priorities).1, hph.forest.mem_roots]

theorem mem_priorities (ly' : Layout u.functions.length) {p : Option Nat} : p ∈ ly'.iterateNull g.priorityNodes ↔
    ∃ a b, (a, b) ∈ u.parsedPriorities actionTable ∧ (u.node a = p ∨ u.node b = p) := by
  rw [hph.priorityNodes, (parsed_ok hph.order hph.priorities).2, mem_priorityNodes]

end Phases

theorem mem_attach {actionTable : ActionTable} {u : UserInput} {f x y : Nat} {roots leaves : List Nat}
    {prios : List (Option Nat)}
    (hroots : ∀ r, r ∈ roots ↔ (∃ y, u.Order actionTable r y) ∧ ∀ y, ¬ u.Order actionTable y r)
    (hprios : ∀ p, p ∈ prios ↔ ∃ a b, (a, b) ∈ u.parsedPriorities actionTable ∧ (u.node a = p ∨ u.node b = p))
    (hleaves : ∀ x, x ∈ leaves ↔ x ∈ (u.parts actionTable f).leaves) :
    u.Order actionTable x y ∨
        (some x, some y) ∈ attachEdges (some f) (u.positionNode "last") roots prios leaves ↔
      (u.parts actionTable f).Edge x y := by
  have hfree : ∀ z, some z ∈ prios ↔ z ∈ (u.parts actionTable f).free := fun z => hprios _
  have hroot : ∀ r, r ∈ roots ↔ (u.parts actionTable f).Root r := fun r => (hroots r).trans parts_root.symm
  rw [mem_attachEdges, hleaves, hroot, hfree, hfree, Option.some.injEq, eq_comm (a := f)]
  rfl

theorem mem_attach_none {actionTable : ActionTable} {u : UserInput} {f x y : Nat} {roots leaves : List Nat}
    {prios : List (Option Nat)}
    (hroots : ∀ r, r ∈ roots ↔ (∃ y, u.Order actionTable r y) ∧ ∀ y, ¬ u.Order actionTable y r)
    (hleaves : ∀ x, x ∈ leaves ↔ x ∈ (u.parts actionTable f).leaves) (hno : ∀ r, r ∉ roots) (hno' : ∀ p, p ∉ prios) :
    u.Order actionTable x y ∨ (some x, some y) ∈ attachEdges none (u.positionNode "last") roots prios leaves ↔
      u.Order actionTable x y := by
  rw [mem_attachEdges]
  refine or_iff_left ?_
  rintro (⟨h, -⟩ | ⟨-, h | h⟩)
  · cases h
  · exact hno' _ h
  · obtain ⟨r, hout, hin, -⟩ := (hleaves x).mp h
    exact hno r ((hroots r).mpr ⟨hout, hin⟩)

theorem buildServiceGraph_assembled {actionTable : ActionTable} {u : UserInput} {ly : Layout u.functions.length}
    {g : ServiceGraph} (h : buildServiceGraph actionTable u ly = .ok g) : Assembled actionTable u g := by
  obtain ⟨parsed₁, nodes, pairs, lv, hph⟩ := buildServiceGraph_phases h
  have hF := hph.forest
  have htrees := hph.trees
  have hattach := hph.attach
  rw [hph.last] at hattach
  have hroots : ∀ r, r ∈ ly.iterate g.rootNodes ↔
      (∃ y, u.Order actionTable r y) ∧ ∀ y, ¬ u.Order actionTable y r := fun r => hph.mem_roots
  have hprios : ∀ p, p ∈ ly.iterateNull g.priorityNodes ↔
      ∃ a b, (a, b) ∈ u.parsedPriorities actionTable ∧ (u.node a = p ∨ u.node b = p) := fun p => hph.mem_priorities ly
  have hbelow : ∀ r, (∃ y, u.Order actionTable r y) → (∀ y, ¬ u.Order actionTable y r) →
      ∃ x, ReflTransGen (u.Order actionTable) r x ∧ ∀ y, ¬ u.Order actionTable x y :=
    fun r hout hin => (hF.mem_leaves (f := 0) hroots htrees).2 r ((hroots r).mpr ⟨hout, hin⟩)
  by_cases hpos : u.hasPositionals
  · rw [if_pos hpos] at hattach
    have hlt : ∀ p, p ∈ ly.iterate g.rootNodes ∨ some p ∈ ly.iterateNull g.priorityNodes ∨
        p ∈ ly.iterate g.leafNodes → p < u.functions.length := by
      rintro p (hp | hp | hp)
      · exact (Layout.mem_iterate.mp hp).1
      · obtain ⟨a, b, -, ha | hb⟩ := (hprios _).mp hp
        exacts [indexOf_lt ha, indexOf_lt hb]
      · exact (Layout.mem_iterate.mp hp).1
    obtain ⟨hfree, hroot, hedge, hm, hnames⟩ := hF.attach_ok hph.first hlt hattach
    have hleaves := fun f => (hF.mem_leaves (f := f) hroots htrees).1
    exact {
      funcToNodes := hph.funcToNodes
      first := hph.first
      names := hnames
      mirror := hm
      known := hF.known
      below := hbelow
      detached := fun h => by rw [hpos] at h; cases h
      attached := fun _ f hf x y => by
        rw [hedge, hf]
        exact mem_attach hroots hprios (hleaves f)
      unattached := fun _ hf => by
        have hno : ∀ r, r ∉ ly.iterate g.rootNodes := fun r hr => by simpa [hf] using hroot r hr
        have hno' : ∀ p, p ∉ ly.iterateNull g.priorityNodes := fun p hp => by simpa [hf] using (hfree p hp).1
        refine ⟨fun r hout => ?_, fun x ⟨a, b, hab, hx⟩ => hno' (some x) ((hprios _).mpr ⟨a, b, hab, hx⟩),
          fun x y => ?_⟩
        · by_contra hin
          push Not at hin
          exact hno r ((hroots r).mpr ⟨hout, hin⟩)
        · rw [hedge, hf]
          exact mem_attach_none hroots (hleaves 0) hno hno'
      knownFree := fun _ a b hab =>
        ⟨(hfree _ ((hprios _).mpr ⟨a, b, hab, .inl rfl⟩)).2,
          (hfree _ ((hprios _).mpr ⟨a, b, hab, .inr rfl⟩)).2⟩ }
  · -- nothing is attached
    rw [if_neg hpos] at hattach
    cases hattach
    exact {
      funcToNodes := hph.funcToNodes
      first := hph.first
      names := hF.names
      mirror := hF.mirror
      known := hF.known
      below := hbelow
      detached := fun _ x y => by rw [hF.edge]
      attached := fun h => absurd h hpos
      unattached := fun h => absurd h hpos
      knownFree := fun h => absurd h hpos }

end DeepNF
