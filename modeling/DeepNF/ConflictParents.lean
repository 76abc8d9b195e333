import DeepNF.GraphLaws
import DeepNF.InnerWrites
import DeepNF.ConflictItems

/-!
# The parents of the conflict items

The constructor succeeds in every layout if it does in one (`construct_congr`), and its graph does not depend on
the layout, but the parent of a conflict item is the first parent of the major in the order of the addresses.
It is a parent of both members in every layout if and only if the members share their parents
(`construct_parents_iff`).
-/

namespace DeepNF
open Std (TreeMap)
open Relation Walks

/-! ### The constructor succeeds in every layout or in none -/

section Level
variable {actionTable : ActionTable} {nodes : Nodes} {level : List (Option Nat)} {pairs : PairMap (List Field)}

def Comparable (actionTable : ActionTable) (nodes : Nodes) (e : Option Nat × Option Nat) : Prop :=
  ∃ nf1 nf2 r, nodes.name e.1 = .ok nf1 ∧ nodes.name e.2 = .ok nf2 ∧ isParallelizable actionTable nf1 nf2 = .ok r

theorem checkPair_ok_iff (lv : Level) (e : Option Nat × Option Nat) :
    (∃ lv', checkPair actionTable nodes lv e.1 e.2 = .ok lv') ↔ Comparable actionTable nodes e := by
  constructor
  · rintro ⟨lv', h⟩
    obtain ⟨nf1, h1, h⟩ := Rounds.bind_ok h
    obtain ⟨nf2, h2, h⟩ := Rounds.bind_ok h
    obtain ⟨r, hr, -⟩ := Rounds.bind_ok h
    exact ⟨nf1, nf2, r, h1, h2, hr⟩
  · rintro ⟨nf1, nf2, ⟨parallel, c⟩, h1, h2, hr⟩
    simp only [checkPair, h1, h2, hr, bind, Except.bind]
    cases parallel with
    | true => exact ⟨_, rfl⟩
    | false =>
      simp only [Bool.false_eq_true, if_false]
      split <;> exact ⟨_, rfl⟩

theorem checkLevel_ok_iff : (∃ lv, checkLevelParallelizability actionTable nodes level pairs = .ok lv) ↔
    ∀ e ∈ Rounds.pairs level, Comparable actionTable nodes e :=
  Rounds.foldlM_ok_iff (fun e _ lv => checkPair_ok_iff lv e) _

theorem checkLevel_congr {level' : List (Option Nat)} {pairs' : PairMap (List Field)} {lv : Level}
    (hmem : ∀ p, p ∈ level' ↔ p ∈ level)
    (h : checkLevelParallelizability actionTable nodes level pairs = .ok lv) :
    ∃ lv', checkLevelParallelizability actionTable nodes level' pairs' = .ok lv' := by
  have hall := checkLevel_ok_iff.mp ⟨lv, h⟩
  refine checkLevel_ok_iff.mpr ?_
  rintro ⟨node1, node2⟩ he
  obtain ⟨h1, h2, hne⟩ := Rounds.mem_pairs.mp he
  exact hall _ (Rounds.mem_pairs.mpr ⟨(hmem _).mp h1, (hmem _).mp h2, hne⟩)

/-- The leaf search ends in any layout, so a loop over the roots only needs the rows of the leaves. -/
theorem checkTrees_ok_iff {n : Nat} {ly : Layout n} {roots : List Nat} (hn : nodes.length = n) (hm : nodes.Mirror)
    (hac : Acyclic nodes.Edge) : (∃ r, checkTrees ly actionTable nodes roots pairs = .ok r) ↔
      ∀ root ∈ roots, ∀ x y : Nat, x < n → y < n → nodes.SinkBelow root x → nodes.SinkBelow root y → x ≠ y →
        Comparable actionTable nodes (some x, some y) := by
  classical
  refine Rounds.foldlM_ok_iff (fun root _ s => ?_) _
  obtain ⟨new, hnew⟩ : ∃ new, nodes.findAllLeaves ly (n + 1) root ∅ = .ok new :=
    Nodes.findAllLeaves_total hac
      (Nat.lt_succ_of_le ((Finset.card_filter_le _ _).trans (Finset.card_range n).le)) ∅
  obtain ⟨hmem, -⟩ := Nodes.findAllLeaves_ok hn hm hnew
  have hlevel : ∀ x, some x ∈ (ly.iterate new).map some ↔ x < n ∧ nodes.SinkBelow root x := by
    intro x
    rw [List.mem_map]
    simp only [Option.some.injEq, exists_eq_right, Layout.mem_iterate, hmem, Finset.notMem_empty, false_or]
  -- below a root, only the level check can fail
  have hstep : (∃ s', (do
      let leavesForRoot ← nodes.findAllLeaves ly (n + 1) root ∅
      let lv ← checkLevelParallelizability actionTable nodes ((ly.iterate leavesForRoot).map some) s.2
      return (s.1 ∪ leavesForRoot, lv.pairToConflicts) : Except SetupError _) = .ok s') ↔
      ∃ lv, checkLevelParallelizability actionTable nodes ((ly.iterate new).map some) s.2 = .ok lv := by
    constructor
    · rintro ⟨s', h⟩
      obtain ⟨new', hnew', h⟩ := Rounds.bind_ok h
      rw [hnew] at hnew'
      cases hnew'
      obtain ⟨lv, hlv, -⟩ := Rounds.bind_ok h
      exact ⟨lv, hlv⟩
    · rintro ⟨lv, hlv⟩
      exact ⟨_, by simp only [hnew, hlv, bind, Except.bind]; rfl⟩
  refine hstep.trans (checkLevel_ok_iff.trans ⟨fun h x y hx hy hbx hby hne => ?_, ?_⟩)
  · exact h _ (Rounds.mem_pairs.mpr
      ⟨(hlevel x).mpr ⟨hx, hbx⟩, (hlevel y).mpr ⟨hy, hby⟩, fun he => hne (Option.some.inj he)⟩)
  · rintro h ⟨node1, node2⟩ he
    obtain ⟨h1, h2, hne⟩ := Rounds.mem_pairs.mp he
    obtain ⟨x, -, rfl⟩ := List.mem_map.mp h1
    obtain ⟨y, -, rfl⟩ := List.mem_map.mp h2
    obtain ⟨hx, hbx⟩ := (hlevel x).mp h1
    obtain ⟨hy, hby⟩ := (hlevel y).mp h2
    exact h x y hx hy hbx hby fun he => hne (congrArg some he)

end Level

section Pairs
variable {actionTable : ActionTable} {P : PairMap (List Field) → Prop}
  (hset : ∀ t f1 f2 c, P t → P (t.set f1 f2 c))
include hset

theorem accept_pairs {p : Parsed} {f1 f2 : String} {c : List Field} (hp : P p.pairToConflicts) :
    P (p.accept f1 f2 c).pairToConflicts := by
  unfold Parsed.accept
  dsimp only
  split
  exacts [hset _ _ _ _ hp, hp]

theorem checkLevel_pairs {nodes : Nodes} {level : List (Option Nat)} {pairs : PairMap (List Field)} {lv : Level}
    (hp : P pairs) (h : checkLevelParallelizability actionTable nodes level pairs = .ok lv) :
    P lv.pairToConflicts := by
  refine Rounds.foldlM_induction (P := fun _ (lv : Level) => P lv.pairToConflicts) ?_ hp h
  rintro - ⟨node1, node2⟩ lv lv' - hlv hs
  obtain ⟨nf1, -, hs⟩ := Rounds.bind_ok hs
  obtain ⟨nf2, -, hs⟩ := Rounds.bind_ok hs
  obtain ⟨⟨parallel, c⟩, -, hs⟩ := Rounds.bind_ok hs
  cases parallel with
  | true => cases hs; exact hset _ _ _ _ hlv
  | false =>
    simp only [Bool.false_eq_true, if_false] at hs
    split at hs <;> cases hs <;> exact hlv

theorem buildServiceGraph_pairs {u : UserInput} {ly : Layout u.functions.length} {g : ServiceGraph} (hempty : P ∅)
    (h : buildServiceGraph actionTable u ly = .ok g) : P g.pairToConflicts := by
  obtain ⟨parsed₁, nodes, pairs, lv, hph⟩ := buildServiceGraph_phases h
  have hstep : ∀ (p : Parsed) f1 f2 (parallel : Bool) c, P p.pairToConflicts →
      P (if parallel then (p.accept f1 f2 c).pairToConflicts else p.pairToConflicts) := by
    intro p f1 f2 parallel c hP
    split
    exacts [accept_pairs hset hP, hP]
  have h₁ : P parsed₁.pairToConflicts :=
    parseOrderDependencies_pairs (P := fun _ t => P t) (fun _ _ _ _ _ _ _ hP => hstep _ _ _ _ _ hP) hempty
      hph.order
  have h₂ : P g.parsed.pairToConflicts :=
    parsePriorityDependencies_pairs (P := fun _ t => P t) (fun _ _ _ _ _ _ _ hP => hstep _ _ _ _ _ hP) h₁
      hph.priorities
  rw [hph.pairToConflicts]
  refine checkLevel_pairs hset ?_ hph.level
  refine Rounds.foldlM_induction (P := fun _ (r : Finset Nat × PairMap (List Field)) => P r.2) ?_ h₂ hph.trees
  rintro - root ⟨leaves, pairs⟩ r' - hP hs
  obtain ⟨new, -, hs⟩ := Rounds.bind_ok hs
  obtain ⟨lv', hlv', hs⟩ := Rounds.bind_ok hs
  cases hs
  exact checkLevel_pairs hset hP hlv'

end Pairs

section Construct
variable {actionTable : ActionTable} {u : UserInput} {ly ly' : Layout u.functions.length} {g : ServiceGraph}
  {o : Orchestrator} {a b : String} {x y : Nat}

theorem major_iff (h : buildServiceGraph actionTable u ly = .ok g) :
    a ∈ g.pairToConflicts ↔ ∃ b, u.Recorded actionTable a b := by
  have hfull : ∀ a ∈ g.pairToConflicts, ∃ b, g.pairToConflicts.Has a b := by
    refine buildServiceGraph_pairs (P := fun t => ∀ a ∈ t, ∃ b, t.Has a b) ?_ (by simp) h
    intro t f1 f2 c ht a ha
    rcases PairMap.mem_set.mp ha with rfl | ha
    · exact ⟨f2, PairMap.has_set.mpr (.inr ⟨rfl, rfl⟩)⟩
    · exact (ht a ha).imp fun b hb => PairMap.has_set.mpr (.inl hb)
  obtain ⟨hhas, -⟩ := buildServiceGraph_has h
  constructor
  · exact fun ha => (hfull a ha).imp fun b hb => (hhas a b).mp hb
  · rintro ⟨b, hb⟩
    exact TreeMap.mem_keys.mp ((hhas a b).mpr hb).mem_keys

theorem Forest.attach_congr {nodes nodes' : Nodes} (hF : Forest actionTable u nodes)
    {roots roots' leaves leaves' : List Nat} {prios prios' : List (Option Nat)}
    (hroots : ∀ r ∈ roots', r ∈ roots) (hprios : ∀ p ∈ prios', p ∈ prios)
    (hlt : ∀ p, p ∈ roots ∨ some p ∈ prios ∨ p ∈ leaves → p < u.functions.length)
    (h : Nodes.addEdges (attachEdges (u.positionNode "first") (u.positionNode "last") roots prios leaves) nodes =
      .ok nodes') :
    ∃ final, Nodes.addEdges (attachEdges (u.positionNode "first") (u.positionNode "last") roots' prios' leaves')
      nodes = .ok final := by
  obtain ⟨hpriosome, hrootsome, -⟩ := hF.attach_ok rfl hlt h
  exact Nodes.addEdges_total (attachEdges_isSome (fun r hr => hrootsome r (hroots r hr))
    fun p hp => hpriosome p (hprios p hp)) nodes

theorem buildServiceGraph_congr (hac : Acyclic fun a b => (a, b) ∈ u.orderDependencies)
    (h : buildServiceGraph actionTable u ly = .ok g) : ∃ g', buildServiceGraph actionTable u ly' = .ok g' := by
  obtain ⟨parsed₁, nodes, pairs, lv, hph⟩ := buildServiceGraph_phases h
  have hF := hph.forest
  have hacyc : Acyclic nodes.Edge := hF.edge ▸ parts_acyclic (f := 0) hac
  have hroot : ∀ r, r ∈ ly'.iterate g.rootNodes ↔ r ∈ ly.iterate g.rootNodes := fun r => by
    rw [Layout.mem_iterate, Layout.mem_iterate]
  have hprio : ∀ p, p ∈ ly'.iterateNull g.priorityNodes ↔ p ∈ ly.iterateNull g.priorityNodes := fun p => by
    rw [hph.mem_priorities, hph.mem_priorities]
  obtain ⟨⟨leafNodes', pairs'⟩, htrees'⟩ :
      ∃ r, checkTrees ly' actionTable nodes (ly'.iterate g.rootNodes) g.parsed.pairToConflicts = .ok r :=
    (checkTrees_ok_iff hF.length hF.mirror hacyc).mpr fun root hr =>
      (checkTrees_ok_iff hF.length hF.mirror hacyc).mp ⟨_, hph.trees⟩ root ((hroot root).mp hr)
  obtain ⟨lv', hlv'⟩ :
      ∃ lv', checkLevelParallelizability actionTable nodes (ly'.iterateNull g.priorityNodes) pairs' = .ok lv' :=
    checkLevel_congr hprio hph.level
  obtain ⟨final, hfinal⟩ : ∃ final, (if u.hasPositionals then
      Nodes.addEdges (attachEdges (u.positionNode "first") (u.positionNode "last") (ly'.iterate g.rootNodes)
        (ly'.iterateNull g.priorityNodes) (ly'.iterate leafNodes')) nodes
    else .ok nodes) = .ok final := by
    have hattach := hph.attach
    split
    · rename_i hpos
      rw [if_pos hpos, hph.first, hph.last] at hattach
      refine hF.attach_congr (fun r => (hroot r).mp) (fun p => (hprio p).mp) ?_ hattach
      rintro p (hp | hp | hp)
      · exact (Layout.mem_iterate.mp hp).1
      · obtain ⟨a, b, -, ha | hb⟩ := (hph.mem_priorities ly).mp hp
        exacts [indexOf_lt ha, indexOf_lt hb]
      · exact (Layout.mem_iterate.mp hp).1
    · exact ⟨nodes, rfl⟩
  simp only [UserInput.positionNode] at hfinal
  simp only [buildServiceGraph, hph.order, hph.priorities, hph.edges, ← hph.rootNodes, ← hph.priorityNodes, htrees',
    hlv', hfinal, bind, Except.bind]
  exact ⟨_, rfl⟩

theorem construct_congr (hac : Acyclic fun a b => (a, b) ∈ u.orderDependencies)
    (h : Orchestrator.construct actionTable u ly = .ok o) :
    ∃ o', Orchestrator.construct actionTable u ly' = .ok o' := by
  obtain ⟨g', hg'⟩ : ∃ g', buildServiceGraph actionTable u ly' = .ok g' :=
    buildServiceGraph_congr hac (construct_graph h)
  have hlisted : Listed u.functions g'.pairToConflicts := by
    intro major hm
    obtain ⟨b, hrec⟩ := (major_iff hg').mp hm
    obtain ⟨x, -, hx, -⟩ := recorded_named h hrec
    exact List.mem_of_getElem? (indexOf_some hx)
  obtain ⟨l, hl, -⟩ : ∃ l, g'.createConflictsList ly' = .ok l ∧ True :=
    createConflictsList_total (buildServiceGraph_assembled hg').funcToNodes hlisted
  exact ⟨_, by simp only [Orchestrator.construct, hg', hl, bind, Except.bind]; rfl⟩

/-! ### The parent of an item -/

def Layout.startingAt {n p : Nat} (hp : p < n) : Layout n where
  addresses := p :: (List.range n).erase p
  perm := (List.perm_cons_erase (List.mem_range.mpr hp)).symm
  outer := id
  outer_perm := (ascending n).outer_perm
  inner := fun _ => id
  inner_perm := (ascending n).inner_perm

/-- What `ConflictItem.h` says of the parent: it is a node that has both members among its neighbors, or there
is none if neither member has a parent. -/
def Orchestrator.ParentOfBoth (o : Orchestrator) (ci : ConflictItem) : Prop :=
  (∃ z x y : Nat, ci.parent = z ∧ ci.major = x ∧ ci.minor = y ∧ o.graph.nodes.Edge z x ∧ o.graph.nodes.Edge z y) ∨
    ci.parent = -1 ∧ ∀ z x : Nat, ci.major = x ∨ ci.minor = x → ¬ o.graph.nodes.Edge z x

/-- Every parent of `x` is one of `y`, and `y` has no parent if `x` has none. -/
def UserInput.SharesParents (u : UserInput) (actionTable : ActionTable) (x y : Nat) : Prop :=
  (∀ z, u.Linked actionTable z x → u.Linked actionTable z y) ∧
    ((∃ z, u.Linked actionTable z y) → ∃ z, u.Linked actionTable z x)

theorem Assembled.parentId_startingAt (hA : Assembled actionTable u g) {z : Nat} (hz : z < u.functions.length)
    (he : g.nodes.Edge z x) : g.parentId (.startingAt hz) x = z := by
  have hmem : z ∈ g.nodes.parents x := (hA.mirror z x).mp he
  have hfirst : g.nodes.getParent (.startingAt hz) x = some z := by
    simp [Nodes.getParent, Layout.iterate, Layout.startingAt, hmem]
  obtain ⟨⟨a, ha⟩, -⟩ := hA.edge_node he
  rw [ServiceGraph.parentId, hfirst]
  exact hA.inxOfNode_eq ha

theorem Assembled.parentOfBoth (hA : Assembled actionTable u o.graph) (hs : u.SharesParents actionTable x y) :
    o.ParentOfBoth { major := x, minor := y, parent := o.graph.parentId ly x } := by
  obtain ⟨hall, hsome⟩ := hs
  rcases hA.parentId_cases ly x with ⟨hp, hno⟩ | ⟨z, hp, he⟩
  · refine .inr ⟨hp, fun z w hw he => ?_⟩
    rcases hw with hw | hw
    · obtain rfl := Int.natCast_inj.mp hw
      exact hno z he
    · obtain rfl := Int.natCast_inj.mp hw
      obtain ⟨z', hz'⟩ := hsome ⟨z, hA.edge_iff.mp he⟩
      exact hno z' (hA.edge_iff.mpr hz')
  · exact .inl ⟨z, x, y, hp, rfl, rfl, he, hA.edge_iff.mpr (hall z (hA.edge_iff.mp he))⟩

/-- The parent of every item is a parent of both members, wherever the nodes lie in memory, if and only if the
functions of every recorded pair share their parents. -/
theorem construct_parents_iff (h : Orchestrator.construct actionTable u ly = .ok o)
    (hac : Acyclic fun a b => (a, b) ∈ u.orderDependencies) :
    (∀ ly' o', Orchestrator.construct actionTable u ly' = .ok o' →
      ∀ ci ∈ o'.mergerInfo.conflictsList, o'.ParentOfBoth ci) ↔
      ∀ a b x y, u.Recorded actionTable a b → u.node a = some x → u.node b = some y →
        u.SharesParents actionTable x y := by
  constructor
  · intro hall a b x y hrec ha hb
    have hitem : ∀ {ly' o'}, Orchestrator.construct actionTable u ly' = .ok o' →
        o'.ParentOfBoth { major := x, minor := y, parent := o'.graph.parentId ly' x } := fun {ly' o'} h' =>
      hall ly' o' h' _ ((mem_conflictsList h').mpr ⟨a, b, x, y, hrec, ha, hb, rfl⟩)
    refine ⟨fun z hz => ?_, fun ⟨z, hz⟩ => ?_⟩
    · -- the code takes `z` where it lies at the lowest address
      have he : o.graph.nodes.Edge z x := (construct_assembled h).edge_iff.mpr hz
      have hlt : z < u.functions.length := by
        obtain ⟨⟨c, hc⟩, -⟩ := (construct_assembled h).edge_node he
        exact indexOf_lt hc
      obtain ⟨o', h'⟩ : ∃ o', Orchestrator.construct actionTable u (.startingAt hlt) = .ok o' :=
        construct_congr hac h
      have hA' := construct_assembled h'
      have hparent := hA'.parentId_startingAt hlt (hA'.edge_iff.mpr hz)
      rcases hitem h' with ⟨w, x', y', hw, hx', hy', -, hey⟩ | ⟨hp, -⟩
      · dsimp only at hw hx' hy'
        obtain rfl := Int.natCast_inj.mp (hparent.symm.trans hw)
        obtain rfl := Int.natCast_inj.mp hy'
        exact hA'.edge_iff.mp hey
      · dsimp only at hp
        omega
    · have hA := construct_assembled h
      rcases hitem h with ⟨w, x', y', -, hx', -, hex, -⟩ | ⟨-, hno⟩
      · obtain rfl := Int.natCast_inj.mp hx'
        exact ⟨w, hA.edge_iff.mp hex⟩
      · exact absurd (hA.edge_iff.mpr hz) (hno z y (.inr rfl))
  · intro hshare ly' o' h' ci hci
    obtain ⟨a, b, x, y, hrec, ha, hb, rfl⟩ := (mem_conflictsList h').mp hci
    exact (construct_assembled h').parentOfBoth (hshare a b x y hrec ha hb)

end Construct

theorem monitoredProxy_order {x y : Nat} : ¬ monitoredProxy.Order actionTableJson x y := by
  rintro ⟨a, b, hab, -⟩
  exact absurd hab (by simp [UserInput.parsedOrder, monitoredProxy])

theorem monitoredProxy_linked {x y : Nat} :
    monitoredProxy.Linked actionTableJson x y ↔ x = 0 ∧ monitoredProxy.Free actionTableJson y := by
  have hfirst : monitoredProxy.positionNode "first" = some 0 := by decide
  have hlast : monitoredProxy.positionNode "last" = none := by decide
  have hpos : monitoredProxy.hasPositionals = true := rfl
  unfold UserInput.Linked
  simp [hfirst, hpos, Attach.Parts.Edge, UserInput.parts, hlast, monitoredProxy_order, Attach.Parts.Root,
    Attach.Parts.Inner]

/-- The two functions of a priority have the first function as their only parent. -/
theorem construct_parents_monitoredProxy :
    (∃ o, Orchestrator.construct actionTableJson monitoredProxy (.ascending 3) = .ok o ∧
      o.mergerInfo.conflictsList = [⟨1, 2, 0⟩]) ∧
    ∀ ly o, Orchestrator.construct actionTableJson monitoredProxy ly = .ok o →
      ∀ ci ∈ o.mergerInfo.conflictsList, o.ParentOfBoth ci := by
  obtain ⟨o, ho, hlist⟩ : ∃ o, Orchestrator.construct actionTableJson monitoredProxy (.ascending 3) = .ok o ∧
      o.mergerInfo.conflictsList = [⟨1, 2, 0⟩] := Rounds.exists_ok (by decide)
  have hac : Acyclic fun a b => (a, b) ∈ monitoredProxy.orderDependencies :=
    .of_rank (fun _ => 0) fun _ _ h => nomatch h
  refine ⟨⟨o, ho, hlist⟩, (construct_parents_iff ho hac).mpr ?_⟩
  intro a b x y hrec ha hb
  have hfree : monitoredProxy.Free actionTableJson x ∧ monitoredProxy.Free actionTableJson y := by
    obtain hdep | ⟨-, x', y', ha', hb', -, hfree | ⟨r, ⟨⟨z, hz⟩, -⟩, -⟩⟩ := hrec
    · obtain ⟨hd, hc⟩ := List.mem_filter.mp hdep
      have hpair := List.mem_filter.mpr ⟨hd, ActionTable.accepts_of_conflicting hc⟩
      exact ⟨⟨a, b, hpair, .inl ha⟩, a, b, hpair, .inr hb⟩
    · cases ha.symm.trans ha'
      cases hb.symm.trans hb'
      exact hfree
    · exact absurd hz monitoredProxy_order
  refine ⟨fun z hz => ?_, fun _ => ⟨0, ?_⟩⟩
  · exact monitoredProxy_linked.mpr ⟨(monitoredProxy_linked.mp hz).1, hfree.2⟩
  · exact monitoredProxy_linked.mpr ⟨rfl, hfree.1⟩

def deepTree : UserInput where
  functions := ["pktgen", "iptables", "NetFlow", "snort", "NIDScluster"]
  positional := [("pktgen", "first")]
  orderDependencies := [("iptables", "NetFlow"), ("iptables", "snort"), ("snort", "NIDScluster")]
  priorities := []
  receiverIp := "13.58.167.87"
  receiverPort := 11000

/-- The leaves of the tree lie at different depths, and no node is the parent of both. -/
theorem construct_parents_deepTree :
    deepTree.functions.Nodup ∧ (Acyclic fun a b => (a, b) ∈ deepTree.orderDependencies) ∧
      ∃ o, Orchestrator.construct actionTableJson deepTree (.ascending 5) = .ok o ∧
        o.graph.nodes.edges = [(0, 1), (1, 2), (1, 3), (3, 4)] ∧
        { major := 2, minor := 4, parent := 1 } ∈ o.mergerInfo.conflictsList ∧
        ¬ o.ParentOfBoth { major := 2, minor := 4, parent := 1 } := by
  refine ⟨by decide, acyclic_of_listed (by decide), ?_⟩
  obtain ⟨o, ho, hedges, hci⟩ := Rounds.exists_ok (P := fun o : Orchestrator =>
      o.graph.nodes.edges = [(0, 1), (1, 2), (1, 3), (3, 4)] ∧
      { major := 2, minor := 4, parent := 1 } ∈ o.mergerInfo.conflictsList)
    (x := Orchestrator.construct actionTableJson deepTree (.ascending 5)) (by decide)
  refine ⟨o, ho, hedges, hci, ?_⟩
  rintro (⟨z, x, y, hz, -, hy, -, he⟩ | ⟨hp, -⟩)
  · obtain rfl : 1 = z := Int.natCast_inj.mp hz
    obtain rfl : 4 = y := Int.natCast_inj.mp hy
    rw [← (construct_assembled ho).mirror.mem_edges, hedges] at he
    exact absurd he (by decide)
  · exact absurd hp (by decide)

end DeepNF
