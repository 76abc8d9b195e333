import DeepNF.MergerRest
import DeepNF.OverlayRuns
import DeepNF.Provenance

/-!
# What the merger gets from the machines

The walks in the graph tell how much the machines deliver. Traffic comes to an end if and only if no cycle is reached
from the packet generator (`bounded_iff_acyclic`); the merger gets each id once from each leaf, as it relies on, if and
only if there is one walk to each leaf and the ids do not come round again (`oncePerLeaf_iff`). Then the merger sends
one packet for each packet of the generator, if nothing is lost and no test is pending when the last packet of an id
comes (`merged_of_complete`).
-/

namespace DeepNF.Overlay
open Walks Flood Relation
open Std (TreeMap)
open MergerOperator (Calm Collects Configured Delivered OncePerLeaf deliveries exec exec_inv exec_single)

variable {net : Overlay} {g : ConfigNode} {n : Nat} {s : State Datagram} {u v : Int} {l l' : List Int} {i j : Nat}

/-! ### How many datagrams there are -/

theorem finite_reachable (hg : net.Generator g) : {x | ReflTransGen net.Forwards g.id x}.Finite := by
  refine (List.finite_toSet (net.nodes.map (·.id))).subset fun x hx => ?_
  obtain ⟨l, hw, -⟩ := Walk.exists_of_reflTransGen hx
  obtain ⟨n, hn, hid⟩ := walk_node hg hw
  exact List.mem_map.mpr ⟨n, hn, hid⟩

theorem finite_stages (hg : net.Generator g) (hac : AcyclicBelow net.Forwards g.id) :
    {stage : Stage | stage.Valid net g.id}.Finite := by
  have hwalks := (finite_walks_iff (finite_reachable hg)).mpr hac
  have hnodes := finite_reachable hg
  refine ((((hnodes.prod (hnodes.prod hwalks)).image fun x => Stage.arrived x.1 x.2.1 x.2.2).union
    ((hnodes.prod (hnodes.prod hwalks)).image fun x => Stage.atForwarder x.1 x.2.1 x.2.2)).union
    ((hnodes.prod hwalks).image fun x => Stage.atMerger x.1 x.2)).subset ?_
  intro stage hvalid
  cases stage with
  | arrived v u l =>
    obtain ⟨hw, hv⟩ := hvalid
    exact .inl (.inl ⟨(v, u, l), ⟨hw.reflTransGen.tail hv, hw.reflTransGen, u, hw⟩, rfl⟩)
  | atForwarder v u l =>
    obtain ⟨⟨hw, hv⟩, -⟩ := hvalid
    exact .inl (.inr ⟨(v, u, l), ⟨hw.reflTransGen.tail hv, hw.reflTransGen, u, hw⟩, rfl⟩)
  | atMerger u l =>
    obtain ⟨hw, -⟩ := hvalid
    exact .inr ⟨(u, l), ⟨hw.reflTransGen, u, hw⟩, rfl⟩

/-- A walk on which a packet is sent leaves its own trail. -/
theorem finite_walks (hg : net.Generator g) (h0 : 0 < net.numPacketsSent)
    (hfin : {t | IsTrail net.react net.sources t}.Finite) : {l | ∃ b, Walk net.Forwards g.id l b}.Finite := by
  have hlong : {l | ∃ u v m, Walk net.Forwards g.id m u ∧ net.Forwards u v ∧ l = v :: m}.Finite := by
    refine Set.Finite.of_injOn (f := net.trailOf 0)
      (t := (fun t => t.1 :: t.2) '' {t | IsTrail net.react net.sources t}) ?_ ?_ (hfin.image _)
    · rintro _ ⟨u, v, m, hw, hv, rfl⟩
      have ht : IsTrail net.react net.sources ((Stage.arrived v u m).trail net 0) :=
        (isTrail_iff hg).mpr ⟨0, by omega, .arrived v u m, ⟨hw, hv⟩, rfl⟩
      exact ⟨_, ht, (trailOf_step hw v 0).symm⟩
    · rintro _ ⟨u, v, m, hw, hv, rfl⟩ _ ⟨u', v', m', hw', hv', rfl⟩ he
      obtain ⟨-, rfl, rfl⟩ := trailOf_inj hg hw hv hw' hv' he
      rfl
  refine (hlong.insert [g.id]).subset ?_
  rintro l ⟨b, hw⟩
  cases hw with
  | start => exact .inl rfl
  | @step m u _ hw hv => exact .inr ⟨u, b, m, hw, hv, rfl⟩

theorem finite_trails_iff (hg : net.Generator g) :
    {t | IsTrail net.react net.sources t}.Finite ↔ net.numPacketsSent ≤ 0 ∨ AcyclicBelow net.Forwards g.id := by
  constructor
  · intro hfin
    rcases le_or_gt net.numPacketsSent 0 with h0 | h0
    · exact .inl h0
    · exact .inr ((finite_walks_iff (finite_reachable hg)).mp (finite_walks hg h0 hfin))
  · rintro (h0 | hac)
    · refine Set.finite_empty.subset fun t ht => ?_
      obtain ⟨i, hi, -⟩ := (isTrail_iff hg).mp ht
      omega
    · refine ((Set.finite_Iio net.numPacketsSent.toNat).image2 (fun i stage => stage.trail net i)
        (finite_stages hg hac)).subset fun t ht => ?_
      obtain ⟨i, hi, stage, hvalid, rfl⟩ := (isTrail_iff hg).mp ht
      exact ⟨i, hi, stage, hvalid, rfl⟩

/-- Without a cycle some run delivers everything. -/
theorem exists_complete (hg : net.Generator g) (hac : AcyclicBelow net.Forwards g.id) :
    ∃ s, Complete net.react net.sources s :=
  Flood.exists_complete (nodup_react hg) (nodup_sources hg) ((finite_trails_iff hg).mpr (.inr hac))

theorem twoMachines_generator : twoMachines.Generator pktgenNode :=
  ⟨by decide, rfl, by decide⟩

theorem twoMachines_forwards : twoMachines.Forwards u v ↔ u = 0 ∧ (v = 1 ∨ v = 2) ∨ u = 1 ∧ v = 2 := by
  unfold Forwards
  simp only [twoMachines, List.mem_cons, List.not_mem_nil, or_false, exists_eq_or_imp, exists_eq_left]
  simp [pktgenNode, firewallNode, proxyNode, eq_comm]

theorem twoMachines_acyclic (a : Int) : AcyclicBelow twoMachines.Forwards a := by
  refine Acyclic.below (fun x hx => ?_) a
  have hlt : ∀ y z, TransGen twoMachines.Forwards y z → y < z := by
    intro y z h
    induction h with
    | single he => have := twoMachines_forwards.mp he; omega
    | tail _ he ih => have := twoMachines_forwards.mp he; omega
  exact absurd (hlt x x hx) (lt_irrefl x)

theorem twoMachines_complete : ∃ s, Complete twoMachines.react twoMachines.sources s :=
  exists_complete twoMachines_generator (twoMachines_acyclic 0)

theorem twoMachines_sent : twoMachines.Sent 0 (0, 0, [0]) ∧ twoMachines.Sent 0 (0, 1, [1, 0]) ∧
    twoMachines.Sent 0 (0, 2, [2, 0]) ∧ twoMachines.Sent 0 (0, 2, [2, 1, 0]) := by
  have h01 : twoMachines.Forwards 0 1 := twoMachines_forwards.mpr (by decide)
  have h02 : twoMachines.Forwards 0 2 := twoMachines_forwards.mpr (by decide)
  have h12 : twoMachines.Forwards 1 2 := twoMachines_forwards.mpr (by decide)
  have hlt : 0 < twoMachines.numPacketsSent.toNat := (by decide : 0 < (10 : Int).toNat)
  exact ⟨⟨hlt, .start⟩, ⟨hlt, .step .start h01⟩, ⟨hlt, .step .start h02⟩, hlt, .step (.step .start h01) h12⟩

/-- In every run a network function receives packets along different walks to it, the packet generator's through the
functions on the way; and in a run without losses, at its end, along all of them. -/
theorem run_container (hg : net.Generator g) {n : ConfigNode} (hn : n ∈ net.nodes) {steps : Nat}
    {s : State Datagram} (h : Run net.react net.sources steps s) : ∃ xs : List (Nat × Int × List Int), xs.Nodup ∧
      (∀ x ∈ xs, net.Sent g.id x ∧ net.Forwards x.2.1 n.id) ∧
      s.handled.filterMap (net.atContainer n.id) = xs.map (fun x => net.along x.1 x.2.2) ∧
      (s.lost = 0 → s.inFlight = 0 → ∀ x, net.Sent g.id x → net.Forwards x.2.1 n.id → x ∈ xs) := by
  obtain ⟨L, hL⟩ := h.accounts (nodup_sources hg) (nodup_react hg)
  obtain ⟨xs, hnd, hvalid, hread, hin⟩ := exists_atContainer hg hn hL
  refine ⟨xs, hnd, hvalid, hread, fun hlost hquiet x hx hv => hin x ⟨hx, hv⟩ ?_⟩
  exact (hL.mem_handled_iff hlost hquiet _).mpr
    ((isTrail_iff hg).mpr ⟨x.1, hx.1, .arrived n.id x.2.1 x.2.2, ⟨hx.2, hv⟩, rfl⟩)

theorem run_container_twoMachines : ∃ (s : State Datagram) (xs : List (Nat × Int × List Int)),
    Complete twoMachines.react twoMachines.sources s ∧
    s.handled.filterMap (twoMachines.atContainer 2) = xs.map (fun x => twoMachines.along x.1 x.2.2) ∧
    (0, 0, [0]) ∈ xs ∧ (0, 1, [1, 0]) ∈ xs := by
  obtain ⟨s, hs⟩ := twoMachines_complete
  obtain ⟨⟨n, hrun⟩, hlost, hquiet⟩ := hs
  have hproxy : proxyNode ∈ twoMachines.nodes := .tail _ (.tail _ (.head _))
  obtain ⟨xs, -, -, hread, hall⟩ := run_container twoMachines_generator hproxy hrun
  obtain ⟨hpktgen, hfirewall, -, -⟩ := twoMachines_sent
  exact ⟨s, xs, ⟨⟨n, hrun⟩, hlost, hquiet⟩, hread,
    hall hlost hquiet _ hpktgen (twoMachines_forwards.mpr (by decide)),
    hall hlost hquiet _ hfirewall (twoMachines_forwards.mpr (by decide))⟩

/-- The same for the merger and the walks to the leaves. -/
theorem run_merger (hg : net.Generator g) {steps : Nat} {s : State Datagram}
    (h : Run net.react net.sources steps s) : ∃ xs : List (Nat × Int × List Int), xs.Nodup ∧
      (∀ x ∈ xs, net.Sent g.id x ∧ ∀ v, ¬ net.Forwards x.2.1 v) ∧
      s.handled.filterMap net.atMerger = xs.map (fun x => (x.2.1, net.along x.1 x.2.2)) ∧
      (s.lost = 0 → s.inFlight = 0 → ∀ x, net.Sent g.id x → (∀ v, ¬ net.Forwards x.2.1 v) → x ∈ xs) := by
  obtain ⟨L, hL⟩ := h.accounts (nodup_sources hg) (nodup_react hg)
  obtain ⟨xs, hnd, hvalid, hread, hin⟩ := exists_atMerger hg hL
  refine ⟨xs, hnd, hvalid, hread, fun hlost hquiet x hx hno => hin x ⟨hx, hno⟩ ?_⟩
  exact (hL.mem_handled_iff hlost hquiet _).mpr
    ((isTrail_iff hg).mpr ⟨x.1, hx.1, .atMerger x.2.1 x.2.2, ⟨hx.2, hno⟩, rfl⟩)

theorem run_merger_twoMachines : ∃ (s : State Datagram) (xs : List (Nat × Int × List Int)),
    Complete twoMachines.react twoMachines.sources s ∧
    s.handled.filterMap twoMachines.atMerger = xs.map (fun x => (x.2.1, twoMachines.along x.1 x.2.2)) ∧
    (0, 2, [2, 0]) ∈ xs ∧ (0, 2, [2, 1, 0]) ∈ xs := by
  obtain ⟨s, hs⟩ := twoMachines_complete
  obtain ⟨⟨n, hrun⟩, hlost, hquiet⟩ := hs
  obtain ⟨xs, -, -, hread, hall⟩ := run_merger twoMachines_generator hrun
  obtain ⟨-, -, hpktgen, hfirewall⟩ := twoMachines_sent
  have hleaf : ∀ v, ¬ twoMachines.Forwards 2 v := fun v hv => by
    have := twoMachines_forwards.mp hv
    omega
  exact ⟨s, xs, ⟨⟨n, hrun⟩, hlost, hquiet⟩, hread, hall hlost hquiet _ hpktgen hleaf,
    hall hlost hquiet _ hfirewall hleaf⟩

/-! ### Once from each leaf -/

theorem ipId_call (p : Packet) (c : Call) : (p.call c).ipId = p.ipId := by
  cases c <;> simp [Packet.call]

theorem ipId_calls (p : Packet) (cs : List Call) : (p.calls cs).ipId = p.ipId := by
  induction cs generalizing p with
  | nil => rfl
  | cons c cs ih => exact (ih (p.call c)).trans (ipId_call p c)

theorem exists_calls_processAt (v : Int) (p : Packet) : ∃ cs, .nullify ∉ cs ∧ net.processAt v p = p.calls cs := by
  rw [processAt]
  split
  · rename_i n _
    refine ⟨n.nf.started.calls, ?_, rfl⟩
    cases n.nf <;> simp [NF.started, Behavior.calls]
  · exact ⟨[], by simp, rfl⟩

theorem rawId_along (net : Overlay) (i : Nat) (l : List Int) : (net.along i l).rawId = (senderPacket i).rawId := by
  induction l with
  | nil => rfl
  | cons v l ih =>
    cases l with
    | nil => rfl
    | cons u l =>
      obtain ⟨cs, -, hcs⟩ := exists_calls_processAt v (net.along i (u :: l))
      rw [along, hcs, ← ih, Packet.rawId_eq_iff, ipId_calls]

theorem isNull_along (net : Overlay) (i : Nat) (l : List Int) : (net.along i l).isNull = false := by
  have hsender : (senderPacket i).isNull = false := by
    refine Bool.eq_false_iff.mpr fun h => ?_
    obtain ⟨hzero, -⟩ := Packet.isNull_iff.mp h
    exact absurd ((Packet.source_make ..).symm.trans hzero) (by decide)
  induction l with
  | nil => exact hsender
  | cons v l ih =>
    cases l with
    | nil => exact hsender
    | cons u l =>
      obtain ⟨cs, hnot, hcs⟩ := exists_calls_processAt v (net.along i (u :: l))
      rw [along, hcs, Packet.isNull_calls hnot, ih]

theorem exists_run_pair (hg : net.Generator g) {x y : Nat × Int × List Int}
    (hx : net.Sent g.id x ∧ ∀ v, ¬ net.Forwards x.2.1 v) (hy : net.Sent g.id y ∧ ∀ v, ¬ net.Forwards y.2.1 v) :
    ∃ (n : Nat) (s : State Datagram) (xs : List (Nat × Int × List Int)), Run net.react net.sources n s ∧ xs.Nodup ∧
      x ∈ xs ∧ y ∈ xs ∧ s.handled.filterMap net.atMerger = xs.map fun x => (x.2.1, net.along x.1 x.2.2) := by
  have htrail : ∀ x : Nat × Int × List Int, (net.Sent g.id x ∧ ∀ v, ¬ net.Forwards x.2.1 v) →
      IsTrail net.react net.sources ((Stage.atMerger x.2.1 x.2.2).trail net x.1) := fun x hx =>
    (isTrail_iff hg).mpr ⟨x.1, hx.1.1, .atMerger x.2.1 x.2.2, ⟨hx.1.2, hx.2⟩, rfl⟩
  have hreact : ∀ t, IsTrail net.react net.sources t → (net.react t.1).Nodup := nodup_react hg
  obtain ⟨n₁, s₁, L₁, h₁, hL₁, hlost₁, -, hin₁⟩ :=
    Run.exists_handled hreact .start (.start (nodup_sources hg)) rfl (htrail x hx)
  obtain ⟨n₂, s₂, L₂, h₂, hL₂, -, hsub, hin₂⟩ := Run.exists_handled hreact h₁ hL₁ hlost₁ (htrail y hy)
  obtain ⟨xs, hnd, -, hread, hin⟩ := exists_atMerger hg hL₂
  exact ⟨n₂, s₂, xs, h₂, hnd, hin x hx (hsub hin₁), hin y hy hin₂, hread⟩

theorem oncePerLeaf_map (xs : List (Nat × Int × List Int)) :
    OncePerLeaf (xs.map fun x => (x.2.1, net.along x.1 x.2.2)) ↔
      (xs.map fun x => (x.2.1, (senderPacket x.1).rawId)).Nodup := by
  rw [OncePerLeaf, List.map_map]
  simp only [Function.comp_def, rawId_along]

/-- No leaf is reached along two walks, and the 16 bits of the id are enough for all packets that reach one. -/
def OneWalk (net : Overlay) (g : Int) : Prop :=
  (∀ u, (∀ v, ¬ net.Forwards u v) → ∀ l l', Walk net.Forwards g l u → Walk net.Forwards g l' u → l = l') ∧
    (net.numPacketsSent ≤ 65536 ∨ ∀ u, ReflTransGen net.Forwards g u → ∃ v, net.Forwards u v)

theorem OneWalk.nodup (h : net.OneWalk g.id) {xs : List (Nat × Int × List Int)} (hnd : xs.Nodup)
    (hvalid : ∀ x ∈ xs, net.Sent g.id x ∧ ∀ v, ¬ net.Forwards x.2.1 v) :
    (xs.map fun x => (x.2.1, (senderPacket x.1).rawId)).Nodup := by
  refine hnd.map_on ?_
  rintro ⟨i, u, l⟩ hx ⟨j, u', l'⟩ hy he
  obtain ⟨⟨hi, hw⟩, hno⟩ := hvalid _ hx
  obtain ⟨⟨hj, hw'⟩, -⟩ := hvalid _ hy
  obtain ⟨hu, hid⟩ := Prod.mk.inj he
  dsimp only at hi hw hno hj hw' hu hid
  subst hu
  rw [senderPacket_rawId] at hid
  rcases h with ⟨huniq, hfew | hnone⟩
  · rw [huniq u hno l l' hw hw', show i = j by omega]
  · obtain ⟨v, hv⟩ := hnone u hw.reflTransGen
    exact absurd hv (hno v)

/-- The merger gets each id at most once from each leaf, in every run, if and only if nothing is sent, or no leaf is
reached along two walks and the ids of the packets that reach one are different. -/
theorem oncePerLeaf_iff (hg : net.Generator g) :
    (∀ n s, Run net.react net.sources n s → OncePerLeaf (s.handled.filterMap net.atMerger)) ↔
      net.numPacketsSent ≤ 0 ∨ net.OneWalk g.id := by
  constructor
  · intro h
    -- two packets of a leaf that have one id are the same
    have hpair : ∀ u i j l l', (∀ v, ¬ net.Forwards u v) → i < net.numPacketsSent.toNat →
        j < net.numPacketsSent.toNat → i % 65536 = j % 65536 → Walk net.Forwards g.id l u →
        Walk net.Forwards g.id l' u → i = j ∧ l = l' := by
      intro u i j l l' hno hi hj hij hw hw'
      obtain ⟨n, s, xs, hrun, -, hx, hy, hread⟩ :=
        exists_run_pair hg (x := (i, u, l)) (y := (j, u, l')) ⟨⟨hi, hw⟩, hno⟩ ⟨⟨hj, hw'⟩, hno⟩
      have honce := h n s hrun
      rw [hread, oncePerLeaf_map] at honce
      have hkey : (u, (senderPacket i).rawId) = (u, (senderPacket j).rawId) := by rw [senderPacket_rawId.mpr hij]
      have heq := List.inj_on_of_nodup_map honce hx hy hkey
      exact ⟨congrArg (fun x => x.1) heq, congrArg (fun x => x.2.2) heq⟩
    rcases le_or_gt net.numPacketsSent 0 with h0 | h0
    · exact .inl h0
    · refine .inr ⟨fun u hno l l' hw hw' => (hpair u 0 0 l l' hno (by omega) (by omega) rfl hw hw').2, ?_⟩
      by_contra hcon
      push Not at hcon
      obtain ⟨hmany, u, hu, hno⟩ := hcon
      obtain ⟨l, hw, -⟩ := Walk.exists_of_reflTransGen hu
      have := (hpair u 0 65536 l l hno (by omega) (by omega) rfl hw hw).1
      omega
  · intro hcond n s hrun
    obtain ⟨L, hL⟩ := hrun.accounts (nodup_sources hg) (nodup_react hg)
    obtain ⟨xs, hnd, hvalid, hread, -⟩ := exists_atMerger hg hL
    rw [hread, oncePerLeaf_map]
    rcases hcond with h0 | hone
    · have hnil : xs = [] := by
        refine List.eq_nil_iff_forall_not_mem.mpr fun x hx => ?_
        have := (hvalid x hx).1.1
        omega
      rw [hnil]
      exact List.nodup_nil
    · exact hone.nodup hnd hvalid

/-- The proxy sends each packet twice to the merger. -/
theorem oncePerLeaf_iff_twoMachines : ¬ ∀ n s, Run twoMachines.react twoMachines.sources n s →
    OncePerLeaf (s.handled.filterMap twoMachines.atMerger) := by
  intro h
  rcases (oncePerLeaf_iff twoMachines_generator).mp h with h0 | ⟨huniq, -⟩
  · exact absurd h0 (by decide : ¬ (10 : Int) ≤ 0)
  · have hleaf : ∀ v, ¬ twoMachines.Forwards 2 v := fun v hv => by
      have := twoMachines_forwards.mp hv
      omega
    obtain ⟨-, -, hpktgen, hfirewall⟩ := twoMachines_sent
    exact absurd (huniq 2 hleaf _ _ hpktgen.2 hfirewall.2) (by decide)

/-! ### What the merger sends -/

/-- Each leaf is reached, along one walk, and there is one; no id comes round again. -/
structure Routed (net : Overlay) (g : Int) : Prop where
  few : net.numPacketsSent ≤ 65536
  walk : ∀ n ∈ net.nodes, (∀ v, ¬ net.Forwards n.id v) → ∃! l, Walk net.Forwards g l n.id
  leaf : ∃ n ∈ net.nodes, ∀ v, ¬ net.Forwards n.id v

theorem Routed.oneWalk (hg : net.Generator g) (hr : net.Routed g.id) : net.OneWalk g.id := by
  refine ⟨fun u hno l l' hw hw' => ?_, .inl hr.few⟩
  obtain ⟨n, hn, rfl⟩ := walk_node hg hw
  exact (hr.walk n hn hno).unique hw hw'

theorem Routed.oncePerLeaf (hg : net.Generator g) (hr : net.Routed g.id) (hrun : Run net.react net.sources n s) :
    OncePerLeaf (s.handled.filterMap net.atMerger) := by
  obtain ⟨L, hL⟩ := hrun.accounts (nodup_sources hg) (nodup_react hg)
  obtain ⟨xs, hnd, hvalid, hread, -⟩ := exists_atMerger hg hL
  rw [hread, oncePerLeaf_map]
  exact (hr.oneWalk hg).nodup hnd hvalid

theorem mem_leaves {mi : MergerInfo} (hports : mi.portToNodeMap = net.leafPorts) {k : Int} :
    k ∈ mi.leaves ↔ ∃ n ∈ net.nodes, n.id = k ∧ ∀ v, ¬ net.Forwards n.id v := by
  simp only [MergerInfo.leaves, List.mem_map, Prod.exists, TreeMap.mem_toList_iff_getElem?_eq_some, hports,
    exists_eq_right]
  constructor
  · rintro ⟨port, hport⟩
    obtain ⟨⟨rn, hrn, -, hid⟩, -⟩ := getElem?_portToNodeMap.mp hport
    obtain ⟨n, hn, rfl⟩ := List.mem_map.mp hrn
    have hid : n.id = k := hid
    subst hid
    exact ⟨n, hn, rfl, ((leafPorts_iff hn).mp hport).1⟩
  · rintro ⟨n, hn, rfl, hno⟩
    exact ⟨_, (leafPorts_iff hn).mpr ⟨hno, rfl⟩⟩

theorem atMerger_mem {mi : MergerInfo} (hports : mi.portToNodeMap = net.leafPorts) {d : Datagram} {x : Int × Packet}
    (hx : net.atMerger d = some x) : x.1 ∈ mi.leaves := by
  unfold atMerger at hx
  split at hx
  · cases hx
  · split at hx
    · obtain ⟨k, hk, hx⟩ := Option.bind_eq_some_iff.mp hx
      obtain ⟨p, -, hx⟩ := Option.bind_eq_some_iff.mp hx
      obtain rfl := Option.some.inj hx
      exact List.mem_map.mpr ⟨(_, k), TreeMap.mem_toList_iff_getElem?_eq_some.mpr (hports ▸ hk), rfl⟩
    · cases hx

/-- What leaf `k` makes of packet `i`. -/
def LeafPacket (net : Overlay) (g : Int) (i : Nat) (k : Int) (p : Packet) : Prop :=
  (∀ v, ¬ net.Forwards k v) ∧ ∃ l, Walk net.Forwards g l k ∧ p = net.along i l

theorem LeafPacket.rawId {k : Int} {p : Packet} (h : net.LeafPacket g.id i k p) :
    p.rawId = (senderPacket i).rawId := by
  obtain ⟨-, l, -, rfl⟩ := h
  exact rawId_along net i l

theorem LeafPacket.isNull {k : Int} {p : Packet} (h : net.LeafPacket g.id i k p) : p.isNull = false := by
  obtain ⟨-, l, -, rfl⟩ := h
  exact isNull_along net i l

theorem atMerger_of_complete (hg : net.Generator g) (hs : Complete net.react net.sources s) :
    ∃ xs : List (Nat × Int × List Int), xs.Nodup ∧
      (∀ x, x ∈ xs ↔ net.Sent g.id x ∧ ∀ v, ¬ net.Forwards x.2.1 v) ∧
      s.handled.filterMap net.atMerger = xs.map fun x => (x.2.1, net.along x.1 x.2.2) := by
  obtain ⟨⟨n, hrun⟩, hlost, hquiet⟩ := hs
  obtain ⟨L, hL⟩ := hrun.accounts (nodup_sources hg) (nodup_react hg)
  obtain ⟨xs, hnd, hvalid, hread, hin⟩ := exists_atMerger hg hL
  refine ⟨xs, hnd, fun x => ⟨hvalid x, fun hx => hin x hx ?_⟩, hread⟩
  exact (hL.mem_handled_iff hlost hquiet _).mpr
    ((isTrail_iff hg).mpr ⟨x.1, hx.1.1, .atMerger x.2.1 x.2.2, ⟨hx.1.2, hx.2⟩, rfl⟩)

/-- `r` is the merge of what the leaves make of packet `i`: it has the id of that packet, and is not dropped. -/
structure MergeOf (net : Overlay) (g : Int) (sweeps : Nat) (mi : MergerInfo) (i : Nat) (pkts : TreeMap Int Packet)
    (r : Packet) : Prop where
  pkts_iff : ∀ (k : Int) (p : Packet), pkts[k]? = some p ↔ net.LeafPacket g i k p
  merge : MergerOperator.MergesTo mi sweeps pkts r
  rawId : r.rawId = (senderPacket i).rawId
  isNull : r.isNull = false

theorem senderPacket_rawId_inj (hr : net.Routed g.id) (hi : i < net.numPacketsSent.toNat)
    (hj : j < net.numPacketsSent.toNat) (h : (senderPacket i).rawId = (senderPacket j).rawId) : i = j := by
  have hfew := hr.few
  rw [senderPacket_rawId] at h
  omega

section Merger
variable (hg : net.Generator g) (hr : net.Routed g.id) {mi : MergerInfo} (hports : mi.portToNodeMap = net.leafPorts)
  {sweeps : Nat} (hcfg : Configured sweeps mi) {acts : List MergerOperator.Action}
  (hacts : deliveries acts = s.handled.filterMap net.atMerger) {m : MergerOperator.State}
  (hrun : exec sweeps mi acts = some m) (hcalm : Calm sweeps mi acts)

include hg in
theorem leafPacket_of_mem (hs : Run net.react net.sources n s) {k : Int} {p : Packet}
    (h : (k, p) ∈ s.handled.filterMap net.atMerger) :
    ∃ i < net.numPacketsSent.toNat, net.LeafPacket g.id i k p := by
  obtain ⟨L, hL⟩ := hs.accounts (nodup_sources hg) (nodup_react hg)
  obtain ⟨xs, -, hvalid, hread, -⟩ := exists_atMerger hg hL
  rw [hread] at h
  obtain ⟨⟨i, u, l⟩, hx, he⟩ := List.mem_map.mp h
  obtain ⟨⟨hi, hw⟩, hno⟩ := hvalid _ hx
  cases he
  exact ⟨i, hi, hno, l, hw, rfl⟩

include hg hr hports in
theorem collects_iff (hs : Run net.react net.sources n s) {pkts : TreeMap Int Packet}
    (hi : i < net.numPacketsSent.toNat)
    (hcomplete : MergerOperator.Complete mi (s.handled.filterMap net.atMerger) (senderPacket i).rawId)
    (hcoll : Collects (s.handled.filterMap net.atMerger) (senderPacket i).rawId pkts) (k : Int) (p : Packet) :
    pkts[k]? = some p ↔ net.LeafPacket g.id i k p := by
  have hleaf : ∀ {k : Int} {p : Packet}, (k, p) ∈ s.handled.filterMap net.atMerger →
      p.rawId = (senderPacket i).rawId → net.LeafPacket g.id i k p := by
    intro k p hmem hid
    obtain ⟨j, hj, hp⟩ := leafPacket_of_mem hg hs hmem
    rwa [senderPacket_rawId_inj hr hi hj (hid.symm.trans hp.rawId)]
  rw [hcoll]
  constructor
  · exact fun h => hleaf h.1 h.2
  · intro h
    obtain ⟨hno, l, hw, rfl⟩ := id h
    obtain ⟨x, hx, rfl⟩ := walk_node hg hw
    obtain ⟨q, hq, hid⟩ := hcomplete x.id ((mem_leaves hports).mpr ⟨x, hx, rfl, hno⟩)
    -- there is one walk to the leaf
    obtain ⟨-, l', hw', rfl⟩ := hleaf hq hid
    rw [(hr.walk x hx hno).unique hw hw']
    exact ⟨hq, hid⟩

include hg hr hports hcfg hacts hrun hcalm in
/-- Whatever gets lost on the way to the merger: it merges an id at most once, and then what all leaves have made of
one packet. -/
theorem merged_of_run (hs : Run net.react net.sources n s) : (m.merges.map (·.packetId)).Nodup ∧
    ∀ t ∈ m.merges, ∃ i < net.numPacketsSent.toNat, t.packetId = (senderPacket i).rawId ∧
      ∀ pkts r, t.phase.found = some (pkts, r) → net.MergeOf g.id sweeps mi i pkts r := by
  have ho : OncePerLeaf (deliveries acts) := hacts ▸ hr.oncePerLeaf hg hs
  have hinv := exec_inv hcfg.nodup ho hrun
  have hsingle := exec_single hcfg ho hcalm hrun
  rw [hacts] at hinv hsingle
  refine ⟨hsingle.nodup, fun t ht => ?_⟩
  obtain ⟨hcomplete, k, p, hp, hid⟩ := hinv.thread t ht
  obtain ⟨i, hi, hleaf⟩ := leafPacket_of_mem hg hs hp
  have hti : t.packetId = (senderPacket i).rawId := hid.symm.trans hleaf.rawId
  refine ⟨i, hi, hti, fun pkts r hfound => ?_⟩
  obtain ⟨hcoll, hmerge⟩ := hsingle.found t ht pkts r hfound
  rw [hti] at hcomplete hcoll
  have hpkts := collects_iff hg hr hports hs hi hcomplete hcoll
  obtain ⟨memory, hmemory⟩ := hmerge
  have hstems := mergePacket_stems (fun k p h => ((hpkts k p).mp h).isNull) hmemory
  refine ⟨hpkts, ⟨memory, hmemory⟩, ?_, hstems.isNull⟩
  obtain ⟨k, q, hq, -, -, hqid⟩ := hstems.header
  rw [Packet.rawId_eq_iff.mpr hqid]
  exact ((hpkts k q).mp hq).rawId

include hg hr hports hcfg hacts hrun hcalm in
/-- When the machines have delivered everything and the threads of the merger are through, it has merged once for each
packet of the generator: it has sent one packet, the merge of what the functions on the walks to the leaves have made
of it. -/
theorem merged_of_complete (hs : Complete net.react net.sources s) (hidle : m.Idle) :
    (m.merges.map (·.packetId)).Perm ((List.range net.numPacketsSent.toNat).map fun i => (senderPacket i).rawId) ∧
    ∀ i < net.numPacketsSent.toNat, ∃ pkts r, m.sentFor (senderPacket i).rawId = [(pkts, r)] ∧
      net.MergeOf g.id sweeps mi i pkts r := by
  obtain ⟨⟨steps, hsteps⟩, hlost, hquiet⟩ := hs
  have ho : OncePerLeaf (deliveries acts) := hacts ▸ hr.oncePerLeaf hg hsteps
  have hinv := exec_inv hcfg.nodup ho hrun
  have hsingle := exec_single hcfg ho hcalm hrun
  obtain ⟨hnd, hmerged⟩ := merged_of_run hg hr hports hcfg hacts hrun hcalm hsteps
  -- each leaf has delivered the packet
  have hdelivered : ∀ i < net.numPacketsSent.toNat, ∀ x ∈ net.nodes, (∀ v, ¬ net.Forwards x.id v) →
      Delivered (deliveries acts) x.id (senderPacket i).rawId := by
    intro i hi x hx hno
    obtain ⟨xs, -, hxs, hread⟩ := atMerger_of_complete hg ⟨⟨steps, hsteps⟩, hlost, hquiet⟩
    obtain ⟨l, hw, -⟩ := hr.walk x hx hno
    rw [hacts, hread]
    exact ⟨_, List.mem_map.mpr ⟨(i, x.id, l), (hxs _).mpr ⟨⟨hi, hw⟩, hno⟩, rfl⟩, rawId_along net i l⟩
  have hthread : ∀ i < net.numPacketsSent.toNat, ∃ t ∈ m.merges, t.packetId = (senderPacket i).rawId := by
    intro i hi
    obtain ⟨x, hx, hno⟩ := hr.leaf
    refine (hinv.trigger _ _ (hdelivered i hi x hx hno) fun k hk => ?_).resolve_right ?_
    · obtain ⟨x, hx, rfl, hno⟩ := (mem_leaves hports).mp hk
      exact hdelivered i hi x hx hno
    · rintro ⟨k, h, hk⟩
      rw [hidle.1 k] at hk
      cases hk
  constructor
  · have hids : ((List.range net.numPacketsSent.toNat).map fun i => (senderPacket i).rawId).Nodup :=
      List.nodup_range.map_on fun i hi j hj he =>
        senderPacket_rawId_inj hr (List.mem_range.mp hi) (List.mem_range.mp hj) he
    refine (List.perm_ext_iff_of_nodup hnd hids).mpr fun id => ?_
    simp only [List.mem_map, List.mem_range]
    constructor
    · rintro ⟨t, ht, rfl⟩
      obtain ⟨i, hi, hti, -⟩ := hmerged t ht
      exact ⟨i, hi, hti.symm⟩
    · rintro ⟨i, hi, rfl⟩
      exact hthread i hi
  · intro i hi
    obtain ⟨t, ht, hti⟩ := hthread i hi
    obtain ⟨j, hj, htj, hfound⟩ := hmerged t ht
    obtain rfl := senderPacket_rawId_inj hr hi hj (hti.symm.trans htj)
    obtain ⟨pkts, r, hph⟩ := hidle.2 t ht
    refine ⟨pkts, r, ?_, hfound pkts r (by rw [hph]; rfl)⟩
    rw [← hti]
    simp [MergerOperator.State.sentFor, hsingle.mergesOf_eq ht, hph, MergerOperator.Phase.sent?]

end Merger
end DeepNF.Overlay
