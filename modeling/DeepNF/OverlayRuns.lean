import DeepNF.Flood
import DeepNF.Overlay

/-!
# Packets on their way through the machines

The processes of an `Overlay` with the datagrams between them are a `Flood`: a process takes one of the datagrams that
are in flight for its socket, any of them, or the network loses it. `isTrail_iff`: the datagrams of all runs are those
of the walks from the packet generator, and what a function sends on a walk has been through the functions before it
(`along`). So the programs on the machines do what the graph says: `run_container` for what a function receives,
`run_merger` for the merger.
-/

namespace DeepNF.Overlay
open Walks Flood

variable (net : Overlay)

def Forwards (u v : Int) : Prop := ∃ n ∈ net.nodes, n.id = u ∧ v ∈ n.neighbors

def node? (v : Int) : Option ConfigNode := net.nodes.find? (·.id = v)

def processAt (v : Int) (p : Packet) : Packet :=
  match net.node? v with
  | some n => n.nf.started.process p
  | none => p

/-- What the last node of a walk, latest first, sends for packet `i`. -/
def along (i : Nat) : List Int → Packet
  | v :: u :: l => net.processAt v (along i (u :: l))
  | _ => senderPacket i

/-- From one machine to another there is the forwarder in between. -/
def hop (v u : Int) (p : Packet) : List Datagram :=
  if (net.place v).1 = (net.place u).1 then [] else [⟨.host (net.machineIp v) (8000 - v - 1), p.pkt⟩]

/-- The datagrams that a walk consists of. -/
def trailOf (i : Nat) : List Int → List Datagram
  | v :: u :: l => ⟨net.containerOf v, (net.along i (u :: l)).pkt⟩ ::
      (net.hop v u (net.along i (u :: l)) ++ trailOf i (u :: l))
  | _ => []

/-- How far a packet is that `u` has sent at the end of a walk. -/
inductive Stage
  | arrived (v u : Int) (path : List Int)
  | atForwarder (v u : Int) (path : List Int)
  | atMerger (u : Int) (path : List Int)

def Stage.trail (i : Nat) : Stage → Datagram × List Datagram
  | .arrived v u path => (⟨net.containerOf v, (net.along i path).pkt⟩,
      net.hop v u (net.along i path) ++ net.trailOf i path)
  | .atForwarder v _ path => (⟨.host (net.machineIp v) (8000 - v - 1), (net.along i path).pkt⟩, net.trailOf i path)
  | .atMerger u path => (⟨net.mergerSocket u, (net.along i path).pkt⟩, net.trailOf i path)

def Stage.Valid (g : Int) : Stage → Prop
  | .arrived v u path => Walk net.Forwards g path u ∧ net.Forwards u v
  | .atForwarder v u path => (Walk net.Forwards g path u ∧ net.Forwards u v) ∧ (net.place v).1 ≠ (net.place u).1
  | .atMerger u path => Walk net.Forwards g path u ∧ ∀ v, ¬ net.Forwards u v

/-- The packet generator, with somewhere to send to. -/
structure Generator (g : ConfigNode) : Prop where
  mem : g ∈ net.nodes
  nf : g.nf = .pktgen
  neighbors_ne : g.neighbors ≠ []

variable {net} {g n : ConfigNode} {u v : Int} {l : List Int} {i : Nat} {p : Packet}

/-! ### Nodes and their packets -/

theorem node?_eq (hn : n ∈ net.nodes) : net.node? n.id = some n := by
  have hsome : (net.node? n.id).isSome := List.find?_isSome.mpr ⟨n, hn, by simp⟩
  obtain ⟨n', hn'⟩ := Option.isSome_iff_exists.mp hsome
  have hid : n'.id = n.id := by simpa using List.find?_some hn'
  rw [hn', List.inj_on_of_nodup_map net.deployment.nodup_ids (List.mem_of_find?_eq_some hn') hn hid]

theorem forwards_iff (hn : n ∈ net.nodes) : net.Forwards n.id v ↔ v ∈ n.neighbors := by
  constructor
  · rintro ⟨n', hn', hid, hv⟩
    rwa [List.inj_on_of_nodup_map net.deployment.nodup_ids hn' hn hid] at hv
  · exact fun hv => ⟨n, hn, rfl, hv⟩

theorem Forwards.node (h : net.Forwards u v) : ∃ n ∈ net.nodes, n.id = v ∧ n.nf ≠ .pktgen := by
  obtain ⟨n, hn, -, hv⟩ := h
  obtain ⟨n', hn', rfl⟩ := net.deployment.mem_neighbors n hn v hv
  exact ⟨n', hn', rfl, fun hpk => net.deployment.pktgen_source n hn n' hn' hpk hv⟩

theorem walk_node (hg : net.Generator g) (hw : Walk net.Forwards g.id l u) : ∃ n ∈ net.nodes, n.id = u := by
  cases hw with
  | start => exact ⟨g, hg.mem, rfl⟩
  | step _ he =>
    obtain ⟨n, hn, hid, -⟩ := he.node
    exact ⟨n, hn, hid⟩

theorem size_started {nf : NF} (hp : p.size ≤ 99) : (nf.started.process p).size ≤ 99 := by
  cases nf with
  | pktgen => exact hp
  | dnfFirewall => exact hp
  | dnfLoadbalancer => exact hp
  | proxy =>
    have hsize : ∀ (c : Call) (p : Packet), c.payload? = none → (p.call c).size = p.size := fun c p hc => by
      have h := p.size_call c
      rw [hc] at h
      exact (Prod.mk.inj h).1
    show ((p.call (.writeDestIp "18.188.160.171")).call (.writeDestPort 8888)).size ≤ 99
    rw [hsize _ _ rfl, hsize _ _ rfl]
    exact hp
  | compressor =>
    have hmsg : "compressed!".utf8ByteSize = 11 := rfl
    show (p.writePayload "compressed!".toUTF8.toList).size ≤ 99
    rw [Packet.writePayload, Packet.size_make, Utf8.length_toUTF8, hmsg]
    omega

theorem lt_of_mem_range (hi : i < net.numPacketsSent.toNat) : i < 10 ^ 10 := by
  have hint := net.isInt
  unfold CText.IsInt at hint
  omega

theorem size_along (hi : i < net.numPacketsSent.toNat) (l : List Int) : (net.along i l).size ≤ 99 := by
  have hsender := size_senderPacket_le (lt_of_mem_range hi)
  induction l with
  | nil => exact hsender
  | cons v l ih =>
    cases l with
    | nil => exact hsender
    | cons u l =>
      rw [along, processAt]
      split
      · exact size_started ih
      · exact ih

theorem senderPacket_inj {i j : Nat} (h : (senderPacket i).pkt = (senderPacket j).pkt) : i = j := by
  have hdata : (senderPacket i).data = (senderPacket j).data := congrArg (List.drop Packet.dataStart) h
  have htext := congrArg String.toList (Utf8.toUTF8_inj hdata)
  rw [String.toList_append, String.toList_append] at htext
  have hdigits : (Nat.repr i).toList = (Nat.repr j).toList := List.append_cancel_left htext
  rw [Nat.toList_repr, Nat.toList_repr] at hdigits
  have hnum := congrArg (Nat.ofDigitChars 10 · 0) hdigits
  simpa only [Nat.ofDigitChars_ten_toDigits] using hnum

theorem mem_targets (hn : n ∈ net.nodes) {socket : Socket} : socket ∈ net.targets n ↔
    (∀ v, ¬ net.Forwards n.id v) ∧ socket = net.mergerSocket n.id ∨
      ∃ v, net.Forwards n.id v ∧ socket = net.entry (net.place n.id).1 v := by
  simp only [forwards_iff hn]
  rw [targets]
  split
  · rename_i hno
    simp [hno]
  · rename_i hne
    obtain ⟨x, hx⟩ := List.exists_mem_of_ne_nil _ hne
    simp only [List.mem_map, eq_comm (a := socket)]
    constructor
    · exact .inr
    · rintro (⟨hno, -⟩ | h)
      · exact absurd hx (hno x)
      · exact h

/-! ### The trails -/

theorem trailOf_step (hw : Walk net.Forwards g.id l u) (v : Int) (i : Nat) : net.trailOf i (v :: l) =
    ⟨net.containerOf v, (net.along i l).pkt⟩ :: (net.hop v u (net.along i l) ++ net.trailOf i l) := by
  obtain ⟨l, rfl⟩ := hw.exists_cons
  rfl

theorem along_step (hw : Walk net.Forwards g.id l u) (hn : n ∈ net.nodes) (i : Nat) :
    net.along i (n.id :: l) = n.nf.started.process (net.along i l) := by
  obtain ⟨l, rfl⟩ := hw.exists_cons
  rw [along, processAt, node?_eq hn]

theorem exists_stage (hw : Walk net.Forwards g.id l n.id) (hn : n ∈ net.nodes) {socket : Socket}
    (hs : socket ∈ net.targets n) (i : Nat) : ∃ stage : Stage, stage.Valid net g.id ∧
      stage.trail net i = (⟨socket, (net.along i l).pkt⟩, net.trailOf i l) := by
  rcases (mem_targets hn).mp hs with ⟨hno, rfl⟩ | ⟨v, hv, rfl⟩
  · exact ⟨.atMerger n.id l, ⟨hw, hno⟩, rfl⟩
  · rw [entry]
    split
    · rename_i hplace
      refine ⟨.arrived v n.id l, ⟨hw, hv⟩, ?_⟩
      rw [Stage.trail, hop, if_pos hplace]
      rfl
    · exact ⟨.atForwarder v n.id l, ⟨⟨hw, hv⟩, ‹_›⟩, rfl⟩

theorem sources_mem (hg : net.Generator g) {d : Datagram} : d ∈ net.sources ↔
    ∃ i < net.numPacketsSent.toNat, ∃ socket ∈ net.targets g, d = ⟨socket, (senderPacket i).pkt⟩ := by
  rw [sources_eq hg.mem hg.nf hg.neighbors_ne]
  simp only [List.mem_flatMap, List.mem_range, List.mem_map, eq_comm (a := d)]

theorem react_along (hw : Walk net.Forwards g.id l u) (hn : n ∈ net.nodes) (hpk : n.nf ≠ .pktgen)
    (hi : i < net.numPacketsSent.toNat) : net.react ⟨net.containerOf n.id, (net.along i l).pkt⟩ =
      (net.targets n).map fun socket => ⟨socket, (net.along i (n.id :: l)).pkt⟩ := by
  have hsize := size_along hi l
  have hsent := size_along hi (n.id :: l)
  rw [along_step hw hn] at hsent ⊢
  exact react_container hn hpk (by omega) (by omega)

theorem exists_stage_of_isTrail (hg : net.Generator g) {t : Datagram × List Datagram}
    (h : IsTrail net.react net.sources t) :
    ∃ i < net.numPacketsSent.toNat, ∃ stage : Stage, stage.Valid net g.id ∧ stage.trail net i = t := by
  obtain ⟨d, before⟩ := t
  induction before generalizing d with
  | nil =>
    rcases isTrail_cases h with ⟨-, hd⟩ | ⟨_, -, -, hnil⟩
    · obtain ⟨i, hi, socket, hs, rfl⟩ := (sources_mem hg).mp hd
      exact ⟨i, hi, exists_stage .start hg.mem hs i⟩
    · cases hnil
  | cons d' before ih =>
    rcases isTrail_cases h with ⟨hnil, -⟩ | ⟨⟨_, _⟩, ht, hd, heq⟩
    · cases hnil
    · cases heq
      obtain ⟨i, hi, stage, hvalid, htrail⟩ := ih _ ht
      refine ⟨i, hi, ?_⟩
      cases stage with
      | arrived v u path =>
        obtain ⟨rfl, rfl⟩ := Prod.mk.inj htrail
        obtain ⟨hw, hv⟩ := hvalid
        obtain ⟨n, hn, rfl, hpk⟩ := hv.node
        dsimp only at hd
        rw [react_along hw hn hpk hi] at hd
        obtain ⟨socket, hs, rfl⟩ := List.mem_map.mp hd
        rw [← trailOf_step hw]
        exact exists_stage (hw.step hv) hn hs i
      | atForwarder v u path =>
        obtain ⟨rfl, rfl⟩ := Prod.mk.inj htrail
        obtain ⟨⟨hw, hv⟩, hplace⟩ := hvalid
        obtain ⟨n, hn, rfl, -⟩ := hv.node
        have hsize := size_along hi path
        dsimp only at hd
        rw [react_host hn (by omega)] at hd
        obtain rfl := List.mem_singleton.mp hd
        refine ⟨.arrived n.id u path, ⟨hw, hv⟩, ?_⟩
        rw [Stage.trail, hop, if_neg hplace]
        rfl
      | atMerger u path =>
        obtain ⟨rfl, rfl⟩ := Prod.mk.inj htrail
        obtain ⟨n, hn, rfl⟩ := walk_node hg hvalid.1
        dsimp only at hd
        rw [react_merger hn] at hd
        cases hd

theorem isTrail_arrived (hv : net.Forwards u v) (hi : i < net.numPacketsSent.toNat)
    (h : IsTrail net.react net.sources
      (⟨net.entry (net.place u).1 v, (net.along i l).pkt⟩, net.trailOf i l)) :
    IsTrail net.react net.sources ((Stage.arrived v u l).trail net i) := by
  rw [Stage.trail, hop]
  rw [entry] at h
  split
  · rename_i hplace
    rwa [if_pos hplace] at h
  · rename_i hplace
    rw [if_neg hplace] at h
    obtain ⟨n, hn, rfl, -⟩ := hv.node
    have hsize := size_along hi l
    refine h.reaction ?_
    dsimp only
    rw [react_host hn (by omega)]
    exact List.mem_singleton.mpr rfl

theorem isTrail_sent (hg : net.Generator g) (hi : i < net.numPacketsSent.toNat)
    (hw : Walk net.Forwards g.id l u) : ∀ n ∈ net.nodes, n.id = u → ∀ socket ∈ net.targets n,
      IsTrail net.react net.sources (⟨socket, (net.along i l).pkt⟩, net.trailOf i l) := by
  induction hw with
  | start =>
    intro n hn hid socket hs
    have hng : n = g := List.inj_on_of_nodup_map net.deployment.nodup_ids hn hg.mem hid
    exact .of_initial ((sources_mem hg).mpr ⟨i, hi, socket, hng ▸ hs, rfl⟩)
  | @step l u v hw hv ih =>
    rintro n hn rfl socket hs
    obtain ⟨n', hn', rfl⟩ := walk_node hg hw
    have hsent := ih n' hn' rfl _ ((mem_targets hn').mpr (.inr ⟨n.id, hv, rfl⟩))
    have hpk : n.nf ≠ .pktgen := by
      obtain ⟨n₂, hn₂, hid, hpk⟩ := hv.node
      rwa [List.inj_on_of_nodup_map net.deployment.nodup_ids hn₂ hn hid] at hpk
    rw [trailOf_step hw]
    refine (isTrail_arrived hv hi hsent).reaction ?_
    show _ ∈ net.react ⟨net.containerOf n.id, (net.along i l).pkt⟩
    rw [react_along hw hn hpk hi]
    exact List.mem_map_of_mem hs

/-- The messages of all runs are those of the walks. -/
theorem isTrail_iff (hg : net.Generator g) {t : Datagram × List Datagram} : IsTrail net.react net.sources t ↔
    ∃ i < net.numPacketsSent.toNat, ∃ stage : Stage, stage.Valid net g.id ∧ stage.trail net i = t := by
  refine ⟨exists_stage_of_isTrail hg, ?_⟩
  rintro ⟨i, hi, stage, hvalid, rfl⟩
  have hsent : ∀ u l, Walk net.Forwards g.id l u → ∀ v, net.Forwards u v → IsTrail net.react net.sources
      (⟨net.entry (net.place u).1 v, (net.along i l).pkt⟩, net.trailOf i l) := by
    intro u l hw v hv
    obtain ⟨n, hn, rfl⟩ := walk_node hg hw
    exact isTrail_sent hg hi hw n hn rfl _ ((mem_targets hn).mpr (.inr ⟨v, hv, rfl⟩))
  cases stage with
  | arrived v u l => exact isTrail_arrived hvalid.2 hi (hsent u l hvalid.1 v hvalid.2)
  | atForwarder v u l =>
    have h := hsent u l hvalid.1.1 v hvalid.1.2
    rwa [entry, if_neg hvalid.2] at h
  | atMerger u l =>
    obtain ⟨n, hn, rfl⟩ := walk_node hg hvalid.1
    exact isTrail_sent hg hi hvalid.1 n hn rfl _ ((mem_targets hn).mpr (.inl ⟨hvalid.2, rfl⟩))

/-! ### Different walks have different messages -/

theorem getLast?_walk {E : Int → Int → Prop} {a b : Int} (hw : Walk E a l b) : l.getLast? = some a := by
  induction hw with
  | start => rfl
  | step hw _ ih =>
    obtain ⟨l, rfl⟩ := hw.exists_cons
    rw [List.getLast?_cons_cons]
    exact ih

theorem sockets_trailOf (i : Nat) (l : List Int) :
    ((net.trailOf i l).map (·.socket)).filter (fun s => s matches .container ..) = l.dropLast.map net.containerOf := by
  induction l with
  | nil => rfl
  | cons v l ih =>
    cases l with
    | nil => rfl
    | cons u l =>
      have hhop : ((net.hop v u (net.along i (u :: l))).map (·.socket)).filter
          (fun s => s matches .container ..) = [] := by
        rw [hop]
        split <;> rfl
      rw [trailOf, List.map_cons, List.map_append, List.filter_cons, List.filter_append, hhop, ih]
      rfl

theorem getLast?_trailOf (i : Nat) (v u : Int) (l : List Int) :
    (net.trailOf i (v :: u :: l)).getLast?.map (·.bytes) = some (senderPacket i).pkt := by
  induction l generalizing v u with
  | nil =>
    have hnil : net.trailOf i [u] = [] := rfl
    rw [trailOf, hnil, List.append_nil, hop]
    split <;> rfl
  | cons w l ih =>
    have h := ih u w
    rw [trailOf, List.getLast?_cons, List.getLast?_append]
    cases hlast : (net.trailOf i (u :: w :: l)).getLast? with
    | none => rw [hlast] at h; cases h
    | some d =>
      rw [hlast] at h
      rw [Option.some_or]
      exact h

theorem mem_of_mem_walk (hg : net.Generator g) (hw : Walk net.Forwards g.id l u) :
    ∀ x ∈ l, ∃ n ∈ net.nodes, n.id = x := by
  induction hw with
  | start =>
    intro x hx
    obtain rfl := List.mem_singleton.mp hx
    exact ⟨g, hg.mem, rfl⟩
  | step _ he ih =>
    intro x hx
    rcases List.mem_cons.mp hx with rfl | hx
    · obtain ⟨n, hn, hid, -⟩ := he.node
      exact ⟨n, hn, hid⟩
    · exact ih x hx

theorem walk_inj (hg : net.Generator g) {l' : List Int} {u' : Int} (hw : Walk net.Forwards g.id l u)
    (hw' : Walk net.Forwards g.id l' u') {i j : Nat} (h : net.trailOf i l = net.trailOf j l') : l = l' := by
  have hinj : ∀ m m' : List Int, (∀ x ∈ m, ∃ n ∈ net.nodes, n.id = x) → (∀ x ∈ m', ∃ n ∈ net.nodes, n.id = x) →
      m.map net.containerOf = m'.map net.containerOf → m = m' := by
    intro m
    induction m with
    | nil => exact fun m' _ _ h => (List.map_eq_nil_iff.mp h.symm).symm
    | cons x m ih =>
      intro m' hm hm' h
      obtain ⟨x', m', rfl, hx, hrest⟩ := List.map_eq_cons_iff.mp h.symm
      rw [List.forall_mem_cons] at hm hm'
      obtain ⟨⟨n, hn, rfl⟩, hm⟩ := hm
      obtain ⟨⟨n', hn', rfl⟩, hm'⟩ := hm'
      rw [containerOf_inj hn hn' hx.symm, ih m' hm hm' hrest.symm]
  have hsockets : ((net.trailOf i l).map (·.socket)).filter _ = _ := sockets_trailOf i l
  rw [h, sockets_trailOf] at hsockets
  have hdrop := hinj _ _ (fun x hx => mem_of_mem_walk hg hw' x (List.dropLast_subset _ hx))
    (fun x hx => mem_of_mem_walk hg hw x (List.dropLast_subset _ hx)) hsockets
  rw [← List.dropLast_append_getLast? g.id (getLast?_walk hw), ← hdrop,
    List.dropLast_append_getLast? g.id (getLast?_walk hw')]

theorem trailOf_inj (hg : net.Generator g) {v v' : Int} {l' : List Int} {i j : Nat}
    (hw : Walk net.Forwards g.id l u) (hv : net.Forwards u v) {u' : Int} (hw' : Walk net.Forwards g.id l' u')
    (hv' : net.Forwards u' v') (h : net.trailOf i (v :: l) = net.trailOf j (v' :: l')) :
    i = j ∧ v = v' ∧ l = l' := by
  have hl := List.cons.inj (walk_inj hg (hw.step hv) (hw'.step hv') h)
  refine ⟨?_, hl⟩
  obtain ⟨m, rfl⟩ := hw.exists_cons
  obtain ⟨m', rfl⟩ := hw'.exists_cons
  have hlast : ((net.trailOf i (v :: u :: m)).getLast?.map (·.bytes)) = _ := getLast?_trailOf i v u m
  rw [h, getLast?_trailOf] at hlast
  exact (senderPacket_inj (Option.some.inj hlast)).symm

/-! ### Nobody sends a datagram twice -/

theorem nodup_targets (hn : n ∈ net.nodes) : (net.targets n).Nodup := by
  rw [targets]
  split
  · exact List.nodup_singleton _
  · refine List.Nodup.map_on (fun x hx y hy h => ?_) (net.deployment.nodup_neighbors n hn)
    obtain ⟨v, hv, rfl⟩ := net.deployment.mem_neighbors n hn x hx
    obtain ⟨w, hw, rfl⟩ := net.deployment.mem_neighbors n hn y hy
    unfold entry at h
    split at h <;> split at h
    · exact containerOf_inj hv hw h
    · cases h
    · cases h
    · have hport := (Socket.host.inj h).2
      omega

theorem nodup_datagrams {sockets : List Socket} (h : sockets.Nodup) (bytes : List UInt8) :
    (sockets.map fun socket => (⟨socket, bytes⟩ : Datagram)).Nodup :=
  h.map fun _ _ he => (Datagram.mk.inj he).1

theorem nodup_sources (hg : net.Generator g) : net.sources.Nodup := by
  rw [sources_eq hg.mem hg.nf hg.neighbors_ne, List.nodup_flatMap]
  refine ⟨fun i _ => nodup_datagrams (nodup_targets hg.mem) _, List.nodup_range.imp fun {i j} hij d hd hd' => hij ?_⟩
  obtain ⟨s, -, rfl⟩ := List.mem_map.mp hd
  obtain ⟨s', -, he⟩ := List.mem_map.mp hd'
  exact (senderPacket_inj (Datagram.mk.inj he).2).symm

theorem nodup_react (hg : net.Generator g) (t : Datagram × List Datagram) (h : IsTrail net.react net.sources t) :
    (net.react t.1).Nodup := by
  obtain ⟨i, hi, stage, hvalid, rfl⟩ := (isTrail_iff hg).mp h
  cases stage with
  | arrived v u l =>
    obtain ⟨n, hn, rfl, hpk⟩ := hvalid.2.node
    show (net.react ⟨net.containerOf n.id, (net.along i l).pkt⟩).Nodup
    rw [react_along hvalid.1 hn hpk hi]
    exact nodup_datagrams (nodup_targets hn) _
  | atForwarder v u l =>
    obtain ⟨n, hn, rfl, -⟩ := hvalid.1.2.node
    have hsize := size_along hi l
    show (net.react ⟨.host (net.machineIp n.id) (8000 - n.id - 1), (net.along i l).pkt⟩).Nodup
    rw [react_host hn (by omega)]
    exact List.nodup_singleton _
  | atMerger u l =>
    obtain ⟨n, hn, rfl⟩ := walk_node hg hvalid.1
    show (net.react ⟨net.mergerSocket n.id, (net.along i l).pkt⟩).Nodup
    rw [react_merger hn]
    exact List.nodup_nil

/-! ### What is received in a run -/

def atContainer (net : Overlay) (v : Int) (d : Datagram) : Option Packet :=
  if d.socket = net.containerOf v then receivedPacket (some d.bytes) else none

def leafPorts (net : Overlay) : Std.TreeMap Int Int := portToNodeMap (net.nodes.map (·.toRuntimeNode))

/-- The leaf from which a datagram comes to the merger, and its packet. -/
def atMerger (net : Overlay) (d : Datagram) : Option (Int × Packet) :=
  match d.socket with
  | .container .. => none
  | .host ip port =>
    if ip = net.mergerIp then do
      let nodeId ← net.leafPorts[port]?
      let p ← receivedPacket (some d.bytes)
      return (nodeId, p)
    else none

/-- Packet `x.1` is sent, and `x.2.2` is a walk from the packet generator to `x.2.1`. -/
def Sent (net : Overlay) (g : Int) (x : Nat × Int × List Int) : Prop :=
  x.1 < net.numPacketsSent.toNat ∧ Walk net.Forwards g x.2.2 x.2.1

theorem leafPorts_iff (hn : n ∈ net.nodes) {port : Int} :
    net.leafPorts[port]? = some n.id ↔ (∀ v, ¬ net.Forwards n.id v) ∧ port = 8000 + n.id + 1 := by
  rw [leafPorts, getElem?_portToNodeMap]
  refine and_congr_left fun _ => ?_
  simp only [forwards_iff hn, ← List.eq_nil_iff_forall_not_mem]
  constructor
  · rintro ⟨rn, hrn, hno, hid⟩
    obtain ⟨n', hn', rfl⟩ := List.mem_map.mp hrn
    rwa [List.inj_on_of_nodup_map net.deployment.nodup_ids hn' hn hid] at hno
  · exact fun hno => ⟨_, List.mem_map_of_mem hn, hno, rfl⟩

theorem leafPorts_lt {port k : Int} (h : net.leafPorts[port]? = some k) : 8000 < port := by
  obtain ⟨⟨rn, hrn, -, hid⟩, rfl⟩ := getElem?_portToNodeMap.mp h
  obtain ⟨n, hn, rfl⟩ := List.mem_map.mp hrn
  have hpos := net.deployment.id_nonneg hn
  have hid : n.id = k := hid
  omega

theorem exists_last_edge (hg : net.Generator g) (hw : Walk net.Forwards g.id l u) (hno : ∀ v, ¬ net.Forwards u v) :
    ∃ w m, l = u :: m ∧ Walk net.Forwards g.id m w ∧ net.Forwards w u := by
  cases hw with
  | start =>
    obtain ⟨x, hx⟩ := List.exists_mem_of_ne_nil _ hg.neighbors_ne
    exact absurd ((forwards_iff hg.mem).mpr hx) (hno x)
  | @step m w _ hw hv => exact ⟨w, m, rfl, hw, hv⟩

/-- What a run brings to a network function are packets on different walks to it. -/
theorem exists_atContainer (hg : net.Generator g) (hn : n ∈ net.nodes) {s : State Datagram} {L : Ledger Datagram}
    (hL : Accounts net.react net.sources s L) : ∃ xs : List (Nat × Int × List Int), xs.Nodup ∧
      (∀ x ∈ xs, net.Sent g.id x ∧ net.Forwards x.2.1 n.id) ∧
      s.handled.filterMap (net.atContainer n.id) = xs.map (fun x => net.along x.1 x.2.2) ∧
      ∀ x, net.Sent g.id x ∧ net.Forwards x.2.1 n.id →
        (Stage.arrived n.id x.2.1 x.2.2).trail net x.1 ∈ L.handled → x ∈ xs := by
  let msg : Nat × Int × List Int → Datagram × List Datagram :=
    fun x => (Stage.arrived n.id x.2.1 x.2.2).trail net x.1
  let Valid : Nat × Int × List Int → Prop := fun x => net.Sent g.id x ∧ net.Forwards x.2.1 n.id
  have hmsg : ∀ t, IsTrail net.react net.sources t → ∀ p, net.atContainer n.id t.1 = some p →
      ∃ x, Valid x ∧ t = msg x := by
    intro t ht p hp
    obtain ⟨i, hi, stage, hvalid, rfl⟩ := (isTrail_iff hg).mp ht
    unfold atContainer at hp
    split at hp
    · rename_i hsocket
      cases stage with
      | arrived v u l =>
        obtain ⟨n', hn', rfl, -⟩ := hvalid.2.node
        have hid := containerOf_inj hn' hn hsocket
        exact ⟨(i, u, l), ⟨⟨hi, hvalid.1⟩, hid ▸ hvalid.2⟩, by rw [hid]⟩
      | atForwarder v u l => cases hsocket
      | atMerger u l => cases hsocket
    · cases hp
  have hsel : ∀ x, Valid x → net.atContainer n.id (msg x).1 = some (net.along x.1 x.2.2) := by
    rintro ⟨i, u, l⟩ ⟨⟨hi, -⟩, -⟩
    have hsize : (net.along i l).size ≤ 99 := size_along hi l
    have hpkt : receivedPacket (some (net.along i l).pkt) = some (net.along i l) := receivedPacket_pkt (by omega)
    exact (if_pos rfl).trans hpkt
  have hinj : ∀ x y, Valid x → Valid y → msg x = msg y → x = y := by
    rintro ⟨i, u, l⟩ ⟨j, u', l'⟩ ⟨⟨-, hw⟩, hv⟩ ⟨⟨-, hw'⟩, hv'⟩ he
    have htrail : net.trailOf i (n.id :: l) = net.trailOf j (n.id :: l') := by
      rw [trailOf_step hw, trailOf_step hw']
      exact congrArg₂ List.cons (Prod.mk.inj he).1 (Prod.mk.inj he).2
    obtain ⟨hij, -, hl⟩ := trailOf_inj hg hw hv hw' hv' htrail
    dsimp only at hij hl hw hw'
    subst hij hl
    rw [hw.end_unique hw']
  exact hL.exists_read hmsg hsel hinj

/-- What a run brings to the merger are packets on different walks to the leaves. -/
theorem exists_atMerger (hg : net.Generator g) {s : State Datagram} {L : Ledger Datagram}
    (hL : Accounts net.react net.sources s L) : ∃ xs : List (Nat × Int × List Int), xs.Nodup ∧
      (∀ x ∈ xs, net.Sent g.id x ∧ ∀ v, ¬ net.Forwards x.2.1 v) ∧
      s.handled.filterMap net.atMerger = xs.map (fun x => (x.2.1, net.along x.1 x.2.2)) ∧
      ∀ x, net.Sent g.id x ∧ (∀ v, ¬ net.Forwards x.2.1 v) →
        (Stage.atMerger x.2.1 x.2.2).trail net x.1 ∈ L.handled → x ∈ xs := by
  let msg : Nat × Int × List Int → Datagram × List Datagram :=
    fun x => (Stage.atMerger x.2.1 x.2.2).trail net x.1
  let Valid : Nat × Int × List Int → Prop := fun x => net.Sent g.id x ∧ ∀ v, ¬ net.Forwards x.2.1 v
  have hmsg : ∀ t, IsTrail net.react net.sources t → ∀ b, net.atMerger t.1 = some b → ∃ x, Valid x ∧ t = msg x := by
    intro t ht b hb
    obtain ⟨i, hi, stage, hvalid, rfl⟩ := (isTrail_iff hg).mp ht
    cases stage with
    | arrived v u l => cases hb
    | atForwarder v u l =>
      -- the ports of the forwarders are below those of the merger
      obtain ⟨n, hn, rfl, -⟩ := hvalid.1.2.node
      have hpos := net.deployment.id_nonneg hn
      unfold atMerger at hb
      dsimp only [Stage.trail] at hb
      split at hb
      · obtain ⟨k, hk, -⟩ := Option.bind_eq_some_iff.mp hb
        have := leafPorts_lt hk
        omega
      · cases hb
    | atMerger u l => exact ⟨(i, u, l), ⟨⟨hi, hvalid.1⟩, hvalid.2⟩, rfl⟩
  have hsel : ∀ x, Valid x → net.atMerger (msg x).1 = some (x.2.1, net.along x.1 x.2.2) := by
    rintro ⟨i, u, l⟩ ⟨⟨hi, hw⟩, hno⟩
    obtain ⟨n, hn, rfl⟩ := walk_node hg hw
    have hsize : (net.along i l).size ≤ 99 := size_along hi l
    have hport := (leafPorts_iff hn).mpr ⟨hno, rfl⟩
    have hpkt : receivedPacket (some (net.along i l).pkt) = some (net.along i l) := receivedPacket_pkt (by omega)
    show (if net.mergerIp = net.mergerIp then _ else none) = _
    rw [if_pos rfl, hport]
    show ((receivedPacket (some (net.along i l).pkt)).bind fun p => some (n.id, p)) = _
    rw [hpkt]
    rfl
  have hinj : ∀ x y, Valid x → Valid y → msg x = msg y → x = y := by
    rintro ⟨i, u, l⟩ ⟨j, u', l'⟩ ⟨⟨-, hw⟩, hno⟩ ⟨⟨-, hw'⟩, hno'⟩ he
    dsimp only at hw hno hw' hno'
    obtain ⟨w, m, rfl, hm, hv⟩ := exists_last_edge hg hw hno
    obtain ⟨w', m', rfl, hm', hv'⟩ := exists_last_edge hg hw' hno'
    obtain ⟨hij, hu, hl⟩ := trailOf_inj hg hm hv hm' hv' (Prod.mk.inj he).2
    dsimp only at hij
    rw [hij, hu, hl]
  exact hL.exists_read hmsg hsel hinj

end DeepNF.Overlay
