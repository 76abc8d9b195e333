import DeepNF.ReceiverLog
import DeepNF.Setup

/-!
# From the user input to the page of the receiver

What the merger sends is received by `pkt_receiver`, and the web server shows its log. No packet of the sender has a
newline or a comma, and no network function that is started writes one (`Loggable`), so the merged packets have none
either and the page has a row for each packet that was received. With `Setup.run_merges` the rows are those of the
packets of the sender (`Setup.receiver_shows`).
-/

namespace DeepNF
open Std (TreeMap)
open Walks Flood
open MergerOperator (Calm deliveries exec exec_found)

/-! ### What merging keeps -/

section Closed
variable {P : Packet → Prop} {memory : Memory} {left : Nat}
  (hcopy : ∀ left minor p F, P minor → P p → P (copyField (memory left) minor p F))
  (hnull : ∀ p, P p → P p.nullify) {mi : MergerInfo} {m : TreeMap Int Packet} {infos : PktInfoMap} {a b : PacketInfo}

include hcopy in
theorem addWrites_closed {majorFields : Finset Field} {minor : Packet} (hminor : P minor) {fields : List Field}
    {p : Packet} (hp : P p) : P (addWrites (memory left) majorFields minor fields p) := by
  induction fields generalizing p with
  | nil => exact hp
  | cons F fields ih =>
    rw [addWrites]
    split
    · exact ih hp
    · exact ih (hcopy left minor p F hminor hp)

include hcopy hnull

theorem resolve_closed (ha : P a.pkt) (hb : P b.pkt) (conflict : Option ConflictItem) :
    P (resolvePacketConflict (memory left) a b conflict).pkt := by
  unfold resolvePacketConflict
  dsimp only
  split
  · exact hnull _ ha
  · exact addWrites_closed hcopy hb ha

theorem run_closed (h : ∀ (k : Int) pi, infos[k]? = some pi → P pi.pkt) {sweeps : Nat} {r : Except Packet PktInfoMap}
    (hr : Rounds.run (tryConflict memory mi) mi.conflictsList sweeps infos = some r) :
    Rounds.Ends (fun infos : PktInfoMap => ∀ (k : Int) pi, infos[k]? = some pi → P pi.pkt) P r := by
  refine Rounds.run_induction (fun ci _ t r ht hf => ?_) h hr
  obtain ⟨a, b, ha, hb, ⟨-, rfl⟩ | ⟨-, -, rfl⟩⟩ := tryConflict_cases hf
  · exact resolve_closed hcopy hnull (ht _ _ ha) (ht _ _ hb) _
  · intro k pi hk
    rw [mergedMap, TreeMaps.getElem?_merge, Option.or_eq_some_iff] at hk
    rcases hk with hk | ⟨-, hk⟩ <;> split at hk
    · cases hk
    · exact ht k pi hk
    · cases hk
      exact resolve_closed hcopy hnull (ht _ _ ha) (ht _ _ hb) _
    · cases hk

theorem mergeAll_closed {l : List PacketInfo} (hl : ∀ q ∈ l, P q.pkt) (ha : P a.pkt) :
    P (mergeAll memory a l).pkt := by
  induction l generalizing a with
  | nil => exact ha
  | cons b l ih =>
    obtain ⟨hb, hl⟩ := List.forall_mem_cons.mp hl
    exact ih hl (resolve_closed hcopy hnull ha hb none)

theorem rest_closed (h : ∀ (k : Int) pi, infos[k]? = some pi → P pi.pkt) {r : Packet}
    (hr : mergeRest memory (infos.toList.map (·.2)) = .ok r) : P r := by
  have hall : ∀ q ∈ infos.toList.map (·.2), P q.pkt := by
    intro q hq
    obtain ⟨⟨k, q⟩, hx, rfl⟩ := List.mem_map.mp hq
    exact h k q (TreeMap.mem_toList_iff_getElem?_eq_some.mp hx)
  generalize infos.toList.map (·.2) = l at hr hall
  cases l with
  | nil => cases hr
  | cons q l =>
    cases hr
    obtain ⟨hq, hl⟩ := List.forall_mem_cons.mp hall
    exact mergeAll_closed hcopy hnull hl hq

theorem mergePacket_closed (hm : ∀ (k : Int) p, m[k]? = some p → P p) {sweeps : Nat} {r : Packet}
    (h : mergePacket sweeps memory mi m = .ok r) : P r := by
  obtain ⟨infos, hi, h⟩ := Rounds.bind_ok h
  obtain ⟨infos', hi', hget⟩ := packetMapToPacketInfoMap_ok (mem_nodeMap_of_ok hi)
  obtain rfl := Except.ok.inj (hi.symm.trans hi')
  have hinit : ∀ (k : Int) pi, infos[k]? = some pi → P pi.pkt := by
    intro k pi hk
    rw [hget, Option.map_eq_some_iff] at hk
    obtain ⟨p, hp, rfl⟩ := hk
    exact hm k p hp
  cases hrun : Rounds.run (tryConflict memory mi) mi.conflictsList sweeps infos with
  | none => rw [hrun] at h; cases h
  | some res =>
    rw [hrun] at h
    have hend := run_closed hcopy hnull hinit hrun
    cases res with
    | error p =>
      cases h
      exact hend
    | ok infos' => exact rest_closed hcopy hnull hend h

end Closed

/-! ### Packets that fit into a line of the log -/

/-- The packet is received as it was sent, and its payload has no separator. -/
structure Packet.Loggable (p : Packet) : Prop where
  size : p.size ≤ 99
  newline : 10 ∉ p.data
  comma : 44 ∉ p.data

namespace Packet
variable {p q : Packet}

theorem size_eq (p : Packet) : p.size = 54 + p.data.length := by
  have := p.fits
  unfold size data dataStart
  rw [List.length_drop]
  omega

theorem Loggable.of_data (hp : p.Loggable) (h : q.data = p.data) : q.Loggable where
  size := by rw [size_eq, h, ← size_eq]; exact hp.size
  newline := h ▸ hp.newline
  comma := h ▸ hp.comma

theorem payload_subset (p : Packet) : p.payload ⊆ p.data := List.takeWhile_subset _

theorem Loggable.writePayload (hp : p.Loggable) (q : Packet) : (q.writePayload p.payload).Loggable where
  size := by
    have hle : p.payload.length ≤ p.data.length := (List.takeWhile_sublist _).length_le
    have hsize := hp.size
    rw [size_eq] at hsize
    rw [size_eq, data_writePayload]
    omega
  newline := mt (p.payload_subset ·) hp.newline
  comma := mt (p.payload_subset ·) hp.comma

theorem getPayload_of_stray {behind : List UInt8} (h : stray behind = []) (p : Packet) :
    p.getPayload behind = p.payload :=
  getPayload_eq_iff.mpr (.inr h)

theorem Loggable.copyField {behind : List UInt8} (h : stray behind = []) (hq : q.Loggable) (hp : p.Loggable)
    (F : Field) : (copyField behind q p F).Loggable := by
  cases F with
  | DIP => exact hp.of_data (data_writeDestIp ..)
  | DPORT => exact hp.of_data (data_writeDestPort ..)
  | PAYLOAD =>
    show (p.writePayload (q.getPayload behind)).Loggable
    rw [getPayload_of_stray h]
    exact hq.writePayload p
  | SIP => exact hp
  | SPORT => exact hp

theorem Loggable.merge {memory : Memory} (hmem : ∀ left, stray (memory left) = []) {mi : MergerInfo}
    {m : TreeMap Int Packet} (hm : ∀ (k : Int) p, m[k]? = some p → p.Loggable)
    {sweeps : Nat} {r : Packet} (h : mergePacket sweeps memory mi m = .ok r) : r.Loggable :=
  mergePacket_closed (fun left _ _ F hq hp => hq.copyField (hmem left) hp F)
    (fun _ hp => hp.of_data (data_nullify _)) hm h

theorem Loggable.record {x : Received} (hp : x.packet.Loggable) (h : stray x.behind = []) :
    '\n' ∉ x.lineText ∧ receiverRecord x.lineText = x.packet.record x.packet.payload := by
  have hread : x.payload = x.packet.payload := getPayload_of_stray h _
  constructor
  · refine mt Received.newline_mem_lineText.mp fun hmem => hp.newline ?_
    exact x.packet.payload_subset (hread ▸ hmem)
  · rw [← hread, Received.receiverRecord_eq_record, hread]
    exact fun hmem => hp.comma (x.packet.payload_subset hmem)

end Packet

/-! ### The packets of a run -/

theorem loggable_text {p : Packet} {text : String} (hdata : p.data = text.toUTF8.toList) (hsize : p.size ≤ 99)
    (hnewline : '\n' ∉ text.toList) (hcomma : ',' ∉ text.toList) : p.Loggable where
  size := hsize
  newline := by
    rw [hdata]
    exact mt (Utf8.mem_toUTF8_iff (c := '\n') (by decide) (by decide)).mp hnewline
  comma := by
    rw [hdata]
    exact mt (Utf8.mem_toUTF8_iff (c := ',') (by decide) (by decide)).mp hcomma

theorem loggable_senderPacket {i : Nat} (hi : i < 10 ^ 10) : (senderPacket i).Loggable := by
  have hdigits : ∀ c : Char, c.isDigit = false → c ∉ "hello".toList → c ∉ ("hello" ++ toString i).toList := by
    intro c hc hhello
    rw [String.toList_append, List.mem_append, not_or]
    exact ⟨hhello, by rw [Nat.toString_eq_repr, Nat.toList_repr]; exact CText.notMem_toDigits hc i⟩
  exact loggable_text (Packet.data_make ..) (size_senderPacket_le hi) (hdigits _ (by decide) (by decide))
    (hdigits _ (by decide) (by decide))

theorem loggable_started {nf : NF} {p : Packet} (hp : p.Loggable) : (nf.started.process p).Loggable := by
  have hsize : (nf.started.process p).size ≤ 99 := Overlay.size_started hp.size
  cases nf with
  | pktgen => exact hp
  | dnfFirewall => exact hp
  | dnfLoadbalancer => exact hp
  | proxy => exact hp.of_data ((Packet.data_writeDestPort ..).trans (Packet.data_writeDestIp ..))
  | compressor =>
    have hdata : (p.writePayload "compressed!".toUTF8.toList).data = "compressed!".toUTF8.toList := rfl
    exact loggable_text hdata hsize (by decide) (by decide)

namespace Overlay
variable {net : Overlay}

theorem loggable_along {i : Nat} (hi : i < net.numPacketsSent.toNat) (l : List Int) : (net.along i l).Loggable := by
  have hsender := loggable_senderPacket (lt_of_mem_range hi)
  induction l with
  | nil => exact hsender
  | cons v l ih =>
    cases l with
    | nil => exact hsender
    | cons u l =>
      rw [along, processAt]
      split
      · exact loggable_started ih
      · exact ih

end Overlay

/-! ### What the receiver gets -/

theorem exists_subperm_map {α β : Type*} {f : α → β} {received : List β} {sent : List α}
    (h : received.Subperm (sent.map f)) : ∃ shown : List α, shown.Subperm sent ∧ received = shown.map f := by
  obtain ⟨l, hperm, hsublist⟩ := h
  obtain ⟨l', hl', rfl⟩ := List.sublist_map_iff.mp hsublist
  obtain ⟨shown, rfl, hshown⟩ : Relation.Comp (· = List.map f ·) List.Perm received l' :=
    List.eq_map_comp_perm f ▸ hperm.symm
  exact ⟨shown, ⟨l', hshown.symm, hl'⟩, rfl⟩

theorem exists_map_of_fst {α β γ : Type*} {f : α → β} {received : List (β × γ)} {l : List α}
    (h : received.map (·.1) = l.map f) :
    ∃ shown : List (α × γ), shown.map (·.1) = l ∧ received = shown.map fun x => (f x.1, x.2) := by
  have hlen := congrArg List.length h
  rw [List.length_map, List.length_map] at hlen
  refine ⟨l.zip (received.map (·.2)), List.map_fst_zip (by rw [List.length_map, hlen]), ?_⟩
  calc received = (l.map f).zip ((received.map (·.2)).map id) := List.zip_of_prod h (List.map_id _).symm
    _ = (l.zip (received.map (·.2))).map (Prod.map f id) := List.zip_map

theorem nodup_map_of_subperm {α β : Type*} {f : α → β} {l l' : List α} (h : l.Subperm l') (hnd : (l'.map f).Nodup) :
    (l.map f).Nodup := by
  obtain ⟨l₀, hperm, hsublist⟩ := h
  exact (hperm.map f).nodup_iff.mp (hnd.sublist (hsublist.map f))

/-- The page has a row for each packet that can be logged. -/
theorem showReceiver_loggable {received : List Received}
    (h : ∀ x ∈ received, x.packet.Loggable ∧ Packet.stray x.behind = []) (numPackets : Int) :
    showReceiver (pktReceiver numPackets 0 received) =
      (logged numPackets received).map (fun x => x.packet.record x.packet.payload) ++ [emptyRecord] := by
  have hlogged : ∀ x ∈ logged numPackets received, x.packet.Loggable ∧ Packet.stray x.behind = [] := by
    intro x hx
    rw [logged] at hx
    split at hx
    · exact h x (List.mem_of_mem_take hx)
    · exact h x hx
  rw [pktReceiver_eq, showReceiver_lines, lines_eq fun x hx => ((hlogged x hx).1.record (hlogged x hx).2).1,
    List.map_map]
  exact congrArg (· ++ _) (List.map_congr_left fun x hx => ((hlogged x hx).1.record (hlogged x hx).2).2)

/-- `dest_address`, which `run` sets up; without an ip the merger exits. -/
def MergerInfo.destAddress (mi : MergerInfo) : Option (String × Int) :=
  if mi.destIp.isEmpty then none else some (mi.destIp, mi.destPort)

/-- The receiver's address is there, and packets come to it. -/
def MergerInfo.Reaches (routes : Routes) (mi : MergerInfo) : Prop := ∃ addr ∈ mi.destAddress, routes.Reaches addr

def MergerOperator.State.datagrams (routes : Routes) (mi : MergerInfo) (m : MergerOperator.State) :
    List (List UInt8) :=
  m.merges.filterMap fun t => do
    let (_, mergedPkt) ← t.phase.sent?
    sendPacket routes mergedPkt (← mi.destAddress)

/-- What the receiver has read: a datagram, and what stands behind the buffer it is copied to. -/
def receivedFrom (x : List UInt8 × List UInt8) : Option Received :=
  (receivedPacket (some x.1)).map (⟨·, x.2⟩)

namespace Setup

section Run
variable {f : Nat} (S : Setup) (hd : ∀ d ∈ S.input.orderDependencies ++ S.input.priorities, d.1 ≠ d.2)
  (hfed : S.Fed f) (hfew : S.numPacketsSent ≤ 65536) {s : State Datagram} {acts : List MergerOperator.Action}
  (hacts : deliveries acts = s.handled.filterMap S.overlay.atMerger) {m : MergerOperator.State}
  (hrun : exec S.orchestrator.mergerInfo.numNodes S.orchestrator.mergerInfo acts = some m)
  (hcalm : Calm S.orchestrator.mergerInfo.numNodes S.orchestrator.mergerInfo acts) (hclean : ∀ a ∈ acts, a.Clean)
  {routes : Routes} (hdest : S.orchestrator.mergerInfo.Reaches routes)

include hrun hclean

theorem loggable_found {i : Nat} (hi : i < S.numPacketsSent.toNat) {t : MergerOperator.MergeThread} (ht : t ∈ m.merges)
    {pkts : TreeMap Int Packet} {r : Packet} (hfound : t.phase.found = some (pkts, r)) (h : S.MergeOf f i pkts r) :
    r.Loggable := by
  refine exec_found (R := fun pkts r => (∀ (k : Int) p, pkts[k]? = some p → p.Loggable) → r.Loggable)
    (fun a ha i memory he pkts r hr hp => Packet.Loggable.merge (hclean a ha i memory he) hp hr)
    hrun t ht pkts r hfound ?_
  intro k p hp
  obtain ⟨x, path, -, -, -, rfl⟩ := (h.pkts_iff k p).mp hp
  exact Overlay.loggable_along hi _

include hd hfed hfew hacts hcalm hdest

theorem datagrams_eq {n : Nat} (hs : Run S.overlay.react S.overlay.sources n s) :
    ∃ sent : List (Nat × Packet), (sent.map (·.1)).Nodup ∧
      m.datagrams routes S.orchestrator.mergerInfo = sent.map (·.2.pkt) ∧
      (∀ x ∈ sent, x.2.Loggable ∧ x.1 < S.numPacketsSent.toNat ∧ ∃ pkts, S.MergeOf f x.1 pkts x.2) ∧
      ∀ t ∈ m.merges, ∀ pkts r, t.phase = .sent pkts r → ∃ x ∈ sent, t.packetId = (senderPacket x.1).rawId := by
  obtain ⟨hnd, hall⟩ := merged_of_run S hd hfed hfew hacts hrun hcalm hs
  choose! index hindex using hall
  have hmerge : ∀ t ∈ m.merges, ∀ x, t.phase.sent? = some x →
      x.2.Loggable ∧ ∃ pkts, S.MergeOf f (index t) pkts x.2 := by
    rintro t ht ⟨pkts, r⟩ hx
    obtain ⟨hlt, -, hmerges⟩ := hindex t ht
    have hfound : t.phase.found = some (pkts, r) := by
      cases hph : t.phase with
      | sent pkts' r' => rw [hph] at hx; exact hx
      | _ => rw [hph] at hx; cases hx
    have hm := hmerges pkts r hfound
    exact ⟨loggable_found S hrun hclean hlt ht hfound hm, pkts, hm⟩
  refine ⟨m.merges.filterMap fun t => t.phase.sent?.map fun x => (index t, x.2), ?_, ?_, ?_, ?_⟩
  · -- different threads have different ids
    have hindexes : (m.merges.map index).Nodup := by
      refine hnd.of_map _ |>.map_on fun t ht t' ht' he => ?_
      refine List.inj_on_of_nodup_map hnd ht ht' ?_
      rw [(hindex t ht).2.1, (hindex t' ht').2.1, he]
    rw [List.map_filterMap, List.Nodup, List.pairwise_filterMap]
    refine (List.pairwise_map.mp hindexes).imp fun {t t'} hne i hi j hj => ?_
    simp only [Option.map_map, Option.map_eq_some_iff] at hi hj
    obtain ⟨-, -, rfl⟩ := hi
    obtain ⟨-, -, rfl⟩ := hj
    exact hne
  · rw [MergerOperator.State.datagrams, List.map_filterMap]
    refine List.filterMap_congr fun t ht => ?_
    cases hx : t.phase.sent? with
    | none => rfl
    | some x =>
      obtain ⟨hlog, -⟩ := hmerge t ht x hx
      have hsize := hlog.size
      obtain ⟨addr, haddr, hreach⟩ := hdest
      rw [Option.mem_def] at haddr
      simp [haddr, sendPacket_eq hreach (show x.2.size ≤ 65507 by omega)]
  · intro x hx
    obtain ⟨t, ht, hx⟩ := List.mem_filterMap.mp hx
    obtain ⟨y, hy, rfl⟩ := Option.map_eq_some_iff.mp hx
    obtain ⟨hlog, hm⟩ := hmerge t ht y hy
    exact ⟨hlog, (hindex t ht).1, hm⟩
  · intro t ht pkts r hph
    exact ⟨(index t, r), List.mem_filterMap.mpr ⟨t, ht, by rw [hph]; rfl⟩, (hindex t ht).2.1⟩

/-- From the user input to the page of the receiver: whatever is lost on the way, and in whatever order the datagrams
are taken, each row is that of one packet of the packet generator, after what the functions of the service graph have
made of it has been merged, and no packet has two rows. If nothing is lost and all threads get through, every packet
comes to the receiver. A NUL has to stand behind each buffer that `get_payload` reads. -/
theorem receiver_shows {n : Nat} (hs : Run S.overlay.react S.overlay.sources n s)
    {received : List (List UInt8 × List UInt8)}
    (hreceived : (received.map (·.1)).Subperm (m.datagrams routes S.orchestrator.mergerInfo))
    (hbehind : ∀ x ∈ received, Packet.stray x.2 = []) (numPackets : Int) :
    ∃ shown : List (Nat × Received), (shown.map (·.1)).Nodup ∧
      (∀ x ∈ shown, x.1 < S.numPacketsSent.toNat ∧ ∃ pkts, S.MergeOf f x.1 pkts x.2.packet) ∧
      showReceiver (pktReceiver numPackets 0 (received.filterMap receivedFrom)) =
        (logged numPackets (shown.map (·.2))).map (fun x => x.packet.record x.packet.payload) ++ [emptyRecord] ∧
      (s.lost = 0 → s.inFlight = 0 → m.Idle → (received.map (·.1)).Perm (m.datagrams routes S.orchestrator.mergerInfo) →
        (shown.map (·.1)).Perm (List.range S.numPacketsSent.toNat)) := by
  obtain ⟨sent, hnd, hdatagrams, hsent, hthreads⟩ :=
    datagrams_eq S hd hfed hfew hacts hrun hcalm hclean hdest hs
  rw [hdatagrams] at hreceived ⊢
  -- the datagrams that were received, with their packets
  obtain ⟨taken, hsub, htaken⟩ := exists_subperm_map hreceived
  obtain ⟨shown, rfl, rfl⟩ := exists_map_of_fst htaken
  have hshown : ∀ x ∈ shown, x.1.2.Loggable ∧ x.1.1 < S.numPacketsSent.toNat ∧ ∃ pkts, S.MergeOf f x.1.1 pkts x.1.2 :=
    fun x hx => hsent x.1 (hsub.subset (List.mem_map_of_mem hx))
  have hpackets : (shown.map fun x => (x.1.2.pkt, x.2)).filterMap receivedFrom =
      shown.map fun x => ⟨x.1.2, x.2⟩ := by
    rw [List.filterMap_map, ← List.filterMap_eq_map]
    refine List.filterMap_congr fun x hx => ?_
    have hsize := (hshown x hx).1.size
    show (receivedPacket (some x.1.2.pkt)).map _ = _
    rw [Overlay.receivedPacket_pkt (by omega)]
    rfl
  have hloggable : ∀ x ∈ shown.map fun x => (⟨x.1.2, x.2⟩ : Received),
      x.packet.Loggable ∧ Packet.stray x.behind = [] := by
    intro x hx
    obtain ⟨y, hy, rfl⟩ := List.mem_map.mp hx
    exact ⟨(hshown y hy).1, hbehind _ (List.mem_map_of_mem hy)⟩
  refine ⟨shown.map fun x => (x.1.1, ⟨x.1.2, x.2⟩), ?_, ?_, ?_, fun hlost hquiet hidle hall => ?_⟩
  · have hnodup := nodup_map_of_subperm hsub hnd
    rwa [List.map_map] at hnodup ⊢
  · intro x hx
    obtain ⟨y, hy, rfl⟩ := List.mem_map.mp hx
    exact (hshown y hy).2
  · rw [hpackets, showReceiver_loggable hloggable numPackets, List.map_map]
    rfl
  · have hlen := hall.length_eq
    rw [List.map_map, List.length_map, List.length_map] at hlen
    have hperm := hsub.perm_of_length_le (by rw [List.length_map, hlen])
    obtain ⟨hmerges, -⟩ := merged_of_complete S hd hfed hfew hacts hrun hcalm ⟨⟨n, hs⟩, hlost, hquiet⟩ hidle
    have hindexes : (shown.map fun x => x.1.1).Perm (sent.map (·.1)) := by
      have hmap := hperm.map (·.1)
      rwa [List.map_map] at hmap
    rw [List.map_map]
    refine hindexes.trans ((List.perm_ext_iff_of_nodup hnd List.nodup_range).mpr fun i => ?_)
    rw [List.mem_map, List.mem_range]
    constructor
    · rintro ⟨x, hx, rfl⟩
      exact (hsent x hx).2.1
    · intro hi
      obtain ⟨t, ht, hti⟩ := List.mem_map.mp
        (hmerges.mem_iff.mpr (List.mem_map.mpr ⟨i, List.mem_range.mpr hi, rfl⟩))
      obtain ⟨pkts, r, hph⟩ := hidle.2 t ht
      obtain ⟨x, hx, htx⟩ := hthreads t ht pkts r hph
      have hlt := (hsent x hx).2.1
      rw [hti, senderPacket_rawId] at htx
      exact ⟨x, hx, by omega⟩

end Run

/-- The receiver is started for more packets than there are, and the page has ten rows and one more. -/
theorem receiver_shows_complex : ∃ (o : Orchestrator)
    (ho : Orchestrator.construct actionTableJson inputComplexJson (.ascending 5) = .ok o) (s : State Datagram)
    (acts : List MergerOperator.Action) (m : MergerOperator.State) (shown : List (Nat × Received)),
    Complete (complex ho).overlay.react (complex ho).overlay.sources s ∧
    exec o.mergerInfo.numNodes o.mergerInfo acts = some m ∧ (shown.map (·.1)).Perm (List.range 10) ∧
    showReceiver (pktReceiver 11 0
        (((m.datagrams Overlay.routes o.mergerInfo).map (·, [0])).filterMap receivedFrom)) =
      shown.map (fun x => x.2.packet.record x.2.packet.payload) ++ [emptyRecord] := by
  obtain ⟨o, ho⟩ := inputComplexJson_constructed
  obtain ⟨s, acts, m, hs, hacts, hrun, hcalm, hidle, hclean⟩ :=
    (complex ho).exists_merged complex_items (complex_fed ho) complex_packets
  obtain ⟨n, hn⟩ := hs.run
  have hdest : o.mergerInfo.Reaches Overlay.routes := by
    obtain ⟨hip, hport⟩ := construct_dest ho
    refine ⟨("13.58.167.87", 11000), ?_, Overlay.reaches_of_port (by decide) (by decide)⟩
    rw [MergerInfo.destAddress, hip, hport]
    rfl
  let received := (m.datagrams Overlay.routes o.mergerInfo).map fun bytes => (bytes, ([0] : List UInt8))
  have hsent : received.map (·.1) = m.datagrams Overlay.routes o.mergerInfo := by
    rw [List.map_map]
    exact List.map_id _
  have hbehind : ∀ x ∈ received, Packet.stray x.2 = [] := by
    intro x hx
    obtain ⟨bytes, -, rfl⟩ := List.mem_map.mp hx
    rfl
  obtain ⟨shown, -, -, hpage, hall⟩ := receiver_shows (complex ho) complex_items (complex_fed ho) complex_packets hacts
    hrun hcalm hclean hdest hn (hsent ▸ List.Subperm.refl _) hbehind 11
  have hperm := hall hs.lost hs.quiet hidle (hsent ▸ .refl _)
  have hlen : shown.length = 10 := by
    have h := hperm.length_eq
    rwa [List.length_map, List.length_range] at h
  refine ⟨o, ho, s, acts, m, shown, hs, hrun, hperm, hpage.trans ?_⟩
  rw [logged, if_pos (by decide), List.take_of_length_le (by rw [List.length_map, hlen]; decide), List.map_map]
  rfl

end Setup
end DeepNF
