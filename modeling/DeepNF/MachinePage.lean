import DeepNF.Delivery
import DeepNF.FileReads

/-!
# The page of a machine (`log_util.cpp`, `showMachine1` in `src/webserver/routes/routes.js`)

The network functions and the forwarder write a line for each packet, and the page of their machine has a row for each
line. Without losses a function has one row for each packet on each walk to it, and behind them a blank one
(`containerLog_eq`). The forwarder logs the address as it stands in its file, with the end of its line: so it has a
blank row behind each row (`forwarderLog_eq`), if it has a log at all. `machine_shows` is the page as a whole, whatever
the order in which its files are read.
-/

namespace DeepNF
open Walks Flood

/-- The local time of a line. -/
structure LogTime where
  year : Nat
  month : Nat
  day : Nat
  hour : Nat
  minute : Nat
  second : Nat
  usec : Nat

def twoDigits (n : Nat) : String := if n < 10 then "0" ++ toString n else toString n

/-- The microseconds are not padded. -/
def LogTime.text (t : LogTime) : String :=
  toString t.year ++ "-" ++ twoDigits t.month ++ "-" ++ twoDigits t.day ++ " " ++ twoDigits t.hour ++ ":" ++
    twoDigits t.minute ++ ":" ++ twoDigits t.second ++ "." ++ toString t.usec

/-- What `log_nf` is called with. -/
structure LogEntry where
  pktId : Int
  name : String
  action : String
deriving DecidableEq, Repr

namespace LogEntry

def line (e : LogEntry) (time : LogTime) : String :=
  time.text ++ "," ++ toString e.pktId ++ "," ++ e.name ++ "," ++ e.action

def row (e : LogEntry) (time : LogTime) : LogRecord where
  time := some time.text
  packetID := some (toString e.pktId)
  function := some e.name
  action := some e.action

end LogEntry

def logNf (time : LogTime) (e : LogEntry) : List UInt8 := Utf8.encode (e.line time ++ "\n").toList

/-- The log with these entries; the one in place `k` is written at `times k`. -/
def logFile (times : Nat → LogTime) (entries : List LogEntry) : List UInt8 :=
  entries.zipIdx.flatMap fun x => logNf (times x.2) x.1

def blankRow : LogRecord := { time := some "", packetID := none, function := none, action := none }

/-! ### The rows of a log -/

theorem notMem_time {c : Char} (hc : c ∉ ['-', ' ', ':', '.']) (hdigit : c.isDigit = false) (t : LogTime) :
    c ∉ t.text.toList := by
  have hdigits : ∀ n : Nat, c ∉ Nat.toDigits 10 n := CText.notMem_toDigits hdigit
  have hzero : c ≠ '0' := by
    rintro rfl
    exact absurd hdigit (by decide)
  have htwo : ∀ n : Nat, c ∉ (twoDigits n).toList := by
    intro n
    rw [twoDigits]
    split <;> simp [String.toList_append, hdigits, hzero]
  simp only [List.mem_cons, List.not_mem_nil, or_false, not_or] at hc
  simp [LogTime.text, String.toList_append, hdigits, htwo, hc]

theorem splitOn_lines (lines : List (List Char)) :
    (lines.flatMap fun line => line ++ ['\n']).splitOn '\n' = lines.flatMap (·.splitOn '\n') ++ [[]] := by
  induction lines with
  | nil => rfl
  | cons line lines ih =>
    rw [List.flatMap_cons, List.append_assoc, List.singleton_append, List.splitOn_append_cons_self, ih,
      List.flatMap_cons, List.append_assoc]

theorem logRecord_nil : logRecord [] = blankRow := by decide

theorem logRecord_line {e : LogEntry} (hname : ',' ∉ e.name.toList) {action : List Char} (haction : ',' ∉ action)
    (time : LogTime) : logRecord ((time.text ++ "," ++ toString e.pktId ++ "," ++ e.name ++ ",").toList ++ action) =
      { e.row time with action := some (String.ofList action) } := by
  have htime : ',' ∉ time.text.toList := notMem_time (by decide) (by decide) time
  have hid : ',' ∉ (toString e.pktId).toList := CText.notMem_toString (by decide) (by decide)
  have hline : (time.text ++ "," ++ toString e.pktId ++ "," ++ e.name ++ ",").toList ++ action =
      time.text.toList ++ ',' :: ((toString e.pktId).toList ++ ',' :: (e.name.toList ++ ',' :: action)) := by
    simp [String.toList_append]
  have hsplit : ((time.text ++ "," ++ toString e.pktId ++ "," ++ e.name ++ ",").toList ++ action).splitOn ',' =
      [time.text.toList, (toString e.pktId).toList, e.name.toList, action] := by
    rw [hline, List.splitOn_append_cons_self_of_not_mem htime, List.splitOn_append_cons_self_of_not_mem hid,
      List.splitOn_append_cons_self_of_not_mem hname, List.splitOn_eq_singleton haction]
  rw [logRecord, hsplit, LogEntry.row]
  simp

theorem logRecords_logFile (times : Nat → LogTime) (entries : List LogEntry) : logRecords (logFile times entries) =
    (entries.zipIdx.flatMap fun x => ((x.1.line (times x.2)).toList.splitOn '\n').map logRecord) ++ [blankRow] := by
  have hfile : logFile times entries =
      Utf8.encode (entries.zipIdx.flatMap fun x => (x.1.line (times x.2)).toList ++ ['\n']) ++ [] := by
    simp only [logFile, logNf, Utf8.encode, List.flatMap_assoc, String.toList_append, List.append_nil]
    rfl
  have hlines := splitOn_lines (entries.zipIdx.map fun x => (x.1.line (times x.2)).toList)
  rw [List.flatMap_map, List.flatMap_map] at hlines
  rw [logRecords, hfile, Utf8.decode_encode_append, show Utf8.decode [] = [] from rfl, List.append_nil, hlines,
    List.map_append, List.map_flatMap, List.map_singleton, logRecord_nil]

/-- Without commas and ends of lines, an entry has one row. -/
structure LogEntry.Plain (e : LogEntry) : Prop where
  name : ',' ∉ e.name.toList ∧ '\n' ∉ e.name.toList
  action : ',' ∉ e.action.toList ∧ '\n' ∉ e.action.toList

theorem line_eq (e : LogEntry) (time : LogTime) : (e.line time).toList =
    (time.text ++ "," ++ toString e.pktId ++ "," ++ e.name ++ ",").toList ++ e.action.toList := by
  rw [LogEntry.line, String.toList_append]

theorem newline_notMem_front {e : LogEntry} (hname : '\n' ∉ e.name.toList) (time : LogTime) :
    '\n' ∉ (time.text ++ "," ++ toString e.pktId ++ "," ++ e.name ++ ",").toList := by
  have htime : '\n' ∉ time.text.toList := notMem_time (by decide) (by decide) time
  have hid : '\n' ∉ (toString e.pktId).toList := CText.notMem_toString (by decide) (by decide)
  simp only [String.toList_append, List.mem_append, not_or]
  exact ⟨⟨⟨⟨⟨htime, by decide⟩, hid⟩, by decide⟩, hname⟩, by decide⟩

theorem rows_plain {e : LogEntry} (h : e.Plain) (time : LogTime) :
    ((e.line time).toList.splitOn '\n').map logRecord = [e.row time] := by
  obtain ⟨hname, haction⟩ := h
  have hline : '\n' ∉ (e.line time).toList := by
    rw [line_eq, List.mem_append, not_or]
    exact ⟨newline_notMem_front hname.2 time, haction.2⟩
  rw [List.splitOn_eq_singleton hline, List.map_singleton, line_eq,
    logRecord_line hname.1 haction.1, String.ofList_toList]
  rfl

theorem logRecords_plain {times : Nat → LogTime} {entries : List LogEntry} (h : ∀ e ∈ entries, e.Plain) :
    logRecords (logFile times entries) = (entries.zipIdx.map fun x => x.1.row (times x.2)) ++ [blankRow] := by
  rw [logRecords_logFile]
  refine congrArg (· ++ [blankRow]) ?_
  rw [List.map_eq_flatMap]
  refine List.flatMap_congr fun x hx => rows_plain (h x.1 ?_) _
  exact List.fst_mem_of_mem_zipIdx hx

theorem logRecords_newline {times : Nat → LogTime} {entries : List LogEntry} (h : ∀ e ∈ entries, e.Plain) :
    logRecords (logFile times (entries.map fun e => { e with action := e.action ++ "\n" })) =
      (entries.zipIdx.flatMap fun x => [x.1.row (times x.2), blankRow]) ++ [blankRow] := by
  rw [logRecords_logFile, List.zipIdx_map, List.flatMap_map]
  refine congrArg (· ++ [blankRow]) (List.flatMap_congr fun x hx => ?_)
  obtain ⟨hname, haction⟩ := h x.1 (List.fst_mem_of_mem_zipIdx hx)
  have hline : '\n' ∉ (x.1.line (times x.2)).toList := by
    rw [line_eq, List.mem_append, not_or]
    exact ⟨newline_notMem_front hname.2 _, haction.2⟩
  have hend : (LogEntry.line { x.1 with action := x.1.action ++ "\n" } (times x.2)).toList =
      (x.1.line (times x.2)).toList ++ '\n' :: [] := by
    simp [LogEntry.line, String.toList_append]
  have hrow := rows_plain ⟨hname, haction⟩ (times x.2)
  rw [List.splitOn_eq_singleton hline] at hrow
  show (List.splitOn '\n' (LogEntry.line { x.1 with action := x.1.action ++ "\n" } (times x.2)).toList).map _ = _
  rw [hend, List.splitOn_append_cons_self_of_not_mem hline, List.map_cons, List.splitOn_nil, List.map_singleton,
    logRecord_nil]
  rw [List.map_singleton] at hrow
  rw [List.singleton_inj.mp hrow]

/-! ### The log of a network function -/

def Event.entry? : Event → Option LogEntry
  | .logged pktId name action => some ⟨pktId, name, action⟩
  | .sent .. => none

theorem entries_answer (proc : Process) (p : Packet) : (proc.answer p).filterMap Event.entry? =
    [⟨(proc.behavior.process p).getPktId, proc.behavior.name, proc.behavior.action⟩] := by
  have hcopies : (proc.addresses.map fun addr => Event.sent (proc.behavior.process p).pkt addr).filterMap
      Event.entry? = [] := by
    rw [List.filterMap_map]
    exact List.filterMap_eq_nil_iff.mpr fun _ _ => rfl
  unfold Process.answer
  split
  · exact congrArg (List.cons _) hcopies
  · exact List.filterMap_append.trans (congrArg (· ++ _) hcopies)

theorem started_plain (nf : NF) (pktId : Int) : LogEntry.Plain ⟨pktId, nf.started.name, nf.started.action⟩ := by
  have hname : ',' ∉ nf.started.name.toList ∧ '\n' ∉ nf.started.name.toList := by cases nf <;> decide
  have haction : ',' ∉ nf.started.action.toList ∧ '\n' ∉ nf.started.action.toList := by cases nf <;> decide
  exact ⟨hname, haction⟩

namespace Overlay
variable {net : Overlay} {g n : ConfigNode} {s : State Datagram} {i k : Nat} {m : Machine} {l : List Int}

def datagramsAt (s : State Datagram) (socket : Socket) : List (Option (List UInt8)) :=
  (s.handled.filter (·.socket = socket)).map fun d => some d.bytes

def containerLog (net : Overlay) (i : Nat) (m : Machine) (node : RuntimeNode) (s : State Datagram) : List LogEntry :=
  (net.commands i m node).flatMap fun cmd =>
    match node.nf.main (cmd.program ++ cmd.arguments) with
    | some (.ok proc) => (proc.loop routes (datagramsAt s (.container i ((net.config i m).nodeidToNetwork.getD node.id "")
        proc.bindPort))).1.filterMap Event.entry?
    | _ => []

theorem getPktId_along (net : Overlay) (i : Nat) (l : List Int) : (net.along i l).getPktId = (32768 + i) % 65536 := by
  have hid : (net.along i l).ipId = (senderPacket i).ipId := Packet.rawId_eq_iff.mp (rawId_along net i l)
  rw [Packet.getPktId, hid, senderPacket, Packet.ipId_make, ntohs_htons]

theorem filterMap_datagramsAt (s : State Datagram) (v : Int) :
    (datagramsAt s (net.containerOf v)).filterMap receivedPacket = s.handled.filterMap (net.atContainer v) := by
  rw [datagramsAt, List.filterMap_map, List.filterMap_filter]
  refine List.filterMap_congr fun d _ => ?_
  simp [atContainer]

theorem digests_of_run (hg : net.Generator g) {steps : Nat}
    (h : Run net.react net.sources steps s) {proc : Process} (hproc : proc.behavior = n.nf.started)
    (haddr : ∀ addr ∈ proc.addresses, routes.Reaches addr) :
    ∀ d ∈ datagramsAt s (net.containerOf n.id), proc.Digests routes d := by
  intro d hd
  obtain ⟨x, hx, rfl⟩ := List.mem_map.mp hd
  obtain ⟨hx, hsocket⟩ := List.mem_filter.mp hx
  have hsocket : x.socket = net.containerOf n.id := by simpa using hsocket
  obtain ⟨L, hL⟩ := h.accounts (nodup_sources hg) (nodup_react hg)
  rw [← hL.handled_eq] at hx
  obtain ⟨t, ht, rfl⟩ := List.mem_map.mp hx
  obtain ⟨i, hi, stage, hvalid, rfl⟩ := (isTrail_iff hg).mp (hL.isTrail t (Ledger.mem_all.mpr (.inl ht)))
  cases stage with
  | arrived v u l =>
    have hsize := size_along hi l
    intro bytes hbytes
    obtain rfl := Option.some.inj hbytes
    have hshort : (net.along i l).pkt.length ≤ 999 := by
      show (net.along i l).size ≤ 999
      omega
    refine .inr ⟨net.along i l, (List.take_of_length_le hshort).symm, ?_⟩
    have hsent : (n.nf.started.process (net.along i l)).size ≤ 99 := size_started hsize
    refine ⟨?_, haddr⟩
    rw [hproc]
    omega
  | atForwarder v u l => cases hsocket
  | atMerger u l => cases hsocket

theorem containerLog_eq (hg : net.Generator g) (hi : net.machines[i]? = some m) (hn : n ∈ net.nodes)
    (hnm : n.id ∈ m.nodes) (hpk : n.nf ≠ .pktgen) (hs : Complete net.react net.sources s) :
    ∃ xs : List (Nat × Int × List Int), xs.Nodup ∧
      (∀ x, x ∈ xs ↔ net.Sent g.id x ∧ net.Forwards x.2.1 n.id) ∧
      net.containerLog i m n.toRuntimeNode s = xs.map fun x =>
        ⟨(32768 + x.1) % 65536, n.nf.started.name, n.nf.started.action⟩ := by
  obtain ⟨⟨steps, hrun⟩, hlost, hquiet⟩ := hs
  obtain ⟨L, hL⟩ := hrun.accounts (nodup_sources hg) (nodup_react hg)
  obtain ⟨xs, hnd, hvalid, hread, hin⟩ := exists_atContainer hg hn hL
  refine ⟨xs, hnd, fun x => ⟨hvalid x, fun hx => hin x hx ?_⟩, ?_⟩
  · exact (hL.mem_handled_iff hlost hquiet _).mpr
      ((isTrail_iff hg).mpr ⟨x.1, hx.1.1, .arrived n.id x.2.1 x.2.2, ⟨hx.1.2, hx.2⟩, rfl⟩)
  · obtain ⟨k, hk⟩ := List.mem_iff_getElem?.mp hnm
    have hsocket : Socket.container i ((net.config i m).nodeidToNetwork.getD n.toRuntimeNode.id "") 8000 =
        net.containerOf n.id := by
      have hnet := (net.deployment.container hi net.mergerIp net.numPacketsSent hk).1
      rw [containerOf, place_eq hn hi hk, Std.TreeMap.getD_eq_getD_getElem?,
        show (net.config i m).nodeidToNetwork[n.toRuntimeNode.id]? = some (containerIp k) from hnet]
      rfl
    rw [containerLog, commands_eq hi hn hnm, List.flatMap_singleton, main_started hi hn hk hpk]
    dsimp only
    rw [hsocket, Process.loop_of_digests (digests_of_run hg hrun rfl (reaches_destinations hn)),
      filterMap_datagramsAt, hread]
    dsimp only
    rw [List.filterMap_flatMap, List.flatMap_map, List.map_eq_flatMap]
    refine List.flatMap_congr fun x hx => ?_
    have hid : (n.nf.started.process (net.along x.1 x.2.2)).getPktId = (32768 + x.1) % 65536 :=
      (Packet.getPktId_calls ..).trans (getPktId_along net x.1 x.2.2)
    rw [entries_answer, hid]

/-! ### The log of the forwarder -/

/-- The second part of a line, with its end. -/
def vAddrStr (line : List Char) : Except CText.TextError String := do
  let (_, rest) ← CText.strtok ';' line
  let (token, _) ← CText.strtok ';' rest
  return String.ofList token

def threads (net : Overlay) (i : Nat) (m : Machine) : List (Int × Option (String × Int) × String) :=
  let txt := forwarderTxt (net.config i m) (net.configurator i m).internalNodes
  match (CText.getlines txt.toList).mapM fun line => do
    let (realPort, virtualAddr) ← forwarderLine line
    let str ← vAddrStr line
    return (realPort, virtualAddr, str) with
  | .ok threads => threads
  | .error _ => []

/-- What the forwarder of a machine logs for a datagram. -/
def forwarded (net : Overlay) (i : Nat) (m : Machine) (d : Datagram) : List LogEntry :=
  match d.socket with
  | .container .. => []
  | .host ip port =>
    if ip = m.ip then
      ((net.threads i m).filter (·.1 = port)).filterMap fun t => do
        let p ← receivedPacket (some d.bytes)
        let _ ← net.runThread i m t.2.1 d.bytes
        return ⟨p.getPktId, "forwarder", "Forwarding packet to " ++ t.2.2⟩
    else []

theorem vAddrStr_entry {conf : FlowConfig} {node : RuntimeNode} (hip : Plain (conf.nodeidToNetwork.getD node.id "")) :
    vAddrStr ((conf.forwarderEntry node).toList ++ ['\n']) =
      .ok (conf.nodeidToNetwork.getD node.id "" ++ ":" ++ toString (8000 : Int) ++ "\n") := by
  obtain ⟨hfst, hsnd⟩ := strtok_entry hip
  rw [vAddrStr, hfst]
  simp only [bind, Except.bind, pure, Except.pure, hsnd, String.ofList_toList]

theorem threads_eq (hi : net.machines[i]? = some m) : net.threads i m =
    (net.configurator i m).internalNodes.map fun node => (8000 - node.id - 1,
      some ((net.config i m).nodeidToNetwork.getD node.id "", 8000),
      (net.config i m).nodeidToNetwork.getD node.id "" ++ ":" ++ toString (8000 : Int) ++ "\n") := by
  have hparts : ∀ node ∈ (net.configurator i m).internalNodes, CText.IsInt (8000 - node.id - 1) ∧
      Plain ((net.config i m).nodeidToNetwork.getD node.id "") :=
    net.deployment.forwarder_parts hi net.mergerIp net.numPacketsSent
  have hlines := getlines_forwarderTxt fun node hn => (hparts node hn).2
  rw [threads, hlines, Rounds.mapM_of_forall₂]
  rw [List.forall₂_map_left_iff, List.forall₂_map_right_iff, List.forall₂_same]
  intro node hn
  obtain ⟨hport, hip⟩ := hparts node hn
  rw [forwarderLine_entry hip hport, vAddrStr_entry hip]
  rfl

theorem threads_filter (hi : net.machines[i]? = some m) (hn : n ∈ net.nodes) (hk : m.nodes[k]? = some n.id) :
    (net.threads i m).filter (·.1 = 8000 - n.id - 1) = [(8000 - n.id - 1, some (containerIp k, 8000),
      containerIp k ++ ":" ++ toString (8000 : Int) ++ "\n")] := by
  let thread : Int × Option (String × Int) × String := (8000 - n.id - 1, some (containerIp k, 8000),
    containerIp k ++ ":" ++ toString (8000 : Int) ++ "\n")
  rw [threads_eq hi]
  refine filter_eq_singleton (f := Prod.fst) (a := thread) ?_ ?_
  · rw [List.map_map]
    exact net.deployment.nodup_forwarder_ports hi
  · refine List.mem_map.mpr ⟨_, (net.deployment.mem_internalNodes hi hn).mpr (List.mem_of_getElem? hk), ?_⟩
    have hnet := (net.deployment.container hi net.mergerIp net.numPacketsSent hk).1
    rw [Std.TreeMap.getD_eq_getD_getElem?,
      show (net.config i m).nodeidToNetwork[n.toRuntimeNode.id]? = some (containerIp k) from hnet]
    rfl

theorem forwarded_host (hi : net.machines[i]? = some m) (hn : n ∈ net.nodes) (hk : m.nodes[k]? = some n.id)
    {p : Packet} (hp : p.size ≤ 999) : net.forwarded i m ⟨.host m.ip (8000 - n.id - 1), p.pkt⟩ =
      [⟨p.getPktId, "forwarder",
        "Forwarding packet to " ++ (containerIp k ++ ":" ++ toString (8000 : Int) ++ "\n")⟩] := by
  have hpos := net.deployment.id_nonneg hn
  have hsend : sendPacket routes p (containerIp k, 8000) = some p.pkt :=
    sendPacket_eq (reaches_of_port (by omega) (by omega)) (by omega)
  have hthread : net.runThread i m (some (containerIp k, 8000)) p.pkt =
      some ⟨net.route i m (containerIp k, 8000), p.pkt⟩ := by
    rw [runThread, receivedPacket_pkt hp]
    simp [hsend]
  show (if m.ip = m.ip then _ else _) = _
  rw [if_pos rfl, threads_filter hi hn hk, List.filterMap_cons, receivedPacket_pkt hp]
  simp [hthread]

theorem mem_nodes_iff (hi : net.machines[i]? = some m) (hn : n ∈ net.nodes) :
    n.id ∈ m.nodes ↔ (net.place n.id).1 = i := by
  constructor
  · intro hnm
    obtain ⟨k, hk⟩ := List.mem_iff_getElem?.mp hnm
    rw [place_eq hn hi hk]
  · rintro rfl
    obtain ⟨m', hm', hk⟩ := place_spec hn
    obtain rfl := Option.some.inj (hi.symm.trans hm')
    exact List.mem_of_getElem? hk

/-- What the forwarder of machine `i` logs when packet `x.1` comes to it for `x.2.1`, but for the end of the line. -/
def forwardEntry (net : Overlay) (x : Nat × Int × Int × List Int) : LogEntry where
  pktId := (32768 + x.1) % 65536
  name := "forwarder"
  action := "Forwarding packet to " ++ (containerIp (net.place x.2.1).2 ++ ":" ++ toString (8000 : Int))

/-- Packet `x.1` is sent to `x.2.1` on machine `i` along a walk that ends on another machine. -/
def SentOver (net : Overlay) (g : Int) (m : Machine) (x : Nat × Int × Int × List Int) : Prop :=
  net.Sent g (x.1, x.2.2) ∧ net.Forwards x.2.2.1 x.2.1 ∧ x.2.1 ∈ m.nodes ∧ x.2.2.1 ∉ m.nodes

theorem SentOver.valid (hi : net.machines[i]? = some m) {x : Nat × Int × Int × List Int}
    (h : net.SentOver g.id m x) (hg : net.Generator g) :
    (Stage.atForwarder x.2.1 x.2.2.1 x.2.2.2).Valid net g.id := by
  obtain ⟨⟨-, hw⟩, hv, hvm, hum⟩ := h
  obtain ⟨n, hn, hid, -⟩ := hv.node
  obtain ⟨n', hn', hid'⟩ := walk_node hg hw
  refine ⟨⟨hw, hv⟩, fun he => hum ?_⟩
  rw [← hid] at hvm he
  rw [← hid'] at he ⊢
  exact (mem_nodes_iff hi hn').mpr (he.symm.trans ((mem_nodes_iff hi hn).mp hvm))

theorem forwarded_of_sentOver (hi : net.machines[i]? = some m) {x : Nat × Int × Int × List Int}
    (h : net.SentOver g.id m x) : net.forwarded i m ((Stage.atForwarder x.2.1 x.2.2.1 x.2.2.2).trail net x.1).1 =
      [{ net.forwardEntry x with action := (net.forwardEntry x).action ++ "\n" }] := by
  obtain ⟨j, v, u, l⟩ := x
  obtain ⟨⟨hj, -⟩, hv, hvm, -⟩ := h
  dsimp only at hj hv hvm ⊢
  obtain ⟨n, hn, rfl, -⟩ := hv.node
  obtain ⟨k, hk⟩ := List.mem_iff_getElem?.mp hvm
  have hsize := size_along hj l
  show net.forwarded i m ⟨.host (net.machineIp n.id) (8000 - n.id - 1), (net.along j l).pkt⟩ = _
  rw [machineIp_eq hn hi hk, forwarded_host hi hn hk (by omega), getPktId_along, forwardEntry, place_eq hn hi hk]
  simp only [String.append_assoc]

theorem forwarded_stage (hg : net.Generator g) (hi : net.machines[i]? = some m) {j : Nat}
    (hj : j < net.numPacketsSent.toNat) {stage : Stage} (hvalid : stage.Valid net g.id) :
    net.forwarded i m (stage.trail net j).1 = [] ∨ ∃ x, net.SentOver g.id m x ∧
      stage.trail net j = (Stage.atForwarder x.2.1 x.2.2.1 x.2.2.2).trail net x.1 := by
  cases stage with
  | arrived v u l => exact .inl rfl
  | atForwarder v u l =>
    obtain ⟨⟨hw, hv⟩, hplace⟩ := hvalid
    obtain ⟨n, hn, rfl, -⟩ := hv.node
    obtain ⟨n', hn', rfl⟩ := walk_node hg hw
    by_cases hnm : n.id ∈ m.nodes
    · have hni := (mem_nodes_iff hi hn).mp hnm
      have hn'm : n'.id ∉ m.nodes := fun h => hplace (hni.trans ((mem_nodes_iff hi hn').mp h).symm)
      exact .inr ⟨(j, n.id, n'.id, l), ⟨⟨hj, hw⟩, hv, hnm, hn'm⟩, rfl⟩
    · left
      obtain ⟨m', hi', hk'⟩ := place_spec hn
      show (if net.machineIp n.id = m.ip then _ else _) = _
      rw [if_neg]
      intro hip
      rw [machineIp_eq hn hi' hk'] at hip
      have hm := List.inj_on_of_nodup_map net.deployment.ips (List.mem_of_getElem? hi') (List.mem_of_getElem? hi) hip
      exact hnm (hm ▸ List.mem_of_getElem? hk')
  | atMerger u l =>
    left
    obtain ⟨n, hn, rfl⟩ := walk_node hg hvalid.1
    show (if net.mergerIp = m.ip then _ else _) = _
    split
    · have hnone : (net.threads i m).filter (·.1 = 8000 + n.id + 1) = [] := by
        rw [threads_eq hi]
        refine List.filter_eq_nil_iff.mpr fun t ht hport => ?_
        obtain ⟨node, hnode, rfl⟩ := List.mem_map.mp ht
        obtain ⟨w, hw, rfl, -⟩ := net.deployment.exists_of_internalNodes hi hnode
        have hwpos := net.deployment.id_nonneg hw
        have hnpos := net.deployment.id_nonneg hn
        have hport : (8000 : Int) - w.id - 1 = 8000 + n.id + 1 := by simpa using hport
        omega
      rw [hnone]
      rfl
    · rfl

theorem atForwarder_inj (hg : net.Generator g) {x y : Nat × Int × Int × List Int} (hx : net.SentOver g.id m x)
    (hy : net.SentOver g.id m y) (h : (Stage.atForwarder x.2.1 x.2.2.1 x.2.2.2).trail net x.1 =
      (Stage.atForwarder y.2.1 y.2.2.1 y.2.2.2).trail net y.1) : x = y := by
  obtain ⟨j, v, u, l⟩ := x
  obtain ⟨j', v', u', l'⟩ := y
  obtain ⟨⟨-, hw⟩, hv, -⟩ := hx
  obtain ⟨⟨-, hw'⟩, hv', -⟩ := hy
  obtain ⟨hd, hbefore⟩ := Prod.mk.inj h
  obtain ⟨hsocket, hbytes⟩ := Datagram.mk.inj hd
  have hport := (Socket.host.inj hsocket).2
  dsimp only at hw hv hw' hv' hbytes hport
  obtain rfl : v = v' := by omega
  obtain rfl := walk_inj hg hw hw' hbefore
  obtain rfl := hw.end_unique hw'
  have htrail : net.trailOf j (v :: l) = net.trailOf j' (v :: l) := by
    rw [trailOf_step hw, trailOf_step hw, hop, hop, hbytes, hbefore]
  obtain ⟨rfl, -⟩ := trailOf_inj hg hw hv hw hv htrail
  rfl

theorem forwardEntry_plain (x : Nat × Int × Int × List Int) : (net.forwardEntry x).Plain := by
  have haddr : ∀ c : Char, c.isDigit = false → c ≠ '-' → c ∉ "Forwarding packet to ".toList →
      c ∉ "173.16.1.".toList → c ∉ ":".toList → c ∉ (net.forwardEntry x).action.toList := by
    intro c hdigit hminus hfront hnet hcolon
    simp only [forwardEntry, containerIp, String.toList_append, List.mem_append, not_or]
    exact ⟨hfront, ⟨⟨hnet, CText.notMem_toString hdigit hminus⟩, hcolon⟩, CText.notMem_toString hdigit hminus⟩
  have hname : ',' ∉ "forwarder".toList ∧ '\n' ∉ "forwarder".toList := by decide
  exact ⟨hname, haddr _ (by decide) (by decide) (by decide) (by decide) (by decide),
    haddr _ (by decide) (by decide) (by decide) (by decide) (by decide)⟩

def forwarderLog (net : Overlay) (i : Nat) (m : Machine) (s : State Datagram) : List LogEntry :=
  s.handled.flatMap (net.forwarded i m)

theorem forwarderLog_eq (hg : net.Generator g) (hi : net.machines[i]? = some m)
    (hs : Complete net.react net.sources s) : ∃ xs : List (Nat × Int × Int × List Int), xs.Nodup ∧
      (∀ x, x ∈ xs ↔ net.SentOver g.id m x) ∧
      net.forwarderLog i m s =
        (xs.map net.forwardEntry).map fun e => { e with action := e.action ++ "\n" } := by
  obtain ⟨⟨steps, hrun⟩, hlost, hquiet⟩ := hs
  obtain ⟨L, hL⟩ := hrun.accounts (nodup_sources hg) (nodup_react hg)
  let msg : Nat × Int × Int × List Int → Datagram × List Datagram :=
    fun x => (Stage.atForwarder x.2.1 x.2.2.1 x.2.2.2).trail net x.1
  let entry : Nat × Int × Int × List Int → LogEntry :=
    fun x => { net.forwardEntry x with action := (net.forwardEntry x).action ++ "\n" }
  have hlogged : ∀ x, net.SentOver g.id m x → net.forwarded i m (msg x).1 = [entry x] :=
    fun x hx => forwarded_of_sentOver hi hx
  have hstage : ∀ t, IsTrail net.react net.sources t → net.forwarded i m t.1 = [] ∨
      ∃ x, net.SentOver g.id m x ∧ t = msg x := by
    intro t ht
    obtain ⟨j, hj, stage, hvalid, rfl⟩ := (isTrail_iff hg).mp ht
    exact forwarded_stage hg hi hj hvalid
  -- a datagram leaves one line at most
  let first : Datagram → Option LogEntry := fun d => (net.forwarded i m d).head?
  have hmsg : ∀ t, IsTrail net.react net.sources t → ∀ e, first t.1 = some e →
      ∃ x, net.SentOver g.id m x ∧ t = msg x := by
    intro t ht e he
    rcases hstage t ht with hnil | hx
    · exact nomatch (congrArg List.head? hnil).symm.trans he
    · exact hx
  have hsel : ∀ x, net.SentOver g.id m x → first (msg x).1 = some (entry x) :=
    fun x hx => congrArg List.head? (hlogged x hx)
  obtain ⟨xs, hnd, hvalid, hread, hin⟩ := hL.exists_read hmsg hsel fun x y hx hy he => atForwarder_inj hg hx hy he
  refine ⟨xs, hnd, fun x => ⟨hvalid x, fun hx => hin x hx ?_⟩, ?_⟩
  · exact (hL.mem_handled_iff hlost hquiet _).mpr
      ((isTrail_iff hg).mpr ⟨x.1, hx.1.1, _, SentOver.valid hi hx hg, rfl⟩)
  · rw [List.map_map]
    refine Eq.trans ?_ hread
    rw [forwarderLog, List.filterMap_eq_flatMap_toList]
    refine List.flatMap_congr fun d hd => ?_
    rw [← hL.handled_eq] at hd
    obtain ⟨t, ht, rfl⟩ := List.mem_map.mp hd
    show net.forwarded i m t.1 = (net.forwarded i m t.1).head?.toList
    rcases hstage t (hL.isTrail t (Ledger.mem_all.mpr (.inl ht))) with hnil | ⟨x, hx, rfl⟩
    · rw [hnil]
      rfl
    · rw [hlogged x hx]
      rfl

/-! ### The page -/

/-- The folders that the machine logs into. Docker makes that of a container. Nothing makes that of the forwarder, and
without it (`hasFolder`) the forwarder only prints that it could not open the file. -/
def logFolders (net : Overlay) (hasFolder : Bool) (i : Nat) (m : Machine) (times : String → Nat → LogTime)
    (s : State Datagram) : List Folder :=
  -- the packet generator has no log
  ((net.configurator i m).internalNodes.filter (·.nf ≠ .pktgen)).map (fun node =>
    ⟨getConfigDir node.id, [("log.txt", logFile (times (getConfigDir node.id)) (net.containerLog i m node s))]⟩) ++
  if hasFolder then [⟨"forwarder", [("log.txt", logFile (times "forwarder") (net.forwarderLog i m s))]⟩] else []

/-- What `log/` of the machine holds when its page is asked for. -/
structure Logged (net : Overlay) (hasFolder : Bool) (i : Nat) (m : Machine) (times : String → Nat → LogTime)
    (s : State Datagram) (dir : LogDirectory) : Prop where
  folders : ∀ f ∈ net.logFolders hasFolder i m times s, f ∈ dir.folders
  forwarder : hasFolder = false → ∀ f ∈ dir.folders, f.name ≠ "forwarder"
  -- other programs log there too, each into one file
  single : ∀ f ∈ dir.folders, f.name ≠ "__proto__" ∧ ∃ file, f.files = [file]
  nonempty : dir.folders ≠ []

section
variable {hasFolder : Bool} {times : String → Nat → LogTime}

theorem mem_logFolders {f : Folder} : f ∈ net.logFolders hasFolder i m times s ↔
    (∃ node ∈ (net.configurator i m).internalNodes, node.nf ≠ .pktgen ∧ f = ⟨getConfigDir node.id,
      [("log.txt", logFile (times (getConfigDir node.id)) (net.containerLog i m node s))]⟩) ∨
    hasFolder = true ∧ f = ⟨"forwarder", [("log.txt", logFile (times "forwarder") (net.forwarderLog i m s))]⟩ := by
  rw [logFolders, List.mem_append]
  refine or_congr ⟨fun hf => ?_, ?_⟩ (by cases hasFolder <;> simp)
  · obtain ⟨node, hnode, rfl⟩ := List.mem_map.mp hf
    obtain ⟨hnode, hpk⟩ := List.mem_filter.mp hnode
    exact ⟨node, hnode, of_decide_eq_true hpk, rfl⟩
  · rintro ⟨node, hnode, hpk, rfl⟩
    exact List.mem_map.mpr ⟨node, List.mem_filter.mpr ⟨hnode, decide_eq_true hpk⟩, rfl⟩

theorem getConfigDir_ne_of_head {name : String} (h : name.toList.head? ≠ some 'c') (id : Int) :
    getConfigDir id ≠ name := by
  rintro rfl
  rw [getConfigDir, String.toList_append] at h
  exact h rfl

theorem logFolders_single {f : Folder} (hf : f ∈ net.logFolders hasFolder i m times s) :
    f.name ≠ "__proto__" ∧ ∃ file, f.files = [file] := by
  rcases mem_logFolders.mp hf with ⟨node, -, -, rfl⟩ | ⟨-, rfl⟩
  · exact ⟨getConfigDir_ne_of_head (by decide) _, _, rfl⟩
  · exact ⟨show "forwarder" ≠ "__proto__" by decide, _, rfl⟩

theorem nodup_logFolders (hi : net.machines[i]? = some m) :
    ((net.logFolders hasFolder i m times s).map (·.name)).Nodup := by
  have hids : ((net.configurator i m).internalNodes.map fun node => getConfigDir node.id).Nodup := by
    have hnd := net.deployment.nodup_nodes m (List.mem_of_getElem? hi)
    rw [← net.deployment.map_id_internalNodes hi] at hnd
    have hdirs := hnd.map (f := getConfigDir) fun _ _ h => CText.append_toString_inj h
    rwa [List.map_map] at hdirs
  have hsub := hids.sublist ((List.filter_sublist (p := fun node => decide (node.nf ≠ .pktgen))).map _)
  rw [logFolders, List.map_append, List.map_map, List.nodup_append]
  refine ⟨hsub, by cases hasFolder <;> simp, fun a ha b hb => ?_⟩
  obtain ⟨node, -, rfl⟩ := List.mem_map.mp ha
  obtain rfl : b = "forwarder" := by cases hasFolder <;> simp_all
  exact getConfigDir_ne_of_head (by decide) _

def logDirectory (net : Overlay) (hasFolder : Bool) {i : Nat} {m : Machine} (hi : net.machines[i]? = some m)
    (times : String → Nat → LogTime) (s : State Datagram) : LogDirectory where
  folders := net.logFolders hasFolder i m times s
  nodup_folders := nodup_logFolders hi
  nodup_files f hf := by
    obtain ⟨-, file, hfile⟩ := logFolders_single hf
    rw [hfile]
    exact List.nodup_singleton _

theorem logged_logDirectory (hi : net.machines[i]? = some m)
    (hne : net.logFolders hasFolder i m times s ≠ []) :
    net.Logged hasFolder i m times s (net.logDirectory hasFolder hi times s) where
  folders _ hf := hf
  forwarder hno f hf := by
    rcases mem_logFolders.mp hf with ⟨node, -, -, rfl⟩ | ⟨hyes, -⟩
    · exact getConfigDir_ne_of_head (by decide) _
    · exact nomatch hno.symm.trans hyes
  single _ hf := logFolders_single hf
  nonempty := hne

/-- The page of a machine when nothing was lost and everything has come through. Whatever the order in which its files
are read, it is rendered once. A network function has one row for each packet on each walk to it. The forwarder, if it
has a log, has two for each packet that comes from another machine, one of them blank. The last row of each is blank. -/
theorem machine_shows (hg : net.Generator g) (hi : net.machines[i]? = some m)
    (hs : Complete net.react net.sources s) {dir : LogDirectory} (hdir : net.Logged hasFolder i m times s dir)
    {r : State Callback} (hr : Complete Callback.asks dir.listings r) :
    ∃ data, (readFiles dir r.handled).calls = [some data] ∧
      (∀ n ∈ net.nodes, n.id ∈ m.nodes → n.nf ≠ .pktgen → ∃ xs : List (Nat × Int × List Int), xs.Nodup ∧
        (∀ x, x ∈ xs ↔ net.Sent g.id x ∧ net.Forwards x.2.1 n.id) ∧
        data[getConfigDir n.id]? = some ((xs.zipIdx.map fun x => LogEntry.row
          ⟨(32768 + x.1.1) % 65536, n.nf.started.name, n.nf.started.action⟩ (times (getConfigDir n.id) x.2)) ++
            [blankRow])) ∧
      (hasFolder = true → ∃ xs : List (Nat × Int × Int × List Int), xs.Nodup ∧
        (∀ x, x ∈ xs ↔ net.SentOver g.id m x) ∧
        data["forwarder"]? = some ((xs.zipIdx.flatMap fun x =>
          [(net.forwardEntry x.1).row (times "forwarder" x.2), blankRow]) ++ [blankRow])) ∧
      (hasFolder = false → data["forwarder"]? = none) := by
  obtain ⟨data, hcalls, hdata, hnames⟩ := LogDirectory.page_of_single hr (fun f hf => (hdir.single f hf).1)
    (fun f hf => (hdir.single f hf).2) hdir.nonempty
  refine ⟨data, hcalls, fun n hn hnm hpk => ?_, fun hyes => ?_, fun hno => ?_⟩
  · obtain ⟨xs, hnd, hxs, hlog⟩ := containerLog_eq hg hi hn hnm hpk hs
    refine ⟨xs, hnd, hxs, ?_⟩
    have hnode := (net.deployment.mem_internalNodes hi hn).mpr hnm
    have hfolder := hdir.folders _ (mem_logFolders.mpr (.inl ⟨n.toRuntimeNode, hnode, hpk, rfl⟩))
    rw [hdata _ hfolder _ rfl, hlog, logRecords_plain, List.zipIdx_map, List.map_map]
    · rfl
    · intro e he
      obtain ⟨x, -, rfl⟩ := List.mem_map.mp he
      exact started_plain n.nf _
  · obtain ⟨xs, hnd, hxs, hlog⟩ := forwarderLog_eq hg hi hs
    refine ⟨xs, hnd, hxs, ?_⟩
    have hfolder := hdir.folders _ (mem_logFolders.mpr (.inr ⟨hyes, rfl⟩))
    rw [hdata _ hfolder _ rfl, hlog, logRecords_newline, List.zipIdx_map, List.flatMap_map]
    · rfl
    · intro e he
      obtain ⟨x, -, rfl⟩ := List.mem_map.mp he
      exact forwardEntry_plain x
  · -- without the folder nothing is read under this name
    refine Std.TreeMap.getElem?_eq_none fun hmem => ?_
    obtain ⟨f, hf, hname⟩ := hnames _ hmem
    exact hdir.forwarder hno f hf hname

end

/-- The proxy on the second machine has two rows for the first packet, and the forwarder there has no log. -/
theorem machine_shows_twoMachines : ∃ (s : State Datagram) (dir : LogDirectory) (r : State Callback)
    (xs : List (Nat × Int × List Int)), Complete twoMachines.react twoMachines.sources s ∧
      Complete Callback.asks dir.listings r ∧ (0, 0, [0]) ∈ xs ∧ (0, 1, [1, 0]) ∈ xs ∧
      ∃ data, (readFiles dir r.handled).calls = [some data] ∧ data["forwarder"]? = none ∧
        data["c2"]? = some ((xs.zipIdx.map fun x => LogEntry.row
          ⟨(32768 + x.1.1) % 65536, "proxy", "rewrote packet destination to 18.188.160.171:8888"⟩
            ⟨2018, 4, 9, 12, 0, 0, x.2⟩) ++ [blankRow]) := by
  have hi : twoMachines.machines[1]? = some secondMachine := rfl
  have hproxy : proxyNode ∈ twoMachines.nodes := .tail _ (.tail _ (.head _))
  obtain ⟨s, hs⟩ := twoMachines_complete
  let times : String → Nat → LogTime := fun _ k => ⟨2018, 4, 9, 12, 0, 0, k⟩
  have hnode := (twoMachines.deployment.mem_internalNodes hi hproxy).mpr (by decide)
  have hne : twoMachines.logFolders false 1 secondMachine times s ≠ [] :=
    List.ne_nil_of_mem (mem_logFolders.mpr (.inl ⟨proxyNode.toRuntimeNode, hnode, by decide, rfl⟩))
  obtain ⟨r, hr, -⟩ := LogDirectory.exists_complete (.refl (twoMachines.logDirectory false hi times s).folders)
  obtain ⟨data, hcalls, hpages, -, hforwarder⟩ :=
    machine_shows twoMachines_generator hi hs (logged_logDirectory hi hne) hr
  obtain ⟨xs, -, hxs, hrows⟩ := hpages proxyNode hproxy (by decide) (by decide)
  obtain ⟨hpktgen, hfirewall, -, -⟩ := twoMachines_sent
  exact ⟨s, _, r, xs, hs, hr, (hxs _).mpr ⟨hpktgen, twoMachines_forwards.mpr (by decide)⟩,
    (hxs _).mpr ⟨hfirewall, twoMachines_forwards.mpr (by decide)⟩, data, hcalls, hforwarder rfl, hrows⟩

end Overlay
end DeepNF
