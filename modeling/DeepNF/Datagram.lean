import DeepNF.SocketUtil

/-!
# What a node thread reads of a datagram (`MergerOperator::run_node_thread`)

Here the header pointers and every byte behind them are optional: `init_packet` sets the pointers only for a TCP
packet over IP, and the sender chooses the bytes and how many there are. The thread tests nothing, so it stays
inside the received bytes exactly if they hold a packet with all three headers, and, for the text that it prints, a
NUL behind them (`runNodeThread_reads_iff`). What it inserts then is a `Packet`, as the rest of the model has it
(`runNodeThread_eq_some`).
-/

namespace DeepNF

/-- A packet as `init_packet` leaves it. A pointer is an offset into the buffer, `none` if it is not set. -/
structure RawPacket where
  pkt : List UInt8
  ipHeader : Option Nat := none
  tcpHeader : Option Nat := none
  data : Option Nat := none
deriving DecidableEq

namespace RawPacket
variable (p : RawPacket)

/-- A byte behind a header pointer, `none` if that is not set or if the byte was not received. -/
def byteAt (header : Option Nat) (i : Nat) : Option UInt8 := header.bind fun base => p.pkt[base + i]?

def shortAt (header : Option Nat) (i : Nat) : Option NetShort := do
  return ⟨← p.byteAt header i, ← p.byteAt header (i + 1)⟩

def addrAt (header : Option Nat) (i : Nat) : Option InAddr := do
  return ⟨← p.byteAt header i, ← p.byteAt header (i + 1), ← p.byteAt header (i + 2), ← p.byteAt header (i + 3)⟩

def ipId : Option NetShort := p.shortAt p.ipHeader 4
def ipSrc : Option InAddr := p.addrAt p.ipHeader 12
def ipDst : Option InAddr := p.addrAt p.ipHeader 16
def source : Option NetShort := p.shortAt p.tcpHeader 0
def dest : Option NetShort := p.shortAt p.tcpHeader 2

/-- The C string at `data`, `none` if its terminator was not received. -/
def text : Option (List UInt8) :=
  p.data.bind fun base => if 0 ∈ p.pkt.drop base then some ((p.pkt.drop base).takeWhile (· ≠ 0)) else none

def initPacket (pkt : List UInt8) : Option RawPacket := do
  let p : RawPacket := { pkt }
  let etherType ← p.shortAt (some 0) 12
  if ntohs etherType = 0x0800 then
    let p := { p with ipHeader := some 14 }
    let ipP ← p.byteAt p.ipHeader 9
    if ipP = 6 then return { p with tcpHeader := some 34, data := some 54 }
    else return p
  else return p

/-- The header fields that `print_info` prints. -/
def printHeaders : Option (InAddr × NetShort × InAddr × NetShort × NetShort) := do
  return (← p.ipSrc, ← p.source, ← p.ipDst, ← p.dest, ← p.ipId)

def printInfo : Option ((InAddr × NetShort × InAddr × NetShort × NetShort) × List UInt8) := do
  return (← p.printHeaders, ← p.text)

def isNull : Option Bool := do
  let ipSrc ← p.ipSrc
  let source ← p.source
  return ntohs source == 0 && inetNtop ipSrc == "0.0.0.0"

end RawPacket

/-- What the thread does with one datagram before it locks the map: the packet and the key under which it is
inserted, or `none` if something is read that is not there. A failed receive is a null pointer. -/
def runNodeThread (datagram : Option (List UInt8)) : Option (RawPacket × NetShort) := do
  let pktData ← receiveData datagram
  let p ← RawPacket.initPacket pktData.pktChar
  let _ ← p.printInfo
  let _ ← p.ipSrc
  let ipId ← p.ipId
  return (p, ipId)

/-- All header fields that the thread reads are set and lie inside the received bytes. -/
def HeadersInside (datagram : Option (List UInt8)) : Prop :=
  ∃ pktData p, receiveData datagram = some pktData ∧ RawPacket.initPacket pktData.pktChar = some p ∧
    p.printHeaders.isSome

def ReceivedTcp (datagram : Option (List UInt8)) (n : Nat) : Prop :=
  ∃ bytes, datagram = some bytes ∧ IsTcp bytes ∧ n ≤ bytes.length

/-- A TCP packet has been received, with a NUL behind the headers that fits into the buffer. -/
def ReceivedText (datagram : Option (List UInt8)) : Prop :=
  ∃ bytes, datagram = some bytes ∧ IsTcp bytes ∧ 0 ∈ (bytes.take 999).drop 54

/-! ### What `init_packet` sets -/

namespace RawPacket

def tcp (pkt : List UInt8) : RawPacket := { pkt, ipHeader := some 14, tcpHeader := some 34, data := some 54 }

section
variable {p : RawPacket} {pkt : List UInt8} {base i : Nat}

theorem ntohs_eq_ip {n : NetShort} : ntohs n = 0x0800 ↔ n = ⟨0x08, 0x00⟩ :=
  ⟨fun h => ntohs_inj (h.trans (by decide)), fun h => by rw [h]; decide⟩

theorem initPacket_of_isTcp (h : IsTcp pkt) : initPacket pkt = some (tcp pkt) := by
  obtain ⟨h12, h13, h23⟩ := h
  simp [initPacket, shortAt, byteAt, h12, h13, h23, ntohs_eq_ip, tcp]

theorem isTcp_of_initPacket (h : initPacket pkt = some p) (hset : p.tcpHeader.isSome) : IsTcp pkt := by
  obtain ⟨etherType, htype, h⟩ := Option.bind_eq_some_iff.mp h
  split at h
  · rename_i hip
    rw [ntohs_eq_ip] at hip
    subst hip
    obtain ⟨ipP, hipP, h⟩ := Option.bind_eq_some_iff.mp h
    split at h
    · rename_i htcp
      subst htcp
      obtain ⟨hi, h12, htype⟩ := Option.bind_eq_some_iff.mp htype
      obtain ⟨lo, h13, htype⟩ := Option.bind_eq_some_iff.mp htype
      cases htype
      exact ⟨h12, h13, hipP⟩
    · cases h
      cases hset
  · cases h
    cases hset

theorem byteAt_eq (h : base + i < p.pkt.length) : p.byteAt (some base) i = some (p.pkt[base + i]?.getD 0) := by
  rw [byteAt, Option.bind_some, List.getElem?_eq_getElem h]
  rfl

theorem shortAt_eq (h : base + i + 1 < p.pkt.length) :
    p.shortAt (some base) i = some ⟨p.pkt[base + i]?.getD 0, p.pkt[base + (i + 1)]?.getD 0⟩ := by
  rw [shortAt, byteAt_eq (by omega), byteAt_eq (by omega)]
  rfl

theorem addrAt_eq (h : base + i + 3 < p.pkt.length) :
    p.addrAt (some base) i = some ⟨p.pkt[base + i]?.getD 0, p.pkt[base + (i + 1)]?.getD 0,
      p.pkt[base + (i + 2)]?.getD 0, p.pkt[base + (i + 3)]?.getD 0⟩ := by
  rw [addrAt, byteAt_eq (by omega), byteAt_eq (by omega), byteAt_eq (by omega), byteAt_eq (by omega)]
  rfl

theorem printHeaders_tcp_iff : (tcp pkt).printHeaders.isSome ↔ 38 ≤ pkt.length := by
  constructor
  · intro h
    obtain ⟨fields, h⟩ := Option.isSome_iff_exists.mp h
    obtain ⟨_, -, h⟩ := Option.bind_eq_some_iff.mp h
    obtain ⟨_, -, h⟩ := Option.bind_eq_some_iff.mp h
    obtain ⟨_, -, h⟩ := Option.bind_eq_some_iff.mp h
    -- the last byte that is read is that of the destination port
    obtain ⟨dport, hdest, -⟩ := Option.bind_eq_some_iff.mp h
    obtain ⟨_, -, hdest⟩ := Option.bind_eq_some_iff.mp hdest
    obtain ⟨lo, hlo, -⟩ := Option.bind_eq_some_iff.mp hdest
    obtain ⟨hlt, -⟩ := List.getElem?_eq_some_iff.mp hlo
    exact hlt
  · intro h
    have hlen : (tcp pkt).pkt.length = pkt.length := rfl
    have hsrc : (tcp pkt).ipSrc = _ := addrAt_eq (by rw [hlen]; omega)
    have hdst : (tcp pkt).ipDst = _ := addrAt_eq (by rw [hlen]; omega)
    have hid : (tcp pkt).ipId = _ := shortAt_eq (by rw [hlen]; omega)
    have hsp : (tcp pkt).source = _ := shortAt_eq (by rw [hlen]; omega)
    have hdp : (tcp pkt).dest = _ := shortAt_eq (by rw [hlen]; omega)
    simp [printHeaders, hsrc, hdst, hid, hsp, hdp]

theorem text_tcp_iff : (tcp pkt).text.isSome ↔ 0 ∈ pkt.drop 54 := by
  have htext : (tcp pkt).text = if 0 ∈ pkt.drop 54 then some ((pkt.drop 54).takeWhile (· ≠ 0)) else none := rfl
  rw [htext]
  split <;> simp [*]

theorem tcpHeader_of_printHeaders (h : p.printHeaders.isSome) : p.tcpHeader.isSome := by
  obtain ⟨fields, h⟩ := Option.isSome_iff_exists.mp h
  obtain ⟨_, -, h⟩ := Option.bind_eq_some_iff.mp h
  obtain ⟨sport, hsource, -⟩ := Option.bind_eq_some_iff.mp h
  obtain ⟨hi, hhi, -⟩ := Option.bind_eq_some_iff.mp hsource
  obtain ⟨base, hbase, -⟩ := Option.bind_eq_some_iff.mp hhi
  rw [hbase]
  rfl

theorem eq_tcp_of_printHeaders (hp : initPacket pkt = some p) (h : p.printHeaders.isSome) :
    IsTcp pkt ∧ p = tcp pkt := by
  have htcp := isTcp_of_initPacket hp (tcpHeader_of_printHeaders h)
  rw [initPacket_of_isTcp htcp] at hp
  exact ⟨htcp, (Option.some.inj hp).symm⟩

end

/-! ### A packet with all headers -/

section
variable (p : Packet)

theorem ipSrc_tcp : (tcp p.pkt).ipSrc = some p.ipSrc := addrAt_eq (by have := p.fits; simp only [tcp]; omega)

theorem ipDst_tcp : (tcp p.pkt).ipDst = some p.ipDst := addrAt_eq (by have := p.fits; simp only [tcp]; omega)

theorem ipId_tcp : (tcp p.pkt).ipId = some p.ipId := shortAt_eq (by have := p.fits; simp only [tcp]; omega)

theorem source_tcp : (tcp p.pkt).source = some p.source := shortAt_eq (by have := p.fits; simp only [tcp]; omega)

theorem dest_tcp : (tcp p.pkt).dest = some p.dest := shortAt_eq (by have := p.fits; simp only [tcp]; omega)

theorem text_tcp (h : 0 ∈ p.data) : (tcp p.pkt).text = some p.payload := if_pos h

theorem isNull_tcp : (tcp p.pkt).isNull = some p.isNull := by
  rw [isNull, ipSrc_tcp, source_tcp]
  rfl

end

end RawPacket

/-! ### The thread -/

section
variable {bytes : List UInt8} {raw : RawPacket} {ipId : NetShort}

theorem length_of_mem_drop {b : UInt8} {n : Nat} (h : b ∈ bytes.drop n) : n ≤ bytes.length := by
  have hpos := List.length_pos_of_mem h
  rw [List.length_drop] at hpos
  omega

theorem runNodeThread_some (bytes : List UInt8) : runNodeThread (some bytes) = (do
    let p ← RawPacket.initPacket (bytes.take 999)
    let _ ← p.printInfo
    let _ ← p.ipSrc
    return (p, ← p.ipId)) := by
  obtain ⟨d, hd⟩ : ∃ d, receiveData (some bytes) = some d := ⟨_, rfl⟩
  rw [runNodeThread, hd, ← pktChar_receiveData hd]
  rfl

/-- What comes through is a packet in the sense of the rest of the model, with its own key. -/
theorem runNodeThread_eq_some : runNodeThread (some bytes) = some (raw, ipId) ↔
    ∃ p, Packet.initPacket (bytes.take 999) = some p ∧ 0 ∈ p.data ∧ raw = .tcp p.pkt ∧ ipId = p.ipId := by
  rw [runNodeThread_some]
  constructor
  · intro h
    obtain ⟨q, hq, h⟩ := Option.bind_eq_some_iff.mp h
    obtain ⟨info, hinfo, h⟩ := Option.bind_eq_some_iff.mp h
    obtain ⟨fields, hfields, hinfo⟩ := Option.bind_eq_some_iff.mp hinfo
    obtain ⟨text, htext, -⟩ := Option.bind_eq_some_iff.mp hinfo
    obtain ⟨htcp, rfl⟩ := RawPacket.eq_tcp_of_printHeaders hq (Option.isSome_iff_exists.mpr ⟨fields, hfields⟩)
    have hnul := RawPacket.text_tcp_iff.mp (Option.isSome_iff_exists.mpr ⟨text, htext⟩)
    obtain ⟨p, hp⟩ := exists_packet_iff.mpr ⟨htcp, length_of_mem_drop hnul⟩
    obtain ⟨_, -, h⟩ := Option.bind_eq_some_iff.mp h
    obtain ⟨id, hid, h⟩ := Option.bind_eq_some_iff.mp h
    cases h
    rw [← hp] at hid hnul ⊢
    exact ⟨p, p.initPacket_pkt, hnul, rfl, Option.some.inj (hid.symm.trans (RawPacket.ipId_tcp p))⟩
  · rintro ⟨p, hp, hnul, rfl, rfl⟩
    have hheaders : ((RawPacket.tcp p.pkt).printHeaders).isSome :=
      RawPacket.printHeaders_tcp_iff.mpr (by have := p.fits; omega)
    obtain ⟨fields, hfields⟩ := Option.isSome_iff_exists.mp hheaders
    rw [← initPacket_eq_some.mp hp, RawPacket.initPacket_of_isTcp p.isTcp]
    simp [RawPacket.printInfo, hfields, RawPacket.text_tcp p hnul, RawPacket.ipSrc_tcp, RawPacket.ipId_tcp]

theorem headersInside_iff : HeadersInside (some bytes) ↔ IsTcp bytes ∧ 38 ≤ bytes.length := by
  constructor
  · rintro ⟨d, p, hd, hp, hprint⟩
    rw [pktChar_receiveData hd] at hp
    obtain ⟨htcp, rfl⟩ := RawPacket.eq_tcp_of_printHeaders hp hprint
    have hlen := RawPacket.printHeaders_tcp_iff.mp hprint
    rw [List.length_take] at hlen
    exact ⟨isTcp_take.mp htcp, by omega⟩
  · rintro ⟨htcp, hlen⟩
    obtain ⟨d, hd⟩ : ∃ d, receiveData (some bytes) = some d := ⟨_, rfl⟩
    have hp := RawPacket.initPacket_of_isTcp (isTcp_take.mpr htcp)
    rw [← pktChar_receiveData hd] at hp
    refine ⟨d, _, hd, hp, RawPacket.printHeaders_tcp_iff.mpr ?_⟩
    rw [pktChar_receiveData hd, List.length_take]
    omega

theorem runNodeThread_isSome_iff :
    (runNodeThread (some bytes)).isSome ↔ IsTcp bytes ∧ 0 ∈ (bytes.take 999).drop 54 := by
  rw [Option.isSome_iff_exists]
  constructor
  · rintro ⟨⟨raw, ipId⟩, h⟩
    obtain ⟨p, hp, hnul, -⟩ := runNodeThread_eq_some.mp h
    rw [initPacket_eq_some] at hp
    have htcp := p.isTcp
    rw [hp] at htcp
    rw [Packet.data, hp] at hnul
    exact ⟨isTcp_take.mp htcp, hnul⟩
  · rintro ⟨htcp, hnul⟩
    obtain ⟨p, hp⟩ := exists_packet_iff.mpr ⟨isTcp_take.mpr htcp, length_of_mem_drop hnul⟩
    refine ⟨_, runNodeThread_eq_some.mpr ⟨p, initPacket_eq_some.mpr hp, ?_, rfl, rfl⟩⟩
    rw [Packet.data, hp]
    exact hnul

end

/-- The thread reads header fields only that are set and lie inside the received bytes if and only if it has
received a TCP packet up to its ports; the text that it prints lies there as well if and only if a NUL was received
behind the headers. What it inserts then has all that `is_null` and the getters read later. -/
theorem runNodeThread_reads_iff (datagram : Option (List UInt8)) :
    (HeadersInside datagram ↔ ReceivedTcp datagram 38) ∧
      ((runNodeThread datagram).isSome ↔ ReceivedText datagram) ∧
      ∀ raw ipId, runNodeThread datagram = some (raw, ipId) → ∃ p : Packet, raw.pkt = p.pkt ∧ ipId = p.ipId ∧
        raw.isNull = some p.isNull ∧ raw.ipSrc = some p.ipSrc ∧ raw.source = some p.source ∧
        raw.ipDst = some p.ipDst ∧ raw.dest = some p.dest ∧ raw.ipId = some p.ipId ∧
        raw.text = some p.payload := by
  cases datagram with
  | none =>
    refine ⟨iff_of_false ?_ ?_, iff_of_false ?_ ?_, fun raw ipId h => nomatch h⟩
    · rintro ⟨d, p, hd, -⟩
      cases hd
    · rintro ⟨bytes, h, -⟩
      cases h
    · exact fun h => nomatch h
    · rintro ⟨bytes, h, -⟩
      cases h
  | some bytes =>
    have htcp : ReceivedTcp (some bytes) 38 ↔ IsTcp bytes ∧ 38 ≤ bytes.length :=
      ⟨fun ⟨_, h, hb⟩ => Option.some.inj h ▸ hb, fun hb => ⟨bytes, rfl, hb⟩⟩
    have htext : ReceivedText (some bytes) ↔ IsTcp bytes ∧ 0 ∈ (bytes.take 999).drop 54 :=
      ⟨fun ⟨_, h, hb⟩ => Option.some.inj h ▸ hb, fun hb => ⟨bytes, rfl, hb⟩⟩
    rw [htcp, htext]
    refine ⟨headersInside_iff, runNodeThread_isSome_iff, fun raw ipId h => ?_⟩
    obtain ⟨p, -, hnul, rfl, rfl⟩ := runNodeThread_eq_some.mp h
    exact ⟨p, rfl, rfl, RawPacket.isNull_tcp p, RawPacket.ipSrc_tcp p, RawPacket.source_tcp p, RawPacket.ipDst_tcp p,
      RawPacket.dest_tcp p, RawPacket.ipId_tcp p, RawPacket.text_tcp p hnul⟩

/-- An ARP request, as it arrives at a socket that listens for packets. -/
def arpRequest : List UInt8 := List.replicate 12 0 ++ [0x08, 0x06] ++ List.replicate 46 0

/-- An empty datagram has no Ethernet type, and for an ARP request no header pointer is set; both are read all the
same, and so is the null pointer of a failed receive. -/
theorem runNodeThread_unset : ¬ HeadersInside none ∧ ¬ HeadersInside (some []) ∧ ¬ HeadersInside (some arpRequest) ∧
    runNodeThread none = none ∧ runNodeThread (some []) = none ∧ runNodeThread (some arpRequest) = none := by
  refine ⟨?_, ?_, ?_, rfl, rfl, by decide⟩
  · rintro ⟨d, p, hd, -⟩
    cases hd
  · rintro ⟨d, p, hd, hp, -⟩
    cases hd
    cases hp
  · intro h
    obtain ⟨⟨-, h13, -⟩, -⟩ := headersInside_iff.mp h
    exact absurd h13 (by decide)

end DeepNF
