import DeepNF.History

/-!
# Datagrams (`src/runtime/socket_util.cpp`)

A packet is sent as one datagram and read into a buffer of `BUFFER_SIZE` bytes. The socket delivers a datagram as
it was sent or not at all; `recvfrom` cuts off what does not fit into the buffer, so the bytes come through exactly
up to 999, and the payload is read back exactly if a NUL follows the copy of the received bytes
(`hop_transparent_iff`). What has come through one hop comes through any number of them (`hops_succ`).
-/

namespace DeepNF

/-- The addresses that a host can send to: it has a route, and they are no broadcast addresses. -/
abbrev Routes := InAddr → Bool

/-- `sendto` refuses the port 0. An address that `inet_pton` refuses stays `0.0.0.0`. -/
def Routes.Reaches (routes : Routes) (addr : String × Int) : Prop :=
  htons addr.2 ≠ .zero ∧ routes ((inetPton addr.1).getD .any) = true

instance (routes : Routes) : DecidablePred routes.Reaches := fun _ => inferInstanceAs (Decidable (_ ∧ _))

/-- What `send_data` puts on the wire, if `sendto` does not fail: at most what a UDP datagram over IPv4 holds. -/
def sendData (routes : Routes) (buf : List UInt8) (addr : String × Int) : Option (List UInt8) :=
  if routes.Reaches addr ∧ buf.length ≤ 65507 then some buf else none

def sendPacket (routes : Routes) (p : Packet) (addr : String × Int) : Option (List UInt8) :=
  sendData routes p.pkt addr

def bufferSize : Nat := 1000

structure SockData where
  size : Nat
  buffer : List UInt8

/-- `receive_data` leaves room for a terminator; `none` for a `recvfrom` that fails. The rest of the buffer is not
initialised. -/
def receiveData (datagram : Option (List UInt8)) : Option SockData :=
  datagram.map fun bytes =>
    let received := bytes.take (bufferSize - 1)
    { size := received.length, buffer := received ++ [0] }

/-- The bytes that `packet_from_data` copies. -/
def SockData.pktChar (d : SockData) : List UInt8 := d.buffer.take d.size

def packetFromData (d : SockData) : Option Packet := Packet.initPacket d.pktChar

/-- One packet over one socket. -/
def hop (routes : Routes) (addr : String × Int) (p : Packet) : Option Packet := do
  packetFromData (← receiveData (← sendPacket routes p addr))

def hops (routes : Routes) : List (String × Int) → Packet → Option Packet
  | [], p => some p
  | addr :: addrs, p => do hops routes addrs (← hop routes addr p)

section
variable {p q : Packet} {bytes : List UInt8} {routes : Routes} {addr : String × Int}

theorem sendPacket_eq (haddr : routes.Reaches addr) (hroom : p.size ≤ 65507) :
    sendPacket routes p addr = some p.pkt :=
  if_pos ⟨haddr, hroom⟩

/-- The types of IP and TCP stand where `init_packet` looks for them. -/
def IsTcp (bytes : List UInt8) : Prop := bytes[12]? = some 0x08 ∧ bytes[13]? = some 0x00 ∧ bytes[23]? = some 6

theorem Packet.isTcp (p : Packet) : IsTcp p.pkt := ⟨p.etherType.1, p.etherType.2, p.ipP⟩

theorem isTcp_take : IsTcp (bytes.take 999) ↔ IsTcp bytes := by
  unfold IsTcp
  rw [List.getElem?_take_of_lt (by decide), List.getElem?_take_of_lt (by decide),
    List.getElem?_take_of_lt (by decide)]

theorem exists_packet_iff : (∃ p : Packet, p.pkt = bytes) ↔ IsTcp bytes ∧ 54 ≤ bytes.length := by
  constructor
  · rintro ⟨p, rfl⟩
    exact ⟨p.isTcp, p.fits⟩
  · rintro ⟨⟨h12, h13, h23⟩, hlen⟩
    exact ⟨⟨bytes, hlen, ⟨h12, h13⟩, h23⟩, rfl⟩

theorem initPacket_eq_some : Packet.initPacket bytes = some p ↔ p.pkt = bytes := by
  constructor
  · intro h
    unfold Packet.initPacket at h
    split at h
    · rw [← Option.some.inj h]
    · cases h
  · rintro rfl
    exact p.initPacket_pkt

theorem pktChar_receiveData {d : SockData} (h : receiveData (some bytes) = some d) : d.pktChar = bytes.take 999 := by
  obtain rfl := Option.some.inj h
  exact List.take_left

theorem hop_eq (haddr : routes.Reaches addr) (hroom : p.size ≤ 65507) :
    hop routes addr p = Packet.initPacket (p.pkt.take 999) := by
  rw [hop, sendPacket_eq haddr hroom]
  exact congrArg Packet.initPacket List.take_left

theorem hop_of_size_le (haddr : routes.Reaches addr) (h : p.size ≤ 999) : hop routes addr p = some p := by
  have htake : p.pkt.take 999 = p.pkt := List.take_of_length_le h
  rw [hop_eq haddr (by omega), htake, p.initPacket_pkt]

theorem exists_hop (haddr : routes.Reaches addr) (hroom : p.size ≤ 65507) :
    ∃ q, hop routes addr p = some q ∧ q.size ≤ 999 := by
  have hfits := p.fits
  have hlen : 54 ≤ (p.pkt.take 999).length := by
    rw [List.length_take]
    omega
  obtain ⟨q, hq⟩ := exists_packet_iff.mpr ⟨isTcp_take.mpr p.isTcp, hlen⟩
  refine ⟨q, ?_, ?_⟩
  · rw [hop_eq haddr hroom]
    exact initPacket_eq_some.mpr hq
  · rw [Packet.size, hq]
    exact List.length_take_le ..

theorem hops_succ (hroom : p.size ≤ 65507) {addrs : List (String × Int)}
    (haddrs : ∀ a ∈ addr :: addrs, routes.Reaches a) : hops routes (addr :: addrs) p = hop routes addr p := by
  rw [List.forall_mem_cons] at haddrs
  obtain ⟨haddr, haddrs⟩ := haddrs
  obtain ⟨q, hq, hle⟩ := exists_hop haddr hroom
  rw [hops, hq]
  show hops routes addrs q = some q
  induction addrs with
  | nil => rfl
  | cons a addrs ih =>
    obtain ⟨ha, haddrs⟩ := List.forall_mem_cons.mp haddrs
    rw [hops, hop_of_size_le ha hle]
    exact ih haddrs

end

/-- A hop is transparent if and only if the packet fits into the buffer of the receiver, next to a terminator, and a
NUL stands behind the memory that the receiver copies it to. -/
theorem hop_transparent_iff {routes : Routes} {addr : String × Int} (haddr : routes.Reaches addr)
    {sip dip : String} {sp dp id : Int} {payload : List UInt8}
    (hsip : (inetPton sip).isSome) (hdip : (inetPton dip).isSome) (hsp : 0 ≤ sp ∧ sp ≤ 65535)
    (hdp : 0 ≤ dp ∧ dp ≤ 65535) (hid : 0 ≤ id ∧ id ≤ 65535) (hpayload : 0 ∉ payload)
    (hroom : 54 + payload.length ≤ 65507) (behind : List UInt8) :
    (∃ q, hop routes addr (.make sip sp dip dp id payload) = some q ∧
      q.size = (Packet.make sip sp dip dp id payload).size ∧ q.pkt = (Packet.make sip sp dip dp id payload).pkt ∧
      q.getSrcIp = sip ∧ q.getSrcPort = sp ∧ q.getDestIp = dip ∧ q.getDestPort = dp ∧ q.getPktId = id ∧
      q.getPayload behind = payload) ↔ payload.length ≤ 945 ∧ Packet.stray behind = [] := by
  have hsize := Packet.size_make sip dip sp dp id payload
  have hread : (Packet.make sip sp dip dp id payload).getPayload behind = payload ↔ Packet.stray behind = [] := by
    rw [Packet.getPayload_of_free (by exact hpayload), Packet.data_make, List.append_right_eq_self]
  constructor
  · rintro ⟨q, hq, hlen, -, -, -, -, -, -, hget⟩
    obtain ⟨q', hq', hle⟩ := exists_hop (p := .make sip sp dip dp id payload) haddr (by omega)
    rw [hq'] at hq
    obtain rfl := Option.some.inj hq
    rw [hop_of_size_le haddr (by omega)] at hq'
    obtain rfl := Option.some.inj hq'
    exact ⟨by omega, hread.mp hget⟩
  · rintro ⟨hle, hbehind⟩
    obtain ⟨src, hsrc⟩ := Option.isSome_iff_exists.mp hsip
    obtain ⟨dst, hdst⟩ := Option.isSome_iff_exists.mp hdip
    have hport : ∀ n : Int, 0 ≤ n ∧ n ≤ 65535 → ntohs (htons n) = n := fun n hn => by
      rw [ntohs_htons]
      exact Int.emod_eq_of_lt hn.1 (by omega)
    refine ⟨_, hop_of_size_le haddr (by omega), rfl, rfl, ?_, ?_, ?_, ?_, ?_, hread.mpr hbehind⟩
    · rw [Packet.getSrcIp, Packet.ipSrc_make, hsrc]
      exact inetNtop_inetPton hsrc
    · exact hport sp hsp
    · rw [Packet.getDestIp, Packet.ipDst_make, hdst]
      exact inetNtop_inetPton hdst
    · exact hport dp hdp
    · exact hport id hid

theorem hop_transparent_hello : ∃ q,
    hop (fun _ => true) ("10.0.0.2", 90) (.make "10.0.0.1" 80 "10.0.0.2" 90 7 [104, 101, 108, 108, 111]) = some q ∧
    q.size = (Packet.make "10.0.0.1" 80 "10.0.0.2" 90 7 [104, 101, 108, 108, 111]).size ∧
    q.pkt = (Packet.make "10.0.0.1" 80 "10.0.0.2" 90 7 [104, 101, 108, 108, 111]).pkt ∧
    q.getSrcIp = "10.0.0.1" ∧ q.getSrcPort = 80 ∧ q.getDestIp = "10.0.0.2" ∧ q.getDestPort = 90 ∧
    q.getPktId = 7 ∧ q.getPayload [0] = [104, 101, 108, 108, 111] :=
  (hop_transparent_iff (by decide) (by decide) (by decide) (by decide) (by decide) (by decide) (by decide) (by decide)
    [0]).mpr (by decide)

def longPayload : List UInt8 := List.replicate 946 97

theorem length_longPayload : longPayload.length = 946 := List.length_replicate

/-- The last byte is lost. -/
theorem hop_truncates : (inetPton "10.0.0.1").isSome ∧ (inetPton "10.0.0.2").isSome ∧ 0 ∉ longPayload ∧
    54 + longPayload.length ≤ 65507 ∧ ∃ q,
      hop (fun _ => true) ("10.0.0.2", 90) (.make "10.0.0.1" 80 "10.0.0.2" 90 7 longPayload) = some q ∧
      q.size < (Packet.make "10.0.0.1" 80 "10.0.0.2" 90 7 longPayload).size := by
  have hlen := length_longPayload
  have hsize := Packet.size_make "10.0.0.1" "10.0.0.2" 80 90 7 longPayload
  have hzero : 0 ∉ longPayload := fun h => absurd (List.eq_of_mem_replicate h) (by decide)
  have haddr : Routes.Reaches (fun _ => true) ("10.0.0.2", 90) := by decide
  obtain ⟨q, hq, hle⟩ := exists_hop (p := .make "10.0.0.1" 80 "10.0.0.2" 90 7 longPayload) haddr (by omega)
  exact ⟨by decide, by decide, hzero, by omega, q, hq, by omega⟩

end DeepNF
