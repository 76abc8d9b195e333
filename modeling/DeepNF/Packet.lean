import DeepNF.Common
import DeepNF.Histories
import DeepNF.Inet
import Mathlib.Data.List.TakeWhile

/-!
# TCP/IP packets (`src/runtime/packet.cpp`)

A `Packet` is the buffer of a packet whose header pointers `init_packet` has set: the Ethernet type
is IP, the protocol is TCP and the three headers fit. The pointers are then fixed offsets into the
buffer. The buffer has no room for a terminator, but `get_payload` reads the payload as a C string: it
goes on behind the buffer, up to the next NUL in memory (`getPayload_eq_iff`).

`write_payload` builds a new packet from five values it reads back as text and numbers. The `simp`
lemmas say that every getter survives that, and what each writer changes.
-/

namespace DeepNF

/-- A packet with `ip_header`, `tcp_header` and `data` set; `size` is the length of `pkt`. -/
structure Packet where
  pkt : List UInt8
  fits : 54 ≤ pkt.length
  etherType : pkt[12]? = some 0x08 ∧ pkt[13]? = some 0x00
  ipP : pkt[23]? = some 6
deriving DecidableEq

/-- What a getter of one of the five fields returns. -/
inductive Value
  | ip (s : String)
  | port (n : Int)
  | payload (s : List UInt8)
deriving DecidableEq, Repr

namespace Packet

/-- `init_packet`, when it sets all header pointers and the headers lie in the buffer. -/
def initPacket (pkt : List UInt8) : Option Packet :=
  if h : 54 ≤ pkt.length ∧ (pkt[12]? = some 0x08 ∧ pkt[13]? = some 0x00) ∧ pkt[23]? = some 6 then
    some ⟨pkt, h.1, h.2.1, h.2.2⟩
  else none

theorem initPacket_pkt (p : Packet) : initPacket p.pkt = some p := by
  have h := And.intro p.fits (And.intro p.etherType p.ipP)
  rw [initPacket, dif_pos h]

/-- `ip_header`, `tcp_header` and `data` as offsets into the buffer. -/
@[simp] abbrev ipHeader : Nat := 14
@[simp] abbrev tcpHeader : Nat := 34
abbrev dataStart : Nat := 54

def byte (p : Packet) (i : Nat) : UInt8 := p.pkt[i]?.getD 0

def short (p : Packet) (i : Nat) : NetShort := ⟨p.byte i, p.byte (i + 1)⟩

def addr (p : Packet) (i : Nat) : InAddr := ⟨p.byte i, p.byte (i + 1), p.byte (i + 2), p.byte (i + 3)⟩

def ipLen (p : Packet) : NetShort := p.short (ipHeader + 2)
def ipId (p : Packet) : NetShort := p.short (ipHeader + 4)
def ipSrc (p : Packet) : InAddr := p.addr (ipHeader + 12)
def ipDst (p : Packet) : InAddr := p.addr (ipHeader + 16)
def source (p : Packet) : NetShort := p.short tcpHeader
def dest (p : Packet) : NetShort := p.short (tcpHeader + 2)
def data (p : Packet) : List UInt8 := p.pkt.drop dataStart

/-- A store through `ip_header` or `tcp_header` behind the protocol byte. -/
def poke (p : Packet) (i : Nat) (v : UInt8) (h : 24 ≤ i ∧ i < 54 := by decide) : Packet where
  pkt := p.pkt.set i v
  fits := by simpa using p.fits
  etherType := by
    rw [List.getElem?_set_ne (by omega), List.getElem?_set_ne (by omega)]; exact p.etherType
  ipP := by rw [List.getElem?_set_ne (by omega)]; exact p.ipP

theorem byte_poke (p : Packet) (i j : Nat) (v : UInt8) (h : 24 ≤ i ∧ i < 54) :
    (p.poke i v h).byte j = if j = i then v else p.byte j := by
  have hi : i < p.pkt.length := by have := p.fits; omega
  simp only [byte, poke, List.getElem?_set]
  split
  · simp [*]
  · simp [Ne.symm ‹_›]

theorem data_poke (p : Packet) (i : Nat) (v : UInt8) (h : 24 ≤ i ∧ i < 54) :
    (p.poke i v h).data = p.data := by
  simp [data, poke, List.drop_set_of_lt h.2]

/-- The constructor that builds a packet: the headers are value-initialised, so what it does not set
is zero, and an address `inet_pton` refuses stays `0.0.0.0`. -/
def make (sip : String) (sp : Int) (dip : String) (dp : Int) (id : Int) (data : List UInt8) : Packet :=
  let src := (inetPton sip).getD .any
  let dst := (inetPton dip).getD .any
  let len := htons (54 + data.length)
  { pkt :=
      [0, 0, 0, 0, 0, 0, 0, 0, 0, 0, 0, 0, 0x08, 0x00,
       0, 0, len.hi, len.lo, (htons id).hi, (htons id).lo, 0, 0, 0, 6, 0, 0,
       src.a, src.b, src.c, src.d, dst.a, dst.b, dst.c, dst.d,
       (htons sp).hi, (htons sp).lo, (htons dp).hi, (htons dp).lo,
       0, 0, 0, 0, 0, 0, 0, 0, 0, 0, 0, 0, 0, 0, 0, 0] ++ data
    fits := by simp
    etherType := ⟨rfl, rfl⟩
    ipP := rfl }

def getSrcIp (p : Packet) : String := inetNtop p.ipSrc
def getSrcPort (p : Packet) : Int := ntohs p.source
def getDestIp (p : Packet) : String := inetNtop p.ipDst
def getDestPort (p : Packet) : Int := ntohs p.dest

/-- `behind` are the bytes behind the buffer; a NUL follows where they end. -/
def getPayload (p : Packet) (behind : List UInt8) : List UInt8 := (p.data ++ behind).takeWhile (· ≠ 0)

def getPktId (p : Packet) : Int := ntohs p.ipId

def isNull (p : Packet) : Bool := p.getSrcPort == 0 && p.getSrcIp == "0.0.0.0"

def nullify (p : Packet) : Packet :=
  ((((((p.poke tcpHeader 0).poke (tcpHeader + 1) 0).poke (ipHeader + 12) 0).poke (ipHeader + 13) 0).poke
    (ipHeader + 14) 0).poke (ipHeader + 15) 0)

def writeDestIp (p : Packet) (destIp : String) : Packet :=
  match inetPton destIp with
  | some x =>
    (((p.poke (ipHeader + 16) x.a).poke (ipHeader + 17) x.b).poke (ipHeader + 18) x.c).poke
      (ipHeader + 19) x.d
  | none => p

def writeDestPort (p : Packet) (destPort : Int) : Packet :=
  (p.poke (tcpHeader + 2) (htons destPort).hi).poke (tcpHeader + 3) (htons destPort).lo

def writePayload (p : Packet) (payload : List UInt8) : Packet :=
  -- a new packet: what the constructor is not given is zero
  make p.getSrcIp p.getSrcPort p.getDestIp p.getDestPort p.getPktId payload

/-- The payload, up to the end of the packet at most. -/
def payload (p : Packet) : List UInt8 := p.data.takeWhile (· ≠ 0)

def value (p : Packet) : Field → Value
  | .SIP => .ip p.getSrcIp
  | .DIP => .ip p.getDestIp
  | .SPORT => .port p.getSrcPort
  | .DPORT => .port p.getDestPort
  | .PAYLOAD => .payload p.payload

def read (behind : List UInt8) (p : Packet) : Field → Value
  | .PAYLOAD => .payload (p.getPayload behind)
  | F => p.value F

/-! ### What the writers change -/

section
variable (p : Packet)

@[simp] theorem ipSrc_make (sip dip : String) (sp dp id : Int) (d : List UInt8) :
    (make sip sp dip dp id d).ipSrc = (inetPton sip).getD .any := rfl

@[simp] theorem ipDst_make (sip dip : String) (sp dp id : Int) (d : List UInt8) :
    (make sip sp dip dp id d).ipDst = (inetPton dip).getD .any := rfl

@[simp] theorem source_make (sip dip : String) (sp dp id : Int) (d : List UInt8) :
    (make sip sp dip dp id d).source = htons sp := rfl

@[simp] theorem dest_make (sip dip : String) (sp dp id : Int) (d : List UInt8) :
    (make sip sp dip dp id d).dest = htons dp := rfl

@[simp] theorem ipId_make (sip dip : String) (sp dp id : Int) (d : List UInt8) :
    (make sip sp dip dp id d).ipId = htons id := rfl

@[simp] theorem data_make (sip dip : String) (sp dp id : Int) (d : List UInt8) :
    (make sip sp dip dp id d).data = d := rfl

@[simp] theorem ipSrc_writePayload (s : List UInt8) : (p.writePayload s).ipSrc = p.ipSrc := by
  simp [writePayload, getSrcIp]

@[simp] theorem ipDst_writePayload (s : List UInt8) : (p.writePayload s).ipDst = p.ipDst := by
  simp [writePayload, getDestIp]

@[simp] theorem source_writePayload (s : List UInt8) : (p.writePayload s).source = p.source := by
  simp [writePayload, getSrcPort]

@[simp] theorem dest_writePayload (s : List UInt8) : (p.writePayload s).dest = p.dest := by
  simp [writePayload, getDestPort]

@[simp] theorem ipId_writePayload (s : List UInt8) : (p.writePayload s).ipId = p.ipId := by
  simp [writePayload, getPktId]

@[simp] theorem data_writePayload (s : List UInt8) : (p.writePayload s).data = s := rfl

@[simp] theorem ipSrc_writeDestIp (s : String) : (p.writeDestIp s).ipSrc = p.ipSrc := by
  unfold writeDestIp; split <;> simp [ipSrc, addr, byte_poke]

@[simp] theorem source_writeDestIp (s : String) : (p.writeDestIp s).source = p.source := by
  unfold writeDestIp; split <;> simp [source, short, byte_poke]

@[simp] theorem dest_writeDestIp (s : String) : (p.writeDestIp s).dest = p.dest := by
  unfold writeDestIp; split <;> simp [dest, short, byte_poke]

@[simp] theorem ipId_writeDestIp (s : String) : (p.writeDestIp s).ipId = p.ipId := by
  unfold writeDestIp; split <;> simp [ipId, short, byte_poke]

@[simp] theorem data_writeDestIp (s : String) : (p.writeDestIp s).data = p.data := by
  unfold writeDestIp; split <;> simp [data_poke]

theorem ipDst_writeDestIp (s : String) : (p.writeDestIp s).ipDst = (inetPton s).getD p.ipDst := by
  unfold writeDestIp; split <;> simp [ipDst, addr, byte_poke, *]

@[simp] theorem ipSrc_writeDestPort (n : Int) : (p.writeDestPort n).ipSrc = p.ipSrc := by
  simp [writeDestPort, ipSrc, addr, byte_poke]

@[simp] theorem ipDst_writeDestPort (n : Int) : (p.writeDestPort n).ipDst = p.ipDst := by
  simp [writeDestPort, ipDst, addr, byte_poke]

@[simp] theorem source_writeDestPort (n : Int) : (p.writeDestPort n).source = p.source := by
  simp [writeDestPort, source, short, byte_poke]

@[simp] theorem ipId_writeDestPort (n : Int) : (p.writeDestPort n).ipId = p.ipId := by
  simp [writeDestPort, ipId, short, byte_poke]

@[simp] theorem data_writeDestPort (n : Int) : (p.writeDestPort n).data = p.data := by
  simp [writeDestPort, data_poke]

@[simp] theorem dest_writeDestPort (n : Int) : (p.writeDestPort n).dest = htons n := by
  simp [writeDestPort, dest, short, byte_poke]

@[simp] theorem ipSrc_nullify : p.nullify.ipSrc = .any := by
  simp [nullify, ipSrc, addr, byte_poke, InAddr.any]

@[simp] theorem ipDst_nullify : p.nullify.ipDst = p.ipDst := by
  simp [nullify, ipDst, addr, byte_poke]

@[simp] theorem source_nullify : p.nullify.source = .zero := by
  simp [nullify, source, short, byte_poke, NetShort.zero]

@[simp] theorem dest_nullify : p.nullify.dest = p.dest := by
  simp [nullify, dest, short, byte_poke]

@[simp] theorem ipId_nullify : p.nullify.ipId = p.ipId := by
  simp [nullify, ipId, short, byte_poke]

@[simp] theorem data_nullify : p.nullify.data = p.data := by
  simp [nullify, data_poke]

end

/-! ### Null packets and field values -/

section
variable {p q : Packet}

theorem isNull_iff : p.isNull = true ↔ p.source = .zero ∧ p.ipSrc = .any := by
  have h0 : "0.0.0.0" = inetNtop .any := by decide
  simp only [isNull, Bool.and_eq_true, beq_iff_eq, getSrcPort, getSrcIp, ntohs_eq_zero, h0]
  exact and_congr_right fun _ => ⟨inetNtop_inj, fun h => by rw [h]⟩

theorem isNull_congr (hs : p.source = q.source) (hi : p.ipSrc = q.ipSrc) : p.isNull = q.isNull := by
  simp only [isNull, getSrcPort, getSrcIp, hs, hi]

@[simp] theorem isNull_nullify : p.nullify.isNull = true := by simp [isNull_iff]

theorem getDestIp_writeDestIp : (p.writeDestIp q.getDestIp).getDestIp = q.getDestIp := by
  simp [getDestIp, ipDst_writeDestIp]

theorem getDestPort_writeDestPort : (p.writeDestPort q.getDestPort).getDestPort = q.getDestPort := by
  simp [getDestPort]

end

/-! ### Reading the payload -/

section
variable {p q : Packet} {behind : List UInt8}

/-- What a C string that is not terminated takes up behind its buffer. -/
def stray (behind : List UInt8) : List UInt8 := behind.takeWhile (· ≠ 0)

def ReadsOwn (behind : List UInt8) (p : Packet) : Prop := 0 ∈ p.data ∨ stray behind = []

instance : Decidable (p.ReadsOwn behind) := inferInstanceAs (Decidable (_ ∨ _))

theorem takeWhile_of_free {l : List UInt8} (h : 0 ∉ l) : l.takeWhile (· ≠ 0) = l := by
  refine List.takeWhile_eq_self_iff.mpr fun b hb => ?_
  simpa using fun h0 : b = 0 => h (h0 ▸ hb)

theorem zero_notMem_takeWhile (l : List UInt8) : 0 ∉ l.takeWhile (· ≠ 0) := fun h => by
  simpa using List.mem_takeWhile_imp h

theorem takeWhile_append_of_stray (h : stray behind = []) (data : List UInt8) :
    (data ++ behind).takeWhile (· ≠ 0) = data.takeWhile (· ≠ 0) := by
  rw [List.takeWhile_append]
  split
  · rename_i hlen
    rw [show behind.takeWhile _ = [] from h, List.append_nil]
    exact ((List.takeWhile_prefix _).eq_of_length hlen).symm
  · rfl

theorem payload_of_free (h : 0 ∉ p.data) : p.payload = p.data := takeWhile_of_free h

theorem getPayload_of_free (h : 0 ∉ p.data) : p.getPayload behind = p.data ++ stray behind := by
  refine List.takeWhile_append_of_pos fun b hb => ?_
  simpa using fun h0 : b = 0 => h (h0 ▸ hb)

theorem getPayload_of_mem (h : 0 ∈ p.data) : p.getPayload behind = p.payload := by
  rw [getPayload, List.takeWhile_append, if_neg]
  · rfl
  · intro hlen
    rw [(List.takeWhile_prefix _).eq_of_length hlen |>.symm] at h
    exact zero_notMem_takeWhile _ h

theorem getPayload_eq_iff : p.getPayload behind = p.payload ↔ p.ReadsOwn behind := by
  by_cases h : 0 ∈ p.data
  · exact iff_of_true (getPayload_of_mem h) (.inl h)
  · rw [getPayload_of_free h, payload_of_free h, List.append_right_eq_self, ReadsOwn, or_iff_right h]

theorem read_eq_iff {F : Field} : p.read behind F = p.value F ↔ F = .PAYLOAD → p.ReadsOwn behind := by
  cases F <;> simp [read, value, getPayload_eq_iff]

theorem read_of_ne {F : Field} (hF : F ≠ .PAYLOAD) : p.read behind F = p.value F :=
  read_eq_iff.mpr fun h => absurd h hF

theorem payload_writePayload : (p.writePayload (q.getPayload behind)).payload = q.getPayload behind := by
  simp only [payload, getPayload, data_writePayload, List.takeWhile_idem]

end

end Packet

def hello : Packet := .make "10.0.0.1" 80 "10.0.0.2" 90 7 [104, 101, 108, 108, 111]

/-! ### Calls of the packet class -/

inductive Call
  | writeDestIp (destIp : String)
  | writeDestPort (destPort : Int)
  | writePayload (payload : List UInt8)
  | nullify
deriving DecidableEq, Repr

/-- The arguments are a dotted quad, a port number and a payload without NUL. -/
def Call.Valid : Call → Prop
  | .writeDestIp s => (inetPton s).isSome
  | .writeDestPort n => 0 ≤ n ∧ n ≤ 65535
  | .writePayload s => 0 ∉ s
  | .nullify => True

instance : DecidablePred Call.Valid := fun c => by cases c <;> unfold Call.Valid <;> infer_instance

def Packet.call (p : Packet) : Call → Packet
  | .writeDestIp s => p.writeDestIp s
  | .writeDestPort n => p.writeDestPort n
  | .writePayload s => p.writePayload s
  | .nullify => p.nullify

def Packet.calls (p : Packet) (cs : List Call) : Packet := cs.foldl Packet.call p

theorem Packet.isNull_call {c : Call} (hc : c ≠ .nullify) (p : Packet) : (p.call c).isNull = p.isNull := by
  cases c with
  | nullify => exact absurd rfl hc
  | _ => exact isNull_congr (by simp [call]) (by simp [call])

/-- No sequence of writes turns a packet into a null packet or back. -/
theorem Packet.isNull_calls {cs : List Call} (hcs : .nullify ∉ cs) (p : Packet) :
    (p.calls cs).isNull = p.isNull := by
  have h := Histories.read_foldl (l := cs) Packet.call isNull (fun _ => none)
    (fun c hc p => isNull_call (fun he => hcs (he ▸ hc)) p) p
  rwa [Histories.lastWrite_of_none fun _ _ => rfl] at h

end DeepNF
