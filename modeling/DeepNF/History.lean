import DeepNF.Packet
import Mathlib.Tactic.FinCases

/-!
# Histories of calls (`src/runtime/packet.cpp`)

The getters of a packet are registers under its writers, also across `write_payload`, which builds a new packet; but
`get_payload` returns more than the payload unless a NUL follows the buffer (`calls_laws_iff`). What the new packet
does not take over is lost: `write_payload` leaves the rest of the headers as they are only if they are zero
(`writePayload_frame_iff`).
-/

namespace DeepNF
open Histories

namespace Call

def destIp? : Call → Option String
  | .writeDestIp s => some s
  | _ => none

def destPort? : Call → Option Int
  | .writeDestPort n => some n
  | _ => none

def payload? : Call → Option (List UInt8)
  | .writePayload s => some s
  | _ => none

/-- `nullify` is the only writer of the source. -/
def src? : Call → Option (String × Int)
  | .nullify => some ("0.0.0.0", 0)
  | _ => none

end Call

namespace Packet

def size (p : Packet) : Nat := p.pkt.length

def dataSize (p : Packet) : Nat := p.size - dataStart

section
variable (p : Packet)

@[simp] theorem size_poke (i : Nat) (v : UInt8) (h : 24 ≤ i ∧ i < 54) : (p.poke i v h).size = p.size :=
  List.length_set ..

@[simp] theorem ipLen_poke (i : Nat) (v : UInt8) (h : 24 ≤ i ∧ i < 54) : (p.poke i v h).ipLen = p.ipLen := by
  have h16 : 16 ≠ i := by omega
  have h17 : 17 ≠ i := by omega
  simp [ipLen, short, byte_poke, h16, h17]

@[simp] theorem size_make (sip dip : String) (sp dp id : Int) (d : List UInt8) :
    (make sip sp dip dp id d).size = 54 + d.length := by
  simp only [size, make, List.length_append, List.length_cons, List.length_nil]

@[simp] theorem ipLen_make (sip dip : String) (sp dp id : Int) (d : List UInt8) :
    (make sip sp dip dp id d).ipLen = htons (54 + d.length) := rfl

theorem size_call (c : Call) : ((p.call c).size, (p.call c).ipLen) =
    (c.payload?.map fun s => (54 + s.length, htons (54 + s.length))).getD (p.size, p.ipLen) := by
  cases c with
  | writeDestIp s => simp only [call, writeDestIp]; split <;> simp [Call.payload?]
  | writeDestPort n => simp [call, writeDestPort, Call.payload?]
  | writePayload s => simp [call, writePayload, Call.payload?]
  | nullify => simp [call, nullify, Call.payload?]

theorem getPktId_call (c : Call) : (p.call c).getPktId = p.getPktId := by
  cases c <;> simp [call, getPktId]

theorem getSrc_call (c : Call) :
    ((p.call c).getSrcIp, (p.call c).getSrcPort) = c.src?.getD (p.getSrcIp, p.getSrcPort) := by
  cases c with
  | nullify => simp [call, getSrcIp, getSrcPort, Call.src?]; decide
  | _ => simp [call, getSrcIp, getSrcPort, Call.src?]

variable {p} {c : Call}

theorem getDestIp_call (hc : c.Valid) : (p.call c).getDestIp = c.destIp?.getD p.getDestIp := by
  cases c with
  | writeDestIp s =>
    obtain ⟨x, hx⟩ := Option.isSome_iff_exists.mp hc
    simp [call, getDestIp, ipDst_writeDestIp, hx, Call.destIp?, inetNtop_inetPton hx]
  | _ => simp [call, getDestIp, Call.destIp?]

theorem getDestPort_call (hc : c.Valid) : (p.call c).getDestPort = c.destPort?.getD p.getDestPort := by
  cases c with
  | writeDestPort n =>
    obtain ⟨h0, h1⟩ := hc
    simp only [call, getDestPort, dest_writeDestPort, ntohs_htons, Call.destPort?, Option.getD_some]
    exact Int.emod_eq_of_lt h0 (by omega)
  | _ => simp [call, getDestPort, Call.destPort?]

theorem data_call (c : Call) : (p.call c).data = c.payload?.getD p.data := by
  cases c <;> simp [call, Call.payload?]

end

/-! ### Any sequence of calls -/

section
variable (p : Packet) {cs : List Call}

theorem getPktId_calls : (p.calls cs).getPktId = p.getPktId := by
  have h := read_foldl (l := cs) call getPktId (fun _ => none) (fun c _ p => getPktId_call p c) p
  rwa [lastWrite_of_none fun _ _ => rfl] at h

theorem getSrc_calls : ((p.calls cs).getSrcIp, (p.calls cs).getSrcPort) =
    lastWrite Call.src? cs (p.getSrcIp, p.getSrcPort) :=
  read_foldl call (fun p => (p.getSrcIp, p.getSrcPort)) Call.src? (fun c _ p => getSrc_call p c) p

theorem size_calls {s : List UInt8} (hs : (cs.filterMap Call.payload?).getLast? = some s) :
    (p.calls cs).size = 54 + s.length ∧ (p.calls cs).ipLen = htons (54 + s.length) := by
  have h := read_foldl (l := cs) call (fun p => (p.size, p.ipLen)) _ (fun c _ p => size_call p c) p
  rw [lastWrite, ← List.map_filterMap, List.getLast?_map, hs] at h
  exact Prod.mk.inj h

theorem data_calls : (p.calls cs).data = lastWrite Call.payload? cs p.data :=
  read_foldl call data Call.payload? (fun c _ _ => data_call c) p

variable (hcs : ∀ c ∈ cs, c.Valid)
include hcs

theorem getDestIp_calls : (p.calls cs).getDestIp = lastWrite Call.destIp? cs p.getDestIp :=
  read_foldl call getDestIp Call.destIp? (fun c hc _ => getDestIp_call (hcs c hc)) p

theorem getDestPort_calls : (p.calls cs).getDestPort = lastWrite Call.destPort? cs p.getDestPort :=
  read_foldl call getDestPort Call.destPort? (fun c hc _ => getDestPort_call (hcs c hc)) p

theorem data_calls_free (hfree : 0 ∉ p.data) : 0 ∉ (p.calls cs).data := by
  rw [data_calls, lastWrite]
  cases h : (cs.filterMap Call.payload?).getLast? with
  | none => exact hfree
  | some s =>
    obtain ⟨c, hc, hs⟩ := List.mem_filterMap.mp (List.mem_of_getLast? h)
    cases c <;> cases hs
    exact hcs _ hc

end

/-- What the getters return after `cs`: what was last written; `nullify` takes away the source, and the sizes are those
of the last payload. -/
def Laws (p : Packet) (cs : List Call) (behind : List UInt8) : Prop :=
  (p.calls cs).getDestIp = lastWrite Call.destIp? cs p.getDestIp ∧
    (p.calls cs).getDestPort = lastWrite Call.destPort? cs p.getDestPort ∧
    (p.calls cs).getPayload behind = lastWrite Call.payload? cs p.payload ∧
    (p.calls cs).getPktId = p.getPktId ∧
    (.nullify ∉ cs → (p.calls cs).getSrcIp = p.getSrcIp ∧ (p.calls cs).getSrcPort = p.getSrcPort) ∧
    (.nullify ∈ cs → (p.calls cs).getSrcIp = "0.0.0.0" ∧ (p.calls cs).getSrcPort = 0) ∧
    ∀ s, (cs.filterMap Call.payload?).getLast? = some s →
      (p.calls cs).dataSize = s.length ∧ (p.calls cs).size = 54 + s.length ∧
        (p.calls cs).ipLen = htons (p.calls cs).size ∧
        ((p.calls cs).size < 65536 → ntohs (p.calls cs).ipLen = (p.calls cs).size)

/-- The laws hold, whatever was called, if and only if a NUL follows the buffer that the calls have left. -/
theorem calls_laws_iff (p : Packet) (hfree : 0 ∉ p.data) {cs : List Call} (hcs : ∀ c ∈ cs, c.Valid)
    (behind : List UInt8) : p.Laws cs behind ↔ stray behind = [] := by
  have hdata := @data_calls p cs
  have hread : (p.calls cs).getPayload behind = lastWrite Call.payload? cs p.payload ↔ stray behind = [] := by
    rw [getPayload_of_free (p.data_calls_free hcs hfree), payload_of_free hfree, hdata, List.append_right_eq_self]
  refine ⟨fun h => hread.mp h.2.2.1, fun h => ⟨p.getDestIp_calls hcs, p.getDestPort_calls hcs, hread.mpr h,
    p.getPktId_calls, fun hno => ?_, fun hnull => ?_, fun s hs => ?_⟩⟩
  · have hsrc : ((p.calls cs).getSrcIp, (p.calls cs).getSrcPort) = _ := p.getSrc_calls
    rw [lastWrite_of_none, Prod.mk.injEq] at hsrc
    · exact hsrc
    · rintro c hc
      cases c with
      | nullify => exact absurd hc hno
      | _ => rfl
  · have hsrc : ((p.calls cs).getSrcIp, (p.calls cs).getSrcPort) = _ := p.getSrc_calls
    rw [lastWrite_of_mem hnull rfl (b := ("0.0.0.0", 0)), Prod.mk.injEq] at hsrc
    · exact hsrc
    · rintro c - b hb
      cases c <;> cases hb
      rfl
  · obtain ⟨hsize, hlen⟩ := p.size_calls hs
    have hcast : (((p.calls cs).size : Nat) : Int) = 54 + s.length := by rw [hsize]; push_cast; rfl
    refine ⟨by rw [dataSize, hsize, dataStart]; omega, hsize, by rw [hlen, hcast], fun hlt => ?_⟩
    rw [hlen, ntohs_htons, hcast]
    exact Int.emod_eq_of_lt (by omega) (by omega)

/-- A NUL behind the buffer. -/
theorem calls_laws_hello :
    hello.Laws [.writeDestPort 53, .writePayload [98, 121, 101], .nullify, .writeDestIp "10.0.0.7"] [0, 65] :=
  (calls_laws_iff hello (by decide) (by decide) [0, 65]).mpr (by decide)

/-- After `write_payload("hi")` with another byte behind the new buffer, `get_payload` returns that as well. -/
theorem calls_laws_stray :
    0 ∉ hello.data ∧ (∀ c ∈ [Call.writePayload [104, 105]], c.Valid) ∧
      (hello.calls [.writePayload [104, 105]]).getPayload [65] = [104, 105, 65] ∧
      ¬ hello.Laws [.writePayload [104, 105]] [65] := by
  refine ⟨by decide, by decide, by decide, fun h => ?_⟩
  have hpayload := h.2.2.1
  revert hpayload
  decide

/-! ### The rest of the headers -/

/-- The header bytes that `write_payload` reads back: the Ethernet type, the id, the protocol, the addresses and
the ports. -/
def keptBytes : List Nat := [12, 13, 18, 19, 23, 26, 27, 28, 29, 30, 31, 32, 33, 34, 35, 36, 37]

/-- The others, without those of the total length: the Ethernet addresses, the first bytes of the IP header, the
fragment, the ttl, the checksum and the rest of the TCP header. -/
def lostBytes : List Nat := (List.range 54).filter fun i => i ∉ keptBytes ∧ i ≠ 16 ∧ i ≠ 17

section
variable {p : Packet} {s : List UInt8} {i : Nat}

theorem byte_make_lost {sip dip : String} {sp dp id : Int} (hi : i ∈ lostBytes) :
    (make sip sp dip dp id s).byte i = 0 := by
  have hcases : lostBytes = [0, 1, 2, 3, 4, 5, 6, 7, 8, 9, 10, 11, 14, 15, 20, 21, 22, 24, 25, 38, 39, 40, 41, 42,
    43, 44, 45, 46, 47, 48, 49, 50, 51, 52, 53] := by decide
  rw [hcases] at hi
  fin_cases hi <;> rfl

theorem byte_writePayload_kept (hi : i ∈ keptBytes) : (p.writePayload s).byte i = p.byte i := by
  have hsrc := p.ipSrc_writePayload s
  have hdst := p.ipDst_writePayload s
  have hsp := p.source_writePayload s
  have hdp := p.dest_writePayload s
  have hid := p.ipId_writePayload s
  simp only [ipSrc, ipDst, addr, InAddr.mk.injEq] at hsrc hdst
  simp only [source, dest, ipId, short, NetShort.mk.injEq] at hsp hdp hid
  have htype : ∀ q : Packet, q.byte 12 = 8 ∧ q.byte 13 = 0 ∧ q.byte 23 = 6 := fun q => by
    simp [byte, q.etherType, q.ipP]
  obtain ⟨h12, h13, h23⟩ := htype p
  simp only [keptBytes, List.mem_cons, List.not_mem_nil, or_false] at hi
  rcases hi with rfl | rfl | rfl | rfl | rfl | rfl | rfl | rfl | rfl | rfl | rfl | rfl | rfl | rfl | rfl | rfl | rfl
  · exact h12.symm
  · exact h13.symm
  · exact hid.1
  · exact hid.2
  · exact h23.symm
  · exact hsrc.1
  · exact hsrc.2.1
  · exact hsrc.2.2.1
  · exact hsrc.2.2.2
  · exact hdst.1
  · exact hdst.2.1
  · exact hdst.2.2.1
  · exact hdst.2.2.2
  · exact hsp.1
  · exact hsp.2
  · exact hdp.1
  · exact hdp.2

end

/-- `write_payload` leaves the headers as they are, but for the total length, if and only if all that it does not
read back is zero. -/
theorem writePayload_frame_iff (p : Packet) (s : List UInt8) :
    (∀ i < 54, i ≠ 16 → i ≠ 17 → (p.writePayload s).byte i = p.byte i) ↔ ∀ i ∈ lostBytes, p.byte i = 0 := by
  constructor
  · intro h i hi
    obtain ⟨hlt, hcond⟩ := List.mem_filter.mp hi
    obtain ⟨-, h16, h17⟩ := of_decide_eq_true hcond
    rw [← h i (List.mem_range.mp hlt) h16 h17]
    exact byte_make_lost hi
  · intro h i hlt h16 h17
    by_cases hi : i ∈ keptBytes
    · exact byte_writePayload_kept hi
    · have hlost : i ∈ lostBytes := List.mem_filter.mpr ⟨List.mem_range.mpr hlt, decide_eq_true ⟨hi, h16, h17⟩⟩
      rw [h i hlost]
      exact byte_make_lost hlost

def helloTtl : Packet where
  pkt := hello.pkt.set 22 64
  fits := by simpa using hello.fits
  etherType := by rw [List.getElem?_set_ne (by decide), List.getElem?_set_ne (by decide)]; exact hello.etherType
  ipP := by rw [List.getElem?_set_ne (by decide)]; exact hello.ipP

theorem writePayload_loses_ttl :
    helloTtl.byte 22 = 64 ∧ (helloTtl.writePayload [98, 121, 101]).byte 22 = 0 ∧
      ¬ ∀ i < 54, i ≠ 16 → i ≠ 17 → (helloTtl.writePayload [98, 121, 101]).byte i = helloTtl.byte i := by
  have hold : helloTtl.byte 22 = 64 := rfl
  have hnew : (helloTtl.writePayload [98, 121, 101]).byte 22 = 0 := byte_make_lost (by decide)
  refine ⟨hold, hnew, fun h => ?_⟩
  have heq := h 22 (by decide) (by decide) (by decide)
  rw [hold, hnew] at heq
  exact absurd heq (by decide)

end Packet
end DeepNF
