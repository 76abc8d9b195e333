import DeepNF.CText
import DeepNF.Packet
import DeepNF.Utf8

/-!
# The log of the receiver (`pkt_receiver.cpp`, `showReceiver` in `src/webserver/routes/routes.js`)

The receiver writes a line for each packet, and the web server splits the file at its newlines and each line at its
commas. `showReceiver_log`: behind the last newline it always finds one more record, and the others are the packets
if and only if no payload, as it is read, contains a newline or a comma.
-/

namespace DeepNF

/-- A packet that was received, with the bytes behind its buffer. -/
structure Received where
  packet : Packet
  behind : List UInt8

namespace Received

def payload (x : Received) : List UInt8 := x.packet.getPayload x.behind

/-- What `pkt_receiver` writes for a packet. -/
def logLine (x : Received) : List UInt8 :=
  Utf8.encode (toString x.packet.getPktId ++ "," ++ x.packet.getSrcIp ++ "," ++ toString x.packet.getSrcPort ++ "," ++
    x.packet.getDestIp ++ "," ++ toString x.packet.getDestPort ++ ",").toList ++ x.payload ++ [10]

end Received

/-- The loop of `pkt_receiver`, which ends with the packet in place `num_packets`: what it appends to `log.txt`. -/
def pktReceiver (numPackets : Int) : Int → List Received → List UInt8
  | _, [] => []
  | count, x :: received =>
    if count + 1 = numPackets then [] else x.logLine ++ pktReceiver numPackets (count + 1) received

/-- An entry of `content_object`; `none` is `undefined`. -/
structure ReceiverRecord where
  id : Option String
  sip : Option String
  sport : Option String
  dip : Option String
  dport : Option String
  payload : Option String
deriving DecidableEq, Repr

def receiverRecord (line : List Char) : ReceiverRecord :=
  let dataArray := (line.splitOn ',').map String.ofList
  { id := dataArray[0]?, sip := dataArray[1]?, sport := dataArray[2]?, dip := dataArray[3]?, dport := dataArray[4]?
    payload := dataArray[5]? }

/-- `content_object`, in the order of its keys. -/
def showReceiver (log : List UInt8) : List ReceiverRecord :=
  ((Utf8.decode log).splitOn '\n').map receiverRecord

/-- The record that belongs to a packet with this payload. -/
def Packet.record (p : Packet) (payload : List UInt8) : ReceiverRecord where
  id := some (toString p.getPktId)
  sip := some p.getSrcIp
  sport := some (toString p.getSrcPort)
  dip := some p.getDestIp
  dport := some (toString p.getDestPort)
  payload := some (String.ofList (Utf8.decode payload))

def logged (numPackets : Int) (received : List Received) : List Received :=
  if 0 < numPackets then received.take (numPackets - 1).toNat else received

theorem pktReceiver_eq (numPackets : Int) (received : List Received) :
    pktReceiver numPackets 0 received = (logged numPackets received).flatMap Received.logLine := by
  have key : ∀ (received : List Received) (count : Int), pktReceiver numPackets count received =
      (if count < numPackets then received.take (numPackets - count - 1).toNat else received).flatMap
        Received.logLine := by
    intro received
    induction received with
    | nil => intro count; split <;> simp [pktReceiver]
    | cons x received ih =>
      intro count
      rw [pktReceiver, ih (count + 1)]
      by_cases hend : count + 1 = numPackets
      · rw [if_pos hend, if_pos (by omega), show (numPackets - count - 1).toNat = 0 by omega]
        rfl
      · rw [if_neg hend]
        by_cases hlt : count < numPackets
        · rw [if_pos (by omega), if_pos hlt,
            show (numPackets - count - 1).toNat = (numPackets - (count + 1) - 1).toNat + 1 by omega]
          rfl
        · rw [if_neg (by omega), if_neg hlt]
          rfl
  have h0 := key received 0
  rwa [Int.sub_zero] at h0

/-! ### Lines -/

section Lines
variable {x : Received}

theorem notMem_inetNtop {c : Char} (hc : c.isDigit = false) (hdot : c ≠ '.') (x : InAddr) :
    c ∉ (inetNtop x).toList := by
  have hdigits : ∀ n : Nat, c ∉ Nat.toDigits 10 n := CText.notMem_toDigits hc
  simp [inetNtop, String.toList_append, hdigits, hdot]

namespace Received

def lineText (x : Received) : List Char :=
  (toString x.packet.getPktId).toList ++ ',' :: (x.packet.getSrcIp.toList ++ ',' ::
    ((toString x.packet.getSrcPort).toList ++ ',' :: (x.packet.getDestIp.toList ++ ',' ::
      ((toString x.packet.getDestPort).toList ++ ',' :: Utf8.decode x.payload))))

theorem decode_logLine_append (x : Received) (rest : List UInt8) :
    Utf8.decode (x.logLine ++ rest) = x.lineText ++ '\n' :: Utf8.decode rest := by
  have hend : Utf8.decode (x.payload ++ 10 :: rest) = Utf8.decode x.payload ++ '\n' :: Utf8.decode rest :=
    Utf8.decode_append_cons (by decide) _ _
  rw [logLine, List.append_assoc, List.append_assoc, Utf8.decode_encode_append, List.singleton_append, hend]
  simp [lineText, String.toList_append]

theorem newline_mem_lineText : '\n' ∈ x.lineText ↔ 10 ∈ x.payload := by
  have hint : ∀ i : Int, '\n' ∉ (toString i).toList := fun i => CText.notMem_toString (by decide) (by decide)
  have hip : ∀ x, '\n' ∉ (inetNtop x).toList := notMem_inetNtop (by decide) (by decide)
  have hpayload : '\n' ∈ Utf8.decode x.payload ↔ 10 ∈ x.payload := Utf8.mem_decode_iff (by decide) (by decide)
  simp only [lineText, Packet.getSrcIp, Packet.getDestIp, List.mem_append, List.mem_cons, hint, hip, hpayload,
    false_or]
  simp

theorem receiverRecord_lineText (x : Received) : receiverRecord x.lineText =
    { x.packet.record x.payload with
      payload := ((Utf8.decode x.payload).splitOn ',').head?.map String.ofList } := by
  have hint : ∀ i : Int, ',' ∉ (toString i).toList := fun i => CText.notMem_toString (by decide) (by decide)
  have hsip : ',' ∉ x.packet.getSrcIp.toList := notMem_inetNtop (by decide) (by decide) _
  have hdip : ',' ∉ x.packet.getDestIp.toList := notMem_inetNtop (by decide) (by decide) _
  have hsplit : x.lineText.splitOn ',' = (toString x.packet.getPktId).toList :: x.packet.getSrcIp.toList ::
      (toString x.packet.getSrcPort).toList :: x.packet.getDestIp.toList ::
        (toString x.packet.getDestPort).toList :: (Utf8.decode x.payload).splitOn ',' := by
    rw [lineText, List.splitOn_append_cons_self_of_not_mem (hint _),
      List.splitOn_append_cons_self_of_not_mem hsip, List.splitOn_append_cons_self_of_not_mem (hint _),
      List.splitOn_append_cons_self_of_not_mem hdip, List.splitOn_append_cons_self_of_not_mem (hint _)]
  rw [receiverRecord, hsplit, Packet.record]
  simp [List.head?_eq_getElem?]

end Received

theorem head?_splitOn_eq_self {α : Type} [BEq α] [LawfulBEq α] {a : α} {l : List α} :
    (l.splitOn a).head? = some l ↔ a ∉ l := by
  constructor
  · intro h hmem
    obtain ⟨xs, ys, rfl, hxs⟩ := List.eq_append_cons_of_mem hmem
    rw [List.splitOn_append_cons_self_of_not_mem hxs] at h
    have hlen := congrArg List.length (Option.some.inj h)
    simp at hlen
  · intro h
    rw [List.splitOn_eq_singleton h]
    rfl

theorem Received.receiverRecord_eq_record :
    receiverRecord x.lineText = x.packet.record x.payload ↔ 44 ∉ x.payload := by
  have hpayload : ',' ∈ Utf8.decode x.payload ↔ 44 ∈ x.payload := Utf8.mem_decode_iff (by decide) (by decide)
  rw [← hpayload, ← head?_splitOn_eq_self, receiverRecord_lineText]
  constructor
  · intro h
    have hfield : ((Utf8.decode x.payload).splitOn ',').head?.map String.ofList =
        some (String.ofList (Utf8.decode x.payload)) := congrArg ReceiverRecord.payload h
    obtain ⟨field, hhead, hfield⟩ := Option.map_eq_some_iff.mp hfield
    rw [hhead, String.ofList_injective hfield]
  · intro h
    rw [h]
    rfl

end Lines

/-! ### The file -/

section File
variable {received : List Received}

def emptyRecord : ReceiverRecord :=
  { id := some "", sip := none, sport := none, dip := none, dport := none, payload := none }

theorem showReceiver_lines (received : List Received) : showReceiver (received.flatMap Received.logLine) =
    (received.flatMap fun x => x.lineText.splitOn '\n').map receiverRecord ++ [emptyRecord] := by
  induction received with
  | nil => decide
  | cons x received ih =>
    unfold showReceiver at ih ⊢
    rw [List.flatMap_cons, Received.decode_logLine_append, List.splitOn_append_cons_self, List.map_append, ih,
      List.flatMap_cons, List.map_append, List.append_assoc]

theorem record_ne_emptyRecord (p : Packet) (payload : List UInt8) : p.record payload ≠ emptyRecord := fun h => by
  have hsip : some p.getSrcIp = none := congrArg ReceiverRecord.sip h
  cases hsip

theorem length_splitOn_pos {α : Type} [BEq α] (a : α) (l : List α) : 1 ≤ (l.splitOn a).length :=
  List.length_pos_iff.mpr (List.splitOn_ne_nil a l)

theorem one_lt_length_splitOn {α : Type} [BEq α] [LawfulBEq α] {a : α} {l : List α} (h : a ∈ l) :
    1 < (l.splitOn a).length := by
  obtain ⟨xs, ys, rfl⟩ := List.append_of_mem h
  have := length_splitOn_pos a xs
  have := length_splitOn_pos a ys
  rw [List.splitOn_append_cons_self, List.length_append]
  omega

theorem length_le_length_lines (received : List Received) :
    received.length ≤ (received.flatMap fun x => x.lineText.splitOn '\n').length := by
  induction received with
  | nil => exact Nat.le_refl _
  | cons x received ih =>
    have := length_splitOn_pos '\n' x.lineText
    rw [List.flatMap_cons, List.length_append, List.length_cons]
    omega

theorem length_lines_eq (received : List Received) :
    (received.flatMap fun x => x.lineText.splitOn '\n').length = received.length ↔
      ∀ x ∈ received, '\n' ∉ x.lineText := by
  induction received with
  | nil => simp
  | cons x received ih =>
    have hle := length_le_length_lines received
    rw [List.forall_mem_cons, ← ih, List.flatMap_cons, List.length_append, List.length_cons]
    by_cases hmem : '\n' ∈ x.lineText
    · have := one_lt_length_splitOn hmem
      exact ⟨fun h => by omega, fun h => absurd hmem h.1⟩
    · rw [List.splitOn_eq_singleton hmem, List.length_singleton, and_iff_right hmem]
      omega

theorem lines_eq (h : ∀ x ∈ received, '\n' ∉ x.lineText) :
    (received.flatMap fun x => x.lineText.splitOn '\n') = received.map Received.lineText := by
  induction received with
  | nil => rfl
  | cons x received ih =>
    rw [List.forall_mem_cons] at h
    rw [List.flatMap_cons, List.splitOn_eq_singleton h.1, ih h.2]
    rfl

/-- The last record belongs to no packet, whatever its payload is taken to be. The others belong to the packets that
were logged, with the payloads that were read, if and only if none of these contains a newline or a comma. -/
theorem showReceiver_log (numPackets : Int) (received : List Received) :
    (∀ payload : Received → List UInt8, showReceiver (pktReceiver numPackets 0 received) ≠
      received.map fun x => x.packet.record (payload x)) ∧
    ((showReceiver (pktReceiver numPackets 0 received)).dropLast =
        (logged numPackets received).map (fun x => x.packet.record x.payload) ↔
      ∀ x ∈ logged numPackets received, 10 ∉ x.payload ∧ 44 ∉ x.payload) := by
  rw [pktReceiver_eq, showReceiver_lines, List.dropLast_concat]
  refine ⟨fun payload h => ?_, ?_⟩
  · have hmem : emptyRecord ∈ received.map fun x => x.packet.record (payload x) :=
      h ▸ List.mem_append_right _ (List.mem_singleton.mpr rfl)
    obtain ⟨x, -, hx⟩ := List.mem_map.mp hmem
    exact record_ne_emptyRecord x.packet _ hx
  · generalize logged numPackets received = logs
    constructor
    · intro h
      have hlen := congrArg List.length h
      rw [List.length_map, List.length_map, length_lines_eq] at hlen
      rw [lines_eq hlen, List.map_map, List.map_inj_left] at h
      exact fun x hx => ⟨mt Received.newline_mem_lineText.mpr (hlen x hx),
        Received.receiverRecord_eq_record.mp (h x hx)⟩
    · intro h
      rw [lines_eq fun x hx => mt Received.newline_mem_lineText.mp (h x hx).1, List.map_map, List.map_inj_left]
      exact fun x hx => Received.receiverRecord_eq_record.mpr (h x hx).2

/-- One packet, with a NUL behind it, and two records. -/
theorem showReceiver_hello :
    showReceiver (pktReceiver 10 0 [⟨hello, [0]⟩]) = [hello.record hello.payload, emptyRecord] ∧
      showReceiver (pktReceiver 10 0 [⟨hello, [0]⟩]) ≠ [hello.record hello.payload] := by
  have hline : ∀ x ∈ [(⟨hello, [0]⟩ : Received)], '\n' ∉ x.lineText :=
    List.forall_mem_singleton.mpr (mt Received.newline_mem_lineText.mp (by decide))
  have hrecord : receiverRecord (Received.lineText ⟨hello, [0]⟩) = hello.record hello.payload :=
    Received.receiverRecord_eq_record.mpr (by decide)
  have hview : showReceiver (pktReceiver 10 0 [⟨hello, [0]⟩]) = [hello.record hello.payload, emptyRecord] := by
    rw [pktReceiver_eq, show logged 10 [⟨hello, [0]⟩] = [⟨hello, [0]⟩] from rfl, showReceiver_lines, lines_eq hline]
    show [receiverRecord _, emptyRecord] = _
    rw [hrecord]
  refine ⟨hview, fun h => ?_⟩
  have hlen := congrArg List.length (hview.symm.trans h)
  cases hlen

end File
end DeepNF
