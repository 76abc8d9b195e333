import DeepNF.Packet
import DeepNF.Rounds
import Mathlib.Data.Finset.Lattice.Basic

/-!
# The merge of one packet id (`src/runtime/merger`)

`resolvePacketConflict` and `mergePacket` are `MergerOperator::resolve_packet_conflict` and
`MergerOperator::merge_packet`. The merged packet shares the buffer of the major's packet in the
source; the major leaves `pkt_info_map` in the same step and is not read again, so packets are values
here. `mergePacket` takes the number of sweeps of the `while` loop that it may make; how many are
enough is proved in `DeepNF.MergeSpec`. It also takes a `Memory`: a payload is read as a C string, and its
buffer has no room for a terminator.
-/

namespace DeepNF
open Std (TreeMap)

/-- The fields that a merge can carry over from the minor packet. -/
def Field.carried : Finset Field := {.DIP, .DPORT, .PAYLOAD}

/-- `ConflictItem.h`: `major` has precedence over `minor`; ids of runtime nodes. -/
structure ConflictItem where
  major : Int
  minor : Int
  parent : Int
deriving DecidableEq, Repr

/-- `ActionTable::get_write_fields`, the table hardcoded in the merger. -/
def getWriteFields : NF → Finset Field
  | .dnfFirewall => ∅
  | .proxy => {.DIP, .DPORT}
  | .compressor => {.PAYLOAD}
  | .dnfLoadbalancer => ∅
  | .pktgen => ∅

structure MergerInfo where
  portToNodeMap : TreeMap Int Int
  conflictsList : List ConflictItem
  nodeMap : TreeMap Int RuntimeNode
  destIp : String
  destPort : Int

def MergerInfo.leaves (mi : MergerInfo) : List Int := mi.portToNodeMap.toList.map (·.2)

def MergerInfo.numNodes (mi : MergerInfo) : Nat := mi.portToNodeMap.size

theorem MergerInfo.numNodes_eq (mi : MergerInfo) : mi.numNodes = mi.leaves.length := by
  simp [numNodes, leaves]

/-- `get_dummy_merger_info`: a firewall and a proxy in parallel. -/
def getDummyMergerInfo : MergerInfo where
  portToNodeMap := .ofList ([(8000, 0), (8001, 1)] : List (Int × Int))
  conflictsList := []
  nodeMap := .ofList
    ([(0, { id := 0, nf := .dnfFirewall }), (1, { id := 1, nf := .proxy })] : List (Int × RuntimeNode))
  destIp := "127.0.0.1"
  destPort := 9999

/-- `PACKET_INFO`; `writtenFields` are the fields that count as written in the merge. -/
structure PacketInfo where
  nodeId : Int
  pkt : Packet
  writtenFields : Finset Field

/-- How `merge_packet` ends without a packet. -/
inductive MergeError
  | invalidNodeId (nodeId : Int)
  | noPackets
  | sweeps
deriving DecidableEq, Repr

/-- One `case` of the `switch` in `resolve_packet_conflict`. -/
def copyField (behind : List UInt8) (minor pkt : Packet) : Field → Packet
  | .DIP => pkt.writeDestIp minor.getDestIp
  | .DPORT => pkt.writeDestPort minor.getDestPort
  | .PAYLOAD => pkt.writePayload (minor.getPayload behind)
  | _ => pkt

def addWrites (behind : List UInt8) (majorFields : Finset Field) (minor : Packet) : List Field → Packet → Packet
  | [], pkt => pkt
  | field :: rest, pkt =>
    addWrites behind majorFields minor rest
      (if field ∈ majorFields then pkt else copyField behind minor pkt field)

/-- `behind` are the bytes behind the minor's buffer. -/
def resolvePacketConflict (behind : List UInt8) (majorP minorP : PacketInfo) (conflict : Option ConflictItem) :
    PacketInfo :=
  let nodeId := match conflict with
    | none => -1
    | some ci => ci.parent
  if majorP.pkt.isNull || minorP.pkt.isNull then
    { nodeId, pkt := majorP.pkt.nullify, writtenFields := ∅ }
  else
    { nodeId
      pkt := addWrites behind majorP.writtenFields minorP.pkt (Field.iterate minorP.writtenFields) majorP.pkt
      writtenFields := minorP.writtenFields ∪ majorP.writtenFields }

/-- The working map of `merge_packet`. -/
abbrev PktInfoMap := TreeMap Int PacketInfo

/-- What lies behind the minor's buffer when the merge has so many packets left. Each merge leaves one packet less,
so no number comes twice. -/
abbrev Memory := Nat → List UInt8

def Memory.clean : Memory := fun _ => [0]

def packetToPacketInfo (mi : MergerInfo) (pkt : Packet) (nodeId : Int) : Except MergeError PacketInfo :=
  match mi.nodeMap[nodeId]? with
  | none => .error (.invalidNodeId nodeId)
  | some rn => .ok { nodeId, pkt, writtenFields := getWriteFields rn.nf }

def packetMapToPacketInfoMap (mi : MergerInfo) (packetMap : TreeMap Int Packet) :
    Except MergeError PktInfoMap :=
  packetMap.toList.foldlM (fun retMap (nodeId, pkt) => do
    return retMap.insertIfNew nodeId (← packetToPacketInfo mi pkt nodeId)) ∅

/-- What `ActionTable` says the NF of a node writes; nothing for an id that is no node. -/
def nodeWrites (mi : MergerInfo) (nodeId : Int) : Finset Field :=
  match mi.nodeMap[nodeId]? with
  | some rn => getWriteFields rn.nf
  | none => ∅

/-- "add merged packet's NF's written fields". -/
def addNodeWrites (mi : MergerInfo) (newPacket : PacketInfo) : PacketInfo :=
  { newPacket with writtenFields := newPacket.writtenFields ∪ nodeWrites mi newPacket.nodeId }

/-- The body of the `for` loop: `none` if a member of the conflict is not available, `.error` for
the early return of a null packet. -/
def tryConflict (memory : Memory) (mi : MergerInfo) (ci : ConflictItem) (pktInfoMap : PktInfoMap) :
    Option (Except Packet PktInfoMap) :=
  match pktInfoMap[ci.major]?, pktInfoMap[ci.minor]? with
  | some majorP, some minorP =>
    let newPacket := resolvePacketConflict (memory pktInfoMap.size) majorP minorP (some ci)
    if newPacket.pkt.isNull then some (.error newPacket.pkt)
    else
      -- `insert` does nothing if the id of the parent is held
      some (.ok (((pktInfoMap.erase ci.major).erase ci.minor).insertIfNew ci.parent
        (addNodeWrites mi newPacket)))
  | _, _ => none

/-- The final phase: what is left is merged in the order of the node ids. -/
def mergeAll (memory : Memory) (merged : PacketInfo) : List PacketInfo → PacketInfo
  | [] => merged
  | p :: ps => mergeAll memory (resolvePacketConflict (memory (ps.length + 2)) merged p none) ps

def mergeRest (memory : Memory) : List PacketInfo → Except MergeError Packet
  | [] => .error .noPackets
  | p :: ps => .ok (mergeAll memory p ps).pkt

def mergePacket (sweeps : Nat) (memory : Memory) (mi : MergerInfo) (thisPktMap : TreeMap Int Packet) :
    Except MergeError Packet := do
  let pktInfoMap ← packetMapToPacketInfoMap mi thisPktMap
  match Rounds.run (tryConflict memory mi) mi.conflictsList sweeps pktInfoMap with
  | none => .error .sweeps
  | some (.error nullPkt) => .ok nullPkt
  | some (.ok pktInfoMap) => mergeRest memory (pktInfoMap.toList.map (·.2))

end DeepNF
