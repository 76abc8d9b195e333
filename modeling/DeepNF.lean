import DeepNF.Rounds
import DeepNF.Walk
import DeepNF.Attach
import DeepNF.TreeMaps
import DeepNF.Histories
import DeepNF.Common
import DeepNF.Inet
import DeepNF.Packet
import DeepNF.History
import DeepNF.SocketUtil
import DeepNF.Datagram
import DeepNF.Merger
import DeepNF.MergeSpec
import DeepNF.NullPackets
import DeepNF.MergeLoop
import DeepNF.Provenance
import DeepNF.Bracketing
import DeepNF.OrderFree
import DeepNF.Threads
import DeepNF.ThreadsInv
import DeepNF.MergeRuns
import DeepNF.MergeSlots
import DeepNF.LeafWrites
import DeepNF.InnerTrail
import DeepNF.ActionTable
import DeepNF.Hazards
import DeepNF.Parallel
import DeepNF.ServiceGraph
import DeepNF.Orchestrator
import DeepNF.OrchestratorSpec
import DeepNF.ConstructSpec
import DeepNF.ConstructTotal
import DeepNF.GraphLaws
import DeepNF.LeafSearch
import DeepNF.GraphMirror
import DeepNF.FlowRules
import DeepNF.InnerWrites
import DeepNF.CText
import DeepNF.Utf8
import DeepNF.ReceiverLog
import DeepNF.MachineConfigurator
import DeepNF.Partitioning
import DeepNF.ServiceGraphUtil
import DeepNF.ConfigTransfer
import DeepNF.Handshake
import DeepNF.Forwarder
import DeepNF.AddressText
import DeepNF.Traffic
import DeepNF.Containers
import DeepNF.BridgePorts
import DeepNF.Sender
import DeepNF.OverlayRuns
import DeepNF.Delivery
import DeepNF.Setup
import DeepNF.ConflictItems
import DeepNF.LevelCheck
import DeepNF.ConflictParents
import DeepNF.NullNodes
import DeepNF.Precedence
import DeepNF.MergeOrders
import DeepNF.Confluence
import DeepNF.ReceiverPage
import DeepNF.GraphPage
import DeepNF.FileReads
import DeepNF.MachinePage
