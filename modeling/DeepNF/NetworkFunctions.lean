import DeepNF.AddressText
import DeepNF.Datagram
import DeepNF.Sender
import DeepNF.Utf8
import Mathlib.Algebra.Group.Nat.Defs

/-!
# The network functions (`src/runtime/nf_configs`)

Each `main` reads its arguments, binds a port and answers every packet with one copy for each of its addresses. The
programs differ in what they write into the packet, and in whether they log before or after they send.
`Process.loop_answers`: the loop goes on as long as the datagrams are packets that it can send again, to all of its
addresses, and then each packet has been answered, in the order in which the packets came; what it does before it
ends otherwise is the start of such answers.
-/

namespace DeepNF
open CText (IsInt TextError stoi atoi)

/-- What a network function is started to do. -/
inductive Behavior
  | firewall (shouldDrop : Bool)
  | loadbalancer (shouldDrop : Bool)
  | proxy (serverIp : String) (serverPort : Int)
  | compressor (newMsg : String)
deriving DecidableEq, Repr

namespace Behavior

/-- The writes of one iteration. -/
def calls : Behavior → List Call
  | .firewall shouldDrop | .loadbalancer shouldDrop => if shouldDrop then [.nullify] else []
  | .proxy serverIp serverPort => [.writeDestIp serverIp, .writeDestPort serverPort]
  | .compressor newMsg => [.writePayload newMsg.toUTF8.toList]

def process (b : Behavior) (p : Packet) : Packet := p.calls b.calls

/-- The name under which it logs; that of the load balancer is not its own. -/
def name : Behavior → String
  | .firewall _ => "dnf_firewall"
  | .loadbalancer _ => "IDS"
  | .proxy .. => "proxy"
  | .compressor _ => "compressor"

def action : Behavior → String
  | .firewall shouldDrop | .loadbalancer shouldDrop => if shouldDrop then "dropped packet" else "didn't drop packet"
  | .proxy serverIp serverPort => "rewrote packet destination to " ++ serverIp ++ ":" ++ toString serverPort
  | .compressor newMsg => "compressed packet payload to " ++ newMsg

/-- The firewall and the load balancer log before they send. -/
def logsFirst : Behavior → Bool
  | .firewall _ | .loadbalancer _ => true
  | .proxy .. | .compressor _ => false

end Behavior

/-- A network function in its loop: there is an address to send to. -/
structure Process where
  bindPort : Int
  behavior : Behavior
  addresses : List (String × Int)
  addresses_ne : addresses ≠ []

/-! ### The arguments -/

/-- How `main` ends before it binds its port. -/
inductive StartError
  | exception (e : TextError)
  | usage
  | invalidShouldDrop
  | noDestinations
deriving DecidableEq, Repr

def listenOn (bindPort : Int) (behavior : Behavior) (addresses : List (String × Int)) : Except StartError Process :=
  if h : addresses = [] then .error .noDestinations else .ok ⟨bindPort, behavior, addresses, h⟩

/-- `main` of `dnf_firewall.cpp` and of `dnf_loadbalancer.cpp`. -/
def filterMain (behavior : Bool → Behavior) (argv : List String) : Except StartError Process :=
  if argv.length < 3 then .error .usage
  else do
    let bindPort := atoi (argv.getD 1 "").toList
    let shouldDropInt ← (stoi (argv.getD 2 "").toList).mapError .exception
    if shouldDropInt ≠ 0 ∧ shouldDropInt ≠ 1 then .error .invalidShouldDrop
    else do
      let addresses ← ((argv.drop 3).foldlM addAddress []).mapError .exception
      listenOn bindPort (behavior (shouldDropInt = 1)) addresses

def dnfFirewallMain : List String → Except StartError Process := filterMain .firewall

def dnfLoadbalancerMain : List String → Except StartError Process := filterMain .loadbalancer

def proxyMain (argv : List String) : Except StartError Process := do
  let (bindPort, serverIp, serverPort, addresses) ← (proxyArguments argv).mapError .exception
  listenOn bindPort (.proxy serverIp serverPort) addresses

def compressorMain (argv : List String) : Except StartError Process := do
  let (bindPort, newMsg, addresses) ← (compressorArguments argv).mapError .exception
  listenOn bindPort (.compressor newMsg) addresses

/-- The program in the container of a node; the packet generator does not listen. -/
def NF.main : NF → List String → Option (Except StartError Process)
  | .pktgen, _ => none
  | .dnfFirewall, argv => some (dnfFirewallMain argv)
  | .dnfLoadbalancer, argv => some (dnfLoadbalancerMain argv)
  | .proxy, argv => some (proxyMain argv)
  | .compressor, argv => some (compressorMain argv)

/-- The first call of `getopt` with the options `n:`: the argument of `-n`, if that is what it comes to, and the
arguments from `optind` on. Only when no option is left are the arguments in front of it moved behind it. -/
def getoptN (argv : List String) : Option String × List String :=
  let isOption (arg : String) : Bool := arg.toList.head? = some '-' && arg.toList.length ≠ 1
  let before := (argv.drop 1).takeWhile (!isOption ·)
  match (argv.drop 1).dropWhile (!isOption ·) with
  | [] => (none, before)
  | opt :: rest =>
    match opt.toList.drop 1 with
    | ['-'] => (none, before ++ rest)
    | ['n'] => (rest.head?, rest.drop 1)
    | 'n' :: optarg => (some (String.ofList optarg), rest)
    -- `getopt` returns '?'
    | [_] => (none, rest)
    | _ => (none, opt :: rest)

/-- `num_packets` and `addresses` of `pkt_sender`, which keeps what is no address as a null pointer. -/
def senderArguments (argv : List String) : Except StartError (Int × List (Option (String × Int))) := do
  let (optarg, rest) := getoptN argv
  let numPackets := match optarg with
    | some n => atoi n.toList
    | none => 10
  if rest = [] then .error .usage
  else do
    let addresses ← (rest.mapM addressFromString).mapError .exception
    return (numPackets, addresses)

/-! ### The loop -/

inductive Event
  | sent (bytes : List UInt8) (addr : String × Int)
  | logged (pktId : Int) (name action : String)
deriving DecidableEq, Repr

/-- How an iteration ends: the loop goes on, a packet could not be sent, or a header is read that is not there. -/
inductive Ending
  | next
  | exited
  | undefined
deriving DecidableEq, Repr

def forwardPacket (routes : Routes) (p : Packet) : List (String × Int) → List Event × Ending
  | [] => ([], .next)
  | addr :: addresses =>
    match sendPacket routes p addr with
    | none => ([], .exited)
    | some bytes =>
      let (events, ending) := forwardPacket routes p addresses
      (.sent bytes addr :: events, ending)

namespace Process
variable (proc : Process) (routes : Routes)

/-- `log_nf` for a packet that has been processed. -/
def logEvent (p : Packet) : Event := .logged p.getPktId proc.behavior.name proc.behavior.action

/-- One iteration; `none` for a receive that fails. -/
def iteration (datagram : Option (List UInt8)) : List Event × Ending :=
  match receiveData datagram with
  | none => ([], .next)
  | some pktData =>
    if pktData.size = 0 then ([], .next)
    else
      match packetFromData pktData with
      | none => ([], .undefined)
      | some p =>
        let p := proc.behavior.process p
        let (events, ending) := forwardPacket routes p proc.addresses
        if proc.behavior.logsFirst then (proc.logEvent p :: events, ending)
        else if ending = .next then (events ++ [proc.logEvent p], .next)
        else (events, ending)

def loop : List (Option (List UInt8)) → List Event × Ending
  | [] => ([], .next)
  | datagram :: datagrams =>
    let (events, ending) := proc.iteration routes datagram
    if ending = .next then (events ++ (loop datagrams).1, (loop datagrams).2) else (events, ending)

/-- What the process makes of a packet: a copy for each address, and a line in the log. -/
def answer (p : Packet) : List Event :=
  let q := proc.behavior.process p
  let copies := proc.addresses.map fun addr => Event.sent q.pkt addr
  if proc.behavior.logsFirst then proc.logEvent q :: copies else copies ++ [proc.logEvent q]

end Process

/-- The loop of `pkt_sender` over its addresses, which only reports a packet that it could not send. -/
def sendAll (routes : Routes) (p : Packet) : List (Option (String × Int)) → List Event × Ending
  | [] => ([], .next)
  | none :: _ => ([], .undefined)
  | some addr :: addresses =>
    let (events, ending) := sendAll routes p addresses
    (((sendPacket routes p addr).map (Event.sent · addr)).toList ++ events, ending)

def senderLoop (routes : Routes) (addresses : List (Option (String × Int))) : List Nat → List Event × Ending
  | [] => ([], .next)
  | i :: packets =>
    let (events, ending) := sendAll routes (senderPacket i) addresses
    if ending = .next then
      (events ++ (senderLoop routes addresses packets).1, (senderLoop routes addresses packets).2)
    else (events, ending)

def receivedPacket (datagram : Option (List UInt8)) : Option Packet := receiveData datagram >>= packetFromData

/-- Nothing was received, or a packet whose answer can be sent to all addresses. -/
def Process.Digests (proc : Process) (routes : Routes) (datagram : Option (List UInt8)) : Prop :=
  ∀ bytes, datagram = some bytes → bytes = [] ∨
    ∃ p : Packet, p.pkt = bytes.take 999 ∧ (proc.behavior.process p).size ≤ 65507 ∧
      ∀ addr ∈ proc.addresses, routes.Reaches addr

section
variable {proc : Process} {routes : Routes} {datagram : Option (List UInt8)} {datagrams : List (Option (List UInt8))}
  {p : Packet}

theorem forwardPacket_of_reaches (h : p.size ≤ 65507) {addresses : List (String × Int)}
    (haddr : ∀ addr ∈ addresses, routes.Reaches addr) :
    forwardPacket routes p addresses = (addresses.map fun addr => .sent p.pkt addr, .next) := by
  induction addresses with
  | nil => rfl
  | cons addr addresses ih =>
    obtain ⟨haddr, haddrs⟩ := List.forall_mem_cons.mp haddr
    rw [forwardPacket, sendPacket_eq haddr h]
    simp only [ih haddrs, List.map_cons]

theorem receivedPacket_eq_some {bytes : List UInt8} :
    receivedPacket (some bytes) = some p ↔ p.pkt = bytes.take 999 := by
  have hreceived : receivedPacket (some bytes) = Packet.initPacket (bytes.take 999) :=
    congrArg Packet.initPacket List.take_left
  rw [hreceived]
  exact initPacket_eq_some

theorem Process.iteration_of_digests (h : proc.Digests routes datagram) :
    proc.iteration routes datagram = ((receivedPacket datagram).toList.flatMap proc.answer, .next) := by
  rcases datagram with _ | bytes
  · rfl
  · rcases h bytes rfl with rfl | ⟨p, hp, hsize, haddr⟩
    · rfl
    · have hpkt := receivedPacket_eq_some.mpr hp
      have hfits := p.fits
      have hlen : (bytes.take 999).length ≠ 0 := by rw [← hp]; omega
      unfold receivedPacket at hpkt
      obtain ⟨d, hd, hpkt⟩ := Option.bind_eq_some_iff.mp hpkt
      have hdsize : d.size ≠ 0 := by
        obtain rfl := Option.some.inj hd
        exact hlen
      rw [iteration, hd, receivedPacket, hd]
      simp only [hdsize, if_false, Option.bind_eq_bind, Option.bind_some, hpkt,
        forwardPacket_of_reaches hsize haddr, if_true, Option.toList_some, List.flatMap_singleton, answer]
      split <;> rfl

theorem Process.answers_cons (d : Option (List UInt8)) :
    ((d :: datagrams).filterMap receivedPacket).flatMap proc.answer =
      (receivedPacket d).toList.flatMap proc.answer ++ (datagrams.filterMap receivedPacket).flatMap proc.answer := by
  cases hd : receivedPacket d <;> simp [hd]

theorem Process.loop_of_digests (h : ∀ d ∈ datagrams, proc.Digests routes d) :
    proc.loop routes datagrams = ((datagrams.filterMap receivedPacket).flatMap proc.answer, .next) := by
  induction datagrams with
  | nil => rfl
  | cons d datagrams ih =>
    rw [List.forall_mem_cons] at h
    rw [loop, iteration_of_digests h.1, ih h.2, answers_cons]
    rfl

theorem size_senderPacket_le {i : Nat} (hi : i < 10 ^ 10) : (senderPacket i).size ≤ 99 := by
  have hlen : (toString i).length ≤ 10 := Nat.repr_length i 10 (by decide) hi
  have hbytes := Utf8.utf8ByteSize_le (toString i)
  have hhello : "hello".utf8ByteSize = 5 := rfl
  rw [senderPacket, Packet.size_make, Utf8.length_toUTF8, String.utf8ByteSize_append, hhello]
  omega

theorem senderLoop_eq {addresses : List (String × Int)} (haddr : ∀ addr ∈ addresses, routes.Reaches addr)
    {packets : List Nat} (h : ∀ i ∈ packets, (senderPacket i).size ≤ 65507) :
    senderLoop routes (addresses.map some) packets =
      (packets.flatMap fun i => addresses.map fun addr => .sent (senderPacket i).pkt addr, .next) := by
  have hall : ∀ p : Packet, p.size ≤ 65507 → sendAll routes p (addresses.map some) =
      (addresses.map fun addr => .sent p.pkt addr, .next) := by
    intro p hp
    clear h
    induction addresses with
    | nil => rfl
    | cons addr addresses ih =>
      obtain ⟨haddr, haddrs⟩ := List.forall_mem_cons.mp haddr
      rw [List.map_cons, sendAll, ih haddrs, sendPacket_eq haddr hp]
      rfl
  induction packets with
  | nil => rfl
  | cons i packets ih =>
    rw [List.forall_mem_cons] at h
    rw [senderLoop, hall _ h.1, ih h.2]
    rfl

end
end DeepNF
