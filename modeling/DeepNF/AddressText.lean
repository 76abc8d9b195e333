import DeepNF.Forwarder
import Mathlib.Data.List.TakeWhile

/-!
# Texts that are addresses, and texts that are not (`src/runtime/address_util.cpp` and its callers)

`addressFromString_inverse`: an address that was printed is read back. `acceptsExactly_iff` says which other texts
`address_from_string` treats as its callers expect, and `compressorArguments_iff` what becomes of the message of
the compressor, which it reads like an address.
-/

namespace DeepNF
open CText (IsInt TextError stoi)

def addressToString (addr : String × Int) : String := addr.1 ++ ":" ++ toString addr.2

def stringify (ip : String) (port : Int) : String := ip ++ ":" ++ toString port

/-- Printed in either way, and with the end of a line of `forwarder.txt` behind it. -/
theorem addressFromString_inverse {ip : String} (hip : Host ip) {port : Int} (hp : IsInt port) :
    addressFromString (addressToString (ip, port)) = .ok (some (ip, port)) ∧
    addressFromString (stringify ip port) = .ok (some (ip, port)) ∧
    addressFromString (addressToString (ip, port) ++ "\n") = .ok (some (ip, port)) ∧
    addressFromString (stringify ip port ++ "\n") = .ok (some (ip, port)) :=
  ⟨addressFromString_argument hip hp, addressFromString_argument hip hp,
    addressFromString_append hip hp newline_not_digit, addressFromString_append hip hp newline_not_digit⟩

theorem addressFromString_inverse_min :
    addressFromString (stringify "173.16.1.2" (-2147483648) ++ "\n") = .ok (some ("173.16.1.2", -2147483648)) :=
  (addressFromString_inverse ⟨by decide, by decide⟩ (by decide)).2.2.2

/-! ### The grammar -/

structure PortText (text : String) (port : Int) : Prop where
  ne_empty : text ≠ ""
  digits : ∀ c ∈ text.toList, c.isDigit = true
  value : (Nat.ofDigitChars 10 text.toList 0 : Int) = port
  le : port ≤ 65535

def AddressText (s : String) (addr : String × Int) : Prop :=
  ∃ text, Host addr.1 ∧ PortText text addr.2 ∧ s = addr.1 ++ ":" ++ text

/-- `address_from_string` returns an address for this text if and only if it is one, and NULL otherwise. -/
structure AcceptsExactly (s : String) : Prop where
  address : ∀ addr, addressFromString s = .ok (some addr) ↔ AddressText s addr
  null : (∀ addr, ¬ AddressText s addr) → addressFromString s = .ok none

section Grammar
variable {ip ip' text text' s : String}

theorem host_split_inj (hip : Host ip) (hip' : Host ip') (h : ip ++ ":" ++ text = ip' ++ ":" ++ text') :
    ip = ip' ∧ text = text' := by
  have hl := congrArg String.toList h
  rw [toList_colon, toList_colon] at hl
  have hfst := congrArg (List.takeWhile (decide <| · ≠ ':')) hl
  rw [CText.takeWhile_append_stop hip.before_colon (by simp),
    CText.takeWhile_append_stop hip'.before_colon (by simp)] at hfst
  obtain rfl := String.toList_injective hfst
  exact ⟨rfl, String.toList_injective (List.cons.inj (List.append_cancel_left hl)).2⟩

theorem addressFromString_eq_none_iff : addressFromString s = .ok none ↔
    ∀ ip text, Host ip → s = ip ++ ":" ++ text → text = "" := by
  constructor
  · rintro hnull ip text hip rfl
    by_contra hne
    rw [addressFromString_host hip, if_neg hne] at hnull
    cases hread : stoi text.toList <;> rw [hread] at hnull <;> cases hnull
  · intro h
    have hs := List.takeWhile_append_dropWhile (p := (decide <| · ≠ ':')) (l := s.toList)
    have hc := List.head?_dropWhile_not (decide <| · ≠ ':') s.toList
    rw [addressFromString]
    cases hdrop : s.toList.dropWhile (· ≠ ':') with
    | nil => rfl
    | cons c portStr =>
      rw [hdrop] at hs hc
      obtain rfl : c = ':' := by simpa using hc
      refine if_pos ?_
      by_contra hno
      rw [not_or] at hno
      have hip : Host (String.ofList (s.toList.takeWhile (· ≠ ':'))) := by
        refine ⟨fun he => hno.1 ?_, fun hmem => ?_⟩
        · simpa using congrArg String.toList he
        · rw [String.toList_ofList] at hmem
          simpa using List.mem_takeWhile_imp hmem
      have hnil := h _ (String.ofList portStr) hip (by
        apply String.toList_injective
        simpa [String.toList_append] using hs.symm)
      exact hno.2 (by simpa using congrArg String.toList hnil)

theorem PortText.stoi {port : Int} (h : PortText text port) : stoi text.toList = .ok port := by
  have hread := CText.stoi_digits (fun he => h.ne_empty (String.toList_eq_nil_iff.mp he)) h.digits
    ⟨by omega, by have := h.value; have := h.le; omega⟩
  rwa [h.value] at hread

theorem addressText_iff (hip : Host ip) {addr : String × Int} :
    AddressText (ip ++ ":" ++ text) addr ↔ addr.1 = ip ∧ PortText text addr.2 := by
  constructor
  · rintro ⟨text', hhost, hport, he⟩
    obtain ⟨rfl, rfl⟩ := host_split_inj hip hhost he
    exact ⟨rfl, hport⟩
  · rintro ⟨rfl, hport⟩
    exact ⟨text, hip, hport, rfl⟩

theorem AddressText.read {addr : String × Int} (h : AddressText s addr) : addressFromString s = .ok (some addr) := by
  obtain ⟨text, hip, hport, rfl⟩ := h
  rw [addressFromString_host hip, if_neg hport.ne_empty, hport.stoi]
  rfl

/-- The exceptions are the texts in which something else than a port stands behind the host and its colon. -/
theorem acceptsExactly_iff (s : String) : AcceptsExactly s ↔
    ∀ ip text, Host ip → text ≠ "" → s = ip ++ ":" ++ text → ∃ port, PortText text port := by
  constructor
  · rintro h ip text hip hne rfl
    by_contra hno
    have hnull := h.null fun addr haddr => hno ⟨addr.2, ((addressText_iff hip).mp haddr).2⟩
    exact hne (addressFromString_eq_none_iff.mp hnull ip text hip rfl)
  · intro h
    by_cases haddr : ∃ addr, AddressText s addr
    · obtain ⟨addr, haddr⟩ := haddr
      refine ⟨fun addr' => ⟨fun hread => ?_, AddressText.read⟩, fun hno => absurd haddr (hno addr)⟩
      rw [haddr.read] at hread
      obtain rfl := Option.some.inj (Except.ok.inj hread)
      exact haddr
    · have hnull : addressFromString s = .ok none := by
        refine addressFromString_eq_none_iff.mpr fun ip text hip he => ?_
        by_contra hne
        obtain ⟨port, hport⟩ := h ip text hip hne he
        exact haddr ⟨(ip, port), text, hip, hport, he⟩
      refine ⟨fun addr => ⟨fun hread => ?_, AddressText.read⟩, fun _ => hnull⟩
      rw [hnull] at hread
      cases hread

/-- A name instead of a port is not answered with NULL, and a number that is too large for a port is accepted. -/
theorem addressFromString_malformed :
    addressFromString "173.16.1.2:http" = .error .invalidArgument ∧ ¬ AcceptsExactly "173.16.1.2:http" ∧
    addressFromString "173.16.1.2:70000" = .ok (some ("173.16.1.2", 70000)) ∧ ¬ AcceptsExactly "173.16.1.2:70000" := by
  have hip : Host "173.16.1.2" := ⟨by decide, by decide⟩
  have hname : addressFromString ("173.16.1.2" ++ ":" ++ "http") = .error .invalidArgument := by decide
  have hlarge : addressFromString ("173.16.1.2" ++ ":" ++ "70000") = .ok (some ("173.16.1.2", 70000)) := by decide
  refine ⟨hname, fun h => ?_, hlarge, fun h => ?_⟩
  · have hnull := h.null fun addr (haddr : AddressText ("173.16.1.2" ++ ":" ++ "http") addr) =>
      absurd (((addressText_iff hip).mp haddr).2.digits 'h' (by decide)) (by decide)
    cases hname.symm.trans hnull
  · have haddr : AddressText ("173.16.1.2" ++ ":" ++ "70000") ("173.16.1.2", 70000) := (h.address _).mp hlarge
    exact absurd ((addressText_iff hip).mp haddr).2.le (by decide)

end Grammar

/-! ### The arguments of the network functions -/

/-- One step of the loop over the arguments: a text that is no address is left out. -/
def addAddress (addresses : List (String × Int)) (arg : String) : Except TextError (List (String × Int)) := do
  match ← addressFromString arg with
  | none => return addresses
  | some addr => return addresses ++ [addr]

def argument (argv : List String) (i : Nat) : Except TextError String :=
  match argv[i]? with
  | none => .error .nullPointer
  | some arg => .ok arg

/-- `bind_port`, `new_msg` and `addresses` of the compressor. -/
def compressorArguments (argv : List String) : Except TextError (Int × String × List (String × Int)) := do
  let bindPort ← stoi (← argument argv 1).toList
  let newMsg ← argument argv 2
  let addresses ← (argv.drop 2).foldlM addAddress []
  return (bindPort, newMsg, addresses)

/-- `bind_port`, `server_ip`, `server_port` and `addresses` of the proxy. -/
def proxyArguments (argv : List String) : Except TextError (Int × String × Int × List (String × Int)) := do
  let bindPort ← stoi (← argument argv 1).toList
  let serverIp ← argument argv 2
  let serverPort ← stoi (← argument argv 3).toList
  let addresses ← (argv.drop 4).foldlM addAddress []
  return (bindPort, serverIp, serverPort, addresses)

section Arguments
variable {args : List String} {dests : List (String × Int)}
  (hargs : List.Forall₂ (fun arg addr => addressFromString arg = .ok (some addr)) args dests)
include hargs

theorem foldlM_addAddress (addresses : List (String × Int)) :
    args.foldlM addAddress addresses = .ok (addresses ++ dests) := by
  induction hargs generalizing addresses with
  | nil => rw [List.append_nil]; rfl
  | @cons arg addr args dests harg _ ih =>
    have hstep : addAddress addresses arg = .ok (addresses ++ [addr]) := by rw [addAddress, harg]; rfl
    rw [List.foldlM_cons, hstep]
    exact (ih _).trans (by rw [List.append_assoc]; rfl)

theorem proxyArguments_ok {bindText portText : String} {bindPort serverPort : Int}
    (hbind : stoi bindText.toList = .ok bindPort) (hport : stoi portText.toList = .ok serverPort)
    (program serverIp : String) : proxyArguments (program :: bindText :: serverIp :: portText :: args) =
      .ok (bindPort, serverIp, serverPort, dests) := by
  show (stoi bindText.toList >>= fun bindPort => stoi portText.toList >>= fun serverPort =>
    args.foldlM addAddress [] >>= fun addresses => pure (bindPort, serverIp, serverPort, addresses)) = _
  rw [hbind, hport, foldlM_addAddress hargs]
  rfl

/-- The compressor reads its message like an address. The destinations come out right if and only if nothing but a
host and a colon is in the message, or no host, or no colon. -/
theorem compressorArguments_iff {bindText : String} {bindPort : Int} (hbind : stoi bindText.toList = .ok bindPort)
    (program message : String) :
    compressorArguments (program :: bindText :: message :: args) = .ok (bindPort, message, dests) ↔
      ∀ ip text, Host ip → message = ip ++ ":" ++ text → text = "" := by
  have hmain : compressorArguments (program :: bindText :: message :: args) =
      addAddress [] message >>= fun addresses => .ok (bindPort, message, addresses ++ dests) := by
    show (stoi bindText.toList >>= fun bindPort => (message :: args).foldlM addAddress [] >>= fun addresses =>
      pure (bindPort, message, addresses)) = _
    rw [hbind, List.foldlM_cons]
    show ((addAddress [] message >>= fun addresses => args.foldlM addAddress addresses) >>= _) = _
    simp only [foldlM_addAddress hargs]
    cases addAddress [] message <;> rfl
  rw [← addressFromString_eq_none_iff, hmain, addAddress]
  cases addressFromString message with
  | error e => exact ⟨(nomatch ·), (nomatch ·)⟩
  | ok addr =>
    cases addr with
    | none => exact ⟨fun _ => rfl, fun _ => rfl⟩
    | some addr =>
      refine ⟨fun h => ?_, fun h => nomatch h⟩
      have hlen : addr :: dests = dests := (Prod.mk.inj (Prod.mk.inj (Except.ok.inj h)).2).2
      exact absurd hlen (List.cons_ne_self addr dests)

end Arguments

/-- A colon at the end of the message does no harm. -/
theorem compressorArguments_plain : compressorArguments ["compressor", "8000", "status:", "173.16.1.3:8000"] =
    .ok (8000, "status:", [("173.16.1.3", 8000)]) := by
  have hnull : addressFromString "status:" = .ok none := by decide
  exact (compressorArguments_iff (.cons (by decide) .nil) (by decide) "compressor" "status:").mpr
    (addressFromString_eq_none_iff.mp hnull)

/-- One message is a destination more, the other one is the end of the compressor. -/
theorem compressorArguments_message :
    compressorArguments ["compressor", "8000", "status:80", "173.16.1.3:8000"] =
      .ok (8000, "status:80", [("status", 80), ("173.16.1.3", 8000)]) ∧
    compressorArguments ["compressor", "8000", "status:ok", "173.16.1.3:8000"] = .error .invalidArgument := by
  decide

end DeepNF
