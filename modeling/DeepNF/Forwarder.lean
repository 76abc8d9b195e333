import DeepNF.CText
import DeepNF.FlowRules

/-!
# Addresses as text (`src/runtime/address_util.cpp`, `src/runtime/forwarder`)

The network functions and the forwarder get their addresses as `ip:port`. The forwarder reads a file with
one line `port;ip:port` for each container of its machine.
-/

namespace DeepNF
open CText (IsInt TextError stoi atoi strtok getlines)

/-- `none` for a text that is not of the form `ip:port`. -/
def addressFromString (str : String) : Except TextError (Option (String × Int)) :=
  let ip := str.toList.takeWhile (· ≠ ':')
  match str.toList.dropWhile (· ≠ ':') with
  | [] => .ok none
  | _ :: portStr =>
    if ip = [] ∨ portStr = [] then .ok none
    else do
      let port ← stoi portStr
      return some (String.ofList ip, port)

/-- `real_port` and `virtual_addr` of one thread of the forwarder. -/
def forwarderLine (line : List Char) : Except TextError (Int × Option (String × Int)) := do
  let (token, rest) ← strtok ';' line
  let realPort ← stoi token
  let (token, _) ← strtok ';' rest
  let virtualAddr ← addressFromString (String.ofList token)
  return (realPort, virtualAddr)

def forwarderTable (txt : String) : Except TextError (List (Int × Option (String × Int))) :=
  (getlines txt.toList).mapM forwarderLine

/-- What `make_flow_rules` appends to `forwarder.txt` for a node of its machine. -/
def FlowConfig.forwarderEntry (conf : FlowConfig) (node : RuntimeNode) : String :=
  toString (8000 - node.id - 1) ++ ";" ++ conf.nodeidToNetwork.getD node.id "" ++ ":" ++ toString (8000 : Int)

/-- `forwarder.txt` after `make_flow_rules`, which starts from an empty file. -/
def forwarderTxt (conf : FlowConfig) (nodes : List RuntimeNode) : String :=
  nodes.foldl (fun txt node => txt ++ (conf.forwarderEntry node ++ "\n")) ""

def Command.arguments (cmd : Command) : List String :=
  cmd.destinations.map fun d => d.1 ++ ":" ++ toString d.2

/-- The port that a network function binds when it is started with these arguments; the packet generator
binds none. -/
def boundPort (nf : NF) (program : List String) : Except TextError (Option Int) :=
  match nf with
  | .dnfFirewall | .dnfLoadbalancer => .ok (some (atoi (program.getD 1 "").toList))
  | .proxy | .compressor => (stoi (program.getD 1 "").toList).map some
  | .pktgen => .ok none

/-! ### What is printed is read back -/

/-- An address without a colon of its own. -/
structure Host (ip : String) : Prop where
  ne_empty : ip ≠ ""
  no_colon : ':' ∉ ip.toList

theorem toList_colon (ip portStr : String) : (ip ++ ":" ++ portStr).toList = ip.toList ++ ':' :: portStr.toList := by
  simp [String.toList_append]

theorem Host.before_colon {ip : String} (hip : Host ip) : ∀ c ∈ ip.toList, decide (c ≠ ':') = true :=
  fun _ hc => decide_eq_true fun h => hip.no_colon (h ▸ hc)

theorem addressFromString_host {ip : String} (hip : Host ip) (portStr : String) :
    addressFromString (ip ++ ":" ++ portStr) =
      if portStr = "" then .ok none else (stoi portStr.toList).map fun port => some (ip, port) := by
  have hne : ip.toList ≠ [] := fun h => hip.ne_empty (String.toList_eq_nil_iff.mp h)
  rw [addressFromString, toList_colon, CText.takeWhile_append_stop hip.before_colon (by simp),
    CText.dropWhile_append_stop hip.before_colon (by simp)]
  show (if ip.toList = [] ∨ portStr.toList = [] then _ else _) = _
  by_cases h : portStr = ""
  · rw [if_pos (.inr (String.toList_eq_nil_iff.mpr h)), if_pos h]
  · rw [if_neg (not_or.mpr ⟨hne, fun he => h (String.toList_eq_nil_iff.mp he)⟩), if_neg h, String.ofList_toList]
    cases stoi portStr.toList <;> rfl

theorem addressFromString_append {ip : String} (hip : Host ip) {port : Int} (hp : IsInt port) {rest : String}
    (hr : ∀ c ∈ rest.toList.head?, c.isDigit = false) :
    addressFromString (ip ++ ":" ++ toString port ++ rest) = .ok (some (ip, port)) := by
  have hne : toString port ++ rest ≠ "" := fun h => by
    have hl := congrArg String.toList h
    rw [String.toList_append] at hl
    exact CText.toString_ne_nil port (List.append_eq_nil_iff.mp hl).1
  rw [String.append_assoc, addressFromString_host hip, if_neg hne, String.toList_append, CText.stoi_toString hp hr]
  rfl

theorem newline_not_digit : ∀ c ∈ "\n".toList.head?, c.isDigit = false := by
  rw [show "\n".toList = ['\n'] from rfl]
  simp

theorem addressFromString_argument {ip : String} (hip : Host ip) {port : Int} (hp : IsInt port) :
    addressFromString (ip ++ ":" ++ toString port) = .ok (some (ip, port)) := by
  have h : addressFromString (ip ++ ":" ++ toString port ++ "") = .ok (some (ip, port)) :=
    addressFromString_append hip hp (by simp)
  rwa [String.append_empty] at h

theorem boundPort_program {conf : FlowConfig} {nf : NF} (hpk : nf ≠ .pktgen) {port : Int} (hp : IsInt port) :
    boundPort nf (conf.program port nf) = .ok (some port) := by
  have hstoi := CText.stoi_toString_last hp
  have hatoi : atoi (toString port).toList = port := CText.atoi_of_stoi hstoi
  cases nf with
  | pktgen => exact absurd rfl hpk
  | dnfFirewall => exact congrArg (fun p => Except.ok (some p)) hatoi
  | dnfLoadbalancer => exact congrArg (fun p => Except.ok (some p)) hatoi
  | proxy => exact congrArg (Except.map some) hstoi
  | compressor => exact congrArg (Except.map some) hstoi

section Table
variable {conf : FlowConfig} {node : RuntimeNode}

/-- The container addresses are written without the separators of the file. -/
structure Plain (ip : String) : Prop extends Host ip where
  no_semicolon : ';' ∉ ip.toList
  no_newline : '\n' ∉ ip.toList

theorem strtok_entry (hip : Plain (conf.nodeidToNetwork.getD node.id "")) :
    strtok ';' ((conf.forwarderEntry node).toList ++ ['\n']) = .ok ((toString (8000 - node.id - 1)).toList,
      (conf.nodeidToNetwork.getD node.id "" ++ ":" ++ toString (8000 : Int) ++ "\n").toList) ∧
    strtok ';' (conf.nodeidToNetwork.getD node.id "" ++ ":" ++ toString (8000 : Int) ++ "\n").toList =
      .ok ((conf.nodeidToNetwork.getD node.id "" ++ ":" ++ toString (8000 : Int) ++ "\n").toList, []) := by
  rw [FlowConfig.forwarderEntry]
  generalize conf.nodeidToNetwork.getD node.id "" = ip, 8000 - node.id - 1 = i at hip
  have hline : (toString i ++ ";" ++ ip ++ ":" ++ toString (8000 : Int)).toList ++ ['\n'] =
      (toString i).toList ++ ';' :: (ip ++ ":" ++ toString (8000 : Int) ++ "\n").toList := by
    simp [String.toList_append]
  have haddr : ';' ∉ (ip ++ ":" ++ toString (8000 : Int) ++ "\n").toList := by
    simp only [String.toList_append, List.mem_append, not_or]
    exact ⟨⟨⟨hip.no_semicolon, by decide⟩, CText.notMem_toString (by decide) (by decide)⟩, by decide⟩
  have hne : (ip ++ ":" ++ toString (8000 : Int) ++ "\n").toList ≠ [] := by
    simp [String.toList_append]
  refine ⟨?_, CText.strtok_last hne haddr⟩
  rw [hline]
  exact CText.strtok_append (CText.toString_ne_nil i) (CText.notMem_toString (by decide) (by decide)) (by simp)

theorem forwarderLine_entry (hip : Plain (conf.nodeidToNetwork.getD node.id ""))
    (hp : IsInt (8000 - node.id - 1)) :
    forwarderLine ((conf.forwarderEntry node).toList ++ ['\n']) =
      .ok (8000 - node.id - 1, some (conf.nodeidToNetwork.getD node.id "", 8000)) := by
  obtain ⟨hfst, hsnd⟩ := strtok_entry hip
  have hport := CText.stoi_toString_last hp
  rw [forwarderLine, hfst]
  simp only [bind, Except.bind, pure, Except.pure, hport, hsnd, String.ofList_toList]
  rw [addressFromString_append hip.toHost (by decide) newline_not_digit]

theorem toList_forwarderTxt (nodes : List RuntimeNode) : (forwarderTxt conf nodes).toList =
    nodes.flatMap fun node => (conf.forwarderEntry node).toList ++ ['\n'] := by
  have key : ∀ (l : List RuntimeNode) (txt : String),
      (l.foldl (fun txt node => txt ++ (conf.forwarderEntry node ++ "\n")) txt).toList =
        txt.toList ++ l.flatMap fun node => (conf.forwarderEntry node).toList ++ ['\n'] := by
    intro l
    induction l with
    | nil => simp
    | cons node l ih => intro txt; rw [List.foldl_cons, ih]; simp [String.toList_append]
  rw [forwarderTxt, key]
  rfl

theorem newline_notMem_entry (hip : '\n' ∉ (conf.nodeidToNetwork.getD node.id "").toList) :
    '\n' ∉ (conf.forwarderEntry node).toList := by
  simp only [FlowConfig.forwarderEntry, String.toList_append, List.mem_append, not_or]
  exact ⟨⟨⟨⟨CText.notMem_toString (by decide) (by decide), by decide⟩, hip⟩, by decide⟩,
    CText.notMem_toString (by decide) (by decide)⟩

theorem getlines_forwarderTxt {nodes : List RuntimeNode}
    (hip : ∀ node ∈ nodes, Plain (conf.nodeidToNetwork.getD node.id "")) :
    getlines (forwarderTxt conf nodes).toList = nodes.map fun node => (conf.forwarderEntry node).toList ++ ['\n'] := by
  rw [toList_forwarderTxt]
  induction nodes with
  | nil => rfl
  | cons node nodes ih =>
    rw [List.flatMap_cons, List.append_assoc, List.singleton_append,
      CText.getlines_append (newline_notMem_entry (hip node (List.mem_cons_self ..)).no_newline),
      ih fun x hx => hip x (List.mem_cons_of_mem _ hx)]
    rfl

/-- The forwarder gets one thread for each node, in their order. -/
theorem forwarderTable_txt {nodes : List RuntimeNode}
    (hip : ∀ node ∈ nodes, Plain (conf.nodeidToNetwork.getD node.id ""))
    (hp : ∀ node ∈ nodes, IsInt (8000 - node.id - 1)) :
    forwarderTable (forwarderTxt conf nodes) = .ok (nodes.map fun node =>
      (8000 - node.id - 1, some (conf.nodeidToNetwork.getD node.id "", 8000))) := by
  rw [forwarderTable, getlines_forwarderTxt hip]
  refine Rounds.mapM_of_forall₂ ?_
  rw [List.forall₂_map_left_iff, List.forall₂_map_right_iff, List.forall₂_same]
  exact fun node hn => forwarderLine_entry (hip node hn) (hp node hn)

end Table

end DeepNF
