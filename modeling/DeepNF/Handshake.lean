import DeepNF.ConfigTransfer
import Mathlib.Logic.Function.Basic

/-!
# Handing out the configurations (`Orchestrator::setup_containers`, `get_machine_configurator`)

The orchestrator goes from machine to machine: it writes the configuration and reads an answer until `recvline` is
`ACK`. A machine reads once, answers and closes. What has been written comes in pieces of any length, and the steps of
the machines come in any order. `exec_safe`: a machine only ever has the beginning of its own configuration, those in
front of the orchestrator have one and those behind it have heard nothing. `through_iff`: the orchestrator can get
through to the end as long as no answer has come in pieces, and then never again, because the rest of an answer is read
over its start.
-/

namespace DeepNF.Handshake

/-- `get_machine_configurator` before and after its `read`, and when it has closed the connection. -/
inductive Listener
  | waiting
  | answered (buffer : List UInt8)
  | closed (buffer : List UInt8)
deriving DecidableEq

def Listener.buffer? : Listener → Option (List UInt8)
  | .waiting => none
  | .answered buffer | .closed buffer => some buffer

def Listener.isClosed : Listener → Bool
  | .closed _ => true
  | _ => false

/-- What is on its way, and in which pieces the orchestrator has read the answer. -/
structure Connection where
  toMachine : List UInt8 := []
  toOrchestrator : List UInt8 := []
  machine : Listener := .waiting
  pieces : List (List UInt8) := []

structure State where
  current : Nat := 0
  reading : Bool := false
  recvline : List UInt8 := List.replicate 100 0
  conn : Nat → Connection := fun _ => {}

def ack : List UInt8 := [65, 67, 75]

/-- What `strcmp` sees of an array. -/
def cString (array : List UInt8) : List UInt8 := array.takeWhile (· ≠ 0)

/-- A read returns `k` bytes. -/
inductive Action
  | write
  | read (k : Nat)
  | receive (machine k : Nat)
  | close (machine : Nat)

def State.setConn (s : State) (i : Nat) (c : Connection) : State := { s with conn := Function.update s.conn i c }

/-- At the end of the stream a read returns 0 bytes. -/
def Connection.Returns (c : Connection) (k : Nat) : Prop :=
  0 < k ∧ k ≤ 100 ∧ k ≤ c.toOrchestrator.length ∨ k = 0 ∧ c.toOrchestrator = [] ∧ c.machine.isClosed = true

instance (c : Connection) (k : Nat) : Decidable (c.Returns k) := inferInstanceAs (Decidable (_ ∨ _))

section
variable (configs : List (List UInt8)) (memory : Nat → Nat → UInt8)

/-- `write`. When the machine has closed its end, a signal may end the orchestrator instead: its run stops there. -/
def write (s : State) : Option State :=
  match configs[s.current]? with
  | none => none
  | some serializedConfig =>
    let c := s.conn s.current
    if s.reading then none
    else some { s.setConn s.current { c with
      toMachine := c.toMachine ++ sentConfig (memory s.current) serializedConfig } with reading := true }

/-- `read`, and what comes of it: the next machine has a `recvline` of its own. -/
def read (s : State) (k : Nat) : Option State :=
  let c := s.conn s.current
  if s.reading ∧ c.Returns k then
    let recvline := overwrite (c.toOrchestrator.take k) s.recvline
    let s' := { s.setConn s.current { c with
      toOrchestrator := c.toOrchestrator.drop k
      pieces := c.pieces ++ [c.toOrchestrator.take k] } with reading := false, recvline }
    if cString recvline = ack then some { s' with current := s.current + 1, recvline := List.replicate 100 0 }
    else some s'
  else none

def receive (s : State) (i k : Nat) : Option State :=
  let c := s.conn i
  if c.machine = .waiting ∧ 0 < k ∧ k ≤ 1000 ∧ k ≤ c.toMachine.length then
    some (s.setConn i { c with
      toMachine := c.toMachine.drop k
      toOrchestrator := c.toOrchestrator ++ ack
      machine := .answered (receivedConfig (c.toMachine.take k)) })
  else none

def close (s : State) (i : Nat) : Option State :=
  match (s.conn i).machine with
  | .answered buffer => some (s.setConn i { s.conn i with machine := .closed buffer })
  | _ => none

/-- `configs` are those of the machines in the order of their addresses, `memory j` is what lies behind the array for
machine `j`. -/
def step (s : State) : Action → Option State
  | .write => write configs memory s
  | .read k => read s k
  | .receive i k => receive s i k
  | .close i => close s i

def exec (acts : List Action) : Option State := acts.foldlM (step configs memory) {}

/-- `buffer` holds the beginning of what the orchestrator writes to machine `j`, at least one byte of it. -/
def Beginning (j : Nat) (buffer : List UInt8) : Prop :=
  ∃ config k, configs[j]? = some config ∧ 0 < k ∧ k ≤ config.length + 1 ∧
    buffer = receivedConfig ((sentConfig (memory j) config).take k)

/-- Where the orchestrator is with the machine at hand. -/
inductive Phase (s : State) : Prop
  | fresh (le : s.current ≤ configs.length) (conn : s.conn s.current = {}) (reading : s.reading = false)
      (recvline : s.recvline = List.replicate 100 0)
  | sent {config : List UInt8} (config_eq : configs[s.current]? = some config)
      (conn : s.conn s.current = { toMachine := sentConfig (memory s.current) config })
      (reading : s.reading = true) (recvline : s.recvline = List.replicate 100 0)
  | answered (lt : s.current < configs.length) (machine : (s.conn s.current).machine.buffer?.isSome)
      (toOrchestrator : (s.conn s.current).toOrchestrator = ack) (pieces : (s.conn s.current).pieces = [])
      (reading : s.reading = true) (recvline : s.recvline = List.replicate 100 0)
  /-- The answer has come in pieces: its first letter is gone. -/
  | stuck (lt : s.current < configs.length) (machine : (s.conn s.current).machine.buffer?.isSome)
      {piece : List UInt8} (head : (s.conn s.current).pieces.head? = some piece) (ne : piece ≠ ack)
      (recvline : cString s.recvline ≠ ack) (toOrchestrator : 65 ∉ (s.conn s.current).toOrchestrator)

structure Inv (s : State) : Prop where
  passed : ∀ j < s.current, (s.conn j).pieces = [ack] ∧ (s.conn j).machine.buffer?.isSome
  ahead : ∀ j, s.current < j → s.conn j = {}
  configured : ∀ j buffer, (s.conn j).machine.buffer? = some buffer → Beginning configs memory j buffer
  phase : Phase configs memory s

end

section
variable {configs : List (List UInt8)} {memory : Nat → Nat → UInt8} {s s' : State} {acts acts' : List Action}
  {a : Action} {i j k : Nat}

/-! ### One step -/

theorem inv_start : Inv configs memory {} where
  passed j hj := absurd hj (Nat.not_lt_zero j)
  ahead _ _ := rfl
  configured j buffer h := by cases h
  phase := .fresh (Nat.zero_le _) rfl rfl rfl

theorem write_cases (h : write configs memory s = some s') : ∃ config, configs[s.current]? = some config ∧
    s.reading = false ∧
    s' = { s.setConn s.current { s.conn s.current with
      toMachine := (s.conn s.current).toMachine ++ sentConfig (memory s.current) config } with reading := true } := by
  unfold write at h
  split at h
  · cases h
  · rename_i config hconfig
    dsimp only at h
    split at h
    · cases h
    · rename_i hreading
      exact ⟨config, hconfig, Bool.not_eq_true _ ▸ hreading, (Option.some.inj h).symm⟩

theorem receive_cases (h : receive s i k = some s') : (s.conn i).machine = .waiting ∧ 0 < k ∧ k ≤ 1000 ∧
    k ≤ (s.conn i).toMachine.length ∧
    s' = s.setConn i { s.conn i with
      toMachine := (s.conn i).toMachine.drop k
      toOrchestrator := (s.conn i).toOrchestrator ++ ack
      machine := .answered (receivedConfig ((s.conn i).toMachine.take k)) } := by
  unfold receive at h
  dsimp only at h
  split at h
  · rename_i hcond
    exact ⟨hcond.1, hcond.2.1, hcond.2.2.1, hcond.2.2.2, (Option.some.inj h).symm⟩
  · cases h

theorem close_cases (h : close s i = some s') : ∃ buffer, (s.conn i).machine = .answered buffer ∧
    s' = s.setConn i { s.conn i with machine := .closed buffer } := by
  unfold close at h
  split at h
  · rename_i buffer hm
    exact ⟨buffer, hm, (Option.some.inj h).symm⟩
  · cases h

theorem read_cases (h : read s k = some s') : s.reading = true ∧ (s.conn s.current).Returns k ∧
    ∃ conn, conn = Function.update s.conn s.current { s.conn s.current with
        toOrchestrator := (s.conn s.current).toOrchestrator.drop k
        pieces := (s.conn s.current).pieces ++ [(s.conn s.current).toOrchestrator.take k] } ∧
      (cString (overwrite ((s.conn s.current).toOrchestrator.take k) s.recvline) = ack ∧
          s' = { current := s.current + 1, reading := false, recvline := List.replicate 100 0, conn } ∨
        cString (overwrite ((s.conn s.current).toOrchestrator.take k) s.recvline) ≠ ack ∧
          s' = { current := s.current, reading := false, conn
                 recvline := overwrite ((s.conn s.current).toOrchestrator.take k) s.recvline }) := by
  unfold read at h
  dsimp only at h
  split at h
  · rename_i hcond
    refine ⟨hcond.1, hcond.2, _, rfl, ?_⟩
    split at h
    · exact .inl ⟨‹_›, (Option.some.inj h).symm⟩
    · exact .inr ⟨‹_›, (Option.some.inj h).symm⟩
  · cases h

/-! ### The answer -/

theorem cString_overwrite_ne {bytes line : List UInt8} (hbytes : 65 ∉ bytes) (hline : cString line ≠ ack) :
    cString (overwrite bytes line) ≠ ack := by
  cases bytes with
  | nil => exact hline
  | cons b bytes =>
    intro h
    have hb : b ≠ 65 := fun he => hbytes (he ▸ List.mem_cons_self ..)
    rw [cString, overwrite, List.cons_append, List.takeWhile_cons] at h
    split at h
    · exact hb (List.cons.inj h).1
    · cases h

/-- The answer is complete if and only if it has come as a whole. -/
theorem cString_ack {k : Nat} (hk : 0 < k) (hle : k ≤ ack.length) :
    cString (overwrite (ack.take k) (List.replicate 100 0)) = ack ↔ k = 3 := by
  have hle : k ≤ 3 := hle
  obtain rfl | rfl | rfl : k = 1 ∨ k = 2 ∨ k = 3 := by omega
  all_goals decide

/-! ### Every step keeps the invariant -/

theorem Inv.at_current (hi : Inv configs memory s) (hcurrent : s'.current = s.current)
    (hother : ∀ j, j ≠ s.current → s'.conn j = s.conn j)
    (hconfigured : ∀ buffer, (s'.conn s.current).machine.buffer? = some buffer →
      Beginning configs memory s.current buffer)
    (hphase : Phase configs memory s') : Inv configs memory s' where
  passed j hj := by
    rw [hcurrent] at hj
    rw [hother j (Nat.ne_of_lt hj)]
    exact hi.passed j hj
  ahead j hj := by
    rw [hcurrent] at hj
    rw [hother j (Nat.ne_of_gt hj)]
    exact hi.ahead j hj
  configured j buffer hb := by
    by_cases hj : j = s.current
    · subst hj
      exact hconfigured buffer hb
    · rw [hother j hj] at hb
      exact hi.configured j buffer hb
  phase := hphase

theorem Inv.write (hi : Inv configs memory s) (h : write configs memory s = some s') : Inv configs memory s' := by
  obtain ⟨config, hconfig, hreading, rfl⟩ := write_cases h
  refine hi.at_current rfl (fun j hj => Function.update_of_ne hj ..) (fun buffer hb => ?_) ?_
  · dsimp only [State.setConn] at hb
    rw [Function.update_self] at hb
    exact hi.configured _ _ hb
  · cases hi.phase with
    | fresh _ hconn _ hline =>
      refine .sent hconfig ?_ rfl hline
      dsimp only [State.setConn]
      rw [Function.update_self, hconn]
      rfl
    | sent _ _ hr _ => cases hreading.symm.trans hr
    | answered _ _ _ _ hr _ => cases hreading.symm.trans hr
    | stuck hlt hm hhead hne' hline hto =>
      refine .stuck hlt ?_ ?_ hne' hline ?_ <;> dsimp only [State.setConn] <;> rw [Function.update_self] <;> assumption

theorem Inv.read (hi : Inv configs memory s) (h : read s k = some s') : Inv configs memory s' := by
  obtain ⟨hreading, hreturns, conn, hconn, hs'⟩ := read_cases h
  have hother : ∀ j, j ≠ s.current → conn j = s.conn j := fun j hj => by rw [hconn, Function.update_of_ne hj]
  have hself := congrFun hconn s.current
  rw [Function.update_self] at hself
  have hconfigured : ∀ buffer, (conn s.current).machine.buffer? = some buffer →
      Beginning configs memory s.current buffer := fun buffer hb => hi.configured _ _ (by rwa [hself] at hb)
  cases hi.phase with
  | fresh _ _ hr _ => cases hreading.symm.trans hr
  | sent _ hc _ _ =>
    -- nothing has come, and the machine has not closed
    rw [hc] at hreturns
    rcases hreturns with ⟨hk, -, hle⟩ | ⟨-, -, hclosed⟩
    · exact absurd hk (Nat.not_lt.mpr hle)
    · cases hclosed
  | answered hlt hm hto hpieces _ hline =>
    have hk : 0 < k ∧ k ≤ ack.length := by
      rcases hreturns with ⟨hk, -, hle⟩ | ⟨-, hnil, -⟩
      · exact ⟨hk, hto ▸ hle⟩
      · cases hnil.symm.trans hto
    rw [hto, hpieces] at hself
    rw [hto, hline, Ne, cString_ack hk.1 hk.2] at hs'
    rcases hs' with ⟨rfl, rfl⟩ | ⟨hk3, rfl⟩
    · refine ⟨fun j hj => ?_, fun j hj => ?_, fun j buffer hb => ?_, .fresh hlt ?_ rfl rfl⟩
      · dsimp only at hj ⊢
        by_cases hjc : j = s.current
        · rw [hjc, hself]
          exact ⟨rfl, hm⟩
        · rw [hother j hjc]
          exact hi.passed j (by omega)
      · dsimp only at hj ⊢
        rw [hother j (by omega)]
        exact hi.ahead j (by omega)
      · by_cases hjc : j = s.current
        · subst hjc
          exact hconfigured buffer hb
        · exact hi.configured j buffer (by rwa [← hother j hjc])
      · exact (hother _ (Nat.succ_ne_self _)).trans (hi.ahead _ (Nat.lt_succ_self _))
    · have hpiece : ack.take k ≠ ack ∧ 65 ∉ ack.drop k ∧
          cString (overwrite (ack.take k) (List.replicate 100 0)) ≠ ack := by
        have hle : k ≤ 3 := hk.2
        obtain rfl | rfl : k = 1 ∨ k = 2 := by omega
        all_goals decide
      refine hi.at_current rfl hother hconfigured (.stuck hlt ?_ ?_ hpiece.1 hpiece.2.2 ?_) <;> dsimp only <;>
        rw [hself]
      · exact hm
      · rfl
      · exact hpiece.2.1
  | stuck hlt hm hhead hnotack hline hto =>
    have htake : 65 ∉ (s.conn s.current).toOrchestrator.take k := fun h => hto (List.mem_of_mem_take h)
    have hnot := cString_overwrite_ne htake hline
    obtain ⟨-, rfl⟩ := hs'.resolve_left fun h => hnot h.1
    refine hi.at_current rfl hother hconfigured (.stuck hlt ?_ ?_ hnotack hnot ?_) <;> dsimp only <;> rw [hself]
    · exact hm
    · rw [List.head?_append, hhead, Option.some_or]
    · exact fun h => hto (List.mem_of_mem_drop h)

theorem Inv.receive (hi : Inv configs memory s) (h : receive s i k = some s') : Inv configs memory s' := by
  obtain ⟨hwaiting, hk, hk', hle, rfl⟩ := receive_cases h
  have hnone : (s.conn i).machine.buffer? = none := by rw [hwaiting]; rfl
  -- it is the machine at hand, which has been sent its configuration
  obtain rfl : i = s.current := by
    rcases Nat.lt_trichotomy i s.current with hlt | heq | hgt
    · have hsome := (hi.passed i hlt).2
      rw [hnone] at hsome
      cases hsome
    · exact heq
    · rw [hi.ahead i hgt] at hle
      exact absurd hk (Nat.not_lt.mpr hle)
  cases hi.phase with
  | fresh _ hconn _ _ =>
    rw [hconn] at hle
    exact absurd hk (Nat.not_lt.mpr hle)
  | answered _ hm _ _ _ _ =>
    rw [hnone] at hm
    cases hm
  | stuck _ hm _ _ _ _ =>
    rw [hnone] at hm
    cases hm
  | @sent config hconfig hconn hreading hline =>
    rw [hconn] at hle ⊢
    refine hi.at_current rfl (fun j hj => Function.update_of_ne hj ..) (fun buffer hb => ?_) ?_
    · dsimp only [State.setConn] at hb
      rw [Function.update_self] at hb
      obtain rfl := Option.some.inj hb
      refine ⟨config, k, hconfig, hk, ?_, rfl⟩
      dsimp only at hle
      rwa [sentConfig_eq, List.length_append] at hle
    · have hlt := (List.getElem?_eq_some_iff.mp hconfig).1
      refine .answered hlt ?_ ?_ ?_ hreading hline <;> dsimp only [State.setConn] <;> rw [Function.update_self] <;> rfl

theorem Inv.close (hi : Inv configs memory s) (h : close s i = some s') : Inv configs memory s' := by
  obtain ⟨buffer, hanswered, rfl⟩ := close_cases h
  -- a connection has what it had
  have hsame : ∀ j, (Function.update s.conn i { s.conn i with machine := .closed buffer } j).machine.buffer? =
      (s.conn j).machine.buffer? ∧
      (Function.update s.conn i { s.conn i with machine := .closed buffer } j).toOrchestrator =
        (s.conn j).toOrchestrator ∧
      (Function.update s.conn i { s.conn i with machine := .closed buffer } j).pieces = (s.conn j).pieces ∧
      ((s.conn j).machine = .waiting →
        Function.update s.conn i { s.conn i with machine := .closed buffer } j = s.conn j) := by
    intro j
    by_cases hj : j = i
    · subst hj
      rw [Function.update_self, hanswered]
      exact ⟨rfl, rfl, rfl, nofun⟩
    · rw [Function.update_of_ne hj]
      exact ⟨rfl, rfl, rfl, fun _ => rfl⟩
  refine ⟨fun j hj => ?_, fun j hj => ?_, fun j b hb => ?_, ?_⟩
  · obtain ⟨hb, -, hp, -⟩ := hsame j
    dsimp only [State.setConn] at hj ⊢
    rw [hb, hp]
    exact hi.passed j hj
  · obtain ⟨-, -, -, hw⟩ := hsame j
    have hfresh := hi.ahead j hj
    exact (hw (by rw [hfresh])).trans hfresh
  · obtain ⟨hb', -, -, -⟩ := hsame j
    dsimp only [State.setConn] at hb
    exact hi.configured j b (hb' ▸ hb)
  · obtain ⟨hb, ho, hp, hw⟩ := hsame s.current
    cases hi.phase with
    | fresh hle hconn hreading hline => exact .fresh hle ((hw (by rw [hconn])).trans hconn) hreading hline
    | sent hconfig hconn hreading hline => exact .sent hconfig ((hw (by rw [hconn])).trans hconn) hreading hline
    | answered hlt hm hto hpieces hreading hline =>
      exact .answered hlt (by rw [← hb] at hm; exact hm) (ho.trans hto) (hp.trans hpieces) hreading hline
    | stuck hlt hm hhead hne hline hto =>
      exact .stuck hlt (by rw [← hb] at hm; exact hm) (by rw [← hp] at hhead; exact hhead) hne hline
        (by rw [← ho] at hto; exact hto)

theorem Inv.step (hi : Inv configs memory s) (h : step configs memory s a = some s') : Inv configs memory s' := by
  cases a with
  | write => exact hi.write h
  | read k => exact hi.read h
  | receive i k => exact hi.receive h
  | close i => exact hi.close h

/-! ### Every run -/

theorem exec_append : exec configs memory (acts ++ acts') =
    (exec configs memory acts).bind fun s => acts'.foldlM (step configs memory) s := by
  rw [exec, List.foldlM_append]
  rfl

theorem exec_inv (h : exec configs memory acts = some s) : Inv configs memory s := by
  induction acts using List.reverseRecOn generalizing s with
  | nil =>
    cases h
    exact inv_start
  | append_singleton acts a ih =>
    rw [exec_append] at h
    obtain ⟨s₁, h₁, hs⟩ := Option.bind_eq_some_iff.mp h
    simp only [List.foldlM_cons, List.foldlM_nil, bind_pure] at hs
    exact (ih h₁).step hs

theorem Inv.lt_iff (hi : Inv configs memory s) : j < s.current ↔ (s.conn j).pieces.head? = some ack := by
  constructor
  · intro hj
    rw [(hi.passed j hj).1]
    rfl
  · intro hhead
    rcases Nat.lt_trichotomy j s.current with hlt | rfl | hgt
    · exact hlt
    · cases hi.phase with
      | fresh _ hconn _ _ => rw [hconn] at hhead; cases hhead
      | sent _ hconn _ _ => rw [hconn] at hhead; cases hhead
      | answered _ _ _ hpieces _ _ => rw [hpieces] at hhead; cases hhead
      | stuck _ _ hhead' hne _ _ => exact absurd (Option.some.inj (hhead'.symm.trans hhead)) hne
    · rw [hi.ahead j hgt] at hhead
      cases hhead

/-- In every run: a machine that has a configuration has the beginning of its own; those in front of the orchestrator
have one, and those behind it have been sent nothing. The orchestrator has gone past a machine if and only if the first
piece of its answer was all of it. -/
theorem exec_safe (h : exec configs memory acts = some s) :
    (∀ j buffer, (s.conn j).machine.buffer? = some buffer → Beginning configs memory j buffer) ∧
    (∀ j < s.current, (s.conn j).machine.buffer?.isSome) ∧ (∀ j, s.current < j → s.conn j = {}) ∧
    ∀ j, j < s.current ↔ (s.conn j).pieces.head? = some ack := by
  have hi := exec_inv h
  exact ⟨hi.configured, fun j hj => (hi.passed j hj).2, hi.ahead, fun j => hi.lt_iff⟩

theorem exec_safe_three : ∃ s, exec [[1], [2], [3]] (fun _ _ => 0) [.write, .receive 0 1, .close 0, .read 3] = some s ∧
    s.current = 1 ∧ (∀ j < s.current, (s.conn j).machine.buffer?.isSome) ∧ s.conn 2 = {} := by
  have h := (Option.some_get (x := exec [[1], [2], [3]] (fun _ _ => 0) [.write, .receive 0 1, .close 0, .read 3])
    (by decide)).symm
  obtain ⟨-, hpassed, hahead, -⟩ := exec_safe h
  exact ⟨_, h, rfl, hpassed, hahead 2 (by decide)⟩

/-! ### Getting through -/

theorem head?_step (h : step configs memory s a = some s') {piece : List UInt8}
    (hj : (s.conn j).pieces.head? = some piece) : (s'.conn j).pieces.head? = some piece := by
  have hupdate : ∀ (i : Nat) (c : Connection), (∃ rest, c.pieces = (s.conn i).pieces ++ rest) →
      (Function.update s.conn i c j).pieces.head? = some piece := by
    rintro i c ⟨rest, hc⟩
    by_cases hji : j = i
    · subst hji
      rw [Function.update_self, hc, List.head?_append, hj, Option.some_or]
    · rwa [Function.update_of_ne hji]
  cases a with
  | write =>
    obtain ⟨config, -, -, rfl⟩ := write_cases h
    exact hupdate _ _ ⟨[], (List.append_nil _).symm⟩
  | read k =>
    obtain ⟨-, -, conn, rfl, ⟨-, rfl⟩ | ⟨-, rfl⟩⟩ := read_cases h <;> exact hupdate _ _ ⟨_, rfl⟩
  | receive i k =>
    obtain ⟨-, -, -, -, rfl⟩ := receive_cases h
    exact hupdate _ _ ⟨[], (List.append_nil _).symm⟩
  | close i =>
    obtain ⟨buffer, -, rfl⟩ := close_cases h
    exact hupdate _ _ ⟨[], (List.append_nil _).symm⟩

theorem head?_run {piece : List UInt8} (hj : (s.conn j).pieces.head? = some piece)
    (h : acts.foldlM (step configs memory) s = some s') : (s'.conn j).pieces.head? = some piece := by
  induction acts generalizing s with
  | nil =>
    cases h
    exact hj
  | cons a acts ih =>
    rw [List.foldlM_cons] at h
    obtain ⟨s₁, h₁, hs⟩ := Option.bind_eq_some_iff.mp h
    exact ih (head?_step h₁ hj) hs

theorem Inv.le_length (hi : Inv configs memory s) : s.current ≤ configs.length := by
  cases hi.phase with
  | fresh hle _ _ _ => exact hle
  | sent hconfig _ _ _ => exact (List.getElem?_eq_some_iff.mp hconfig).1.le
  | answered hlt _ _ _ _ _ => exact hlt.le
  | stuck hlt _ _ _ _ _ => exact hlt.le

theorem read_of_answered (hto : (s.conn s.current).toOrchestrator = ack) (hreading : s.reading = true)
    (hline : s.recvline = List.replicate 100 0) :
    ∃ s', read s 3 = some s' ∧ s'.current = s.current + 1 ∧ ∀ j, j ≠ s.current → s'.conn j = s.conn j := by
  have hreturns : (s.conn s.current).Returns 3 := .inl ⟨by decide, by decide, by rw [hto]; decide⟩
  have hack : cString (overwrite ((s.conn s.current).toOrchestrator.take 3) s.recvline) = ack := by
    rw [hto, hline]
    decide
  unfold read
  dsimp only
  rw [if_pos ⟨hreading, hreturns⟩, if_pos hack]
  exact ⟨_, rfl, rfl, fun j hj => Function.update_of_ne hj _ _⟩

theorem receive_of_sent {config : List UInt8}
    (hconn : s.conn s.current = { toMachine := sentConfig (memory s.current) config }) :
    ∃ k s', receive s s.current k = some s' ∧ s'.current = s.current ∧ s'.reading = s.reading ∧
      s'.recvline = s.recvline ∧ (s'.conn s'.current).toOrchestrator = ack := by
  have hlen : 0 < (sentConfig (memory s.current) config).length := by
    rw [sentConfig_eq, List.length_append]
    exact Nat.succ_pos _
  refine ⟨min 1000 (sentConfig (memory s.current) config).length, ?_⟩
  unfold receive
  dsimp only
  rw [hconn, if_pos ⟨rfl, by omega, Nat.min_le_left .., Nat.min_le_right ..⟩]
  refine ⟨_, rfl, rfl, rfl, rfl, ?_⟩
  dsimp only [State.setConn]
  rw [Function.update_self]
  rfl

theorem write_of_fresh (hconn : s.conn s.current = {}) (hreading : s.reading = false)
    (hlt : s.current < configs.length) :
    ∃ s' config, write configs memory s = some s' ∧ s'.current = s.current ∧ s'.reading = true ∧
      s'.recvline = s.recvline ∧ s'.conn s'.current = { toMachine := sentConfig (memory s'.current) config } := by
  unfold write
  rw [List.getElem?_eq_getElem hlt]
  dsimp only
  rw [hreading, if_neg Bool.false_ne_true]
  refine ⟨_, configs.get ⟨s.current, hlt⟩, rfl, rfl, rfl, rfl, ?_⟩
  dsimp only [State.setConn]
  rw [Function.update_self, hconn]
  rfl

theorem Inv.run (hi : Inv configs memory s)
    (h : acts.foldlM (Handshake.step configs memory) s = some s') : Inv configs memory s' := by
  induction acts generalizing s with
  | nil =>
    cases h
    exact hi
  | cons a acts ih =>
    rw [List.foldlM_cons] at h
    obtain ⟨s₁, h₁, hs⟩ := Option.bind_eq_some_iff.mp h
    exact ih (hi.step h₁) hs

/-- What is still to be done with the machine at hand can be done, and the next machine is as it was. -/
def Passes (configs : List (List UInt8)) (memory : Nat → Nat → UInt8) (s : State) : Prop :=
  ∃ (acts : List Action) (s' : State), acts.foldlM (step configs memory) s = some s' ∧ s'.current = s.current + 1 ∧
    s'.conn s'.current = {}

theorem Passes.cons (h : step configs memory s a = some s') (hcurrent : s'.current = s.current)
    (hp : Passes configs memory s') : Passes configs memory s := by
  obtain ⟨acts, s₂, hs₂, hnext, hconn⟩ := hp
  exact ⟨a :: acts, s₂, by rw [List.foldlM_cons, h]; exact hs₂, by rw [hnext, hcurrent], hconn⟩

theorem Inv.passes_of_answered (hi : Inv configs memory s) (hto : (s.conn s.current).toOrchestrator = ack)
    (hreading : s.reading = true) (hline : s.recvline = List.replicate 100 0) : Passes configs memory s := by
  obtain ⟨s₁, hs₁, hcurrent, hconn⟩ := read_of_answered hto hreading hline
  refine ⟨[.read 3], s₁, by rw [List.foldlM_cons, Handshake.step, hs₁]; rfl, hcurrent, ?_⟩
  rw [hcurrent, hconn _ (Nat.succ_ne_self _)]
  exact hi.ahead _ (Nat.lt_succ_self _)

theorem Inv.passes_of_sent (hi : Inv configs memory s) {config : List UInt8}
    (hconn : s.conn s.current = { toMachine := sentConfig (memory s.current) config }) (hreading : s.reading = true)
    (hline : s.recvline = List.replicate 100 0) : Passes configs memory s := by
  obtain ⟨k, s₁, hs₁, hcurrent, hr, hl, hto⟩ := receive_of_sent hconn
  have h : Handshake.step configs memory s (.receive s.current k) = some s₁ := hs₁
  exact .cons h hcurrent ((hi.step h).passes_of_answered hto (hr.trans hreading) (hl.trans hline))

theorem Inv.passes (hi : Inv configs memory s) (hlt : s.current < configs.length)
    (hpieces : (s.conn s.current).pieces = []) : Passes configs memory s := by
  cases hi.phase with
  | fresh _ hconn hreading hline =>
    obtain ⟨s₁, config, hs₁, hcurrent, hr, hl, hc⟩ := write_of_fresh hconn hreading hlt
    have h : Handshake.step configs memory s .write = some s₁ := hs₁
    exact .cons h hcurrent ((hi.step h).passes_of_sent hc hr (hl.trans hline))
  | sent _ hconn hreading hline => exact hi.passes_of_sent hconn hreading hline
  | answered _ _ hto _ hreading hline => exact hi.passes_of_answered hto hreading hline
  | stuck _ _ hhead _ _ _ =>
    rw [hpieces] at hhead
    cases hhead

theorem Inv.exists_through (hi : Inv configs memory s) (hpieces : (s.conn s.current).pieces = []) :
    ∃ (acts : List Action) (s' : State), acts.foldlM (Handshake.step configs memory) s = some s' ∧
      s'.current = configs.length := by
  obtain ⟨n, hn⟩ := Nat.exists_eq_add_of_le hi.le_length
  induction n generalizing s with
  | zero => exact ⟨[], s, rfl, hn.symm⟩
  | succ n ih =>
    obtain ⟨acts, s₁, hs₁, hnext, hconn⟩ := hi.passes (by omega) hpieces
    obtain ⟨acts', s₂, hs₂, hend⟩ := ih (hi.run hs₁) (by rw [hconn]) (by omega)
    exact ⟨acts ++ acts', s₂, by rw [List.foldlM_append, hs₁]; exact hs₂, hend⟩

/-- The orchestrator can still get through to the end if and only if no part of the answer of the machine at hand has
been read yet. -/
theorem through_iff (h : exec configs memory acts = some s) :
    (∃ acts' s', exec configs memory (acts ++ acts') = some s' ∧ s'.current = configs.length) ↔
      (s.conn s.current).pieces = [] := by
  have hi := exec_inv h
  constructor
  · rintro ⟨acts', s', hrun, hend⟩
    by_contra hne
    rw [exec_append, h, Option.bind_some] at hrun
    obtain ⟨piece, rest, hpieces⟩ := List.exists_cons_of_ne_nil hne
    have hhead : (s.conn s.current).pieces.head? = some piece := by rw [hpieces]; rfl
    -- at the end the answer of this machine would have come as a whole, at once
    have hlt : s.current < configs.length := by
      cases hi.phase with
      | fresh _ hconn _ _ => exact absurd (by rw [hconn]) hne
      | sent _ hconn _ _ => exact absurd (by rw [hconn]) hne
      | answered _ _ _ hnil _ _ => exact absurd hnil hne
      | stuck hlt _ _ _ _ _ => exact hlt
    have hack := ((hi.run hrun).lt_iff).mp (hend ▸ hlt)
    rw [head?_run hhead hrun] at hack
    rw [hack] at hhead
    exact absurd (hi.lt_iff.mpr hhead) (Nat.lt_irrefl _)
  · intro hpieces
    obtain ⟨acts', s', hrun, hend⟩ := hi.exists_through hpieces
    exact ⟨acts', s', by rw [exec_append, h]; exact hrun, hend⟩

/-- One letter of the answer. -/
theorem through_iff_letter : ∃ s, exec [[1]] (fun _ _ => 0) [.write, .receive 0 2, .read 1] = some s ∧
    ¬∃ acts' s', exec [[1]] (fun _ _ => 0) ([.write, .receive 0 2, .read 1] ++ acts') = some s' ∧ s'.current = 1 := by
  have h := (Option.some_get (x := exec [[1]] (fun _ _ => 0) [.write, .receive 0 2, .read 1]) (by decide)).symm
  refine ⟨_, h, fun hthrough => ?_⟩
  have hpieces := (through_iff h).mp hthrough
  revert hpieces
  decide

end
end DeepNF.Handshake
