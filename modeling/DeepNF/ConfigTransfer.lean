import DeepNF.ServiceGraphUtil

/-!
# Sending a configuration (`Orchestrator::setup_containers`, `get_machine_configurator`)

The orchestrator copies the serialised configuration into an array with one byte more and writes the whole
array; the machine reads into a cleared array of 1000 bytes and parses all of it.
`receivedConfig_sent_iff` says for which configurations this is enough.
-/

namespace DeepNF

/-- A `char` array as it is declared: the memory decides. -/
def charArray (n : Nat) (memory : Nat → UInt8) : List UInt8 := (List.range n).map memory

/-- The start of the array is overwritten; `std::string::copy`, and `read` for what has arrived. -/
def overwrite (bytes array : List UInt8) : List UInt8 := bytes ++ array.drop bytes.length

/-- What `setup_containers` writes: `conf_str`. -/
def sentConfig (memory : Nat → UInt8) (serializedConfig : List UInt8) : List UInt8 :=
  overwrite serializedConfig (charArray (serializedConfig.length + 1) memory)

/-- What `get_machine_configurator` parses when `stream` arrives. -/
def receivedConfig (stream : List UInt8) : List UInt8 :=
  let buffer := List.replicate 1000 0
  overwrite (stream.take buffer.length) buffer

theorem sentConfig_eq (memory : Nat → UInt8) (s : List UInt8) : sentConfig memory s = s ++ [memory s.length] := by
  rw [sentConfig, overwrite, charArray, ← List.map_drop, List.range_succ, List.drop_append_of_le_length (by simp)]
  simp

theorem receivedConfig_eq (stream : List UInt8) :
    receivedConfig stream = stream.take 1000 ++ List.replicate (1000 - stream.length) 0 := by
  rw [receivedConfig, overwrite, List.length_replicate, List.drop_replicate, List.length_take]
  congr 2
  omega

theorem length_receivedConfig (stream : List UInt8) : (receivedConfig stream).length = 1000 := by
  rw [receivedConfig_eq, List.length_append, List.length_take, List.length_replicate]
  omega

theorem receivedConfig_sent {memory : Nat → UInt8} {s : List UInt8} (hs : s.length < 1000) :
    receivedConfig (sentConfig memory s) = s ++ memory s.length :: List.replicate (999 - s.length) 0 := by
  rw [sentConfig_eq, receivedConfig_eq, List.take_of_length_le (by simp; omega), List.append_assoc,
    List.length_append, List.length_singleton, show 1000 - (s.length + 1) = 999 - s.length by omega]
  rfl

/-- The machine parses the configuration, followed by zeros, exactly if the configuration fills the buffer, or
is shorter and the memory behind it happens to hold a zero. -/
theorem receivedConfig_sent_iff (memory : Nat → UInt8) (s : List UInt8) :
    (∃ k, receivedConfig (sentConfig memory s) = s ++ List.replicate k 0) ↔
      s.length = 1000 ∨ s.length < 1000 ∧ memory s.length = 0 := by
  rcases Nat.lt_trichotomy s.length 1000 with hlt | heq | hgt
  · rw [receivedConfig_sent hlt]
    constructor
    · rintro ⟨k, hk⟩
      have hk := List.append_cancel_left hk
      cases k with
      | zero => cases hk
      | succ k => exact .inr ⟨hlt, (List.cons.inj hk).1⟩
    · rintro (h | ⟨-, h0⟩)
      · omega
      · exact ⟨999 - s.length + 1, by rw [h0, List.replicate_succ]⟩
  · refine iff_of_true ⟨0, ?_⟩ (.inl heq)
    rw [sentConfig_eq, receivedConfig_eq, List.take_append_of_le_length (by omega),
      List.take_of_length_le (by omega), show 1000 - (s ++ [memory s.length]).length = 0 by simp; omega]
  · refine iff_of_false ?_ (by omega)
    rintro ⟨k, hk⟩
    have hlen := congrArg List.length hk
    rw [length_receivedConfig, List.length_append] at hlen
    omega

/-- The memory behind the configuration holds the tag of a further field. -/
theorem receivedConfig_oneProxy :
    ¬ ∃ k, receivedConfig (sentConfig (fun _ => 0x1A) oneProxyBytes) = oneProxyBytes ++ List.replicate k 0 := by
  have hs : oneProxyBytes.length < 1000 := by decide
  rintro ⟨k, hk⟩
  rw [receivedConfig_sent hs] at hk
  have hk := List.append_cancel_left hk
  cases k with
  | zero => cases hk
  | succ k => exact absurd (List.cons.inj hk).1 (by decide)

end DeepNF
