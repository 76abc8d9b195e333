import Mathlib.Algebra.Group.Nat.Defs
import Mathlib.Data.List.Basic

/-!
# Bytes as text in UTF-8

`decode` is how Node and the web browsers decode UTF-8: byte for byte, with U+FFFD in the place of a byte, or of
the start of a character, that leads nowhere. It inverts the encoding (`decode_encode_append`). A byte below 128
always ends what came before it (`decode_append_cons`), so an ASCII character is in the text if and only if its
byte is there (`mem_decode_iff`).
-/

namespace Utf8

/-- The start of a character of which `needed` more bytes have to come; the next one has to lie between `lower` and
`upper`. These bounds exclude that fewer bytes would have been enough. -/
structure Pending where
  codePoint : Nat
  needed : Nat
  lower : Nat := 0x80
  upper : Nat := 0xBF
  tail : 0x80 ≤ lower
  shortest : 2 ≤ codePoint ∨ 1 < needed ∧ 0x82 ≤ 64 * codePoint + lower

def replacement : Char := Char.ofNat 0xFFFD

/-- What the first byte of a character leads to. -/
def first (n : Nat) : List Char × Option Pending :=
  if n < 0x80 then ([Char.ofNat n], none)
  else if h : 0xC2 ≤ n ∧ n ≤ 0xDF then
    ([], some { codePoint := n - 0xC0, needed := 1, tail := Nat.le_refl _, shortest := by omega })
  else if h : 0xE0 ≤ n ∧ n ≤ 0xEF then
    ([], some
      { codePoint := n - 0xE0
        needed := 2
        lower := if n = 0xE0 then 0xA0 else 0x80
        upper := if n = 0xED then 0x9F else 0xBF
        tail := by split <;> omega
        shortest := by split <;> omega })
  else if h : 0xF0 ≤ n ∧ n ≤ 0xF4 then
    ([], some
      { codePoint := n - 0xF0
        needed := 3
        lower := if n = 0xF0 then 0x90 else 0x80
        upper := if n = 0xF4 then 0x8F else 0xBF
        tail := by split <;> omega
        shortest := by split <;> omega })
  else ([replacement], none)

def Pending.next (s : Pending) (n : Nat) (h : s.lower ≤ n) : List Char × Option Pending :=
  if s.needed ≤ 1 then ([Char.ofNat (64 * s.codePoint + (n - 0x80))], none)
  else
    ([], some
      { codePoint := 64 * s.codePoint + (n - 0x80)
        needed := s.needed - 1
        tail := Nat.le_refl _
        shortest := by have := s.shortest; have := s.tail; omega })

/-- A byte out of the bounds ends the character and starts the next one. -/
def feed : Option Pending → Nat → List Char × Option Pending
  | none, n => first n
  | some s, n =>
    if h : s.lower ≤ n ∧ n ≤ s.upper then s.next n h.1
    else (replacement :: (first n).1, (first n).2)

def ending : Option Pending → List Char
  | none => []
  | some _ => [replacement]

def decodeFrom : Option Pending → List UInt8 → List Char
  | s, [] => ending s
  | s, b :: bs => (feed s b.toNat).1 ++ decodeFrom (feed s b.toNat).2 bs

def decode (bs : List UInt8) : List Char := decodeFrom none bs

def encode (cs : List Char) : List UInt8 := cs.flatMap String.utf8EncodeChar

example : decode [0xE2, 0x82, 0xAC, 0xE2, 0x82, 0x2C, 0xC0, 0xAF] = ['€', replacement, ',', replacement, replacement] := by
  decide

variable {s : Option Pending} {bs rest : List UInt8} {b : UInt8} {c : Char}

/-! ### ASCII -/

theorem first_ascii {n : Nat} (hn : n < 0x80) : first n = ([Char.ofNat n], none) := if_pos hn

theorem feed_ascii {n : Nat} (hn : n < 0x80) (s : Option Pending) : feed s n = (ending s ++ [Char.ofNat n], none) := by
  cases s with
  | none => exact first_ascii hn
  | some s =>
    have hout : ¬ (s.lower ≤ n ∧ n ≤ s.upper) := fun h => by have := s.tail; omega
    rw [feed, dif_neg hout, first_ascii hn]
    rfl

theorem decodeFrom_append_cons (hb : b.toNat < 0x80) (s : Option Pending) (bs rest : List UInt8) :
    decodeFrom s (bs ++ b :: rest) = decodeFrom s bs ++ Char.ofNat b.toNat :: decode rest := by
  induction bs generalizing s with
  | nil =>
    rw [List.nil_append, decodeFrom, decodeFrom, feed_ascii hb, List.append_assoc]
    rfl
  | cons x bs ih =>
    rw [List.cons_append, decodeFrom, ih, decodeFrom, List.append_assoc]

theorem decode_append_cons (hb : b.toNat < 0x80) (bs rest : List UInt8) :
    decode (bs ++ b :: rest) = decode bs ++ Char.ofNat b.toNat :: decode rest :=
  decodeFrom_append_cons hb none bs rest

theorem eq_toNat_of_eq_ofNat (h0 : c.toNat ≠ 0) {n : Nat} (h : c = Char.ofNat n) : n = c.toNat := by
  subst h
  rw [Char.ofNat] at h0 ⊢
  by_cases hn : n.isValidChar
  · rw [dif_pos hn]
    rfl
  · rw [dif_neg hn] at h0
    exact absurd rfl h0

theorem ne_replacement (hc : c.toNat < 0x80) : c ≠ replacement := by
  rintro rfl
  exact absurd hc (by decide)

theorem mem_first (hc : c.toNat < 0x80) (h0 : c.toNat ≠ 0) {n : Nat} (h : c ∈ (first n).1) : n = c.toNat := by
  unfold first at h
  split at h
  · exact eq_toNat_of_eq_ofNat h0 (List.mem_singleton.mp h)
  · split at h
    · cases h
    · split at h
      · cases h
      · split at h
        · cases h
        · exact absurd (List.mem_singleton.mp h) (ne_replacement hc)

theorem mem_feed (hc : c.toNat < 0x80) (h0 : c.toNat ≠ 0) {n : Nat} (h : c ∈ (feed s n).1) : n = c.toNat := by
  cases s with
  | none => exact mem_first hc h0 h
  | some s =>
    rw [feed] at h
    split at h
    · rename_i hin
      unfold Pending.next at h
      split at h
      · have hcode := eq_toNat_of_eq_ofNat h0 (List.mem_singleton.mp h)
        have := s.shortest
        omega
      · cases h
    · rcases List.mem_cons.mp h with h | h
      · exact absurd h (ne_replacement hc)
      · exact mem_first hc h0 h

theorem mem_of_mem_decodeFrom (hc : c.toNat < 0x80) (h0 : c.toNat ≠ 0) (h : c ∈ decodeFrom s bs) :
    UInt8.ofNat c.toNat ∈ bs := by
  induction bs generalizing s with
  | nil =>
    cases s with
    | none => cases h
    | some s => exact absurd (List.mem_singleton.mp h) (ne_replacement hc)
  | cons b bs ih =>
    rw [decodeFrom, List.mem_append] at h
    rcases h with h | h
    · rw [← mem_feed hc h0 h, UInt8.ofNat_toNat]
      exact List.mem_cons_self ..
    · exact List.mem_cons_of_mem _ (ih h)

theorem mem_decode_iff (hc : c.toNat < 0x80) (h0 : c.toNat ≠ 0) : c ∈ decode bs ↔ UInt8.ofNat c.toNat ∈ bs := by
  refine ⟨mem_of_mem_decodeFrom hc h0, fun h => ?_⟩
  obtain ⟨xs, ys, rfl⟩ := List.append_of_mem h
  have hval : (UInt8.ofNat c.toNat).toNat = c.toNat := UInt8.toNat_ofNat_of_lt' (Nat.lt_trans hc (by decide))
  rw [decode_append_cons (by omega), hval, Char.ofNat_toNat]
  simp

/-! ### Encoded text -/

def tails (v : Nat) : Nat → List UInt8
  | 0 => []
  | k + 1 => UInt8.ofNat (v / 64 ^ k % 64 + 0x80) :: tails v k

theorem decodeFrom_tails {v k : Nat} {s : Pending} (hneeded : s.needed = k + 1)
    (hcode : s.codePoint = v / 64 ^ (k + 1)) (hlower : s.lower ≤ v / 64 ^ k % 64 + 0x80)
    (hupper : v / 64 ^ k % 64 + 0x80 ≤ s.upper) (rest : List UInt8) :
    decodeFrom (some s) (tails v (k + 1) ++ rest) = Char.ofNat v :: decode rest := by
  have hval : ∀ k, (UInt8.ofNat (v / 64 ^ k % 64 + 0x80)).toNat = v / 64 ^ k % 64 + 0x80 := fun k =>
    UInt8.toNat_ofNat_of_lt' (by show _ < 256; omega)
  -- each byte adds its six bits
  have hstep : ∀ k, 64 * (v / 64 ^ (k + 1)) + (v / 64 ^ k % 64 + 0x80 - 0x80) = v / 64 ^ k := fun k => by
    rw [Nat.pow_succ, ← Nat.div_div_eq_div_mul]
    omega
  induction k generalizing s with
  | zero =>
    rw [tails, List.cons_append, decodeFrom, hval, feed, dif_pos ⟨hlower, hupper⟩, Pending.next, if_pos (by omega),
      hcode, hstep, Nat.pow_zero, Nat.div_one]
    rfl
  | succ k ih =>
    rw [tails, List.cons_append, decodeFrom, hval, feed, dif_pos ⟨hlower, hupper⟩, Pending.next, if_neg (by omega)]
    refine ih ?_ ((congrArg (64 * · + _) hcode).trans (hstep (k + 1))) ?_ ?_
    · show s.needed - 1 = k + 1
      omega
    · show 0x80 ≤ _
      omega
    · show _ ≤ 0xBF
      omega

theorem decodeFrom_first {n : Nat} (hn : 0xC2 ≤ n) (hn' : n ≤ 0xF4) (rest : List UInt8) : ∃ s : Pending,
    decode (UInt8.ofNat n :: rest) = decodeFrom (some s) rest ∧
    (n < 0xE0 → s.codePoint = n - 0xC0 ∧ s.needed = 1 ∧ s.lower = 0x80 ∧ s.upper = 0xBF) ∧
    (0xE0 ≤ n → n < 0xF0 → s.codePoint = n - 0xE0 ∧ s.needed = 2 ∧
      s.lower = (if n = 0xE0 then 0xA0 else 0x80) ∧ s.upper = if n = 0xED then 0x9F else 0xBF) ∧
    (0xF0 ≤ n → s.codePoint = n - 0xF0 ∧ s.needed = 3 ∧
      s.lower = (if n = 0xF0 then 0x90 else 0x80) ∧ s.upper = if n = 0xF4 then 0x8F else 0xBF) := by
  have hval : (UInt8.ofNat n).toNat = n := UInt8.toNat_ofNat_of_lt' (Nat.lt_of_le_of_lt hn' (by decide))
  rw [decode, decodeFrom, hval, feed, first, if_neg (by omega)]
  split
  · exact ⟨_, rfl, fun _ => ⟨rfl, rfl, rfl, rfl⟩, fun h => by omega, fun h => by omega⟩
  · split
    · exact ⟨_, rfl, fun h => by omega, fun _ _ => ⟨rfl, rfl, rfl, rfl⟩, fun h => by omega⟩
    · rw [dif_pos (by omega)]
      exact ⟨_, rfl, fun h => by omega, fun _ h => by omega, fun _ => ⟨rfl, rfl, rfl, rfl⟩⟩

theorem decode_encodeChar_append (c : Char) (rest : List UInt8) :
    decode (String.utf8EncodeChar c ++ rest) = c :: decode rest := by
  have hvalid : c.val.toNat < 0xD800 ∨ 0xDFFF < c.val.toNat ∧ c.val.toNat < 0x110000 := c.valid
  have hchar : Char.ofNat c.val.toNat = c := Char.ofNat_toNat c
  unfold String.utf8EncodeChar
  dsimp only
  generalize c.val.toNat = v at *
  split
  · have hval : (UInt8.ofNat v).toNat = v := UInt8.toNat_ofNat_of_lt' (Nat.lt_of_le_of_lt ‹v ≤ 127› (by decide))
    have hone := decode_append_cons (b := UInt8.ofNat v) (by omega) [] rest
    rw [hval, hchar] at hone
    exact hone
  split
  · obtain ⟨s, hs, hone, -, -⟩ := decodeFrom_first (n := v / 64 % 32 + 192) (by omega) (by omega) (tails v 1 ++ rest)
    obtain ⟨hcode, hneeded, hlower, hupper⟩ := hone (by omega)
    have hrest := decodeFrom_tails (v := v) hneeded (by omega) (by omega) (by omega) rest
    rw [hchar] at hrest
    simpa [tails] using hs.trans hrest
  split
  · obtain ⟨s, hs, -, htwo, -⟩ := decodeFrom_first (n := v / 4096 % 16 + 224) (by omega) (by omega) (tails v 2 ++ rest)
    obtain ⟨hcode, hneeded, hlower, hupper⟩ := htwo (by omega) (by omega)
    have hrest := decodeFrom_tails (v := v) hneeded (by omega) (by split at hlower <;> omega)
      (by split at hupper <;> omega) rest
    rw [hchar] at hrest
    simpa [tails] using hs.trans hrest
  · obtain ⟨s, hs, -, -, hthree⟩ := decodeFrom_first (n := v / 262144 % 8 + 240) (by omega) (by omega)
      (tails v 3 ++ rest)
    obtain ⟨hcode, hneeded, hlower, hupper⟩ := hthree (by omega)
    have hrest := decodeFrom_tails (v := v) hneeded (by omega) (by split at hlower <;> omega)
      (by split at hupper <;> omega) rest
    rw [hchar] at hrest
    simpa [tails] using hs.trans hrest

/-- Text in UTF-8 is read back, up to where it ends. -/
theorem decode_encode_append (cs : List Char) (rest : List UInt8) : decode (encode cs ++ rest) = cs ++ decode rest := by
  induction cs with
  | nil => rfl
  | cons c cs ih =>
    rw [encode, List.flatMap_cons, List.append_assoc, decode_encodeChar_append]
    exact congrArg (c :: ·) ih

/-! ### The bytes of a string -/

theorem toList_loop_eq (bs : ByteArray) (i : Nat) (r : List UInt8) :
    ByteArray.toList.loop bs i r = r.reverse ++ bs.data.toList.drop i := by
  fun_induction ByteArray.toList.loop with
  | case1 i r h ih =>
    have hlt : i < bs.data.toList.length := h
    have hget : bs.get! i = bs.data.toList[i] := by
      show bs.data[i]! = _
      rw [getElem!_pos bs.data i h]
      rfl
    rw [ih, List.reverse_cons, List.append_assoc, List.singleton_append, hget, List.drop_eq_getElem_cons hlt]
  | case2 i r h =>
    have hle : bs.data.toList.length ≤ i := Nat.not_lt.mp h
    rw [List.drop_eq_nil_of_le hle, List.append_nil]

theorem toList_eq (bs : ByteArray) : bs.toList = bs.data.toList := toList_loop_eq bs 0 []

theorem toList_toUTF8 (s : String) : s.toUTF8.toList = encode s.toList := by
  obtain ⟨l, rfl⟩ : ∃ l, s = String.ofList l := ⟨_, String.ofList_toList.symm⟩
  rw [toList_eq]
  show (String.ofList l).toByteArray.data.toList = _
  rw [String.toByteArray_ofList, String.toList_ofList, List.utf8Encode, List.data_toByteArray]
  rfl

theorem mem_toUTF8_iff (hc : c.toNat < 0x80) (h0 : c.toNat ≠ 0) {s : String} :
    UInt8.ofNat c.toNat ∈ s.toUTF8.toList ↔ c ∈ s.toList := by
  have htext : decode s.toUTF8.toList = s.toList := by
    have h := decode_encode_append s.toList []
    rwa [List.append_nil, ← toList_toUTF8, show decode [] = [] from rfl, List.append_nil] at h
  rw [← mem_decode_iff hc h0, htext]

theorem length_toUTF8 (s : String) : s.toUTF8.toList.length = s.utf8ByteSize := by
  rw [toList_eq]
  rfl

theorem toUTF8_inj {s t : String} (h : s.toUTF8.toList = t.toUTF8.toList) : s = t := by
  rw [toList_eq, toList_eq] at h
  exact String.toByteArray_inj.mp (ByteArray.ext (Array.toList_inj.mp h))

theorem utf8ByteSize_le (s : String) : s.utf8ByteSize ≤ 4 * s.length := by
  have key : ∀ cs : List Char, (String.ofList cs).utf8ByteSize ≤ 4 * cs.length := by
    intro cs
    induction cs with
    | nil => exact Nat.zero_le _
    | cons c cs ih =>
      have hc := c.utf8Size_le_four
      rw [String.ofList_cons, String.utf8ByteSize_append, String.utf8ByteSize_singleton, List.length_cons]
      omega
  have h := key s.toList
  rwa [String.ofList_toList] at h

end Utf8
