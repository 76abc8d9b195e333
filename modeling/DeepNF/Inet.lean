import Mathlib.Data.List.Basic
import Mathlib.Data.Nat.Digits.Defs

/-!
# Addresses and byte order (`arpa/inet.h`)

The address and port conversions that the packet class calls. `inetPton` accepts what `inet_pton`
does for `AF_INET`: four decimal octets of one to three digits without leading zeros, separated by
dots; `inetNtop` prints in that form, so it can be read back (`inetPton_inetNtop`).
-/

namespace DeepNF

/-- `struct in_addr`: the four bytes in network order. -/
structure InAddr where
  a : UInt8
  b : UInt8
  c : UInt8
  d : UInt8
deriving DecidableEq, Repr

/-- A 16-bit header field: its two bytes in network order. -/
structure NetShort where
  hi : UInt8
  lo : UInt8
deriving DecidableEq, Repr

/-- `INADDR_ANY`, what `memset(.., 0, ..)` and value initialisation leave. -/
def InAddr.any : InAddr := ⟨0, 0, 0, 0⟩

def NetShort.zero : NetShort := ⟨0, 0⟩

def ntohs (n : NetShort) : Int := n.hi.toNat * 256 + n.lo.toNat

/-- `htons` of an `int`: the argument is converted to 16 bits first. -/
def htons (n : Int) : NetShort :=
  ⟨UInt8.ofNat ((n % 65536).toNat / 256), UInt8.ofNat ((n % 65536).toNat % 256)⟩

@[simp] theorem htons_ntohs (n : NetShort) : htons (ntohs n) = n := by
  obtain ⟨hi, lo⟩ := n
  have h₁ := hi.toNat_lt
  have h₂ := lo.toNat_lt
  have hn : (ntohs ⟨hi, lo⟩ % 65536).toNat = hi.toNat * 256 + lo.toNat := by
    simp only [ntohs]; omega
  have hq : (hi.toNat * 256 + lo.toNat) / 256 = hi.toNat := by omega
  have hr : (hi.toNat * 256 + lo.toNat) % 256 = lo.toNat := by omega
  simp [htons, hn, hq, hr]

theorem ntohs_htons (n : Int) : ntohs (htons n) = n % 65536 := by
  simp only [ntohs, htons, UInt8.toNat_ofNat']
  omega

theorem ntohs_inj {m n : NetShort} (h : ntohs m = ntohs n) : m = n := by
  rw [← htons_ntohs m, h, htons_ntohs]

theorem htons_ne_zero {n : Int} (h : 0 < n) (h' : n < 65536) : htons n ≠ .zero := by
  intro hz
  have hn := ntohs_htons n
  rw [hz, Int.emod_eq_of_lt (le_of_lt h) h'] at hn
  exact absurd (hn : (0 : Int) = n) (ne_of_lt h)

theorem ntohs_eq_zero {n : NetShort} : ntohs n = 0 ↔ n = .zero :=
  ⟨fun h => ntohs_inj (h.trans (by decide)), fun h => by rw [h]; decide⟩

def inetNtop (x : InAddr) : String :=
  toString x.a.toNat ++ "." ++ toString x.b.toNat ++ "." ++ toString x.c.toNat ++ "." ++
    toString x.d.toNat

def parseOctet (cs : List Char) : Option UInt8 :=
  if cs ≠ [] ∧ cs.all Char.isDigit ∧ cs.length ≤ 3 ∧ (cs.head? = some '0' → cs.length = 1) ∧
      Nat.ofDigitChars 10 cs 0 ≤ 255 then
    some (UInt8.ofNat (Nat.ofDigitChars 10 cs 0))
  else none

/-- `inet_pton(AF_INET, ..)`; `none` when it reports failure and writes nothing. -/
def inetPton (s : String) : Option InAddr :=
  match s.toList.splitOn '.' with
  | [a, b, c, d] => do return ⟨← parseOctet a, ← parseOctet b, ← parseOctet c, ← parseOctet d⟩
  | _ => none

theorem parseOctet_toDigits (n : UInt8) : parseOctet (Nat.toDigits 10 n.toNat) = some n := by
  have key : ∀ k : Fin 256, parseOctet (Nat.toDigits 10 k) = some (UInt8.ofNat k) := by decide +kernel
  have h := key ⟨n.toNat, n.toNat_lt⟩
  simpa using h

theorem dot_notMem_toDigits (n : Nat) : '.' ∉ Nat.toDigits 10 n := fun h =>
  absurd (Nat.isDigit_of_mem_toDigits (by decide) (by decide) h) (by decide)

theorem parseOctet_digits (n : Nat) :
    parseOctet (Nat.toDigits 10 n) = if n ≤ 255 then some (UInt8.ofNat n) else none := by
  split
  · have h := parseOctet_toDigits (UInt8.ofNat n)
    rwa [UInt8.toNat_ofNat', Nat.mod_eq_of_lt (by omega)] at h
  · unfold parseOctet
    rw [if_neg]
    rintro ⟨-, -, -, -, hle⟩
    rw [Nat.ofDigitChars_ten_toDigits] at hle
    omega

/-- The text of the first three octets, with the last dot. -/
def InAddr.network (x : InAddr) : String :=
  toString x.a.toNat ++ "." ++ toString x.b.toNat ++ "." ++ toString x.c.toNat ++ "."

theorem inetPton_network (x : InAddr) (n : Nat) :
    inetPton (x.network ++ toString n) = if n ≤ 255 then some { x with d := UInt8.ofNat n } else none := by
  obtain ⟨a, b, c, d⟩ := x
  have hs : (InAddr.network ⟨a, b, c, d⟩ ++ toString n).toList = Nat.toDigits 10 a.toNat ++ '.' ::
      (Nat.toDigits 10 b.toNat ++ '.' :: (Nat.toDigits 10 c.toNat ++ '.' :: Nat.toDigits 10 n)) := by
    simp [InAddr.network, String.toList_append]
  rw [inetPton, hs]
  simp only [List.splitOn_append_cons_self_of_not_mem (dot_notMem_toDigits _),
    List.splitOn_eq_singleton (dot_notMem_toDigits _), parseOctet_toDigits, parseOctet_digits n]
  split <;> rfl

@[simp] theorem inetPton_inetNtop (x : InAddr) : inetPton (inetNtop x) = some x := by
  show inetPton (x.network ++ toString x.d.toNat) = some x
  have hlt := x.d.toNat_lt
  rw [inetPton_network, if_pos (by omega), UInt8.ofNat_toNat]

/-! ### Addresses that are read are printed back -/

theorem digitChar_of_isDigit {c : Char} (h : c.isDigit) :
    c.toNat - '0'.toNat < 10 ∧ Nat.digitChar (c.toNat - '0'.toNat) = c := by
  obtain ⟨hlo, hhi⟩ : 48 ≤ c.toNat ∧ c.toNat ≤ 57 := by
    simpa [Char.isDigit, UInt32.le_iff_toNat_le] using h
  have hzero : '0'.toNat = 48 := rfl
  have hlt : c.toNat - '0'.toNat < 10 := by omega
  refine ⟨hlt, Char.toNat_inj.mp ?_⟩
  rw [Nat.toNat_digitChar_of_lt_ten hlt]
  omega

theorem toDigits_ofDigitChars_pos {cs : List Char} (hcs : ∀ c ∈ cs, c.isDigit) {n : Nat} (hn : 0 < n) :
    Nat.toDigits 10 (Nat.ofDigitChars 10 cs n) = Nat.toDigits 10 n ++ cs := by
  induction cs generalizing n with
  | nil => simp
  | cons c cs ih =>
    obtain ⟨hlt, hc⟩ := digitChar_of_isDigit (hcs c (List.mem_cons_self ..))
    rw [Nat.ofDigitChars_cons, ih (fun d hd => hcs d (List.mem_cons_of_mem _ hd)) (by omega),
      ← Nat.toDigits_append_toDigits (by decide) hn hlt, Nat.toDigits_of_lt_base hlt, hc, List.append_assoc,
      List.singleton_append]

theorem toDigits_ofDigitChars {cs : List Char} (hcs : ∀ c ∈ cs, c.isDigit) (hne : cs ≠ [])
    (hzero : cs.head? = some '0' → cs.length = 1) : Nat.toDigits 10 (Nat.ofDigitChars 10 cs 0) = cs := by
  cases cs with
  | nil => exact absurd rfl hne
  | cons c cs =>
    obtain ⟨hlt, hc⟩ := digitChar_of_isDigit (hcs c (List.mem_cons_self ..))
    rw [Nat.ofDigitChars_cons, Nat.mul_zero, Nat.zero_add]
    by_cases h0 : c = '0'
    · subst h0
      obtain rfl : cs = [] := List.length_eq_zero_iff.mp (by simpa using hzero rfl)
      rfl
    · have hpos : 0 < c.toNat - '0'.toNat := by
        rw [Nat.pos_iff_ne_zero]
        intro h
        rw [h] at hc
        exact h0 hc.symm
      rw [toDigits_ofDigitChars_pos (fun d hd => hcs d (List.mem_cons_of_mem _ hd)) hpos,
        Nat.toDigits_of_lt_base hlt, hc, List.singleton_append]

theorem toDigits_parseOctet {cs : List Char} {n : UInt8} (h : parseOctet cs = some n) :
    Nat.toDigits 10 n.toNat = cs := by
  unfold parseOctet at h
  split at h
  · rename_i hcond
    obtain ⟨hne, hdigits, -, hzero, hle⟩ := hcond
    obtain rfl := Option.some.inj h
    rw [UInt8.toNat_ofNat', Nat.mod_eq_of_lt (by omega)]
    exact toDigits_ofDigitChars (List.all_eq_true.mp hdigits) hne hzero
  · cases h

theorem inetNtop_inetPton {s : String} {x : InAddr} (h : inetPton s = some x) : inetNtop x = s := by
  unfold inetPton at h
  split at h
  · rename_i cs ds es fs hsplit
    obtain ⟨a, ha, h⟩ := Option.bind_eq_some_iff.mp h
    obtain ⟨b, hb, h⟩ := Option.bind_eq_some_iff.mp h
    obtain ⟨c, hc, h⟩ := Option.bind_eq_some_iff.mp h
    obtain ⟨d, hd, h⟩ := Option.bind_eq_some_iff.mp h
    obtain rfl := Option.some.inj h
    have hs : ['.'].intercalate (s.toList.splitOn '.') = s.toList := List.intercalate_splitOn '.'
    rw [hsplit] at hs
    apply String.toList_injective
    rw [← hs]
    simp [inetNtop, String.toList_append, toDigits_parseOctet ha, toDigits_parseOctet hb,
      toDigits_parseOctet hc, toDigits_parseOctet hd, List.intercalate]
  · cases h

theorem inetNtop_inj {x y : InAddr} (h : inetNtop x = inetNtop y) : x = y := by
  have := congrArg inetPton h
  simpa using this

end DeepNF
