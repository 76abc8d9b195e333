import Mathlib.Data.List.Basic
import Mathlib.Data.Nat.Digits.Defs

/-!
# Text functions of the C library

`stoi` and `atoi` read a number at the start of a text, `strtok` cuts off a token, `getline` a line. Each
comes with the lemma that it finds what was printed there.
-/

namespace CText

/-- What the text functions throw, or do to a null pointer. -/
inductive TextError
  | invalidArgument
  | outOfRange
  | nullPointer
deriving DecidableEq, Repr

def IsInt (i : Int) : Prop := -2147483648 ≤ i ∧ i < 2147483648

instance (i : Int) : Decidable (IsInt i) := inferInstanceAs (Decidable (-2147483648 ≤ i ∧ i < 2147483648))

def isSpace (c : Char) : Bool := c.toNat = 32 || (9 ≤ c.toNat && c.toNat ≤ 13)

def sign : List Char → Int × List Char
  | '-' :: cs => (-1, cs)
  | '+' :: cs => (1, cs)
  | cs => (1, cs)

/-- The number that a text starts with, of any size. -/
def number? (cs : List Char) : Option Int :=
  let (s, rest) := sign (cs.dropWhile isSpace)
  let digits := rest.takeWhile Char.isDigit
  if digits = [] then none else some (s * Nat.ofDigitChars 10 digits 0)

def stoi (cs : List Char) : Except TextError Int :=
  match number? cs with
  | none => .error .invalidArgument
  | some i => if IsInt i then .ok i else .error .outOfRange

/-- The value is kept within a `long` of 64 bits; it is 0 for a text without a number. -/
def strtol (cs : List Char) : Int := max (-2 ^ 63) (min (2 ^ 63 - 1) ((number? cs).getD 0))

/-- The standard leaves open what comes of a number that is no `int`; the C library casts the `long`. -/
def atoi (cs : List Char) : Int := (strtol cs).bmod (2 ^ 32)

/-- The first token and what `strtok` goes on with. -/
def strtok (delim : Char) (cs : List Char) : Except TextError (List Char × List Char) :=
  match cs.dropWhile (· = delim) with
  | [] => .error .nullPointer
  | c :: cs => .ok ((c :: cs).takeWhile (· ≠ delim), ((c :: cs).dropWhile (· ≠ delim)).drop 1)

/-- The lines that `getline` returns one after the other, with their ends. -/
def getlines : List Char → List (List Char)
  | [] => []
  | c :: cs =>
    if c = '\n' then [c] :: getlines cs
    else
      match getlines cs with
      | [] => [[c]]
      | line :: lines => (c :: line) :: lines

theorem takeWhile_append_stop {α : Type} {p : α → Bool} {l r : List α} (hl : ∀ a ∈ l, p a = true)
    (hr : ∀ a ∈ r.head?, p a = false) : (l ++ r).takeWhile p = l := by
  rw [List.takeWhile_append_of_pos hl]
  cases r with
  | nil => simp
  | cons a r => rw [List.takeWhile_cons_of_neg (by simpa using hr a rfl), List.append_nil]

theorem dropWhile_append_stop {α : Type} {p : α → Bool} {l r : List α} (hl : ∀ a ∈ l, p a = true)
    (hr : ∀ a ∈ r.head?, p a = false) : (l ++ r).dropWhile p = r := by
  rw [List.dropWhile_append_of_pos hl]
  cases r with
  | nil => rfl
  | cons a r => rw [List.dropWhile_cons_of_neg (by simpa using hr a rfl)]

/-! ### Numbers -/

theorem isDigit_toDigits {n : Nat} {c : Char} (h : c ∈ Nat.toDigits 10 n) : c.isDigit = true :=
  Nat.isDigit_of_mem_toDigits (by decide) (by decide) h

theorem notMem_toDigits {c : Char} (hc : c.isDigit = false) (n : Nat) : c ∉ Nat.toDigits 10 n := fun h => by
  rw [isDigit_toDigits h] at hc
  cases hc

theorem isSpace_of_isDigit {c : Char} (h : c.isDigit = true) : isSpace c = false := by
  rw [Char.isDigit_iff_toNat, show '0'.toNat = 48 from rfl, show '9'.toNat = 57 from rfl] at h
  simp only [isSpace, Bool.or_eq_false_iff, Bool.and_eq_false_iff, decide_eq_false_iff_not]
  omega

theorem sign_of_isDigit {c : Char} {cs : List Char} (h : c.isDigit = true) : sign (c :: cs) = (1, c :: cs) := by
  unfold sign
  split
  · rename_i heq
    cases heq
    exact absurd h (by decide)
  · rename_i heq
    cases heq
    exact absurd h (by decide)
  · rfl

theorem toList_toString (i : Int) : (toString i).toList =
    if 0 ≤ i then Nat.toDigits 10 i.toNat else '-' :: Nat.toDigits 10 (-i).toNat := by
  rw [Int.toString_eq_repr, Int.repr_eq_if]
  split
  · rw [Nat.toList_repr]
  · rw [String.toList_append, Nat.toList_repr]
    rfl

/-- A number that was printed is read back, if no digit follows. -/
theorem stoi_toString {i : Int} (hi : IsInt i) {rest : List Char} (hr : ∀ c ∈ rest.head?, c.isDigit = false) :
    stoi ((toString i).toList ++ rest) = .ok i := by
  have hread : ∀ (n : Nat), ∃ c cs, Nat.toDigits 10 n = c :: cs ∧ c.isDigit = true := fun n => by
    cases hd : Nat.toDigits 10 n with
    | nil => exact absurd hd Nat.toDigits_ne_nil
    | cons c cs => exact ⟨c, cs, rfl, isDigit_toDigits (hd ▸ List.mem_cons_self ..)⟩
  have htake : ∀ n : Nat, (Nat.toDigits 10 n ++ rest).takeWhile Char.isDigit = Nat.toDigits 10 n := fun n =>
    takeWhile_append_stop (fun c hc => isDigit_toDigits hc) hr
  have hsign : sign (((toString i).toList ++ rest).dropWhile isSpace) =
      if 0 ≤ i then (1, Nat.toDigits 10 i.toNat ++ rest) else (-1, Nat.toDigits 10 (-i).toNat ++ rest) := by
    rw [toList_toString]
    split
    · obtain ⟨c, cs, hd, hc⟩ := hread i.toNat
      rw [hd, List.cons_append, List.dropWhile_cons_of_neg (by simp [isSpace_of_isDigit hc]), sign_of_isDigit hc]
    · rfl
  by_cases h0 : 0 ≤ i
  · rw [if_pos h0] at hsign
    simp only [stoi, number?, hsign, htake, Nat.toDigits_ne_nil, if_false, Nat.ofDigitChars_ten_toDigits]
    rw [show (1 : Int) * (i.toNat : Int) = i by omega, if_pos hi]
  · rw [if_neg h0] at hsign
    simp only [stoi, number?, hsign, htake, Nat.toDigits_ne_nil, if_false, Nat.ofDigitChars_ten_toDigits]
    rw [show (-1 : Int) * ((-i).toNat : Int) = i by omega, if_pos hi]

theorem atoi_of_stoi {cs : List Char} {i : Int} (h : stoi cs = .ok i) : atoi cs = i := by
  unfold stoi at h
  split at h
  · cases h
  · rename_i j hj
    split at h
    · rename_i hint
      obtain rfl := Except.ok.inj h
      unfold IsInt at hint
      rw [atoi, strtol, hj, Option.getD_some, show max (-2 ^ 63) (min (2 ^ 63 - 1) j) = j by omega]
      exact Int.bmod_eq_of_le (by omega) (by omega)
    · cases h

theorem stoi_toString_last {i : Int} (hi : IsInt i) : stoi (toString i).toList = .ok i := by
  have h : stoi ((toString i).toList ++ []) = .ok i := stoi_toString hi (by simp)
  rwa [List.append_nil] at h

theorem stoi_digits {cs : List Char} (hne : cs ≠ []) (hcs : ∀ c ∈ cs, c.isDigit = true)
    (hi : IsInt (Nat.ofDigitChars 10 cs 0)) : stoi cs = .ok (Nat.ofDigitChars 10 cs 0) := by
  have htake : cs.takeWhile Char.isDigit = cs := by
    have h := takeWhile_append_stop (r := []) hcs (by simp)
    rwa [List.append_nil] at h
  have hsign : sign (cs.dropWhile isSpace) = (1, cs) := by
    obtain ⟨c, cs, rfl⟩ := List.exists_cons_of_ne_nil hne
    have hc := hcs c (List.mem_cons_self ..)
    rw [List.dropWhile_cons_of_neg (by simp [isSpace_of_isDigit hc]), sign_of_isDigit hc]
  simp only [stoi, number?, hsign, htake, hne, if_false, one_mul]
  rw [if_pos hi]

theorem toString_inj {i j : Int} (h : toString i = toString j) : i = j := by
  have hminus : ∀ n : Nat, '-' ∉ Nat.toDigits 10 n := notMem_toDigits rfl
  have hdigits : ∀ {m n : Nat}, Nat.toDigits 10 m = Nat.toDigits 10 n → m = n := fun {m n} h => by
    rw [← @Nat.ofDigitChars_ten_toDigits m, h, Nat.ofDigitChars_ten_toDigits]
  have hl := congrArg String.toList h
  rw [toList_toString, toList_toString] at hl
  split at hl <;> split at hl
  · have := hdigits hl
    omega
  · exact absurd (hl ▸ List.mem_cons_self ..) (hminus i.toNat)
  · exact absurd (hl ▸ List.mem_cons_self ..) (hminus j.toNat)
  · have := hdigits (List.cons.inj hl).2
    omega

theorem append_toString_inj {s : String} {i j : Int} (h : s ++ toString i = s ++ toString j) : i = j := by
  have hl := congrArg String.toList h
  rw [String.toList_append, String.toList_append] at hl
  exact toString_inj (String.toList_inj.mp (List.append_cancel_left hl))

theorem notMem_toString {i : Int} {c : Char} (hc : c.isDigit = false) (hm : c ≠ '-') : c ∉ (toString i).toList := by
  rw [toList_toString]
  split
  · exact notMem_toDigits hc _
  · rw [List.mem_cons, not_or]
    exact ⟨hm, notMem_toDigits hc _⟩

theorem toString_ne_nil (i : Int) : (toString i).toList ≠ [] := by
  rw [toList_toString]
  split
  · exact Nat.toDigits_ne_nil
  · exact List.cons_ne_nil _ _

/-! ### Tokens and lines -/

theorem strtok_append {delim : Char} {token rest : List Char} (ht : token ≠ []) (hd : delim ∉ token)
    (hr : ∀ c ∈ rest.head?, c = delim) : strtok delim (token ++ rest) = .ok (token, rest.drop 1) := by
  obtain ⟨c, cs, rfl⟩ := List.exists_cons_of_ne_nil ht
  have hp : ∀ a ∈ c :: cs, decide (a ≠ delim) = true := fun a ha =>
    decide_eq_true fun he => hd (he ▸ ha)
  have hstop : ∀ a ∈ rest.head?, decide (a ≠ delim) = false := fun a ha => by simp [hr a ha]
  have hc : ¬ (decide (c = delim)) = true := by simpa using hp c (List.mem_cons_self ..)
  rw [strtok, List.cons_append, List.dropWhile_cons_of_neg (p := (decide <| · = delim)) hc]
  show Except.ok (((c :: cs) ++ rest).takeWhile _, (((c :: cs) ++ rest).dropWhile _).drop 1) = _
  rw [takeWhile_append_stop hp hstop, dropWhile_append_stop hp hstop]

theorem strtok_last {delim : Char} {token : List Char} (ht : token ≠ []) (hd : delim ∉ token) :
    strtok delim token = .ok (token, []) := by
  have h : strtok delim (token ++ []) = .ok (token, []) := strtok_append ht hd (by simp)
  rwa [List.append_nil] at h

theorem getlines_append {line rest : List Char} (hl : '\n' ∉ line) :
    getlines (line ++ '\n' :: rest) = (line ++ ['\n']) :: getlines rest := by
  induction line with
  | nil => rfl
  | cons c line ih =>
    rw [List.mem_cons, not_or] at hl
    rw [List.cons_append, getlines, if_neg (Ne.symm hl.1), ih hl.2]
    rfl

end CText
