import DeepNF.Walk
import Mathlib.Data.Multiset.Bind
import Mathlib.Data.Multiset.UnionInter
import Mathlib.Data.Set.Card

/-!
# Messages in flight

A message that is in flight is handled, and then the messages of its reaction are in flight, or it gets lost. The
messages are taken in any order. Every message of a run has a trail, the messages that led to it: `Run.accounts` says
that different messages have different trails, and that a trail which is missing continues one that was lost or is
still in flight. So what a run handles that loses nothing and comes to its end does not depend on the order
(`Accounts.trail_mem`), and runs are bounded if and only if there are finitely many trails (`bounded_iff`).
-/

namespace Flood
open Walks

variable {M : Type*}

/-- `handled` is in the order in which it happened. -/
structure State (M : Type*) where
  inFlight : Multiset M
  handled : List M := []
  lost : Multiset M := 0

/-- One of the messages in flight, any of them, is handled or gets lost. -/
inductive Step (react : M → List M) : State M → State M → Prop
  | handle {m : M} {rest : Multiset M} {handled : List M} {lost : Multiset M} :
      Step react ⟨m ::ₘ rest, handled, lost⟩ ⟨rest + react m, handled ++ [m], lost⟩
  | lose {m : M} {rest : Multiset M} {handled : List M} {lost : Multiset M} :
      Step react ⟨m ::ₘ rest, handled, lost⟩ ⟨rest, handled, m ::ₘ lost⟩

/-- What `n` steps lead to. -/
inductive Run (react : M → List M) (initial : List M) : Nat → State M → Prop
  | start : Run react initial 0 ⟨initial, [], 0⟩
  | step {n : Nat} {s s' : State M} : Run react initial n s → Step react s s' → Run react initial (n + 1) s'

/-- A message and those that led to it, latest first. -/
def IsTrail (react : M → List M) (initial : List M) (t : M × List M) : Prop :=
  ∃ a ∈ initial, Walk (fun m m' => m' ∈ react m) a (t.1 :: t.2) t.1

/-- The trails of the messages of a state. -/
structure Ledger (M : Type*) where
  handled : List (M × List M)
  lost : Multiset (M × List M)
  inFlight : Multiset (M × List M)

def Ledger.all (L : Ledger M) : Multiset (M × List M) := L.handled + L.lost + L.inFlight

/-- The ledger belongs to the state, and has each trail at most once. -/
structure Accounts (react : M → List M) (initial : List M) (s : State M) (L : Ledger M) : Prop where
  handled_eq : L.handled.map Prod.fst = s.handled
  lost_eq : L.lost.map Prod.fst = s.lost
  inFlight_eq : L.inFlight.map Prod.fst = s.inFlight
  nodup : L.all.Nodup
  isTrail : ∀ t ∈ L.all, IsTrail react initial t
  initial_mem : ∀ m ∈ initial, (m, []) ∈ L.all
  reaction_mem : ∀ t ∈ L.handled, ∀ m ∈ react t.1, (m, t.1 :: t.2) ∈ L.all
  /-- Only what was handled has led to something. -/
  sender : ∀ t ∈ L.all, t.2 ≠ [] → ∃ u ∈ L.handled, t.2 = u.1 :: u.2

section
variable {react : M → List M} {initial : List M} {s s' : State M} {L : Ledger M} {n : Nat}

theorem Ledger.mem_all {t : M × List M} : t ∈ L.all ↔ t ∈ L.handled ∨ t ∈ L.lost ∨ t ∈ L.inFlight := by
  simp [Ledger.all, or_assoc]

theorem IsTrail.of_initial {m : M} (h : m ∈ initial) : IsTrail react initial (m, []) := ⟨m, h, .start⟩

theorem IsTrail.reaction {t : M × List M} (h : IsTrail react initial t) {m : M} (hm : m ∈ react t.1) :
    IsTrail react initial (m, t.1 :: t.2) := by
  obtain ⟨a, ha, hw⟩ := h
  exact ⟨a, ha, hw.step hm⟩

theorem isTrail_cases {t : M × List M} (h : IsTrail react initial t) :
    (t.2 = [] ∧ t.1 ∈ initial) ∨ ∃ u, IsTrail react initial u ∧ t.1 ∈ react u.1 ∧ t.2 = u.1 :: u.2 := by
  obtain ⟨m, before⟩ := t
  obtain ⟨a, ha, hw⟩ := h
  dsimp only at hw ⊢
  cases hw with
  | start => exact .inl ⟨rfl, ha⟩
  | @step l b _ hw he =>
    obtain ⟨l', rfl⟩ := hw.exists_cons
    exact .inr ⟨(b, l'), ⟨a, ha, hw⟩, he, rfl⟩

theorem Accounts.start (hnd : initial.Nodup) :
    Accounts react initial ⟨initial, [], 0⟩ ⟨[], 0, ↑(initial.map fun m => (m, ([] : List M)))⟩ := by
  have hall : ∀ t, t ∈ Ledger.all ⟨[], 0, ↑(initial.map fun m => (m, ([] : List M)))⟩ ↔ t.1 ∈ initial ∧ t.2 = [] := by
    rintro ⟨m, before⟩
    simp [Ledger.all, eq_comm]
  refine ⟨rfl, rfl, by simp [Function.comp_def], ?_, fun t ht => ?_, fun m hm => (hall _).mpr ⟨hm, rfl⟩,
    fun t ht => (by cases ht), fun t ht hne => absurd ((hall t).mp ht).2 hne⟩
  · simpa [Ledger.all] using hnd.map fun a b h => (Prod.mk.inj h).1
  · obtain ⟨hm, hnil⟩ := (hall t).mp ht
    obtain ⟨m, before⟩ := t
    obtain rfl : before = [] := hnil
    exact .of_initial hm

def Ledger.handle [DecidableEq M] (react : M → List M) (L : Ledger M) (t : M × List M) : Ledger M :=
  ⟨L.handled ++ [t], L.lost, L.inFlight.erase t + ↑((react t.1).map fun m => (m, t.1 :: t.2))⟩

theorem Ledger.all_handle [DecidableEq M] (react : M → List M) (L : Ledger M) {t : M × List M}
    (ht : t ∈ L.inFlight) : (L.handle react t).all = L.all + ((react t.1).map fun m => (m, t.1 :: t.2)) := by
  have hcons : L.all = (L.handled : Multiset (M × List M)) + L.lost + (t ::ₘ L.inFlight.erase t) := by
    rw [Multiset.cons_erase ht, Ledger.all]
  rw [hcons]
  show ((L.handled ++ [t] : List (M × List M)) : Multiset (M × List M)) + L.lost + (L.inFlight.erase t + _) = _
  rw [← Multiset.coe_add, Multiset.coe_singleton, ← Multiset.singleton_add]
  ac_rfl

theorem Accounts.handle [DecidableEq M] (h : Accounts react initial s L) {t : M × List M} (ht : t ∈ L.inFlight)
    (hnd : (react t.1).Nodup) {rest : Multiset M} (hrest : (L.inFlight.erase t).map Prod.fst = rest) :
    Accounts react initial ⟨rest + react t.1, s.handled ++ [t.1], s.lost⟩ (L.handle react t) := by
  have htrail := h.isTrail t (Ledger.mem_all.mpr (.inr (.inr ht)))
  let children : List (M × List M) := (react t.1).map fun m => (m, t.1 :: t.2)
  have hall : (L.handle react t).all = L.all + children := L.all_handle react ht
  have hnot : t ∉ L.handled := by
    intro hmem
    have hnd := h.nodup
    rw [Ledger.all, Multiset.nodup_add] at hnd
    exact Multiset.disjoint_left.mp hnd.2.2 (Multiset.mem_add.mpr (.inl hmem)) ht
  have hchild : ∀ x ∈ children, x.1 ∈ react t.1 ∧ x.2 = t.1 :: t.2 := by
    intro x hx
    obtain ⟨m, hm, rfl⟩ := List.mem_map.mp hx
    exact ⟨hm, rfl⟩
  have hmem : ∀ x, x ∈ (L.handle react t).all ↔ x ∈ L.all ∨ x ∈ children := by
    intro x
    rw [hall, Multiset.mem_add, Multiset.mem_coe]
  refine ⟨?_, h.lost_eq, ?_, ?_, ?_, ?_, ?_, ?_⟩
  · rw [Ledger.handle, List.map_append, h.handled_eq]
    rfl
  · rw [Ledger.handle, Multiset.map_add, hrest]
    simp [Function.comp_def]
  · rw [hall, Multiset.nodup_add]
    refine ⟨h.nodup, ?_, Multiset.disjoint_left.mpr fun {x} hx hx' => ?_⟩
    · exact hnd.map fun a b he => (Prod.mk.inj he).1
    · obtain ⟨-, hx2⟩ := hchild x hx'
      obtain ⟨u, hu, hux⟩ := h.sender x hx (by rw [hx2]; exact List.cons_ne_nil _ _)
      rw [hx2, List.cons.injEq] at hux
      exact hnot (Prod.ext hux.1 hux.2 ▸ hu)
  · intro x hx
    rcases (hmem x).mp hx with hx | hx
    · exact h.isTrail x hx
    · obtain ⟨hx1, hx2⟩ := hchild x hx
      obtain ⟨m, before⟩ := x
      obtain rfl : before = t.1 :: t.2 := hx2
      exact htrail.reaction hx1
  · exact fun m hm => (hmem _).mpr (.inl (h.initial_mem m hm))
  · intro u hu m hm
    rcases List.mem_append.mp hu with hu | hu
    · exact (hmem _).mpr (.inl (h.reaction_mem u hu m hm))
    · obtain rfl := List.mem_singleton.mp hu
      exact (hmem _).mpr (.inr (List.mem_map_of_mem hm))
  · intro x hx hne
    rcases (hmem x).mp hx with hx | hx
    · obtain ⟨u, hu, hux⟩ := h.sender x hx hne
      exact ⟨u, List.mem_append_left _ hu, hux⟩
    · exact ⟨t, by simp [Ledger.handle], (hchild x hx).2⟩

theorem Accounts.of_step (hreact : ∀ t, IsTrail react initial t → (react t.1).Nodup)
    (h : Accounts react initial s L) (hs : Step react s s') : ∃ L', Accounts react initial s' L' := by
  classical
  cases hs with
  | @handle m rest handled lost =>
    obtain ⟨t, ht, rfl, hrest⟩ := (Multiset.map_eq_cons Prod.fst L.inFlight rest m).mpr h.inFlight_eq
    exact ⟨_, h.handle ht (hreact t (h.isTrail t (Ledger.mem_all.mpr (.inr (.inr ht))))) hrest⟩
  | @lose m rest handled lost =>
    obtain ⟨t, ht, rfl, hrest⟩ := (Multiset.map_eq_cons Prod.fst L.inFlight rest m).mpr h.inFlight_eq
    have hall : Ledger.all ⟨L.handled, t ::ₘ L.lost, L.inFlight.erase t⟩ = L.all := by
      rw [Ledger.all, Ledger.all, ← Multiset.cons_erase ht]
      simp
    refine ⟨⟨L.handled, t ::ₘ L.lost, L.inFlight.erase t⟩, h.handled_eq, ?_, hrest, hall ▸ h.nodup, hall ▸ h.isTrail,
      hall ▸ h.initial_mem, hall ▸ h.reaction_mem, hall ▸ h.sender⟩
    rw [Multiset.map_cons, h.lost_eq]

/-- Every run has its ledger. -/
theorem Run.accounts (hnd : initial.Nodup) (hreact : ∀ t, IsTrail react initial t → (react t.1).Nodup)
    (h : Run react initial n s) : ∃ L, Accounts react initial s L := by
  induction h with
  | start => exact ⟨_, .start hnd⟩
  | step _ hs ih =>
    obtain ⟨L, hL⟩ := ih
    exact hL.of_step hreact hs

theorem Accounts.trail_mem (h : Accounts react initial s L) {t : M × List M} (ht : IsTrail react initial t) :
    t ∈ L.handled ∨ ∃ u ∈ L.lost + L.inFlight, u.1 :: u.2 <:+ t.1 :: t.2 := by
  obtain ⟨m, before⟩ := t
  induction before generalizing m with
  | nil =>
    rcases isTrail_cases ht with ⟨-, hm⟩ | ⟨u, -, -, hu⟩
    · rcases Ledger.mem_all.mp (h.initial_mem m hm) with hin | hin
      · exact .inl hin
      · exact .inr ⟨_, Multiset.mem_add.mpr hin, List.suffix_rfl⟩
    · cases hu
  | cons m' before ih =>
    rcases isTrail_cases ht with ⟨hnil, -⟩ | ⟨⟨m'', before'⟩, hu, hmem, heq⟩
    · cases hnil
    · cases heq
      rcases ih m'' hu with hin | ⟨u, hu', hsuffix⟩
      · rcases Ledger.mem_all.mp (h.reaction_mem _ hin m hmem) with hin | hin
        · exact .inl hin
        · exact .inr ⟨_, Multiset.mem_add.mpr hin, List.suffix_rfl⟩
      · exact .inr ⟨u, hu', hsuffix.trans (List.suffix_cons _ _)⟩

/-- What a run handles that loses nothing and comes to its end: all trails. -/
theorem Accounts.mem_handled_iff (h : Accounts react initial s L) (hlost : s.lost = 0) (hquiet : s.inFlight = 0)
    (t : M × List M) : t ∈ L.handled ↔ IsTrail react initial t := by
  constructor
  · exact fun ht => h.isTrail t (Ledger.mem_all.mpr (.inl ht))
  · intro ht
    rcases h.trail_mem ht with ht | ⟨u, hu, -⟩
    · exact ht
    · have hl : L.lost = 0 := Multiset.map_eq_zero.mp (h.lost_eq.trans hlost)
      have hf : L.inFlight = 0 := Multiset.map_eq_zero.mp (h.inFlight_eq.trans hquiet)
      rw [hl, hf] at hu
      exact absurd hu (Multiset.notMem_zero u)

theorem Accounts.nodup_handled (h : Accounts react initial s L) : L.handled.Nodup := by
  have hnd := h.nodup
  rw [Ledger.all, Multiset.nodup_add, Multiset.nodup_add] at hnd
  exact hnd.1.1

/-- Messages with different trails `msg x`, told from what `sel` reads off them: each of them is handled at most once,
and what is read off is what belongs to `x`. -/
theorem Accounts.exists_read {X β : Type*} (h : Accounts react initial s L) {msg : X → M × List M} {Valid : X → Prop}
    {sel : M → Option β} {val : X → β}
    (hmsg : ∀ t, IsTrail react initial t → ∀ b, sel t.1 = some b → ∃ x, Valid x ∧ t = msg x)
    (hsel : ∀ x, Valid x → sel (msg x).1 = some (val x))
    (hinj : ∀ x y, Valid x → Valid y → msg x = msg y → x = y) :
    ∃ xs : List X, xs.Nodup ∧ (∀ x ∈ xs, Valid x) ∧ s.handled.filterMap sel = xs.map val ∧
      ∀ x, Valid x → msg x ∈ L.handled → x ∈ xs := by
  classical
  let f : M × List M → Option X := fun t => if ht : ∃ x, Valid x ∧ t = msg x then some ht.choose else none
  have hf : ∀ t x, f t = some x → Valid x ∧ t = msg x := by
    intro t x hx
    by_cases ht : ∃ x, Valid x ∧ t = msg x
    · obtain rfl := Option.some.inj ((dif_pos ht).symm.trans hx)
      exact ht.choose_spec
    · cases (dif_neg ht).symm.trans hx
  have hval : ∀ x, Valid x → f (msg x) = some x := by
    intro x hx
    have ht : ∃ y, Valid y ∧ msg x = msg y := ⟨x, hx, rfl⟩
    exact (dif_pos ht).trans (congrArg some (hinj _ _ ht.choose_spec.1 hx ht.choose_spec.2.symm))
  refine ⟨L.handled.filterMap f, ?_, fun x hx => ?_, ?_, fun x hx hin => ?_⟩
  · refine h.nodup_handled.filterMap fun t t' x hx hx' => ?_
    rw [(hf t x hx).2, (hf t' x hx').2]
  · obtain ⟨t, -, ht⟩ := List.mem_filterMap.mp hx
    exact (hf t x ht).1
  · rw [← h.handled_eq, List.filterMap_map, List.map_filterMap]
    refine List.filterMap_congr fun t ht => ?_
    have htrail := h.isTrail t (Ledger.mem_all.mpr (.inl ht))
    show sel t.1 = (f t).map val
    cases hb : sel t.1 with
    | some b =>
      obtain ⟨x, hx, rfl⟩ := hmsg t htrail b hb
      rw [hval x hx, Option.map_some, ← hb, hsel x hx]
    | none =>
      cases hx : f t with
      | none => rfl
      | some x =>
        obtain ⟨hvalid, rfl⟩ := hf t x hx
        cases hb.symm.trans (hsel x hvalid)
  · exact List.mem_filterMap.mpr ⟨_, hin, hval x hx⟩

theorem Run.length_eq (h : Run react initial n s) : s.handled.length + s.lost.card = n := by
  induction h with
  | start => rfl
  | step _ hs ih =>
    cases hs with
    | handle =>
      dsimp only at ih ⊢
      rw [List.length_append, List.length_singleton]
      omega
    | lose =>
      dsimp only at ih ⊢
      rw [Multiset.card_cons]
      omega

theorem Run.expand {f : M → Multiset M} (hf : ∀ m, f m = m ::ₘ Multiset.bind (react m) f)
    (h : Run react initial n s) :
    (s.handled : Multiset M) + s.inFlight.bind f + s.lost.bind f = Multiset.bind initial f := by
  induction h with
  | start => simp
  | step _ hs ih =>
    rw [← ih]
    cases hs with
    | @handle m rest handled lost =>
      dsimp only
      rw [← Multiset.coe_add, Multiset.coe_singleton, Multiset.add_bind, Multiset.cons_bind, hf m,
        ← Multiset.singleton_add m ((react m : Multiset M).bind f)]
      ac_rfl
    | @lose m rest handled lost =>
      dsimp only
      rw [Multiset.cons_bind, Multiset.cons_bind]
      ac_rfl

theorem Run.handle_all {ms handled : List M} {rest lost : Multiset M} (hms : ∀ m ∈ ms, react m = [])
    (h : Run react initial n ⟨ms + rest, handled, lost⟩) : ∃ n', Run react initial n' ⟨rest, handled ++ ms, lost⟩ := by
  induction ms generalizing n handled with
  | nil => exact ⟨n, by simpa using h⟩
  | cons m ms ih =>
    obtain ⟨hm, hms⟩ := List.forall_mem_cons.mp hms
    rw [← Multiset.cons_coe, Multiset.cons_add] at h
    have hnext := h.step .handle
    rw [hm, Multiset.coe_nil, add_zero] at hnext
    obtain ⟨n', hn'⟩ := ih hms hnext
    exact ⟨n', by simpa using hn'⟩

/-! ### The end of a run -/

/-- Nothing is lost, and at the end nothing is in flight. -/
structure Complete (react : M → List M) (initial : List M) (s : State M) : Prop where
  run : ∃ n, Run react initial n s
  lost : s.lost = 0
  quiet : s.inFlight = 0

theorem exists_handle (h : s.inFlight ≠ 0) : ∃ s', Step react s s' ∧ s'.lost = s.lost := by
  obtain ⟨m, hm⟩ := Multiset.exists_mem_of_ne_zero h
  obtain ⟨rest, hrest⟩ := Multiset.exists_cons_of_mem hm
  obtain ⟨inFlight, handled, lost⟩ := s
  obtain rfl : inFlight = m ::ₘ rest := hrest
  exact ⟨_, .handle, rfl⟩

theorem exists_complete_or_run (k : Nat) :
    (∃ s, Complete react initial s) ∨ ∃ s, Run react initial k s ∧ s.lost = 0 := by
  induction k with
  | zero => exact .inr ⟨_, .start, rfl⟩
  | succ k ih =>
    rcases ih with ih | ⟨s, hs, hlost⟩
    · exact .inl ih
    · by_cases hquiet : s.inFlight = 0
      · exact .inl ⟨s, ⟨k, hs⟩, hlost, hquiet⟩
      · obtain ⟨s', hstep, hlost'⟩ := @exists_handle M react s hquiet
        exact .inr ⟨s', hs.step hstep, hlost'.trans hlost⟩

variable (hreact : ∀ t, IsTrail react initial t → (react t.1).Nodup)
include hreact

/-- Every trail is handled in some run; without losses, and with what has been handled before. -/
theorem Run.exists_handled (h : Run react initial n s) (hL : Accounts react initial s L) (hlost : s.lost = 0)
    {t : M × List M} (ht : IsTrail react initial t) : ∃ n' s' L', Run react initial n' s' ∧
      Accounts react initial s' L' ∧ s'.lost = 0 ∧ L.handled ⊆ L'.handled ∧ t ∈ L'.handled := by
  classical
  -- when what has led to it is handled, it is in flight or handled itself
  have hnext : ∀ {n : Nat} {s : State M} {L : Ledger M}, Run react initial n s → Accounts react initial s L →
      s.lost = 0 → ∀ t ∈ L.all, ∃ n' s' L', Run react initial n' s' ∧ Accounts react initial s' L' ∧
        s'.lost = 0 ∧ L.handled ⊆ L'.handled ∧ t ∈ L'.handled := by
    intro n s L h hL hlost t ht
    rcases Ledger.mem_all.mp ht with hin | hin | hin
    · exact ⟨n, s, L, h, hL, hlost, List.Subset.refl _, hin⟩
    · rw [Multiset.map_eq_zero.mp (hL.lost_eq.trans hlost)] at hin
      exact absurd hin (Multiset.notMem_zero t)
    · have hflight : s.inFlight = t.1 ::ₘ (L.inFlight.erase t).map Prod.fst := by
        rw [← hL.inFlight_eq, ← Multiset.map_cons, Multiset.cons_erase hin]
      have hacc := hL.handle hin (hreact t (hL.isTrail t ht)) rfl
      have hstep : Step react s ⟨(L.inFlight.erase t).map Prod.fst + react t.1, s.handled ++ [t.1], s.lost⟩ := by
        obtain ⟨inFlight, handled, lost⟩ := s
        dsimp only at hflight ⊢
        rw [hflight]
        exact .handle
      exact ⟨_, _, _, h.step hstep, hacc, hlost, List.subset_append_left _ _, by simp [Ledger.handle]⟩
  obtain ⟨m, before⟩ := t
  induction before generalizing m with
  | nil =>
    rcases isTrail_cases ht with ⟨-, hm⟩ | ⟨u, -, -, hu⟩
    · exact hnext h hL hlost _ (hL.initial_mem m hm)
    · cases hu
  | cons m' before ih =>
    rcases isTrail_cases ht with ⟨hnil, -⟩ | ⟨⟨m'', before'⟩, hu, hmem, heq⟩
    · cases hnil
    · cases heq
      obtain ⟨n₁, s₁, L₁, h₁, hL₁, hlost₁, hsub, hin⟩ := ih m'' hu
      obtain ⟨n₂, s₂, L₂, h₂, hL₂, hlost₂, hsub₂, hin₂⟩ := hnext h₁ hL₁ hlost₁ _ (hL₁.reaction_mem _ hin m hmem)
      exact ⟨n₂, s₂, L₂, h₂, hL₂, hlost₂, List.Subset.trans hsub hsub₂, hin₂⟩

variable (hnd : initial.Nodup)
include hnd

theorem Run.le_ncard (hfin : {t | IsTrail react initial t}.Finite) (h : Run react initial n s) :
    n ≤ {t | IsTrail react initial t}.ncard := by
  classical
  obtain ⟨L, hL⟩ := h.accounts hnd hreact
  have hcard : n ≤ L.all.card := by
    have hlen := congrArg List.length hL.handled_eq
    have hlost := congrArg Multiset.card hL.lost_eq
    rw [List.length_map] at hlen
    rw [Multiset.card_map] at hlost
    have := h.length_eq
    simp only [Ledger.all, Multiset.card_add, Multiset.coe_card]
    omega
  refine hcard.trans ?_
  rw [← Multiset.toFinset_card_of_nodup hL.nodup, ← Set.ncard_coe_finset]
  refine Set.ncard_le_ncard (fun t ht => ?_) hfin
  exact hL.isTrail t (Multiset.mem_toFinset.mp ht)

/-- With finitely many trails some run loses nothing and comes to its end. -/
theorem exists_complete (hfin : {t | IsTrail react initial t}.Finite) : ∃ s, Complete react initial s := by
  rcases @exists_complete_or_run M react initial ({t | IsTrail react initial t}.ncard + 1) with h | ⟨s, hrun, -⟩
  · exact h
  · have := hrun.le_ncard hreact hnd hfin
    omega

end
end Flood
