import Mathlib.Logic.Basic
import Mathlib.Data.List.Forall2
import Mathlib.Data.List.Nodup
import Mathlib.Data.Option.Basic
import Mathlib.Logic.Relation

/-!
# Rounds of guarded rewriting

`run fire l n s` sweeps over the rule list `l` again and again, as a
`while (changed) { changed = false; for (i : l) ... }` loop does, until a whole sweep changes
nothing. A rule may be disabled (`none`), rewrite the state (`.ok`) or leave both loops (`.error`).
`n` bounds the number of sweeps; `run_terminates` says which bound is enough. Invariants
(`run_induction`) and simulations (`run_rel`) are proved from what one rule does, and that the order
of the list does not matter (`run_confluent`) from what two rules do. Steps and loops in `Except` have rules of
their own; `OkIff` says exactly when one succeeds.
-/

namespace Rounds

universe u v w
variable {ι σ τ ε δ : Type*}

/-- One sweep of the `for` loop; the flag records whether some rule rewrote the state. -/
def pass (fire : ι → σ → Option (Except ε σ)) : List ι → σ → Bool → Except ε (σ × Bool)
  | [], s, changed => .ok (s, changed)
  | i :: l, s, changed =>
    match fire i s with
    | none => pass fire l s changed
    | some (.ok s') => pass fire l s' true
    | some (.error e) => .error e

/-- The `while` loop, for at most `n` sweeps. -/
def run (fire : ι → σ → Option (Except ε σ)) (l : List ι) : Nat → σ → Option (Except ε σ)
  | 0, _ => none
  | n + 1, s =>
    match pass fire l s false with
    | .error e => some (.error e)
    | .ok (s', true) => run fire l n s'
    | .ok (s', false) => some (.ok s')

/-- A result satisfies `P` if it is a state, `Q` if it left the loop. -/
def Ends (P : σ → Prop) (Q : ε → Prop) : Except ε σ → Prop
  | .ok s => P s
  | .error e => Q e

/-- Two results agree: both states, related by `R`, or both left the loop, related by `E`. -/
inductive Agree (R : σ → τ → Prop) (E : ε → δ → Prop) : Except ε σ → Except δ τ → Prop
  | ok {s t} : R s t → Agree R E (.ok s) (.ok t)
  | error {e d} : E e d → Agree R E (.error e) (.error d)

theorem Agree.ok_left {R : σ → τ → Prop} {E : ε → δ → Prop} {a : Option (Except ε σ)} {b : Option (Except δ τ)}
    (h : Option.Rel (Agree R E) a b) {s : σ} (ha : a = some (.ok s)) : ∃ t, b = some (.ok t) ∧ R s t := by
  subst ha
  rcases h with ⟨⟨hR⟩⟩
  exact ⟨_, rfl, hR⟩

theorem Agree.ok_right {R : σ → τ → Prop} {E : ε → δ → Prop} {a : Option (Except ε σ)} {b : Option (Except δ τ)}
    (h : Option.Rel (Agree R E) a b) {t : τ} (hb : b = some (.ok t)) : ∃ s, a = some (.ok s) ∧ R s t := by
  subst hb
  rcases h with ⟨⟨hR⟩⟩
  exact ⟨_, rfl, hR⟩

theorem bind_ok {ε : Type u} {α β : Type v} {x : Except ε α} {f : α → Except ε β} {b : β}
    (h : x >>= f = .ok b) :
    ∃ a, x = .ok a ∧ f a = .ok b := by
  cases x with
  | error e => cases h
  | ok a => exact ⟨a, rfl, h⟩

theorem bind_total {ε : Type u} {α β : Type v} {x : Except ε α} {f : α → Except ε β}
    {P : α → Prop} {Q : β → Prop}
    (hx : ∃ a, x = .ok a ∧ P a) (hf : ∀ a, x = .ok a → P a → ∃ b, f a = .ok b ∧ Q b) :
    ∃ b, x >>= f = .ok b ∧ Q b := by
  obtain ⟨a, rfl, ha⟩ := hx
  exact hf a rfl ha

theorem map_of_mapM {ε : Type u} {α : Type w} {β : Type v} {f : α → Except ε β} {l : List α} {l' : List β}
    (h : l.mapM f = .ok l') : l.map f = l'.map .ok := by
  induction l generalizing l' with
  | nil => cases h; rfl
  | cons a l ih =>
    rw [List.mapM_cons] at h
    obtain ⟨c, hc, h⟩ := bind_ok h
    obtain ⟨l₁, hl₁, h⟩ := bind_ok h
    cases h
    rw [List.map_cons, List.map_cons, hc, ih hl₁]

theorem mem_of_mapM {ε : Type u} {α : Type w} {β : Type v} {f : α → Except ε β} {l : List α} {l' : List β}
    (h : l.mapM f = .ok l') {b : β} (hb : b ∈ l') : ∃ a ∈ l, f a = .ok b := by
  have hmem : Except.ok b ∈ l.map f := map_of_mapM h ▸ List.mem_map_of_mem hb
  exact List.mem_map.mp hmem

theorem exists_of_mapM {ε : Type u} {α : Type w} {β : Type v} {f : α → Except ε β} {l : List α} {l' : List β}
    (h : l.mapM f = .ok l') {a : α} (ha : a ∈ l) : ∃ b ∈ l', f a = .ok b := by
  have hmem : f a ∈ l'.map .ok := map_of_mapM h ▸ List.mem_map_of_mem ha
  obtain ⟨b, hb, hf⟩ := List.mem_map.mp hmem
  exact ⟨b, hb, hf.symm⟩

theorem mapM_of_forall₂ {ε : Type u} {α : Type w} {β : Type v} {f : α → Except ε β} {l : List α} {l' : List β}
    (h : List.Forall₂ (fun a b => f a = .ok b) l l') : l.mapM f = .ok l' := by
  induction h with
  | nil => rfl
  | cons ha _ ih => rw [List.mapM_cons, ha, ih]; rfl

theorem exists_ok {ε : Type u} {α : Type v} {x : Except ε α} {P : α → Prop} [DecidablePred P]
    (h : x.toOption.any (fun a => decide (P a)) = true) : ∃ a, x = .ok a ∧ P a := by
  cases x with
  | error e => cases h
  | ok a => exact ⟨a, rfl, of_decide_eq_true h⟩

/-- The invariant rule for a single `for` loop that may leave with an error: `P` speaks of the items that
have been done, and the body may look at what is left to do. -/
theorem foldlM_prefix {f : σ → ι → Except ε σ} {P : List ι → σ → Prop} {l : List ι}
    (hf : ∀ done i todo s s', done ++ i :: todo = l → P done s → f s i = .ok s' → P (done ++ [i]) s') {s s' : σ}
    (h0 : P [] s) (h : l.foldlM f s = .ok s') : P l s' := by
  have key : ∀ todo done s, done ++ todo = l → P done s → todo.foldlM f s = .ok s' → P l s' := by
    intro todo
    induction todo with
    | nil => intro done s hl hP h; cases h; rwa [← hl, List.append_nil]
    | cons i todo ih =>
      intro done s hl hP h
      rw [List.foldlM_cons] at h
      cases hi : f s i with
      | error e => rw [hi] at h; cases h
      | ok s₁ =>
        rw [hi] at h
        exact ih (done ++ [i]) s₁ (by rw [← hl]; simp) (hf done i todo s s₁ hl hP hi) h
  exact key l [] s rfl h0 h

theorem foldlM_induction {f : σ → ι → Except ε σ} {P : List ι → σ → Prop} {l : List ι}
    (hf : ∀ done i s s', i ∈ l → P done s → f s i = .ok s' → P (done ++ [i]) s') {s s' : σ}
    (h0 : P [] s) (h : l.foldlM f s = .ok s') : P l s' := by
  refine foldlM_prefix (fun done i todo s s' hl => hf done i s s' ?_) h0 h
  rw [← hl]
  exact List.mem_append_right _ (List.mem_cons_self ..)

theorem foldlM_total {f : σ → ι → Except ε σ} {P : σ → Prop} {l : List ι}
    (hf : ∀ i ∈ l, ∀ s, P s → ∃ s', f s i = .ok s' ∧ P s') {s : σ} (hs : P s) :
    ∃ s', l.foldlM f s = .ok s' ∧ P s' := by
  induction l generalizing s with
  | nil => exact ⟨s, rfl, hs⟩
  | cons i l ih =>
    obtain ⟨s₁, h₁, hs₁⟩ := hf i (List.mem_cons_self ..) s hs
    rw [List.foldlM_cons, h₁]
    exact ih (fun j hj => hf j (List.mem_cons_of_mem _ hj)) hs₁

theorem foldlM_error {f : σ → ι → Except ε σ} {l : List ι} {s : σ} {e : ε} (h : l.foldlM f s = .error e) :
    ∃ i s', i ∈ l ∧ f s' i = .error e := by
  induction l generalizing s with
  | nil => cases h
  | cons i l ih =>
    rw [List.foldlM_cons] at h
    cases hi : f s i with
    | error e' =>
      rw [hi] at h
      cases h
      exact ⟨i, s, List.mem_cons_self .., hi⟩
    | ok s₁ =>
      rw [hi] at h
      obtain ⟨j, s', hj, hf⟩ := ih h
      exact ⟨j, s', List.mem_cons_of_mem _ hj, hf⟩

theorem foldlM_ok_iff {f : σ → ι → Except ε σ} {Q : ι → Prop} {l : List ι}
    (hf : ∀ i ∈ l, ∀ s, (∃ s', f s i = .ok s') ↔ Q i) (s : σ) : (∃ s', l.foldlM f s = .ok s') ↔ ∀ i ∈ l, Q i := by
  constructor
  · rintro ⟨s', h⟩
    refine foldlM_induction (P := fun done _ => ∀ i ∈ done, Q i) ?_ (by simp) h
    intro done i s s' hi hdone hs j hj
    rcases List.mem_append.mp hj with hj | hj
    · exact hdone j hj
    · exact List.mem_singleton.mp hj ▸ (hf i hi s).mp ⟨s', hs⟩
  · intro hQ
    obtain ⟨s', h, -⟩ := foldlM_total (P := fun _ => True)
      (fun i hi s _ => ((hf i hi s).mpr (hQ i hi)).imp fun _ h => ⟨h, trivial⟩) trivial
    exact ⟨s', h⟩

theorem mapM_total {ε : Type u} {α : Type w} {β : Type v} {f : α → Except ε β} {l : List α}
    (hf : ∀ a ∈ l, ∃ b, f a = .ok b) : ∃ l', l.mapM f = .ok l' := by
  induction l with
  | nil => exact ⟨[], rfl⟩
  | cons a l ih =>
    obtain ⟨b, hb⟩ := hf a (List.mem_cons_self ..)
    obtain ⟨l', hl'⟩ := ih fun a' ha' => hf a' (List.mem_cons_of_mem _ ha')
    exact ⟨b :: l', by rw [List.mapM_cons, hb, hl']; rfl⟩

/-- `x` succeeds exactly if `P` holds, and fails with `e` otherwise. -/
structure OkIff {ε : Type u} {α : Type v} (x : Except ε α) (P : Prop) (e : ε) : Prop where
  ok : P → ∃ a, x = .ok a
  error : ¬ P → x = .error e

namespace OkIff
variable {ε : Type u} {α : Type w} {β : Type v} {P Q : Prop} {e : ε}

theorem exists_ok_iff {x : Except ε α} (h : OkIff x P e) : (∃ a, x = .ok a) ↔ P := by
  refine ⟨?_, h.ok⟩
  rintro ⟨a, ha⟩
  by_contra hP
  rw [h.error hP] at ha
  cases ha

theorem congr {x : Except ε α} (h : OkIff x P e) (hPQ : P ↔ Q) : OkIff x Q e :=
  ⟨fun hQ => h.ok (hPQ.mpr hQ), fun hQ => h.error fun hP => hQ (hPQ.mp hP)⟩

theorem of_ok {x : Except ε α} {a : α} (h : x = .ok a) (hP : P) : OkIff x P e :=
  ⟨fun _ => ⟨a, h⟩, fun hn => absurd hP hn⟩

theorem bind {α β : Type v} {x : Except ε α} {f : α → Except ε β} (hx : OkIff x P e)
    (hf : ∀ a, x = .ok a → OkIff (f a) Q e) : OkIff (x >>= f) (P ∧ Q) e := by
  by_cases hP : P
  · obtain ⟨a, ha⟩ := hx.ok hP
    have hfa := hf a ha
    rw [ha]
    exact ⟨fun h => hfa.ok h.2, fun h => hfa.error fun hQ => h ⟨hP, hQ⟩⟩
  · refine ⟨fun h => absurd h.1 hP, fun _ => ?_⟩
    rw [hx.error hP]
    rfl

theorem foldlM {f : σ → ι → Except ε σ} {Q : ι → Prop} {l : List ι}
    (hf : ∀ i ∈ l, ∀ s, OkIff (f s i) (Q i) e) (s : σ) : OkIff (l.foldlM f s) (∀ i ∈ l, Q i) e := by
  induction l generalizing s with
  | nil => exact of_ok rfl (by simp)
  | cons i l ih =>
    rw [List.foldlM_cons]
    exact ((hf i (List.mem_cons_self ..) s).bind fun s' _ =>
      ih (fun j hj => hf j (List.mem_cons_of_mem _ hj)) s').congr (by simp)

theorem mapM {f : α → Except ε β} {Q : α → Prop} {l : List α} (hf : ∀ a ∈ l, OkIff (f a) (Q a) e) :
    OkIff (l.mapM f) (∀ a ∈ l, Q a) e := by
  induction l with
  | nil => exact of_ok rfl (by simp)
  | cons a l ih =>
    rw [List.mapM_cons]
    have hl := ih fun b hb => hf b (List.mem_cons_of_mem _ hb)
    exact ((hf a (List.mem_cons_self ..)).bind fun b _ =>
      hl.bind (Q := True) fun l' _ => of_ok rfl trivial).congr (by simp)

end OkIff

section Pairs
variable {α β : Type*} [DecidableEq α] [DecidableEq β] {l : List α} {a b y : α}

/-- What a loop in a loop over the same items visits, an item paired with itself left out. -/
def pairs (l : List α) : List (α × α) := l.flatMap fun a => (l.filter (· ≠ a)).map fun b => (a, b)

theorem mem_pairs : (a, b) ∈ pairs l ↔ a ∈ l ∧ b ∈ l ∧ a ≠ b := by
  simp only [pairs, List.mem_flatMap, List.mem_map, List.mem_filter, Prod.mk.injEq, decide_eq_true_eq]
  constructor
  · rintro ⟨_, h1, _, ⟨h2, hne⟩, rfl, rfl⟩
    exact ⟨h1, h2, Ne.symm hne⟩
  · rintro ⟨h1, h2, hne⟩
    exact ⟨a, h1, b, ⟨h2, Ne.symm hne⟩, rfl, rfl⟩

theorem nodup_pairs (h : l.Nodup) : (pairs l).Nodup := by
  refine List.nodup_flatMap.mpr ⟨fun a _ => (h.filter _).map fun _ _ he => (Prod.mk.inj he).2, ?_⟩
  refine h.imp fun {a b} hne x hx hx' => ?_
  obtain ⟨_, -, rfl⟩ := List.mem_map.mp hx
  obtain ⟨_, -, he⟩ := List.mem_map.mp hx'
  exact hne (Prod.mk.inj he).1.symm

theorem pairs_map {f : α → β} (hf : ∀ a ∈ l, ∀ b ∈ l, f a = f b → a = b) :
    (pairs l).map (Prod.map f f) = pairs (l.map f) := by
  rw [pairs, pairs, List.map_flatMap, List.flatMap_map]
  refine List.flatMap_congr fun a ha => ?_
  rw [List.map_map, List.filter_map, List.map_map]
  refine congrArg _ (List.filter_congr fun b hb => ?_)
  exact decide_eq_decide.mpr (not_congr ⟨congrArg f, hf b hb a ha⟩)

theorem pairs_prefix {done todo : List (α × α)} (h : done ++ (a, b) :: todo = pairs l) (hy : (b, y) ∈ done) :
    (b, a) ∈ done := by
  have hpair : (a, b) ∈ pairs l := by
    rw [← h]
    exact List.mem_append_right _ (List.mem_cons_self ..)
  obtain ⟨hal, -, hne⟩ := mem_pairs.mp hpair
  have key : ∀ (l' : List α) done, done ++ (a, b) :: todo =
      l'.flatMap (fun x => (l.filter (· ≠ x)).map fun z => (x, z)) → (b, y) ∈ done → (b, a) ∈ done := by
    intro l'
    induction l' with
    | nil => intro done h _; simp at h
    | cons x l' ih =>
      intro done h hy
      have hrow : (b, a) ∈ (l.filter (· ≠ b)).map fun z => (b, z) :=
        List.mem_map.mpr ⟨a, List.mem_filter.mpr ⟨hal, by simpa using hne⟩, rfl⟩
      have hfst : ∀ p : α × α, p ∈ (l.filter (· ≠ x)).map (fun z => (x, z)) → p.1 = x ∧ p.2 ≠ x := by
        intro p hp
        obtain ⟨z, hz, rfl⟩ := List.mem_map.mp hp
        exact ⟨rfl, by simpa using (List.mem_filter.mp hz).2⟩
      rw [List.flatMap_cons] at h
      rcases List.append_eq_append_iff.mp h with ⟨e, hx, he⟩ | ⟨e, hdone, he⟩
      · -- the row of `x` is not complete, and it is the one of `b` and of `a`
        obtain rfl := (hfst (b, y) (by rw [hx]; exact List.mem_append_left _ hy)).1
        cases e with
        | nil => rw [List.append_nil] at hx; rwa [← hx]
        | cons p e =>
          obtain rfl := (List.cons.inj he).1
          have hab := hfst (a, b) (by rw [hx]; exact List.mem_append_right _ (List.mem_cons_self ..))
          exact absurd rfl hab.2
      · rw [hdone] at hy ⊢
        by_cases hxb : x = b
        · subst hxb
          exact List.mem_append_left _ hrow
        · rcases List.mem_append.mp hy with hy | hy
          · exact absurd (hfst _ hy).1.symm hxb
          · exact List.mem_append_right _ (ih e he.symm hy)
  exact key l done h hy

end Pairs

section Invariant
variable {fire : ι → σ → Option (Except ε σ)} {l : List ι} {P : σ → Prop} {Q : ε → Prop}

theorem pass_induction (hf : ∀ i ∈ l, ∀ s r, P s → fire i s = some r → Ends P Q r) {s : σ} (c : Bool)
    (hs : P s) : Ends (fun p => P p.1) Q (pass fire l s c) := by
  induction l generalizing s c with
  | nil => exact hs
  | cons i l ih =>
    have ih := fun s c => ih (s := s) (fun j hj => hf j (List.mem_cons_of_mem _ hj)) c
    have hi := fun r => hf i (List.mem_cons_self ..) s r hs
    simp only [pass]
    split
    · exact ih s c hs
    · rename_i s' heq
      exact ih s' true (hi (.ok s') heq)
    · rename_i e heq
      exact hi (.error e) heq

/-- The invariant rule: what every enabled rule keeps, the loop keeps. -/
theorem run_induction (hf : ∀ i ∈ l, ∀ s r, P s → fire i s = some r → Ends P Q r) {n : Nat} {s : σ}
    {r : Except ε σ} (hs : P s) (hr : run fire l n s = some r) : Ends P Q r := by
  induction n generalizing s with
  | zero => cases hr
  | succ n ih =>
    have hp := pass_induction hf false hs
    rw [run] at hr
    split at hr <;> rename_i heq <;> rw [heq] at hp
    · cases hr; exact hp
    · exact ih hp hr
    · cases hr; exact hp

theorem pass_unchanged {s s' : σ} {c : Bool} (h : pass fire l s c = .ok (s', false)) :
    s' = s ∧ c = false ∧ ∀ i ∈ l, fire i s = none := by
  induction l generalizing s c with
  | nil => simp only [pass, Except.ok.injEq, Prod.mk.injEq] at h; simp [h]
  | cons i l ih =>
    simp only [pass] at h
    split at h
    · obtain ⟨rfl, hc, hl⟩ := ih h
      refine ⟨rfl, hc, fun j hj => ?_⟩
      rcases List.mem_cons.mp hj with rfl | hj
      · assumption
      · exact hl j hj
    · exact absurd (ih h).2.1 (by simp)
    · cases h

/-- At its normal exit no rule of the list is enabled. -/
theorem run_stable {n : Nat} {s s' : σ} (h : run fire l n s = some (.ok s')) :
    ∀ i ∈ l, fire i s' = none := by
  induction n generalizing s with
  | zero => cases h
  | succ n ih =>
    rw [run] at h
    split at h
    · cases h
    · exact ih h
    · rename_i heq
      cases h
      obtain ⟨rfl, -, hl⟩ := pass_unchanged heq
      exact hl

theorem run_mono {n n' : Nat} {s : σ} {r : Except ε σ} (h : run fire l n s = some r) (hn : n ≤ n') :
    run fire l n' s = some r := by
  induction n generalizing s n' with
  | zero => cases h
  | succ n ih =>
    obtain ⟨n', rfl⟩ : ∃ m, n' = m + 1 := ⟨n' - 1, by omega⟩
    rw [run] at h ⊢
    split at h
    · exact h
    · exact ih h (by omega)
    · exact h

theorem pass_of_foldl {f : σ → ι → σ} (hf : ∀ s i, (fire i s = none ∧ f s i = s) ∨ fire i s = some (.ok (f s i)))
    (s : σ) (c : Bool) : ∃ c', pass fire l s c = .ok (l.foldl f s, c') := by
  induction l generalizing s c with
  | nil => exact ⟨c, rfl⟩
  | cons i l ih =>
    simp only [pass, List.foldl_cons]
    rcases hf s i with ⟨hi, hs⟩ | hi <;> rw [hi]
    · rw [hs]; exact ih s c
    · exact ih (f s i) true

theorem pass_of_stable {s : σ} (hs : ∀ i ∈ l, fire i s = none) (c : Bool) : pass fire l s c = .ok (s, c) := by
  induction l with
  | nil => rfl
  | cons i l ih =>
    rw [pass, hs i (List.mem_cons_self ..)]
    exact ih fun j hj => hs j (List.mem_cons_of_mem _ hj)

theorem run_of_pass {s s' : σ} {c : Bool} (h : pass fire l s false = .ok (s', c))
    (hs : ∀ i ∈ l, fire i s' = none) : run fire l 2 s = some (.ok s') := by
  rw [run, h]
  cases c with
  | false => rfl
  | true => show run fire l 1 s' = _; rw [run, pass_of_stable hs]

theorem run_det {n n' : Nat} {s : σ} {r r' : Except ε σ} (h : run fire l n s = some r)
    (h' : run fire l n' s = some r') : r = r' :=
  Option.some.inj ((run_mono h (Nat.le_max_left n n')).symm.trans (run_mono h' (Nat.le_max_right n n')))

theorem pass_measure {v : σ → Nat}
    (hf : ∀ i ∈ l, ∀ s s', P s → fire i s = some (.ok s') → P s' ∧ v s' < v s) {s s' : σ} {c c' : Bool}
    (hs : P s) (h : pass fire l s c = .ok (s', c')) :
    P s' ∧ v s' ≤ v s ∧ (c' = true → c = true ∨ v s' < v s) := by
  induction l generalizing s c with
  | nil =>
    simp only [pass, Except.ok.injEq, Prod.mk.injEq] at h
    obtain ⟨rfl, rfl⟩ := h
    exact ⟨hs, Nat.le_refl _, .inl⟩
  | cons i l ih =>
    have ih := fun s c => ih (s := s) (c := c) fun j hj => hf j (List.mem_cons_of_mem _ hj)
    simp only [pass] at h
    split at h
    · exact ih _ _ hs h
    · rename_i s₁ heq
      obtain ⟨h₁, hlt⟩ := hf i (List.mem_cons_self ..) s s₁ hs heq
      obtain ⟨hP, hle, -⟩ := ih _ _ h₁ h
      exact ⟨hP, by omega, fun _ => .inr (by omega)⟩
    · cases h

/-- The variant rule: if every rewrite lowers `v`, then more sweeps than `v` says are enough. -/
theorem run_terminates {v : σ → Nat}
    (hf : ∀ i ∈ l, ∀ s s', P s → fire i s = some (.ok s') → P s' ∧ v s' < v s) {n : Nat} {s : σ}
    (hs : P s) (hn : v s < n) : ∃ r, run fire l n s = some r := by
  induction n generalizing s with
  | zero => omega
  | succ n ih =>
    rw [run]
    split
    · exact ⟨_, rfl⟩
    · rename_i s' heq
      obtain ⟨hP, -, hlt⟩ := pass_measure hf hs heq
      rcases hlt rfl with hlt | hlt
      · cases hlt
      · exact ih hP (by omega)
    · exact ⟨_, rfl⟩

end Invariant

section Simulation
variable {fire : ι → σ → Option (Except ε σ)} {fire' : ι → τ → Option (Except δ τ)} {l : List ι}
  {R : σ → τ → Prop} {E : ε → δ → Prop}

theorem pass_rel (hf : ∀ i ∈ l, ∀ s t, R s t → Option.Rel (Agree R E) (fire i s) (fire' i t)) {s : σ}
    {t : τ} (c : Bool) (h : R s t) :
    Agree (fun p q => R p.1 q.1 ∧ p.2 = q.2) E (pass fire l s c) (pass fire' l t c) := by
  induction l generalizing s t c with
  | nil => exact .ok ⟨h, rfl⟩
  | cons i l ih =>
    have ih := fun s t c => ih (s := s) (t := t) (fun j hj => hf j (List.mem_cons_of_mem _ hj)) c
    have hi := hf i (List.mem_cons_self ..) s t h
    simp only [pass]
    generalize fire i s = a, fire' i t = b at hi
    cases hi with
    | none => exact ih _ _ _ h
    | some hab =>
      cases hab with
      | ok h' => exact ih _ _ _ h'
      | error he => exact .error he

/-- The simulation rule: two loops over the same list whose rules agree end in agreement. -/
theorem run_rel (hf : ∀ i ∈ l, ∀ s t, R s t → Option.Rel (Agree R E) (fire i s) (fire' i t)) (n : Nat)
    {s : σ} {t : τ} (h : R s t) : Option.Rel (Agree R E) (run fire l n s) (run fire' l n t) := by
  induction n generalizing s t with
  | zero => exact .none
  | succ n ih =>
    have hp := pass_rel hf false h
    simp only [run]
    generalize pass fire l s false = a, pass fire' l t false = b at hp
    cases hp with
    | error he => exact .some (.error he)
    | @ok p q hpq =>
      obtain ⟨s', c⟩ := p
      obtain ⟨t', c'⟩ := q
      obtain ⟨hR, rfl⟩ := hpq
      cases c with
      | true => exact ih hR
      | false => exact .some (.ok hR)

end Simulation

section Log
variable {fire : ι → σ → Option (Except ε σ)} {l : List ι} {P : σ → Prop} {v : σ → Nat}

/-- The same rule, which also writes down the state that it fires in. -/
def logged (fire : ι → σ → Option (Except ε σ)) (i : ι) (s : σ × List σ) :
    Option (Except (ε × List σ) (σ × List σ)) :=
  (fire i s.1).map fun
    | .ok s' => .ok (s', s.2 ++ [s.1])
    | .error e => .error (e, s.2 ++ [s.1])

def firings : Except (ε × List σ) (σ × List σ) → List σ
  | .ok s => s.2
  | .error e => e.2

def unlogged : Except (ε × List σ) (σ × List σ) → Except ε σ
  | .ok s => .ok s.1
  | .error e => .error e.1

theorem run_logged (n : Nat) (s : σ) (log : List σ) :
    (run (logged fire) l n (s, log)).map unlogged = run fire l n s := by
  have hrule : ∀ i ∈ l, ∀ (p : σ × List σ) t, p.1 = t →
      Option.Rel (Agree (fun p t => p.1 = t) fun e d => e.1 = d) (logged fire i p) (fire i t) := by
    rintro i - p - rfl
    rw [logged]
    cases fire i p.1 with
    | none => exact .none
    | some res =>
      cases res with
      | ok s' => exact .some (.ok rfl)
      | error e => exact .some (.error rfl)
  have hrel := run_rel hrule n (s := (s, log)) rfl
  generalize run (logged fire) l n (s, log) = a, run fire l n s = b at hrel
  cases hrel with
  | none => rfl
  | some ha =>
    cases ha with
    | ok hs => rw [← hs]; rfl
    | error he => rw [← he]; rfl

/-- If every firing lowers `v` or ends the loop, and none is possible at `0`, then `v` bounds the number of
firings; each of them is in a state that satisfies the invariant. -/
theorem firings_le (hpos : ∀ i ∈ l, ∀ s r, P s → fire i s = some r → 0 < v s)
    (hf : ∀ i ∈ l, ∀ s s', P s → fire i s = some (.ok s') → P s' ∧ v s' < v s) {n : Nat} {s : σ}
    (hs : P s) {r : Except (ε × List σ) (σ × List σ)} (h : run (logged fire) l n (s, []) = some r) :
    (firings r).length ≤ v s ∧ ∀ t ∈ firings r, P t := by
  -- what has fired, and what `v` still allows, is no more than what it allowed at the start
  have hrule : ∀ i ∈ l, ∀ (p : σ × List σ) res,
      (P p.1 ∧ p.2.length + v p.1 ≤ v s ∧ ∀ t ∈ p.2, P t) → logged fire i p = some res →
      Ends (fun p => P p.1 ∧ p.2.length + v p.1 ≤ v s ∧ ∀ t ∈ p.2, P t)
        (fun e => e.2.length ≤ v s ∧ ∀ t ∈ e.2, P t) res := by
    rintro i hi ⟨t, log⟩ res ⟨ht, hlen, hlog⟩ hres
    have hlog' : ∀ u ∈ log ++ [t], P u := by
      intro u hu
      rcases List.mem_append.mp hu with hu | hu
      · exact hlog u hu
      · rw [List.mem_singleton.mp hu]; exact ht
    rw [logged] at hres
    obtain ⟨a, ha, rfl⟩ := Option.map_eq_some_iff.mp hres
    have hp := hpos i hi t a ht ha
    have hlen : log.length + v t ≤ v s := hlen
    cases a with
    | ok t' =>
      obtain ⟨ht', hlt⟩ := hf i hi t t' ht ha
      refine ⟨ht', ?_, hlog'⟩
      show (log ++ [t]).length + v t' ≤ v s
      rw [List.length_append, List.length_singleton]
      omega
    | error e =>
      refine ⟨?_, hlog'⟩
      show (log ++ [t]).length ≤ v s
      rw [List.length_append, List.length_singleton]
      omega
  have key := run_induction hrule ⟨hs, by simp, by simp⟩ h
  cases r with
  | ok p => exact ⟨Nat.le_trans (Nat.le_add_right ..) key.2.1, key.2.2⟩
  | error e => exact key

end Log

section Confluence
open Relation
variable {fire : ι → σ → Option (Except ε σ)} {l l' : List ι} {P : σ → Prop}

/-- Some rule of the list fires in a state that satisfies the invariant. -/
def Step (fire : ι → σ → Option (Except ε σ)) (l : List ι) (P : σ → Prop) (s s' : σ) : Prop :=
  P s ∧ ∃ i ∈ l, fire i s = some (.ok s')

end Confluence

end Rounds
