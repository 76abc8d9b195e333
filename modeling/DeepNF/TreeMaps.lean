import Mathlib.Algebra.BigOperators.Group.Finset.Basic
import Mathlib.Algebra.Order.BigOperators.Group.Finset
import Mathlib.Data.List.Forall2
import Mathlib.Data.List.Perm.Subperm
import Std.Data.TreeMap.Lemmas

/-!
# Maps that are filled, merged and compared

General facts about `Std.TreeMap`, keyed by any type with a lawful order: the content of a map
filled by a loop of `insertIfNew`, what is left when two entries are replaced by one, and that maps
with related entries are iterated over in step.
-/

namespace TreeMaps
open Std (TreeMap TransOrd LawfulEqOrd)

variable {κ α β γ : Type*} [Ord κ] [TransOrd κ]

theorem mem_of_getElem? {t : TreeMap κ α} {k : κ} {v : α} (h : t[k]? = some v) : k ∈ t :=
  (TreeMap.getElem?_eq_some_iff.mp h).1

theorem exists_getElem? {t : TreeMap κ α} {k : κ} (h : k ∈ t) : ∃ v, t[k]? = some v :=
  Option.isSome_iff_exists.mp (TreeMap.mem_iff_isSome_getElem?.mp h)

theorem size_pos_iff {t : TreeMap κ α} : 0 < t.size ↔ ∃ k, k ∈ t := by
  rw [← TreeMap.isEmpty_eq_false_iff_exists_mem, TreeMap.isEmpty_eq_size_eq_zero]
  simp [Nat.pos_iff_ne_zero]

theorem size_erase_of_mem {t : TreeMap κ α} {k : κ} (h : k ∈ t) : (t.erase k).size = t.size - 1 := by
  rw [TreeMap.size_erase, if_pos (TreeMap.mem_iff_contains.mp h)]

variable [LawfulEqOrd κ]

theorem getElem?_insertIfNew [DecidableEq κ] (t : TreeMap κ α) (k a : κ) (v : α) :
    (t.insertIfNew k v)[a]? = (t[a]?).or (if k = a then some v else none) := by
  rw [TreeMap.getElem?_insertIfNew]
  by_cases hka : k = a
  · subst hka
    by_cases hk : k ∈ t
    · simp [hk]
    · simp [hk]
  · simp [hka]

theorem getElem?_foldl_insertIfNew (key : γ → κ) (val : γ → α) {l : List γ}
    (hl : l.Pairwise fun x y => key x ≠ key y) (t : TreeMap κ α) (k : κ) (v : α) :
    (l.foldl (fun t x => t.insertIfNew (key x) (val x)) t)[k]? = some v ↔
      t[k]? = some v ∨ t[k]? = none ∧ ∃ x ∈ l, key x = k ∧ val x = v := by
  classical
  induction l generalizing t with
  | nil => simp
  | cons x l ih =>
    obtain ⟨hx, hl⟩ := List.pairwise_cons.mp hl
    rw [List.foldl_cons, ih hl, getElem?_insertIfNew]
    cases ht : t[k]? with
    | some w => simp
    | none =>
      by_cases hk : key x = k
      · subst hk
        have : ¬ ∃ y ∈ l, key y = key x ∧ val y = v := fun ⟨y, hy, h, _⟩ => hx y hy h.symm
        simp [this]
      · simp [hk]

theorem getElem?_foldl_insertIfNew_self (key : α → κ) {l : List α} (hl : (l.map key).Nodup) (t : TreeMap κ α)
    (k : κ) (v : α) :
    (l.foldl (fun t x => t.insertIfNew (key x) x) t)[k]? = some v ↔
      t[k]? = some v ∨ t[k]? = none ∧ v ∈ l ∧ key v = k := by
  refine (getElem?_foldl_insertIfNew key (fun x => x) (List.pairwise_map.mp hl) t k v).trans
    (or_congr_right (and_congr_right fun _ => ?_))
  exact ⟨fun ⟨x, hx, hk, he⟩ => he ▸ ⟨hx, hk⟩, fun ⟨hv, hk⟩ => ⟨v, hv, hk, rfl⟩⟩

/-- The last insertion wins; it does not matter which one it is if all agree. -/
theorem getElem?_foldl_insert_of_forall [DecidableEq κ] (key : γ → κ) (val : γ → α) {l : List γ} {k : κ} {v : α}
    (hv : ∀ x ∈ l, key x = k → val x = v) (t : TreeMap κ α) (h : (∃ x ∈ l, key x = k) ∨ t[k]? = some v) :
    (l.foldl (fun t x => t.insert (key x) (val x)) t)[k]? = some v := by
  induction l generalizing t with
  | nil =>
    rcases h with ⟨x, hx, -⟩ | h
    · cases hx
    · exact h
  | cons y l ih =>
    refine ih (fun x hx => hv x (List.mem_cons_of_mem _ hx)) _ ?_
    rw [TreeMap.getElem?_insert]
    by_cases hy : key y = k
    · exact .inr (by rw [if_pos (by simp [hy]), hv y (List.mem_cons_self ..) hy])
    · rw [if_neg (by simpa using hy)]
      refine h.imp_left fun ⟨x, hx, hk⟩ => ⟨x, (List.mem_cons.mp hx).resolve_left ?_, hk⟩
      rintro rfl
      exact hy hk

theorem getElem?_foldl_insert [DecidableEq κ] (key : γ → κ) (val : γ → α) {l : List γ}
    (hl : (l.map key).Nodup) (t : TreeMap κ α) {x : γ} (hx : x ∈ l) :
    (l.foldl (fun t x => t.insert (key x) (val x)) t)[key x]? = some (val x) :=
  getElem?_foldl_insert_of_forall key val
    (fun _ hy hk => congrArg val (List.inj_on_of_nodup_map hl hy hx hk)) t (.inl ⟨x, hx, rfl⟩)

theorem exists_of_getElem?_foldl_insert (key : γ → κ) (val : γ → α) {l : List γ} {t : TreeMap κ α} {k : κ} {v : α}
    (h : (l.foldl (fun t x => t.insert (key x) (val x)) t)[k]? = some v) :
    (∃ x ∈ l, key x = k ∧ val x = v) ∨ t[k]? = some v := by
  induction l generalizing t with
  | nil => exact .inr h
  | cons y l ih =>
    rcases ih h with ⟨x, hx, h⟩ | h
    · exact .inl ⟨x, List.mem_cons_of_mem _ hx, h⟩
    · rw [TreeMap.getElem?_insert] at h
      split at h
      · rename_i hk
        exact .inl ⟨y, List.mem_cons_self .., LawfulEqOrd.eq_of_compare hk, Option.some.inj h⟩
      · exact .inr h

theorem getElem?_foldl_insert_iff [DecidableEq κ] (key : γ → κ) (val : γ → α) {l : List γ}
    (hval : ∀ x ∈ l, ∀ y ∈ l, key x = key y → val x = val y) {k : κ} {v : α} :
    (l.foldl (fun t x => t.insert (key x) (val x)) (∅ : TreeMap κ α))[k]? = some v ↔
      ∃ x ∈ l, key x = k ∧ val x = v := by
  constructor
  · intro h
    exact (exists_of_getElem?_foldl_insert key val h).resolve_right (by simp)
  · rintro ⟨x, hx, rfl, rfl⟩
    exact getElem?_foldl_insert_of_forall key val (fun y hy => hval y hy x hx) ∅ (.inl ⟨x, hx, rfl⟩)

/-- The map with the entries `f k` for the keys `k` of a list. -/
def tabulate (f : κ → α) (l : List κ) : TreeMap κ α := l.foldl (fun t k => t.insert k (f k)) ∅

theorem getElem?_tabulate [DecidableEq κ] (f : κ → α) (l : List κ) (k : κ) :
    (tabulate f l)[k]? = if k ∈ l then some (f k) else none := by
  have key : ∀ t : TreeMap κ α, (l.foldl (fun t k => t.insert k (f k)) t)[k]? =
      if k ∈ l then some (f k) else t[k]? := by
    induction l with
    | nil => intro t; simp
    | cons x l ih =>
      intro t
      rw [List.foldl_cons, ih, TreeMap.getElem?_insert]
      by_cases hx : x = k
      · subst hx; simp
      · simp [hx, Ne.symm hx]
  rw [tabulate, key]
  simp

theorem mem_tabulate [DecidableEq κ] {f : κ → α} {l : List κ} {k : κ} : k ∈ tabulate f l ↔ k ∈ l := by
  rw [TreeMap.mem_iff_isSome_getElem?, getElem?_tabulate]
  split <;> simp [*]

theorem getElem?_ofList_map {l : List γ} {key : γ → κ} (hl : (l.map key).Nodup) {k : κ} {x : γ} :
    (TreeMap.ofList (l.map fun x => (key x, x)))[k]? = some x ↔ x ∈ l ∧ key x = k := by
  have hof : ∀ y ∈ l, (TreeMap.ofList (l.map fun x => (key x, x)))[key y]? = some y := by
    intro y hy
    refine TreeMap.getElem?_ofList_of_mem Std.ReflCmp.compare_self ?_ (List.mem_map.mpr ⟨y, hy, rfl⟩)
    rw [List.pairwise_map]
    exact (List.pairwise_map.mp hl).imp fun h he => h (LawfulEqOrd.eq_of_compare he)
  refine ⟨fun h => ?_, fun ⟨hx, hk⟩ => hk ▸ hof x hx⟩
  by_cases hk : k ∈ l.map key
  · obtain ⟨y, hy, rfl⟩ := List.mem_map.mp hk
    obtain rfl := Option.some.inj ((hof y hy).symm.trans h)
    exact ⟨hy, rfl⟩
  · classical
    rw [TreeMap.getElem?_ofList_of_contains_eq_false (by simpa using hk)] at h
    cases h

/-- Two entries replaced by one, unless its key is taken. -/
theorem getElem?_merge [DecidableEq κ] (t : TreeMap κ α) (a b c : κ) (v : α) (k : κ) :
    (((t.erase a).erase b).insertIfNew c v)[k]? =
      (if k = a ∨ k = b then none else t[k]?).or (if c = k then some v else none) := by
  rw [getElem?_insertIfNew, TreeMap.getElem?_erase, TreeMap.getElem?_erase]
  simp only [Std.LawfulEqOrd.compare_eq_iff_eq]
  congr 1
  by_cases hb : b = k
  · simp [hb]
  · by_cases ha : a = k
    · simp [ha]
    · simp [ha, hb, Ne.symm ha, Ne.symm hb]

theorem sum_merge_lt [DecidableEq κ] {t : TreeMap κ α} {a b c : κ} {w : κ → Nat} (ha : a ∈ t) (hw : w c < w a)
    (v : α) :
    ∑ k ∈ (((t.erase a).erase b).insertIfNew c v).keys.toFinset, w k < ∑ k ∈ t.keys.toFinset, w k := by
  have hkeys : (((t.erase a).erase b).insertIfNew c v).keys.toFinset ⊆ insert c (t.keys.toFinset.erase a) := by
    intro k hk
    simp only [List.mem_toFinset, TreeMap.mem_keys, TreeMap.mem_insertIfNew, TreeMap.mem_erase, ne_eq,
      Std.LawfulEqOrd.compare_eq_iff_eq, Finset.mem_insert, Finset.mem_erase] at hk ⊢
    exact hk.imp Eq.symm fun h => ⟨Ne.symm h.2.1, h.2.2⟩
  have hsplit := Finset.add_sum_erase t.keys.toFinset w (a := a) (by simpa using ha)
  have hle := Finset.sum_le_sum_of_subset (f := w) hkeys
  by_cases hc : c ∈ t.keys.toFinset.erase a
  · rw [Finset.insert_eq_of_mem hc] at hle
    omega
  · rw [Finset.sum_insert hc] at hle
    omega

theorem size_merge_lt {t : TreeMap κ α} {a b c : κ} (hab : a ≠ b) (ha : a ∈ t) (hb : b ∈ t) (v : α) :
    (((t.erase a).erase b).insertIfNew c v).size < t.size := by
  have hb' : b ∈ t.erase a := by
    rw [TreeMap.mem_erase]; exact ⟨by simpa using hab, hb⟩
  have h₁ := size_erase_of_mem ha
  have h₂ := size_erase_of_mem hb'
  have h₃ : 0 < (t.erase a).size := size_pos_iff.mpr ⟨b, hb'⟩
  rw [TreeMap.size_insertIfNew]
  split <;> omega

theorem forall₂_of_sorted {R : α → β → Prop} {l : List (κ × α)} {l' : List (κ × β)}
    (hl : l.Pairwise fun x y => compare x.1 y.1 = .lt) (hl' : l'.Pairwise fun x y => compare x.1 y.1 = .lt)
    (h : ∀ x ∈ l, ∃ y ∈ l', x.1 = y.1 ∧ R x.2 y.2) (h' : ∀ y ∈ l', ∃ x ∈ l, x.1 = y.1) :
    List.Forall₂ (fun x y => x.1 = y.1 ∧ R x.2 y.2) l l' := by
  induction l generalizing l' with
  | nil =>
    cases l' with
    | nil => exact .nil
    | cons y l' => obtain ⟨x, hx, -⟩ := h' y (List.mem_cons_self ..); cases hx
  | cons x l ih =>
    cases l' with
    | nil => obtain ⟨y, hy, -⟩ := h x (List.mem_cons_self ..); cases hy
    | cons y l' =>
      obtain ⟨hx, hl⟩ := List.pairwise_cons.mp hl
      obtain ⟨hy, hl'⟩ := List.pairwise_cons.mp hl'
      have hxy : x.1 = y.1 := by
        obtain ⟨y₀, hy₀, hx₀, -⟩ := h x (List.mem_cons_self ..)
        obtain ⟨x₀, hx₀', hy₀'⟩ := h' y (List.mem_cons_self ..)
        rcases List.mem_cons.mp hy₀ with rfl | hy₀
        · exact hx₀
        rcases List.mem_cons.mp hx₀' with rfl | hx₀'
        · exact hy₀'
        have h₁ := hx₀ ▸ hy _ hy₀
        have h₂ := hy₀' ▸ hx _ hx₀'
        rw [Std.OrientedOrd.eq_swap, h₂] at h₁
        cases h₁
      have hne : ∀ k, compare x.1 k = .lt → x.1 ≠ k := by
        rintro k hk rfl; simp at hk
      refine .cons ⟨hxy, ?_⟩ (ih hl hl' (fun z hz => ?_) fun z hz => ?_)
      · obtain ⟨y₀, hy₀, hx₀, hR⟩ := h x (List.mem_cons_self ..)
        rcases List.mem_cons.mp hy₀ with rfl | hy₀
        · exact hR
        · exact absurd hx₀ (hne y₀.1 (hxy ▸ hy _ hy₀))
      · obtain ⟨y₀, hy₀, hx₀, hR⟩ := h z (List.mem_cons_of_mem _ hz)
        rcases List.mem_cons.mp hy₀ with rfl | hy₀
        · exact absurd (hxy.trans hx₀.symm) (hne z.1 (hx _ hz))
        · exact ⟨y₀, hy₀, hx₀, hR⟩
      · obtain ⟨x₀, hx₀, hy₀⟩ := h' z (List.mem_cons_of_mem _ hz)
        rcases List.mem_cons.mp hx₀ with rfl | hx₀
        · exact absurd hy₀ (hne z.1 (hxy ▸ hy _ hz))
        · exact ⟨x₀, hx₀, hy₀⟩

/-- Iterating over two maps whose entries are related visits related entries in step. -/
theorem forall₂_toList {R : α → β → Prop} {t : TreeMap κ α} {t' : TreeMap κ β}
    (h : ∀ k : κ, Option.Rel R t[k]? t'[k]?) :
    List.Forall₂ R (t.toList.map (·.2)) (t'.toList.map (·.2)) := by
  have h₂ : List.Forall₂ (fun x y => x.1 = y.1 ∧ R x.2 y.2) t.toList t'.toList := by
    refine forall₂_of_sorted TreeMap.ordered_keys_toList TreeMap.ordered_keys_toList ?_ ?_
    · rintro ⟨k, v⟩ hv
      have hk := h k
      rw [TreeMap.mem_toList_iff_getElem?_eq_some.mp hv] at hk
      generalize hw : t'[k]? = o at hk
      cases hk with
      | @some _ w hR => exact ⟨(k, w), TreeMap.mem_toList_iff_getElem?_eq_some.mpr hw, rfl, hR⟩
    · rintro ⟨k, w⟩ hw
      have hk := h k
      rw [TreeMap.mem_toList_iff_getElem?_eq_some.mp hw] at hk
      generalize hv : t[k]? = o at hk
      cases hk with
      | @some v _ hR => exact ⟨(k, v), TreeMap.mem_toList_iff_getElem?_eq_some.mpr hv, rfl⟩
  rw [List.forall₂_map_left_iff, List.forall₂_map_right_iff]
  exact h₂.imp fun _ _ h => h.2

theorem nodup_keys (t : TreeMap κ α) : t.keys.Nodup :=
  TreeMap.distinct_keys.imp fun h heq => h (by simp [heq])

theorem nodup_map_fst_toList (t : TreeMap κ α) : (t.toList.map (·.1)).Nodup := by
  rw [TreeMap.map_fst_toList_eq_keys]
  exact nodup_keys t

theorem size_le_length {t : TreeMap κ α} {l : List κ} (ht : ∀ k ∈ t, k ∈ l) : t.size ≤ l.length := by
  rw [← TreeMap.length_keys]
  exact (List.subperm_of_subset (nodup_keys t) fun k hk => ht k (TreeMap.mem_keys.mp hk)).length_le

theorem size_eq_length_iff {t : TreeMap κ α} {l : List κ} (hl : l.Nodup) (ht : ∀ k ∈ t, k ∈ l) :
    t.size = l.length ↔ ∀ k ∈ l, k ∈ t := by
  have hsub : t.keys ⊆ l := fun k hk => ht k (TreeMap.mem_keys.mp hk)
  rw [← TreeMap.length_keys]
  constructor
  · intro h k hkl
    have hperm := (List.subperm_of_subset (nodup_keys t) hsub).perm_of_length_le (Nat.le_of_eq h.symm)
    exact TreeMap.mem_keys.mp (hperm.mem_iff.mpr hkl)
  · intro h
    exact ((List.perm_ext_iff_of_nodup (nodup_keys t) hl).mpr fun k =>
      ⟨fun hk => hsub hk, fun hk => TreeMap.mem_keys.mpr (h k hk)⟩).length_eq

theorem size_of_mem_iff {t : TreeMap κ α} {l : List κ} (hl : l.Nodup) (ht : ∀ k, k ∈ t ↔ k ∈ l) :
    t.size = l.length :=
  (size_eq_length_iff hl fun k => (ht k).mp).mpr fun k => (ht k).mpr

theorem size_congr {t : TreeMap κ α} {t' : TreeMap κ β} (h : ∀ k : κ, t[k]?.isSome = t'[k]?.isSome) :
    t.size = t'.size := by
  have hrel : ∀ k : κ, Option.Rel (fun _ _ => True) t[k]? t'[k]? := fun k => by
    have hk := h k
    generalize t[k]? = a, t'[k]? = b at hk
    cases a <;> cases b <;> simp_all
  simpa using (forall₂_toList hrel).length_eq

end TreeMaps
