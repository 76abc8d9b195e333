import Mathlib.Data.Set.Finite.Basic
import Mathlib.Data.Set.Finite.List
import Mathlib.Logic.Relation
import Mathlib.Order.WellFoundedSet

/-!
# Walks in a directed graph

A graph is a relation `E` on its vertices. `Walk E a l b` says that `l` lists, from the last back to
the first, the vertices of a walk from `a` to `b`. On top of Mathlib's `TransGen` and `ReflTransGen`
this file has what reachability alone does not say: uniqueness of walks, walks with a given end, and
roots and sinks of a finite acyclic relation.
-/

namespace Walks
open Relation

/-- The vertices of a walk from `a`, latest first. -/
inductive Walk {V : Type*} (E : V → V → Prop) (a : V) : List V → V → Prop
  | start : Walk E a [a] a
  | step {l : List V} {b c : V} : Walk E a l b → E b c → Walk E a (c :: l) c

/-- No vertex lies on a directed cycle; in particular none is its own neighbour. -/
def Acyclic {V : Type*} (E : V → V → Prop) : Prop := ∀ v, ¬ TransGen E v v

/-- No cycle can be reached from `a`. -/
def AcyclicBelow {V : Type*} (E : V → V → Prop) (a : V) : Prop := ∀ v, ReflTransGen E a v → ¬ TransGen E v v

variable {V : Type*} {E E' : V → V → Prop} {a b c : V} {l l' : List V}

namespace Walk

theorem reflTransGen (h : Walk E a l b) : ReflTransGen E a b := by
  induction h with
  | start => exact .refl
  | step _ he ih => exact ih.tail he

theorem mem_end (h : Walk E a l b) : b ∈ l := by
  cases h <;> simp

theorem exists_cons (h : Walk E a l b) : ∃ l', l = b :: l' := by
  cases h
  exacts [⟨_, rfl⟩, ⟨_, rfl⟩]

theorem end_unique (h : Walk E a l b) (h' : Walk E a l c) : b = c := by
  obtain ⟨t, rfl⟩ := h.exists_cons
  obtain ⟨t', ht⟩ := h'.exists_cons
  exact (List.cons.inj ht).1

theorem extend (h : ReflTransGen E b c) :
    ∃ l', ∀ (a : V) (l : List V), Walk E a l b → Walk E a (l' ++ l) c := by
  induction h with
  | refl => exact ⟨[], fun _ _ h => h⟩
  | @tail d c _ he ih =>
    obtain ⟨l', ih⟩ := ih
    exact ⟨c :: l', fun a l hw => (ih a l hw).step he⟩

theorem exists_of_reflTransGen (h : ReflTransGen E a b) :
    ∃ l, Walk E a l b ∧ ∀ x ∈ l, ReflTransGen E x b := by
  induction h with
  | refl => exact ⟨[a], .start, by simp [ReflTransGen.refl]⟩
  | @tail d c _ he ih =>
    obtain ⟨l, hw, hl⟩ := ih
    refine ⟨c :: l, hw.step he, fun x hx => ?_⟩
    rcases List.mem_cons.mp hx with rfl | hx
    · exact .refl
    · exact (hl x hx).tail he

/-- If no vertex has two predecessors and the start has none, walks are determined by their end. -/
theorem unique (hE : ∀ u u' v, E u v → E u' v → u = u') (ha : ∀ u, ¬ E u a) (h : Walk E a l b)
    (h' : Walk E a l' b) : l = l' := by
  induction h generalizing l' with
  | start =>
    cases h' with
    | start => rfl
    | step _ he => exact absurd he (ha _)
  | step hw he ih =>
    cases h' with
    | start => exact absurd he (ha _)
    | step hw' he' =>
      obtain rfl := hE _ _ _ he he'
      rw [ih hw']

theorem eq_of_no_succ (ha : ∀ v, ¬ E a v) (h : Walk E a l b) : l = [a] ∧ b = a := by
  induction h with
  | start => exact ⟨rfl, rfl⟩
  | step _ he ih => exact absurd (ih.2 ▸ he) (ha _)

end Walk

namespace Acyclic

theorem irrefl (h : Acyclic E) : ¬ E a a := fun he => h a (.single he)

theorem ne (h : Acyclic E) (he : E a b) : a ≠ b := by
  rintro rfl; exact h.irrefl he

theorem antisymm (h : Acyclic E) (hab : ReflTransGen E a b) (hba : ReflTransGen E b a) : a = b := by
  rcases reflTransGen_iff_eq_or_transGen.mp hab with rfl | hab
  · rfl
  · exact absurd (hab.trans_left hba) (h a)

theorem of_rank (rank : V → Nat) (h : ∀ u v, E u v → rank u < rank v) : Acyclic E := by
  have key : ∀ u v, TransGen E u v → rank u < rank v := fun u v huv => by
    induction huv with
    | single he => exact h _ _ he
    | tail _ he ih => exact ih.trans (h _ _ he)
  exact fun v hv => (key v v hv).false

theorem of_tree {r : V} (hr : ∀ u, ¬ E u r) (huniq : ∀ u u' v, E u v → E u' v → u = u')
    (hreach : ∀ u v, E u v → ReflTransGen E r u) : Acyclic E := by
  have key : ∀ v, ReflTransGen E r v → ¬ TransGen E v v := by
    intro v hv
    induction hv with
    | refl =>
      intro h
      obtain ⟨u, -, he⟩ := TransGen.tail'_iff.mp h
      exact hr u he
    | tail _ he ih =>
      intro h
      obtain ⟨u, hu, he'⟩ := TransGen.tail'_iff.mp h
      obtain rfl := huniq _ _ _ he he'
      exact ih (TransGen.head' he hu)
  intro v hv
  obtain ⟨w, he, -⟩ := TransGen.head'_iff.mp hv
  exact key v (hreach v w he) hv

theorem flip (h : Acyclic E) : Acyclic fun u v => E v u :=
  fun v hv => h v (transGen_swap.mp hv)

theorem of_inner (h : Acyclic E)
    (hE : ∀ u v, E' u v → E u v ∨ (∀ w, ¬ E' w u) ∨ ∀ w, ¬ E' v w) : Acyclic E' := by
  have key : ∀ a b, TransGen E' a b → (∃ u, E' u a) → (∃ w, E' b w) → TransGen E a b := by
    intro a b hab
    induction hab with
    | single he =>
      rintro ⟨u, hu⟩ ⟨w, hw⟩
      rcases hE _ _ he with he | hn | hn
      exacts [.single he, absurd hu (hn u), absurd hw (hn w)]
    | @tail b c hab he ih =>
      rintro hin ⟨w, hw⟩
      obtain ⟨u, -, hu⟩ := TransGen.tail'_iff.mp hab
      rcases hE _ _ he with he' | hn | hn
      exacts [(ih hin ⟨_, he⟩).tail he', absurd hu (hn u), absurd hw (hn w)]
  intro v hv
  have hout := TransGen.head'_iff.mp hv
  have hin := TransGen.tail'_iff.mp hv
  exact h v (key v v hv (hin.imp fun _ h => h.2) (hout.imp fun _ h => h.1))

theorem exists_root (h : Acyclic E) {s : Set V} (hs : s.Finite) (hE : ∀ u v, E u v → u ∈ s) (v : V) :
    ∃ r, ReflTransGen E r v ∧ ∀ u, ¬ E u r := by
  have hfin : Finite ↥(insert v s) := (hs.insert v).to_subtype
  let R : ↥(insert v s) → ↥(insert v s) → Prop := fun x y => TransGen E x.1 y.1
  have : IsTrans _ R := ⟨fun _ _ _ => TransGen.trans⟩
  have : Std.Irrefl R := ⟨fun x => h x.1⟩
  obtain ⟨r, hr, hmin⟩ := (Finite.wellFounded_of_trans_of_irrefl R).has_min
    {x | ReflTransGen E x.1 v} ⟨⟨v, Set.mem_insert v s⟩, .refl⟩
  refine ⟨r, hr, fun u hu => ?_⟩
  exact hmin ⟨u, Set.mem_insert_of_mem v (hE u r hu)⟩ (.head hu hr) (.single hu)

theorem exists_sink (h : Acyclic E) {s : Set V} (hs : s.Finite) (hE : ∀ u v, E u v → v ∈ s) (v : V) :
    ∃ l, ReflTransGen E v l ∧ ∀ w, ¬ E l w := by
  obtain ⟨l, hl, hmax⟩ := h.flip.exists_root hs (fun u v => hE v u) v
  exact ⟨l, reflTransGen_swap.mp hl, hmax⟩

end Acyclic

namespace AcyclicBelow

theorem succ (h : AcyclicBelow E a) (he : E a b) : AcyclicBelow E b := fun v hv => h v (hv.head he)

theorem of_succ (h : ∀ b, E a b → AcyclicBelow E b) : AcyclicBelow E a := by
  intro v hv hc
  rcases ReflTransGen.cases_head hv with rfl | ⟨b, he, hbv⟩
  · obtain ⟨b, he, hba⟩ := TransGen.head'_iff.mp hc
    exact h b he a hba hc
  · exact h b he v hbv hc

end AcyclicBelow

theorem Acyclic.below (h : Acyclic E) (a : V) : AcyclicBelow E a := fun v _ => h v

/-! ### Finitely many walks -/

theorem Walk.reflTransGen_of_mem (h : Walk E a l b) : ∀ x ∈ l, ReflTransGen E a x ∧ ReflTransGen E x b := by
  induction h with
  | start =>
    intro x hx
    obtain rfl := List.mem_singleton.mp hx
    exact ⟨.refl, .refl⟩
  | step hw he ih =>
    intro x hx
    rcases List.mem_cons.mp hx with rfl | hx
    · exact ⟨hw.reflTransGen.tail he, .refl⟩
    · exact ⟨(ih x hx).1, (ih x hx).2.tail he⟩

theorem Walk.nodup (hac : AcyclicBelow E a) (h : Walk E a l b) : l.Nodup := by
  induction h with
  | start => exact List.nodup_singleton a
  | @step l b c hw he ih =>
    refine List.nodup_cons.mpr ⟨fun hc => ?_, ih⟩
    obtain ⟨hac', hcb⟩ := hw.reflTransGen_of_mem c hc
    exact hac c hac' (TransGen.tail' hcb he)

theorem Walk.exists_length_le (h : Walk E a l b) (hc : TransGen E b b) (n : Nat) :
    ∃ l', Walk E a l' b ∧ n ≤ l'.length := by
  induction n with
  | zero => exact ⟨l, h, Nat.zero_le _⟩
  | succ n ih =>
    obtain ⟨l', hw, hn⟩ := ih
    obtain ⟨c, hbc, hcb⟩ := TransGen.tail'_iff.mp hc
    obtain ⟨l'', hext⟩ := Walk.extend hbc
    refine ⟨b :: (l'' ++ l'), (hext a l' hw).step hcb, ?_⟩
    rw [List.length_cons, List.length_append]
    omega

theorem finite_walks_iff (hfin : {x | ReflTransGen E a x}.Finite) :
    {l | ∃ b, Walk E a l b}.Finite ↔ AcyclicBelow E a := by
  constructor
  · intro h v hv hc
    obtain ⟨l, hw, -⟩ := Walk.exists_of_reflTransGen hv
    obtain ⟨N, hN⟩ := (h.image List.length).bddAbove
    obtain ⟨l', hw', hlen⟩ := hw.exists_length_le hc (N + 1)
    have := hN (Set.mem_image_of_mem List.length (⟨v, hw'⟩ : l' ∈ {l | ∃ b, Walk E a l b}))
    omega
  · intro hac
    have : Finite {x | ReflTransGen E a x} := hfin.to_subtype
    have hlists := List.finite_length_le {x | ReflTransGen E a x} hfin.toFinset.card
    refine (hlists.image (List.map Subtype.val)).subset ?_
    rintro l ⟨b, hw⟩
    have hmem : ∀ x ∈ l, x ∈ {x | ReflTransGen E a x} := fun x hx => (hw.reflTransGen_of_mem x hx).1
    refine ⟨l.attach.map fun x => ⟨x.1, hmem x.1 x.2⟩, ?_, by simp [List.map_map, Function.comp_def]⟩
    classical
    have hle : l.toFinset.card ≤ hfin.toFinset.card :=
      Finset.card_le_card fun x hx => hfin.mem_toFinset.mpr (hmem x (List.mem_toFinset.mp hx))
    rw [List.toFinset_card_of_nodup (hw.nodup hac)] at hle
    rw [Set.mem_ofPred_eq, List.length_map, List.length_attach]
    exact hle

/-! ### Walks in two graphs -/

section
variable {W : Type*} {F : W → W → Prop} {f : V → W}

theorem Walk.map (hf : ∀ u v, E u v → F (f u) (f v)) (h : Walk E a l b) : Walk F (f a) (l.map f) (f b) := by
  induction h with
  | start => exact .start
  | step _ he ih => exact ih.step (hf _ _ he)

theorem Walk.exists_map (hf : ∀ u w, F (f u) w → ∃ v, w = f v ∧ E u v) {m : List W} {w : W} (h : Walk F (f a) m w) :
    ∃ l b, m = l.map f ∧ w = f b ∧ Walk E a l b := by
  induction h with
  | start => exact ⟨[a], a, rfl, rfl, .start⟩
  | step _ he ih =>
    obtain ⟨l, b, rfl, rfl, hw⟩ := ih
    obtain ⟨c, rfl, hbc⟩ := hf _ _ he
    exact ⟨c :: l, c, rfl, rfl, hw.step hbc⟩

end

/-! ### Where the sinks lead to -/

/-- The graph on the vertices `P` with two more: every sink of it leads to `m`, and `m` to `t`. -/
def Drained (E : V → V → Prop) (P : V → Prop) (m t : V) (u v : V) : Prop :=
  E u v ∨ (P u ∧ (∀ w, ¬ E u w) ∧ v = m) ∨ (u = m ∧ v = t)

section
variable {P : V → Prop} {m t : V} (hE : ∀ u v, E u v → P u ∧ P v) (hm : ¬ P m) (ht : ¬ P t) (hmt : m ≠ t)
include hE hm ht hmt

/-- The edges that are new are behind the others. -/
theorem acyclic_drained_iff : Acyclic (Drained E P m t) ↔ Acyclic E := by
  constructor
  · exact fun h v hv => h v (TransGen.mono (fun u w he => Or.inl he) _ _ hv)
  · intro h
    -- first those to `m`, which has no edges then
    have hinner : Acyclic fun u v => E u v ∨ (P u ∧ (∀ w, ¬ E u w) ∧ v = m) := by
      refine h.of_inner fun u v huv => ?_
      rcases huv with he | ⟨-, -, rfl⟩
      · exact .inl he
      · refine .inr (.inr fun w hw => ?_)
        rcases hw with he | ⟨hp, -⟩
        · exact hm (hE _ _ he).1
        · exact hm hp
    refine hinner.of_inner fun u v huv => ?_
    rcases huv with he | hsink | ⟨rfl, rfl⟩
    · exact .inl (.inl he)
    · exact .inl (.inr hsink)
    · refine .inr (.inr fun w hw => ?_)
      rcases hw with he | ⟨hp, -⟩ | ⟨htm, -⟩
      · exact ht (hE _ _ he).1
      · exact ht hp
      · exact hmt htm.symm

omit hm ht hmt in
theorem Acyclic.reaches_drain (h : Acyclic E) (hfin : {v | P v}.Finite) (hu : P a) :
    ReflTransGen (Drained E P m t) a t := by
  obtain ⟨x, hax, hsink⟩ := h.exists_sink hfin (fun u v he => (hE u v he).2) a
  have hx : P x := by
    rcases ReflTransGen.cases_tail hax with rfl | ⟨y, -, he⟩
    · exact hu
    · exact (hE y x he).2
  have hxm : Drained E P m t x m := .inr (.inl ⟨hx, hsink, rfl⟩)
  have hax : ReflTransGen (Drained E P m t) a x := ReflTransGen.mono (fun u v he => Or.inl he) _ _ hax
  exact (hax.tail hxm).tail (.inr (.inr ⟨rfl, rfl⟩))

omit hmt in
theorem Walk.drained_iff (hb : P b) : Walk (Drained E P m t) a l b ↔ Walk E a l b := by
  constructor
  · intro h
    induction h with
    | start => exact .start
    | @step l b c hw he ih =>
      rcases he with he | ⟨-, -, rfl⟩ | ⟨-, rfl⟩
      · exact (ih (hE _ _ he).1).step he
      · exact absurd hb hm
      · exact absurd hb ht
  · intro h
    induction h with
    | start => exact .start
    | step _ he ih => exact (ih (hE _ _ he).1).step (.inl he)

/-- What leads to `m` comes from a sink. -/
theorem Walk.drained_end_iff (ha : P a) :
    Walk (Drained E P m t) a l m ↔ ∃ l' x, l = m :: l' ∧ Walk E a l' x ∧ ∀ w, ¬ E x w := by
  constructor
  · intro h
    cases h with
    | start => exact absurd ha hm
    | @step l x _ hw he =>
      rcases he with he | ⟨hx, hsink, -⟩ | ⟨-, hmt'⟩
      · exact absurd (hE _ _ he).2 hm
      · exact ⟨l, x, rfl, (Walk.drained_iff hE hm ht hx).mp hw, hsink⟩
      · exact absurd hmt' hmt
  · rintro ⟨l', x, rfl, hw, hsink⟩
    have hx : P x := by
      cases hw with
      | start => exact ha
      | step _ he => exact (hE _ _ he).2
    exact ((Walk.drained_iff hE hm ht hx).mpr hw).step (.inr (.inl ⟨hx, hsink, rfl⟩))

end

end Walks
