import DeepNF.Walk

/-!
# A graph between a first and a last vertex

A relation `Order` is closed off by two extra vertices: `first` gets an edge to every root of the
relation and to every vertex of a set `free`, and every leaf and every vertex of `free` gets an edge to
`last`, if there is one. The vertices are of any type and may coincide in any way. This file answers
when the result is acyclic (`acyclic_iff`), when it enforces the relation on all walks from `first`
(`dominated_iff`), what can be reached (`reachable_iff`) and when its sinks are reached in one way only
(`unique_walks_iff`).
-/

namespace Attach
open Relation Walks

/-- What the edges are made from. -/
structure Parts (V : Type*) where
  Order : V → V → Prop
  free : Set V
  leaves : Set V
  first : V
  last : Option V

namespace Parts
variable {V : Type*} (G : Parts V)

def Inner (x : V) : Prop := ∃ y, G.Order x y ∨ G.Order y x

def Root (x : V) : Prop := G.Inner x ∧ ∀ y, ¬ G.Order y x

def Named (x : V) : Prop := G.Inner x ∨ x ∈ G.free

def Edge (x y : V) : Prop :=
  G.Order x y ∨ (x = G.first ∧ (G.Root y ∨ y ∈ G.free)) ∨ (G.last = some y ∧ (x ∈ G.free ∨ x ∈ G.leaves))

/-- The leaves are what a search from the roots finds. -/
structure Searched : Prop where
  sink : ∀ x ∈ G.leaves, ∀ y, ¬ G.Order x y
  below : ∀ x ∈ G.leaves, ∃ r, G.Root r ∧ ReflTransGen G.Order r x
  found : ∀ r x, G.Root r → ReflTransGen G.Order r x → (∀ y, ¬ G.Order x y) → x ∈ G.leaves

/-- The vertices from which an edge to `last` starts, told from the relation alone. -/
def EndPoint (x : V) : Prop := x ∈ G.free ∨ G.Inner x ∧ ∀ y, ¬ G.Order x y

/-- Neither is `last` named nor is it the first vertex. -/
def LastApart : Prop := ∀ z, G.last = some z → ¬ G.Named z ∧ z ≠ G.first

/-- Every successor in the relation has this one predecessor, and is not free. -/
def Forced : Prop := ∀ a b, G.Order a b → b ∉ G.free ∧ ∀ c, G.Order c b → c = a

variable {G} {x y a b : V}

theorem Inner.of_left (h : G.Order x y) : G.Inner x := ⟨y, .inl h⟩

theorem Inner.of_right (h : G.Order x y) : G.Inner y := ⟨x, .inr h⟩

theorem reaches_of_order (h : ReflTransGen G.Order x y) : ReflTransGen G.Edge x y :=
  h.lift id fun _ _ => .inl

theorem Searched.inner (hS : G.Searched) (h : x ∈ G.leaves) : G.Inner x := by
  obtain ⟨r, hr, hrx⟩ := hS.below x h
  rcases ReflTransGen.cases_tail hrx with rfl | ⟨y, -, he⟩
  exacts [hr.1, .of_right he]

theorem Edge.target (h : G.Edge x y) : G.Named y ∨ G.last = some y := by
  rcases h with h | ⟨-, h⟩ | ⟨h, -⟩
  · exact .inl (.inl (.of_right h))
  · exact .inl (h.imp_left fun hr => hr.1)
  · exact .inr h

theorem Edge.source (hS : G.Searched) (h : G.Edge x y) : G.Named x ∨ x = G.first := by
  rcases h with h | ⟨h, -⟩ | ⟨-, h⟩
  · exact .inl (.inl (.of_left h))
  · exact .inr h
  · exact .inl (h.symm.imp_left hS.inner)

theorem Edge.exists_named (hS : G.Searched) (h : G.Edge x y) : ∃ v, G.Named v := by
  rcases h with h | ⟨-, h⟩ | ⟨-, h⟩
  · exact ⟨x, .inl (.of_left h)⟩
  · exact ⟨y, h.imp_left fun hr => hr.1⟩
  · exact ⟨x, h.symm.imp_left hS.inner⟩

theorem not_edge_first (hfirst : ¬ G.Named G.first) (hlast : G.LastApart) (u : V) : ¬ G.Edge u G.first := by
  intro h
  rcases h.target with hn | hl
  exacts [hfirst hn, (hlast _ hl).2 rfl]

theorem not_last_edge (hS : G.Searched) (hlast : G.LastApart) {z : V} (hz : G.last = some z) (w : V) :
    ¬ G.Edge z w := by
  intro h
  rcases h.source hS with hn | hf
  exacts [(hlast z hz).1 hn, (hlast z hz).2 hf]

theorem Inner.target (h : G.Edge x y) (hlast : G.last ≠ some y) : G.Order x y ∨ x = G.first ∧
    (G.Root y ∨ y ∈ G.free) := by
  rcases h with h | h | ⟨h, -⟩
  exacts [.inl h, .inr h, absurd h hlast]

/-! ### A finite acyclic relation -/

section Acyclic
variable (hO : Acyclic G.Order) (hfin : {x | G.Inner x}.Finite) (hS : G.Searched)
include hO hfin

theorem exists_root (hx : G.Inner x) : ∃ r, G.Root r ∧ ReflTransGen G.Order r x := by
  obtain ⟨r, hr, hno⟩ := hO.exists_root hfin (fun u v h => Inner.of_left h) x
  refine ⟨r, ⟨?_, hno⟩, hr⟩
  rcases ReflTransGen.cases_head hr with rfl | ⟨y, he, -⟩
  exacts [hx, .of_left he]

theorem first_reaches (hx : G.Named x) : TransGen G.Edge G.first x := by
  rcases hx with hx | hx
  · obtain ⟨r, hr, hrx⟩ := exists_root hO hfin hx
    exact TransGen.head' (.inr (.inl ⟨rfl, .inl hr⟩)) (reaches_of_order hrx)
  · exact .single (.inr (.inl ⟨rfl, .inr hx⟩))

theorem exists_walk (hx : G.Named x) : ∃ l, Walk G.Edge G.first l x := by
  obtain ⟨l, hl, -⟩ := Walk.exists_of_reflTransGen (first_reaches hO hfin hx).to_reflTransGen
  exact ⟨l, hl⟩

include hS

theorem exists_leaf (hx : G.Inner x) : ∃ f ∈ G.leaves, ReflTransGen G.Order x f := by
  obtain ⟨r, hr, hrx⟩ := exists_root hO hfin hx
  obtain ⟨f, hf, hno⟩ := hO.exists_sink hfin (fun u v h => Inner.of_right h) x
  exact ⟨f, hS.found r f hr (hrx.trans hf) hno, hf⟩

theorem endPoint_iff : G.EndPoint x ↔ x ∈ G.free ∨ x ∈ G.leaves := by
  refine or_congr_right ⟨fun ⟨hx, hno⟩ => ?_, fun h => ⟨hS.inner h, hS.sink x h⟩⟩
  obtain ⟨r, hr, hrx⟩ := exists_root hO hfin hx
  exact hS.found r x hr hrx hno

theorem reaches_last {z : V} (hz : G.last = some z) (hx : G.Named x) : TransGen G.Edge x z := by
  rcases hx with hx | hx
  · obtain ⟨f, hf, hxf⟩ := exists_leaf hO hfin hS hx
    exact TransGen.tail' (reaches_of_order hxf) (.inr (.inr ⟨hz, .inr hf⟩))
  · exact .single (.inr (.inr ⟨hz, .inl hx⟩))

theorem no_sink {z : V} (hz : G.last = some z) (hn : G.Named z ∨ z = G.first) (hne : ∃ v, G.Named v) {x : V}
    (hx : ReflTransGen G.Edge G.first x) : ∃ y, G.Edge x y := by
  have hnamed : ∀ u, G.Named u → ∃ y, G.Edge u y := fun u hu => by
    obtain ⟨y, he, -⟩ := TransGen.head'_iff.mp (reaches_last hO hfin hS hz hu)
    exact ⟨y, he⟩
  have hfirst' : ∃ y, G.Edge G.first y := by
    obtain ⟨v, hv⟩ := hne
    obtain ⟨y, he, -⟩ := TransGen.head'_iff.mp (first_reaches hO hfin hv)
    exact ⟨y, he⟩
  rcases ReflTransGen.cases_tail hx with rfl | ⟨u, -, he⟩
  · exact hfirst'
  · rcases he.target with hv | hl
    · exact hnamed x hv
    · rw [hz] at hl; cases hl
      rcases hn with hn | rfl
      exacts [hnamed z hn, hfirst']

/-- The attached graph is acyclic exactly if the two extra vertices are apart from the named ones and
from each other, unless there is nothing to attach. -/
theorem acyclic_iff : Acyclic G.Edge ↔ ((∃ x, G.Named x) → ¬ G.Named G.first ∧ G.LastApart) := by
  constructor
  · rintro h ⟨x, hx⟩
    refine ⟨fun hf => h _ (first_reaches hO hfin hf), fun z hz => ⟨fun hn => ?_, ?_⟩⟩
    · exact h z (reaches_last hO hfin hS hz hn)
    · rintro rfl
      exact h _ ((first_reaches hO hfin hx).trans (reaches_last hO hfin hS hz hx))
  · intro h
    by_cases hn : ∃ x, G.Named x
    · obtain ⟨hfirst, hlast⟩ := h hn
      refine hO.of_inner fun u v he => ?_
      rcases he with he | ⟨rfl, -⟩ | ⟨hz, -⟩
      · exact .inl he
      · exact .inr (.inl (not_edge_first hfirst hlast))
      · exact .inr (.inr (not_last_edge hS hlast hz))
    · intro v hv
      obtain ⟨y, he, -⟩ := TransGen.head'_iff.mp hv
      exact hn (he.exists_named hS)

/-- In a forced relation with one edge to `last`, every vertex has one predecessor. -/
theorem pred_unique (hlast : G.LastApart) (hforced : G.Forced)
    (hone : G.last.isSome → ∀ x y, G.EndPoint x → G.EndPoint y → x = y) {u u' v : V} (he : G.Edge u v)
    (he' : G.Edge u' v) : u = u' := by
  by_cases hz : G.last = some v
  · have hend : ∀ {u}, G.Edge u v → G.EndPoint u := by
      rintro u (he | ⟨-, hv⟩ | ⟨-, hu⟩)
      · exact absurd (.inl (.of_right he)) (hlast v hz).1
      · exact absurd (hv.imp_left fun hr => hr.1) (hlast v hz).1
      · exact (endPoint_iff hO hfin hS).mpr hu
    exact hone (by rw [hz]; rfl) u u' (hend he) (hend he')
  · rcases Inner.target he hz with he | ⟨rfl, hv⟩
    · rcases Inner.target he' hz with he' | ⟨rfl, hv | hv⟩
      · exact ((hforced u v he).2 u' he').symm
      · exact absurd he (hv.2 u)
      · exact absurd hv (hforced u v he).1
    · rcases Inner.target he' hz with he' | ⟨rfl, -⟩
      · rcases hv with hv | hv
        · exact absurd he' (hv.2 u')
        · exact absurd hv (hforced u' v he').1
      · rfl

end Acyclic

/-! ### What `first` reaches -/

section Reach
variable (hS : G.Searched) (hbelow : ∀ r, G.Root r → ∃ f ∈ G.leaves, ReflTransGen G.Order r f)
include hbelow

def Entry (G : Parts V) (x : V) : Prop :=
  x = G.first ∨ G.Root x ∨ x ∈ G.free ∨ G.last = some x ∧ ∃ y, G.Root y ∨ y ∈ G.free

theorem reaches_entry (hx : G.Entry x) : ReflTransGen G.Edge G.first x := by
  rcases hx with rfl | hx | hx | ⟨hz, y, hy | hy⟩
  · exact .refl
  · exact .single (.inr (.inl ⟨rfl, .inl hx⟩))
  · exact .single (.inr (.inl ⟨rfl, .inr hx⟩))
  · obtain ⟨f, hf, hyf⟩ := hbelow y hy
    refine ReflTransGen.head (.inr (.inl ⟨rfl, .inl hy⟩)) (ReflTransGen.tail ?_ (.inr (.inr ⟨hz, .inr hf⟩)))
    exact reaches_of_order hyf
  · exact ReflTransGen.head (.inr (.inl ⟨rfl, .inr hy⟩)) (.single (.inr (.inr ⟨hz, .inl hy⟩)))

include hS

/-- What can be reached from `first` is what the relation leads to from an entry. No acyclicity is
needed, as long as the search below every root comes to an end. -/
theorem reachable_iff : ReflTransGen G.Edge G.first x ↔ ∃ e, G.Entry e ∧ ReflTransGen G.Order e x := by
  constructor
  · intro h
    induction h with
    | refl => exact ⟨_, .inl rfl, .refl⟩
    | @tail u v _ he ih =>
      rcases he with he | ⟨-, hr | hf⟩ | ⟨hz, hu⟩
      · obtain ⟨e, hen, heu⟩ := ih
        exact ⟨e, hen, heu.tail he⟩
      · exact ⟨v, .inr (.inl hr), .refl⟩
      · exact ⟨v, .inr (.inr (.inl hf)), .refl⟩
      · refine ⟨v, .inr (.inr (.inr ⟨hz, ?_⟩)), .refl⟩
        rcases hu with hu | hu
        · exact ⟨u, .inr hu⟩
        · obtain ⟨r, hr, -⟩ := hS.below u hu
          exact ⟨r, .inl hr⟩
  · rintro ⟨e, hen, hex⟩
    exact (reaches_entry hbelow hen).trans (reaches_of_order hex)

end Reach

/-! ### Walks from `first` -/

section Walks
variable (hO : Acyclic G.Order) (hfin : {x | G.Inner x}.Finite) (hS : G.Searched)
  (hfirst : ¬ G.Named G.first)
include hO hfin hfirst

/-- All walks from `first` respect the relation exactly if it is forced. -/
theorem dominated_iff (hlast : ∀ z, G.last = some z → ¬ G.Named z) :
    (∀ a b, G.Order a b → ∀ l, Walk G.Edge G.first l b → a ∈ l) ↔ G.Forced := by
  constructor
  · intro h a b hab
    have hane : a ≠ G.first := by rintro rfl; exact hfirst (.inl (.of_left hab))
    refine ⟨fun hb => ?_, fun c hcb => ?_⟩
    · have hmem := h a b hab [b, G.first] (Walk.start.step (.inr (.inl ⟨rfl, .inr hb⟩)))
      simp [hane, hO.ne hab] at hmem
    · -- of two predecessors each would have to reach the other
      have reach : ∀ u v, G.Order u b → G.Order v b → ReflTransGen G.Order u v := by
        intro u v hu hv
        obtain ⟨r, hr, hrv⟩ := exists_root hO hfin (.of_left hv)
        obtain ⟨l, hl, hlv⟩ := Walk.exists_of_reflTransGen hrv
        have hw : ∀ {l x}, Walk G.Order r l x → Walk G.Edge G.first (l ++ [G.first]) x := by
          intro l x hw
          induction hw with
          | start => exact Walk.start.step (.inr (.inl ⟨rfl, .inl hr⟩))
          | step _ he ih => exact ih.step (.inl he)
        have hmem := h u b hu _ ((hw hl).step (.inl hv))
        rw [List.mem_cons, List.mem_append, List.mem_singleton] at hmem
        rcases hmem with rfl | hmem | rfl
        · exact absurd rfl (hO.ne hu)
        · exact hlv u hmem
        · exact absurd (.inl (.of_left hu)) hfirst
      exact hO.antisymm (reach c a hcb hab) (reach a c hab hcb)
  · intro h a b hab l hl
    cases hl with
    | start => exact absurd (.inl (.of_right hab)) hfirst
    | step hl he =>
      rcases he with he | ⟨-, hr | hf⟩ | ⟨hz, -⟩
      · rw [← (h a b hab).2 _ he]
        exact List.mem_cons_of_mem _ hl.mem_end
      · exact absurd hab (hr.2 a)
      · exact absurd hf (h a b hab).1
      · exact absurd (.inl (.of_right hab)) (hlast b hz)

include hS

theorem exists_sink (hlast : G.LastApart) (hx : G.Named x) :
    ∃ y, ReflTransGen G.Edge x y ∧ ∀ w, ¬ G.Edge y w := by
  cases hz : G.last with
  | some z =>
    exact ⟨z, (reaches_last hO hfin hS hz hx).to_reflTransGen, not_last_edge hS hlast hz⟩
  | none =>
    have hsink : ∀ y, G.Named y → (∀ w, ¬ G.Order y w) → ∀ w, ¬ G.Edge y w := by
      rintro y hy hno w (he | ⟨rfl, -⟩ | ⟨hl, -⟩)
      · exact hno w he
      · exact hfirst hy
      · rw [hz] at hl; cases hl
    by_cases hi : G.Inner x
    · obtain ⟨f, hf, hxf⟩ := exists_leaf hO hfin hS hi
      exact ⟨f, reaches_of_order hxf, hsink f (.inl (hS.inner hf)) (hS.sink f hf)⟩
    · exact ⟨x, .refl, hsink x hx fun w he => hi (.of_left he)⟩

theorem unique_walks_named (hlast : G.LastApart)
    (h : ∀ x, (∀ y, ¬ G.Edge x y) → ∀ l l', Walk G.Edge G.first l x → Walk G.Edge G.first l' x → l = l')
    {x : V} (hx : G.Named x) {l l' : List V} (hl : Walk G.Edge G.first l x)
    (hl' : Walk G.Edge G.first l' x) : l = l' := by
  obtain ⟨y, hxy, hsink⟩ := exists_sink hO hfin hS hfirst hlast hx
  obtain ⟨m, hm⟩ := Walk.extend hxy
  exact List.append_cancel_left (h y hsink _ _ (hm _ _ hl) (hm _ _ hl'))

/-- Every sink is reached from `first` in at most one way exactly if the relation is forced and at most
one edge leads to `last`, or `last` is not apart, and then no sink is reached. -/
theorem unique_walks_iff :
    (∀ x, (∀ y, ¬ G.Edge x y) → ∀ l l', Walk G.Edge G.first l x → Walk G.Edge G.first l' x → l = l') ↔
      (G.LastApart → G.Forced ∧ (G.last.isSome → ∀ x y, G.EndPoint x → G.EndPoint y → x = y)) := by
  constructor
  · intro h hlast
    refine ⟨fun a b hab => ⟨fun hb => ?_, fun c hcb => ?_⟩, fun hsome x y hx hy => ?_⟩
    · obtain ⟨l, hl⟩ := exists_walk hO hfin (.inl (.of_left hab) : G.Named a)
      have heq := unique_walks_named hO hfin hS hfirst hlast h (.inr hb) (hl.step (.inl hab))
        (Walk.start.step (.inr (.inl ⟨rfl, .inr hb⟩)))
      rw [(List.cons.inj heq).2] at hl
      obtain rfl := hl.end_unique .start
      exact hfirst (.inl (.of_left hab))
    · obtain ⟨l, hl⟩ := exists_walk hO hfin (.inl (.of_left hab) : G.Named a)
      obtain ⟨l', hl'⟩ := exists_walk hO hfin (.inl (.of_left hcb) : G.Named c)
      have heq := unique_walks_named hO hfin hS hfirst hlast h (.inl (.of_right hab)) (hl'.step (.inl hcb))
        (hl.step (.inl hab))
      rw [← (List.cons.inj heq).2] at hl
      exact hl'.end_unique hl
    · obtain ⟨z, hz⟩ := Option.isSome_iff_exists.mp hsome
      have hnamed : ∀ u, G.EndPoint u → G.Named u := fun u hu => hu.symm.imp_left fun h => h.1
      obtain ⟨l, hl⟩ := exists_walk hO hfin (hnamed x hx)
      obtain ⟨l', hl'⟩ := exists_walk hO hfin (hnamed y hy)
      rw [endPoint_iff hO hfin hS] at hx hy
      have heq := h z (not_last_edge hS hlast hz) _ _ (hl.step (.inr (.inr ⟨hz, hx⟩)))
        (hl'.step (.inr (.inr ⟨hz, hy⟩)))
      rw [(List.cons.inj heq).2] at hl
      exact hl.end_unique hl'
  · intro h x hsink l l' hl hl'
    by_cases hlast : G.LastApart
    · obtain ⟨hforced, hone⟩ := h hlast
      refine Walk.unique ?_ (not_edge_first hfirst hlast) hl hl'
      exact fun u u' v he he' => pred_unique hO hfin hS hlast hforced hone he he'
    · rw [LastApart] at hlast
      push Not at hlast
      obtain ⟨z, hz, hn⟩ := hlast
      have hn' : G.Named z ∨ z = G.first := by
        by_cases hnz : G.Named z
        exacts [.inl hnz, .inr (hn hnz)]
      by_cases hne : ∃ v, G.Named v
      · obtain ⟨y, he⟩ := no_sink hO hfin hS hz hn' hne hl.reflTransGen
        exact absurd he (hsink y)
      · -- nothing is attached
        have hno : ∀ y, ¬ G.Edge G.first y := fun y he => hne (he.exists_named hS)
        rw [(hl.eq_of_no_succ hno).1, (hl'.eq_of_no_succ hno).1]

end Walks

end Parts
end Attach
