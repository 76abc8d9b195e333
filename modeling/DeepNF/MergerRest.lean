import DeepNF.Sender

/-!
# The merger comes to rest

What the threads still have to do for the packets received so far is finite: `State.left` goes down with each of
their steps. So without new packets they are through after that many steps at most, in whatever order they run, and
there is always an order in which they get through (`exec_rests`). With it, any packets that the leaves deliver can be
received one behind the other, each when the threads are at rest (`exists_oneByOne`), and then every complete id is
merged.
-/

namespace DeepNF.MergerOperator
open Std (TreeMap)

def Phase.left : Phase → Nat
  | .started => 3
  | .merged .. => 2
  | .erased .. => 1
  | .sent .. => 0

/-- A pending test is one step, and may start a merge. -/
def State.left (mi : MergerInfo) (s : State) : Nat :=
  4 * mi.leaves.countP (fun k => (s.tests k).isSome) + (s.merges.map (·.phase.left)).sum

variable {sweeps : Nat} {mi : MergerInfo} {acts acts' : List Action} {ds : List (Int × Packet)} {s s' : State}
  {a : Action}

/-! ### One step -/

theorem sum_left_setPhase {i : Nat} {t : MergeThread} (ht : s.merges[i]? = some t) (ph : Phase)
    (hph : ph.left + 1 = t.phase.left) :
    ((s.setPhase i ph).merges.map (·.phase.left)).sum + 1 = (s.merges.map (·.phase.left)).sum := by
  rw [State.setPhase]
  dsimp only
  generalize s.merges = l at ht
  induction l generalizing i with
  | nil => cases ht
  | cons x l ih =>
    cases i with
    | zero =>
      obtain rfl : x = t := by simpa using ht
      simp only [List.modify_zero_cons, List.map_cons, List.sum_cons]
      omega
    | succ i =>
      have := ih (by simpa using ht)
      simp only [List.modify_succ_cons, List.map_cons, List.sum_cons]
      omega

theorem countP_update_lt {l : List Int} {n : Int} (hn : n ∈ l) {tests : Int → Option (Int × Nat)}
    (hsome : (tests n).isSome) : l.countP (fun k => (Function.update tests n none k).isSome) + 1 ≤
      l.countP fun k => (tests k).isSome := by
  have hle : ∀ m : List Int, m.countP (fun k => (Function.update tests n none k).isSome) ≤
      m.countP fun k => (tests k).isSome := by
    intro m
    refine List.countP_mono_left fun k _ hk => ?_
    by_cases hkn : k = n
    · subst hkn; simp at hk
    · rwa [Function.update_of_ne hkn] at hk
  obtain ⟨l₁, l₂, rfl⟩ := List.append_of_mem hn
  have h₁ := hle l₁
  have h₂ := hle l₂
  rw [List.countP_append, List.countP_append, List.countP_cons, List.countP_cons, Function.update_self, hsome]
  simp only [Option.isSome_none, Bool.false_eq_true, if_false, if_true]
  omega

theorem step_left (hi : Inv mi ds s) (hs : step sweeps mi s a = some s') (ha : ∀ n p, a ≠ .receive n p)
    (halive : s'.aborted = false) : s'.left mi + 1 ≤ s.left mi := by
  obtain ⟨-, hs⟩ := step_cases hs
  cases a with
  | receive n p => exact absurd rfl (ha n p)
  | test n =>
    obtain ⟨id, h, ht, rfl⟩ := hs
    have hn := hi.leaf n id (hi.test n id h ht).2.1
    have hsome : (s.tests n).isSome := by rw [ht]; rfl
    have hlt := countP_update_lt hn hsome
    unfold State.testSize State.left
    -- a merge that is started has three steps to make, one less than the test counted for
    split
    · simp only [List.map_append, List.sum_append, List.map_singleton, List.sum_singleton, Phase.left]
      omega
    · dsimp only
      omega
  | lookup i =>
    obtain ⟨id, ht, ⟨-, rfl⟩ | ⟨h, -, ⟨e, -, rfl⟩ | ⟨r, -, rfl⟩⟩⟩ := hs
    · cases halive
    · cases halive
    · have hsum := sum_left_setPhase ht (.merged (s.deref h) r) rfl
      unfold State.left
      show 4 * mi.leaves.countP (fun k => (s.tests k).isSome) + _ + 1 ≤ _
      omega
  | erase i =>
    obtain ⟨id, m, r, ht, rfl⟩ := hs
    have hsum := sum_left_setPhase (s := { s with packetMap := s.packetMap.erase id }) ht (.erased m r) rfl
    dsimp only at hsum
    unfold State.left
    show 4 * mi.leaves.countP (fun k => (s.tests k).isSome) + _ + 1 ≤ _
    omega
  | send i =>
    obtain ⟨id, m, r, ht, rfl⟩ := hs
    have hsum := sum_left_setPhase ht (.sent m r) rfl
    unfold State.left
    show 4 * mi.leaves.countP (fun k => (s.tests k).isSome) + _ + 1 ≤ _
    omega

/-! ### The steps up to rest -/

theorem Calm.snoc (hcalm : Calm sweeps mi acts) (ha : ∀ s, exec sweeps mi acts = some s → CalmStep mi acts s a) :
    Calm sweeps mi (acts ++ [a]) := by
  intro i b hb s hs
  by_cases hlt : i < acts.length
  · have htake : (acts ++ [a]).take i = acts.take i := List.take_append_of_le_length (by omega)
    rw [htake] at hs ⊢
    exact hcalm i b (by rwa [List.getElem?_append_left hlt] at hb) s hs
  · rw [List.getElem?_append_right (by omega), List.getElem?_singleton] at hb
    split at hb
    · have htake : (acts ++ [a]).take i = acts := by
        rw [show i = acts.length by omega, List.take_left]
      rw [htake] at hs ⊢
      exact Option.some.inj hb ▸ ha s hs
    · cases hb

theorem Calm.snoc_of_ne (hcalm : Calm sweeps mi acts) (ha : ∀ n p, a ≠ .receive n p) :
    Calm sweeps mi (acts ++ [a]) :=
  hcalm.snoc fun _ _ n p he => absurd he (ha n p)

theorem exec_snoc_of_ne (hcfg : Configured sweeps mi) (ho : OncePerLeaf (deliveries acts)) (hcalm : Calm sweeps mi acts)
    (h : exec sweeps mi acts = some s) (hs : step sweeps mi s a = some s') (ha : ∀ n p, a ≠ .receive n p) :
    OncePerLeaf (deliveries (acts ++ [a])) ∧ Calm sweeps mi (acts ++ [a]) ∧
      exec sweeps mi (acts ++ [a]) = some s' ∧ s'.left mi + 1 ≤ s.left mi := by
  have ho' : OncePerLeaf (deliveries (acts ++ [a])) := by rwa [deliveries_append ha]
  have h' := exec_snoc h hs
  have hsingle := exec_single hcfg ho' (hcalm.snoc_of_ne ha) h'
  exact ⟨ho', hcalm.snoc_of_ne ha, h', step_left (exec_inv hcfg.nodup ho h) hs ha hsingle.alive⟩

theorem exists_exec_idle (hcfg : Configured sweeps mi) (ho : OncePerLeaf (deliveries acts))
    (hcalm : Calm sweeps mi acts) (h : exec sweeps mi acts = some s) :
    ∃ acts' s', (∀ a ∈ acts', (∀ n p, a ≠ .receive n p) ∧ a.Clean) ∧ exec sweeps mi (acts ++ acts') = some s' ∧
      s'.Idle := by
  generalize hn : s.left mi = n
  induction n using Nat.strongRecOn generalizing acts s with
  | ind n ih =>
    by_cases hidle : s.Idle
    · exact ⟨[], s, by simp, by rwa [List.append_nil], hidle⟩
    · obtain ⟨a, ha, hsome⟩ := (exec_single hcfg ho hcalm h).progress hcfg (exec_inv hcfg.nodup ho h) hidle
      obtain ⟨s₁, hs⟩ := Option.isSome_iff_exists.mp hsome
      obtain ⟨ho₁, hcalm₁, h₁, hleft⟩ := exec_snoc_of_ne hcfg ho hcalm h hs ha.1
      obtain ⟨acts', s', ha', h', hidle'⟩ := ih _ (by omega) ho₁ hcalm₁ h₁ rfl
      refine ⟨a :: acts', s', List.forall_mem_cons.mpr ⟨ha, ha'⟩, ?_, hidle'⟩
      rwa [List.append_cons]

theorem deliveries_append_of_ne (ha : ∀ a ∈ acts', ∀ n p, a ≠ .receive n p) :
    deliveries (acts ++ acts') = deliveries acts := by
  induction acts' using List.reverseRecOn with
  | nil => rw [List.append_nil]
  | append_singleton acts' a ih =>
    rw [← List.append_assoc, deliveries_append (ha a (by simp))]
    exact ih fun b hb => ha b (by simp [hb])

theorem Calm.append_of_ne (hcalm : Calm sweeps mi acts) (ha : ∀ a ∈ acts', ∀ n p, a ≠ .receive n p) :
    Calm sweeps mi (acts ++ acts') := by
  induction acts' using List.reverseRecOn with
  | nil => rwa [List.append_nil]
  | append_singleton acts' a ih =>
    rw [← List.append_assoc]
    exact (ih fun b hb => ha b (by simp [hb])).snoc_of_ne (ha a (by simp))

theorem exists_oneByOne (hcfg : Configured sweeps mi) (ho : OncePerLeaf ds) (hds : ∀ x ∈ ds, x.1 ∈ mi.leaves) :
    ∃ acts s, deliveries acts = ds ∧ exec sweeps mi acts = some s ∧ Calm sweeps mi acts ∧ s.Idle ∧
      ∀ a ∈ acts, a.Clean := by
  induction ds using List.reverseRecOn with
  | nil => exact ⟨[], {}, rfl, rfl, fun i a ha => by simp at ha, ⟨fun _ => rfl, fun t ht => by cases ht⟩, by simp⟩
  | append_singleton ds x ih =>
    obtain ⟨n, p⟩ := x
    obtain ⟨acts, s, hdel, h, hcalm, hidle, hclean⟩ := ih ho.of_append fun x hx => hds x (by simp [hx])
    have hsingle := exec_single hcfg (hdel ▸ ho.of_append) hcalm h
    have hs : step sweeps mi s (.receive n p) = some (s.insertPacket n p) := by
      simp [step, hsingle.alive, hidle.1, hds (n, p) (by simp)]
    have hcalm₁ : Calm sweeps mi (acts ++ [.receive n p]) := by
      refine hcalm.snoc fun s' hs' n' p' _ _ k g hk => ?_
      obtain rfl := Option.some.inj (h.symm.trans hs')
      rw [hidle.1] at hk
      cases hk
    have hdel₁ : deliveries (acts ++ [.receive n p]) = ds ++ [(n, p)] := by rw [deliveries_receive, hdel]
    obtain ⟨acts', s', ha, h', hidle'⟩ := exists_exec_idle hcfg (hdel₁ ▸ ho) hcalm₁ (exec_snoc h hs)
    have hne : ∀ a ∈ acts', ∀ n p, a ≠ .receive n p := fun a hmem => (ha a hmem).1
    refine ⟨_, s', (deliveries_append_of_ne hne).trans hdel₁, h', hcalm₁.append_of_ne hne, hidle', ?_⟩
    simp only [List.forall_mem_append, List.forall_mem_singleton]
    exact ⟨⟨hclean, by simp [Action.Clean]⟩, fun a hmem => (ha a hmem).2⟩

end DeepNF.MergerOperator
