import Mathlib.Data.List.Basic

/-!
# Registers

A register under a sequence of steps, each of which writes it or leaves it alone: it holds what was last written
(`read_foldl`).
-/

namespace Histories
variable {σ ι α : Type*} {write : ι → Option α} {l : List ι}

/-- The last value that the items write, or `a` if none of them writes. -/
def lastWrite (write : ι → Option α) (l : List ι) (a : α) : α := (l.filterMap write).getLast?.getD a

@[simp] theorem lastWrite_nil (a : α) : lastWrite write [] a = a := rfl

@[simp] theorem lastWrite_cons (i : ι) (l : List ι) (a : α) :
    lastWrite write (i :: l) a = lastWrite write l ((write i).getD a) := by
  unfold lastWrite
  cases h : write i with
  | none => rw [List.filterMap_cons_none h]; rfl
  | some b => rw [List.filterMap_cons_some h, List.getLast?_cons]; rfl

/-- What is read at the end is what was last written, if that holds of every single step. -/
theorem read_foldl (step : σ → ι → σ) (read : σ → α) (write : ι → Option α)
    (h : ∀ i ∈ l, ∀ s, read (step s i) = (write i).getD (read s)) (s : σ) :
    read (l.foldl step s) = lastWrite write l (read s) := by
  induction l generalizing s with
  | nil => rfl
  | cons i l ih =>
    rw [List.foldl_cons, ih (fun j hj => h j (List.mem_cons_of_mem _ hj)), h i (List.mem_cons_self ..),
      lastWrite_cons]

theorem lastWrite_of_mem {b : α} {i : ι} (hi : i ∈ l) (hw : (write i).isSome)
    (h : ∀ i ∈ l, ∀ c, write i = some c → c = b) (a : α) : lastWrite write l a = b := by
  obtain ⟨c, hc⟩ := Option.isSome_iff_exists.mp hw
  have hne : l.filterMap write ≠ [] := List.ne_nil_of_mem (List.mem_filterMap.mpr ⟨i, hi, hc⟩)
  obtain ⟨j, hj, hlast⟩ := List.mem_filterMap.mp (List.getLast_mem hne)
  rw [lastWrite, List.getLast?_eq_some_getLast hne]
  exact h j hj _ hlast

theorem lastWrite_of_none (h : ∀ i ∈ l, write i = none) (a : α) : lastWrite write l a = a := by
  rw [lastWrite, List.filterMap_eq_nil_iff.mpr h]
  rfl

end Histories
