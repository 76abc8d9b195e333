import Mathlib.Data.List.Basic

/-!
# Folds in any order and any bracketing

A `Bracketing` says in which order and with which brackets a family of elements is combined, and what each
combination finds besides its two parts: `leaves` are the elements from left to right, `eval op` combines them.
What an operation guarantees for two neighboring parts it guarantees for the whole (`eval_rule`). A left fold is
one way to bracket (`left`).
-/

universe u v

inductive Bracketing (β : Type u) (α : Type v)
  | of (a : α)
  | mul (b : β) (s t : Bracketing β α)

namespace Bracketing
variable {β : Type u} {α : Type v} {op : β → α → α → α}

def leaves : Bracketing β α → List α
  | .of a => [a]
  | .mul _ s t => leaves s ++ leaves t

def eval (op : β → α → α → α) : Bracketing β α → α
  | .of a => a
  | .mul b s t => op b (eval op s) (eval op t)

/-- The rule: what holds of a single element and of two parts that are combined holds of the result. -/
theorem eval_rule {P : Bracketing β α → α → Prop} (hof : ∀ a, P (.of a) a)
    (hop : ∀ b s t x y, P s x → P t y → P (.mul b s t) (op b x y)) (t : Bracketing β α) : P t (eval op t) := by
  induction t with
  | of a => exact hof a
  | mul b s t ihs iht => exact hop b s t _ _ ihs iht

/-- The brackets of a left fold; what a combination finds depends on how many elements are left. -/
def left (found : Nat → β) (t : Bracketing β α) : List α → Bracketing β α
  | [] => t
  | a :: l => left found (.mul (found (l.length + 2)) t (.of a)) l

theorem leaves_left (found : Nat → β) (t : Bracketing β α) (l : List α) :
    leaves (left found t l) = leaves t ++ l := by
  induction l generalizing t with
  | nil => exact (List.append_nil _).symm
  | cons a l ih =>
    rw [left, ih]
    exact List.append_assoc (leaves t) [a] l

end Bracketing
