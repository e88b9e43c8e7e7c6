import Mathlib

/-!
# Foundations - Singly linked lists in memory

Cells are linked by a `next` pointer that may be null.  {lit}`Linked` says that following
the pointers from `p` visits the cells of a list and ends at null.

Main results:

- Theorem {lit}`Linked.congr`: cells outside the list do not matter.
- Theorem {lit}`lastCell_eq`: the walk to the last cell.
- Theorem {lit}`Linked.concat`: a cell is linked behind the last one.
-/

namespace Foundations

variable {α : Type}

/-- Following `next` from `p` visits `xs` and ends at null. -/
def Linked (next : α → Option α) : Option α → List α → Prop
  | p, [] => p = none
  | p, x :: xs => p = some x ∧ Linked next (next x) xs

/-- Walk from a cell to the last one; undefined when it is not reached in `k` rounds. -/
def lastCell (next : α → Option α) : Nat → α → Option α
  | 0, _ => none
  | k + 1, x =>
    match next x with
    | none => some x
    | some y => lastCell next k y

section Linked

variable {next next' : α → Option α} {p : Option α} {x : α} {xs : List α}

theorem Linked.congr (h : Linked next p xs) (hnext : ∀ y ∈ xs, next' y = next y) :
    Linked next' p xs := by
  induction xs generalizing p with
  | nil => exact h
  | cons y ys ih =>
    refine ⟨h.1, ?_⟩
    rw [hnext y List.mem_cons_self]
    exact ih h.2 fun z hz => hnext z (List.mem_cons_of_mem y hz)

/-- The first cell of a list that is not empty. -/
theorem Linked.head?_eq (h : Linked next p xs) : p = xs.head? := by
  cases xs with
  | nil => exact h
  | cons y ys => exact h.1

/-- The pointers determine the list. -/
theorem Linked.unique {ys : List α} (h : Linked next p xs) (h' : Linked next p ys) : xs = ys := by
  induction xs generalizing p ys with
  | nil =>
    cases ys with
    | nil => rfl
    | cons y ys =>
      have hnone : p = none := h
      rw [hnone] at h'
      cases h'.1
  | cons x xs ih =>
    cases ys with
    | nil =>
      have hnone : p = none := h'
      rw [hnone] at h
      cases h.1
    | cons y ys =>
      have hxy : x = y := Option.some.inj (h.1.symm.trans h'.1)
      subst hxy
      rw [ih h.2 h'.2]

theorem lastCell_eq {k : Nat} (h : Linked next (next x) xs) (hk : xs.length < k) :
    lastCell next k x = some (xs.getLastD x) := by
  induction k generalizing x xs with
  | zero => exact absurd hk (Nat.not_lt_zero _)
  | succ k ih =>
    rw [lastCell]
    cases xs with
    | nil =>
      have hnone : next x = none := h
      rw [hnone]
      rfl
    | cons y ys =>
      rw [h.1, List.getLastD_cons]
      exact ih h.2 (Nat.lt_of_succ_lt_succ hk)

/-- A cell that is not in the list is linked behind its last cell. -/
theorem Linked.concat [DecidableEq α] {y : α} (h : Linked next p (x :: xs))
    (hnodup : (x :: xs).Nodup) (hy : y ∉ x :: xs) (hnext : next y = none) :
    Linked (Function.update next (xs.getLastD x) (some y)) p (x :: xs ++ [y]) := by
  induction xs generalizing p x with
  | nil =>
    have hyx : y ≠ x := by
      intro heq
      exact hy (List.mem_singleton.mpr heq)
    have hlast : Function.update next x (some y) y = none := by
      rw [Function.update_of_ne hyx]
      exact hnext
    have hpair : Linked (Function.update next x (some y)) p [x, y] :=
      ⟨h.1, Function.update_self x (some y) next, hlast⟩
    exact hpair
  | cons z zs ih =>
    have hx : zs.getLastD z ≠ x := by
      intro heq
      have hmem : x ∈ z :: zs := by
        rw [← heq, ← List.getLast_eq_getLastD]
        exact List.getLast_mem (List.cons_ne_nil z zs)
      exact (List.nodup_cons.mp hnodup).1 hmem
    have hrest := ih h.2 (List.nodup_cons.mp hnodup).2
      (fun hmem => hy (List.mem_cons_of_mem x hmem))
    rw [List.getLastD_cons]
    refine ⟨h.1, ?_⟩
    rw [Function.update_of_ne (Ne.symm hx)]
    exact hrest

end Linked

end Foundations
