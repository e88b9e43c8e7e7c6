import Mathlib

/-!
# Foundations - Reference counts

A table of holders is a map from finitely many names to records, and each record
holds a number of references.  A reference count is right when it equals the
total over the table.  The lemmas say how the total changes when one record does.

Main results:

- Theorem {lit}`total_update`: replacing one record changes the total by the
  difference.
- Theorem {lit}`total_pos`: one record that holds a reference makes the total
  positive.
-/

namespace Foundations

variable {ι κ : Type} [Fintype ι]

/-- References held by the records of a table. -/
def total (held : κ → Int) (table : ι → κ) : Int :=
  ∑ i, held (table i)

variable {held : κ → Int} {table : ι → κ}

theorem total_update [DecidableEq ι] (held : κ → Int) (table : ι → κ) (i : ι) (r : κ) :
    total held (Function.update table i r) = total held table - held (table i) + held r := by
  unfold total
  have hbefore := Finset.add_sum_erase Finset.univ (fun j => held (table j)) (Finset.mem_univ i)
  have hafter := Finset.add_sum_erase Finset.univ
    (fun j => held (Function.update table i r j)) (Finset.mem_univ i)
  have hrest : ∑ j ∈ Finset.univ.erase i, held (Function.update table i r j) =
      ∑ j ∈ Finset.univ.erase i, held (table j) := by
    refine Finset.sum_congr rfl ?_
    intro j hj
    rw [Function.update_of_ne (Finset.ne_of_mem_erase hj)]
  simp only [Function.update_self] at hafter
  rw [hrest] at hafter
  omega

/-- A record that holds as much as the one it replaces. -/
theorem total_update_same [DecidableEq ι] {i : ι} {r : κ} (h : held r = held (table i)) :
    total held (Function.update table i r) = total held table := by
  rw [total_update, h]
  omega

theorem total_nonneg (hnonneg : ∀ r, 0 ≤ held r) : 0 ≤ total held table :=
  Finset.sum_nonneg fun i _ => hnonneg (table i)

theorem total_pos (hnonneg : ∀ r, 0 ≤ held r) (i : ι) (hi : 0 < held (table i)) :
    0 < total held table :=
  hi.trans_le (Finset.single_le_sum (f := fun j => held (table j))
    (fun j _ => hnonneg (table j)) (Finset.mem_univ i))

/-- Only one record holds anything. -/
theorem total_eq_single (i : ι) (h : ∀ j, j ≠ i → held (table j) = 0) :
    total held table = held (table i) :=
  Finset.sum_eq_single i (fun j _ hj => h j hj) (fun hi => absurd (Finset.mem_univ i) hi)

theorem total_congr {ι : Type} [Fintype ι] {held : κ → Int} {table table' : ι → κ}
    (h : ∀ i, held (table i) = held (table' i)) : total held table = total held table' :=
  Finset.sum_congr rfl fun i _ => h i

end Foundations
