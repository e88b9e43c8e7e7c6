import Mathlib

/-!
# Foundations - Paths and circular lists

Cells are linked by a pointer that is never null.  {lit}`Leads` says that following the
pointers from `x` visits the cells of a list and arrives at `y`; a circular list is a path
that arrives where it began.

Main results:

- Theorem {lit}`leads_append`: a path is cut at any cell.
- Theorem {lit}`Leads.congr`: only the pointers of the cells on the path matter.
- Theorem {lit}`seek_of_cycle`: a search that starts anywhere on a circular list finds a
  cell if there is one.
-/

namespace Foundations

variable {α : Type}

/-- Following `next` from `x` visits `xs` and arrives at `y`. -/
def Leads (next : α → α) : α → List α → α → Prop
  | x, [], y => x = y
  | x, z :: zs, y => x = z ∧ Leads next (next z) zs y

/-- Follow `next` to the first cell at which to stop; undefined after `k` rounds. -/
def seek (next : α → α) (stop : α → Bool) : Nat → α → Option α
  | 0, _ => none
  | k + 1, x => if stop x then some x else seek next stop k (next x)

section Paths

variable {next next' : α → α} {stop : α → Bool} {x y z : α} {xs ys : List α}

/-- A path is cut where the first part arrives. -/
theorem leads_append :
    Leads next x (xs ++ ys) y ↔ ∃ z, Leads next x xs z ∧ Leads next z ys y := by
  induction xs generalizing x with
  | nil =>
    constructor
    · intro h
      exact ⟨x, rfl, h⟩
    · intro ⟨z, hxz, h⟩
      have heq : x = z := hxz
      rw [heq]
      exact h
  | cons w ws ih =>
    constructor
    · intro h
      obtain ⟨z, hfirst, hsecond⟩ := ih.mp h.2
      exact ⟨z, ⟨h.1, hfirst⟩, hsecond⟩
    · intro ⟨z, hfirst, hsecond⟩
      exact ⟨hfirst.1, ih.mpr ⟨z, hfirst.2, hsecond⟩⟩

/-- A path is cut at one of its cells. -/
theorem leads_append_cons :
    Leads next x (xs ++ z :: ys) y ↔ Leads next x xs z ∧ Leads next (next z) ys y := by
  rw [leads_append]
  constructor
  · intro ⟨w, hfirst, hw, hsecond⟩
    rw [hw] at hfirst
    exact ⟨hfirst, hsecond⟩
  · intro ⟨hfirst, hsecond⟩
    exact ⟨z, hfirst, rfl, hsecond⟩

/-- Only the pointers of the cells on the path matter. -/
theorem Leads.congr (h : Leads next x xs y) (hnext : ∀ z ∈ xs, next' z = next z) :
    Leads next' x xs y := by
  induction xs generalizing x with
  | nil => exact h
  | cons w ws ih =>
    refine ⟨h.1, ?_⟩
    rw [hnext w List.mem_cons_self]
    exact ih h.2 fun z hz => hnext z (List.mem_cons_of_mem w hz)

/-- A path begins with its first cell, or where it arrives. -/
theorem Leads.start_eq (h : Leads next x xs y) : x = xs.headD y := by
  cases xs with
  | nil => exact h
  | cons z zs => exact h.1

/-- A circular list is walked from any of its cells. -/
theorem Leads.rotate (h : Leads next y xs y) (hx : x ∈ xs) :
    ∃ zs, (x :: zs).Perm xs ∧ Leads next x (x :: zs) x := by
  obtain ⟨before, after, hsplit⟩ := List.append_of_mem hx
  subst hsplit
  obtain ⟨hbefore, hafter⟩ := leads_append_cons.mp h
  refine ⟨after ++ before, ?_, rfl, leads_append.mpr ⟨y, hafter, hbefore⟩⟩
  have hswap : (x :: after ++ before).Perm (before ++ x :: after) := List.perm_append_comm
  exact hswap

/-- Every cell of a circular list has one before it. -/
theorem Leads.exists_before (h : Leads next y xs y) (hx : x ∈ xs) : ∃ q ∈ xs, next q = x := by
  obtain ⟨zs, hperm, hcycle⟩ := h.rotate hx
  have hlast := List.dropLast_append_getLast (List.cons_ne_nil x zs)
  rw [← hlast] at hcycle
  refine ⟨(x :: zs).getLast (List.cons_ne_nil x zs), ?_, (leads_append_cons.mp hcycle).2⟩
  exact hperm.mem_iff.mp (List.getLast_mem _)

/-- A search along a path finds the first cell at which to stop. -/
theorem Leads.seek (h : Leads next x xs y) (hstop : ∃ q ∈ xs, stop q = true) {k : Nat}
    (hk : xs.length ≤ k) :
    ∃ before q after, xs = before ++ q :: after ∧ stop q = true ∧
      (∀ r ∈ before, stop r = false) ∧ seek next stop k x = some q := by
  induction xs generalizing x k with
  | nil =>
    obtain ⟨q, hq, -⟩ := hstop
    cases hq
  | cons w ws ih =>
    obtain ⟨hxw, hrest⟩ := h
    subst hxw
    obtain ⟨k', rfl⟩ : ∃ k', k = k' + 1 := ⟨k - 1, by simp at hk; omega⟩
    rw [List.length_cons, Nat.add_le_add_iff_right] at hk
    by_cases hx : stop x = true
    · refine ⟨[], x, ws, rfl, hx, by simp, ?_⟩
      rw [Foundations.seek, if_pos hx]
    · have hlater : ∃ q ∈ ws, stop q = true := by
        obtain ⟨q, hq, hqstop⟩ := hstop
        rcases List.mem_cons.mp hq with hq | hq
        · rw [hq] at hqstop
          exact absurd hqstop hx
        · exact ⟨q, hq, hqstop⟩
      obtain ⟨before, q, after, hsplit, hqstop, hbefore, hfound⟩ := ih hrest hlater hk
      refine ⟨x :: before, q, after, by rw [hsplit]; rfl, hqstop, ?_, ?_⟩
      · intro r hr
        rcases List.mem_cons.mp hr with hr | hr
        · rw [hr]
          simpa using hx
        · exact hbefore r hr
      · rw [Foundations.seek, if_neg hx]
        exact hfound

/-- A search that starts anywhere on a circular list finds a cell if there is one; if the
cell found is the last one before the start, it is the only one. -/
theorem seek_of_cycle (h : Leads next y xs y) (hnodup : xs.Nodup) (hx : x ∈ xs)
    (hstop : ∃ q ∈ xs, stop q = true) {k : Nat} (hk : xs.length ≤ k) :
    ∃ q ∈ xs, stop q = true ∧ seek next stop k x = some q ∧
      (next q = x → ∀ r ∈ xs, stop r = true → r = q) := by
  obtain ⟨zs, hperm, hcycle⟩ := h.rotate hx
  have hstop' : ∃ q ∈ x :: zs, stop q = true := by
    obtain ⟨q, hq, hqstop⟩ := hstop
    exact ⟨q, hperm.mem_iff.mpr hq, hqstop⟩
  obtain ⟨before, q, after, hsplit, hqstop, hbefore, hfound⟩ :=
    hcycle.seek hstop' (hperm.length_eq.trans_le hk)
  have hq : q ∈ x :: zs := by
    rw [hsplit]
    simp
  refine ⟨q, hperm.mem_iff.mp hq, hqstop, hfound, ?_⟩
  intro hlast r hr hrstop
  -- nothing comes behind the cell before the start
  have hafter : after = [] := by
    rw [hsplit] at hcycle
    have hrest := (leads_append_cons.mp hcycle).2
    rw [hlast] at hrest
    cases after with
    | nil => rfl
    | cons w ws =>
      have hwx : x = w := hrest.1
      have hdistinct := hperm.nodup_iff.mpr hnodup
      rw [hsplit, ← hwx] at hdistinct
      have hhead : (before ++ q :: x :: ws).head? = some x := by
        rw [hwx, ← hsplit, ← hwx]
        rfl
      cases before with
      | nil =>
        have hqx : q = x := by simpa using hhead
        rw [hqx] at hdistinct
        simp at hdistinct
      | cons b bs =>
        have hbx : b = x := by simpa using hhead
        rw [hbx] at hdistinct
        simp at hdistinct
  have hmem := hperm.mem_iff.mpr hr
  rw [hsplit, hafter] at hmem
  rcases List.mem_append.mp hmem with hmem | hmem
  · rw [hbefore r hmem] at hrstop
    cases hrstop
  · exact List.mem_singleton.mp hmem

end Paths

end Foundations
