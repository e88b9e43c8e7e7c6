import Mathlib

/-!
# Foundations - Ownership of numbered resources

Places point to numbered resources; a place that holds 0 points to nothing.  A
map marks the resources in use.  {lit}`Owned` says that the map is exact: a
number is marked if it is reserved or some place points to it, and no two places
point to the same number.  Whoever takes an unmarked number, marks it and stores
it in an empty place keeps this.

Main results:

- Theorem {lit}`Owned.store`: taking a resource.
-/

namespace Foundations

/-- The map `used` is exact for the places `ptr`, which point into `[lo, hi)`;
numbers below `lo` are reserved. -/
structure Owned {π : Type} (lo hi : Nat) (used : Nat → Bool) (ptr : π → Nat) : Prop where
  inj : ∀ p q, ptr p ≠ 0 → ptr p = ptr q → p = q
  range : ∀ p, ptr p ≠ 0 → lo ≤ ptr p ∧ ptr p < hi
  used_iff : ∀ b, b < hi → (used b = true ↔ b < lo ∨ ∃ p, ptr p ≠ 0 ∧ ptr p = b)

namespace Owned

variable {π : Type} {lo hi : Nat} {used used' : Nat → Bool} {ptr ptr' : π → Nat}

/-- A pointer points to a marked number. -/
theorem used_ptr (h : Owned lo hi used ptr) {p : π} (hp : ptr p ≠ 0) :
    used (ptr p) = true :=
  (h.used_iff _ (h.range p hp).2).mpr (Or.inr ⟨p, hp, rfl⟩)

/-- An unmarked number is not reserved. -/
theorem le_of_unused (h : Owned lo hi used ptr) {b : Nat} (hb : used b = false)
    (hlt : b < hi) : lo ≤ b := by
  by_contra hlow
  have hused := (h.used_iff b hlt).mpr (Or.inl (by omega))
  rw [hused] at hb
  exact Bool.noConfusion hb

/-- Nobody points to an unmarked number. -/
theorem ptr_ne_of_unused (h : Owned lo hi used ptr) {b : Nat} (hb : used b = false)
    {p : π} (hp : ptr p ≠ 0) : ptr p ≠ b := by
  intro hpb
  have hused := h.used_ptr hp
  rw [hpb, hb] at hused
  exact Bool.noConfusion hused

/-- Different places point to different numbers. -/
theorem ptr_ne (h : Owned lo hi used ptr) {p q : π} (hp : ptr p ≠ 0) (hpq : p ≠ q) :
    ptr p ≠ ptr q :=
  fun heq => hpq (h.inj p q hp heq)

/-- Only the marks below `hi` and the values of the pointers matter. -/
theorem congr (h : Owned lo hi used ptr) (hused : ∀ b, b < hi → used' b = used b)
    (hptr : ∀ p, ptr' p = ptr p) : Owned lo hi used' ptr' := by
  rw [funext hptr]
  refine ⟨h.inj, h.range, ?_⟩
  intro b hb
  rw [hused b hb]
  exact h.used_iff b hb

variable [DecidableEq π]

/-- Take an unmarked number and store it in an empty place. -/
theorem store (h : Owned lo hi used ptr) {p : π} {b : Nat} (hlo : 0 < lo)
    (hb : used b = false) (hlt : b < hi) (hp : ptr p = 0)
    (hused : ∀ c, c < hi → used' c = (decide (b = c) || used c)) :
    Owned lo hi used' (Function.update ptr p b) := by
  have hle := h.le_of_unused hb hlt
  constructor
  · intro q r hq hqr
    by_cases hqp : q = p <;> by_cases hrp : r = p
    · rw [hqp, hrp]
    · subst hqp
      rw [Function.update_self, Function.update_of_ne hrp] at hqr
      exact absurd hqr.symm (h.ptr_ne_of_unused hb (by omega))
    · subst hrp
      rw [Function.update_self, Function.update_of_ne hqp] at hqr
      exact absurd hqr (h.ptr_ne_of_unused hb (by omega))
    · rw [Function.update_of_ne hqp] at hq hqr
      rw [Function.update_of_ne hrp] at hqr
      exact h.inj q r hq hqr
  · intro q hq
    by_cases hqp : q = p
    · subst hqp
      rw [Function.update_self]
      exact ⟨hle, hlt⟩
    · rw [Function.update_of_ne hqp] at hq ⊢
      exact h.range q hq
  · intro c hc
    rw [hused c hc, Bool.or_eq_true, decide_eq_true_eq, h.used_iff c hc]
    constructor
    · rintro (rfl | hlow | ⟨q, hq, hqc⟩)
      · exact Or.inr ⟨p, by rw [Function.update_self]; omega, Function.update_self ..⟩
      · exact Or.inl hlow
      · have hqp : q ≠ p := by
          rintro rfl
          exact hq hp
        refine Or.inr ⟨q, ?_, ?_⟩
        · rwa [Function.update_of_ne hqp]
        · rwa [Function.update_of_ne hqp]
    · rintro (hlow | ⟨q, hq, hqc⟩)
      · exact Or.inr (Or.inl hlow)
      · by_cases hqp : q = p
        · subst hqp
          rw [Function.update_self] at hqc
          exact Or.inl hqc
        · rw [Function.update_of_ne hqp] at hq hqc
          exact Or.inr (Or.inr ⟨q, hq, hqc⟩)

end Owned

end Foundations
