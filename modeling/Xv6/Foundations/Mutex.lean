import Mathlib

/-!
# Foundations - Locks and counters over program points

Threads are given by a map from thread names to program points.  A lock is
described by the set of program points that lie between its `acquire` and its
`release`; the holder recorded in the lock is then the one thread in that set.
A counter that is incremented on entry to a region and decremented on exit
counts the threads inside.  A thread that sleeps does so for a reason, or some
thread is about to wake it.  The lemmas say what moving one thread to another
program point does to each.

Main results:

- Theorem {lit}`Owns.unique`: two threads never hold the same lock.
- Theorem {lit}`Owns.acquire`, {lit}`Owns.release`, {lit}`Owns.keep`: the three
  ways a step can affect a lock.
- Theorem {lit}`Counts.enter`, {lit}`Counts.leave`, {lit}`Counts.keep`: the same
  for a counter.
- Theorem {lit}`Attended.move`: nobody sleeps without a reason or a waker.
-/

namespace Foundations

variable {ι κ : Type} [DecidableEq ι]

/-! ## Locks -/

/-- The lock is held by `p` exactly when `p` is at a point of the critical
section. -/
def Owns (crit : κ → Bool) (pc : ι → κ) (holder : Option ι) : Prop :=
  ∀ p, crit (pc p) = true ↔ holder = some p

section Owns

variable {crit : κ → Bool} {pc : ι → κ} {holder : Option ι} {p q : ι} {k : κ}

omit [DecidableEq ι] in
theorem Owns.unique (h : Owns crit pc holder) (hp : crit (pc p) = true)
    (hq : crit (pc q) = true) : p = q := by
  have hholder := (h p).mp hp
  rw [(h q).mp hq] at hholder
  exact (Option.some.inj hholder).symm

omit [DecidableEq ι] in
/-- Nobody is in the critical section of a free lock. -/
theorem Owns.free (h : Owns crit pc none) (p : ι) : crit (pc p) = false := by
  have hp := h p
  simpa using hp

/-- Taking a free lock. -/
theorem Owns.acquire (h : Owns crit pc none) (hk : crit k = true) :
    Owns crit (Function.update pc p k) (some p) := by
  intro q
  by_cases hq : q = p
  · simp [hq, hk]
  · simp [Function.update_of_ne hq, h.free q, Ne.symm hq]

/-- Giving the lock back. -/
theorem Owns.release (h : Owns crit pc holder) (hp : crit (pc p) = true)
    (hk : crit k = false) : Owns crit (Function.update pc p k) none := by
  intro q
  by_cases hq : q = p
  · simp [hq, hk]
  · have hout : crit (pc q) ≠ true := fun hcrit => hq (h.unique hcrit hp)
    simp [Function.update_of_ne hq, hout]

/-- A move that stays inside or stays outside. -/
theorem Owns.keep (h : Owns crit pc holder) (hk : crit k = crit (pc p)) :
    Owns crit (Function.update pc p k) holder := by
  intro q
  by_cases hq : q = p
  · subst hq
    rw [Function.update_self, hk]
    exact h q
  · rw [Function.update_of_ne hq]
    exact h q

omit [DecidableEq ι] in
/-- A change of every thread's point that respects the critical section. -/
theorem Owns.map (h : Owns crit pc holder) {f : κ → κ} (hf : ∀ k, crit (f k) = crit k) :
    Owns crit (fun q => f (pc q)) holder := by
  intro q
  rw [hf]
  exact h q

end Owns

/-! ## Counters -/

/-- `n` is the number of threads at a point of the region. -/
def Counts (inside : κ → Bool) (pc : ι → κ) (n : Int) : Prop :=
  ∃ A : Finset ι, (∀ p, p ∈ A ↔ inside (pc p) = true) ∧ n = A.card

section Counts

variable {inside : κ → Bool} {pc : ι → κ} {n : Int} {p : ι} {k : κ}

/-- One more thread in the region. -/
theorem Counts.enter (h : Counts inside pc n) (hp : inside (pc p) = false)
    (hk : inside k = true) : Counts inside (Function.update pc p k) (n + 1) := by
  rcases h with ⟨A, hA, hn⟩
  have hpA : p ∉ A := by simp [hA, hp]
  refine ⟨insert p A, ?_, by simp [hpA, hn]⟩
  intro q
  by_cases hq : q = p
  · simp [hq, hk]
  · simp [hq, hA]

/-- One thread less in the region. -/
theorem Counts.leave (h : Counts inside pc n) (hp : inside (pc p) = true)
    (hk : inside k = false) : Counts inside (Function.update pc p k) (n - 1) := by
  rcases h with ⟨A, hA, hn⟩
  have hpA : p ∈ A := (hA p).mpr hp
  refine ⟨A.erase p, ?_, ?_⟩
  · intro q
    by_cases hq : q = p
    · simp [hq, hk]
    · simp [hq, hA]
  · have hpos := Finset.card_pos.mpr ⟨p, hpA⟩
    rw [Finset.card_erase_of_mem hpA]
    omega

/-- A move that stays inside or stays outside. -/
theorem Counts.keep (h : Counts inside pc n) (hk : inside k = inside (pc p)) :
    Counts inside (Function.update pc p k) n := by
  rcases h with ⟨A, hA, hn⟩
  refine ⟨A, ?_, hn⟩
  intro q
  by_cases hq : q = p
  · subst hq
    rw [Function.update_self, hk]
    exact hA q
  · rw [Function.update_of_ne hq]
    exact hA q

omit [DecidableEq ι] in
theorem Counts.map (h : Counts inside pc n) {f : κ → κ} (hf : ∀ k, inside (f k) = inside k) :
    Counts inside (fun q => f (pc q)) n := by
  rcases h with ⟨A, hA, hn⟩
  refine ⟨A, ?_, hn⟩
  intro q
  rw [hf]
  exact hA q

omit [DecidableEq ι] in
theorem Counts.pos (h : Counts inside pc n) (hp : inside (pc p) = true) : 0 < n := by
  rcases h with ⟨A, hA, hn⟩
  have hcard := Finset.card_pos.mpr ⟨p, (hA p).mpr hp⟩
  omega

omit [DecidableEq ι] in
theorem Counts.empty (h : Counts inside pc 0) (p : ι) : inside (pc p) = false := by
  cases hp : inside (pc p) with
  | false => rfl
  | true => exact absurd (h.pos hp) (by omega)

end Counts

/-! ## Sleepers -/

/-- Whoever sleeps has a reason to, or somebody is about to wake the sleepers. -/
def Attended (sleeps wakes : κ → Bool) (pc : ι → κ) (reason : Prop) : Prop :=
  ∀ p, sleeps (pc p) = true → reason ∨ ∃ q, wakes (pc q) = true

section Attended

variable {sleeps wakes : κ → Bool} {pc : ι → κ} {R R' : Prop} {p : ι} {k : κ}

/-- A thread falls asleep only for a reason, the reason ends only with a waker,
and a waker leaves only when nobody sleeps. -/
theorem Attended.move (h : Attended sleeps wakes pc R)
    (hsleep : sleeps k = true → sleeps (pc p) = true ∨ R')
    (hreason : R → R' ∨ wakes k = true)
    (hwakes : wakes (pc p) = true → wakes k = true ∨ ∀ q, sleeps (pc q) = false) :
    Attended sleeps wakes (Function.update pc p k) R' := by
  intro q hq
  have hold : sleeps (pc q) = true ∨ R' := by
    by_cases hqp : q = p
    · rw [hqp, Function.update_self] at hq
      rw [hqp]
      exact hsleep hq
    · rw [Function.update_of_ne hqp] at hq
      exact Or.inl hq
  have hself : wakes k = true → ∃ r, wakes (Function.update pc p k r) = true := by
    intro hk
    exact ⟨p, by rwa [Function.update_self]⟩
  rcases hold with hslept | hR
  · rcases h q hslept with hR | ⟨r, hr⟩
    · exact (hreason hR).imp id hself
    · by_cases hrp : r = p
      · rw [hrp] at hr
        rcases hwakes hr with hk | hnone
        · exact Or.inr (hself hk)
        · rw [hnone q] at hslept
          cases hslept
      · exact Or.inr ⟨r, by rwa [Function.update_of_ne hrp]⟩
  · exact Or.inl hR

end Attended

end Foundations
