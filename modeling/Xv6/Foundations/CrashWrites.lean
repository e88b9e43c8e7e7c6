import Mathlib

/-!
# Foundations - Write sequences cut by a crash

A store maps keys to contents and is changed by atomic writes issued in order.
A crash keeps some prefix of the sequence.  The lemmas here are what a crash
argument uses: how a prefix of a concatenation splits, which keys a sequence
leaves alone, and that a property kept by every single write holds after every
prefix.

Main results:

- Theorem {lit}`applyWrites_take_append`: a prefix of two sequences is a prefix
  of the first followed by a prefix of the second.
- Theorem {lit}`applyWrites_take_invariant`: invariants survive every cut.
- Theorem {lit}`applyWrites_of_mem`: a key written with one value only holds it.
-/

namespace Foundations

variable {κ β : Type} [DecidableEq κ]

/-- Carry out the writes in order, oldest first. -/
def applyWrites (d : κ → β) : List (κ × β) → κ → β
  | [] => d
  | (k, v) :: ws => applyWrites (Function.update d k v) ws

@[simp]
theorem applyWrites_nil (d : κ → β) : applyWrites d [] = d :=
  rfl

theorem applyWrites_append (d : κ → β) (xs ys : List (κ × β)) :
    applyWrites d (xs ++ ys) = applyWrites (applyWrites d xs) ys := by
  induction xs generalizing d with
  | nil => rfl
  | cons w xs ih =>
    obtain ⟨k, v⟩ := w
    exact ih _

/-- A prefix of a concatenation splits at the length of the first part. -/
theorem applyWrites_take_append (d : κ → β) (xs ys : List (κ × β)) (k : Nat) :
    applyWrites d ((xs ++ ys).take k) =
      applyWrites (applyWrites d (xs.take k)) (ys.take (k - xs.length)) := by
  rw [List.take_append, applyWrites_append]

/-- Keys that no write mentions keep their contents. -/
theorem applyWrites_of_not_mem {d : κ → β} {ws : List (κ × β)} {b : κ}
    (h : ∀ w ∈ ws, w.1 ≠ b) : applyWrites d ws b = d b := by
  induction ws generalizing d with
  | nil => rfl
  | cons w ws ih =>
    obtain ⟨k, v⟩ := w
    have hkb : b ≠ k := fun heq => h (k, v) (by simp) heq.symm
    have hrest : applyWrites (Function.update d k v) ws b =
        Function.update d k v b :=
      ih fun w hw => h w (by simp [hw])
    simpa [applyWrites, hkb] using hrest

/-- A key that is written, each time with the same value, holds that value. -/
theorem applyWrites_of_mem {d : κ → β} {ws : List (κ × β)} {b : κ} {v : β}
    (hmem : (b, v) ∈ ws) (hsame : ∀ w ∈ ws, w.1 = b → w.2 = v) :
    applyWrites d ws b = v := by
  induction ws generalizing d with
  | nil => simp at hmem
  | cons w ws ih =>
    obtain ⟨k, x⟩ := w
    have hrestSame : ∀ w ∈ ws, w.1 = b → w.2 = v := fun w hw => hsame w (by simp [hw])
    by_cases hlater : ∃ w ∈ ws, w.1 = b
    · obtain ⟨w, hw, hwb⟩ := hlater
      have hpair : (b, v) ∈ ws := by
        have hval := hrestSame w hw hwb
        rw [← hwb, ← hval]
        exact hw
      exact ih hpair hrestSame
    · push Not at hlater
      -- the last write to `b` is the head of the list
      have hhead : (b, v) = (k, x) := by
        rcases List.mem_cons.mp hmem with heq | hmem
        · exact heq
        · exact absurd rfl (hlater (b, v) hmem)
      obtain ⟨rfl, rfl⟩ := Prod.mk.inj hhead
      have hkeep := applyWrites_of_not_mem (d := Function.update d b v) hlater
      simpa [applyWrites] using hkeep

/-- A property kept by each write of the sequence holds after every prefix. -/
theorem applyWrites_take_invariant {P : (κ → β) → Prop} {ws : List (κ × β)}
    (hstep : ∀ d, P d → ∀ w ∈ ws, P (Function.update d w.1 w.2))
    {d : κ → β} (hd : P d) (k : Nat) : P (applyWrites d (ws.take k)) := by
  induction ws generalizing d k with
  | nil => simpa using hd
  | cons w ws ih =>
    cases k with
    | zero => simpa using hd
    | succ k =>
      have hnext : P (Function.update d w.1 w.2) := hstep d hd w (by simp)
      exact ih (fun d hd w hw => hstep d hd w (by simp [hw])) hnext k

end Foundations
