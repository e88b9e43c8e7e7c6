import Mathlib

/-!
# Foundations - Ring buffers with wrapping counters

A ring buffer of `N` slots is addressed by 32-bit counters that are never reduced: the
slot of a counter is its remainder by `N`.  As long as `N` divides `2^32` this is sound
also when the counters wrap.  {lit}`Window` says that the entries from one counter to
another are a given list.

Main results:

- Theorem {lit}`Window.push`: an entry is added at the end.
- Theorem {lit}`Window.pop`: the first entry is taken.
- Theorem {lit}`Window.sub`: the difference of the counters is the number of entries.
- Theorem {lit}`Window.unpush`: the last entry is given up.
-/

namespace Foundations

/-- Slot of a counter. -/
def ringSlot (N : Nat) [NeZero N] (c : UInt32) : Fin N :=
  Fin.ofNat N c.toNat

/-- The buffer holds the entries `xs`, from counter `r` to counter `w`. -/
structure Window {N : Nat} [NeZero N] {β : Type} (buf : Fin N → β) (r w : UInt32)
    (xs : List β) : Prop where
  stop : w = r + UInt32.ofNat xs.length
  fits : xs.length ≤ N
  entries : ∀ k x, xs[k]? = some x → buf (ringSlot N (r + UInt32.ofNat k)) = x

section Ring

variable {N : Nat} [NeZero N] {β : Type} {buf : Fin N → β} {r w : UInt32} {xs : List β}
  {x : β}

theorem ringSlot_add (hN : N ∣ 2 ^ 32) (r : UInt32) (k : Nat) :
    (ringSlot N (r + UInt32.ofNat k)).val = (r.toNat + k) % N := by
  have hslot : (ringSlot N (r + UInt32.ofNat k)).val = (r + UInt32.ofNat k).toNat % N := rfl
  rw [hslot, UInt32.toNat_add, UInt32.toNat_ofNat', Nat.add_mod_mod, Nat.mod_mod_of_dvd _ hN]

/-- Counters that are fewer than `N` apart have different slots. -/
theorem ringSlot_ne (hN : N ∣ 2 ^ 32) {k l : Nat} (hk : k < N) (hl : l < N) (hkl : k ≠ l) :
    ringSlot N (r + UInt32.ofNat k) ≠ ringSlot N (r + UInt32.ofNat l) := by
  intro hbad
  have hval := congrArg Fin.val hbad
  rw [ringSlot_add hN, ringSlot_add hN] at hval
  have hmod : k ≡ l [MOD N] := Nat.ModEq.add_left_cancel' r.toNat hval
  exact hkl (Nat.ModEq.eq_of_lt_of_lt hmod hk hl)

theorem ofNat_succ_add (r : UInt32) (k : Nat) :
    r + UInt32.ofNat (k + 1) = r + 1 + UInt32.ofNat k := by
  rw [UInt32.ofNat_add, UInt32.add_comm (UInt32.ofNat k), ← UInt32.add_assoc]
  rfl

theorem add_ofNat_zero (r : UInt32) : r + UInt32.ofNat 0 = r := by
  have hzero : UInt32.ofNat 0 = 0 := rfl
  rw [hzero, UInt32.add_zero]

namespace Window

/-- An empty window. -/
theorem empty (buf : Fin N → β) (r : UInt32) : Window buf r r [] := by
  constructor
  · simp
  · exact Nat.zero_le N
  · intro k x hx
    simp at hx

/-- The difference of the counters is the number of entries. -/
theorem sub (hlt : N < 2 ^ 32) (h : Window buf r w xs) : (w - r).toNat = xs.length := by
  have hdiff : w - r = UInt32.ofNat xs.length := by
    rw [h.stop, UInt32.add_comm, UInt32.add_sub_cancel]
  have hfits := h.fits
  rw [hdiff, UInt32.toNat_ofNat', Nat.mod_eq_of_lt (by omega)]

/-- Two lists with the same counters are equally long. -/
theorem stop_eq_iff (hlt : N < 2 ^ 32) (h : Window buf r w xs) {n : Nat} (hn : n ≤ N) :
    w = r + UInt32.ofNat n ↔ xs.length = n := by
  constructor
  · intro heq
    have hsub := h.sub hlt
    rw [heq, UInt32.add_comm, UInt32.add_sub_cancel, UInt32.toNat_ofNat',
      Nat.mod_eq_of_lt (by omega)] at hsub
    exact hsub.symm
  · intro heq
    rw [h.stop, heq]

theorem stop_eq_start_iff (hlt : N < 2 ^ 32) (h : Window buf r w xs) : w = r ↔ xs = [] := by
  have hiff := h.stop_eq_iff hlt (Nat.zero_le N)
  rw [add_ofNat_zero] at hiff
  rw [hiff, List.length_eq_zero_iff]

/-- An entry is added at the end. -/
theorem push (hN : N ∣ 2 ^ 32) (h : Window buf r w xs) (hroom : xs.length < N) (x : β) :
    Window (Function.update buf (ringSlot N w) x) r (w + 1) (xs ++ [x]) := by
  have hstop := h.stop
  constructor
  · rw [List.length_append, List.length_singleton, ofNat_succ_add, hstop, UInt32.add_assoc,
      UInt32.add_assoc, UInt32.add_comm 1]
  · simpa using hroom
  · intro k y hk
    by_cases hlast : k = xs.length
    · subst hlast
      have hy : x = y := by simpa using hk
      rw [← hstop, Function.update_self, hy]
    · have hlt : k < xs.length := by
        have hbound := (List.getElem?_eq_some_iff.mp hk).1
        simp only [List.length_append, List.length_singleton] at hbound
        omega
      have hne : ringSlot N (r + UInt32.ofNat k) ≠ ringSlot N w := by
        rw [hstop]
        exact ringSlot_ne hN (by omega) hroom (by omega)
      rw [Function.update_of_ne hne]
      apply h.entries
      rwa [List.getElem?_append_left hlt] at hk

/-- The first entry is in the slot of the first counter. -/
theorem head (h : Window buf r w (x :: xs)) : buf (ringSlot N r) = x := by
  have hentry := h.entries 0 x rfl
  rwa [add_ofNat_zero] at hentry

/-- The first entry is taken. -/
theorem pop (h : Window buf r w (x :: xs)) : Window buf (r + 1) w xs := by
  constructor
  · rw [h.stop, List.length_cons, ofNat_succ_add]
  · have hfits := h.fits
    simp only [List.length_cons] at hfits
    omega
  · intro k y hk
    rw [← ofNat_succ_add]
    exact h.entries (k + 1) y (by simpa using hk)

/-- The last entry is given up. -/
theorem unpush (h : Window buf r w (xs ++ [x])) : Window buf r (w - 1) xs := by
  have hfits := h.fits
  simp only [List.length_append, List.length_singleton] at hfits
  constructor
  · have hw : w = r + UInt32.ofNat xs.length + 1 := by
      rw [h.stop, List.length_append, List.length_singleton, ofNat_succ_add, UInt32.add_assoc,
        UInt32.add_assoc, UInt32.add_comm 1]
    rw [hw, UInt32.add_sub_cancel]
  · omega
  · intro k y hk
    have hlt := (List.getElem?_eq_some_iff.mp hk).1
    apply h.entries
    rwa [List.getElem?_append_left hlt]

end Window

end Ring

end Foundations
