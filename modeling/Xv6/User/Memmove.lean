import Mathlib

/-!
# User library - `memmove`

The two functions of this name, in `string.c` for the kernel and in `ulib.c` for user
programs, on a memory of bytes.  A range of bytes that does not wrap is a range of numbers.

The kernel copies downwards when the destination starts inside the source; the library
always copies upwards, and then reads bytes that it has written before.  With the
destination `k` bytes after the source, it repeats the first `k` bytes.

Main results:

- Theorem {lit}`memmove_moved`: the kernel's function is safe for all ranges.
- Theorem {lit}`copyUp_repeats`: what an upward copy stores when the ranges overlap.
- Theorem {lit}`memmove_agree_iff`: when both functions are right.
-/

namespace Xv6.User

/-- The bytes of a memory. -/
abbrev Memory := Nat → UInt8

/-! ## The functions -/

/-- `while(n-- > 0) *d++ = *s++;`. -/
def copyUp : Nat → Nat → Nat → Memory → Memory
  | 0, _, _, mem => mem
  | n + 1, d, s, mem => copyUp n (d + 1) (s + 1) (Function.update mem d (mem s))

/-- `while(n-- > 0) *--d = *--s;`. -/
def copyDown : Nat → Nat → Nat → Memory → Memory
  | 0, _, _, mem => mem
  | n + 1, d, s, mem => copyDown n (d - 1) (s - 1) (Function.update mem (d - 1) (mem (s - 1)))

/-- `memmove` of `string.c`. -/
def memmove (dst src n : Nat) (mem : Memory) : Memory :=
  if src < dst ∧ src + n > dst then copyDown n (dst + n) (src + n) mem
  else copyUp n dst src mem

/-- `memmove` of `ulib.c`. -/
def Ulib.memmove (dst src n : Nat) (mem : Memory) : Memory :=
  copyUp n dst src mem

/-! ## What they are for -/

/-- The `n` bytes from `src` on were moved to `dst`, and no other byte changed. -/
structure Moved (mem mem' : Memory) (dst src n : Nat) : Prop where
  moved : ∀ i < n, mem' (dst + i) = mem (src + i)
  kept : ∀ a, a < dst ∨ dst + n ≤ a → mem' a = mem a

section Copy

variable {mem : Memory} {d s n : Nat}

/-- Only the destination is written. -/
theorem copyUp_outside {a : Nat} (ha : a < d ∨ d + n ≤ a) : copyUp n d s mem a = mem a := by
  induction n generalizing d s mem with
  | zero => rfl
  | succ n ih =>
    rw [copyUp, ih (by omega), Function.update_of_ne (by omega)]

/-- An upward copy is right when it reads no byte that it has written. -/
theorem copyUp_moved (h : d ≤ s ∨ s + n ≤ d) : Moved mem (copyUp n d s mem) d s n := by
  refine ⟨?_, fun a => copyUp_outside⟩
  induction n generalizing d s mem with
  | zero =>
    intro i hi
    omega
  | succ n ih =>
    intro i hi
    rw [copyUp]
    cases i with
    | zero =>
      rw [copyUp_outside (by omega)]
      exact Function.update_self ..
    | succ i =>
      rw [show d + (i + 1) = d + 1 + i by omega, ih (by omega) i (by omega),
        Function.update_of_ne (by omega)]
      congr 1
      omega

/-- Upwards from below, each byte ends as a copy of what its source ends as. -/
theorem copyUp_repeats (h : s < d) {i : Nat} (hi : i < n) :
    copyUp n d s mem (d + i) = copyUp n d s mem (s + i) := by
  induction n generalizing d s mem i with
  | zero => omega
  | succ n ih =>
    rw [copyUp]
    cases i with
    | zero =>
      rw [copyUp_outside (by omega), copyUp_outside (by omega),
        Function.update_of_ne (show s + 0 ≠ d by omega)]
      exact Function.update_self ..
    | succ i =>
      rw [show d + (i + 1) = d + 1 + i by omega, show s + (i + 1) = s + 1 + i by omega]
      exact ih (by omega) (by omega)

/-- A downward copy is right when the destination does not start below the source. -/
theorem copyDown_moved (h : s ≤ d) : Moved mem (copyDown n (d + n) (s + n) mem) d s n := by
  induction n generalizing mem with
  | zero =>
    refine ⟨?_, fun a _ => rfl⟩
    intro i hi
    omega
  | succ n ih =>
    rw [copyDown, ← Nat.add_assoc, ← Nat.add_assoc, Nat.add_sub_cancel, Nat.add_sub_cancel]
    have hrest : Moved (Function.update mem (d + n) (mem (s + n))) _ d s n := ih
    constructor
    · intro i hi
      by_cases hlast : i = n
      · subst hlast
        rw [hrest.kept (d + i) (by omega), Function.update_self]
      · rw [hrest.moved i (by omega), Function.update_of_ne (by omega)]
    · intro a ha
      rw [hrest.kept a (by omega), Function.update_of_ne (by omega)]

end Copy

/-- The kernel's function moves its bytes, whether the ranges overlap or not. -/
theorem memmove_moved (mem : Memory) (dst src n : Nat) :
    Moved mem (memmove dst src n mem) dst src n := by
  unfold memmove
  by_cases hover : src < dst ∧ src + n > dst
  · rw [if_pos hover]
    exact copyDown_moved (by omega)
  · rw [if_neg hover]
    exact copyUp_moved (by omega)

/-- The library's function, with the destination inside the source: the bytes moved must
repeat with the distance. -/
theorem ulib_moved_iff {mem : Memory} {dst src n : Nat} (h : src < dst) :
    Moved mem (Ulib.memmove dst src n mem) dst src n ↔
      ∀ i, i + (dst - src) < n → mem (src + i + (dst - src)) = mem (src + i) := by
  have hback : ∀ i, src + i + (dst - src) = dst + i := by
    intro i
    omega
  unfold Ulib.memmove
  constructor
  · intro hmoved i hi
    have hlate := hmoved.moved _ hi
    have hearly := hmoved.moved i (by omega)
    rw [copyUp_repeats h hi, ← Nat.add_assoc, hback, hearly] at hlate
    rw [hback, hlate]
  · intro hperiod
    refine ⟨?_, fun a => copyUp_outside⟩
    intro i
    -- a byte is a copy of the byte one distance before, down to the first ones
    induction i using Nat.strong_induction_on with
    | _ i ih =>
      intro hi
      rw [copyUp_repeats h hi]
      by_cases hfirst : i < dst - src
      · exact copyUp_outside (by omega)
      · obtain ⟨j, rfl⟩ := Nat.exists_eq_add_of_le' (Nat.le_of_not_lt hfirst)
        rw [← Nat.add_assoc, hback, ih j (by omega) (by omega), ← hperiod j hi, hback]

/-- Both functions move their bytes exactly if the destination does not start inside the
source, or the bytes repeat with the distance. -/
theorem memmove_agree_iff (mem : Memory) (dst src n : Nat) :
    (Moved mem (memmove dst src n mem) dst src n ∧
        Moved mem (Ulib.memmove dst src n mem) dst src n) ↔
      dst ≤ src ∨ src + n ≤ dst ∨
        ∀ i, i + (dst - src) < n → mem (src + i + (dst - src)) = mem (src + i) := by
  rw [and_iff_right (memmove_moved mem dst src n)]
  by_cases hbelow : src < dst
  · rw [ulib_moved_iff hbelow, or_iff_right (Nat.not_le_of_lt hbelow)]
    constructor
    · exact Or.inr
    · rintro (hapart | hperiod)
      · intro i hi
        omega
      · exact hperiod
  · constructor
    · intro _
      exact Or.inl (by omega)
    · intro _
      exact copyUp_moved (by omega)

/-- Three bytes 0, 1, 2 moved up by one become 0, 0, 0. -/
theorem ulib_memmove_overlap :
    ¬Moved (fun a => UInt8.ofNat a) (Ulib.memmove 1 0 2 fun a => UInt8.ofNat a) 1 0 2 := by
  intro hmoved
  have hbyte := hmoved.moved 1 (by decide)
  revert hbyte
  decide

end Xv6.User
