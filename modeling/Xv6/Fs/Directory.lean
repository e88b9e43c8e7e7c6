import Xv6.Fs.Entries

/-!
# File system - Searching a list of entries

A directory is a list of entries.  {lit}`lookup` is the search for a name and {lit}`emptyFrom` the
search for a free entry; the code that reads the entries one by one is compared with them.

Main results:

- Theorem {lit}`lookup_some`: an entry that is found is in use and has the name.
- Theorem {lit}`skipelem_length`: the path gets shorter with each element.
-/

namespace Xv6.Fs

open Foundations

/-- The first entry with a name, from index `j` on: its index and inode number. -/
def lookupFrom (name : List UInt8) : Nat → List Dirent → Option (Nat × Nat)
  | _, [] => none
  | j, de :: es =>
    if de.inum ≠ 0 ∧ namecmp name de.bytes = 0 then some (j, de.inum.toNat)
    else lookupFrom name (j + 1) es

/-- The first entry with a name. -/
def lookup (es : List Dirent) (name : List UInt8) : Option (Nat × Nat) :=
  lookupFrom name 0 es

/-- The index of the first free entry from index `j` on, or of the end. -/
def emptyFrom : Nat → List Dirent → Nat
  | j, [] => j
  | j, de :: es => if de.inum = 0 then j else emptyFrom (j + 1) es

theorem lookupFrom_some {name : List UInt8} {es : List Dirent} {j m i : Nat}
    (h : lookupFrom name j es = some (m, i)) :
    ∃ (hm : m - j < es.length), j ≤ m ∧ es[m - j].inum ≠ 0 ∧ es[m - j].inum.toNat = i ∧
      namecmp name es[m - j].bytes = 0 := by
  induction es generalizing j with
  | nil => exact absurd h (by simp [lookupFrom])
  | cons de es ih =>
    unfold lookupFrom at h
    split at h
    · rename_i hmatch
      rw [Option.some.injEq, Prod.mk.injEq] at h
      rcases h with ⟨rfl, rfl⟩
      exact ⟨by simp, le_refl _, by simpa using hmatch.1, by simp, by simpa using hmatch.2⟩
    · rcases ih h with ⟨hm, hle, hne, hi, hname⟩
      have hsub : m - j = m - (j + 1) + 1 := by omega
      refine ⟨by rw [List.length_cons]; omega, by omega, ?_⟩
      simp only [hsub, List.getElem_cons_succ]
      exact ⟨hne, hi, hname⟩

/-- A found entry is in use and has the name. -/
theorem lookup_some {name : List UInt8} {es : List Dirent} {m i : Nat}
    (h : lookup es name = some (m, i)) :
    ∃ (hm : m < es.length), es[m].inum ≠ 0 ∧ es[m].inum.toNat = i ∧
      namecmp name es[m].bytes = 0 := by
  rcases lookupFrom_some h with ⟨hm, _, hrest⟩
  exact ⟨hm, hrest⟩

theorem skipelem_length {path rest : Path} {name : List UInt8}
    (h : skipelem path = some (rest, name)) : rest.length < path.length := by
  have hle := (List.dropWhile_sublist (l := path) fun c => c = slash).length_le
  unfold skipelem at h
  simp only at h
  split at h
  · exact absurd h (by simp)
  · rename_i x xs hpath
    rw [Option.some.injEq, Prod.mk.injEq] at h
    have hx : ¬(decide (x = slash) = true) := by
      have hhead := List.head_dropWhile_not (fun c => decide (c = slash)) (l := path)
        (by rw [hpath]; simp)
      simpa [hpath] using hhead
    have helem : 1 ≤ ((x :: xs).takeWhile fun c => decide (c ≠ slash)).length := by
      rw [List.takeWhile_cons_of_pos (by simpa using hx)]
      simp
    have hdrop := (List.dropWhile_sublist (l := (path.dropWhile fun c => c = slash).drop
      ((path.dropWhile fun c => c = slash).takeWhile fun c => decide (c ≠ slash)).length)
      fun c => decide (c = slash)).length_le
    rw [h.1, List.length_drop, hpath] at hdrop
    rw [hpath] at hle
    simp only [List.length_cons] at hdrop hle
    omega

theorem toNat_add_sixteen {off : UInt32} {j : Nat} (hoff : off.toNat = 16 * j)
    (hlt : j < 10000) : (off + 16).toNat = 16 * (j + 1) := by
  have h16 : (16 : UInt32).toNat = 16 := rfl
  rw [UInt32.toNat_add, hoff, h16]
  omega

end Xv6.Fs
