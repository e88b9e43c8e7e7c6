import Xv6.Foundations.SlotTable
import Xv6.Fs.Calls
import Xv6.Fs.Contents

/-!
# File system - Directory entries and names

The contents of a directory as a list of entries, and what the byte operations of
the code do on this list.

Main results:

- Theorem {lit}`strncmp_eq_zero`: {lit}`strncmp` compares strings up to their
  terminating zero.
- Theorem {lit}`readData_entry`: reading 16 bytes at a multiple of 16.
- Theorem {lit}`entries_put`: writing an entry.
-/

namespace Xv6.Fs

open Foundations

/-! ## Names -/

theorem strncmp_eq_zero (n : Nat) (s t : List UInt8) :
    strncmp n s t = 0 ↔ cstr n s = cstr n t := by
  induction n generalizing s t with
  | zero => simp [strncmp, cstr]
  | succ n ih =>
    have hhead : ∀ u : List UInt8, cstr (n + 1) u =
        if u.headD 0 = 0 then [] else u.headD 0 :: cstr n u.tail := by
      intro u
      cases u with
      | nil => rfl
      | cons c u =>
        unfold cstr
        rw [List.take_succ_cons, List.takeWhile_cons]
        by_cases hc : c = 0
        · simp [hc]
        · simp [hc]
    unfold strncmp
    rw [hhead s, hhead t]
    by_cases hs : s.headD 0 = 0
    · rw [if_neg (fun h => h.1 hs), if_pos hs, hs]
      by_cases ht : t.headD 0 = 0
      · rw [ht, if_pos rfl]
        simp
      · have htn : (t.headD 0).toNat ≠ 0 := fun h => ht (UInt8.toNat_inj.mp h)
        rw [if_neg ht]
        simp only [UInt8.toNat_zero]
        constructor
        · intro h
          omega
        · intro h
          exact absurd h (by simp)
    · rw [if_neg hs]
      by_cases hst : s.headD 0 = t.headD 0
      · rw [if_pos ⟨hs, hst⟩, if_neg (hst ▸ hs), ih, hst]
        simp
      · have hne : (s.headD 0).toNat ≠ (t.headD 0).toNat := fun h => hst (UInt8.toNat_inj.mp h)
        rw [if_neg (fun h => hst h.2)]
        constructor
        · intro h
          omega
        · intro h
          split at h
          · exact absurd h (by simp)
          · exact absurd (List.cons.inj h).1 hst

theorem namecmp_eq_zero (s t : List UInt8) :
    namecmp s t = 0 ↔ cstr dirsiz s = cstr dirsiz t :=
  strncmp_eq_zero dirsiz s t

/-- The name of a directory entry. -/
def Dirent.label (de : Dirent) : List UInt8 :=
  cstr dirsiz de.bytes

theorem takeWhile_append_zeros (l : List UInt8) (m : Nat) (h : ∀ c ∈ l, c ≠ 0) :
    (l ++ List.replicate m 0).takeWhile (fun c => c ≠ 0) = l := by
  induction l with
  | nil => cases m <;> simp [List.replicate_succ]
  | cons c l ih =>
    have hc := h c (List.mem_cons_self ..)
    rw [List.cons_append, List.takeWhile_cons]
    simp only [ne_eq, hc, not_false_eq_true, decide_true, if_true]
    rw [ih fun a ha => h a (List.mem_cons_of_mem _ ha)]

theorem mem_cstr_ne_zero {n : Nat} {s : List UInt8} {c : UInt8} (h : c ∈ cstr n s) : c ≠ 0 := by
  have hall : ((s.take n).takeWhile fun c => c ≠ 0).all (fun c => c ≠ 0) = true :=
    List.all_takeWhile
  have hc := List.all_eq_true.mp hall c h
  simpa using hc

theorem cstr_length_le (n : Nat) (s : List UInt8) : (cstr n s).length ≤ n :=
  (List.takeWhile_sublist _).length_le.trans (List.length_take_le n s)

/-- A stored name reads back. -/
theorem label_strncpy (inum : UInt16) (name : List UInt8) :
    (Dirent.mk inum (strncpy name)).label = cstr dirsiz name := by
  have hlen := cstr_length_le dirsiz name
  have hbytes : (Dirent.mk inum (strncpy name)).bytes =
      cstr dirsiz name ++ List.replicate (14 - (cstr dirsiz name).length) 0 := by
    simp only [dirsiz_eq] at hlen
    apply List.ext_getElem
    · simp only [Dirent.bytes, List.length_ofFn, List.length_append, List.length_replicate,
        dirsiz_eq]
      omega
    · intro k hk hk'
      simp only [Dirent.bytes, List.getElem_ofFn, strncpy, List.getElem_append,
        List.getElem_replicate]
      split
      · rename_i hlt
        rw [List.getD_eq_getElem?_getD, List.getElem?_eq_getElem hlt, Option.getD_some]
      · rename_i hge
        rw [List.getD_eq_getElem?_getD, List.getElem?_eq_none (by omega), Option.getD_none]
  have htake : ((cstr dirsiz name) ++
      List.replicate (14 - (cstr dirsiz name).length) 0).take dirsiz =
        cstr dirsiz name ++ List.replicate (14 - (cstr dirsiz name).length) 0 := by
    apply List.take_of_length_le
    simp only [List.length_append, List.length_replicate, dirsiz_eq] at hlen ⊢
    omega
  rw [Dirent.label, hbytes, cstr, htake]
  exact takeWhile_append_zeros _ _ fun c hc => mem_cstr_ne_zero hc

/-! ## Entries -/

/-- The entries of a directory with contents `data`. -/
def entries (data : List UInt8) : List Dirent :=
  (List.range (data.length / 16)).map fun k =>
    direntLayout.decode ((data.drop (16 * k)).take 16)

@[simp]
theorem entries_length (data : List UInt8) : (entries data).length = data.length / 16 := by
  simp [entries]

theorem entries_getElem {data : List UInt8} {k : Nat} (hk : k < (entries data).length) :
    (entries data)[k] = direntLayout.decode ((data.drop (16 * k)).take 16) := by
  simp [entries]

/-- Reading at the place of an entry. -/
theorem readData_entry {data : List UInt8} {off : UInt32} {k : Nat} (hoff : off.toNat = 16 * k)
    (hk : k < (entries data).length) (hsize : data.length < 2 ^ 31) :
    ∃ bytes, readData data off 16 = some bytes ∧ bytes.length = direntSize ∧
      direntLayout.decode bytes = (entries data)[k] := by
  have h16 : (16 : UInt32).toNat = 16 := rfl
  have hk' := hk
  rw [entries_length] at hk'
  refine ⟨(data.drop (16 * k)).take 16, ?_, ?_, ?_⟩
  · unfold readData
    rw [hoff, h16, if_neg (by omega)]
  · simp only [List.length_take, List.length_drop, direntSize_eq]
    omega
  · rw [entries_getElem hk]

/-- Writing an entry. -/
theorem entries_put {data data' : List UInt8} {off : UInt32} {k : Nat} {src : List UInt8}
    (hoff : off.toNat = 16 * k) (hlen : src.length = 16)
    (hplace : 16 * k + 16 ≤ data.length ∨ 16 * k = data.length)
    (h : writeData data off src = some data') :
    entries data' = putSlot (entries data) k (direntLayout.decode src) := by
  unfold writeData at h
  split at h
  · exact absurd h (by simp)
  split at h
  · exact absurd h (by simp)
  rw [Option.some.injEq, hoff, hlen] at h
  have hlen' : data'.length = max data.length (16 * k + 16) := by
    rw [← h]
    simp only [List.length_append, List.length_take, List.length_drop]
    omega
  have hat : (data'.drop (16 * k)).take 16 = src := by
    have hle : (data.take (16 * k)).length = 16 * k := by
      rw [List.length_take]
      omega
    rw [← h, List.append_assoc, List.drop_append_of_le_length (by omega),
      List.drop_eq_nil_of_le (by omega), List.nil_append,
      List.take_append_of_le_length (by omega), List.take_of_length_le (by omega)]
  have hother : ∀ j, j ≠ k → j < data.length / 16 →
      (data'.drop (16 * j)).take 16 = (data.drop (16 * j)).take 16 := by
    intro j hj hlt
    apply List.ext_getElem
    · simp only [List.length_take, List.length_drop]
      omega
    · intro b hb hb'
      simp only [List.length_take, List.length_drop] at hb hb'
      simp only [List.getElem_take, List.getElem_drop, ← h, List.append_assoc]
      by_cases hlow : 16 * j + b < 16 * k
      · rw [List.getElem_append_left (by rw [List.length_take]; omega), List.getElem_take]
      · have hhigh : 16 * k + 16 ≤ 16 * j + b := by omega
        rw [List.getElem_append_right (by rw [List.length_take]; omega),
          List.getElem_append_right (by rw [List.length_take]; omega), List.getElem_drop]
        congr 1
        rw [List.length_take]
        omega
  unfold putSlot
  rw [entries_length]
  by_cases hk : k < data.length / 16
  · rw [if_pos hk]
    apply List.ext_getElem
    · simp only [entries_length, List.length_set]
      omega
    · intro j hj hj'
      rw [entries_getElem hj, List.getElem_set]
      simp only [List.length_set, entries_length] at hj'
      split
      · rename_i hjk
        rw [← hjk, hat]
      · rename_i hjk
        rw [hother j (Ne.symm hjk) hj', entries_getElem]
  · rw [if_neg hk]
    apply List.ext_getElem
    · simp only [entries_length, List.length_append, List.length_singleton]
      omega
    · intro j hj hj'
      rw [entries_getElem hj]
      simp only [List.length_append, entries_length, List.length_singleton] at hj'
      by_cases hjk : j = k
      · subst hjk
        rw [hat, List.getElem_append_right (by simp; omega)]
        simp
      · rw [hother j hjk (by omega), List.getElem_append_left (by simp; omega), entries_getElem]

end Xv6.Fs
