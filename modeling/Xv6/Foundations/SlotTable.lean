import Mathlib

/-!
# Foundations - Slot tables

A finite map in an array of slots.  A slot is free or holds an entry with a key; a new entry goes
into the first free slot, and the array grows when there is none.  Over arbitrary slots.

Main results:

- Theorem {lit}`slotOf_put`: a new entry changes what is found under its key only.
- Theorem {lit}`slotOf_erase`: so does making a slot free.
- Theorems {lit}`length_put` and {lit}`length_erase`: the array is as long as the number of entries
  needs.
-/

namespace Foundations

section SlotTable

variable {σ κ : Type} [DecidableEq κ] (live : σ → Bool) (key : σ → κ)

/-- No two slots in use have the same key. -/
def SlotsDistinct (l : List σ) : Prop :=
  ∀ j k (hj : j < l.length) (hk : k < l.length), live l[j] = true → live l[k] = true →
    key l[j] = key l[k] → j = k

/-- The first slot in use with a key. -/
def slotOf (c : κ) (l : List σ) : Option σ :=
  l.find? fun x => live x && decide (key x = c)

/-- The first free slot, or the end of the array. -/
def freeSlot (l : List σ) : Nat :=
  l.findIdx fun x => !live x

/-- Replace slot `k`, or append a slot. -/
def putSlot (l : List σ) (k : Nat) (x : σ) : List σ :=
  if k < l.length then l.set k x else l ++ [x]

variable {live key} {l : List σ} {c : κ} {j k : Nat} {x z : σ}

omit [DecidableEq κ] in
theorem SlotsDistinct.of_nodup (h : (l.map key).Nodup) : SlotsDistinct live key l := by
  intro j k hj hk _ _ hkey
  have hinj := (List.nodup_iff_injective_getElem.mp h)
  have heq : (⟨j, by simpa using hj⟩ : Fin (l.map key).length) = ⟨k, by simpa using hk⟩ :=
    hinj (by simpa using hkey)
  exact congrArg Fin.val heq

/-! ## Finding -/

theorem slotOf_eq_none : slotOf live key c l = none ↔ ∀ y ∈ l, live y = true → key y ≠ c := by
  simp [slotOf]

theorem slotOf_eq_some (h : slotOf live key c l = some x) :
    ∃ (j : Nat) (hj : j < l.length), l[j] = x ∧ live x = true ∧ key x = c := by
  have hfound := List.find?_some h
  rw [Bool.and_eq_true, decide_eq_true_eq] at hfound
  obtain ⟨j, hj, hx⟩ := List.getElem_of_mem (List.mem_of_find?_eq_some h)
  exact ⟨j, hj, hx, hfound⟩

/-- Every entry of a table with distinct keys is found. -/
theorem SlotsDistinct.slotOf_getElem (hd : SlotsDistinct live key l) (hj : j < l.length)
    (hlive : live l[j] = true) : slotOf live key (key l[j]) l = some l[j] := by
  cases h : slotOf live key (key l[j]) l with
  | none => exact absurd rfl (slotOf_eq_none.mp h _ (List.getElem_mem hj) hlive)
  | some y =>
    obtain ⟨m, hm, rfl, hy, hkey⟩ := slotOf_eq_some h
    have hsame := hd m j hm hj hy hlive hkey
    subst hsame
    rfl

/-! ## Putting -/

theorem putSlot_length (hk : k ≤ l.length) :
    (putSlot l k x).length = max l.length (k + 1) := by
  unfold putSlot
  split
  · rw [List.length_set]
    omega
  · rw [List.length_append, List.length_singleton]
    omega

theorem getElem_putSlot_self (hk : k ≤ l.length) (h : k < (putSlot l k x).length) :
    (putSlot l k x)[k] = x := by
  unfold putSlot at h ⊢
  split
  · exact List.getElem_set_self _
  · have hend : k = l.length := by omega
    subst hend
    simp

theorem getElem_putSlot_ne (hne : j ≠ k) (hj : j < l.length) (h : j < (putSlot l k x).length) :
    (putSlot l k x)[j] = l[j] := by
  unfold putSlot at h ⊢
  split
  · exact List.getElem_set_ne (Ne.symm hne) _
  · exact List.getElem_append_left hj

theorem lt_of_putSlot (hk : k ≤ l.length) (hne : j ≠ k) (h : j < (putSlot l k x).length) :
    j < l.length := by
  rw [putSlot_length hk] at h
  omega

/-- The first free slot is free. -/
theorem freeSlot_spec (live : σ → Bool) (l : List σ) : freeSlot live l ≤ l.length ∧
    ∀ h : freeSlot live l < l.length, live l[freeSlot live l] = false := by
  refine ⟨List.findIdx_le_length, ?_⟩
  intro h
  have hfree : (!live l[freeSlot live l]) = true := List.findIdx_getElem (w := h)
  simpa using hfree

/-- A table stays distinct when an entry with a new key is put. -/
theorem SlotsDistinct.put (hd : SlotsDistinct live key l) (hk : k ≤ l.length)
    (hnew : slotOf live key (key x) l = none) :
    SlotsDistinct live key (putSlot l k x) := by
  have hother := slotOf_eq_none.mp hnew
  intro i j hi hj hlivei hlivej hkey
  by_cases hik : i = k
  · subst hik
    by_cases hjk : j = i
    · exact hjk.symm
    · have hj' := lt_of_putSlot hk hjk hj
      rw [getElem_putSlot_self hk, getElem_putSlot_ne hjk hj'] at hkey
      rw [getElem_putSlot_ne hjk hj'] at hlivej
      exact absurd hkey.symm (hother _ (List.getElem_mem hj') hlivej)
  · have hi' := lt_of_putSlot hk hik hi
    rw [getElem_putSlot_ne hik hi'] at hkey hlivei
    by_cases hjk : j = k
    · subst hjk
      rw [getElem_putSlot_self hk] at hkey
      exact absurd hkey (hother _ (List.getElem_mem hi') hlivei)
    · have hj' := lt_of_putSlot hk hjk hj
      rw [getElem_putSlot_ne hjk hj'] at hkey hlivej
      exact hd i j hi' hj' hlivei hlivej hkey

/-- Putting an entry with a new key in a free slot. -/
theorem slotOf_put (hd : SlotsDistinct live key l) (hk : k ≤ l.length)
    (hfree : ∀ h : k < l.length, live l[k] = false) (hx : live x = true)
    (hnew : slotOf live key (key x) l = none) (c : κ) :
    slotOf live key c (putSlot l k x) =
      if key x = c then some x else slotOf live key c l := by
  have hd' := hd.put (x := x) hk hnew
  have hlen := putSlot_length (x := x) hk
  by_cases hc : key x = c
  · subst hc
    have hin : k < (putSlot l k x).length := by omega
    have hself := getElem_putSlot_self hk hin
    have hfound := hd'.slotOf_getElem hin (by rw [hself]; exact hx)
    rw [hself] at hfound
    rw [if_pos rfl, hfound]
  · rw [if_neg hc]
    cases h : slotOf live key c l with
    | none =>
      rw [slotOf_eq_none] at h ⊢
      intro y hy hlive
      obtain ⟨j, hj, rfl⟩ := List.getElem_of_mem hy
      by_cases hjk : j = k
      · subst hjk
        rw [getElem_putSlot_self hk]
        exact hc
      · have hj' := lt_of_putSlot hk hjk hj
        rw [getElem_putSlot_ne hjk hj'] at hlive ⊢
        exact h _ (List.getElem_mem hj') hlive
    | some y =>
      obtain ⟨j, hj, rfl, hlive, hkey⟩ := slotOf_eq_some h
      have hjk : j ≠ k := by
        rintro rfl
        rw [hfree hj] at hlive
        exact Bool.false_ne_true hlive
      have hin : j < (putSlot l k x).length := by omega
      have hsame := getElem_putSlot_ne (x := x) hjk hj hin
      have hfound := hd'.slotOf_getElem hin (by rw [hsame]; exact hlive)
      rwa [hsame, hkey] at hfound

/-! ## Erasing -/

omit [DecidableEq κ] in
/-- A table stays distinct when a slot becomes free. -/
theorem SlotsDistinct.erase (hd : SlotsDistinct live key l) (hz : live z = false) :
    SlotsDistinct live key (l.set j z) := by
  have hold : ∀ i (hi : i < (l.set j z).length), live (l.set j z)[i] = true →
      ∃ hi' : i < l.length, (l.set j z)[i] = l[i] := by
    intro i hi hlive
    rw [List.getElem_set] at hlive
    split at hlive
    · rw [hz] at hlive
      exact absurd hlive Bool.false_ne_true
    · rename_i hne
      exact ⟨by rwa [List.length_set] at hi, List.getElem_set_ne hne _⟩
  intro i k hi hk hlivei hlivek hkey
  obtain ⟨hi', hsamei⟩ := hold i hi hlivei
  obtain ⟨hk', hsamek⟩ := hold k hk hlivek
  rw [hsamei] at hkey hlivei
  rw [hsamek] at hkey hlivek
  exact hd i k hi' hk' hlivei hlivek hkey

/-- Making a slot free removes its key. -/
theorem slotOf_erase (hd : SlotsDistinct live key l) (hj : j < l.length)
    (hlive : live l[j] = true) (hz : live z = false) (c : κ) :
    slotOf live key c (l.set j z) = if key l[j] = c then none else slotOf live key c l := by
  have hd' := hd.erase (j := j) hz
  by_cases hc : key l[j] = c
  · rw [if_pos hc, slotOf_eq_none]
    intro y hy hyl hyc
    obtain ⟨i, hi, rfl⟩ := List.getElem_of_mem hy
    rw [List.getElem_set] at hyl hyc
    split at hyl
    · rw [hz] at hyl
      exact Bool.false_ne_true hyl
    · rename_i hne
      rw [if_neg hne] at hyc
      rw [List.length_set] at hi
      exact hne (hd j i hj hi hlive hyl (hc.trans hyc.symm))
  · rw [if_neg hc]
    cases h : slotOf live key c l with
    | none =>
      rw [slotOf_eq_none] at h ⊢
      intro y hy hyl
      rcases List.mem_or_eq_of_mem_set hy with hmem | rfl
      · exact h y hmem hyl
      · rw [hz] at hyl
        exact absurd hyl Bool.false_ne_true
    | some y =>
      obtain ⟨i, hi, rfl, hyl, hkey⟩ := slotOf_eq_some h
      have hij : j ≠ i := by
        rintro rfl
        exact hc hkey
      have hin : i < (l.set j z).length := by rwa [List.length_set]
      have hsame : (l.set j z)[i] = l[i] := List.getElem_set_ne hij _
      have hfound := hd'.slotOf_getElem hin (by rw [hsame]; exact hyl)
      rwa [hsame, hkey] at hfound

/-! ## Size -/

theorem countP_putSlot (hfree : ∀ h : k < l.length, live l[k] = false)
    (hx : live x = true) : (putSlot l k x).countP live = l.countP live + 1 := by
  unfold putSlot
  split
  · rename_i hlt
    rw [List.countP_set hlt, hfree hlt, hx]
    simp
  · rw [List.countP_append, List.countP_singleton, if_pos hx]

/-- The array grows only when all slots are in use. -/
theorem length_put (hx : live x = true) :
    (putSlot l (freeSlot live l) x).length =
      max l.length ((putSlot l (freeSlot live l) x).countP live) := by
  obtain ⟨hle, hfree⟩ := freeSlot_spec live l
  rw [putSlot_length hle, countP_putSlot hfree hx]
  have hcount := List.countP_le_length (p := live) (l := l)
  rcases Nat.lt_or_eq_of_le hle with hlt | hend
  · have hne : l.countP live ≠ l.length := by
      intro hall
      have hlive := List.countP_eq_length.mp hall _ (List.getElem_mem hlt)
      rw [hfree hlt] at hlive
      exact Bool.false_ne_true hlive
    omega
  · have hall : l.countP live = l.length := by
      rw [List.countP_eq_length]
      intro y hy
      have hno := List.findIdx_eq_length.mp hend y hy
      simpa using hno
    omega

end SlotTable

end Foundations
