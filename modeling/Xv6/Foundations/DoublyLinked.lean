import Xv6.Foundations.CircularList

/-!
# Foundations - Doubly linked rings

Cells with a pointer to the next and to the previous cell, linked to a ring through a cell
that serves as its head.  A ring stands for the list of the other cells, from the one after
the head on.

Main results:

- Theorem {lit}`LinkedRing.unlink`: a cell is taken out.
- Theorem {lit}`LinkedRing.pushFront`: a cell is put behind the head.
- Theorems {lit}`LinkedRing.scan_next`, {lit}`LinkedRing.scan_prev`: searches in both directions.
-/

namespace Foundations

/-- The pointers of all cells. -/
structure Links (α : Type) where
  next : α → α
  prev : α → α

section Operations

variable {α : Type} [DecidableEq α]

/-- `b->next->prev = b->prev; b->prev->next = b->next;`. -/
def Links.unlink (L : Links α) (b : α) : Links α :=
  let L := { L with prev := Function.update L.prev (L.next b) (L.prev b) }
  { L with next := Function.update L.next (L.prev b) (L.next b) }

/-- `b->next = h->next; b->prev = h; h->next->prev = b; h->next = b;`. -/
def Links.pushFront (L : Links α) (h b : α) : Links α :=
  let L := { L with next := Function.update L.next b (L.next h) }
  let L := { L with prev := Function.update L.prev b h }
  let L := { L with prev := Function.update L.prev (L.next h) b }
  { L with next := Function.update L.next h b }

/-- `for(b = x; b != h; b = step(b)) if(p(b)) return b;`, for at most `k` rounds. -/
def scan (step : α → α) (h : α) (p : α → Bool) : Nat → α → Option α
  | 0, _ => none
  | k + 1, x => if x = h then none else if p x then some x else scan step h p k (step x)

end Operations

/-- The pointers link the head and the cells of the list in both directions. -/
structure LinkedRing {α : Type} (L : Links α) (h : α) (xs : List α) : Prop where
  forward : Leads L.next h (h :: xs) h
  backward : Leads L.prev h (h :: xs.reverse) h
  nodup : (h :: xs).Nodup

section Paths

variable {α : Type} [DecidableEq α] {next : α → α} {x y p b : α} {us zs : List α}

/-- The pointer of `p` skips the cell behind it. -/
theorem Leads.skip (h : Leads next x (us ++ p :: b :: zs) y) (hnodup : (us ++ p :: zs).Nodup) :
    Leads (Function.update next p (next b)) x (us ++ p :: zs) y := by
  obtain ⟨hbefore, hbehind⟩ := leads_append_cons.mp h
  have hp : p ∉ us ∧ p ∉ zs := by
    have hmiddle := List.nodup_middle.mp hnodup
    rw [List.nodup_cons, List.mem_append, not_or] at hmiddle
    exact hmiddle.1
  refine leads_append_cons.mpr ⟨?_, ?_⟩
  · refine hbefore.congr ?_
    intro z hz
    refine Function.update_of_ne ?_ ..
    rintro rfl
    exact hp.1 hz
  · rw [Function.update_self]
    refine hbehind.2.congr ?_
    intro z hz
    refine Function.update_of_ne ?_ ..
    rintro rfl
    exact hp.2 hz

/-- A cell is put behind `p`. -/
theorem Leads.insert (h : Leads next x (us ++ p :: zs) y) (hnodup : (us ++ p :: b :: zs).Nodup) :
    Leads (Function.update (Function.update next b (next p)) p b) x (us ++ p :: b :: zs) y := by
  obtain ⟨hbefore, hbehind⟩ := leads_append_cons.mp h
  have hp : p ∉ us ++ b :: zs ∧ (us ++ b :: zs).Nodup :=
    List.nodup_cons.mp (List.nodup_middle.mp hnodup)
  have hb : b ∉ us ++ zs := (List.nodup_cons.mp (List.nodup_middle.mp hp.2)).1
  rw [List.mem_append, not_or, List.mem_cons, not_or] at hp
  rw [List.mem_append, not_or] at hb
  have hsame : ∀ z, z ≠ p → z ≠ b →
      Function.update (Function.update next b (next p)) p b z = next z := by
    intro z hzp hzb
    rw [Function.update_of_ne hzp, Function.update_of_ne hzb]
  refine leads_append_cons.mpr ⟨?_, ?_, ?_⟩
  · refine hbefore.congr ?_
    intro z hz
    refine hsame z ?_ ?_
    · rintro rfl
      exact hp.1.1 hz
    · rintro rfl
      exact hb.1 hz
  · rw [Function.update_self]
  · rw [Function.update_of_ne (Ne.symm hp.1.2.1), Function.update_self]
    refine hbehind.congr ?_
    intro z hz
    refine hsame z ?_ ?_
    · rintro rfl
      exact hp.1.2.2 hz
    · rintro rfl
      exact hb.2 hz

/-- A search along a path that arrives at the head. -/
theorem Leads.scan_eq {step : α → α} {h : α} {xs : List α} (hpath : Leads step x xs h)
    (hnot : h ∉ xs) (f : α → Bool) {k : Nat} (hk : xs.length < k) :
    scan step h f k x = xs.find? f := by
  induction xs generalizing x k with
  | nil =>
    obtain ⟨k, rfl⟩ := Nat.exists_eq_succ_of_ne_zero (Nat.ne_of_gt hk)
    rw [scan]
    exact if_pos hpath
  | cons z xs ih =>
    obtain ⟨k, rfl⟩ := Nat.exists_eq_succ_of_ne_zero (Nat.ne_of_gt (Nat.zero_lt_of_lt hk))
    obtain ⟨rfl, hrest⟩ := hpath
    rw [List.mem_cons, not_or] at hnot
    rw [scan, if_neg (Ne.symm hnot.1), List.find?_cons]
    cases f x with
    | true => rfl
    | false => exact ih hrest hnot.2 (Nat.lt_of_succ_lt_succ hk)

end Paths

section Rings

variable {α : Type} {L : Links α} {h b : α} {xs ys zs : List α}

/-- The first cell behind the head. -/
theorem LinkedRing.next_head (hr : LinkedRing L h xs) : L.next h = xs.headD h :=
  hr.forward.2.start_eq

theorem LinkedRing.reverse (hr : LinkedRing L h xs) : LinkedRing ⟨L.prev, L.next⟩ h xs.reverse := by
  refine ⟨hr.backward, ?_, ?_⟩
  · rw [List.reverse_reverse]
    exact hr.forward
  · have hnodup := hr.nodup
    rw [List.nodup_cons] at hnodup ⊢
    rwa [List.mem_reverse, List.nodup_reverse]

/-- What follows a cell of the ring. -/
theorem LinkedRing.next_cell (hr : LinkedRing L h (ys ++ b :: zs)) : L.next b = zs.headD h := by
  have hpath := hr.forward
  rw [← List.cons_append] at hpath
  exact (leads_append_cons.mp hpath).2.start_eq

theorem LinkedRing.prev_cell (hr : LinkedRing L h (ys ++ b :: zs)) :
    L.prev b = ys.reverse.headD h := by
  have hrev := hr.reverse
  rw [List.reverse_append, List.reverse_cons, List.append_assoc, List.singleton_append] at hrev
  exact hrev.next_cell

variable [DecidableEq α]

/-- The pointers of one direction after a cell was taken out. -/
theorem leads_unlink {next : α → α} {p : α} (hp : p = ys.reverse.headD h)
    (hpath : Leads next h (h :: (ys ++ b :: zs)) h) (hnodup : (h :: (ys ++ zs)).Nodup) :
    Leads (Function.update next p (next b)) h (h :: (ys ++ zs)) h := by
  rcases List.eq_nil_or_concat ys with rfl | ⟨us, q, rfl⟩
  · have hskip : Leads (Function.update next h (next b)) h ([] ++ h :: zs) h :=
      Leads.skip hpath hnodup
    rw [hp]
    exact hskip
  · rw [List.concat_eq_append, List.reverse_append, List.reverse_singleton,
      List.singleton_append, List.headD_cons] at hp
    rw [List.concat_eq_append, List.append_assoc, List.singleton_append, ← List.cons_append] at *
    subst hp
    exact hpath.skip hnodup

/-- A cell is taken out of the ring. -/
theorem LinkedRing.unlink (hr : LinkedRing L h (ys ++ b :: zs)) :
    LinkedRing (L.unlink b) h (ys ++ zs) := by
  have hmiddle : (b :: (h :: ys ++ zs)).Nodup := List.nodup_middle.mp hr.nodup
  have hnodup : (h :: (ys ++ zs)).Nodup := (List.nodup_cons.mp hmiddle).2
  have hself : L.next b ≠ b := by
    rw [hr.next_cell]
    intro hbad
    refine (List.nodup_cons.mp hmiddle).1 ?_
    rw [← hbad]
    cases zs with
    | nil => exact List.mem_append_left _ List.mem_cons_self
    | cons z zs => exact List.mem_append_right _ List.mem_cons_self
  have hprev : Function.update L.prev (L.next b) (L.prev b) b = L.prev b :=
    Function.update_of_ne (Ne.symm hself) ..
  refine ⟨?_, ?_, hnodup⟩
  · change Leads (Function.update L.next _ (L.next b)) _ _ _
    refine leads_unlink ?_ hr.forward hnodup
    change Function.update L.prev (L.next b) (L.prev b) b = _
    rw [hprev, hr.prev_cell]
  · have hrev := hr.reverse
    rw [List.reverse_append, List.reverse_cons, List.append_assoc, List.singleton_append] at hrev
    rw [List.reverse_append]
    change Leads (Function.update L.prev (L.next b) (L.prev b)) _ _ _
    refine leads_unlink ?_ hrev.forward ?_
    · rw [List.reverse_reverse, hr.next_cell]
    · rw [← List.reverse_append, List.nodup_cons, List.mem_reverse, List.nodup_reverse]
      exact List.nodup_cons.mp hnodup

/-- A cell is put behind the head. -/
theorem LinkedRing.pushFront (hr : LinkedRing L h xs) (hb : b ∉ h :: xs) :
    LinkedRing (L.pushFront h b) h (b :: xs) := by
  have hbh : h ≠ b := by
    rintro rfl
    exact hb List.mem_cons_self
  have hnodup : (h :: b :: xs).Nodup := by
    rw [List.mem_cons, not_or] at hb
    have hold := List.nodup_cons.mp hr.nodup
    rw [List.nodup_cons, List.nodup_cons, List.mem_cons, not_or]
    exact ⟨⟨hbh, hold.1⟩, hb.2, hold.2⟩
  have hnext : Function.update L.next b (L.next h) h = L.next h := Function.update_of_ne hbh ..
  refine ⟨?_, ?_, hnodup⟩
  · change Leads (Function.update (Function.update L.next b (L.next h)) h b) _ _ _
    have hins : Leads _ h ([] ++ h :: b :: xs) h := Leads.insert hr.forward hnodup
    exact hins
  · change Leads (Function.update (Function.update L.prev b h)
      (Function.update L.next b (L.next h) h) b) _ _ _
    rw [hnext, hr.next_head, List.reverse_cons]
    have hback := hr.backward
    cases xs with
    | nil =>
      have hself : L.prev h = h := hback.2
      have hins : Leads _ h ([] ++ h :: b :: []) h := Leads.insert hback hnodup
      rwa [hself] at hins
    | cons f xs =>
      -- the head's old neighbour now points back to the new cell
      rw [List.reverse_cons, ← List.cons_append] at hback
      have hlast : L.prev f = h := (leads_append_cons.mp hback).2
      have hperm : (h :: xs.reverse ++ [f, b]).Nodup := by
        have heq : h :: xs.reverse ++ [f, b] = h :: (b :: f :: xs).reverse := by simp
        rw [heq, List.nodup_cons, List.mem_reverse, List.nodup_reverse]
        exact List.nodup_cons.mp hnodup
      have hins := hback.insert hperm
      rw [hlast] at hins
      rw [List.headD_cons, List.reverse_cons, List.append_assoc, List.singleton_append,
        ← List.cons_append]
      exact hins

/-- A search from the first cell on. -/
theorem LinkedRing.scan_next (hr : LinkedRing L h xs) (f : α → Bool) {k : Nat}
    (hk : xs.length < k) :
    scan L.next h f k (L.next h) = xs.find? f :=
  hr.forward.2.scan_eq (List.nodup_cons.mp hr.nodup).1 f hk

/-- A search from the last cell back. -/
theorem LinkedRing.scan_prev (hr : LinkedRing L h xs) (f : α → Bool) {k : Nat}
    (hk : xs.length < k) :
    scan L.prev h f k (L.prev h) = xs.reverse.find? f := by
  refine hr.reverse.scan_next f ?_
  rwa [List.length_reverse]

end Rings

end Foundations
