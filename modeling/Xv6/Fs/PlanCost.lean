import Xv6.Fs.LogSpace

/-!
# File system - Cost of a write

The plan of a write, counted: how many free blocks it takes, and how many distinct blocks it
logs.  A write to the blocks `bns` of a file takes one free block for each of them that is
missing, and one more for the indirect block if an entry of it is needed and there is none.
It logs the blocks of the file that it reaches before the free blocks run out, the indirect
block if an entry is new, the blocks that it takes and the blocks of the free map that mark
them.

Main results:

- Theorem {lit}`plan_complete_iff`: the free blocks last if there are enough.
- Theorem {lit}`mem_plan`: the blocks of the plan.
- Theorem {lit}`plan_card`: their number.
-/

namespace Xv6.Fs

open Foundations

/-! ## What a write needs -/

/-- The blocks of the file that are not there. -/
def missing (refs : Nat → Nat) (bns : List Nat) : List Nat :=
  bns.filter fun bn => refs (place bn) = 0

/-- An entry of the indirect block has to be filled. -/
def newEntry (refs : Nat → Nat) (bns : List Nat) : Bool :=
  (missing refs bns).any fun bn => 12 ≤ bn

/-- The number of free blocks that a write takes. -/
def taken (refs : Nat → Nat) (bns : List Nat) : Nat :=
  (missing refs bns).length + if newEntry refs bns = true ∧ refs 12 = 0 then 1 else 0

/-- The blocks of the file that a write reaches with `m` free blocks. -/
def reached (refs : Nat → Nat) (m : Nat) (bns : List Nat) : List Nat :=
  bns.take (Nat.findGreatest (fun k => taken refs (bns.take k) ≤ m) bns.length)

/-- Block `x` is logged by a write that takes the blocks `T` and reaches the blocks `bns` of the
file. -/
def Logs (bb refs : Nat → Nat) (T bns : List Nat) (x : Nat) : Prop :=
  (∃ bn ∈ bns, refs (place bn) ≠ 0 ∧ refs (place bn) = x) ∨
    x ∈ T ∨ (∃ b ∈ T, bb b = x) ∨ (newEntry refs bns = true ∧ refs 12 ≠ 0 ∧ refs 12 = x)

section Congr

variable {refs refs' : Nat → Nat} {bns : List Nat}

theorem missing_congr (h : ∀ bn ∈ bns, refs' (place bn) = refs (place bn)) :
    missing refs' bns = missing refs bns := by
  apply List.filter_congr
  intro bn hbn
  rw [h bn hbn]

theorem newEntry_congr (h : ∀ bn ∈ bns, refs' (place bn) = refs (place bn)) :
    newEntry refs' bns = newEntry refs bns := by
  unfold newEntry
  rw [missing_congr h]

theorem missing_cons (refs : Nat → Nat) (bn : Nat) (bns : List Nat) :
    missing refs (bn :: bns) = missing refs [bn] ++ missing refs bns := by
  unfold missing
  rw [← List.filter_append]
  rfl

theorem newEntry_cons (refs : Nat → Nat) (bn : Nat) (bns : List Nat) :
    newEntry refs (bn :: bns) = (newEntry refs [bn] || newEntry refs bns) := by
  unfold newEntry
  rw [missing_cons, List.any_append]

theorem taken_singleton_le (refs : Nat → Nat) (bn : Nat) (bns : List Nat) :
    taken refs [bn] ≤ taken refs (bn :: bns) := by
  unfold taken
  rw [missing_cons refs bn bns, newEntry_cons refs bn bns, List.length_append]
  split_ifs with hone hall
  · omega
  · exact absurd ⟨by simp [hone.1], hone.2⟩ hall
  · omega
  · omega

end Congr

/-! ## One block -/

section One

variable {refs : Nat → Nat} {bn : Nat}

theorem missing_mapped (h : refs (place bn) ≠ 0) : missing refs [bn] = [] := by
  simp [missing, h]

theorem missing_hole (h : refs (place bn) = 0) : missing refs [bn] = [bn] := by
  simp [missing, h]

theorem newEntry_mapped (h : refs (place bn) ≠ 0) : newEntry refs [bn] = false := by
  rw [newEntry, missing_mapped h]
  rfl

theorem newEntry_direct (h : bn < 12) : newEntry refs [bn] = false := by
  unfold newEntry missing
  simp
  exact fun _ => h

theorem newEntry_hole (h : refs (place bn) = 0) (hbn : ¬ bn < 12) :
    newEntry refs [bn] = true := by
  rw [newEntry, missing_hole h]
  simpa using hbn

theorem taken_mapped (h : refs (place bn) ≠ 0) : taken refs [bn] = 0 := by
  rw [taken, missing_mapped h, newEntry_mapped h]
  rfl

theorem taken_direct (h : refs (place bn) = 0) (hbn : bn < 12) : taken refs [bn] = 1 := by
  rw [taken, missing_hole h, newEntry_direct hbn]
  rfl

theorem taken_entry (h : refs (place bn) = 0) (hind : refs 12 ≠ 0) : taken refs [bn] = 1 := by
  rw [taken, missing_hole h, if_neg fun hand => hind hand.2]
  rfl

theorem taken_both (h : refs (place bn) = 0) (hbn : ¬ bn < 12) (hind : refs 12 = 0) :
    taken refs [bn] = 2 := by
  rw [taken, missing_hole h, if_pos ⟨newEntry_hole h hbn, hind⟩]
  rfl

end One

/-- What a plan for one block makes of the references and the free blocks. -/
structure PlanStep (bb refs : Nat → Nat) (free : List Nat) (bn : Nat) (q : Planned) : Prop where
  count : taken refs [bn] ≤ free.length
  other : ∀ bn', bn' ≠ bn → q.refs (place bn') = refs (place bn')
  free_eq : q.free = free.drop (taken refs [bn])
  created : newEntry refs [bn] = true → refs 12 = 0 →
    q.refs 12 ∈ free.take (taken refs [bn])
  kept : newEntry refs [bn] = false ∨ refs 12 ≠ 0 → q.refs 12 = refs 12
  log : ∀ x, x ∈ q.log ++ [q.refs (place bn)] ↔ Logs bb refs (free.take (taken refs [bn])) [bn] x

section Step

variable {bb refs : Nat → Nat} {free : List Nat} {bn : Nat}

theorem update_place_other {b bn' : Nat} (h : bn' ≠ bn) :
    Function.update refs (place bn) b (place bn') = refs (place bn') :=
  Function.update_of_ne (fun heq => h (place_inj heq)) b refs

theorem planStep_mapped (h : refs (place bn) ≠ 0) :
    PlanStep bb refs free bn ⟨refs, free, []⟩ := by
  have htaken := taken_mapped h
  have hentry := newEntry_mapped h
  constructor
  · rw [htaken]
    exact Nat.zero_le _
  · exact fun _ _ => rfl
  · rw [htaken]
    rfl
  · intro hnew
    rw [hentry] at hnew
    exact absurd hnew Bool.false_ne_true
  · exact fun _ => rfl
  · intro x
    unfold Logs
    rw [htaken, hentry]
    simp [h, eq_comm (a := x)]

theorem planStep_direct (h : refs (place bn) = 0) (hbn : bn < 12) {b : Nat} {fs : List Nat} :
    PlanStep bb refs (b :: fs) bn ⟨Function.update refs (place bn) b, fs, [bb b, b]⟩ := by
  have htaken := taken_direct h hbn
  have hentry : newEntry refs [bn] = false := newEntry_direct hbn
  constructor
  · rw [htaken]
    simp
  · exact fun _ => update_place_other
  · rw [htaken]
    rfl
  · intro hnew
    rw [hentry] at hnew
    exact absurd hnew Bool.false_ne_true
  · intro _
    exact Function.update_of_ne (place_ne bn).symm b refs
  · intro x
    unfold Logs
    rw [htaken, hentry]
    simp [h]
    tauto

theorem planStep_entry (h : refs (place bn) = 0) (hbn : ¬ bn < 12)
    (hind : refs 12 ≠ 0) {c : Nat} {fs : List Nat} :
    PlanStep bb refs (c :: fs) bn
      ⟨Function.update refs (place bn) c, fs, [bb c, c, refs 12]⟩ := by
  have htaken := taken_entry h hind
  have hentry := newEntry_hole h hbn
  constructor
  · rw [htaken]
    simp
  · exact fun _ => update_place_other
  · rw [htaken]
    rfl
  · intro _ hzero
    exact absurd hzero hind
  · intro _
    exact Function.update_of_ne (place_ne bn).symm c refs
  · intro x
    unfold Logs
    rw [htaken, hentry]
    simp [h]
    tauto

theorem planStep_both (h : refs (place bn) = 0) (hbn : ¬ bn < 12)
    (hind : refs 12 = 0) {b c : Nat} {fs : List Nat} :
    PlanStep bb refs (b :: c :: fs) bn
      ⟨Function.update (Function.update refs 12 b) (place bn) c, fs,
        [bb b, b, bb c, c, b]⟩ := by
  have htaken := taken_both h hbn hind
  have hentry := newEntry_hole h hbn
  have hself : Function.update (Function.update refs 12 b) (place bn) c 12 = b := by
    rw [Function.update_of_ne (place_ne bn).symm, Function.update_self]
  constructor
  · rw [htaken]
    simp
  · intro bn' hne
    exact (update_place_other hne).trans (Function.update_of_ne (place_ne bn') b refs)
  · rw [htaken]
    rfl
  · intro _ _
    rw [htaken]
    show Function.update (Function.update refs 12 b) (place bn) c 12 ∈ [b, c]
    rw [hself]
    exact List.mem_cons_self
  · rintro (hno | hno)
    · rw [hentry] at hno
      exact absurd hno.symm Bool.false_ne_true
    · exact absurd hind hno
  · intro x
    unfold Logs
    rw [htaken, hentry]
    simp [h, hind]
    tauto

/-- There is a plan for one block exactly if enough blocks are free; otherwise all free blocks
are taken before the search for another one fails. -/
theorem planBlock_cases (bb refs : Nat → Nat) (free : List Nat) (bn : Nat) :
    (∃ q, planBlock bb refs free bn = .ok q ∧ PlanStep bb refs free bn q) ∨
      ∃ log, planBlock bb refs free bn = .error log ∧ free.length < taken refs [bn] ∧
        ∀ x, x ∈ log ↔ x ∈ free ∨ ∃ b ∈ free, bb b = x := by
  unfold planBlock
  by_cases h : refs (place bn) ≠ 0
  · rw [if_pos h]
    exact Or.inl ⟨_, rfl, planStep_mapped h⟩
  · rw [if_neg h]
    have hhole : refs (place bn) = 0 := not_not.mp h
    by_cases hbn : bn < ndirect
    · rw [if_pos hbn]
      cases free with
      | nil => exact Or.inr ⟨_, rfl, by rw [taken_direct hhole hbn]; exact Nat.one_pos, by simp⟩
      | cons b fs => exact Or.inl ⟨_, rfl, planStep_direct hhole hbn⟩
    · rw [if_neg hbn]
      by_cases hind : refs ndirect ≠ 0
      · rw [if_pos hind]
        cases free with
        | nil => exact Or.inr ⟨_, rfl, by rw [taken_entry hhole hind]; exact Nat.one_pos, by simp⟩
        | cons c fs => exact Or.inl ⟨_, rfl, planStep_entry hhole hbn hind⟩
      · rw [if_neg hind]
        have htaken := taken_both hhole hbn (not_not.mp hind)
        rcases free with _ | ⟨b, _ | ⟨c, fs⟩⟩
        · exact Or.inr ⟨_, rfl, by rw [htaken]; exact Nat.two_pos, by simp⟩
        · refine Or.inr ⟨_, rfl, by rw [htaken]; exact Nat.one_lt_two, fun x => ?_⟩
          simp [or_comm, eq_comm]
        · exact Or.inl ⟨_, rfl, planStep_both hhole hbn (not_not.mp hind)⟩

namespace PlanStep

variable {q : Planned} {bns : List Nat}

theorem other_mem (h : PlanStep bb refs free bn q) (hbn : bn ∉ bns) :
    ∀ bn' ∈ bns, q.refs (place bn') = refs (place bn') := by
  intro bn' hmem
  apply h.other
  rintro rfl
  exact hbn hmem

/-- The blocks taken are those for the first block of the file and those for the rest. -/
theorem taken_cons (h : PlanStep bb refs free bn q) (hfree : ∀ b ∈ free, b ≠ 0) (hbn : bn ∉ bns) :
    taken refs (bn :: bns) = taken refs [bn] + taken q.refs bns := by
  have hother := h.other_mem hbn
  unfold taken
  rw [missing_cons, newEntry_cons, missing_congr hother, newEntry_congr hother,
    List.length_append]
  by_cases hnew : newEntry refs [bn] = true
  · by_cases hind : refs 12 = 0
    · have hne := hfree _ (List.mem_of_mem_take (h.created hnew hind))
      simp [hnew, hind, hne]
      omega
    · have hkept := h.kept (Or.inr hind)
      simp [hind, hkept]
  · have hold : newEntry refs [bn] = false := by simpa using hnew
    have hkept := h.kept (Or.inl hold)
    simp [hold, hkept]
    omega

theorem logs_arrange {F₁ F₂ T₁ T₂ B₁ B₂ N N₁ N₂ : Prop} (h : N₁ ∨ N₂ ∨ T₁ ↔ N ∨ T₁) :
    (F₁ ∨ F₂) ∨ (T₁ ∨ T₂) ∨ (B₁ ∨ B₂) ∨ N ↔ (F₁ ∨ T₁ ∨ B₁ ∨ N₁) ∨ F₂ ∨ T₂ ∨ B₂ ∨ N₂ := by
  calc (F₁ ∨ F₂) ∨ (T₁ ∨ T₂) ∨ (B₁ ∨ B₂) ∨ N
      ↔ F₁ ∨ F₂ ∨ T₂ ∨ B₁ ∨ B₂ ∨ (N ∨ T₁) := by ac_nf
    _ ↔ F₁ ∨ F₂ ∨ T₂ ∨ B₁ ∨ B₂ ∨ (N₁ ∨ N₂ ∨ T₁) := by rw [h]
    _ ↔ (F₁ ∨ T₁ ∨ B₁ ∨ N₁) ∨ F₂ ∨ T₂ ∨ B₂ ∨ N₂ := by ac_nf

/-- The free blocks that are taken. -/
theorem take_cons (h : PlanStep bb refs free bn q) (hfree : ∀ b ∈ free, b ≠ 0) (hbn : bn ∉ bns) :
    free.take (taken refs (bn :: bns)) =
      free.take (taken refs [bn]) ++ q.free.take (taken q.refs bns) := by
  rw [h.taken_cons hfree hbn, List.take_add, ← h.free_eq]

theorem taken_le_iff (h : PlanStep bb refs free bn q) (hfree : ∀ b ∈ free, b ≠ 0)
    (hbn : bn ∉ bns) :
    taken refs (bn :: bns) ≤ free.length ↔ taken q.refs bns ≤ q.free.length := by
  have hcount := h.count
  rw [h.taken_cons hfree hbn, h.free_eq, List.length_drop]
  omega

/-- The write reaches the first block of the file, and of the others what the rest reaches. -/
theorem reached_cons (h : PlanStep bb refs free bn q) (hfree : ∀ b ∈ free, b ≠ 0)
    (hbn : bn ∉ bns) :
    reached refs free.length (bn :: bns) = bn :: reached q.refs q.free.length bns := by
  have hrest : ∀ k, taken refs ((bn :: bns).take (k + 1)) ≤ free.length ↔
      taken q.refs (bns.take k) ≤ q.free.length := fun k =>
    h.taken_le_iff hfree fun hmem => hbn (List.mem_of_mem_take hmem)
  unfold reached
  generalize hg : Nat.findGreatest (fun k => taken q.refs (bns.take k) ≤ q.free.length)
    bns.length = g
  obtain ⟨hle, hthere, hbeyond⟩ := Nat.findGreatest_eq_iff.mp hg
  have hg' : Nat.findGreatest (fun k => taken refs ((bn :: bns).take k) ≤ free.length)
      (bn :: bns).length = g + 1 := by
    refine Nat.findGreatest_eq_iff.mpr ⟨by rw [List.length_cons]; omega, fun _ => ?_, ?_⟩
    · rw [hrest]
      by_cases hzero : g = 0
      · rw [hzero]
        exact Nat.zero_le _
      · exact hthere hzero
    · intro j hj hjle
      obtain ⟨k, rfl⟩ : ∃ k, j = k + 1 := ⟨j - 1, by omega⟩
      rw [hrest]
      exact hbeyond (by omega) (by rw [List.length_cons] at hjle; omega)
  rw [hg', List.take_succ_cons]

/-- The blocks logged are those for the first block of the file and those for the rest; `T` are
the blocks that the rest takes. -/
theorem logs_cons (h : PlanStep bb refs free bn q) (hbn : bn ∉ bns) (T : List Nat) (x : Nat) :
    Logs bb refs (free.take (taken refs [bn]) ++ T) (bn :: bns) x ↔
      Logs bb refs (free.take (taken refs [bn])) [bn] x ∨ Logs bb q.refs T bns x := by
  have hother := h.other_mem hbn
  have hmapped : (∃ bn' ∈ bns, q.refs (place bn') ≠ 0 ∧ q.refs (place bn') = x) ↔
      ∃ bn' ∈ bns, refs (place bn') ≠ 0 ∧ refs (place bn') = x := by
    constructor
    · rintro ⟨bn', hmem, hx⟩
      rw [hother bn' hmem] at hx
      exact ⟨bn', hmem, hx⟩
    · rintro ⟨bn', hmem, hx⟩
      rw [← hother bn' hmem] at hx
      exact ⟨bn', hmem, hx⟩
  -- an indirect block that is new is among the blocks taken
  have hind : (newEntry refs [bn] = true ∧ refs 12 ≠ 0 ∧ refs 12 = x) ∨
      (newEntry q.refs bns = true ∧ q.refs 12 ≠ 0 ∧ q.refs 12 = x) ∨
      x ∈ free.take (taken refs [bn]) ↔
        (newEntry refs (bn :: bns) = true ∧ refs 12 ≠ 0 ∧ refs 12 = x) ∨
        x ∈ free.take (taken refs [bn]) := by
    rw [newEntry_cons refs bn bns, newEntry_congr hother]
    by_cases hzero : refs 12 = 0
    · cases hnew : newEntry refs [bn] with
      | true =>
        have hmem := h.created hnew hzero
        constructor
        · rintro (hbad | ⟨-, -, rfl⟩ | hin)
          · exact absurd hzero hbad.2.1
          · exact Or.inr hmem
          · exact Or.inr hin
        · rintro (hbad | hin)
          · exact absurd hzero hbad.2.1
          · exact Or.inr (Or.inr hin)
      | false =>
        rw [h.kept (Or.inl hnew)]
        simp [hzero]
    · rw [h.kept (Or.inr hzero)]
      simp only [Bool.or_eq_true]
      tauto
  unfold Logs
  rw [hmapped]
  simp only [List.mem_append, List.mem_cons, List.not_mem_nil, or_false, exists_eq_left,
    or_and_right, exists_or]
  exact logs_arrange hind

end PlanStep

end Step

/-! ## The whole write -/

section Plan

variable (bb : Nat → Nat) {bns : List Nat}

/-- The free blocks last if there are enough. -/
theorem plan_complete_iff {refs : Nat → Nat} {free : List Nat} (hnodup : bns.Nodup)
    (hfree : ∀ b ∈ free, b ≠ 0) :
    (plan bb refs free bns).complete = true ↔ taken refs bns ≤ free.length := by
  induction bns generalizing refs free with
  | nil => exact iff_of_true rfl (Nat.zero_le _)
  | cons bn bns ih =>
    obtain ⟨hbn, hnodup'⟩ := List.nodup_cons.mp hnodup
    rcases planBlock_cases bb refs free bn with ⟨q, hq, hstep⟩ | ⟨log, hlog, hlt, -⟩
    · rw [plan_cons_ok hq, hstep.taken_le_iff hfree hbn]
      refine ih hnodup' ?_
      rw [hstep.free_eq]
      exact fun b hb => hfree b (List.mem_of_mem_drop hb)
    · have hle := taken_singleton_le refs bn bns
      rw [plan_cons_error hlog]
      exact iff_of_false Bool.false_ne_true (by omega)

/-- Nothing is reached when the first block of the file needs too many free blocks. -/
theorem reached_nil {refs : Nat → Nat} {m bn : Nat} (h : m < taken refs [bn]) :
    reached refs m (bn :: bns) = [] := by
  have hzero : Nat.findGreatest (fun k => taken refs ((bn :: bns).take k) ≤ m)
      (bn :: bns).length = 0 := by
    refine Nat.findGreatest_eq_iff.mpr ⟨Nat.zero_le _, fun hne => absurd rfl hne, ?_⟩
    intro j hj _
    obtain ⟨k, rfl⟩ : ∃ k, j = k + 1 := ⟨j - 1, by omega⟩
    have hle := taken_singleton_le refs bn (bns.take k)
    rw [List.take_succ_cons]
    omega
  rw [reached, hzero, List.take_zero]

/-- The blocks of the plan. -/
theorem mem_plan {refs : Nat → Nat} {free : List Nat} (hnodup : bns.Nodup)
    (hfree : ∀ b ∈ free, b ≠ 0) (x : Nat) :
    x ∈ (plan bb refs free bns).calls ↔
      Logs bb refs (free.take (taken refs bns)) (reached refs free.length bns) x := by
  induction bns generalizing refs free with
  | nil => simp [plan, Logs, taken, missing, newEntry, reached]
  | cons bn bns ih =>
    obtain ⟨hbn, hnodup'⟩ := List.nodup_cons.mp hnodup
    rcases planBlock_cases bb refs free bn with ⟨q, hq, hstep⟩ | ⟨log, hlog, hlt, hmem⟩
    · have hfree' : ∀ b ∈ q.free, b ≠ 0 := by
        rw [hstep.free_eq]
        exact fun b hb => hfree b (List.mem_of_mem_drop hb)
      have hbn' : bn ∉ reached q.refs q.free.length bns := fun hin =>
        hbn (List.mem_of_mem_take hin)
      rw [plan_cons_ok hq, List.mem_append, hstep.log, ih hnodup' hfree',
        hstep.take_cons hfree hbn, hstep.reached_cons hfree hbn, hstep.logs_cons hbn']
    · have hle := taken_singleton_le refs bn bns
      rw [plan_cons_error hlog, reached_nil hlt, List.take_of_length_le (by omega), hmem]
      simp [Logs, newEntry, missing]

/-- The number of blocks of the plan: the blocks of the file that are there and are reached, the
indirect block if it is there and an entry is new, the blocks taken, and the blocks of the free
map. -/
theorem plan_card {refs : Nat → Nat} {free T r : List Nat} (hnodup : bns.Nodup)
    (hfree : ∀ b ∈ free, b ≠ 0) (hfreeNodup : free.Nodup)
    (hinj : ∀ j k, refs j ≠ 0 → refs j = refs k → j = k)
    (hused : ∀ k, refs k ≠ 0 → refs k ∉ free)
    (hbb : ∀ b ∈ free, bb b ∉ free ∧ ∀ k, refs k ≠ 0 → refs k ≠ bb b)
    (hT : T = free.take (taken refs bns)) (hr : r = reached refs free.length bns) :
    (plan bb refs free bns).calls.toFinset.card =
      (r.filter fun bn => refs (place bn) ≠ 0).length +
        (if newEntry refs r = true ∧ refs 12 ≠ 0 then 1 else 0) + T.length +
        (T.map bb).toFinset.card := by
  have hmem : ∀ x, x ∈ (plan bb refs free bns).calls ↔ _ := mem_plan bb hnodup hfree
  rw [← hT, ← hr] at hmem
  have hTfree : ∀ b ∈ T, b ∈ free := by
    rw [hT]
    exact fun b hb => List.mem_of_mem_take hb
  generalize hmapped : r.filter (fun bn => refs (place bn) ≠ 0) = present
  generalize hE : (if newEntry refs r = true ∧ refs 12 ≠ 0 then [refs 12] else []) = E
  have hpresent : ∀ bn ∈ present, refs (place bn) ≠ 0 := by
    rw [← hmapped]
    intro bn hbn
    simpa using (List.mem_filter.mp hbn).2
  have hEmem : ∀ x, x ∈ E ↔ newEntry refs r = true ∧ refs 12 ≠ 0 ∧ refs 12 = x := by
    intro x
    rw [← hE]
    split_ifs with hif
    · simp [hif, eq_comm]
    · simp only [List.not_mem_nil, false_iff]
      exact fun hbad => hif ⟨hbad.1, hbad.2.1⟩
  -- the blocks of the file, the indirect block and the blocks taken are distinct
  have hL : (present.map (fun bn => refs (place bn)) ++ (E ++ T)).Nodup := by
    rw [List.nodup_append, List.nodup_append]
    refine ⟨?_, ⟨?_, ?_, ?_⟩, ?_⟩
    · apply List.Nodup.map_on
      · intro bn hbn bn' _ heq
        exact place_inj (hinj _ _ (hpresent bn hbn) heq)
      · rw [← hmapped, hr]
        exact (hnodup.sublist (List.take_sublist _ _)).filter _
    · rw [← hE]
      split_ifs <;> simp
    · rw [hT]
      exact hfreeNodup.sublist (List.take_sublist _ _)
    · intro a ha b hb heq
      obtain ⟨-, hne, rfl⟩ := (hEmem a).mp ha
      exact hused _ hne (heq ▸ hTfree b hb)
    · intro a ha b hb heq
      obtain ⟨bn, hbn, rfl⟩ := List.mem_map.mp ha
      have hne := hpresent bn hbn
      rcases List.mem_append.mp hb with hbE | hbT
      · obtain ⟨-, -, hx⟩ := (hEmem b).mp hbE
        exact place_ne bn (hinj _ _ hne (heq.trans hx.symm))
      · exact hused _ hne (heq ▸ hTfree b hbT)
  have hset : (plan bb refs free bns).calls.toFinset =
      (present.map (fun bn => refs (place bn)) ++ (E ++ T)).toFinset ∪ (T.map bb).toFinset := by
    ext x
    rw [List.mem_toFinset, hmem, Finset.mem_union, List.mem_toFinset, List.mem_toFinset,
      List.mem_append, List.mem_append, List.mem_map, List.mem_map, hEmem]
    have hfile : (∃ bn ∈ r, refs (place bn) ≠ 0 ∧ refs (place bn) = x) ↔
        ∃ bn ∈ present, refs (place bn) = x := by
      rw [← hmapped]
      simp [and_assoc]
    unfold Logs
    rw [hfile]
    ac_nf
  have hdisj : Disjoint (present.map (fun bn => refs (place bn)) ++ (E ++ T)).toFinset
      (T.map bb).toFinset := by
    rw [Finset.disjoint_left]
    intro x hx hx'
    rw [List.mem_toFinset] at hx hx'
    obtain ⟨b, hb, rfl⟩ := List.mem_map.mp hx'
    obtain ⟨hnot, hrefs⟩ := hbb b (hTfree b hb)
    rcases List.mem_append.mp hx with hfile | hrest
    · obtain ⟨bn, hbn, heq⟩ := List.mem_map.mp hfile
      exact hrefs _ (hpresent bn hbn) heq
    · rcases List.mem_append.mp hrest with hbE | hbT
      · obtain ⟨-, hne, heq⟩ := (hEmem _).mp hbE
        exact hrefs _ hne heq
      · exact hnot (hTfree _ hbT)
  have hElen : E.length = if newEntry refs r = true ∧ refs 12 ≠ 0 then 1 else 0 := by
    rw [← hE]
    split_ifs <;> rfl
  rw [hset, Finset.card_union_of_disjoint hdisj, List.toFinset_card_of_nodup hL,
    List.length_append, List.length_append, List.length_map, hElen]
  omega

end Plan

theorem chunkBlocks_nodup (off n : Nat) : (chunkBlocks off n).Nodup := by
  unfold chunkBlocks
  split_ifs
  · exact List.nodup_nil
  · exact List.nodup_range'

/-- The free blocks last for a write if there are enough. -/
theorem Cached.writeLog_complete {s : FsState} {ip : Fin ninode} (h : Cached s ip) {off n : Nat} :
    (s.writeLog ip off n).complete = true ↔
      taken ((s.icache ip).copy.ref s.disk) (chunkBlocks off n) ≤
        (freeBlocks s.sb s.disk).length := by
  refine plan_complete_iff _ (chunkBlocks_nodup off n) fun b hb => ?_
  have hge := (h.work.nmeta_le hb).1
  have hmeta := h.work.geo.two_lt_nmeta
  omega

end Xv6.Fs
